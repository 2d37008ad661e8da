import Didux.Backend.Header

set_option autoImplicit false

namespace Didux.Backend

open Sport Plain

def hashedForm (codec : Codec) (h : Header) : Header :=
  if h.mixDigest = sportDigest then (sportFilteredHeader codec h true).getD h else h

section

variable (codec : Codec) (h : Header)

theorem hash_form : h.hash codec = codec.rlpHash (hashedForm codec h) := by
  by_cases digest : h.mixDigest = sportDigest
  · cases filtered : sportFilteredHeader codec h true with
    | none => simp [Header.hash, hashedForm, filtered]
    | some form => simp [Header.hash, hashedForm, digest, filtered]
  · simp [Header.hash, hashedForm, digest]

theorem filtered_some (extra : SportExtra) (keepSeal : Bool) (found : extractSportExtra codec h = some extra) :
    sportFilteredHeader codec h keepSeal =
      some (withExtra codec h ⟨extra.fullnodes, if keepSeal then extra.speakerSeal else [], []⟩) := by
  simp [sportFilteredHeader, found]

theorem sig_hash_with_extra (lawful : codec.RoundTrips) (h : Header) (old new : SportExtra)
    (found : extractSportExtra codec h = some old) (same : new.fullnodes = old.fullnodes) :
    sigHash codec (withExtra codec h new) = sigHash codec h := by
  have long := extract_vanity codec h old found
  have written := extract_with_extra codec lawful h new long
  rw [sigHash, sigHash, filtered_some codec h old false found, filtered_some codec _ new false written, same,
    with_extra_twice codec h _ _ long]
  rfl

theorem filtered_idempotent (lawful : codec.RoundTrips) (h : Header) (extra : SportExtra) (keepSeal : Bool)
    (found : extractSportExtra codec h = some extra) (filtered : Header)
    (first : sportFilteredHeader codec h keepSeal = some filtered) :
    sportFilteredHeader codec filtered keepSeal = some filtered := by
  have long := extract_vanity codec h extra found
  rw [filtered_some codec h extra keepSeal found, Option.some.injEq] at first
  subst filtered
  have written := extract_with_extra codec lawful h ⟨extra.fullnodes, if keepSeal then extra.speakerSeal else [], []⟩ long
  rw [filtered_some codec _ _ keepSeal written, with_extra_twice codec h _ _ long]
  cases keepSeal <;> rfl

theorem write_committed_seals_eq (header : Header) (extra : SportExtra) (committedSeals : List Bytes)
    (found : extractSportExtra codec h = some extra) (written : writeCommittedSeals codec h committedSeals = .ok header) :
    header = withExtra codec h { extra with committedSeal := committedSeals } := by
  simp only [writeCommittedSeals, found] at written
  split_ifs at written
  exact (Except.ok.inj written).symm

theorem write_seal_eq (header : Header) (extra : SportExtra) (sig : Bytes)
    (found : extractSportExtra codec h = some extra) (written : writeSeal codec h sig = .ok header) :
    header = withExtra codec h { extra with speakerSeal := sig } := by
  simp only [writeSeal, found] at written
  split_ifs at written
  exact (Except.ok.inj written).symm

structure SameButSeals (codec : Codec) (h other : Header) : Prop where
  fields : { other with extra := h.extra } = h
  vanity : other.extra.take sportExtraVanity = h.extra.take sportExtraVanity
  extras : (extractSportExtra codec other).map (fun extra => (extra.fullnodes, extra.speakerSeal)) =
    (extractSportExtra codec h).map fun extra => (extra.fullnodes, extra.speakerSeal)

theorem hashed_form_fields : { hashedForm codec h with extra := h.extra } = h := by
  by_cases digest : h.mixDigest = sportDigest
  · cases found : extractSportExtra codec h with
    | none => rw [hashedForm, if_pos digest, sportFilteredHeader, found, Option.map_none, Option.getD_none]
    | some extra => rw [hashedForm, if_pos digest, filtered_some codec h extra true found, Option.getD_some, withExtra]
  · rw [hashedForm, if_neg digest]

theorem hashed_form_vanity : (hashedForm codec h).extra.take sportExtraVanity = h.extra.take sportExtraVanity := by
  by_cases digest : h.mixDigest = sportDigest
  · cases found : extractSportExtra codec h with
    | none => simp [hashedForm, sportFilteredHeader, found]
    | some extra =>
      have long := List.length_take_of_le (extract_vanity codec h extra found)
      simp only [hashedForm, digest, filtered_some codec h extra true found]
      exact List.take_left' long
  · simp [hashedForm, digest]

theorem hashed_form_extras (lawful : codec.RoundTrips) (h : Header) :
    (extractSportExtra codec (hashedForm codec h)).map (fun extra => (extra.fullnodes, extra.speakerSeal)) =
      (extractSportExtra codec h).map fun extra => (extra.fullnodes, extra.speakerSeal) := by
  by_cases digest : h.mixDigest = sportDigest
  · cases found : extractSportExtra codec h with
    | none => simp [hashedForm, sportFilteredHeader, found]
    | some extra =>
      have long := extract_vanity codec h extra found
      simp [hashedForm, digest, filtered_some codec h extra true found, extract_with_extra codec lawful h _ long]
  · simp [hashedForm, digest]

theorem same_form_same_but_seals (lawful : codec.RoundTrips) (h other : Header)
    (same : hashedForm codec h = hashedForm codec other) : SameButSeals codec h other where
  fields := by
    have mine := hashed_form_fields codec h
    have others := hashed_form_fields codec other
    rw [← same] at others
    rw [← others]
    exact mine
  vanity := by rw [← hashed_form_vanity codec other, ← hashed_form_vanity codec h, same]
  extras := by rw [← hashed_form_extras codec lawful other, ← hashed_form_extras codec lawful h, same]

def Codec.Separates (codec : Codec) (h other : Header) : Prop :=
  codec.rlpHash (hashedForm codec h) = codec.rlpHash (hashedForm codec other) → hashedForm codec h = hashedForm codec other

theorem hash_same_but_seals (lawful : codec.RoundTrips) (h other : Header) (separates : codec.Separates h other)
    (same : h.hash codec = other.hash codec) : SameButSeals codec h other := by
  rw [hash_form, hash_form] at same
  exact same_form_same_but_seals codec lawful h other (separates same)

-- Seals can be written into every header with a Sport extra. Committed seals
-- stay outside of both hashes, of Hash only if the mix digest asks for it.
theorem seal_encoding (codec : Codec) (lawful : codec.RoundTrips) (h : Header) (extra : SportExtra)
    (found : extractSportExtra codec h = some extra) :
    (∀ committedSeals : List Bytes, committedSeals ≠ [] → (∀ s ∈ committedSeals, s.length = sportExtraSeal) →
      ∃ header, writeCommittedSeals codec h committedSeals = .ok header) ∧
    (∀ committedSeals header, writeCommittedSeals codec h committedSeals = .ok header →
      (h.mixDigest = sportDigest → header.hash codec = h.hash codec) ∧ sigHash codec header = sigHash codec h ∧
      extractSportExtra codec header = some { extra with committedSeal := committedSeals }) ∧
    (∀ sig header, writeSeal codec h sig = .ok header → sigHash codec header = sigHash codec h) ∧
    (∀ keepSeal filtered, sportFilteredHeader codec h keepSeal = some filtered →
      sportFilteredHeader codec filtered keepSeal = some filtered) ∧
    ∀ other, (extractSportExtra codec other).isSome → codec.Separates h other → h.hash codec = other.hash codec →
      SameButSeals codec h other := by
  have long := extract_vanity codec h extra found
  refine ⟨?_, ?_, ?_, ?_, ?_⟩
  · intro committedSeals nonempty lengths
    have fitting : ¬ (committedSeals.any fun s => s.length != sportExtraSeal) = true := by
      simpa using lengths
    refine ⟨withExtra codec h { extra with committedSeal := committedSeals }, ?_⟩
    rw [writeCommittedSeals, if_neg (by simpa using nonempty), if_neg fitting, found]
  · intro committedSeals header written
    cases write_committed_seals_eq codec h header extra committedSeals found written
    refine ⟨fun digest => hash_committed_seals codec lawful h extra committedSeals digest found, ?_, ?_⟩
    · exact sig_hash_with_extra codec lawful h extra _ found rfl
    · exact extract_with_extra codec lawful h _ long
  · intro sig header written
    cases write_seal_eq codec h header extra sig found written
    exact sig_hash_with_extra codec lawful h extra _ found rfl
  · intro keepSeal filtered first
    exact filtered_idempotent codec lawful h extra keepSeal found filtered first
  · intro other _ separates same
    exact hash_same_but_seals codec lawful h other separates same

end

namespace Plain

def sized : Codec := { codec with rlpHash := fun h => BitVec.ofNat 256 (h.extra.length + 1) }

def anySeal : Bytes := List.replicate sportExtraSeal 7

end Plain

-- Without the Sport digest Hash covers the whole header, committed seals and all.
theorem other_digest_hash_changes : ∃ h header, (extractSportExtra sized h).isSome ∧ h.mixDigest ≠ sportDigest ∧
    writeCommittedSeals sized h [anySeal] = .ok header ∧ header.hash sized ≠ h.hash sized := by
  refine ⟨{ header 0 1 0 1 0 0 with mixDigest := 0 }, _, ?_, ?_, rfl, ?_⟩
  · decide +kernel
  · decide +kernel
  · decide +kernel

theorem seal_encoding_genesis_child : ∃ header,
    writeCommittedSeals Plain.sized (Plain.header 0 1 0 1 0 0) [Plain.anySeal] = .ok header ∧
      header.hash Plain.sized = (Plain.header 0 1 0 1 0 0).hash Plain.sized := by
  have found : (extractSportExtra sized (header 0 1 0 1 0 0)).isSome = true := by decide +kernel
  obtain ⟨extra, decoded⟩ := Option.isSome_iff_exists.mp found
  obtain ⟨writable, kept, _⟩ := seal_encoding sized round_trips (header 0 1 0 1 0 0) extra decoded
  obtain ⟨header, written⟩ := writable [anySeal] (List.cons_ne_nil _ _) (by simp [anySeal])
  exact ⟨header, written, (kept _ header written).1 rfl⟩

end Didux.Backend
