import Didux.Backend.Import
import Didux.Backend.SnapshotCache

set_option autoImplicit false

namespace Didux.Backend

open Sport Backend.Snapshot List Plain Node FullnodeSet

-- A node that makes blocks. The candidates are in the order in which the map is walked; `balances` is the head state, or
-- none where it cannot be opened.
structure Sealer (codec : Codec) where
  node : Node codec
  address : Address
  candidates : List (Address × Bool)
  coreStarted : Bool
  minFunds : Int
  balances : Option (Address → Int)

-- What Finalize and NewBlock fill in: the root after the rewards, the transactions and what their receipts give.
structure Body where
  root : Hash
  receiptHash : Hash
  bloom : BitVec 2048
  transactions : List Bytes

-- number-1, which wraps around.
def numberBefore (number : Nat) : Nat := uint64 (number + 2 ^ 64 - 1)

theorem number_before {n : Nat} (small : n + 1 < 2 ^ 64) : numberBefore (uint64 (n + 1)) = n := by
  simp only [numberBefore, uint64]
  omega

-- The time of a block: one period after its parent, or the clock where that is past. Unix times are signed.
def prepareTime (blockPeriod now parentTime : Nat) : Nat :=
  let time := uint64 (parentTime + blockPeriod)
  if int64 time < now then uint64 now else time

theorem extract_prepare_extra (codec : Codec) (lawful : codec.RoundTrips) (h header : Header) (vals : List Address)
    (written : header.extra = prepareExtra codec h vals) : extractSportExtra codec header = some ⟨vals, [], []⟩ := by
  have vanity : ((h.extra ++ replicate (sportExtraVanity - h.extra.length) 0).take sportExtraVanity).length = sportExtraVanity := by
    rw [length_take, length_append, length_replicate]
    omega
  have payload : header.extra.drop sportExtraVanity = codec.encodeExtra ⟨vals, [], []⟩ := by
    rw [written]
    exact drop_left' vanity
  have enough : ¬ header.extra.length < sportExtraVanity := by
    rw [written, prepareExtra, length_append]
    omega
  rw [extractSportExtra, if_neg enough, payload]
  exact lawful _

namespace Sealer

variable {codec : Codec}

variable (sealer : Sealer codec)

def validCandidates (snap : Snapshot) : Except EngineError (List (Address × Bool)) :=
  if sealer.coreStarted then
    match sealer.balances with
    | none => .error .missingState
    | some balance =>
      .ok (sealer.candidates.filter fun vote => snap.checkVote vote.1 vote.2 && !decide (balance vote.1 < sealer.minFunds))
  else .ok (sealer.candidates.filter fun vote => snap.checkVote vote.1 vote.2)

def castVote (header : Header) (valid : List (Address × Bool)) (pick : Nat) : Header :=
  match valid[pick % valid.length]? with
  | none => header
  | some (address, authorize) =>
    { header with coinbase := address, nonce := if authorize then nonceAuthVote else nonceDropVote }

def fill (codec : Codec) (header : Header) (time : Nat) (vals : List Address) (valid : List (Address × Bool)) (pick : Nat) : Header :=
  let header := castVote header valid pick
  { header with extra := prepareExtra codec header vals, time := time }

-- Prepare from where the fields without use are set, with the number of the parent.
def prepareAfter (caches : Caches) (header : Header) (previous pick : Nat) : Except EngineError (Header × Caches) :=
  match sealer.node.chain.getHeader header.parentHash previous with
  | none => .error .unknownAncestor
  | some parent =>
    match sealer.node.snapshot caches previous header.parentHash [] with
    | .error e => .error e
    | .ok (snap, caches) =>
      match sealer.validCandidates snap with
      | .error e => .error e
      | .ok valid =>
        let time := prepareTime sealer.node.config.blockPeriod sealer.node.now parent.time
        .ok (fill codec header time snap.fullnodes valid pick, caches)

def prepare (caches : Caches) (header : Header) (pick : Nat) : Except EngineError (Header × Caches) :=
  let header := { header with nonce := emptyNonce, mixDigest := sportDigest, difficulty := defaultDifficulty }
  sealer.prepareAfter caches header (numberBefore (uint64 header.number)) pick

theorem fill_fields (lawful : codec.RoundTrips) (header : Header) (time : Nat) (vals : List Address) (valid : List (Address × Bool))
    (pick : Nat) (blank : header.nonce = emptyNonce) : (fill codec header time vals valid pick).number = header.number ∧
      (fill codec header time vals valid pick).parentHash = header.parentHash ∧
      (fill codec header time vals valid pick).mixDigest = header.mixDigest ∧
      (fill codec header time vals valid pick).difficulty = header.difficulty ∧
      (voteOf (fill codec header time vals valid pick).nonce).isSome ∧ (fill codec header time vals valid pick).time = time ∧
      extractSportExtra codec (fill codec header time vals valid pick) = some ⟨vals, [], []⟩ := by
  have extra := extract_prepare_extra codec lawful (castVote header valid pick) (fill codec header time vals valid pick) vals rfl
  have fields : (castVote header valid pick).number = header.number ∧ (castVote header valid pick).parentHash = header.parentHash ∧
      (castVote header valid pick).mixDigest = header.mixDigest ∧ (castVote header valid pick).difficulty = header.difficulty ∧
      (voteOf (castVote header valid pick).nonce).isSome := by
    unfold castVote
    split
    · refine ⟨rfl, rfl, rfl, rfl, ?_⟩
      rw [blank]
      decide
    · next authorize _ =>
        refine ⟨rfl, rfl, rfl, rfl, ?_⟩
        have both : ∀ b, (voteOf (if b = true then nonceAuthVote else nonceDropVote)).isSome = true := by decide
        exact both authorize
  obtain ⟨number, parentHash, digest, difficulty, vote⟩ := fields
  exact ⟨number, parentHash, digest, difficulty, vote, rfl, extra⟩

def finalize (header : Header) (body : Body) : Block codec where
  header := { header with
    root := body.root
    uncleHash := codec.calcUncleHash []
    txHash := codec.deriveSha body.transactions
    receiptHash := body.receiptHash
    bloom := body.bloom }
  transactions := body.transactions
  uncles := []

def updateBlock (block : Block codec) : Except EngineError (Block codec) :=
  match sealer.node.sign (hashBytes (sigHash codec block.header)) with
  | none => .error .invalidSignature
  | some sig =>
    match writeSeal codec block.header sig with
    | .error e => .error e
    | .ok header => .ok (block.withSeal header)

def propose (caches : Caches) (header : Header) (pick : Nat) (body : Body) : Except EngineError (Block codec) :=
  match sealer.prepare caches header pick with
  | .error e => .error e
  | .ok (prepared, _) => sealer.updateBlock (finalize prepared body)

end Sealer

namespace HeaderChain

variable {codec : Codec}

-- Every header after the genesis block was accepted by VerifyHeader of a node on the chain.
def Accepted (chain : HeaderChain codec) (config : Config) : Prop :=
  ∀ n header, chain.header (n + 1) = some header →
    ∃ node caches parents next, chain.Serving config node ∧ chain.Left config caches ∧ (∀ parent ∈ parents, chain.Apart parent) ∧
      node.verifyHeader caches header parents = .ok next

variable {node : Node codec} {header : Header} {chain : HeaderChain codec} {config : Config} {n : Nat}

theorem standalone_nonce (passed : node.verifyStandalone header = .ok ()) : (voteOf header.nonce).isSome := by
  simp only [verifyStandalone] at passed
  split_ifs at passed with future format nonce
  simp only [not_and_or, not_not] at nonce
  rcases nonce with same | same | same <;> rw [same] <;> decide

theorem verify_header_seen {caches next : Caches} {parents : List Header}
    (number : uint64 header.number ≠ 0) (accepted : node.verifyHeader caches header parents = .ok next) :
    node.verifyStandalone header = .ok () ∧ ∃ first before snap after signer,
      node.snapshot caches (uint64 header.number - 1) header.parentHash parents = .ok (first, before) ∧
      node.snapshot before (uint64 header.number - 1) header.parentHash parents = .ok (snap, after) ∧
      ecrecover codec header = .ok signer ∧ signer ∈ snap.members := by
  simp only [verifyHeader] at accepted
  split at accepted
  · cases accepted
  · next standalone =>
      refine ⟨standalone, ?_⟩
      simp only [verifyCascadingFields, if_neg number] at accepted
      split at accepted
      · cases accepted
      · split_ifs at accepted
        split at accepted
        · cases accepted
        · next first before taken =>
            split at accepted
            · cases accepted
            · next after signed =>
                simp only [verifySigner, if_neg number] at signed
                split at signed
                · cases signed
                · next snap after again =>
                    split at signed
                    · cases signed
                    · next signer recovered =>
                        split at signed
                        · cases signed
                        · next found known =>
                            obtain ⟨-, member⟩ := (get_by_address_some_iff _ _ _).mp known
                            exact ⟨first, before, snap, after, signer, taken, again, recovered, member⟩

theorem at_unique {s t : Snapshot} (first : chain.At config n s) (second : chain.At config n t) : s.Same t := by
  obtain ⟨start, replayed, made, applied, same⟩ := first
  obtain ⟨start', replayed', made', applied', same'⟩ := second
  cases made.symm.trans made'
  cases applied.symm.trans applied'
  exact Same.trans s replayed t same (Same.symm t replayed same')

theorem at_members (chain : HeaderChain codec) (config : Config) (n : Nat) (s t : Snapshot) (first : chain.At config n s)
    (second : chain.At config n t) : s.members = t.members :=
  Same.members s t (at_unique first second)

theorem apply_member (codec : Codec) (epoch : Nat) (s : Snapshot) (header : Header) (signer : Address) (positive : epoch ≠ 0)
    (recovered : ecrecover codec header = .ok signer) (member : signer ∈ s.members) (vote : (voteOf header.nonce).isSome) :
    ∃ next, applyHeader codec epoch s header = .ok next := by
  obtain ⟨authorize, vote⟩ := Option.isSome_iff_exists.mp vote
  have kept : signer ∈ (s.resetVotes epoch (uint64 header.number)).fullnodeSet.fullnodes := by
    unfold resetVotes
    split <;> exact member
  have known := (get_by_address_some_iff _ signer signer).mpr ⟨rfl, kept⟩
  simp only [applyHeader, if_neg positive, recovered, known, vote]
  exact ⟨_, rfl⟩

theorem at_next (distinct : Function.Injective codec.text) (chain : HeaderChain codec) (config : Config)
    (positive : config.epoch ≠ 0) (n : Nat) (header : Header) (s : Snapshot) (signer : Address)
    (reached : chain.At config n s) (here : chain.header (n + 1) = some header)
    (recovered : ecrecover codec header = .ok signer) (member : signer ∈ s.members) (vote : (voteOf header.nonce).isSome) :
    ∃ next, chain.At config (n + 1) next := by
  obtain ⟨first, t, made, applied, same⟩ := reached
  obtain ⟨epoch, number, -, -⟩ := genesis_snapshot_parts chain config first made
  obtain ⟨kept, counted, -, -⟩ := apply_ok_parts codec first t _ applied
  have linked : follows first.number (chain.path n ++ [header]) = true := by
    rw [number, ← path_succ chain n header here]
    exact path_follows chain (n + 1)
  have after : follows t.number [header] = true := by
    have split := (follows_append first.number (chain.path n) [header]).symm.trans linked
    rw [← follows_uint64, counted, follows_uint64]
    exact (Bool.and_eq_true_iff.mp split).2
  have copied : signer ∈ (t.copy codec.text).members := by
    rw [Same.members s t same] at member
    exact (copy_perm codec.text t.fullnodeSet).mem_iff.mpr member
  obtain ⟨next, ran⟩ := apply_member codec t.epoch (t.copy codec.text) header signer (by rw [kept, epoch]; exact positive)
    recovered copied vote
  have outcome := apply_append codec distinct first (chain.path n) [header] linked
  rw [applied] at outcome
  have one : ∃ u, t.apply codec [header] = .ok u := by
    rw [apply_cons, if_pos after]
    simp only [applyHeaders, ran]
    exact ⟨_, rfl⟩
  obtain ⟨u, one⟩ := one
  have bound : SameOutcome (first.apply codec (chain.path n ++ [header])) (.ok u) := one ▸ outcome
  rw [← path_succ chain n header here] at bound
  cases whole : first.apply codec (chain.path (n + 1)) with
  | error e =>
    rw [whole] at bound
    exact bound.elim
  | ok v => exact ⟨v, first, v, made, whole, Same.refl v⟩

theorem stored_header (lawful : codec.RoundTrips) (serving : chain.Serving config node) (complete : chain.Complete node)
    (here : chain.header n = some header) :
    ∃ found, node.chain.getHeader (header.hash codec) n = some found ∧ SameButSeals codec header found ∧
      found.hash codec = header.hash codec := by
  obtain ⟨found, known⟩ := Option.isSome_iff_exists.mp (complete.headers n header here)
  obtain ⟨hash, own⟩ := serving.byHash _ _ _ known
  exact ⟨found, known, hash_same_but_seals codec lawful header found (own n header here) hash.symm, hash⟩

section OnChain

variable (lawful : codec.RoundTrips) (distinct : Function.Injective codec.text) (chain : HeaderChain codec) (config : Config)
  (apart : ∀ n header, chain.header n = some header → chain.Apart header)

include lawful distinct apart

theorem accepted_at (positive : config.epoch ≠ 0) (accepted : chain.Accepted config) (first : Snapshot)
    (made : chain.genesisSnapshot config = some first) (n : Nat) (header : Header) (small : n < 2 ^ 64)
    (here : chain.header n = some header) : ∃ s, chain.At config n s := by
  induction n generalizing header with
  | zero => exact ⟨first, first, first, made, rfl, Same.refl first⟩
  | succ n ih =>
    obtain ⟨previous, before, link⟩ := chained_parent chain.genesis chain.rest chain.links n header here
    obtain ⟨s, reached⟩ := ih previous (by omega) before
    have number : uint64 header.number = n + 1 := by rw [header_number chain (n + 1) header here, uint64, Nat.mod_eq_of_lt small]
    obtain ⟨node, caches, parents, next, serving, left, others, verified⟩ := accepted n header here
    obtain ⟨standalone, one, kept, snap, after, signer, taken, again, recovered, member⟩ :=
      verify_header_seen (by omega) verified
    rw [number, link] at taken again
    have sound := left_sound lawful distinct chain config apart caches left
    obtain ⟨-, still⟩ := snapshot_ok lawful distinct chain config apart node serving caches sound n previous parents before others
      one kept taken
    obtain ⟨there, -⟩ := snapshot_ok lawful distinct chain config apart node serving kept still n previous parents before others
      snap after again
    rw [at_members chain config n snap s there reached] at member
    exact at_next distinct chain config positive n header s signer reached here recovered member
      (standalone_nonce standalone)

theorem snapshot_found {node : Node codec} (serving : chain.Serving config node) (complete : chain.Complete node) {caches : Caches}
    (sound : chain.Sound config caches) {n : Nat} {header : Header} (small : n < 2 ^ 64) (here : chain.header n = some header)
    {s : Snapshot} (reached : chain.At config n s) :
    ∃ found next, node.snapshot caches n (header.hash codec) [] = .ok (found, next) ∧ chain.At config n found ∧
      chain.Sound config next := by
  obtain ⟨first, t, made, applied, -⟩ := reached
  obtain ⟨⟨found, headers, kept⟩, ran⟩ := gather_complete lawful chain config apart node serving complete first made
    caches n header [] [] small here nil_suffix
  have gathered := gather_ok lawful distinct chain config node serving caches sound n header [] [] _ _ _ here (fun _ => nofun) ran
  obtain ⟨_, begun, same⟩ := gathered_apply distinct chain config caches kept n found headers gathered
  cases made.symm.trans begun
  rw [applied] at same
  have answered : ∃ result, node.snapshot caches n (header.hash codec) [] = .ok result := by
    simp only [snapshot, ran]
    cases replayed : found.apply codec headers with
    | error e =>
      rw [replayed] at same
      exact same.elim
    | ok snap =>
      simp only
      split_ifs <;> exact ⟨_, rfl⟩
  obtain ⟨⟨snap, next⟩, answered⟩ := answered
  exact ⟨snap, next, answered, snapshot_ok lawful distinct chain config apart node serving caches sound n header [] here
    (fun _ => nofun) snap next answered⟩

theorem verify_on_chain (node : Node codec) (serving : chain.Serving config node) (complete : chain.Complete node) (caches : Caches)
    (sound : chain.Sound config caches) (n : Nat) (parent header : Header) (small : n + 1 < 2 ^ 64) (here : chain.header n = some parent)
    (number : header.number = n + 1) (link : header.parentHash = parent.hash codec)
    (standalone : node.verifyStandalone header = .ok ()) (extra : SportExtra) (found : extractSportExtra codec header = some extra)
    (signer : Address) (recovered : ecrecover codec header = .ok signer) (s : Snapshot) (reached : chain.At config n s)
    (member : signer ∈ s.members) : ∃ snap next, chain.At config n snap ∧ node.verifyHeader caches header [] =
      if header.time < uint64 (parent.time + config.blockPeriod) then .error .invalidTimestamp
      else (checkCommittedSeals codec node.chain.sixtySixPercentBlock snap header extra.committedSeal).map fun _ => next := by
  have short : uint64 header.number = n + 1 := by rw [number, uint64, Nat.mod_eq_of_lt small]
  have nonzero : ¬ uint64 header.number = 0 := by omega
  have previous : uint64 header.number - 1 = n := by omega
  obtain ⟨stored, known, same, hash⟩ := stored_header lawful serving complete here
  have time : stored.time = parent.time := (congrArg Header.time same.fields :)
  have below : uint64 stored.number = n := by
    have numbered : stored.number = parent.number := (congrArg Header.number same.fields :)
    rw [numbered, header_number chain n parent here, uint64, Nat.mod_eq_of_lt (by omega)]
  obtain ⟨one, first, taken, -, sound⟩ :=
    snapshot_found lawful distinct chain config apart serving complete sound (by omega) here reached
  obtain ⟨two, second, again, there, sound⟩ :=
    snapshot_found lawful distinct chain config apart serving complete sound (by omega) here reached
  obtain ⟨snap, next, last, at_, -⟩ :=
    snapshot_found lawful distinct chain config apart serving complete sound (by omega) here reached
  have signed : node.verifySigner first header [] = .ok second := by
    have among : signer ∈ two.members := at_members chain config n s two reached there ▸ member
    have listed := (get_by_address_some_iff _ signer signer).mpr ⟨rfl, among⟩
    simp only [verifySigner, if_neg nonzero, previous, link, again, recovered, listed]
  refine ⟨snap, next, at_, ?_⟩
  simp only [verifyHeader, standalone, verifyCascadingFields, parentOf, getLast?_nil, previous,
    link, known, below, hash, ne_eq, not_true_eq_false, or_self, if_false, time, serving.config, taken, signed]
  split_ifs
  · rfl
  · simp only [verifyCommittedSeals, if_neg nonzero, previous, link, last, found]
    cases checkCommittedSeals codec node.chain.sixtySixPercentBlock snap header extra.committedSeal <;> rfl

theorem prepare_on_chain (sealer : Sealer codec) (serving : chain.Serving config sealer.node) (complete : chain.Complete sealer.node)
    (caches : Caches) (sound : chain.Sound config caches) (ready : sealer.coreStarted = true → sealer.balances.isSome)
    (n : Nat) (parent draft : Header) (small : n + 1 < 2 ^ 64) (here : chain.header n = some parent)
    (number : draft.number = n + 1) (link : draft.parentHash = parent.hash codec) (s : Snapshot) (reached : chain.At config n s)
    (pick : Nat) : ∃ prepared next snap, sealer.prepare caches draft pick = .ok (prepared, next) ∧ chain.At config n snap ∧
      prepared.number = draft.number ∧ prepared.parentHash = draft.parentHash ∧ prepared.mixDigest = sportDigest ∧
      prepared.difficulty = defaultDifficulty ∧ (voteOf prepared.nonce).isSome ∧
      prepared.time = prepareTime config.blockPeriod sealer.node.now parent.time ∧
      extractSportExtra codec prepared = some ⟨snap.fullnodes, [], []⟩ := by
  have previous : numberBefore (uint64 draft.number) = n := by rw [number, number_before small]
  obtain ⟨stored, known, same, -⟩ := stored_header lawful serving complete here
  have time : stored.time = parent.time := (congrArg Header.time same.fields :)
  obtain ⟨snap, next, taken, there, -⟩ :=
    snapshot_found lawful distinct chain config apart serving complete sound (by omega) here reached
  obtain ⟨valid, listed⟩ : ∃ valid, sealer.validCandidates snap = .ok valid := by
    unfold Sealer.validCandidates
    split
    · next started =>
        obtain ⟨balance, opened⟩ := Option.isSome_iff_exists.mp (ready started)
        rw [opened]
        exact ⟨_, rfl⟩
    · exact ⟨_, rfl⟩
  rw [← link] at known taken
  let blank := { draft with nonce := emptyNonce, mixDigest := sportDigest, difficulty := defaultDifficulty }
  have made : sealer.prepareAfter caches blank n pick =
      .ok (Sealer.fill codec blank (prepareTime config.blockPeriod sealer.node.now parent.time) snap.fullnodes valid pick, next) := by
    simp only [Sealer.prepareAfter, blank, known, taken, listed, time, serving.config]
  obtain ⟨number', parentHash, digest, difficulty, vote, clock, extra⟩ := Sealer.fill_fields lawful blank
    (prepareTime config.blockPeriod sealer.node.now parent.time) snap.fullnodes valid pick rfl
  refine ⟨_, next, snap, ?_, there, number', parentHash, digest, difficulty, vote, clock, extra⟩
  rw [← made, Sealer.prepare, previous]

end OnChain

end HeaderChain

structure Proposed (codec : Codec) (signer : Address) (snap : Snapshot) (parentHash : Hash) (number time : Nat) (header : Header) :
    Prop where
  number : header.number = number
  parentHash : header.parentHash = parentHash
  digest : header.mixDigest = sportDigest
  difficulty : header.difficulty = defaultDifficulty
  uncleHash : header.uncleHash = codec.calcUncleHash []
  vote : (voteOf header.nonce).isSome
  time : header.time = time
  extra : ∃ sig, extractSportExtra codec header = some ⟨snap.fullnodes, sig, []⟩
  signer : ecrecover codec header = .ok signer

section Proposed

variable {codec : Codec}

theorem proposed_standalone (node : Node codec) (header : Header) (extra : SportExtra) (known : header.time ≤ node.now)
    (found : extractSportExtra codec header = some extra) (digest : header.mixDigest = sportDigest)
    (difficulty : header.difficulty = defaultDifficulty) (uncleHash : header.uncleHash = codec.calcUncleHash [])
    (vote : (voteOf header.nonce).isSome) : node.verifyStandalone header = .ok () := by
  have nonce : ¬ (header.nonce ≠ emptyNonce ∧ header.nonce ≠ nonceAuthVote ∧ header.nonce ≠ nonceDropVote) := by
    rintro ⟨-, auth, drop⟩
    simp [voteOf, auth, drop] at vote
  have past : ¬ (node.now < header.time ∧ header.time < 2 ^ 63) := fun future => Nat.not_lt.mpr known future.1
  rw [verifyStandalone, if_neg past, found, if_neg (by simp), if_neg nonce, if_neg (not_not.mpr digest),
    if_neg (not_not.mpr uncleHash), if_neg (not_not.mpr difficulty)]

theorem update_block_ok (lawful : codec.RoundTrips) {sealer : Sealer codec} {block : Block codec} {snap : Snapshot}
    (signs : ∀ hash, ∃ sig, sealer.node.sign (hashBytes hash) = some sig ∧ sig.length = sportExtraSeal ∧
      codec.getSignatureAddress (hashBytes hash) sig = some sealer.address)
    (found : extractSportExtra codec block.header = some ⟨snap.fullnodes, [], []⟩) : ∃ sig, sealer.updateBlock block =
        .ok (block.withSeal (withExtra codec block.header ⟨snap.fullnodes, sig, []⟩)) ∧
      ecrecover codec (withExtra codec block.header ⟨snap.fullnodes, sig, []⟩) = .ok sealer.address := by
  obtain ⟨sig, signed, length, recovers⟩ := signs (sigHash codec block.header)
  have sized : ¬ sig.length % sportExtraSeal ≠ 0 := by simp [length]
  have written := extract_with_extra codec lawful block.header ⟨snap.fullnodes, sig, []⟩ (extract_vanity codec _ _ found)
  have hash := sig_hash_with_extra codec lawful block.header ⟨snap.fullnodes, [], []⟩ ⟨snap.fullnodes, sig, []⟩ found rfl
  refine ⟨sig, ?_, ?_⟩
  · simp only [Sealer.updateBlock, signed, writeSeal, if_neg sized, found]
  · simp only [ecrecover, written, hash, recovers]

theorem int64_cases {time : Nat} (bound : time < 2 ^ 64) :
    int64 time = if time < 2 ^ 63 then (time : Int) else (time : Int) - 2 ^ 64 := by
  rw [int64, Int.bmod_def]
  have small : (time : Int) % (2 ^ 64 : Nat) = time := Int.emod_eq_of_lt (by omega) (by omega)
  rw [small]
  split_ifs <;> omega

-- A later clock than the parent's time allows is as good as the time one period after the parent. A time from 2^63 on is
-- negative to Prepare.
theorem prepare_time_late (blockPeriod now parentTime : Nat) (clock : now < 2 ^ 63) :
    uint64 (parentTime + blockPeriod) ≤ prepareTime blockPeriod now parentTime ↔ uint64 (parentTime + blockPeriod) < 2 ^ 63 := by
  have bound : uint64 (parentTime + blockPeriod) < 2 ^ 64 := Nat.mod_lt _ (by decide)
  have same : uint64 now = now := Nat.mod_eq_of_lt (by omega)
  unfold prepareTime
  dsimp only
  rw [int64_cases bound]
  split_ifs <;> omega

end Proposed

namespace HeaderChain

variable {codec : Codec}

theorem genesis_snapshot_some (chain : HeaderChain codec) (config : Config) (node : Node codec) (complete : chain.Complete node) :
    ∃ first, chain.genesisSnapshot config = some first := by
  obtain ⟨extra, decoded⟩ := Option.isSome_iff_exists.mp (verify_standalone_ok node _ complete.verified).1
  exact ⟨_, by rw [genesisSnapshot, decoded, Option.map_some]⟩

theorem propose_on_chain (lawful : codec.RoundTrips) (distinct : Function.Injective codec.text) (chain : HeaderChain codec)
    (config : Config) (apart : ∀ n header, chain.header n = some header → chain.Apart header)
    (sealer : Sealer codec) (serving : chain.Serving config sealer.node) (complete : chain.Complete sealer.node) (caches : Caches)
    (sound : chain.Sound config caches) (ready : sealer.coreStarted = true → sealer.balances.isSome)
    (signs : ∀ hash, ∃ sig, sealer.node.sign (hashBytes hash) = some sig ∧ sig.length = sportExtraSeal ∧
      codec.getSignatureAddress (hashBytes hash) sig = some sealer.address)
    (n : Nat) (parent draft : Header) (small : n + 1 < 2 ^ 64) (here : chain.header n = some parent)
    (number : draft.number = n + 1) (link : draft.parentHash = parent.hash codec) (s : Snapshot) (reached : chain.At config n s)
    (pick : Nat) (body : Body) : ∃ block snap, sealer.propose caches draft pick body = .ok block ∧ chain.At config n snap ∧
      Proposed codec sealer.address snap (parent.hash codec) (n + 1)
        (prepareTime config.blockPeriod sealer.node.now parent.time) block.header ∧
      codec.deriveSha block.transactions = block.header.txHash ∧ block.uncles = [] := by
  obtain ⟨prepared, next, snap, made, there, number', parentHash, digest, difficulty, vote, time, extra⟩ :=
    prepare_on_chain lawful distinct chain config apart sealer serving complete caches sound ready n parent draft small here number link
      s reached pick
  have found : extractSportExtra codec (Sealer.finalize prepared body : Block codec).header = some ⟨snap.fullnodes, [], []⟩ := extra
  obtain ⟨sig, sealed, recovered⟩ := update_block_ok lawful signs found
  have written := extract_with_extra codec lawful (Sealer.finalize prepared body : Block codec).header ⟨snap.fullnodes, sig, []⟩
    (extract_vanity codec _ _ found)
  refine ⟨(Sealer.finalize prepared body).withSeal
      (withExtra codec (Sealer.finalize prepared body : Block codec).header ⟨snap.fullnodes, sig, []⟩), snap, ?_, there,
    ⟨number'.trans number, parentHash.trans link, digest, difficulty, rfl, vote, time, ⟨sig, written⟩, recovered⟩, rfl, rfl⟩
  simp only [Sealer.propose, made, sealed]

-- The block is proposed, every node that knows its time judges it by the parent's time alone, and so it does with the
-- seals of enough members in it.
theorem own_proposals_verify (lawful : codec.RoundTrips) (distinct : Function.Injective codec.text) (chain : HeaderChain codec)
    (config : Config) (apart : ∀ n header, chain.header n = some header → chain.Apart header) (positive : config.epoch ≠ 0)
    (accepted : chain.Accepted config) (n : Nat) (parent : Header) (small : n + 1 < 2 ^ 64) (here : chain.header n = some parent)
    (sealer : Sealer codec) (serving : chain.Serving config sealer.node) (complete : chain.Complete sealer.node)
    (caches : Caches) (left : chain.Left config caches) (member : ∀ s, chain.At config n s → sealer.address ∈ s.members)
    (signs : ∀ hash, ∃ sig, sealer.node.sign (hashBytes hash) = some sig ∧ sig.length = sportExtraSeal ∧
      codec.getSignatureAddress (hashBytes hash) sig = some sealer.address)
    (ready : sealer.coreStarted = true → sealer.balances.isSome) (clock : sealer.node.now < 2 ^ 63)
    (draft : Header) (number : draft.number = parent.number + 1) (link : draft.parentHash = parent.hash codec)
    (pick : Nat) (body : Body) : ∃ block snap, sealer.propose caches draft pick body = .ok block ∧ chain.At config n snap ∧
      ∀ node : Node codec, chain.Serving config node → chain.Complete node → chain.Left config node.caches →
        block.header.time ≤ node.now → node.hasBadBlock block.hash = false →
        (node.verify block = .ok () ↔ uint64 (parent.time + config.blockPeriod) < 2 ^ 63) ∧
        ∀ seals : List Bytes, (∀ sig ∈ seals, sig.length = sportExtraSeal) → snap.fullnodeSet.minApprovers ≤ seals.length →
          (seals.map (codec.getSignatureAddress (prepareCommittedSeal block.hash))).Nodup →
          (∀ sig ∈ seals, ∃ a ∈ snap.members, codec.getSignatureAddress (prepareCommittedSeal block.hash) sig = some a) →
          ∃ header, writeCommittedSeals codec block.header seals = .ok header ∧
            ((∃ next, node.verifyHeader node.caches header [] = .ok next) ↔
              uint64 (parent.time + config.blockPeriod) < 2 ^ 63) := by
  have counted : draft.number = n + 1 := by rw [number, header_number chain n parent here]
  obtain ⟨first, made⟩ := genesis_snapshot_some chain config sealer.node complete
  obtain ⟨s, reached⟩ := accepted_at lawful distinct chain config apart positive accepted first made n parent (by omega) here
  have sound := left_sound lawful distinct chain config apart caches left
  obtain ⟨block, snap, proposed, there, facts, txHash, uncles⟩ := propose_on_chain lawful distinct chain config apart sealer serving
    complete caches sound ready signs n parent draft small here counted link s reached pick body
  obtain ⟨sig, found⟩ := facts.extra
  have late := prepare_time_late config.blockPeriod sealer.node.now parent.time clock
  rw [← facts.time, ← Nat.not_lt] at late
  refine ⟨block, snap, proposed, there, ?_⟩
  intro node nodeServing nodeComplete nodeLeft known unlisted
  have nodeSound := left_sound lawful distinct chain config apart node.caches nodeLeft
  constructor
  · have standalone := proposed_standalone node block.header _ known found facts.digest facts.difficulty facts.uncleHash facts.vote
    obtain ⟨found', next, -, verdict⟩ := verify_on_chain lawful distinct chain config apart node nodeServing nodeComplete node.caches
      nodeSound n parent block.header small here facts.number facts.parentHash standalone _ found _ facts.signer snap there
      (member snap there)
    rw [verify, unlisted, if_neg (by simp), if_neg (not_not.mpr txHash), uncles, if_neg (not_not.mpr rfl), verdict, ← late]
    split_ifs with early
    · simp [ignoreEmptySeals, early]
    · simp [checkCommittedSeals, Except.map, ignoreEmptySeals, early]
  · intro seals lengths enough signers members
    have some_ : seals ≠ [] := by
      rintro rfl
      have size : 0 < snap.fullnodeSet.size := length_pos_of_mem (member snap there)
      have few : 0 < snap.fullnodeSet.minApprovers := by
        simp only [minApprovers, Nat.ceilDiv_eq_add_pred_div]
        omega
      exact absurd enough (Nat.not_le.mpr few)
    have long := extract_vanity codec _ _ found
    have written := extract_with_extra codec lawful block.header ⟨snap.fullnodes, sig, seals⟩ long
    have recovered : ecrecover codec (withExtra codec block.header ⟨snap.fullnodes, sig, seals⟩) = .ok sealer.address := by
      have before := facts.signer
      simp only [ecrecover, found] at before
      simp only [ecrecover, written, sig_hash_with_extra codec lawful block.header _ ⟨snap.fullnodes, sig, seals⟩ found rfl]
      exact before
    have standalone := proposed_standalone node (withExtra codec block.header ⟨snap.fullnodes, sig, seals⟩) _ known written facts.digest
      facts.difficulty facts.uncleHash facts.vote
    obtain ⟨checked, next, at_, verdict⟩ := verify_on_chain lawful distinct chain config apart node nodeServing nodeComplete node.caches
      nodeSound n parent (withExtra codec block.header ⟨snap.fullnodes, sig, seals⟩) small here facts.number facts.parentHash standalone _
      written _ recovered snap there (member snap there)
    have same := at_members chain config n checked snap at_ there
    have quorum : checked.fullnodeSet.minApprovers = snap.fullnodeSet.minApprovers := by
      have sizes : checked.fullnodeSet.size = snap.fullnodeSet.size := congrArg length same
      rw [minApprovers, sizes, minApprovers]
    have hash : (withExtra codec block.header ⟨snap.fullnodes, sig, seals⟩).hash codec = block.hash :=
      hash_committed_seals codec lawful block.header ⟨snap.fullnodes, sig, []⟩ seals facts.digest found
    refine ⟨_, write_committed_seals_ok block.header seals _ some_ lengths found, ?_⟩
    rw [verdict, check_committed_seals_ok node.chain.sixtySixPercentBlock checked _ seals some_ (quorum ▸ enough) (hash ▸ signers)
      (by rw [hash, same]; exact members), ← late]
    have unchanged : (withExtra codec block.header ⟨snap.fullnodes, sig, seals⟩).time = block.header.time := rfl
    rw [unchanged]
    split_ifs with early
    · simp [early]
    · simp [Except.map, early]

end HeaderChain

namespace Plain

-- A header on the parent that votes for 2, signed by member 1 and with the seals of the members.
def sealedOn (parent : Header) (time : Nat) (list : List Address) (members : List UInt8) : Header :=
  let hash := BitVec.ofNat 256 (256 * (parent.number + 1) + 1)
  { header (parent.hash unary) (parent.number + 1) 0 1 2 nonceAuthVote with
    time := time
    extra := replicate 32 0 ++
      encodeExtra ⟨list, rawSeal 1 (hashBytes hash), members.map fun member => rawSeal member (prepareCommittedSeal hash)⟩ }

section Duo

variable (time : Nat) (list : List Address)

def childOf : Header := sealedOn (genesis [1]) time list [1]

theorem duo_links : chained unary (genesis [1]) [childOf time list] := ⟨rfl, rfl, trivial⟩

def duo : HeaderChain unary := ⟨genesis [1], [childOf time list], genesis_start, duo_links time list⟩

def duoNode : Node unary := holder (duo time list)

def duoSealer : Sealer unary where
  node := duoNode time list
  address := 1
  candidates := [(2, true)]
  coreStarted := true
  minFunds := 10
  balances := some fun _ => 20

theorem duo_apart (n : Nat) (header : Header) (here : (duo time list).header n = some header) : (duo time list).Apart header := by
  refine unary_apart (duo time list) (of_decide_eq_true rfl) ?_ n header here
  simp [duo, childOf, sealedOn, Plain.header, genesis]

theorem duo_serving : (duo time list).Serving ⟨1, 30000, 0⟩ (duoNode time list) := holder_serving _ (duo_apart time list)

theorem duo_complete : (duo time list).Complete (duoNode time list) := by
  refine holder_complete (duo time list) ?_
  have same : (duoNode time list).verifyStandalone (genesis [1]) = (duoNode 0 []).verifyStandalone (genesis [1]) := by
    unfold verifyStandalone
    rw [show (duoNode time list).now = (duoNode 0 []).now from rfl]
  exact same.trans (by decide +kernel)

theorem raw_seal_recovers (signer : UInt8) (data : Bytes) (short : data.length ≤ 64) : (rawSeal signer data).length = sportExtraSeal ∧
    unary.getSignatureAddress data (rawSeal signer data) = some (BitVec.ofNat 160 signer.toNat) := by
  constructor
  · simp [rawSeal, signedBy, sportExtraSeal]
    omega
  · have here : data.isPrefixOf (data ++ replicate (64 - data.length) 0) = true := isPrefixOf_iff_prefix.mpr (prefix_append _ _)
    simp only [rawSeal, signedBy, unary, codec, here]
    rfl

theorem duo_signs (hash : Hash) : ∃ sig, (duoNode time list).sign (hashBytes hash) = some sig ∧ sig.length = sportExtraSeal ∧
    unary.getSignatureAddress (hashBytes hash) sig = some (duoSealer time list).address :=
  ⟨rawSeal 1 (hashBytes hash), rfl, raw_seal_recovers 1 (hashBytes hash) (by simp [hashBytes])⟩

end Duo

theorem holder_accepted (chain : HeaderChain unary) (apart : ∀ n header, chain.header n = some header → chain.Apart header)
    (verified : chain.rest.all (fun header => ((holder chain).verifyHeader ⟨∅, ∅⟩ header []).isOk) = true) :
    chain.Accepted ⟨1, 30000, 0⟩ := by
  intro n header there
  have ok := all_eq_true.mp verified header (mem_of_getElem? (i := n) there)
  cases verdict : (holder chain).verifyHeader ⟨∅, ∅⟩ header [] with
  | error e =>
    rw [verdict] at ok
    cases ok
  | ok next =>
    exact ⟨holder chain, ⟨∅, ∅⟩, [], next, holder_serving chain apart, Runs.reached_start _ _ _ rfl, fun _ => nofun, verdict⟩

def draft (time : Nat) (list : List Address) : Header :=
  { header ((childOf time list).hash unary) 2 0 1 7 0 with extra := [] }

end Plain

-- The vote of the parent has made 2 a member, so that the block needs the seals of both.
theorem own_proposals_verify_member : ∃ block header next,
    (duoSealer 1 [1]).propose ⟨∅, ∅⟩ (draft 1 [1]) 0 ⟨0, 0, 0, []⟩ = .ok block ∧ (duoNode 1 [1]).verify block = .ok () ∧
      writeCommittedSeals unary block.header [rawSeal 1 (prepareCommittedSeal block.hash), rawSeal 2 (prepareCommittedSeal block.hash)] =
        .ok header ∧ (duoNode 1 [1]).verifyHeader ⟨∅, ∅⟩ header [] = .ok next := by
  have members : ∀ s, (duo 1 [1]).At ⟨1, 30000, 0⟩ 1 s → s.members = [1, 2] := by
    rintro s ⟨first, t, made, applied, same⟩
    have replayed : ((duo 1 [1]).genesisSnapshot ⟨1, 30000, 0⟩).all (fun first =>
        (first.apply unary ((duo 1 [1]).path 1)).toOption.all fun t => decide (t.members = [1, 2])) = true := by decide +kernel
    rw [made, Option.all_some, applied] at replayed
    exact (Same.members s t same).trans (of_decide_eq_true replayed)
  have member : ∀ s, (duo 1 [1]).At ⟨1, 30000, 0⟩ 1 s → 1 ∈ s.members := by
    intro s reached
    rw [members s reached]
    exact mem_cons_self
  have timed : ((duoSealer 1 [1]).propose ⟨∅, ∅⟩ (draft 1 [1]) 0 ⟨0, 0, 0, []⟩).toOption.map (fun block => block.header.time) =
      some 100 := by decide +kernel
  have accepted : (duo 1 [1]).Accepted ⟨1, 30000, 0⟩ := holder_accepted _ (duo_apart 1 [1]) (by decide +kernel)
  have lawful : unary.RoundTrips := round_trips
  have number : (draft 1 [1]).number = (childOf 1 [1]).number + 1 := by decide +kernel
  have link : (draft 1 [1]).parentHash = (childOf 1 [1]).hash unary := by decide +kernel
  obtain ⟨block, snap, proposed, there, judged⟩ := HeaderChain.own_proposals_verify lawful unary_injective (duo 1 [1])
    ⟨1, 30000, 0⟩ (duo_apart 1 [1]) (by decide) accepted 1 (childOf 1 [1]) (by decide) rfl (duoSealer 1 [1])
    (duo_serving 1 [1]) (duo_complete 1 [1]) ⟨∅, ∅⟩ (Runs.reached_start _ _ _ rfl) member (duo_signs 1 [1])
    (fun _ => rfl) (by decide) (draft 1 [1]) number link 0 ⟨0, 0, 0, []⟩
  rw [proposed] at timed
  have known : block.header.time ≤ (duoNode 1 [1]).now := Nat.le_of_eq (Option.some.inj timed)
  obtain ⟨verified, imported⟩ := judged (duoNode 1 [1]) (duo_serving 1 [1]) (duo_complete 1 [1]) (Runs.reached_start _ _ _ rfl) known rfl
  have recovers := fun signer => raw_seal_recovers signer (prepareCommittedSeal block.hash) (by simp [prepareCommittedSeal, hashBytes])
  have quorum : snap.fullnodeSet.minApprovers = 2 := by
    rw [minApprovers, size, show snap.fullnodeSet.fullnodes = [1, 2] from members snap there]
    decide
  obtain ⟨header, written, accepts⟩ := imported
    [rawSeal 1 (prepareCommittedSeal block.hash), rawSeal 2 (prepareCommittedSeal block.hash)]
    (by simp [(recovers 1).1, (recovers 2).1]) (by simp [quorum]) (by simp [(recovers 1).2, (recovers 2).2])
    (by simp [(recovers 1).2, (recovers 2).2, members snap there])
  have early : uint64 ((childOf 1 [1]).time + 1) < 2 ^ 63 := by decide
  obtain ⟨next, ok⟩ := accepts.mpr early
  exact ⟨block, header, next, proposed, verified.mpr early, written, ok⟩

-- A member signed a block with the time 2^63, which is negative and so not in the future; every block on top of it is
-- too early.
theorem late_parent_refuses_proposals : (duo (2 ^ 63) [1]).Accepted ⟨1, 30000, 0⟩ ∧
    ∃ block, (duoSealer (2 ^ 63) [1]).propose ⟨∅, ∅⟩ (draft (2 ^ 63) [1]) 0 ⟨0, 0, 0, []⟩ = .ok block ∧
      block.header.time ≤ (duoNode (2 ^ 63) [1]).now ∧
      (duoNode (2 ^ 63) [1]).verify block = .error .invalidTimestamp := by
  have refused : ((duoSealer (2 ^ 63) [1]).propose ⟨∅, ∅⟩ (draft (2 ^ 63) [1]) 0 ⟨0, 0, 0, []⟩).toOption.map (fun block =>
      (decide (block.header.time ≤ 100), (duoNode (2 ^ 63) [1]).verify block)) = some (true, .error .invalidTimestamp) := by
    decide +kernel
  refine ⟨holder_accepted _ (duo_apart (2 ^ 63) [1]) (by decide +kernel), ?_⟩
  · cases made : (duoSealer (2 ^ 63) [1]).propose ⟨∅, ∅⟩ (draft (2 ^ 63) [1]) 0 ⟨0, 0, 0, []⟩ with
    | error e =>
      rw [made] at refused
      cases refused
    | ok block =>
      rw [made] at refused
      have both := Option.some.inj refused
      exact ⟨block, rfl, of_decide_eq_true (congrArg Prod.fst both), congrArg Prod.snd both⟩

end Didux.Backend
