import Didux.Backend.Bookkeeping
import Didux.Backend.SealEncoding

set_option autoImplicit false

namespace Didux.Backend

open Sport List Except FullnodeSet

namespace Snapshot

-- The parts of a snapshot that no vote reads or changes. Every set has its speaker
-- computed anew before it is asked for it.
structure Label where
  epoch : Nat
  number : Nat
  hash : Hash
  speaker : Option Address

def label (s : Snapshot) : Label := ⟨s.epoch, s.number, s.hash, s.fullnodeSet.speaker⟩

def labelled (s : Snapshot) (l : Label) : Snapshot :=
  { s with epoch := l.epoch, number := l.number, hash := l.hash, fullnodeSet := { s.fullnodeSet with speaker := l.speaker } }

def records (s : Snapshot) : Snapshot := s.labelled ⟨0, 0, 0, none⟩

structure Same (s t : Snapshot) : Prop where
  epoch : s.epoch = t.epoch
  number : s.number = t.number
  hash : s.hash = t.hash
  records : s.records = t.records

variable (l : Label) (text : Address → List Char) (codec : Codec) (epoch number : Nat) (s : Snapshot)
  (headers : List Header)

theorem Same.refl : s.Same s := ⟨rfl, rfl, rfl, rfl⟩

variable (t : Snapshot)

theorem Same.symm (same : s.Same t) : t.Same s :=
  ⟨same.epoch.symm, same.number.symm, same.hash.symm, same.records.symm⟩

theorem Same.trans (u : Snapshot) (first : s.Same t) (second : t.Same u) : s.Same u :=
  ⟨first.epoch.trans second.epoch, first.number.trans second.number, first.hash.trans second.hash,
    first.records.trans second.records⟩

theorem Same.members (same : s.Same t) : s.members = t.members := by
  have kept : ∀ u : Snapshot, u.records.members = u.members := fun _ => rfl
  rw [← kept s, ← kept t, same.records]

theorem reset_votes_labelled : (s.labelled l).resetVotes epoch number = (s.resetVotes epoch number).labelled l := by
  by_cases boundary : number % epoch = 0
  · simp [resetVotes, boundary, labelled]
  · simp [resetVotes, boundary]

variable (address : Address)

theorem uncast_labelled (authorize : Bool) :
    ((s.labelled l).uncast address authorize).1 = (s.uncast address authorize).1.labelled l := by
  cases found : s.tally.lookup address with
  | none => simp [uncast, labelled, found]
  | some tally =>
    simp only [uncast, labelled, found]
    split_ifs <;> rfl

variable (fullnode : Address)

theorem discard_vote_labelled (address : Address) :
    (s.labelled l).discardVote fullnode address = (s.discardVote fullnode address).labelled l := by
  have votes : (s.labelled l).votes = s.votes := rfl
  cases found : s.votes.find? (votesOn fullnode address) with
  | none => simp [discardVote, votes, found]
  | some vote =>
    simp only [discardVote, votes, found, uncast_labelled]
    rfl

theorem cast_vote_labelled (number : Nat) (address : Address) (authorize : Bool) :
    (s.labelled l).castVote fullnode number address authorize = (s.castVote fullnode number address authorize).labelled l := by
  have known : (s.labelled l).checkVote address authorize = s.checkVote address authorize := rfl
  have tally : (s.labelled l).tally = s.tally := rfl
  by_cases valid : s.checkVote address authorize = true
  · cases found : s.tally.lookup address with
    | none => simp only [castVote, cast, known, valid, tally, found]; rfl
    | some old => simp only [castVote, cast, known, valid, tally, found]; rfl
  · simp [castVote, cast, known, valid]

theorem discard_votes_of_labelled (votes : List Vote) (s : Snapshot) :
    discardVotesOf fullnode (s.labelled l) votes = (discardVotesOf fullnode s votes).labelled l := by
  induction votes generalizing s with
  | nil => rfl
  | cons vote rest ih =>
    by_cases own : vote.fullnode = fullnode
    · simp only [discardVotesOf, if_pos own, uncast_labelled, ih]
    · simp only [discardVotesOf, if_neg own]
      exact ih { s with votes := s.votes ++ [vote] }

theorem pass_vote_labelled : (s.labelled l).passVote text address = (s.passVote text address).labelled l := by
  have tally : (s.labelled l).tally = s.tally := rfl
  have size : (s.labelled l).fullnodeSet.size = s.fullnodeSet.size := rfl
  cases found : s.tally.lookup address with
  | none => simp [passVote, tally, found]
  | some count =>
    by_cases passed : s.fullnodeSet.size / 2 < count.votes
    · by_cases joins : count.authorize = true
      · have added : ((s.labelled l).fullnodeSet.addFullnode text address).1 =
            { (s.fullnodeSet.addFullnode text address).1 with speaker := l.speaker } := by
          by_cases member : address ∈ s.fullnodeSet.fullnodes
          · simp [addFullnode, labelled, member]
          · simp [addFullnode, labelled, member]
        simp only [passVote, tally, found, size, if_pos passed, if_pos joins, added]
        rfl
      · have removed := discard_votes_of_labelled l address s.votes
          { s with fullnodeSet := (s.fullnodeSet.removeFullnode address).1, votes := [] }
        have same : ({ (s.labelled l) with
            fullnodeSet := ((s.labelled l).fullnodeSet.removeFullnode address).1, votes := [] } : Snapshot) =
            labelled { s with fullnodeSet := (s.fullnodeSet.removeFullnode address).1, votes := [] } l := by
          by_cases member : address ∈ s.fullnodeSet.fullnodes
          · simp [removeFullnode, labelled, member]
          · simp [removeFullnode, labelled, member]
        rw [← same] at removed
        simp only [passVote, tally, found, size, if_pos passed, if_neg joins]
        exact congrArg (fun u : Snapshot =>
          { u with votes := u.votes.filter fun vote => vote.address ≠ address, tally := u.tally.erase address }) removed
    · simp [passVote, tally, found, size, passed]

theorem apply_header_labelled (header : Header) :
    applyHeader codec epoch (s.labelled l) header = (applyHeader codec epoch s header).map fun snap => snap.labelled l := by
  have known : ∀ t : Snapshot, (t.labelled l).fullnodeSet.getByAddress = t.fullnodeSet.getByAddress := fun _ => rfl
  by_cases zero : epoch = 0
  · simp [applyHeader, zero, Except.map]
  · cases recovered : ecrecover codec header with
    | error e => simp [applyHeader, zero, recovered, Except.map]
    | ok fullnode =>
      cases found : ((s.resetVotes epoch (uint64 header.number)).fullnodeSet.getByAddress fullnode).2 with
      | none => simp [applyHeader, zero, recovered, reset_votes_labelled, known, found, Except.map]
      | some member =>
        cases vote : voteOf header.nonce with
        | none => simp [applyHeader, zero, recovered, reset_votes_labelled, known, found, vote, Except.map]
        | some authorize =>
          simp [applyHeader, zero, recovered, reset_votes_labelled, known, found, vote, Except.map,
            discard_vote_labelled, cast_vote_labelled, pass_vote_labelled]

theorem apply_headers_labelled (s : Snapshot) :
    applyHeaders codec epoch (s.labelled l) headers = (applyHeaders codec epoch s headers).map fun snap => snap.labelled l := by
  induction headers generalizing s with
  | nil => rfl
  | cons header rest ih =>
    rw [applyHeaders, applyHeaders, apply_header_labelled]
    cases applyHeader codec epoch s header with
    | error e => rfl
    | ok next => exact ih next

theorem apply_headers_append (first second : List Header) (s : Snapshot) : applyHeaders codec epoch s (first ++ second) =
      (applyHeaders codec epoch s first).bind fun middle => applyHeaders codec epoch middle second := by
  induction first generalizing s with
  | nil => rfl
  | cons header rest ih =>
    rw [cons_append, applyHeaders, applyHeaders]
    cases applyHeader codec epoch s header with
    | error e => rfl
    | ok next => exact ih next

def follows : Nat → List Header → Bool
  | _, [] => true
  | number, header :: rest => uint64 header.number == uint64 (number + 1) && follows (number + 1) rest

theorem follows_append (first second : List Header) :
    follows number (first ++ second) = (follows number first && follows (number + first.length) second) := by
  induction first generalizing number with
  | nil => rfl
  | cons header rest ih =>
    have shift : number + (header :: rest).length = number + 1 + rest.length := by
      rw [length_cons]
      omega
    rw [cons_append, follows, follows, ih, shift, Bool.and_assoc]

theorem follows_uint64 : follows (uint64 number) headers = follows number headers := by
  have wraps : ∀ a b : Nat, uint64 a = uint64 b → follows a headers = follows b headers := by
    induction headers with
    | nil => intros; rfl
    | cons header rest ih =>
      intro a b same
      have next : uint64 (a + 1) = uint64 (b + 1) := by
        simp only [uint64] at same ⊢
        omega
      rw [follows, follows, next, ih _ _ next]
  exact wraps _ _ (by simp [uint64])

theorem contiguous_follows (first : Header) (rest : List Header) (next : uint64 first.number = uint64 (number + 1))
    : contiguous (first :: rest) = follows (number + 1) rest := by
  induction rest generalizing number first with
  | nil => rfl
  | cons second rest ih =>
    have step : uint64 (uint64 first.number + 1) = uint64 (number + 1 + 1) := by
      simp only [uint64] at next ⊢
      omega
    rw [contiguous, follows, step]
    cases same : uint64 second.number == uint64 (number + 1 + 1) with
    | false => rfl
    | true => rw [ih (number + 1) second (by simpa using same)]

def lastHash (codec : Codec) (s : Snapshot) (headers : List Header) : Hash :=
  (headers.getLast?.map fun header => header.hash codec).getD s.hash

theorem apply_cons (first : Header) (rest : List Header) : s.apply codec (first :: rest) =
      if follows s.number (first :: rest) then
        (applyHeaders codec s.epoch (s.copy codec.text) (first :: rest)).map fun snap => { snap with
          number := uint64 (s.number + (first :: rest).length), hash := lastHash codec s (first :: rest) }
      else .error .invalidVotingChain := by
  have last : lastHash codec s (first :: rest) = ((first :: rest).getLast (by simp)).hash codec := by
    rfl
  by_cases next : uint64 first.number = uint64 (s.number + 1)
  · have ordered := contiguous_follows s.number first rest next
    cases linked : follows (s.number + 1) rest with
    | false => simp [apply, follows, ordered, linked]
    | true =>
      rw [last]
      cases ran : applyHeaders codec s.epoch (s.copy codec.text) (first :: rest) with
      | error e => simp [apply, follows, ordered, linked, ran, Except.map]
      | ok snap => simp [apply, follows, ordered, linked, ran, Except.map]
  · cases contiguous (first :: rest) <;> simp [apply, follows, next]

-- Two snapshots that differ in no more than the speaker, or the same error.
def SameOutcome : Except EngineError Snapshot → Except EngineError Snapshot → Prop
  | .ok s, .ok t => s.Same t
  | .error e, .error other => e = other
  | _, _ => False

theorem same_outcome_refl (a : Except EngineError Snapshot) : SameOutcome a a := by
  cases a with
  | error e => rfl
  | ok s => exact Same.refl s

theorem same_outcome_trans (a b c : Except EngineError Snapshot) (first : SameOutcome a b) (second : SameOutcome b c) :
    SameOutcome a c := by
  cases a with
  | error e =>
    cases b with
    | ok t => exact first.elim
    | error other =>
      cases c with
      | ok u => exact second.elim
      | error last => exact Eq.trans first second
  | ok s =>
    cases b with
    | error e => exact first.elim
    | ok t =>
      cases c with
      | error e => exact second.elim
      | ok u => exact Same.trans s t u first second

theorem same_outcome_errors (a b : Except EngineError Snapshot) (same : SameOutcome a b) :
    Option.Rel Same a.toOption b.toOption := by
  cases a with
  | error e =>
    cases b with
    | ok t => exact same.elim
    | error other => exact .none
  | ok s =>
    cases b with
    | error e => exact same.elim
    | ok t => exact .some same

theorem same_outcome_symm (a b : Except EngineError Snapshot) (same : SameOutcome a b) : SameOutcome b a := by
  cases a with
  | error e =>
    cases b with
    | ok t => exact same.elim
    | error other => exact Eq.symm same
  | ok s =>
    cases b with
    | error e => exact same.elim
    | ok t => exact Same.symm s t same

theorem apply_headers_split (s : Snapshot) : applyHeaders codec epoch s headers =
      (applyHeaders codec epoch s.records headers).map fun snap => snap.labelled s.label :=
  apply_headers_labelled s.label codec epoch headers s.records

theorem apply_headers_same (hash : Hash) (headers : List Header) (s t : Snapshot) (epochs : s.epoch = t.epoch)
    (same : s.records = t.records) :
    SameOutcome ((applyHeaders codec epoch s headers).map fun snap => { snap with number := number, hash := hash })
      ((applyHeaders codec epoch t headers).map fun snap => { snap with number := number, hash := hash }) := by
  rw [apply_headers_split codec epoch headers s, apply_headers_split codec epoch headers t, same]
  cases applyHeaders codec epoch t.records headers with
  | error e => rfl
  | ok snap => exact ⟨epochs, rfl, rfl, rfl⟩

theorem copy_same (same : s.Same t) : s.copy text = t.copy text := by
  have rebuilt : ∀ u : Snapshot, u.copy text =
      (u.records.copy text).labelled ⟨u.epoch, u.number, u.hash, (u.records.copy text).fullnodeSet.speaker⟩ := fun _ => rfl
  rw [rebuilt s, rebuilt t, same.epoch, same.number, same.hash, same.records]

theorem apply_cons_same (same : s.Same t) (first : Header) (rest : List Header) :
    s.apply codec (first :: rest) = t.apply codec (first :: rest) := by
  have ends : lastHash codec s (first :: rest) = lastHash codec t (first :: rest) := by
    rw [lastHash, lastHash, same.hash]
  rw [apply_cons, apply_cons, same.number, same.epoch, ends, copy_same codec.text s t same]

theorem apply_same (s t : Snapshot) (same : s.Same t) : SameOutcome (s.apply codec headers) (t.apply codec headers) := by
  cases headers with
  | nil => exact same
  | cons first rest =>
    rw [apply_cons_same codec s t same]
    exact same_outcome_refl _

def Ordered (text : Address → List Char) (s : Snapshot) : Prop := s.members.Pairwise fun a b => text a ≤ text b

theorem sorted_ordered (addrs : List Address) :
    (addrs.insertionSort fun a b => text a ≤ text b).Pairwise fun a b => text a ≤ text b := by
  have : Std.Total fun a b : Address => text a ≤ text b := ⟨fun a b => le_total (text a) (text b)⟩
  have : IsTrans Address fun a b => text a ≤ text b := ⟨fun _ _ _ => le_trans⟩
  exact pairwise_insertionSort _ addrs

theorem new_set_ordered (distinct : Function.Injective text) (addrs members : List Address) (policy : Nat)
    (ordered : members.Pairwise fun a b => text a ≤ text b) (perm : addrs.Perm members) :
    (newFullnodeSet text addrs policy).fullnodes = members := by
  refine List.Perm.eq_of_pairwise ?_ (sorted_ordered text addrs) ordered ((perm_insertionSort _ addrs).trans perm)
  exact fun a b _ _ up down => distinct (le_antisymm up down)

theorem copied_ordered : (s.copy text).Ordered text :=
  sorted_ordered text s.fullnodeSet.fullnodes

theorem pass_vote_ordered (ordered : s.Ordered text) : (s.passVote text address).Ordered text := by
  cases found : s.tally.lookup address with
  | none => simpa only [passVote, found] using ordered
  | some tally =>
    simp only [passVote, found]
    split_ifs with passed joins
    · by_cases member : address ∈ s.fullnodeSet.fullnodes
      · simpa only [Ordered, members, addFullnode, if_pos member] using ordered
      · simp only [addFullnode, if_neg member]
        exact sorted_ordered text _
    · obtain ⟨⟨final, shape⟩, _⟩ := discard_votes_of_spec address s.members s.votes
        { s with fullnodeSet := (s.fullnodeSet.removeFullnode address).1, votes := [] }
      rw [shape]
      by_cases member : address ∈ s.fullnodeSet.fullnodes
      · simp only [removeFullnode, if_pos member]
        exact ordered.sublist erase_sublist
      · simpa only [Ordered, members, removeFullnode, if_neg member] using ordered
    · exact ordered

theorem apply_header_ordered (next : Snapshot) (header : Header) (ordered : s.Ordered codec.text)
    (applied : applyHeader codec epoch s header = .ok next) : next.Ordered codec.text := by
  obtain ⟨fullnode, authorize, _, _, _, same⟩ := apply_header_ok codec epoch s next header applied
  have reset := reset_votes_members epoch (uint64 header.number) s
  have discarded : ∀ t : Snapshot, (t.discardVote fullnode header.coinbase).members = t.members := by
    intro t
    rcases discard_vote_cases t fullnode header.coinbase with ⟨same, _⟩ | ⟨vote, rest, _, _, _, same⟩
    · rw [same]
    · obtain ⟨tally, frame⟩ := uncast_frame t vote.address vote.authorize
      rw [same, frame]
      rfl
  have casted : ∀ t : Snapshot, (t.castVote fullnode (uint64 header.number) header.coinbase authorize).members = t.members := by
    intro t
    by_cases valid : t.checkVote header.coinbase authorize = true
    · cases found : t.tally.lookup header.coinbase with
      | none => simp [castVote, cast, valid, found, members]
      | some old => simp [castVote, cast, valid, found, members]
    · simp [castVote, cast, valid]
  rw [same]
  refine pass_vote_ordered codec.text _ header.coinbase ?_
  rw [Ordered, casted, discarded, reset]
  exact ordered

theorem apply_headers_ordered (s next : Snapshot) (ordered : s.Ordered codec.text)
    (applied : applyHeaders codec epoch s headers = .ok next) : next.Ordered codec.text := by
  induction headers generalizing s with
  | nil =>
    cases applied
    exact ordered
  | cons header rest ih =>
    cases one : applyHeader codec epoch s header with
    | error e => simp [applyHeaders, one] at applied
    | ok middle =>
      simp only [applyHeaders, one] at applied
      exact ih middle (apply_header_ordered codec epoch s middle header ordered one) applied

theorem copy_ordered (distinct : Function.Injective text) (s : Snapshot) (ordered : s.Ordered text)
    : (s.copy text).records = s.records := by
  have same : (newFullnodeSet text s.fullnodeSet.fullnodes s.fullnodeSet.policy).fullnodes = s.fullnodeSet.fullnodes :=
    new_set_ordered text distinct _ _ _ ordered (List.Perm.refl _)
  simp only [records, labelled, copy, FullnodeSet.copy, same]
  rfl

theorem apply_headers_label (s next : Snapshot) (applied : applyHeaders codec epoch s headers = .ok next)
    : next.label = s.label := by
  rw [apply_headers_split] at applied
  cases ran : applyHeaders codec epoch s.records headers with
  | error e => simp [ran, Except.map] at applied
  | ok snap =>
    rw [ran] at applied
    cases applied
    rfl

theorem apply_append (distinct : Function.Injective codec.text) (s : Snapshot) (first second : List Header)
    (linked : follows s.number (first ++ second) = true) :
    SameOutcome (s.apply codec (first ++ second)) ((s.apply codec first).bind fun middle => middle.apply codec second) := by
  cases first with
  | nil => exact same_outcome_refl _
  | cons header rest =>
    cases second with
    | nil =>
      rw [append_nil]
      cases s.apply codec (header :: rest) with
      | error e => rfl
      | ok middle => exact Same.refl middle
    | cons next others =>
      obtain ⟨before, after⟩ := Bool.and_eq_true_iff.mp ((follows_append s.number _ _).symm.trans linked)
      rw [apply_cons codec s header rest, if_pos before, cons_append, apply_cons, ← cons_append, if_pos linked,
        apply_headers_append]
      cases ran : applyHeaders codec s.epoch (s.copy codec.text) (header :: rest) with
      | error e => rfl
      | ok middle =>
        have label := apply_headers_label codec _ _ _ _ ran
        have epoch : middle.epoch = s.epoch := congrArg Label.epoch label
        have ordered := apply_headers_ordered codec _ _ _ _ (copied_ordered codec.text s) ran
        let reached : Snapshot := { middle with
          number := uint64 (s.number + (header :: rest).length), hash := lastHash codec s (header :: rest) }
        have here : follows reached.number (next :: others) = true := (follows_uint64 _ _).trans after
        have copied : (reached.copy codec.text).records = middle.records :=
          copy_ordered codec.text distinct reached ordered
        have number : uint64 (reached.number + (next :: others).length) =
            uint64 (s.number + (header :: rest ++ next :: others).length) := by
          simp only [reached, uint64, length_append]
          omega
        have hash : lastHash codec reached (next :: others) = lastHash codec s (header :: rest ++ next :: others) := by
          rw [lastHash, lastHash, getLast?_append_cons]
          rfl
        show SameOutcome _ (reached.apply codec (next :: others))
        rw [apply_cons, if_pos here, number, hash, show reached.epoch = s.epoch from epoch]
        exact apply_headers_same codec _ _ _ _ _ _ rfl copied.symm

theorem apply_unlinked (unlinked : follows s.number headers = false) : s.apply codec headers = .error .invalidVotingChain := by
  cases headers with
  | nil => cases unlinked
  | cons first rest => rw [apply_cons, unlinked, if_neg (by simp)]

theorem apply_ok_parts (next : Snapshot) (headers : List Header) (applied : s.apply codec headers = .ok next) :
    next.epoch = s.epoch ∧ uint64 next.number = uint64 (s.number + headers.length) ∧ next.hash = lastHash codec s headers ∧
      (s.Ordered codec.text → next.Ordered codec.text) := by
  cases headers with
  | nil =>
    cases applied
    exact ⟨rfl, rfl, rfl, id⟩
  | cons first rest =>
    rw [apply_cons] at applied
    split_ifs at applied
    cases ran : applyHeaders codec s.epoch (s.copy codec.text) (first :: rest) with
    | error e => simp [ran, Except.map] at applied
    | ok snap =>
      rw [ran] at applied
      cases applied
      have sorted := apply_headers_ordered codec _ _ _ _ (copied_ordered codec.text s) ran
      exact ⟨congrArg Label.epoch (apply_headers_label codec _ _ _ _ ran), by simp [uint64], rfl, fun _ => sorted⟩

theorem apply_append_some (distinct : Function.Injective codec.text) (s : Snapshot) (first second : List Header) :
    Option.Rel Same (s.apply codec (first ++ second)).toOption
      ((s.apply codec first).bind fun middle => middle.apply codec second).toOption := by
  cases linked : follows s.number (first ++ second) with
  | true => exact same_outcome_errors _ _ (apply_append codec distinct s first second linked)
  | false =>
    rw [apply_unlinked codec s _ linked]
    rw [follows_append] at linked
    cases ran : s.apply codec first with
    | error e => exact .none
    | ok middle =>
      have before : follows s.number first = true := by
        by_contra unlinked
        rw [apply_unlinked codec s first (by simpa using unlinked)] at ran
        cases ran
      have after : follows middle.number second = false := by
        rw [← follows_uint64, (apply_ok_parts codec s middle first ran).2.1, follows_uint64]
        simpa [before] using linked
      show Option.Rel Same _ (middle.apply codec second).toOption
      rw [apply_unlinked codec middle second after]
      exact .none

structure Alike (codec : Codec) (h other : Header) : Prop where
  number : other.number = h.number
  parentHash : other.parentHash = h.parentHash
  coinbase : other.coinbase = h.coinbase
  nonce : other.nonce = h.nonce
  signer : ecrecover codec other = ecrecover codec h
  hash : other.hash codec = h.hash codec

theorem apply_header_alike (h other : Header) (alike : Alike codec h other) :
    applyHeader codec epoch s other = applyHeader codec epoch s h := by
  rw [applyHeader, applyHeader, alike.number, alike.coinbase, alike.nonce, alike.signer]

variable (others : List Header)

variable (alike : List.Forall₂ (Alike codec) headers others)

include alike

theorem apply_headers_alike :
    applyHeaders codec epoch s others = applyHeaders codec epoch s headers := by
  induction alike generalizing s with
  | nil => rfl
  | cons one _ ih =>
    rw [applyHeaders, applyHeaders, apply_header_alike codec epoch s _ _ one]
    cases applyHeader codec epoch s _ with
    | error e => rfl
    | ok next => exact ih next

theorem follows_alike : follows number others = follows number headers := by
  induction alike generalizing number with
  | nil => rfl
  | cons one _ ih => rw [follows, follows, ih, one.number]

theorem last_hash_alike : lastHash codec s others = lastHash codec s headers := by
  have hashes : others.map (fun header => header.hash codec) = headers.map fun header => header.hash codec := by
    induction alike with
    | nil => rfl
    | cons one _ ih => rw [map_cons, map_cons, ih, one.hash]
  rw [lastHash, lastHash, ← getLast?_map, hashes, getLast?_map]

theorem apply_alike : s.apply codec others = s.apply codec headers := by
  have numbers := follows_alike codec s.number headers others alike
  have hashes := last_hash_alike codec s headers others alike
  have ran := apply_headers_alike codec s.epoch (s.copy codec.text) headers others alike
  have lengths := alike.length_eq
  cases alike with
  | nil => rfl
  | cons one rest => rw [apply_cons, apply_cons, numbers, hashes, ran, lengths]

omit alike

theorem same_but_seals_alike (h other : Header) (same : SameButSeals codec h other)
    (hash : other.hash codec = h.hash codec) : Alike codec h other where
  number := by rw [← same.fields]
  parentHash := by rw [← same.fields]
  coinbase := by rw [← same.fields]
  nonce := by rw [← same.fields]
  hash := hash
  signer := by
    have extras := same.extras
    cases mine : extractSportExtra codec h with
    | none =>
      have none' : extractSportExtra codec other = none := by simpa [mine] using extras
      rw [ecrecover, ecrecover, mine, none']
    | some extra =>
      cases others : extractSportExtra codec other with
      | none => simp [mine, others] at extras
      | some extra' =>
        obtain ⟨fullnodes, speakerSeal⟩ : extra'.fullnodes = extra.fullnodes ∧ extra'.speakerSeal = extra.speakerSeal := by
          simpa [mine, others] using extras
        have written : ∀ new, withExtra codec other new = withExtra codec h new := by
          intro new
          have fields := same.fields
          rw [withExtra, withExtra, same.vanity, ← fields]
        have sig : sigHash codec other = sigHash codec h := by
          rw [sigHash, sigHash, filtered_some codec other extra' false others, filtered_some codec h extra false mine,
            written, fullnodes]
          rfl
        rw [ecrecover, ecrecover, mine, others, sig]
        simp only [speakerSeal]

end Snapshot

end Didux.Backend
