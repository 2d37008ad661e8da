import Didux.Backend.Bookkeeping

set_option autoImplicit false

namespace Didux.Backend

open Sport List

variable (snap : Snapshot) (candidates : Assoc Address Bool) (funded : Address → Bool) (index : Nat) (header : Header)

-- The part of Prepare that decides on a vote: any of the candidates that would count and have the funds, or none. The
-- index is the random choice.
def prepareVote : Header :=
  let header := { header with nonce := emptyNonce, mixDigest := sportDigest }
  let valid := candidates.entries.filter fun entry => snap.checkVote entry.1 entry.2 && funded entry.1
  match valid[index % valid.length]? with
  | none => header
  | some entry => { header with coinbase := entry.1, nonce := if entry.2 then nonceAuthVote else nonceDropVote }

theorem prepare_vote_without_candidates
    (none : ∀ entry ∈ candidates.entries, (snap.checkVote entry.1 entry.2 && funded entry.1) = false) :
    (prepareVote snap candidates funded index header).nonce = emptyNonce ∧
      (prepareVote snap candidates funded index header).coinbase = header.coinbase := by
  have empty : (candidates.entries.filter fun entry => snap.checkVote entry.1 entry.2 && funded entry.1) = [] :=
    filter_eq_nil_iff.mpr fun entry present => by simpa using none entry present
  simp [prepareVote, empty]

def PreparedWithoutVote (sealer : Address) (header : Header) : Prop :=
  ∃ candidates funded index template,
    (∀ entry ∈ candidates.entries, (snap.checkVote entry.1 entry.2 && funded entry.1) = false) ∧
    template.coinbase = sealer ∧ header.nonce = (prepareVote snap candidates funded index template).nonce ∧
    header.coinbase = (prepareVote snap candidates funded index template).coinbase

theorem prepared_without_vote_fields (sealer : Address) (header : Header)
    (prepared : PreparedWithoutVote snap sealer header) : header.nonce = emptyNonce ∧ header.coinbase = sealer := by
  obtain ⟨candidates, funded, index, template, none, own, nonce, coinbase⟩ := prepared
  have fields := prepare_vote_without_candidates snap candidates funded index template none
  exact ⟨nonce.trans fields.1, coinbase.trans (fields.2.trans own)⟩

namespace Snapshot

def Recent (n : Nat) (s : Snapshot) : Prop := ∀ vote ∈ s.votes, vote.blockNum ≤ n

variable (codec : Codec) (s : Snapshot)

variable {fullnode address : Address} {n : Nat} {text : Address → List Char}

theorem discard_vote_recent (recent : s.Recent n) : (s.discardVote fullnode address).Recent n := by
  rcases discard_vote_cases s fullnode address with ⟨same, _⟩ | ⟨vote, rest, _, _, sub, same⟩
  · rw [same]
    exact recent
  · rw [same]
    exact fun v present => recent v (sub.subset present)

theorem cast_vote_recent {number : Nat} {authorize : Bool}
    (kept : s.Bookkept) (recent : s.Recent number) : (s.castVote fullnode number address authorize).Recent number := by
  rcases cast_vote_cases s fullnode number address authorize kept with ⟨_, same⟩ | ⟨_, same⟩
  · rw [same]
    exact recent
  · rw [same]
    intro vote present
    rcases mem_append.mp present with old | new
    · exact recent vote old
    · cases mem_singleton.mp new
      exact Nat.le_refl _

theorem pass_vote_recent {s : Snapshot} (recent : s.Recent n) : (s.passVote text address).Recent n := by
  cases found : s.tally.lookup address with
  | none => simpa only [passVote, found] using recent
  | some tally =>
    simp only [passVote, found]
    split_ifs with passed join
    · exact fun vote present => recent vote (mem_filter.mp present).1
    · obtain ⟨⟨final, shape⟩, _⟩ := discard_votes_of_spec address s.members s.votes
        { s with fullnodeSet := (s.fullnodeSet.removeFullnode address).1, votes := [] }
      rw [shape]
      intro vote present
      have left := (mem_filter.mp present).1
      exact recent vote (mem_filter.mp left).1
    · exact recent

theorem apply_header_recent (epoch : Nat) (s next : Snapshot) (header : Header) (n : Nat) (kept : s.Bookkept)
    (recent : s.Recent n) (number : uint64 header.number = uint64 (n + 1)) (fits : n < 2 ^ 64)
    (applied : applyHeader codec epoch s header = .ok next) : next.Recent (uint64 header.number) := by
  obtain ⟨fullnode, authorize, _, _, _, same⟩ := apply_header_ok codec epoch s next header applied
  have reset := reset_votes_bookkept epoch (uint64 header.number) s kept
  have resetRecent : (s.resetVotes epoch (uint64 header.number)).Recent (uint64 header.number) := by
    by_cases checkpoint : uint64 header.number % epoch = 0
    · rw [resetVotes, if_pos checkpoint]
      exact fun vote present => by cases present
    · rw [resetVotes, if_neg checkpoint]
      intro vote present
      have old := recent vote present
      have nonzero : uint64 header.number ≠ 0 := fun zero => checkpoint (by rw [zero, Nat.zero_mod])
      simp only [uint64] at number nonzero ⊢
      omega
  obtain ⟨discarded, _, _⟩ := discard_vote_bookkept _ fullnode header.coinbase reset
  rw [same]
  refine pass_vote_recent ?_
  exact cast_vote_recent _ discarded (discard_vote_recent _ resetRecent)

theorem apply_headers_recent (epoch : Nat) (headers : List Header) (s next : Snapshot) (n : Nat) (kept : s.Bookkept)
    (recent : s.Recent n) (fits : n < 2 ^ 64) (starts : ∀ first ∈ headers.head?, uint64 first.number = uint64 (n + 1))
    (chain : contiguous headers = true) (applied : applyHeaders codec epoch s headers = .ok next)
    : next.Recent (uint64 (n + headers.length)) := by
  induction headers generalizing s n with
  | nil =>
    cases applied
    intro vote present
    have old := recent vote present
    simp only [uint64, length_nil]
    omega
  | cons header rest ih =>
    have number := starts header rfl
    cases one : applyHeader codec epoch s header with
    | error e => simp [applyHeaders, one] at applied
    | ok middle =>
      simp only [applyHeaders, one] at applied
      have after := apply_header_recent codec epoch s middle header n kept recent number fits one
      have small : uint64 header.number < 2 ^ 64 := Nat.mod_lt _ (by norm_num)
      have steps : ∀ first ∈ rest.head?, uint64 first.number = uint64 (uint64 header.number + 1) := by
        intro first present
        cases rest with
        | nil => cases present
        | cons second rest =>
          cases present
          simp only [contiguous, Bool.and_eq_true, beq_iff_eq] at chain
          exact chain.1
      have chain' : contiguous rest = true := by
        cases rest with
        | nil => rfl
        | cons second rest =>
          simp only [contiguous, Bool.and_eq_true] at chain
          exact chain.2
      have done := ih middle (uint64 header.number) (apply_header_bookkept codec epoch s middle header kept one) after
        small steps chain' applied
      have total : uint64 (uint64 header.number + rest.length) = uint64 (n + (header :: rest).length) := by
        rw [number]
        simp only [uint64, length_cons]
        omega
      exact total ▸ done

theorem reached_recent (reached : Reached codec s) : s.Recent s.number ∧ s.number < 2 ^ 64 := by
  have both : s.Bookkept ∧ s.Recent s.number ∧ s.number < 2 ^ 64 := by
    refine Runs.reached_invariant _ _ (fun s : Snapshot => s.Bookkept ∧ s.Recent s.number ∧ s.number < 2 ^ 64) ?_ ?_ s reached
    · rintro start ⟨epoch, hash, addrs, policy, distinct, rfl⟩
      refine ⟨new_snapshot_bookkept codec.text epoch hash addrs policy distinct, ?_, ?_⟩
      · exact fun vote present => by cases present
      · exact Nat.two_pow_pos 64
    · rintro state next ⟨kept, recent, fits⟩ ⟨headers, applied⟩
      refine ⟨apply_bookkept codec state next headers kept applied, ?_⟩
      cases headers with
      | nil =>
        cases applied
        exact ⟨recent, fits⟩
      | cons first rest =>
        simp only [apply] at applied
        split_ifs at applied with broken start
        cases ran : applyHeaders codec state.epoch (state.copy codec.text) (first :: rest) with
        | error e => simp [ran] at applied
        | ok snap =>
          simp only [ran, Except.ok.injEq] at applied
          rw [← applied]
          refine ⟨?_, Nat.mod_lt _ (Nat.two_pow_pos 64)⟩
          refine apply_headers_recent codec state.epoch (first :: rest) (state.copy codec.text) snap state.number
            (copy_bookkept codec.text state kept) recent fits ?_ (by simpa using broken) ran
          intro header present
          cases present
          exact not_not.mp start
  exact both.2

theorem pass_vote_drop {s : Snapshot} {votes : Nat}
    (member : address ∈ s.members) (found : s.tally.lookup address = some (entryOf s.members address votes)) :
    (s.members.length / 2 < votes ∧ (s.passVote text address).members = s.members.erase address) ∨
      (¬ s.members.length / 2 < votes ∧ s.passVote text address = s) := by
  have stays : (entryOf s.members address votes).authorize = false := by simp [entryOf, member]
  by_cases passed : s.members.length / 2 < votes
  · refine .inl ⟨passed, ?_⟩
    have enough : s.fullnodeSet.size / 2 < (entryOf s.members address votes).votes := passed
    obtain ⟨⟨final, shape⟩, _⟩ := discard_votes_of_spec address s.members s.votes
      { s with fullnodeSet := (s.fullnodeSet.removeFullnode address).1, votes := [] }
    simp only [passVote, found, if_pos enough, stays, shape]
    have old : address ∈ s.fullnodeSet.fullnodes := member
    simp [members, FullnodeSet.removeFullnode, old]
  · refine .inr ⟨passed, ?_⟩
    have few : ¬ s.fullnodeSet.size / 2 < (entryOf s.members address votes).votes := passed
    simp only [passVote, found, if_neg few]

def dropVotes (s : Snapshot) (address : Address) : Nat :=
  s.votes.countP fun vote => vote.address = address ∧ vote.fullnode ≠ address

theorem discard_vote_count (kept : s.Bookkept) :
    countKey Vote.address (s.discardVote address address).votes address = s.dropVotes address := by
  have fresh := (discard_vote_bookkept s address address kept).2.2
  have others : countKey Vote.address (s.discardVote address address).votes address =
      (s.discardVote address address).dropVotes address := by
    refine countP_congr fun vote present => ?_
    have apart := fresh vote present
    rw [votes_on_iff] at apart
    simp only [decide_eq_true_eq]
    tauto
  rw [others]
  rcases discard_vote_cases s address address with ⟨same, _⟩ | ⟨vote, rest, perm, named, _, same⟩
  · rw [same]
  · obtain ⟨own, _⟩ := (votes_on_iff address address vote).mp named
    rw [same, dropVotes, dropVotes, perm.countP_eq, countP_cons_of_neg (by simp [own])]

def SameRecords (s next : Snapshot) : Prop :=
  (∀ a, a ∈ next.members ↔ a ∈ s.members) ∧ next.votes = s.votes ∧ ∀ a, next.tally.lookup a = s.tally.lookup a

theorem apply_empty_vote {header : Header} {a : Address} (member : a ∈ s.members)
    (signed : ecrecover codec header = .ok a) (coinbase : header.coinbase = a) (nonce : header.nonce = emptyNonce)
    (number : uint64 header.number = uint64 (s.number + 1)) (epoch : s.epoch ≠ 0) (inside : uint64 header.number % s.epoch ≠ 0) :
    s.apply codec [header] = .ok { (((s.copy codec.text).discardVote a a).castVote a (uint64 header.number) a
      false).passVote codec.text a with number := uint64 (s.number + 1), hash := header.hash codec } := by
  have known : ((s.copy codec.text).fullnodeSet.getByAddress a).2 = some a :=
    (FullnodeSet.get_by_address_some_iff _ a a).mpr
      ⟨rfl, (FullnodeSet.copy_perm codec.text s.fullnodeSet).mem_iff.mpr member⟩
  have drop : voteOf header.nonce = some false := by
    rw [nonce]
    decide
  simp only [apply, contiguous, not_true, if_false, number, ne_eq, applyHeaders, applyHeader, epoch, resetVotes,
    number ▸ inside, signed, known, drop, coinbase, length_singleton, getLast_singleton]

-- The empty nonce is the one that votes to drop the coinbase, so every such
-- header is a vote of its signer against itself: it is recorded, or it passes.
theorem empty_vote_changes_records (codec : Codec) (s : Snapshot) (header : Header) (a : Address)
    (reached : Reached codec s) (member : a ∈ s.members) (signed : ecrecover codec header = .ok a)
    (prepared : PreparedWithoutVote s a header) (number : uint64 header.number = uint64 (s.number + 1)) (epoch : s.epoch ≠ 0)
    (inside : uint64 header.number % s.epoch ≠ 0) : ∃ next, s.apply codec [header] = .ok next ∧ ¬ SameRecords s next ∧
      (a ∈ next.members ↔ s.dropVotes a + 1 ≤ s.members.length / 2) := by
  obtain ⟨nonce, coinbase⟩ := prepared_without_vote_fields s a header prepared
  refine ⟨_, apply_empty_vote codec s member signed coinbase nonce number epoch inside, ?_⟩
  obtain ⟨recent, fits⟩ := reached_recent codec s reached
  have start := copy_bookkept codec.text s (reached_bookkept codec s reached)
  have same : (s.copy codec.text).members.Perm s.members := FullnodeSet.copy_perm codec.text s.fullnodeSet
  have count : countKey Vote.address ((s.copy codec.text).discardVote a a).votes a = s.dropVotes a :=
    discard_vote_count (s.copy codec.text) start
  obtain ⟨kept, members, _⟩ := discard_vote_bookkept (s.copy codec.text) a a start
  generalize (s.copy codec.text).discardVote a a = discarded at count kept members
  have present : a ∈ discarded.members := members ▸ same.mem_iff.mpr member
  have size : discarded.members.length = s.members.length := members ▸ same.length_eq
  rcases cast_vote_cases discarded a (uint64 header.number) a false kept with ⟨refused, _⟩ | ⟨_, cast⟩
  · exact absurd (by simp [present]) refused
  · rw [cast]
    generalize given : ({ discarded with
      tally := discarded.tally.insert a (entryOf discarded.members a (countKey Vote.address discarded.votes a + 1))
      votes := discarded.votes ++ [⟨a, uint64 header.number, a, false⟩] } : Snapshot) = counted
    have countedMembers : counted.members = discarded.members := by rw [← given]; rfl
    have found : counted.tally.lookup a = some (entryOf counted.members a (s.dropVotes a + 1)) := by
      rw [countedMembers, ← count, ← given]
      exact AList.lookup_insert _
    rcases pass_vote_drop (countedMembers ▸ present) found with ⟨passed, removed⟩ | ⟨stays, unchanged⟩
    · rw [countedMembers, size] at passed
      have gone : a ∉ (counted.passVote codec.text a).members := by
        rw [removed, countedMembers]
        exact fun back => (kept.distinct.mem_erase_iff.mp back).1 rfl
      refine ⟨fun records => gone ((records.1 a).mpr member), ?_⟩
      exact iff_of_false gone (by omega)
    · rw [countedMembers, size] at stays
      rw [unchanged]
      refine ⟨?_, iff_of_true (countedMembers ▸ present) (by omega)⟩
      rintro ⟨_, votes, _⟩
      have new : (⟨a, uint64 header.number, a, false⟩ : Vote) ∈ s.votes := by
        rw [← votes, ← given]
        exact mem_append_right _ (mem_singleton_self _)
      have old := recent _ new
      have nonzero : uint64 header.number ≠ 0 := fun zero => inside (by rw [zero, Nat.zero_mod])
      simp only [uint64] at number nonzero old
      omega

theorem empty_vote_removes_only_member : ∃ s next, Reached Plain.codec s ∧ s.members = [1] ∧
      s.apply Plain.codec [Plain.header 1 1 0 1 1 emptyNonce] = .ok next ∧ next.members = [] ∧ ¬ SameRecords s next := by
  refine ⟨newSnapshot 30000 0 1 (newFullnodeSet Plain.codec.text [1] 0), _,
    Runs.reached_start _ _ _ ⟨30000, 1, [1], 0, by decide, rfl⟩, rfl, rfl, rfl, ?_⟩
  intro records
  exact absurd ((records.1 1).mpr (by decide)) (by decide)

theorem empty_vote_changes_three_members : ∃ next, threeMembers.apply Plain.codec [Plain.header 1 1 0 1 1 emptyNonce] = .ok next ∧
      ¬ SameRecords threeMembers next ∧ (1 : Address) ∈ next.members := by
  obtain ⟨next, applied, changed, stays⟩ := empty_vote_changes_records Plain.codec threeMembers
    (Plain.header 1 1 0 1 1 emptyNonce) 1 three_members_reached (by decide) rfl
    ⟨∅, fun _ => true, 0, Plain.header 1 1 0 1 1 emptyNonce, (fun _ present => by cases present), rfl, rfl, rfl⟩ rfl (by decide)
    (by decide)
  exact ⟨next, applied, changed, stays.mpr (by decide)⟩

end Snapshot

end Didux.Backend
