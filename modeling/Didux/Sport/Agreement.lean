import Didux.Lib.Quorum
import Didux.Sport.Network

set_option autoImplicit false

namespace Didux.Sport

open List BlockProposal

variable {B : Type}

theorem sent_record (w : World B) (faulty : Finset Address) (a : Address) (c : Core B) (done : Core B × List (Effect B))
    (msg : Message B) (sent : w.Sent faulty msg) : (w.record a c done).Sent faulty msg := by
  rcases sent with bad | ⟨m, member, same⟩
  · exact .inl bad
  · exact .inr ⟨m, mem_append_right _ member, same⟩

theorem sent_install (w : World B) (faulty : Finset Address) (a : Address) (done : Core B × List (Effect B))
    (msg : Message B) (sent : w.Sent faulty msg) : (w.install a done).Sent faulty msg := by
  rcases sent with bad | ⟨m, member, same⟩
  · exact .inl bad
  · exact .inr ⟨m, mem_append_right _ member, same⟩

def Ballot.choice (b : Ballot B) : Option Hash := if b.lock = 0 then none else some b.lock

variable (choice : Address → Nat → Option Hash) (a : Address) (b : Ballot B)

def choose : Address → Nat → Option Hash :=
  fun q s => if q = a ∧ s = b.sequence then b.choice else choice q s

theorem choose_own : choose choice a b a b.sequence = b.choice :=
  if_pos ⟨rfl, rfl⟩

theorem choose_other {choice : Address → Nat → Option Hash} {a q : Address} {b : Ballot B} {s : Nat}
    (other : q ≠ a ∨ s ≠ b.sequence) : choose choice a b q s = choice q s := by
  refine if_neg ?_
  rintro ⟨same, sequence⟩
  rcases other with different | different
  · exact different same
  · exact different sequence

theorem choose_extends (a q : Address) (b : Ballot B) (s : Nat) (d : Hash)
    (agrees : choice a b.sequence = some d → b.choice = some d) (chose : choice q s = some d) :
    choose choice a b q s = some d := by
  by_cases own : q = a ∧ s = b.sequence
  · obtain ⟨rfl, rfl⟩ := own
    rw [choose_own]
    exact agrees chose
  · rw [choose_other (by tauto)]
    exact chose

variable [BlockProposal B]

structure Ballot.Standing (sets : Nat → FullnodeSet) (faulty : Finset Address) (w : World B) (a : Address)
    (b : Ballot B) : Prop where
  name : b.address = a
  regular : b.Regular
  members : b.fullnodes = (sets b.sequence).fullnodes
  positive : 0 < b.sequence
  height : ∀ p, b.proposal = some p → number p = b.sequence
  backed : ∀ H, H ≠ 0 → b.Backs H
  delivered : ∀ q m, b.commits.lookup q = some m → w.Sent faulty m

section

variable (wire : Wire B) (faulty : Finset Address) (sets : Nat → FullnodeSet) (w : World B) (a : Address)
  (be : Backend B)

variable {b next : Ballot B} {input : Input B} {proposed : List B} {voted : List (Message B)} {decided : List (B × List Bytes)}
  {after : World B}

variable (move : Move wire be b input proposed voted decided next)

include move

theorem move_members {sets : Nat → FullnodeSet} (known : ∀ p, (be.fullnodes p).fullnodes = (sets (number p + 1)).fullnodes)
    (members : b.fullnodes = (sets b.sequence).fullnodes) : next.fullnodes = (sets next.sequence).fullnodes := by
  cases move with
  | newSequence _ last => exact known last
  | keep => exact members
  | propose => exact members
  | answerOld => exact members
  | catchUp => exact members
  | newRound => exact members
  | accept => exact members
  | acceptLocked => exact members
  | lockIn => exact members
  | count msg =>
    obtain ⟨commits, counted⟩ := b.count_frame msg
    rw [counted]
    exact members
  | decide msg =>
    obtain ⟨commits, counted⟩ := b.count_frame msg
    rw [counted]
    exact members
  | decideFailed msg =>
    obtain ⟨commits, counted⟩ := b.count_frame msg
    rw [counted]
    exact members

theorem move_standing {sets : Nat → FullnodeSet} {faulty : Finset Address} {w : World B} {a : Address}
    (faithful : Faithful sets w be) (verifies : ∀ p, be.verify p = .ok () → number p = b.sequence)
    (authentic : ∀ msg src, input = .message msg src → w.Sent faulty msg) (standing : b.Standing sets faulty w a) :
    next.Standing sets faulty w a := by
  have view := move_view wire be _ _ _ _ _ _ move
  have positive := standing.positive
  refine ⟨view.1.trans standing.name, move_regular wire be _ _ _ _ _ _ move standing.regular, ?_, by omega, ?_, ?_, ?_⟩
  · exact move_members wire be move faithful.members standing.members
  · exact move_proposal wire be _ _ _ _ _ _ (fun sequence p => number p = sequence) move
      (fun _ _ pp _ _ _ _ => verifies pp.blockProposal) standing.height
  · exact fun H real => move_backs wire be _ _ _ _ _ _ H real (faithful.good H) move (standing.backed H real)
  · exact move_delivered wire be _ _ _ _ _ _ (w.Sent faulty) move
      (fun msg src _ given _ _ _ => authentic msg src given) standing.delivered

theorem move_vote_cases {m : Message B} (sent : m ∈ voted) :
    m.address = b.address ∧ ∃ (sub : Subject) (p : B), m.msg = .subject sub ∧ hash p = sub.digest ∧
      (sub.view.sequence = next.sequence ∧ next.lock = sub.digest ∨
        be.hasBlockProposal (hash p) (number p) = true) := by
  cases move with
  | answerOld msg src pp _ _ _ _ answers signed =>
    obtain ⟨_, content, address, _⟩ := signed m sent
    simp only [Core.answersOldBlock, Bool.and_eq_true] at answers
    exact ⟨address, _, pp.blockProposal, content, rfl, .inr answers.2⟩
  | acceptLocked msg src pp _ _ _ _ _ _ _ _ same signed =>
    obtain ⟨_, content, address, _⟩ := signed m sent
    exact ⟨address, _, pp.blockProposal, content, same, .inl ⟨rfl, rfl⟩⟩
  | lockIn msg src p _ _ _ _ signed =>
    obtain ⟨_, content, address, _⟩ := signed m sent
    exact ⟨address, _, p, content, rfl, .inl ⟨rfl, rfl⟩⟩
  | keep => cases sent
  | propose => cases sent
  | catchUp => cases sent
  | newRound => cases sent
  | newSequence => cases sent
  | accept => cases sent
  | count => cases sent
  | decide => cases sent
  | decideFailed => cases sent

omit move

theorem move_new_sequence (b next : Ballot B) (input : Input B) (proposed : List B) (voted : List (Message B))
    (decided : List (B × List Bytes)) (move : Move wire be b input proposed voted decided next) :
    next.sequence = b.sequence ∨ b.sequence < next.sequence ∧ next.lock = 0 := by
  cases move with
  | newSequence _ last speaker later => exact .inr ⟨Nat.lt_succ_of_le later, rfl⟩
  | keep => exact .inl rfl
  | propose => exact .inl rfl
  | answerOld => exact .inl rfl
  | catchUp => exact .inl rfl
  | newRound => exact .inl rfl
  | accept => exact .inl rfl
  | acceptLocked => exact .inl rfl
  | lockIn => exact .inl rfl
  | count msg =>
    obtain ⟨counts, counted⟩ := b.count_frame msg
    exact .inl (by rw [counted])
  | decide msg =>
    obtain ⟨counts, counted⟩ := b.count_frame msg
    exact .inl (by rw [counted])
  | decideFailed msg =>
    obtain ⟨counts, counted⟩ := b.count_frame msg
    exact .inl (by rw [counted]; rfl)

def World.Settled (w : World B) (digest : Hash) : Prop :=
  ∃ p : B, hash p = digest ∧ (number p = 0 ∨
    ∃ d ∈ w.decided, hash d.proposal = digest ∧ number d.proposal = number p)

def World.Certified (faulty : Finset Address) (sets : Nat → FullnodeSet) (choice : Address → Nat → Option Hash)
    (d : Decision B) : Prop :=
  ∃ group : Finset Address, group ⊆ (sets d.sequence).fullnodes.toFinset ∧
    (sets d.sequence).minApprovers ≤ group.card ∧
    ∀ q ∈ group, q ∉ faulty → choice q d.sequence = some (hash d.proposal)

structure World.Tracked (faulty : Finset Address) (sets : Nat → FullnodeSet) (w : World B)
    (choice : Address → Nat → Option Hash) : Prop where
  standing : ∀ a c, w.cores a = some c → c.ballot.Standing sets faulty w a
  absent : ∀ a, w.cores a = none → ∀ s, choice a s = none
  current : ∀ a c, w.cores a = some c → choice a c.ballot.sequence = c.ballot.choice
  later : ∀ a c, w.cores a = some c → ∀ s, c.ballot.sequence < s → choice a s = none

structure World.Chosen (faulty : Finset Address) (sets : Nat → FullnodeSet) (w : World B)
    (choice : Address → Nat → Option Hash) : Prop extends World.Tracked faulty sets w choice where
  voted : ∀ m ∈ w.sent, m.code = msgCommit → ∀ sub, m.msg = .subject sub →
    choice m.address sub.view.sequence = some sub.digest ∨ w.Settled sub.digest
  decided : ∀ d ∈ w.decided, number d.proposal = d.sequence ∧ World.Certified faulty sets choice d

def World.Inv (faulty : Finset Address) (sets : Nat → FullnodeSet) (w : World B) : Prop :=
  ∃ choice, World.Chosen faulty sets w choice

theorem move_choice (b next : Ballot B) (input : Input B) (proposed : List B) (voted : List (Message B))
    (decided : List (B × List Bytes)) (sets : Nat → FullnodeSet) (faulty : Finset Address) (w : World B) (a : Address)
    (choice : Nat → Option Hash) (d : Hash) (move : Move wire be b input proposed voted decided next)
    (faithful : Faithful sets w be) (standing : b.Standing sets faulty w a) (current : choice b.sequence = b.choice)
    (later : ∀ s, b.sequence < s → choice s = none) (chose : choice next.sequence = some d) : next.choice = some d := by
  rcases move_new_sequence wire be _ _ _ _ _ _ move with stays | ⟨left, _⟩
  · rw [stays, current, Ballot.choice] at chose
    split_ifs at chose with unlocked
    have held : b.lock = d := Option.some.inj chose
    have real : d ≠ 0 := held ▸ unlocked
    have kept := move_keeps_lock wire be _ _ _ _ _ _ d real ⟨faithful.good d, faithful.commits⟩ move held
      (standing.backed d real) stays
    rw [Ballot.choice, kept, if_neg real]
  · rw [later _ left] at chose
    cases chose

theorem standing_mono {faulty : Finset Address} {w : World B} {a : Address}
    (more : ∀ msg, w.Sent faulty msg → after.Sent faulty msg) (standing : b.Standing sets faulty w a) :
    b.Standing sets faulty after a :=
  { standing with delivered := fun q m found => more m (standing.delivered q m found) }

theorem certified_mono {choice wider : Address → Nat → Option Hash} {d : Decision B}
    (kept : ∀ q s h, choice q s = some h → wider q s = some h) (certified : World.Certified faulty sets choice d)
    : World.Certified faulty sets wider d := by
  obtain ⟨group, inside, large, chose⟩ := certified
  exact ⟨group, inside, large, fun q member honest => kept q _ _ (chose q member honest)⟩

theorem settled_mono {digest : Hash} (more : ∀ d ∈ w.decided, d ∈ after.decided)
    (settled : w.Settled digest) : after.Settled digest := by
  obtain ⟨p, hash, first | ⟨d, member, same⟩⟩ := settled
  · exact ⟨p, hash, .inl first⟩
  · exact ⟨p, hash, .inr ⟨d, more d member, same⟩⟩

theorem tracked_update (after : World B) (choice : Address → Nat → Option Hash) (a : Address) (next : Core B)
    (cores : after.cores = Function.update w.cores a (some next))
    (more : ∀ msg, w.Sent faulty msg → after.Sent faulty msg) (tracked : World.Tracked faulty sets w choice)
    (standing : next.ballot.Standing sets faulty w a) (later : ∀ s, next.ballot.sequence < s → choice a s = none) :
    World.Tracked faulty sets after (choose choice a next.ballot) := by
  have others (q : Address) (different : q ≠ a) : after.cores q = w.cores q := by
    rw [cores]
    exact Function.update_of_ne different _ _
  have own : after.cores a = some next := by
    rw [cores]
    exact Function.update_self _ _ _
  refine ⟨?_, ?_, ?_, ?_⟩
  · intro q c present
    by_cases same : q = a
    · subst same
      rw [own] at present
      cases present
      exact standing_mono sets more standing
    · rw [others q same] at present
      exact standing_mono sets more (tracked.standing q c present)
  · intro q none s
    by_cases same : q = a
    · subst same
      rw [own] at none
      cases none
    · rw [others q same] at none
      rw [choose_other (.inl same)]
      exact tracked.absent q none s
  · intro q c present
    by_cases same : q = a
    · subst same
      rw [own] at present
      cases present
      exact choose_own choice q _
    · rw [others q same] at present
      rw [choose_other (.inl same)]
      exact tracked.current q c present
  · intro q c present s beyond
    by_cases same : q = a
    · subst same
      rw [own] at present
      cases present
      rw [choose_other (.inr (Nat.ne_of_gt beyond))]
      exact later s beyond
    · rw [others q same] at present
      rw [choose_other (.inl same)]
      exact tracked.later q c present s beyond

theorem boot_inv {done : Core B × List (Effect B)} (faithful : Faithful sets w be)
    (later : ∀ c, w.cores a = some c → c.current.sequence < done.1.current.sequence)
    (started : Core.start wire be a = some done) (inv : World.Inv faulty sets w) : World.Inv faulty sets (w.install a done) := by
  obtain ⟨choice, chosen⟩ := inv
  obtain ⟨last, lastSpeaker, speaker, _, ballot, silent⟩ := Core.start_ballot wire be a done started
  have free : ∀ s, done.1.ballot.sequence ≤ s → choice a s = none := by
    intro s beyond
    cases present : w.cores a with
    | none => exact chosen.absent a present s
    | some c => exact chosen.later a c present s (Nat.lt_of_lt_of_le (later c present) beyond)
  have standing : done.1.ballot.Standing sets faulty w a := by
    rw [ballot]
    refine ⟨rfl, Ballot.fresh_regular _ _ _ _, faithful.members last, Nat.succ_pos _, ?_, ?_, ?_⟩
    · exact fun p accepted => by cases accepted
    · exact fun H real held => absurd held.symm real
    · exact fun q m found => by cases found
  have kept : ∀ q s d, choice q s = some d → choose choice a done.1.ballot q s = some d := by
    intro q s d
    refine choose_extends choice a q done.1.ballot s d ?_
    rw [free _ (Nat.le_refl _)]
    exact fun impossible => by cases impossible
  have tracked := tracked_update faulty sets w (w.install a done) choice a done.1 rfl (sent_install w faulty a done)
    chosen.toTracked standing fun s beyond => free s (Nat.le_of_lt beyond)
  refine ⟨choose choice a done.1.ballot, tracked, ?_, ?_⟩
  · intro m member code sub named
    rcases mem_append.mp member with new | old
    · have vote := (mem_votes_iff done.2 m).mpr ⟨new, code⟩
      rw [silent.2.1] at vote
      cases vote
    · rcases chosen.voted m old code sub named with chose | settled
      · exact .inl (kept _ _ _ chose)
      · exact .inr settled
  · intro d member
    obtain ⟨number, certified⟩ := chosen.decided d member
    exact ⟨number, certified_mono faulty sets kept certified⟩

end

section Hashes

-- What is taken of the hash of a block: among the blocks there are, those of
-- different heights never share one, and none has the zero hash.
variable (apart : ∀ p q : B, hash p = hash q → number p = number q)

include apart

variable {faulty : Finset Address} {sets : Nat → FullnodeSet} {w : World B} {a : Address} {wire : Wire B}

theorem decision_certified {choice : Address → Nat → Option Hash} {b : Ballot B} {p : B}
    (chosen : World.Chosen faulty sets w choice) (standing : b.Standing sets faulty w a) (accepted : b.proposal = some p)
    (enough : b.quorum ≤ Assoc.size b.commits) : World.Certified faulty sets choice ⟨a, b.sequence, p⟩ := by
  have height := standing.height p accepted
  by_cases before : ∃ d ∈ w.decided, hash d.proposal = hash p
  · obtain ⟨d, member, same⟩ := before
    obtain ⟨number, group, inside, large, chose⟩ := chosen.decided d member
    have sequence : d.sequence = b.sequence := by rw [← number, ← height, apart _ _ same]
    rw [sequence] at inside large chose
    exact ⟨group, inside, large, fun q present honest => same ▸ chose q present honest⟩
  · refine ⟨b.commits.keys.toFinset, ?_, ?_, ?_⟩
    · intro q present
      obtain ⟨m, found⟩ := Assoc.mem_keys_lookup b.commits q (mem_toFinset.mp present)
      rw [mem_toFinset, ← standing.members]
      exact (standing.regular.counted q m found).2.1
    · rw [Assoc.keys_card]
      refine le_trans ?_ enough
      rw [Ballot.quorum, standing.members]
      exact Nat.le_refl _
    · intro q present honest
      obtain ⟨m, found⟩ := Assoc.mem_keys_lookup b.commits q (mem_toFinset.mp present)
      obtain ⟨address, _, code, proposal, same, subject⟩ := standing.regular.counted q m found
      rw [accepted] at same
      cases same
      rcases standing.delivered q m found with bad | ⟨original, sent, sender, kind, content⟩
      · exact absurd (address ▸ bad) honest
      · have named := (decode_subject_some_iff m _).mp subject
        rcases chosen.voted original sent (kind.trans code) _ (content.trans named) with chose | ⟨other, hash, settled⟩
        · rw [sender, address] at chose
          exact chose
        · have number := apart other p hash
          have positive := standing.positive
          rcases settled with first | ⟨d, member, same, _⟩
          · omega
          · exact absurd ⟨d, member, same⟩ before

variable (real : ∀ p : B, hash p ≠ 0)

include real

theorem handle_inv
    {c : Core B} {be : Backend B} {event : Event B} {done : Core B × List (Effect B)} (present : w.cores a = some c)
    (faithful : Faithful sets w be) (verifies : ∀ p, be.verify p = .ok () → number p = c.current.sequence)
    (authentic : ∀ msg src, c.input wire event = .message msg src → w.Sent faulty msg)
    (stepped : Core.step wire be c event = some done) (inv : World.Inv faulty sets w) :
    World.Inv faulty sets (w.record a c done) := by
  obtain ⟨choice, chosen⟩ := inv
  have move := Core.step_moves wire be c event done stepped
  have before := chosen.standing a c present
  have after := move_standing wire be move faithful verifies authentic before
  have kept : ∀ q s d, choice q s = some d → choose choice a done.1.ballot q s = some d := fun q s d =>
    choose_extends choice a q done.1.ballot s d (move_choice wire be _ _ _ _ _ _ sets faulty w a (choice a) d move faithful
      before (chosen.current a c present) (chosen.later a c present))
  have advanced := (move_view wire be _ _ _ _ _ _ move).2
  have tracked := tracked_update faulty sets w (w.record a c done) choice a done.1 rfl (sent_record w faulty a c done)
    chosen.toTracked after fun s beyond => chosen.later a c present s (by omega)
  refine ⟨choose choice a done.1.ballot, tracked, ?_, ?_⟩
  · intro m member code sub named
    have grow : ∀ digest, w.Settled digest → (w.record a c done).Settled digest := fun digest =>
      settled_mono w fun d present => mem_append_right _ present
    rcases mem_append.mp member with new | old
    · have vote := (mem_votes_iff done.2 m).mpr ⟨new, code⟩
      obtain ⟨address, named', p, content, hash, cause⟩ := move_vote_cases wire be move vote
      rw [named] at content
      cases content
      rcases cause with ⟨sequence, lock⟩ | known
      · left
        rw [address, before.name, sequence, choose_own, Ballot.choice, lock, if_neg (hash ▸ real p)]
      · right
        refine grow _ ⟨p, hash, ?_⟩
        rcases faithful.known _ _ known with first | ⟨d, present, same, number⟩
        · exact .inl first
        · exact .inr ⟨d, present, same.trans hash, number⟩
    · rcases chosen.voted m old code sub named with chose | settled
      · exact .inl (kept _ _ _ chose)
      · exact .inr (grow _ settled)
  · intro d member
    rcases mem_append.mp member with new | old
    · obtain ⟨decision, made, same⟩ := mem_map.mp new
      obtain ⟨msg, src, given, accepted, _, enough, counting⟩ := move_decided wire be _ _ _ _ _ _ move decision made
      have counted := move_standing wire be counting faithful verifies (given ▸ authentic) before
      obtain ⟨commits, frame⟩ := c.ballot.count_frame msg
      rw [frame] at counted enough
      have certified := decision_certified apart chosen counted accepted enough
      rw [← same]
      exact ⟨before.height _ accepted, certified_mono faulty sets kept certified⟩
    · obtain ⟨number, certified⟩ := chosen.decided d old
      exact ⟨number, certified_mono faulty sets kept certified⟩

theorem step_inv {next : World B}
    (inv : World.Inv faulty sets w) (step : World.Step wire faulty sets w next) : World.Inv faulty sets next := by
  cases step with
  | handle a c be event done honest present faithful verifies authentic stepped =>
    exact handle_inv apart real present faithful verifies authentic stepped inv
  | boot a be done honest faithful later started =>
    exact boot_inv wire faulty sets w a be faithful later started inv

theorem agreement (wire : Wire B) (faulty : Finset Address) (sets : Nat → FullnodeSet) (w : World B)
    (reachable : World.Reachable wire faulty sets w) (first second : Decision B) (firstMade : first ∈ w.decided)
    (secondMade : second ∈ w.decided) (sequence : first.sequence = second.sequence)
    (few : (faulty ∩ (sets first.sequence).fullnodes.toFinset).card + (sets first.sequence).size <
      2 * (sets first.sequence).minApprovers) : hash first.proposal = hash second.proposal := by
  have inv : World.Inv faulty sets w := by
    refine Runs.reached_invariant _ _ (World.Inv faulty sets) ?_ ?_ w reachable
    · rintro start rfl
      refine ⟨fun _ _ => none, ⟨?_, ?_, ?_, ?_⟩, ?_, ?_⟩
      · exact fun a c present => by cases present
      · exact fun _ _ _ => rfl
      · exact fun a c present => by cases present
      · exact fun _ _ _ _ _ => rfl
      · exact fun m member => by cases member
      · exact fun d member => by cases member
    · exact fun state next held step => step_inv apart real held step
  obtain ⟨choice, chosen⟩ := inv
  obtain ⟨_, left, leftIn, leftLarge, leftChose⟩ := chosen.decided first firstMade
  obtain ⟨_, right, rightIn, rightLarge, rightChose⟩ := chosen.decided second secondMade
  rw [← sequence] at rightIn rightLarge rightChose
  have size : (sets first.sequence).fullnodes.toFinset.card ≤ (sets first.sequence).size := toFinset_card_le _
  have same := Quorum.quorum_choice_unique _ faulty left right _ (fun q => choice q first.sequence) _ _ leftIn rightIn
    leftLarge rightLarge (by omega) leftChose rightChose
  exact Option.some.inj same

end Hashes

inductive Tip where
  | genesis
  | child
deriving DecidableEq, Repr

instance : BlockProposal Tip where
  number tip := if tip = .genesis then 0 else 1
  hash tip := if tip = .genesis then 1 else 2

def tipTable : List (Message Tip) :=
  [⟨msgPreprepare, .preprepare ⟨⟨0, 1⟩, .child⟩, 1, [], []⟩, ⟨msgPrepare, .subject ⟨⟨0, 1⟩, 2⟩, 1, [], []⟩,
   ⟨msgPrepare, .subject ⟨⟨0, 1⟩, 2⟩, 2, [], []⟩, ⟨msgCommit, .subject ⟨⟨0, 1⟩, 2⟩, 1, [], []⟩,
   ⟨msgCommit, .subject ⟨⟨0, 1⟩, 2⟩, 2, [], []⟩, ⟨msgPrepare, .subject ⟨⟨0, 1⟩, 3⟩, 4, [], []⟩,
   ⟨msgPrepare, .subject ⟨⟨0, 1⟩, 2⟩, 4, [], []⟩, ⟨msgCommit, .subject ⟨⟨0, 1⟩, 2⟩, 4, [], []⟩]

def tipBackend (a : Address) : Backend Tip :=
  { steadyBackend (UInt8.ofNat a.toNat) ⟨[1, 2, 3, 4], 0, some 1⟩ Tip.genesis [] with
    verify := fun p => if p = .child then .ok () else .error .invalid }

-- Node 3 is down, and the faulty node 4 votes for another block first.
def tipActions : List (Address × Option (Event Tip)) :=
  [(1, none), (2, none), (1, some (.request .child)),
   (1, some (.message (tablePayload 0 1))), (2, some (.message (tablePayload 0 1))), (2, some (.message (tablePayload 5 4))),
   (1, some (.message (tablePayload 1 1))), (1, some (.message (tablePayload 2 2))), (1, some (.message (tablePayload 6 4))),
   (2, some (.message (tablePayload 1 1))), (2, some (.message (tablePayload 2 2))), (2, some (.message (tablePayload 6 4))),
   (1, some (.message (tablePayload 3 1))), (1, some (.message (tablePayload 4 2))), (1, some (.message (tablePayload 7 4))),
   (2, some (.message (tablePayload 3 1))), (2, some (.message (tablePayload 4 2))), (2, some (.message (tablePayload 7 4)))]

theorem tip_run_facts : ∃ w, World.run (tableWire tipTable) {4} tipBackend (fun c => c.current.sequence == 1) tipActions
      World.empty = some w ∧ w.decided = [⟨2, 1, .child⟩, ⟨1, 1, .child⟩] :=
  ⟨_, rfl, rfl⟩

theorem tip_reachable {w : World Tip}
    (ran : World.run (tableWire tipTable) {4} tipBackend (fun c => c.current.sequence == 1) tipActions World.empty = some w) :
    World.Reachable (tableWire tipTable) {4} (fun _ => ⟨[1, 2, 3, 4], 0, some 1⟩) w := by
  refine run_reachable _ {4} tipBackend (fun c => c.current.sequence == 1) _ ?_ ?_ tipActions World.empty w
    (Runs.reached_start _ _ _ rfl) ran
  · intro state a
    refine ⟨?_, fun _ _ => rfl, fun _ => rfl, fun _ => rfl⟩
    intro hash number known
    cases known
  · intro a c p admitted verified
    rw [beq_iff_eq.mp admitted]
    cases p with
    | genesis => cases verified
    | child => rfl

theorem agreement_two_nodes : ∃ (w : World Tip) (first second : Decision Tip),
    World.Reachable (tableWire tipTable) {4} (fun _ => ⟨[1, 2, 3, 4], 0, some 1⟩) w ∧
      first ∈ w.decided ∧ second ∈ w.decided ∧ first.who ≠ second.who ∧
      hash first.proposal = hash second.proposal := by
  obtain ⟨w, ran, made⟩ := tip_run_facts
  have one : (⟨1, 1, .child⟩ : Decision Tip) ∈ w.decided := by simp [made]
  have two : (⟨2, 1, .child⟩ : Decision Tip) ∈ w.decided := by simp [made]
  have reachable := tip_reachable ran
  refine ⟨w, ⟨1, 1, .child⟩, ⟨2, 1, .child⟩, reachable, one, two, by decide, ?_⟩
  exact agreement (fun p q same => by cases p <;> cases q <;> first | rfl | exact absurd same (by decide))
    (fun p => by cases p <;> decide) (tableWire tipTable) {4} (fun _ => ⟨[1, 2, 3, 4], 0, some 1⟩) w reachable _ _ one two rfl
    (by decide)

end Didux.Sport
