import Didux.Lib.Runs
import Didux.Sport.Move

set_option autoImplicit false

namespace Didux.Sport

open Nat BlockProposal

variable {B : Type}

theorem view_cmp_ne_gt_iff (v y : View) :
    v.cmp y ≠ .gt ↔ v.sequence < y.sequence ∨ v.sequence = y.sequence ∧ v.round ≤ y.round := by
  by_cases sameSequence : v.sequence = y.sequence
  · by_cases sameRound : v.round = y.round
    · simp [View.cmp, sameSequence, sameRound]
    · simp [View.cmp, sameSequence, sameRound, Nat.compare_eq_gt]
  · simp only [View.cmp, sameSequence, ne_eq, not_false_eq_true, if_true, Nat.compare_eq_gt, false_and,
      or_false]
    omega

theorem count_delivered {sent : Message B → Prop} {b : Ballot B} {msg : Message B} (new : sent msg)
    (delivered : ∀ q m, b.commits.lookup q = some m → sent m) : ∀ q m, (b.count msg).commits.lookup q = some m → sent m := by
  intro q m found
  by_cases member : msg.address ∈ b.voters
  · rw [Ballot.count, if_pos member] at found
    rcases Assoc.lookup_insert_cases b.commits msg.address q msg m found with ⟨_, same⟩ | old
    · exact same ▸ new
    · exact delivered q m old
  · rw [Ballot.count, if_neg member] at found
    exact delivered q m found

theorem carry_proposal (fits : Nat → B → Prop) (bad : Hash → Bool) (b : Ballot B) (round : Nat) (p : B)
    (known : ∀ p, b.proposal = some p → fits b.sequence p) (accepted : (b.carry bad round).proposal = some p) :
    fits b.sequence p := by
  by_cases locked : b.Locked bad
  · rw [Ballot.carry_locked bad b round locked] at accepted
    exact known p accepted
  · rw [Ballot.carry_unlocked bad b round locked] at accepted
    cases accepted

variable [BlockProposal B]

def Steps (wire : Wire B) (allowed : Backend B → Core B → Event B → Prop) (c next : Core B) : Prop :=
  ∃ be event effects, allowed be c event ∧ Core.step wire be c event = some (next, effects)

def Started (wire : Wire B) (initial : Backend B → Prop) (address : Address) (c : Core B) : Prop :=
  ∃ be effects, initial be ∧ Core.start wire be address = some (c, effects)

def Running (wire : Wire B) (initial : Backend B → Prop) (allowed : Backend B → Core B → Event B → Prop)
    (address : Address) (c : Core B) : Prop :=
  Runs.Reached (Started wire initial address) (Steps wire allowed) c

structure Ballot.Regular (b : Ballot B) : Prop where
  voters : b.voters = b.fullnodes
  fresh : b.state = .acceptRequest ∨ b.waiting = true → b.commits = ∅
  counted : ∀ a m, b.commits.lookup a = some m → m.address = a ∧ a ∈ b.fullnodes ∧ m.code = msgCommit ∧
    ∃ p, b.proposal = some p ∧ m.decodeSubject = some ⟨b.view, hash p⟩

namespace Ballot

theorem fresh_regular (address : Address) (sequence : Nat) (fullnodes : List Address) (speaker : Bool) :
    (freshBallot address sequence fullnodes speaker : Ballot B).Regular where
  voters := rfl
  fresh _ := rfl
  counted a m found := by cases found

variable {b : Ballot B} {state : State} {p : B}

theorem carry_regular {bad : Hash → Bool} {round : Nat} {waiting speaker : Bool} :
    { b.carry bad round with state := state, waiting := waiting, speaker := speaker }.Regular where
  voters := rfl
  fresh _ := rfl
  counted a m found := by cases found

theorem count_regular {msg : Message B} (regular : b.Regular) (code : msg.code = msgCommit)
    (accepted : b.proposal = some p) (settled : b.waiting = false) (past : b.state ≠ .acceptRequest)
    (subject : msg.decodeSubject = some ⟨b.view, hash p⟩) : (b.count msg).Regular := by
  by_cases member : msg.address ∈ b.voters
  · rw [count, if_pos member]
    refine ⟨regular.voters, ?_, ?_⟩
    · rintro (accepting | waiting)
      · exact absurd accepting past
      · exact absurd waiting (by simp [settled])
    · intro a m found
      rcases Assoc.lookup_insert_cases b.commits msg.address a msg m found with ⟨same, new⟩ | old
      · subst same
        subst new
        exact ⟨rfl, regular.voters ▸ member, code, p, accepted, subject⟩
      · exact regular.counted a m old
  · rw [count, if_neg member]
    exact regular

theorem relock_regular {lock : Hash} (regular : b.Regular) (settled : b.waiting = false)
    (past : state ≠ .acceptRequest) : { b with lock := lock, state := state }.Regular where
  voters := regular.voters
  fresh open_ := by
    rcases open_ with accepting | waiting
    · exact absurd accepting past
    · exact absurd waiting (by simp [settled])
  counted := regular.counted

theorem accept_regular (regular : b.Regular)
    (accepting : b.state = .acceptRequest) : { b with proposal := some p, state := state }.Regular := by
  have empty := regular.fresh (.inl accepting)
  refine ⟨regular.voters, fun _ => empty, ?_⟩
  intro a m found
  rw [show b.commits = ∅ from empty] at found
  cases found

end Ballot

variable (wire : Wire B) (be : Backend B)

variable (b next : Ballot B) (input : Input B) (proposed : List B) (voted : List (Message B)) (decided : List (B × List Bytes))

variable (move : Move wire be b input proposed voted decided next)

include move

theorem move_regular (regular : b.Regular) : next.Regular := by
  cases move with
  | keep => exact regular
  | propose => exact regular
  | answerOld => exact regular
  | catchUp _ round => exact Ballot.carry_regular
  | newRound _ round speaker => exact Ballot.carry_regular
  | newSequence => exact Ballot.fresh_regular _ _ _ _
  | accept msg src pp _ _ _ _ accepting => exact Ballot.accept_regular regular accepting
  | acceptLocked msg src pp _ _ _ _ _ accepting => exact Ballot.accept_regular regular accepting
  | lockIn msg src p _ _ settled => exact Ballot.relock_regular regular settled (by decide)
  | count msg src p code accepted settled past subject =>
    exact Ballot.count_regular regular code accepted settled past subject
  | decide msg src p code accepted settled past subject =>
    refine Ballot.relock_regular (Ballot.count_regular regular code accepted settled past subject) ?_ (by decide)
    obtain ⟨commits, counted⟩ := b.count_frame msg
    rw [counted]
    exact settled
  | decideFailed msg =>
    exact Ballot.carry_regular

theorem move_view : next.address = b.address ∧
      (b.sequence < next.sequence ∨ b.sequence = next.sequence ∧ b.round ≤ next.round) := by
  cases move with
  | keep => exact ⟨rfl, .inr ⟨rfl, le_refl _⟩⟩
  | propose => exact ⟨rfl, .inr ⟨rfl, le_refl _⟩⟩
  | answerOld => exact ⟨rfl, .inr ⟨rfl, le_refl _⟩⟩
  | catchUp _ round later => exact ⟨rfl, .inr ⟨rfl, le_of_lt later⟩⟩
  | newRound _ round speaker _ notEarlier => exact ⟨rfl, .inr ⟨rfl, notEarlier⟩⟩
  | newSequence _ last speaker later => exact ⟨rfl, .inl (lt_succ_of_le later)⟩
  | accept => exact ⟨rfl, .inr ⟨rfl, le_refl _⟩⟩
  | acceptLocked => exact ⟨rfl, .inr ⟨rfl, le_refl _⟩⟩
  | lockIn => exact ⟨rfl, .inr ⟨rfl, le_refl _⟩⟩
  | count msg =>
    obtain ⟨commits, counted⟩ := b.count_frame msg
    rw [counted]
    exact ⟨rfl, .inr ⟨rfl, le_refl _⟩⟩
  | decide msg =>
    obtain ⟨commits, counted⟩ := b.count_frame msg
    rw [counted]
    exact ⟨rfl, .inr ⟨rfl, le_refl _⟩⟩
  | decideFailed msg =>
    obtain ⟨commits, counted⟩ := b.count_frame msg
    rw [counted]
    exact ⟨rfl, .inr ⟨rfl, le_succ _⟩⟩

omit move

theorem move_delivered (sent : Message B → Prop) (move : Move wire be b input proposed voted decided next)
    (authentic : ∀ msg src p, input = .message msg src → msg.code = msgCommit → b.proposal = some p →
      msg.decodeSubject = some ⟨b.view, hash p⟩ → sent msg)
    (delivered : ∀ q m, b.commits.lookup q = some m → sent m) : ∀ q m, next.commits.lookup q = some m → sent m := by
  cases move with
  | catchUp => exact fun q m found => by cases found
  | newRound => exact fun q m found => by cases found
  | newSequence => exact fun q m found => by cases found
  | count msg src p code accepted _ _ subject =>
    exact count_delivered (authentic msg src p rfl code accepted subject) delivered
  | decide msg src p code accepted _ _ subject =>
    exact count_delivered (authentic msg src p rfl code accepted subject) delivered
  | decideFailed => exact fun q m found => by cases found
  | _ => exact delivered

theorem move_proposal (fits : Nat → B → Prop) (move : Move wire be b input proposed voted decided next)
    (verifies : ∀ msg src pp, input = .message msg src → msg.code = msgPreprepare → msg.decodePreprepare = some pp →
      pp.view = b.view → be.verify pp.blockProposal = .ok () → fits b.sequence pp.blockProposal)
    (known : ∀ p, b.proposal = some p → fits b.sequence p) : ∀ p, next.proposal = some p → fits next.sequence p := by
  intro p accepted
  cases move with
  | keep => exact known p accepted
  | propose => exact known p accepted
  | answerOld => exact known p accepted
  | catchUp _ round => exact carry_proposal fits _ b round p known accepted
  | newRound _ round => exact carry_proposal fits _ b round p known accepted
  | newSequence => cases accepted
  | accept msg src pp code decoded view _ _ verified =>
    cases accepted
    exact verifies msg src pp rfl code decoded view verified
  | acceptLocked msg src pp _ code decoded view _ _ verified =>
    cases accepted
    exact verifies msg src pp rfl code decoded view verified
  | lockIn => exact known p accepted
  | count msg =>
    obtain ⟨commits, counted⟩ := b.count_frame msg
    rw [counted] at accepted ⊢
    exact known p accepted
  | decide msg =>
    obtain ⟨commits, counted⟩ := b.count_frame msg
    simp only [counted] at accepted ⊢
    exact known p accepted
  | decideFailed msg =>
    obtain ⟨commits, counted⟩ := b.count_frame msg
    simp only [counted] at accepted ⊢
    exact carry_proposal fits _ { b with commits := commits, lock := 0, state := .committed } (b.round + 1) p known accepted

theorem move_decided (move : Move wire be b input proposed voted decided next)
    (decision : B × List Bytes) (made : decision ∈ decided) :
    ∃ msg src, input = .message msg src ∧ b.proposal = some decision.1 ∧ decision.2 = (b.count msg).seals ∧
      b.quorum ≤ Assoc.size (b.count msg).commits ∧ Move wire be b (.message msg src) [] [] [] (b.count msg) := by
  cases move with
  | decide msg src p code accepted settled past subject enough =>
    cases List.mem_singleton.mp made
    exact ⟨msg, src, rfl, accepted, rfl, enough, .count msg src p code accepted settled past subject⟩
  | decideFailed msg src p code accepted settled past subject enough =>
    cases List.mem_singleton.mp made
    exact ⟨msg, src, rfl, accepted, rfl, enough, .count msg src p code accepted settled past subject⟩
  | _ => cases made

variable (initial : Backend B → Prop) (allowed : Backend B → Core B → Event B → Prop)

theorem running_invariant (address : Address) (inv : Ballot B → Prop)
    (begun : ∀ be last lastSpeaker speaker, initial be → be.lastBlockProposal = some (last, lastSpeaker) → inv
      (freshBallot address (number last + 1) (be.fullnodes last).fullnodes speaker))
    (keep : ∀ be c event next proposed voted decided, allowed be c event → inv c.ballot → Move wire be c.ballot
      (c.input wire event) proposed voted decided next → inv next)
    (c : Core B) (running : Running wire initial allowed address c) : inv c.ballot := by
  refine Runs.reached_invariant _ _ (fun state : Core B => inv state.ballot) ?_ ?_ c running
  · rintro state ⟨be, effects, meets, started⟩
    obtain ⟨last, lastSpeaker, speaker, known, ballot, _⟩ := Core.start_ballot wire be address _ started
    rw [ballot]
    exact begun be last lastSpeaker speaker meets known
  · rintro state next holds ⟨be, event, effects, meets, stepped⟩
    exact keep be state event next.ballot _ _ _ meets holds (Core.step_moves wire be state event _ stepped)

def Core.run (wire : Wire B) (be : Backend B) (admits : Core B → Event B → Bool) : List (Event B) → Core B → Option (Core B)
  | [], c => some c
  | event :: events, c =>
    if admits c event then (Core.step wire be c event).bind fun done => Core.run wire be admits events done.1 else none

theorem run_steps (allowed : Backend B → Core B → Event B → Prop) (be : Backend B) (admits : Core B → Event B → Bool)
    (sound : ∀ c event, admits c event = true → allowed be c event) (events : List (Event B)) (c last : Core B)
    (ran : Core.run wire be admits events c = some last) : Relation.ReflTransGen (Steps wire allowed) c last := by
  induction events generalizing c with
  | nil =>
    cases ran
    exact .refl
  | cons event events ih =>
    simp only [Core.run] at ran
    split_ifs at ran with admitted
    obtain ⟨done, stepped, rest⟩ := Option.bind_eq_some_iff.mp ran
    exact .head ⟨be, event, done.2, sound c event admitted, stepped⟩ (ih done.1 rest)

def Core.boot (wire : Wire B) (be : Backend B) (address : Address) (admits : Core B → Event B → Bool)
    (events : List (Event B)) : Option (Core B) :=
  (Core.start wire be address).bind fun done => Core.run wire be admits events done.1

theorem boot_running (be : Backend B) (address : Address) (admits : Core B → Event B → Bool) (meets : initial be)
    (sound : ∀ c event, admits c event = true → allowed be c event) (events : List (Event B)) (c : Core B)
    (booted : Core.boot wire be address admits events = some c) : Running wire initial allowed address c := by
  obtain ⟨done, started, ran⟩ := Option.bind_eq_some_iff.mp booted
  exact ⟨done.1, ⟨be, done.2, meets, started⟩, run_steps wire allowed be admits sound events done.1 c ran⟩

def steadyBackend (signer : UInt8) (set : FullnodeSet) (last : B) (known : List B) : Backend B where
  lastBlockProposal := some (last, 0)
  fullnodes _ := set
  parentFullnodes _ := set
  getSpeaker _ := 0
  hasBlockProposal hash number := known.any fun p => BlockProposal.hash p == hash && BlockProposal.number p == number
  hasBadBlockProposal _ := false
  verify _ := .ok ()
  commit _ _ := true
  sign data := some (signedBy signer data)

def tablePayload (i signer : UInt8) : Bytes := i :: signedBy signer [i]

end Didux.Sport
