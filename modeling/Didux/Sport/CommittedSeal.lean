import Didux.Sport.Run

set_option autoImplicit false

namespace Didux.Sport

open BlockProposal

variable {B : Type} [BlockProposal B]

def SealBound (be : Backend B) (c : Core B) (m : Message B) : Prop :=
  ∃ sub, m.decodeSubject = some sub ∧ be.sign (prepareCommittedSeal sub.digest) = some m.committedSeal ∧
    (c.current.lockedHash = sub.digest ∨ ∃ number, be.hasBlockProposal sub.digest number = true)

def AnswersOwnBlock (wire : Wire B) (be : Backend B) (c : Core B) (event : Event B) : Prop :=
  ∀ msg src pp, c.input wire event = .message msg src → msg.code = msgPreprepare → msg.decodePreprepare = some pp →
    pp.view.cmp c.currentView = .lt → Core.answersOldBlock wire be src pp = true →
    ∃ p, c.current.blockProposal = some p ∧ hash p = hash pp.blockProposal

variable (wire : Wire B) (be : Backend B)

theorem answers_old_block_known {src : Address} {pp : Preprepare B} (answers : Core.answersOldBlock wire be src pp = true) :
    be.hasBlockProposal (hash pp.blockProposal) (number pp.blockProposal) = true := by
  simp only [Core.answersOldBlock, Bool.and_eq_true] at answers
  exact answers.2

theorem signs_seal {b : Ballot B} {sub : Subject} {m : Message B} {p : B} (signs : b.Signs be sub m)
    (accepted : b.proposal = some p) (same : hash p = sub.digest) :
    m.decodeSubject = some sub ∧ be.sign (prepareCommittedSeal sub.digest) = some m.committedSeal := by
  obtain ⟨_, content, _, sealed⟩ := signs
  rw [accepted] at sealed
  refine ⟨?_, same ▸ sealed⟩
  simp only [Message.decodeSubject, content]

-- Both ways to send a COMMIT for the current proposal leave the ballot locked on
-- it. The third, for an old block, seals the current proposal all the same.
theorem move_votes_sealed (b next : Ballot B) (input : Input B) (proposed : List B) (voted : List (Message B))
    (decided : List (B × List Bytes)) (move : Move wire be b input proposed voted decided next)
    (own : ∀ msg src pp, input = .message msg src → msg.code = msgPreprepare → msg.decodePreprepare = some pp →
      pp.view.cmp b.view = .lt → Core.answersOldBlock wire be src pp = true → ∃ p, b.proposal = some p ∧
      hash p = hash pp.blockProposal) (m : Message B) (sent : m ∈ voted) :
    ∃ sub, m.decodeSubject = some sub ∧ be.sign (prepareCommittedSeal sub.digest) = some m.committedSeal ∧
      (next.lock = sub.digest ∨ ∃ number, be.hasBlockProposal sub.digest number = true) := by
  cases move with
  | answerOld msg src pp _ code decoded old answers signed =>
    obtain ⟨p, accepted, same⟩ := own msg src pp rfl code decoded old answers
    obtain ⟨subject, sealed⟩ := signs_seal be (signed m sent) accepted same
    exact ⟨_, subject, sealed, .inr ⟨_, answers_old_block_known wire be answers⟩⟩
  | acceptLocked msg src pp _ _ _ _ _ _ _ _ same signed =>
    obtain ⟨subject, sealed⟩ := signs_seal be (signed m sent) rfl same
    exact ⟨_, subject, sealed, .inl rfl⟩
  | lockIn msg src p _ accepted _ _ signed =>
    obtain ⟨subject, sealed⟩ := signs_seal be (signed m sent) accepted rfl
    exact ⟨_, subject, sealed, .inl rfl⟩
  | keep => cases sent
  | propose => cases sent
  | catchUp => cases sent
  | newRound => cases sent
  | newSequence => cases sent
  | accept => cases sent
  | count => cases sent
  | decide => cases sent
  | decideFailed => cases sent

variable {c next : Core B} {event : Event B} {effects : List (Effect B)} {allowed : Backend B → Core B → Event B → Prop}
  {address : Address}

theorem step_seals_bound (stepped : Core.step wire be c event = some (next, effects)) (own : AnswersOwnBlock wire be c event)
    : ∀ m ∈ votes effects, SealBound be next m :=
  move_votes_sealed wire be c.ballot next.ballot _ _ _ _ (Core.step_moves wire be c event _ stepped) own

structure SentCommit (B : Type) where
  backend : Backend B
  core : Core B
  message : Message B

def sentCommits (be : Backend B) (done : Core B × List (Effect B)) : List (SentCommit B) :=
  (votes done.2).map (SentCommit.mk be done.1)

def LogsStart (wire : Wire B) (address : Address) (s : Core B × List (SentCommit B)) : Prop :=
  ∃ be effects, Core.start wire be address = some (s.1, effects) ∧ s.2 = sentCommits be (s.1, effects)

def LogsStep (wire : Wire B) (allowed : Backend B → Core B → Event B → Prop) (s next : Core B × List (SentCommit B)) : Prop :=
  ∃ be event effects, allowed be s.1 event ∧ Core.step wire be s.1 event = some (next.1, effects) ∧
    next.2 = sentCommits be (next.1, effects) ++ s.2

def Logged (wire : Wire B) (allowed : Backend B → Core B → Event B → Prop) (address : Address) (c : Core B)
    (sent : List (SentCommit B)) : Prop :=
  Runs.Reached (LogsStart wire address) (LogsStep wire allowed) (c, sent)

theorem logged_step
    {sent : List (SentCommit B)} (logged : Logged wire allowed address c sent) {be : Backend B} (meets : allowed be c event)
    (stepped : Core.step wire be c event = some (next, effects)) :
    Logged wire allowed address next (sentCommits be (next, effects) ++ sent) :=
  Runs.reached_step _ _ (c, sent) _ logged ⟨be, event, effects, meets, stepped, rfl⟩

theorem running_logged
    (running : Running wire (fun _ => True) allowed address c) : ∃ sent, Logged wire allowed address c sent := by
  refine Runs.reached_invariant _ _ (fun state : Core B => ∃ sent, Logged wire allowed address state sent) ?_ ?_ c running
  · rintro state ⟨be, effects, _, started⟩
    exact ⟨_, Runs.reached_start _ _ (state, sentCommits be (state, effects)) ⟨be, effects, started, rfl⟩⟩
  · rintro state next ⟨sent, logged⟩ ⟨be, event, effects, meets, stepped⟩
    exact ⟨_, logged_step wire logged meets stepped⟩

theorem commit_seals_bound (wire : Wire B) (address : Address) (c : Core B) (sent : List (SentCommit B))
    (logged : Logged wire (AnswersOwnBlock wire) address c sent) :
    ∀ commit ∈ sent, SealBound commit.backend commit.core commit.message := by
  refine Runs.reached_invariant _ _ (fun s : Core B × List (SentCommit B) =>
    ∀ commit ∈ s.2, SealBound commit.backend commit.core commit.message) ?_ ?_ (c, sent) logged
  · rintro first ⟨be, effects, started, log⟩ commit present
    obtain ⟨_, _, _, _, _, silent⟩ := Core.start_ballot wire be address _ started
    rw [log] at present
    obtain ⟨m, voted, _⟩ := List.mem_map.mp present
    rw [silent.2.1] at voted
    cases voted
  · rintro state next bound ⟨be, event, effects, own, stepped, log⟩ commit present
    rw [log] at present
    rcases List.mem_append.mp present with new | old
    · obtain ⟨m, voted, rfl⟩ := List.mem_map.mp new
      exact step_seals_bound wire be stepped own m voted
    · exact bound commit old

def sealTable : List (Message BlockId) :=
  [⟨msgPreprepare, .preprepare ⟨⟨0, 2⟩, ⟨2, 20⟩⟩, 1, [], []⟩, ⟨msgPreprepare, .preprepare ⟨⟨0, 1⟩, ⟨1, 10⟩⟩, 1, [], []⟩,
   ⟨msgPrepare, .subject ⟨⟨0, 2⟩, 20⟩, 1, [], []⟩, ⟨msgPrepare, .subject ⟨⟨0, 2⟩, 20⟩, 2, [], []⟩]

def sealBackend : Backend BlockId := steadyBackend 2 ⟨[1, 2], 0, some 1⟩ ⟨1, 10⟩ [⟨1, 10⟩]

theorem old_block_run_facts : ∃ c next effects m,
    Core.boot (tableWire sealTable) sealBackend 2 (fun _ _ => true) [.message (tablePayload 0 1)] = some c ∧
    Core.step (tableWire sealTable) sealBackend c (.message (tablePayload 1 1)) = some (next, effects) ∧
    votes effects = [m] ∧ m.decodeSubject = some ⟨⟨0, 1⟩, 10⟩ ∧
    m.committedSeal = signedBy 2 (prepareCommittedSeal 20) ∧ next.current.lockedHash = 0 :=
  ⟨_, _, _, _, rfl, rfl, rfl, rfl, rfl, rfl⟩

-- The answer for block 10 carries a seal on block 20, which member 2 has accepted and not locked.
theorem old_block_seals_current : ∃ c sent, Logged (tableWire sealTable) (fun _ _ _ => True) 2 c sent ∧
      ∃ commit ∈ sent, commit.message.decodeSubject = some ⟨⟨0, 1⟩, 10⟩ ∧
        commit.backend.sign (prepareCommittedSeal 20) = some commit.message.committedSeal ∧
        commit.core.current.lockedHash ≠ 20 ∧ ¬ SealBound commit.backend commit.core commit.message := by
  obtain ⟨c, next, effects, m, booted, stepped, voted, subject, sealed, unlocked⟩ := old_block_run_facts
  obtain ⟨sent, logged⟩ := running_logged _
    (boot_running (tableWire sealTable) _ (fun _ _ _ => True) sealBackend 2 _ trivial (fun _ _ _ => trivial) _ c booted)
  have after := logged_step _ logged trivial stepped
  refine ⟨next, _, after, ⟨sealBackend, next, m⟩, ?_, subject, by rw [sealed]; rfl, by rw [unlocked]; decide, ?_⟩
  · simp [sentCommits, voted]
  · rintro ⟨sub, named, signed, _⟩
    rw [subject, Option.some.injEq] at named
    rw [← named, sealed] at signed
    have other : sealBackend.sign (prepareCommittedSeal 10) ≠ some (signedBy 2 (prepareCommittedSeal 20)) := by decide
    exact other signed

def bringsNothingOld (c : Core BlockId) (event : Event BlockId) : Bool :=
  match c.input (tableWire sealTable) event with
  | .message msg _ => msg.decodePreprepare.all fun pp => pp.view.cmp c.currentView != .lt
  | _ => true

theorem brings_nothing_old_own (c : Core BlockId) (event : Event BlockId) (admitted : bringsNothingOld c event = true) :
    AnswersOwnBlock (tableWire sealTable) sealBackend c event := by
  intro msg src pp given _ decoded old _
  simp [bringsNothingOld, given, decoded, old] at admitted

theorem prepared_run_facts : ∃ c next effects m, Core.boot (tableWire sealTable) sealBackend 2 bringsNothingOld
      [.message (tablePayload 0 1), .message (tablePayload 2 1)] = some c ∧
    bringsNothingOld c (.message (tablePayload 3 2)) = true ∧
    Core.step (tableWire sealTable) sealBackend c (.message (tablePayload 3 2)) = some (next, effects) ∧ votes effects = [m] :=
  ⟨_, _, _, _, rfl, rfl, rfl, rfl⟩

theorem commit_seals_bound_prepared : ∃ c sent, Logged (tableWire sealTable) (AnswersOwnBlock (tableWire sealTable)) 2 c sent ∧
      ∃ commit ∈ sent, SealBound commit.backend commit.core commit.message := by
  obtain ⟨c, next, effects, m, booted, admitted, stepped, voted⟩ := prepared_run_facts
  obtain ⟨sent, logged⟩ := running_logged _
    (boot_running (tableWire sealTable) _ _ sealBackend 2 _ trivial brings_nothing_old_own _ c booted)
  have after := logged_step _ logged (brings_nothing_old_own c _ admitted) stepped
  have present : ⟨sealBackend, next, m⟩ ∈ sentCommits sealBackend (next, effects) ++ sent := by
    simp [sentCommits, voted]
  exact ⟨next, _, after, _, present, commit_seals_bound (tableWire sealTable) 2 next _ after _ present⟩

end Didux.Sport
