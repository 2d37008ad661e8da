import Didux.Sport.Handlers

set_option autoImplicit false

namespace Didux.Sport

variable {B : Type}

-- What one member of the set stands for in a sequence: the view it is in, the
-- proposal it has accepted there, the hash it is locked on and the COMMITs it has counted.
structure Ballot (B : Type) where
  address : Address
  sequence : Nat
  round : Nat
  state : State
  waiting : Bool
  proposal : Option B
  lock : Hash
  commits : Assoc Address (Message B)
  voters : List Address
  fullnodes : List Address
  speaker : Bool

def Core.ballot (c : Core B) : Ballot B where
  address := c.address
  sequence := c.current.sequence
  round := c.current.round
  state := c.state
  waiting := c.waitingForRoundChange
  proposal := c.current.blockProposal
  lock := c.current.lockedHash
  commits := c.current.commits.messages
  voters := c.current.commits.fullnodeSet.fullnodes
  fullnodes := c.fullnodeSet.fullnodes
  speaker := c.isSpeaker

namespace Ballot

def view (b : Ballot B) : View := ⟨b.round, b.sequence⟩

variable (bad : Hash → Bool) (b : Ballot B)

def Locked : Prop := b.lock ≠ 0 ∧ bad b.lock = false

instance (bad : Hash → Bool) (b : Ballot B) : Decidable (b.Locked bad) :=
  inferInstanceAs (Decidable (b.lock ≠ 0 ∧ bad b.lock = false))

def quorum (b : Ballot B) : Nat := (2 * b.fullnodes.length) ⌈/⌉ 3

def carry (round : Nat) : Ballot B :=
  { b with
    round := round
    proposal := if b.Locked bad then b.proposal else none
    lock := if b.Locked bad then b.lock else 0
    commits := ∅
    voters := b.fullnodes }

theorem carry_locked (round : Nat) (locked : b.Locked bad) :
    b.carry bad round = { b with round := round, commits := ∅, voters := b.fullnodes } := by
  simp only [carry, if_pos locked]

theorem carry_unlocked (round : Nat) (unlocked : ¬ b.Locked bad) : b.carry bad round =
      { b with round := round, proposal := none, lock := 0, commits := ∅, voters := b.fullnodes } := by
  simp only [carry, if_neg unlocked]

theorem carry_locked_iff (round : Nat) : (b.carry bad round).Locked bad ↔ b.Locked bad := by
  by_cases locked : b.Locked bad
  · rw [carry_locked bad b round locked]
    rfl
  · rw [carry_unlocked bad b round locked]
    exact iff_of_false (fun held => held.1 rfl) locked

def count (b : Ballot B) (m : Message B) : Ballot B :=
  if m.address ∈ b.voters then { b with commits := b.commits.insert m.address m } else b

theorem count_frame (b : Ballot B) (msg : Message B) : ∃ commits, b.count msg = { b with commits := commits } := by
  by_cases member : msg.address ∈ b.voters
  · exact ⟨_, by rw [count, if_pos member]⟩
  · exact ⟨b.commits, by rw [count, if_neg member]⟩

def seals (b : Ballot B) : List Bytes := (Assoc.values b.commits).map fun m => Core.copySeal m.committedSeal

variable [BlockProposal B]

def Signs (be : Backend B) (b : Ballot B) (sub : Subject) (m : Message B) : Prop :=
  m.code = msgCommit ∧ m.msg = .subject sub ∧ m.address = b.address ∧
    match b.proposal with
    | some p => be.sign (prepareCommittedSeal (BlockProposal.hash p)) = some m.committedSeal
    | none => m.committedSeal = []

end Ballot

def Effect.proposal : Effect B → Option B
  | .broadcast m => if m.code = msgPreprepare then m.decodePreprepare.map Preprepare.blockProposal else none
  | _ => none

def Effect.vote : Effect B → Option (Message B)
  | .broadcast m => if m.code = msgCommit then some m else none
  | _ => none

def Effect.decision : Effect B → Option (B × List Bytes)
  | .commit p seals => some (p, seals)
  | _ => none

variable (effects : List (Effect B))

def proposals : List B := effects.filterMap Effect.proposal

def votes : List (Message B) := effects.filterMap Effect.vote

def decisions : List (B × List Bytes) := effects.filterMap Effect.decision

def Silent : Prop :=
  proposals effects = [] ∧ votes effects = [] ∧ decisions effects = []

theorem silent_nil : Silent ([] : List (Effect B)) := ⟨rfl, rfl, rfl⟩

theorem silent_cons_iff (effect : Effect B) (effects : List (Effect B)) (other : effect.proposal = none)
    (noVote : effect.vote = none) (noDecision : effect.decision = none) : Silent (effect :: effects) ↔ Silent effects := by
  simp [Silent, proposals, votes, decisions, other, noVote, noDecision]

theorem silent_append (first second : List (Effect B)) (a : Silent first) (b : Silent second) : Silent (first ++ second) := by
  obtain ⟨a₁, a₂, a₃⟩ := a
  obtain ⟨b₁, b₂, b₃⟩ := b
  simp only [proposals, votes, decisions] at a₁ a₂ a₃ b₁ b₂ b₃
  simp only [Silent, proposals, votes, decisions, List.filterMap_append, a₁, a₂, a₃, b₁, b₂, b₃, List.append_nil,
    and_self]

theorem silent_front (first second : List (Effect B)) (silent : Silent first) :
    proposals (first ++ second) = proposals second ∧ votes (first ++ second) = votes second ∧
      decisions (first ++ second) = decisions second := by
  obtain ⟨a, b, c⟩ := silent
  simp only [proposals, votes, decisions] at a b c
  simp only [proposals, votes, decisions, List.filterMap_append, a, b, c, List.nil_append, and_self]

theorem silent_back (first second : List (Effect B)) (silent : Silent second) :
    proposals (first ++ second) = proposals first ∧ votes (first ++ second) = votes first ∧
      decisions (first ++ second) = decisions first := by
  obtain ⟨a, b, c⟩ := silent
  simp only [proposals, votes, decisions] at a b c
  simp only [proposals, votes, decisions, List.filterMap_append, a, b, c, List.append_nil, and_self]

namespace Core

theorem hash_locked_iff (bad : Hash → Bool) (c : Core B) : c.current.isHashLocked bad = true ↔ c.ballot.Locked bad := by
  simp [RoundState.isHashLocked, Ballot.Locked, ballot]

section

variable (c : Core B)

theorem check_message_ok (code : Nat) (view : View) (handled : code ≠ msgRoundChange) (ok : c.checkMessage code view = .ok ()) :
    view = c.currentView ∧ c.waitingForRoundChange = false ∧ (c.state = .acceptRequest → code ≤ msgPreprepare) := by
  simp only [checkMessage, if_neg handled] at ok
  cases order : view.cmp c.currentView with
  | lt => simp [order] at ok
  | gt => simp [order] at ok
  | eq =>
    refine ⟨(view_cmp_eq_iff view c.currentView).mp order, ?_⟩
    cases waiting : c.waitingForRoundChange with
    | true => simp [order, waiting] at ok
    | false =>
      refine ⟨rfl, ?_⟩
      intro accepting
      by_contra later
      simp [order, accepting, Nat.lt_of_not_le later] at ok

theorem check_message_old (code : Nat) (view : View) (handled : code ≠ msgRoundChange)
    (old : c.checkMessage code view = .error .oldMessage) : view.cmp c.currentView = .lt := by
  simp only [checkMessage, if_neg handled] at old
  cases order : view.cmp c.currentView with
  | lt => rfl
  | gt => simp [order] at old
  | eq =>
    simp only [order] at old
    split_ifs at old <;> cases old

variable (be : Backend B) (c : Core B) (round : Nat)

theorem update_round_state_ballot :
    (updateRoundState be c ⟨round, c.current.sequence⟩ true).ballot = c.ballot.carry be.hasBadBlockProposal round := by
  by_cases locked : c.current.isHashLocked be.hasBadBlockProposal = true
  · have carried := (hash_locked_iff be.hasBadBlockProposal c).mp locked
    simp only [updateRoundState, if_pos locked, Ballot.carry, if_pos carried]
    rfl
  · have dropped := (hash_locked_iff be.hasBadBlockProposal c).not.mp locked
    simp only [updateRoundState, if_neg locked, Ballot.carry, if_neg dropped]
    rfl

theorem catch_up_ballot : (catchUpRound be c ⟨round, c.currentView.sequence⟩).ballot =
      { c.ballot.carry be.hasBadBlockProposal round with waiting := true } :=
  update_round_state_ballot be { c with waitingForRoundChange := true } round

theorem prepare_round_ballot (lastSpeaker : Address) (round : Nat) :
    ∃ speaker, (prepareRound be c lastSpeaker ⟨round, c.current.sequence⟩ true).ballot =
      { c.ballot.carry be.hasBadBlockProposal round with waiting := false, speaker := speaker } := by
  have carried := update_round_state_ballot be { c with roundChangeSet := newRoundChangeSet c.fullnodeSet } round
  change _ = c.ballot.carry be.hasBadBlockProposal round at carried
  refine ⟨(prepareRound be c lastSpeaker ⟨round, c.current.sequence⟩ true).isSpeaker, ?_⟩
  rw [← carried]
  rfl

theorem accept_commit_ballot (msg : Message B) : (c.acceptCommit msg).ballot = c.ballot.count msg := by
  simp only [acceptCommit, MessageSet.add_or_keep_cases]
  by_cases member : msg.address ∈ c.current.commits.fullnodeSet.fullnodes
  · rw [if_pos member, Ballot.count, if_pos (by exact member)]
    rfl
  · rw [if_neg member, Ballot.count, if_neg (by exact member)]

theorem store_backlog_ballot (msg : Message B) (src : Address) : (c.storeBacklog msg src).ballot = c.ballot := by
  by_cases own : src = c.address
  · rw [storeBacklog, if_pos own]
  · rw [storeBacklog, if_neg own]
    rfl

theorem drain_backlog_silent (src : Address) (fuel : Nat) (backlog : Prque (Message B)) :
    Silent (drainBacklog c src fuel backlog).2 := by
  induction fuel generalizing backlog with
  | zero => exact silent_nil
  | succ fuel ih =>
    simp only [drainBacklog]
    cases backlog.pop with
    | none => exact silent_nil
    | some popped =>
      obtain ⟨⟨prio, msg⟩, rest⟩ := popped
      dsimp only
      cases msg.view with
      | none => exact ih rest
      | some view =>
        dsimp only
        cases c.checkMessage msg.code view with
        | ok _ => exact (silent_cons_iff _ _ rfl rfl rfl).mpr (ih rest)
        | error e =>
          cases e
          case futureMessage => exact silent_nil
          all_goals exact ih rest

def OnlyBacklogs (c : Core B) (done : Core B × List (Effect B)) : Prop :=
  (∃ backlogs, done.1 = { c with backlogs := backlogs }) ∧ Silent done.2

theorem process_sender_frame (done : Core B × List (Effect B)) (entry : Sigma fun _ : Address => Prque (Message B))
    (frame : OnlyBacklogs c done) : OnlyBacklogs c (processSender c done entry) := by
  obtain ⟨⟨backlogs, same⟩, silent⟩ := frame
  simp only [processSender]
  cases (c.fullnodeSet.getByAddress entry.1).2 with
  | none => exact ⟨⟨backlogs.erase entry.1, by rw [same]⟩, silent⟩
  | some src =>
    exact ⟨⟨backlogs.insert entry.1 (drainBacklog c src entry.2.length entry.2).1, by rw [same]⟩,
      silent_append _ _ silent (drain_backlog_silent c src _ _)⟩

theorem process_senders_frame (entries : List (Sigma fun _ : Address => Prque (Message B)))
    (done : Core B × List (Effect B)) (frame : OnlyBacklogs c done) : OnlyBacklogs c (entries.foldl (processSender c) done) := by
  induction entries generalizing done with
  | nil => exact frame
  | cons entry tail ih => exact ih _ (process_sender_frame c done entry frame)

theorem process_backlog_frame : OnlyBacklogs c (processBacklog c) :=
  process_senders_frame c c.backlogs.entries (c, []) ⟨⟨c.backlogs, rfl⟩, silent_nil⟩

end

variable [BlockProposal B]

theorem drain_requests_silent (c : Core B) (fuel : Nat) (queue : Prque (Request B)) : Silent (drainRequests c fuel queue).2 := by
  induction fuel generalizing queue with
  | zero => exact silent_nil
  | succ fuel ih =>
    simp only [drainRequests]
    cases queue.pop with
    | none => exact silent_nil
    | some popped =>
      obtain ⟨⟨prio, r⟩, rest⟩ := popped
      dsimp only
      cases c.checkRequestMsg r with
      | ok _ => exact (silent_cons_iff _ _ rfl rfl rfl).mpr (ih rest)
      | error e =>
        cases e
        case futureMessage => exact silent_nil
        all_goals exact ih rest

theorem set_state_frame (c : Core B) (state : State) : (∃ backlogs pendingRequests, (c.setState state).1 =
      { c with state := state, backlogs := backlogs, pendingRequests := pendingRequests }) ∧
    Silent (c.setState state).2 := by
  simp only [setState]
  by_cases accept : state = .acceptRequest
  · simp only [if_pos accept]
    obtain ⟨⟨backlogs, same⟩, silent⟩ := process_backlog_frame
      { { c with state := state } with pendingRequests :=
          (drainRequests { c with state := state } c.pendingRequests.length c.pendingRequests).1 }
    exact ⟨⟨backlogs, _, same⟩, silent_append _ _ (drain_requests_silent _ _ _) silent⟩
  · simp only [if_neg accept]
    obtain ⟨⟨backlogs, same⟩, silent⟩ := process_backlog_frame { c with state := state }
    exact ⟨⟨backlogs, c.pendingRequests, same⟩, silent_append _ _ silent_nil silent⟩

end Core

end Didux.Sport
