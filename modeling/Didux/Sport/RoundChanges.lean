import Didux.Sport.Lock
import Didux.Sport.Thresholds

set_option autoImplicit false

namespace Didux.Sport

open Option

variable {B : Type}

structure Poll (B : Type) where
  sequence : Nat
  round : Nat
  waiting : Bool
  fullnodes : List Address
  changes : RoundChangeSet B

def Core.poll (c : Core B) : Poll B where
  sequence := c.current.sequence
  round := c.current.round
  waiting := c.waitingForRoundChange
  fullnodes := c.fullnodeSet.fullnodes
  changes := c.roundChangeSet

namespace Poll

def weak (p : Poll B) : Nat := (p.fullnodes.length + 1) ⌈/⌉ 3 - 1 + 1

def quorum (p : Poll B) : Nat := (2 * p.fullnodes.length) ⌈/⌉ 3

def catchUp (p : Poll B) (round : Nat) : Poll B :=
  { p with round := round, waiting := true, changes := p.changes.clear round }

def note (p : Poll B) (round : Nat) (msg : Message B) : Poll B := { p with changes := (p.changes.add round msg).1 }

def Quiet (p next : Poll B) : Prop := next = p ∨ ∃ round, p.round < round ∧ next = p.catchUp round

end Poll

def freshPoll (set : FullnodeSet) (sequence round : Nat) : Poll B where
  sequence := sequence
  round := round
  waiting := false
  fullnodes := set.fullnodes
  changes := newRoundChangeSet set

def Input.change : Input B → Option (Message B × Subject)
  | .message msg _ => if msg.code = msgRoundChange then msg.decodeSubject.map fun rc => (msg, rc) else none
  | _ => none

theorem change_iff (input : Input B) (msg : Message B) (rc : Subject) : input.change = some (msg, rc) ↔
      (∃ src, input = .message msg src) ∧ msg.code = msgRoundChange ∧ msg.decodeSubject = some rc := by
  cases input with
  | message m src =>
    simp only [Input.change]
    constructor
    · intro found
      split_ifs at found with code
      obtain ⟨sub, decoded, same⟩ := map_eq_some_iff.mp found
      cases same
      exact ⟨⟨src, rfl⟩, code, decoded⟩
    · rintro ⟨⟨_, same⟩, code, decoded⟩
      cases same
      simp [code, decoded]
  | _ => simp [Input.change]

section Changes

variable [BlockProposal B]

-- startNewRound does nothing: the last block is not the one below the sequence, or round 0 is asked for.
def Backend.Stalls (be : Backend B) (p : Poll B) (round : Nat) : Prop :=
  ∃ last lastSpeaker, be.lastBlockProposal = some (last, lastSpeaker) ∧ BlockProposal.number last < p.sequence ∧
    ((BlockProposal.number last : Int) ≠ int64 (int64 p.sequence - 1) ∨ round = 0)

structure Poll.Casts (p : Poll B) (input : Input B) (msg : Message B) (rc : Subject) : Prop where
  change : input.change = some (msg, rc)
  sequence : rc.view.sequence = p.sequence
  round : p.round ≤ rc.view.round

inductive Poll.Shift (be : Backend B) (p : Poll B) (input : Input B) : Poll B → Prop where
  | keep : Shift be p input p
  | catchUp (round : Nat) (later : p.round < round) : Shift be p input (p.catchUp round)
  | newSequence (set : FullnodeSet) (sequence : Nat) (later : p.sequence < sequence) :
      Shift be p input (freshPoll set sequence 0)
  | note (msg : Message B) (rc : Subject) (casts : p.Casts input msg rc)
      (idle : (p.changes.add rc.view.round msg).2 = .ok p.quorum → p.waiting = true ∨ p.round < rc.view.round →
        p.waiting = true ∧ p.quorum = p.weak ∨ be.Stalls p rc.view.round) :
      Shift be p input (p.note rc.view.round msg)
  | follow (msg : Message B) (rc : Subject) (casts : p.Casts input msg rc) (later : p.round < rc.view.round)
      (counted : (p.changes.add rc.view.round msg).2 = .ok p.weak) (waits : p.waiting = true) :
      Shift be p input ((p.note rc.view.round msg).catchUp rc.view.round)
  | start (msg : Message B) (rc : Subject) (casts : p.Casts input msg rc) (set : FullnodeSet)
      (same : set.fullnodes = p.fullnodes) (counted : (p.changes.add rc.view.round msg).2 = .ok p.quorum) :
      Shift be p input (freshPoll set p.sequence rc.view.round)

end Changes

namespace Core

theorem check_round_change_ok_iff (c : Core B) (view : View) : c.checkMessage msgRoundChange view = .ok () ↔
      view.sequence = c.current.sequence ∧ c.current.round ≤ view.round := by
  have order : view.cmp c.currentView = .lt ↔
      view.sequence < c.current.sequence ∨ view.sequence = c.current.sequence ∧ view.round < c.current.round := by
    by_cases same : view.sequence = c.current.sequence
    · by_cases level : view.round = c.current.round <;>
        simp [View.cmp, currentView, RoundState.view, same, level, Nat.compare_eq_lt]
    · simp [View.cmp, currentView, RoundState.view, same, Nat.compare_eq_lt]
  have future : c.currentView.sequence = c.current.sequence := rfl
  simp only [checkMessage, order]
  split_ifs <;> simp only [false_iff, true_iff] <;> omega

variable {be : Backend B} {c : Core B} {round : Nat} {out : Outcome B} {input : Input B} {done : Core B × List (Effect B)}

theorem catch_up_poll : (catchUpRound be c ⟨round, c.currentView.sequence⟩).poll = c.poll.catchUp round := by
  simp only [catchUpRound, updateRoundState]
  split_ifs <;> rfl

theorem store_backlog_poll {msg : Message B} {src : Address} : (c.storeBacklog msg src).poll = c.poll := by
  by_cases own : src = c.address
  · rw [storeBacklog, if_pos own]
  · rw [storeBacklog, if_neg own]
    rfl

theorem prepare_round_poll {lastSpeaker : Address} {newView : View} {roundChange : Bool} :
    (prepareRound be c lastSpeaker newView roundChange).poll =
      freshPoll c.fullnodeSet newView.sequence newView.round := by
  simp only [prepareRound, updateRoundState]
  split_ifs <;> rfl

theorem gossip_core {payload : Bytes} : (gossipIfOk payload out).1 = out.core := by
  simp only [gossipIfOk]
  split <;> rfl

variable [BlockProposal B] (wire : Wire B) (be : Backend B) (c : Core B) (msg : Message B) (src : Address)

theorem set_state_poll (state : State) : (c.setState state).1.poll = c.poll := by
  obtain ⟨⟨backlogs, pendingRequests, same⟩, _⟩ := set_state_frame c state
  rw [same]
  rfl

theorem lock_hash_poll : { c with current := c.current.lockHash }.poll = c.poll := by
  cases accepted : c.current.preprepare with
  | none => simp only [RoundState.lockHash, accepted]
  | some preprepare =>
    simp only [RoundState.lockHash, accepted]
    rfl

theorem send_round_change_poll (later : c.current.round < round)
    : (sendRoundChange wire be c round).1.poll = c.poll.catchUp round := by
  rw [sendRoundChange, if_neg (Nat.not_le.mpr (by exact later))]
  exact catch_up_poll

theorem send_round_change_quiet : c.poll.Quiet (sendRoundChange wire be c round).1.poll := by
  by_cases reached : round ≤ c.currentView.round
  · rw [sendRoundChange, if_pos reached]
    exact .inl rfl
  · have later : c.current.round < round := Nat.lt_of_not_le reached
    exact .inr ⟨round, later, send_round_change_poll wire be c later⟩

theorem answer_preprepare_quiet {preprepare : Preprepare B} : c.poll.Quiet (answerPreprepare wire be c preprepare).1.poll := by
  simp only [answerPreprepare]
  split_ifs
  · exact .inl (set_state_poll (c.acceptPreprepare preprepare) .prepared)
  · exact send_round_change_quiet wire be c
  · exact .inl (set_state_poll (c.acceptPreprepare preprepare) .preprepared)

theorem handle_preprepare_quiet : c.poll.Quiet (handlePreprepare wire be c msg src).core.poll := by
  simp only [handlePreprepare]
  split
  · exact .inl rfl
  split
  · split_ifs <;> exact .inl rfl
  split
  · exact .inl rfl
  split
  · exact .inl rfl
  · exact send_round_change_quiet wire be c
  split
  · exact answer_preprepare_quiet wire be c
  · exact .inl rfl

theorem handle_prepare_quiet : c.poll.Quiet (handlePrepare wire be c msg).core.poll := by
  simp only [handlePrepare]
  split
  · exact .inl rfl
  split
  · exact .inl rfl
  split
  · exact .inl rfl
  split_ifs
  · exact .inl ((set_state_poll _ _).trans (lock_hash_poll (c.acceptPrepare msg)))
  · exact .inl rfl

theorem commit_quiet : c.poll.Quiet (commit wire be c).1.poll := by
  have entered := set_state_poll c .committed
  simp only [commit]
  split
  · exact .inl entered
  split_ifs
  · exact .inl entered
  · rw [← entered]
    exact send_round_change_quiet wire be { (c.setState .committed).1 with
      current := (c.setState .committed).1.current.unlockHash }

theorem handle_commit_quiet : c.poll.Quiet (handleCommit wire be c msg).core.poll := by
  simp only [handleCommit]
  split
  · exact .inl rfl
  split
  · exact .inl rfl
  split
  · exact .inl rfl
  split_ifs
  · have locked := lock_hash_poll (c.acceptCommit msg)
    change _ = c.poll at locked
    rw [← locked]
    exact commit_quiet wire be _
  · exact .inl rfl

theorem enter_round_poll (lastSpeaker : Address) (newView : View) (roundChange : Bool)
    (done : Core B × List (Effect B)) (entered : enterRound wire be c lastSpeaker newView roundChange = some done) :
    done.1.poll = freshPoll c.fullnodeSet newView.sequence newView.round := by
  rw [← prepare_round_poll,
    ← set_state_poll (prepareRound be c lastSpeaker newView roundChange) .acceptRequest]
  simp only [enterRound] at entered
  split at entered
  · split at entered <;> split at entered <;> cases entered <;> rfl
  · cases entered
    rfl

theorem start_new_round_poll (round : Nat) (done : Core B × List (Effect B))
    (started : startNewRound wire be c round = some done) (asked : round = 0 ∨ c.current.round ≤ round) :
    done.1.poll = c.poll ∧ be.Stalls c.poll round ∨
      (∃ set sequence, c.current.sequence < sequence ∧ done.1.poll = freshPoll set sequence 0) ∨
      round ≠ 0 ∧ done.1.poll = freshPoll c.fullnodeSet c.current.sequence round := by
  simp only [startNewRound] at started
  split at started
  · cases started
  · next last lastSpeaker known =>
      split_ifs at started with behind follows first earlier
      · exact .inr (.inl ⟨_, _, Nat.lt_succ_of_le behind, enter_round_poll wire be _ _ _ _ done started⟩)
      · cases started
        exact .inl ⟨rfl, last, lastSpeaker, known, Nat.lt_of_not_le behind, .inr first⟩
      · omega
      · exact .inr (.inr ⟨first, enter_round_poll wire be c _ _ _ done started⟩)
      · cases started
        exact .inl ⟨rfl, last, lastSpeaker, known, Nat.lt_of_not_le behind, .inl follows⟩

theorem quiet_shift {p next : Poll B} (quiet : p.Quiet next) : p.Shift be input next := by
  rcases quiet with same | ⟨round, later, same⟩
  · exact same ▸ .keep
  · exact same ▸ .catchUp round later

theorem handle_round_change_shift (code : msg.code = msgRoundChange) (handled : handleRoundChange wire be c msg = some out) :
    c.poll.Shift be (.message msg src) out.core.poll := by
  cases decoded : msg.decodeSubject with
  | none =>
    simp only [handleRoundChange, decoded, some.injEq] at handled
    exact handled ▸ .keep
  | some rc =>
    cases checked : c.checkMessage msgRoundChange rc.view with
    | error e =>
      simp only [handleRoundChange, decoded, checked, some.injEq] at handled
      exact handled ▸ .keep
    | ok _ =>
      obtain ⟨sequence, round⟩ := (check_round_change_ok_iff c rc.view).mp checked
      have casts : c.poll.Casts (.message msg src) msg rc :=
        ⟨(change_iff _ _ _).mpr ⟨⟨src, rfl⟩, code, decoded⟩, sequence, round⟩
      simp only [handleRoundChange, decoded, checked] at handled
      split at handled
      · next e refused =>
          cases handled
          exact .note msg rc casts fun full => by cases refused.symm.trans full
      · next messageCount counted =>
          split_ifs at handled with isWeak later isQuorum
          · cases handled
            have followed := send_round_change_poll wire be
              { c with roundChangeSet := (c.roundChangeSet.add rc.view.round msg).1 } later
            rw [followed]
            exact .follow msg rc casts later (counted.trans (congrArg _ isWeak.2)) isWeak.1
          · cases handled
            refine .note msg rc casts fun full _ => .inl ⟨isWeak.1, ?_⟩
            exact (Except.ok.inj (full.symm.trans counted)).trans isWeak.2
          · obtain ⟨started, ran, same⟩ := map_eq_some_iff.mp handled
            cases same
            rcases start_new_round_poll wire be _ _ started ran (.inr round) with
              ⟨same, stalls⟩ | ⟨set, next, later, same⟩ | ⟨_, same⟩
            · rw [same]
              exact .note msg rc casts fun _ _ => .inr stalls
            · rw [same]
              exact .newSequence set next later
            · rw [same]
              exact .start msg rc casts c.fullnodeSet rfl (counted.trans (congrArg _ isQuorum.1))
          · cases handled
            refine .note msg rc casts fun full wanted => absurd ⟨?_, wanted⟩ isQuorum
            exact Except.ok.inj (counted.symm.trans full)
          · cases handled
            refine .note msg rc casts fun full wanted => absurd ⟨?_, wanted⟩ isQuorum
            exact Except.ok.inj (counted.symm.trans full)

theorem dispatch_shift (handled : dispatch wire be c msg src = some out) : c.poll.Shift be (.message msg src) out.core.poll := by
  simp only [dispatch] at handled
  split_ifs at handled with _ _ _ change
  · exact quiet_shift be (some.inj handled ▸ handle_preprepare_quiet wire be c msg src)
  · exact quiet_shift be (some.inj handled ▸ handle_prepare_quiet wire be c msg)
  · exact quiet_shift be (some.inj handled ▸ handle_commit_quiet wire be c msg)
  · exact handle_round_change_shift wire be c msg src change handled
  · exact some.inj handled ▸ .keep

theorem handle_checked_msg_shift (handled : handleCheckedMsg wire be c msg src = some out) :
    c.poll.Shift be (.message msg src) out.core.poll := by
  obtain ⟨dispatched, ran, same⟩ := map_eq_some_iff.mp handled
  have shifted := dispatch_shift wire be c msg src ran
  rw [← same]
  split
  · rw [store_backlog_poll]
    exact shifted
  · exact shifted

theorem start_at_zero_shift (started : startNewRound wire be c 0 = some done) : c.poll.Shift be input done.1.poll := by
  rcases start_new_round_poll wire be c 0 done started (.inl rfl) with
    ⟨same, _⟩ | ⟨set, next, later, same⟩ | ⟨never, _⟩
  · exact same ▸ .keep
  · exact same ▸ .newSequence set next later
  · exact absurd rfl never

theorem handle_timeout_shift (handled : handleTimeoutMsg wire be c = some done) : c.poll.Shift be input done.1.poll := by
  have advance (round : Nat) : c.poll.Shift be input (sendRoundChange wire be c round).1.poll :=
    quiet_shift be (send_round_change_quiet wire be c)
  have next (ran : handleTimeoutMsg.behindOrNext wire be c = some done) : c.poll.Shift be input done.1.poll := by
    simp only [handleTimeoutMsg.behindOrNext] at ran
    split at ran
    · split_ifs at ran
      · exact start_at_zero_shift wire be c ran
      · exact some.inj ran ▸ advance _
    · exact some.inj ran ▸ advance _
  simp only [handleTimeoutMsg] at handled
  generalize (if c.waitingForRoundChange then none else _ : Option Int) = maxRound at handled
  cases maxRound with
  | none => exact next handled
  | some r =>
    dsimp only at handled
    split_ifs at handled
    · exact some.inj handled ▸ advance _
    · exact next handled

theorem step_shift (event : Event B) (done : Core B × List (Effect B))
    (stepped : Core.step wire be c event = some done) : c.poll.Shift be (c.input wire event) done.1.poll := by
  cases event with
  | request p =>
    have same : done.1.poll = c.poll := by
      simp only [step, handleRequest] at stepped
      split at stepped <;> split at stepped <;> (try split at stepped) <;> cases stepped <;> rfl
    exact same ▸ .keep
  | message payload =>
    obtain ⟨out, handled, same⟩ := map_eq_some_iff.mp stepped
    rw [← same, gossip_core]
    simp only [handleMsg] at handled
    simp only [input]
    cases received : c.receive wire payload with
    | error e =>
      simp only [received] at handled
      cases handled
      exact .keep
    | ok both =>
      simp only [received] at handled
      exact handle_checked_msg_shift wire be c both.1 both.2 handled
  | backlog src msg =>
    obtain ⟨out, handled, same⟩ := map_eq_some_iff.mp stepped
    rw [← same, gossip_core]
    exact handle_checked_msg_shift wire be c msg src handled
  | timeout => exact handle_timeout_shift wire be c stepped
  | finalCommitted => exact start_at_zero_shift wire be c stepped

end Core

end Didux.Sport
