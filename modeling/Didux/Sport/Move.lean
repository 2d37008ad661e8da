import Didux.Sport.Ballot

set_option autoImplicit false

namespace Didux.Sport

open Option BlockProposal

variable {B : Type} [BlockProposal B]

-- What reaches the handlers of a core: a request, or a message under the name of a sender.
inductive Input (B : Type) where
  | request (blockProposal : B)
  | message (msg : Message B) (src : Address)
  | other

def Core.input (wire : Wire B) (c : Core B) : Event B → Input B
  | .request blockProposal => .request blockProposal
  | .message payload => match c.receive wire payload with
    | .ok (msg, src) => .message msg src
    | .error _ => .other
  | .backlog src msg => .message msg src
  | .timeout => .other
  | .finalCommitted => .other

def freshBallot (address : Address) (sequence : Nat) (fullnodes : List Address) (speaker : Bool) : Ballot B where
  address := address
  sequence := sequence
  round := 0
  state := .acceptRequest
  waiting := false
  proposal := none
  lock := 0
  commits := ∅
  voters := fullnodes
  fullnodes := fullnodes
  speaker := speaker

-- Everything one event can do to a ballot, with the proposals and the COMMITs
-- it broadcasts and the blocks it hands to the backend.
inductive Move (wire : Wire B) (be : Backend B) (b : Ballot B) :
    Input B → List B → List (Message B) → List (B × List Bytes) → Ballot B → Prop where
  | keep (input : Input B) : Move wire be b input [] [] [] b
  | propose (p : B) (proposed : List B) (accepting : b.state = .acceptRequest)
      (height : number p = b.sequence) (speaks : b.speaker = true) (only : ∀ q ∈ proposed, q = p) :
      Move wire be b (.request p) proposed [] [] b
  | answerOld (msg : Message B) (src : Address) (pp : Preprepare B) (voted : List (Message B))
      (code : msg.code = msgPreprepare) (decoded : msg.decodePreprepare = some pp)
      (old : pp.view.cmp b.view = .lt) (answers : Core.answersOldBlock wire be src pp = true)
      (signed : ∀ m ∈ voted, b.Signs be ⟨pp.view, hash pp.blockProposal⟩ m) :
      Move wire be b (.message msg src) [] voted [] b
  | catchUp (input : Input B) (round : Nat) (later : b.round < round) :
      Move wire be b input [] [] [] { b.carry be.hasBadBlockProposal round with waiting := true }
  | newRound (input : Input B) (round : Nat) (speaker : Bool) (proposed : List B)
      (notEarlier : b.round ≤ round) (height : ∀ p ∈ proposed, number p = b.sequence)
      (kept : ∀ p ∈ proposed, b.Locked be.hasBadBlockProposal → b.proposal = some p) :
      Move wire be b input proposed [] []
        { b.carry be.hasBadBlockProposal round with state := .acceptRequest, waiting := false, speaker := speaker }
  | newSequence (input : Input B) (last : B) (speaker : Bool)
      (later : b.sequence ≤ number last) :
      Move wire be b input [] [] []
        (freshBallot b.address (number last + 1) (be.fullnodes last).fullnodes speaker)
  | accept (msg : Message B) (src : Address) (pp : Preprepare B)
      (code : msg.code = msgPreprepare) (decoded : msg.decodePreprepare = some pp) (view : pp.view = b.view)
      (settled : b.waiting = false) (accepting : b.state = .acceptRequest)
      (verified : be.verify pp.blockProposal = .ok ()) (unlocked : ¬ b.Locked be.hasBadBlockProposal) :
      Move wire be b (.message msg src) [] [] []
        { b with proposal := some pp.blockProposal, state := .preprepared }
  | acceptLocked (msg : Message B) (src : Address) (pp : Preprepare B) (voted : List (Message B))
      (code : msg.code = msgPreprepare) (decoded : msg.decodePreprepare = some pp) (view : pp.view = b.view)
      (settled : b.waiting = false) (accepting : b.state = .acceptRequest)
      (verified : be.verify pp.blockProposal = .ok ()) (locked : b.Locked be.hasBadBlockProposal)
      (same : hash pp.blockProposal = b.lock)
      (signed : ∀ m ∈ voted, { b with proposal := some pp.blockProposal }.Signs be ⟨b.view, b.lock⟩ m) :
      Move wire be b (.message msg src) [] voted []
        { b with proposal := some pp.blockProposal, state := .prepared }
  | lockIn (msg : Message B) (src : Address) (p : B) (voted : List (Message B))
      (accepted : b.proposal = some p) (settled : b.waiting = false) (past : b.state ≠ .acceptRequest)
      (signed : ∀ m ∈ voted, b.Signs be ⟨b.view, hash p⟩ m) :
      Move wire be b (.message msg src) [] voted []
        { b with lock := hash p, state := .prepared }
  | count (msg : Message B) (src : Address) (p : B) (code : msg.code = msgCommit)
      (accepted : b.proposal = some p) (settled : b.waiting = false) (past : b.state ≠ .acceptRequest)
      (subject : msg.decodeSubject = some ⟨b.view, hash p⟩) :
      Move wire be b (.message msg src) [] [] [] (b.count msg)
  | decide (msg : Message B) (src : Address) (p : B) (code : msg.code = msgCommit)
      (accepted : b.proposal = some p) (settled : b.waiting = false) (past : b.state ≠ .acceptRequest)
      (subject : msg.decodeSubject = some ⟨b.view, hash p⟩)
      (enough : b.quorum ≤ Assoc.size (b.count msg).commits)
      (done : be.commit p (b.count msg).seals = true) :
      Move wire be b (.message msg src) [] [] [(p, (b.count msg).seals)]
        { b.count msg with lock := hash p, state := .committed }
  | decideFailed (msg : Message B) (src : Address) (p : B) (code : msg.code = msgCommit)
      (accepted : b.proposal = some p) (settled : b.waiting = false) (past : b.state ≠ .acceptRequest)
      (subject : msg.decodeSubject = some ⟨b.view, hash p⟩)
      (enough : b.quorum ≤ Assoc.size (b.count msg).commits)
      (failed : be.commit p (b.count msg).seals = false) :
      Move wire be b (.message msg src) [] [] [(p, (b.count msg).seals)]
        { { b.count msg with lock := 0, state := .committed }.carry be.hasBadBlockProposal (b.round + 1) with
          waiting := true }

namespace Core

variable (wire : Wire B) (be : Backend B) (input : Input B) (c : Core B) (msg : Message B) (src : Address)
  (out : Outcome B)

theorem set_state_ballot (state : State) : (c.setState state).1.ballot = { c.ballot with state := state } := by
  obtain ⟨⟨backlogs, pendingRequests, same⟩, _⟩ := set_state_frame c state
  rw [same]
  rfl

theorem broadcast_cases (code : Nat) (msg : Content B) : c.broadcast wire be code msg = [] ∨
      ∃ m, c.broadcast wire be code msg = [.broadcast m] ∧ m.code = code ∧ m.msg = msg ∧ m.address = c.address ∧
        (code = msgCommit →
          match c.current.blockProposal with
          | some p => be.sign (prepareCommittedSeal (hash p)) = some m.committedSeal
          | none => m.committedSeal = []) := by
  cases finalized : c.finalizeMessage wire be code msg with
  | none => exact .inl (by simp only [broadcast, finalized])
  | some m =>
    refine .inr ⟨m, by simp only [broadcast, finalized], ?_⟩
    simp only [finalizeMessage, bind_eq_bind, bind_eq_some_iff] at finalized
    obtain ⟨committedSeal, sealed, signature, _, same⟩ := finalized
    cases same
    refine ⟨rfl, rfl, rfl, ?_⟩
    intro commitCode
    cases proposal : c.current.blockProposal with
    | none =>
      simp only [committedSealOf, proposal] at sealed
      exact (some.inj sealed).symm
    | some p =>
      simp only [committedSealOf, proposal, if_pos commitCode] at sealed
      exact sealed

theorem broadcast_silent (code : Nat) (msg : Content B) (noProposal : code ≠ msgPreprepare)
    (noVote : code ≠ msgCommit) : Silent (c.broadcast wire be code msg) := by
  rcases broadcast_cases wire be c code msg with none | ⟨m, sent, codeEq, _⟩
  · rw [none]
    exact silent_nil
  · rw [sent]
    simp [Silent, proposals, votes, decisions, Effect.proposal, Effect.vote, Effect.decision, codeEq, noProposal, noVote]

theorem broadcast_commit (wire : Wire B) (be : Backend B) (c : Core B) (sub : Subject) :
    let sent := c.broadcast wire be msgCommit (.subject sub)
    proposals sent = [] ∧ decisions sent = [] ∧ ∀ m ∈ votes sent, c.ballot.Signs be sub m := by
  rcases broadcast_cases wire be c msgCommit (.subject sub) with none | ⟨m, sent, codeEq, msgEq, addressEq, sealed⟩
  · simp [none, proposals, votes, decisions]
  · have voted : votes (c.broadcast wire be msgCommit (.subject sub)) = [m] := by
      simp [sent, votes, Effect.vote, codeEq]
    refine ⟨?_, ?_, ?_⟩
    · rw [sent]
      simp [proposals, Effect.proposal, codeEq, msgCommit, msgPreprepare]
    · simp [sent, decisions, Effect.decision]
    · intro other member
      rw [voted, List.mem_singleton] at member
      subst other
      exact ⟨codeEq, msgEq, addressEq, sealed rfl⟩

theorem broadcast_preprepare (wire : Wire B) (be : Backend B) (c : Core B) (pp : Preprepare B) :
    let sent := c.broadcast wire be msgPreprepare (.preprepare pp)
    votes sent = [] ∧ decisions sent = [] ∧ ∀ p ∈ proposals sent, p = pp.blockProposal := by
  rcases broadcast_cases wire be c msgPreprepare (.preprepare pp) with none | ⟨m, sent, codeEq, msgEq, _⟩
  · simp [none, proposals, votes, decisions]
  · refine ⟨?_, ?_, ?_⟩
    · rw [sent]
      simp [votes, Effect.vote, codeEq, msgCommit, msgPreprepare]
    · simp [sent, decisions, Effect.decision]
    · intro p member
      simpa [sent, proposals, Effect.proposal, codeEq, Message.decodePreprepare, msgEq] using member

def Moves (wire : Wire B) (be : Backend B) (input : Input B) (c : Core B) (done : Core B × List (Effect B)) : Prop :=
  Move wire be c.ballot input (proposals done.2) (votes done.2) (decisions done.2) done.1.ballot

variable {done : Core B × List (Effect B)} {round : Nat} {request : Request B} {lastSpeaker : Address} {received : Subject}
  {p : B}

theorem moves_keep (same : done.1.ballot = c.ballot) (silent : Silent done.2) : Moves wire be input c done := by
  obtain ⟨noProposal, noVote, noDecision⟩ := silent
  rw [Moves, same, noProposal, noVote, noDecision]
  exact .keep input

theorem send_round_change_moves : Moves wire be input c (sendRoundChange wire be c round) := by
  by_cases later : round ≤ c.currentView.round
  · rw [sendRoundChange, if_pos later]
    exact moves_keep wire be input c rfl silent_nil
  · rw [sendRoundChange, if_neg later, Moves]
    obtain ⟨noProposal, noVote, noDecision⟩ := broadcast_silent wire be
      (catchUpRound be c ⟨round, c.currentView.sequence⟩) msgRoundChange
      (.subject ⟨(catchUpRound be c ⟨round, c.currentView.sequence⟩).currentView, 0⟩) (by decide) (by decide)
    simp only [noProposal, noVote, noDecision, catch_up_ballot]
    exact .catchUp input round (Nat.lt_of_not_le later)

theorem send_next_round_change_ballot : (sendNextRoundChange wire be c).1.ballot =
        { c.ballot.carry be.hasBadBlockProposal (c.ballot.round + 1) with waiting := true } ∧
      Silent (sendNextRoundChange wire be c).2 := by
  rw [sendNextRoundChange, sendRoundChange, if_neg (Nat.not_succ_le_self _)]
  exact ⟨catch_up_ballot be c _, broadcast_silent wire be _ msgRoundChange _ (by decide) (by decide)⟩

theorem send_preprepare_effects :
    votes (c.sendPreprepare wire be request) = [] ∧ decisions (c.sendPreprepare wire be request) = [] ∧
      ∀ p ∈ proposals (c.sendPreprepare wire be request),
        p = request.blockProposal ∧ number p = c.current.sequence ∧ c.isSpeaker = true := by
  by_cases sends : c.current.sequence = number request.blockProposal ∧ c.isSpeaker
  · rw [sendPreprepare, if_pos sends]
    obtain ⟨noVote, noDecision, only⟩ := broadcast_preprepare wire be c ⟨c.currentView, request.blockProposal⟩
    refine ⟨noVote, noDecision, ?_⟩
    intro p member
    have same := only p member
    exact ⟨same, by rw [same, ← sends.1], sends.2⟩
  · rw [sendPreprepare, if_neg sends]
    simp [votes, decisions, proposals]

theorem new_round_moves {wire : Wire B} {be : Backend B} {input : Input B} {c entered : Core B}
    {speaker : Bool} {effects : List (Effect B)} (notEarlier : c.current.round ≤ round) (silent : Silent effects)
    (ballot : entered.ballot =
      { c.ballot.carry be.hasBadBlockProposal round with state := .acceptRequest, waiting := false, speaker := speaker })
    (kept : c.ballot.Locked be.hasBadBlockProposal → c.ballot.proposal = some request.blockProposal) :
    Moves wire be input c (entered, effects ++ entered.sendPreprepare wire be request) := by
  obtain ⟨noVote, noDecision, only⟩ := send_preprepare_effects wire be entered
  obtain ⟨sameProposals, sameVotes, sameDecisions⟩ := silent_front effects (entered.sendPreprepare wire be request) silent
  rw [Moves, sameProposals, sameVotes, sameDecisions, noVote, noDecision, ballot]
  refine .newRound input round speaker _ notEarlier ?_ ?_
  · intro p member
    rw [(only p member).2.1]
    exact congrArg Ballot.sequence ballot
  · intro p member locked
    rw [(only p member).1]
    exact kept locked

theorem enter_round_moves {wire : Wire B} {be : Backend B} {input : Input B} {c : Core B} (notEarlier : c.current.round ≤ round)
    (entered : enterRound wire be c lastSpeaker ⟨round, c.current.sequence⟩ true = some done) : Moves wire be input c done := by
  obtain ⟨speaker, prepared⟩ := prepare_round_ballot be c lastSpeaker round
  simp only [enterRound] at entered
  generalize prepareRound be c lastSpeaker ⟨round, c.current.sequence⟩ true = next at prepared entered
  have ballot := set_state_ballot next .acceptRequest
  have silent := (set_state_frame next .acceptRequest).2
  rw [prepared] at ballot
  have quiet : Moves wire be input c (next.setState .acceptRequest) := by
    rw [Moves, silent.1, silent.2.1, silent.2.2, ballot]
    exact .newRound input round speaker [] notEarlier (by simp) (by simp)
  by_cases speaks : (next.setState .acceptRequest).1.isSpeaker = true
  · simp only [speaks, and_self, if_true] at entered
    have lockIff : (next.setState .acceptRequest).1.current.isHashLocked be.hasBadBlockProposal = true ↔
        c.ballot.Locked be.hasBadBlockProposal := by
      rw [hash_locked_iff, ballot]
      exact Ballot.carry_locked_iff be.hasBadBlockProposal c.ballot round
    by_cases locked : c.ballot.Locked be.hasBadBlockProposal
    · rw [if_pos (lockIff.mpr locked)] at entered
      cases proposal : (next.setState .acceptRequest).1.current.blockProposal with
      | none => simp [proposal] at entered
      | some p =>
        simp only [proposal, some.injEq] at entered
        have same : c.ballot.proposal = some p := by
          have read := congrArg Ballot.proposal ballot
          rw [Ballot.carry_locked be.hasBadBlockProposal c.ballot round locked] at read
          rw [← read]
          exact proposal
        rw [← entered]
        exact new_round_moves notEarlier silent ballot fun _ => same
    · rw [if_neg (lockIff.not.mpr locked)] at entered
      cases pending : (next.setState .acceptRequest).1.current.pendingRequest with
      | none =>
        simp only [pending, some.injEq] at entered
        exact entered ▸ quiet
      | some request =>
        simp only [pending, some.injEq] at entered
        rw [← entered]
        exact new_round_moves notEarlier silent ballot
          fun held => absurd held locked
  · rw [if_neg (fun both => speaks both.2), some.injEq] at entered
    exact entered ▸ quiet

theorem enter_sequence_ballot {sequence : Nat} (entered : enterRound wire be c lastSpeaker ⟨0, sequence⟩ false = some done) :
    (∃ speaker, done.1.ballot = freshBallot c.address sequence c.fullnodeSet.fullnodes speaker) ∧ Silent done.2 := by
  simp only [enterRound, Bool.false_eq_true, false_and, if_false, some.injEq] at entered
  rw [← entered]
  refine ⟨⟨(prepareRound be c lastSpeaker ⟨0, sequence⟩ false).isSpeaker, ?_⟩, (set_state_frame _ _).2⟩
  rw [set_state_ballot]
  rfl

theorem start_new_round_moves (started : startNewRound wire be c round = some done) : Moves wire be input c done := by
  have stay : Moves wire be input c (c, []) := moves_keep wire be input c rfl silent_nil
  cases last : be.lastBlockProposal with
  | none => simp [startNewRound, last] at started
  | some found =>
    obtain ⟨lastBlockProposal, lastSpeaker⟩ := found
    simp only [startNewRound, last] at started
    by_cases behind : c.current.sequence ≤ number lastBlockProposal
    · rw [if_pos behind] at started
      obtain ⟨⟨speaker, ballot⟩, silent⟩ := enter_sequence_ballot wire be _ started
      rw [Moves, silent.1, silent.2.1, silent.2.2, ballot]
      exact .newSequence input lastBlockProposal speaker behind
    · rw [if_neg behind] at started
      split_ifs at started with current first earlier
      · exact some.inj started ▸ stay
      · exact some.inj started ▸ stay
      · exact enter_round_moves (Nat.le_of_not_lt earlier) started
      · exact some.inj started ▸ stay

theorem send_commit_effects : proposals (c.sendCommit wire be) = [] ∧ decisions (c.sendCommit wire be) = [] ∧
      ∀ m ∈ votes (c.sendCommit wire be), ∃ p, c.ballot.proposal = some p ∧
        c.ballot.Signs be ⟨c.ballot.view, hash p⟩ m := by
  cases preprepare : c.current.preprepare with
  | none => simp [sendCommit, RoundState.subject, preprepare, proposals, votes, decisions]
  | some pp =>
    simp only [sendCommit, RoundState.subject, preprepare]
    obtain ⟨noProposal, noDecision, signed⟩ := broadcast_commit wire be c
      ⟨c.current.view, hash pp.blockProposal⟩
    refine ⟨noProposal, noDecision, ?_⟩
    intro m member
    refine ⟨pp.blockProposal, ?_, signed m member⟩
    simp only [ballot, RoundState.blockProposal, preprepare, map_some]

theorem send_prepare_silent : Silent (c.sendPrepare wire be) := by
  cases subject : c.current.subject with
  | none => simpa only [sendPrepare, subject] using silent_nil
  | some sub => simpa only [sendPrepare, subject] using broadcast_silent wire be c msgPrepare _ (by decide) (by decide)

theorem answer_preprepare_moves {pp : Preprepare B} (code : msg.code = msgPreprepare)
    (decoded : msg.decodePreprepare = some pp) (view : pp.view = c.currentView)
    (settled : c.waitingForRoundChange = false) (accepting : c.state = .acceptRequest)
    (verified : be.verify pp.blockProposal = .ok ()) : Moves wire be (.message msg src) c (answerPreprepare wire be c pp) := by
  have lockIff := hash_locked_iff be.hasBadBlockProposal c
  by_cases locked : c.current.isHashLocked be.hasBadBlockProposal = true
  · by_cases same : hash pp.blockProposal = c.current.lockedHash
    · simp only [answerPreprepare, if_pos locked, if_pos same]
      have ballot := set_state_ballot (c.acceptPreprepare pp) .prepared
      have silent := (set_state_frame (c.acceptPreprepare pp) .prepared).2
      generalize (c.acceptPreprepare pp).setState .prepared = prepared at ballot silent
      obtain ⟨noProposal, noDecision, signed⟩ := send_commit_effects wire be prepared.1
      obtain ⟨sameProposals, sameVotes, sameDecisions⟩ := silent_front prepared.2 (prepared.1.sendCommit wire be) silent
      rw [Moves, sameProposals, sameVotes, sameDecisions, noProposal, noDecision, ballot]
      refine .acceptLocked msg src pp _ code decoded view settled accepting verified (lockIff.mp locked) same ?_
      intro m member
      obtain ⟨p, accepted, signs⟩ := signed m member
      rw [ballot] at accepted signs
      cases accepted
      rw [same] at signs
      exact signs
    · simp only [answerPreprepare, if_pos locked, if_neg same]
      exact send_round_change_moves wire be _ c
  · simp only [answerPreprepare, if_neg locked]
    have ballot := set_state_ballot (c.acceptPreprepare pp) .preprepared
    have silent := (set_state_frame (c.acceptPreprepare pp) .preprepared).2
    generalize (c.acceptPreprepare pp).setState .preprepared = preprepared at ballot silent
    obtain ⟨noProposal, noVote, noDecision⟩ := silent_append _ _ silent (send_prepare_silent wire be preprepared.1)
    rw [Moves, noProposal, noVote, noDecision, ballot]
    exact .accept msg src pp code decoded view settled accepting verified (lockIff.not.mp locked)

theorem handle_preprepare_moves (code : msg.code = msgPreprepare) : Moves wire be (.message msg src) c
      ((handlePreprepare wire be c msg src).core, (handlePreprepare wire be c msg src).effects) := by
  have stay : Moves wire be (.message msg src) c (c, []) := moves_keep wire be _ c rfl silent_nil
  cases decoded : msg.decodePreprepare with
  | none => simpa only [handlePreprepare, decoded] using stay
  | some pp =>
    cases checked : c.checkMessage msgPreprepare pp.view with
    | error e =>
      by_cases answers : e = .oldMessage ∧ answersOldBlock wire be src pp
      · simp only [handlePreprepare, decoded, checked, if_pos answers]
        have old := check_message_old c msgPreprepare pp.view (by decide) (answers.1 ▸ checked)
        obtain ⟨noProposal, noDecision, signed⟩ := broadcast_commit wire be c
          ⟨pp.view, hash pp.blockProposal⟩
        rw [Moves, sendCommitForOldBlock, noProposal, noDecision]
        exact .answerOld msg src pp _ code decoded old answers.2 signed
      · simpa only [handlePreprepare, decoded, checked, if_neg answers] using stay
    | ok _ =>
      obtain ⟨view, settled, _⟩ := check_message_ok c msgPreprepare pp.view (by decide) checked
      by_cases speaks : c.fullnodeSet.isSpeaker src = true
      · cases verified : be.verify pp.blockProposal with
        | error reason =>
          cases reason with
          | futureBlock =>
            simp only [handlePreprepare, decoded, checked, speaks, verified]
            exact moves_keep wire be _ c rfl ((silent_cons_iff _ _ rfl rfl rfl).mpr silent_nil)
          | invalid =>
            simp only [handlePreprepare, decoded, checked, speaks, verified]
            exact send_round_change_moves wire be _ c
        | ok _ =>
          by_cases accepting : c.state = .acceptRequest
          · simp only [handlePreprepare, decoded, checked, speaks, verified, accepting]
            exact answer_preprepare_moves wire be c msg src code decoded view settled accepting verified
          · simpa only [handlePreprepare, decoded, checked, speaks, verified, accepting, not_true, if_false] using stay
      · simpa only [handlePreprepare, decoded, checked, if_pos speaks] using stay

theorem verify_subject_ok (ok : c.verifySubject received = .ok ()) :
    ∃ p, c.ballot.proposal = some p ∧ received = ⟨c.ballot.view, hash p⟩ := by
  by_cases same : c.current.subject = some received
  · cases preprepare : c.current.preprepare with
    | none => simp [RoundState.subject, preprepare] at same
    | some pp =>
      simp only [RoundState.subject, preprepare, map_some, some.injEq] at same
      refine ⟨pp.blockProposal, ?_, same.symm⟩
      simp only [ballot, RoundState.blockProposal, preprepare, map_some]
  · simp [verifySubject, same] at ok

theorem lock_hash_ballot (accepted : c.ballot.proposal = some p) :
    { c with current := c.current.lockHash }.ballot = { c.ballot with lock := hash p } := by
  cases preprepare : c.current.preprepare with
  | none => simp [ballot, RoundState.blockProposal, preprepare] at accepted
  | some pp =>
    simp only [ballot, RoundState.blockProposal, preprepare, map_some, some.injEq] at accepted
    subst accepted
    simp only [ballot, isSpeaker, RoundState.lockHash, RoundState.blockProposal, preprepare]

theorem checked_subject {code : Nat} (later : msgPreprepare < code)
    (handled : code ≠ msgRoundChange) (checked : c.checkMessage code received.view = .ok ())
    (verified : c.verifySubject received = .ok ()) : ∃ p, c.ballot.proposal = some p ∧ received = ⟨c.ballot.view, hash p⟩ ∧
      c.ballot.waiting = false ∧ c.ballot.state ≠ .acceptRequest := by
  obtain ⟨p, accepted, same⟩ := verify_subject_ok c verified
  obtain ⟨_, settled, early⟩ := check_message_ok c code received.view handled checked
  exact ⟨p, accepted, same, settled, fun accepting => Nat.not_le_of_lt later (early accepting)⟩

theorem handle_prepare_moves :
    Moves wire be (.message msg src) c ((handlePrepare wire be c msg).core, (handlePrepare wire be c msg).effects) := by
  have stay : Moves wire be (.message msg src) c (c, []) := moves_keep wire be _ c rfl silent_nil
  cases decoded : msg.decodeSubject with
  | none => simpa only [handlePrepare, decoded] using stay
  | some prepare =>
    cases checked : c.checkMessage msgPrepare prepare.view with
    | error e => simpa only [handlePrepare, decoded, checked] using stay
    | ok _ =>
      cases verified : c.verifySubject prepare with
      | error e => simpa only [handlePrepare, decoded, checked, verified] using stay
      | ok _ =>
        obtain ⟨p, accepted, _, settled, past⟩ :=
          checked_subject c (by decide) (by decide) checked verified
        simp only [handlePrepare, decoded, checked, verified]
        split_ifs with enough
        · have ballot := (set_state_ballot { c.acceptPrepare msg with current := (c.acceptPrepare msg).current.lockHash }
            .prepared).trans (congrArg (fun b : Ballot B => { b with state := .prepared })
              (lock_hash_ballot (c.acceptPrepare msg) accepted))
          have silent := (set_state_frame { c.acceptPrepare msg with current := (c.acceptPrepare msg).current.lockHash }
            .prepared).2
          generalize setState { c.acceptPrepare msg with current := (c.acceptPrepare msg).current.lockHash } .prepared =
            prepared at ballot silent
          obtain ⟨noProposal, noDecision, signed⟩ := send_commit_effects wire be prepared.1
          obtain ⟨sameProposals, sameVotes, sameDecisions⟩ :=
            silent_front prepared.2 (prepared.1.sendCommit wire be) silent
          rw [Moves, sameProposals, sameVotes, sameDecisions, noProposal, noDecision, ballot]
          refine .lockIn msg src p _ accepted settled past ?_
          intro m member
          obtain ⟨q, found, signs⟩ := signed m member
          rw [ballot] at found signs
          cases accepted.symm.trans found
          exact signs
        · exact moves_keep wire be _ c rfl silent_nil

theorem commit_moves {next : Core B} {msg : Message B} {src : Address} (code : msg.code = msgCommit)
    (accepted : c.ballot.proposal = some p) (settled : c.ballot.waiting = false) (past : c.ballot.state ≠ .acceptRequest)
    (subject : msg.decodeSubject = some ⟨c.ballot.view, hash p⟩)
    (enough : c.ballot.quorum ≤ Assoc.size (c.ballot.count msg).commits)
    (locked : next.ballot = { c.ballot.count msg with lock := hash p }) :
    Moves wire be (.message msg src) c (Core.commit wire be next) := by
  have ballot := set_state_ballot next .committed
  have silent := (set_state_frame next .committed).2
  rw [locked] at ballot
  simp only [commit]
  generalize next.setState .committed = entered at ballot silent
  obtain ⟨core, effects⟩ := entered
  obtain ⟨commits, counted⟩ := Ballot.count_frame c.ballot msg
  have proposal : core.current.blockProposal = some p := by
    have read : core.ballot.proposal = some p := by
      rw [ballot, counted]
      exact accepted
    exact read
  have seals : core.current.commits.values.map (fun v => copySeal v.committedSeal) = (c.ballot.count msg).seals := by
    have read := congrArg Ballot.commits ballot
    exact congrArg (fun m => (Assoc.values m).map fun v => copySeal v.committedSeal) read
  rw [proposal]
  simp only [seals]
  have decided : decisions (effects ++ [.commit p (c.ballot.count msg).seals]) = [(p, (c.ballot.count msg).seals)] := by
    rw [(silent_front effects [.commit p (c.ballot.count msg).seals] silent).2.2]
    rfl
  have noProposal : proposals (effects ++ [.commit p (c.ballot.count msg).seals]) = [] :=
    (silent_front effects [.commit p (c.ballot.count msg).seals] silent).1
  have noVote : votes (effects ++ [.commit p (c.ballot.count msg).seals]) = [] :=
    (silent_front effects [.commit p (c.ballot.count msg).seals] silent).2.1
  cases answer : be.commit p (c.ballot.count msg).seals with
  | true =>
    rw [if_pos rfl, Moves, noProposal, noVote, decided, ballot]
    exact .decide msg src p code accepted settled past subject enough answer
  | false =>
    rw [if_neg (by decide)]
    obtain ⟨carried, quiet⟩ := send_next_round_change_ballot wire be { core with current := core.current.unlockHash }
    obtain ⟨sameProposals, sameVotes, sameDecisions⟩ :=
      silent_back (effects ++ [.commit p (c.ballot.count msg).seals]) _ quiet
    have unlocked : { core with current := core.current.unlockHash }.ballot =
        { c.ballot.count msg with lock := 0, state := .committed } :=
      congrArg (fun b : Ballot B => { b with lock := 0 }) ballot
    have sameRound : (c.ballot.count msg).round = c.ballot.round := by rw [counted]
    rw [unlocked] at carried
    rw [sameRound] at carried
    rw [Moves, sameProposals, sameVotes, sameDecisions, noProposal, noVote, decided, carried]
    exact .decideFailed msg src p code accepted settled past subject enough answer

theorem handle_commit_moves (code : msg.code = msgCommit) :
    Moves wire be (.message msg src) c ((handleCommit wire be c msg).core, (handleCommit wire be c msg).effects) := by
  have stay : Moves wire be (.message msg src) c (c, []) := moves_keep wire be _ c rfl silent_nil
  cases decoded : msg.decodeSubject with
  | none => simpa only [handleCommit, decoded] using stay
  | some commit =>
    cases checked : c.checkMessage msgCommit commit.view with
    | error e => simpa only [handleCommit, decoded, checked] using stay
    | ok _ =>
      cases verified : c.verifySubject commit with
      | error e => simpa only [handleCommit, decoded, checked, verified] using stay
      | ok _ =>
        obtain ⟨p, accepted, same, settled, past⟩ :=
          checked_subject c (by decide) (by decide) checked verified
        have counted := accept_commit_ballot c msg
        simp only [handleCommit, decoded, checked, verified]
        split_ifs with enough
        · have proposal : (c.acceptCommit msg).ballot.proposal = some p := accepted
          refine commit_moves wire be c code accepted settled past (same ▸ decoded) ?_ ?_
          · rw [← counted]
            exact enough.1
          · rw [lock_hash_ballot (c.acceptCommit msg) proposal, counted]
        · rw [Moves, counted]
          exact .count msg src p code accepted settled past (same ▸ decoded)

theorem handle_round_change_moves (handled : handleRoundChange wire be c msg = some out) :
    Moves wire be (.message msg src) c (out.core, out.effects) := by
  have stay (roundChangeSet : RoundChangeSet B) :
      Moves wire be (.message msg src) c ({ c with roundChangeSet := roundChangeSet }, []) :=
    moves_keep wire be _ c rfl silent_nil
  cases decoded : msg.decodeSubject with
  | none =>
    simp only [handleRoundChange, decoded, some.injEq] at handled
    exact handled ▸ stay c.roundChangeSet
  | some rc =>
    cases checked : c.checkMessage msgRoundChange rc.view with
    | error e =>
      simp only [handleRoundChange, decoded, checked, some.injEq] at handled
      exact handled ▸ stay c.roundChangeSet
    | ok _ =>
      simp only [handleRoundChange, decoded, checked] at handled
      generalize c.roundChangeSet.add rc.view.round msg = added at handled
      obtain ⟨roundChangeSet, counted⟩ := added
      cases counted with
      | error e =>
        simp only [some.injEq] at handled
        exact handled ▸ stay roundChangeSet
      | ok messageCount =>
        dsimp only at handled
        split_ifs at handled
        · exact some.inj handled ▸
            send_round_change_moves wire be _ { c with roundChangeSet := roundChangeSet }
        · exact some.inj handled ▸ stay roundChangeSet
        · obtain ⟨started, ran, same⟩ := map_eq_some_iff.mp handled
          exact same ▸ start_new_round_moves wire be _ { c with roundChangeSet := roundChangeSet } ran
        · exact some.inj handled ▸ stay roundChangeSet
        · exact some.inj handled ▸ stay roundChangeSet

theorem dispatch_moves (handled : dispatch wire be c msg src = some out) :
    Moves wire be (.message msg src) c (out.core, out.effects) := by
  simp only [dispatch] at handled
  split_ifs at handled with preprepare prepare commit roundChange
  · exact some.inj handled ▸ handle_preprepare_moves wire be c msg src preprepare
  · exact some.inj handled ▸ handle_prepare_moves wire be c msg src
  · exact some.inj handled ▸ handle_commit_moves wire be c msg src commit
  · exact handle_round_change_moves wire be c msg src out handled
  · exact some.inj handled ▸ moves_keep wire be _ c rfl silent_nil

theorem handle_checked_msg_moves (handled : handleCheckedMsg wire be c msg src = some out) :
    Moves wire be (.message msg src) c (out.core, out.effects) := by
  obtain ⟨raw, dispatched, same⟩ := map_eq_some_iff.mp handled
  have moves := dispatch_moves wire be c msg src raw dispatched
  split at same
  · rw [← same, Moves, store_backlog_ballot]
    exact moves
  · exact same ▸ moves

theorem gossip_moves {payload : Bytes} {out : Outcome B} (moves : Moves wire be input c (out.core, out.effects)) :
    Moves wire be input c (gossipIfOk payload out) := by
  cases result : out.result with
  | ok _ =>
    obtain ⟨sameProposals, sameVotes, sameDecisions⟩ := silent_back out.effects [.gossip payload]
      ((silent_cons_iff _ _ rfl rfl rfl).mpr silent_nil)
    simp only [gossipIfOk, result]
    rw [Moves, sameProposals, sameVotes, sameDecisions]
    exact moves
  | error e => simpa only [gossipIfOk, result] using moves

theorem handle_request_moves (p : B) :
    Moves wire be (.request p) c ((handleRequest wire be c ⟨p⟩).core, (handleRequest wire be c ⟨p⟩).effects) := by
  have stay : Moves wire be (.request p) c (c, []) := moves_keep wire be _ c rfl silent_nil
  cases checked : c.checkRequestMsg ⟨p⟩ with
  | error e => simpa only [handleRequest, checked] using stay
  | ok _ =>
    simp only [handleRequest, checked]
    split_ifs with accepting
    · obtain ⟨noVote, noDecision, only⟩ := send_preprepare_effects wire be
        { c with current := { c.current with pendingRequest := some ⟨p⟩ } }
      rw [Moves, noVote, noDecision]
      cases sent : proposals (sendPreprepare wire be
          { c with current := { c.current with pendingRequest := some ⟨p⟩ } } ⟨p⟩) with
      | nil => exact .keep (.request p)
      | cons first others =>
        obtain ⟨same, height, speaks⟩ := only first (sent ▸ List.mem_cons_self)
        rw [same] at height
        exact .propose p _ accepting height speaks fun q member => (only q (sent ▸ member)).1
    · exact moves_keep wire be _ c rfl silent_nil

theorem handle_timeout_moves (handled : handleTimeoutMsg wire be c = some done) : Moves wire be input c done := by
  have next (fallen : handleTimeoutMsg.behindOrNext wire be c = some done) : Moves wire be input c done := by
    simp only [handleTimeoutMsg.behindOrNext] at fallen
    split at fallen
    · split_ifs at fallen
      · exact start_new_round_moves wire be input c fallen
      · exact some.inj fallen ▸ send_round_change_moves wire be input c
    · exact some.inj fallen ▸ send_round_change_moves wire be input c
  simp only [handleTimeoutMsg] at handled
  split at handled
  · split_ifs at handled
    · exact some.inj handled ▸ send_round_change_moves wire be input c
    · exact next handled
  · exact next handled

theorem step_moves (event : Event B) (done : Core B × List (Effect B)) (stepped : step wire be c event = some done)
    : Moves wire be (c.input wire event) c done := by
  cases event with
  | request p =>
    have moves := handle_request_moves wire be c p
    simp only [step] at stepped
    split_ifs at stepped
    · exact some.inj stepped ▸ moves
    · exact some.inj stepped ▸ moves
  | message payload =>
    obtain ⟨out, handled, same⟩ := map_eq_some_iff.mp stepped
    cases received : receive wire c payload with
    | error e =>
      simp only [handleMsg, received, some.injEq] at handled
      have stay : Moves wire be (c.input wire (.message payload)) c (out.core, out.effects) :=
        handled ▸ moves_keep wire be _ c rfl silent_nil
      exact same ▸ gossip_moves wire be _ c stay
    | ok found =>
      simp only [handleMsg, received] at handled
      simp only [input, received]
      exact same ▸ gossip_moves wire be _ c (handle_checked_msg_moves wire be c found.1 found.2 out handled)
  | backlog src msg =>
    obtain ⟨out, handled, same⟩ := map_eq_some_iff.mp stepped
    exact same ▸ gossip_moves wire be _ c (handle_checked_msg_moves wire be c msg src out handled)
  | timeout => exact handle_timeout_moves wire be _ c stepped
  | finalCommitted => exact start_new_round_moves wire be _ c stepped

theorem start_ballot (address : Address) (done : Core B × List (Effect B)) (started : start wire be address = some done) :
    ∃ last lastSpeaker speaker, be.lastBlockProposal = some (last, lastSpeaker) ∧
      done.1.ballot =
        freshBallot address (number last + 1) (be.fullnodes last).fullnodes speaker ∧
      Silent done.2 := by
  cases known : be.lastBlockProposal with
  | none => simp [start, known] at started
  | some found =>
    obtain ⟨last, lastSpeaker⟩ := found
    simp only [start, known] at started
    obtain ⟨⟨speaker, ballot⟩, silent⟩ := enter_sequence_ballot wire be _ started
    exact ⟨last, lastSpeaker, speaker, rfl, ballot, silent⟩

end Core

end Didux.Sport
