import Didux.Sport.Core

set_option autoImplicit false

namespace Didux.Sport

open BlockProposal

variable {B : Type} [BlockProposal B]

structure Outcome (B : Type) where
  core : Core B
  effects : List (Effect B)
  result : Except CoreError Unit

namespace Core

variable (wire : Wire B) (be : Backend B) (c : Core B)

def sendPrepare : List (Effect B) :=
  match c.current.subject with
  | none => []
  | some sub => c.broadcast wire be msgPrepare (.subject sub)

def sendCommit : List (Effect B) :=
  match c.current.subject with
  | none => []
  | some sub => c.broadcast wire be msgCommit (.subject sub)

def sendCommitForOldBlock (view : View) (digest : Hash) : List (Effect B) :=
  c.broadcast wire be msgCommit (.subject ⟨view, digest⟩)

def sendPreprepare (request : Request B) : List (Effect B) :=
  if c.current.sequence = number request.blockProposal ∧ c.isSpeaker then
    c.broadcast wire be msgPreprepare (.preprepare ⟨c.currentView, request.blockProposal⟩)
  else []

def updateRoundState (be : Backend B) (c : Core B) (view : View) (roundChange : Bool) : Core B :=
  let current :=
    if roundChange then
      if c.current.isHashLocked be.hasBadBlockProposal then
        newRoundState view c.fullnodeSet c.current.lockedHash c.current.preprepare c.current.pendingRequest
      else newRoundState view c.fullnodeSet 0 none c.current.pendingRequest
    else newRoundState view c.fullnodeSet 0 none none
  { c with current := current }

def catchUpRound (be : Backend B) (c : Core B) (view : View) : Core B :=
  let c := updateRoundState be { c with waitingForRoundChange := true } view true
  { c with roundChangeSet := c.roundChangeSet.clear view.round }

def sendRoundChange (round : Nat) : Core B × List (Effect B) :=
  if round ≤ c.currentView.round then (c, [])
  else
    let c := catchUpRound be c ⟨round, c.currentView.sequence⟩
    (c, c.broadcast wire be msgRoundChange (.subject ⟨c.currentView, 0⟩))

def sendNextRoundChange : Core B × List (Effect B) :=
  sendRoundChange wire be c (c.currentView.round + 1)

-- make([]byte, SportExtraSeal) and copy: cut or zero-padded to 65 bytes.
def copySeal (committedSeal : Bytes) : Bytes :=
  committedSeal.take 65 ++ List.replicate (65 - committedSeal.length) 0

def commit : Core B × List (Effect B) :=
  let entered := c.setState .committed
  let c := entered.1
  match c.current.blockProposal with
  | none => entered
  | some proposal =>
    let committedSeals := c.current.commits.values.map fun v => copySeal v.committedSeal
    if be.commit proposal committedSeals then (c, entered.2 ++ [.commit proposal committedSeals])
    else
      let changed := sendNextRoundChange wire be { c with current := c.current.unlockHash }
      (changed.1, entered.2 ++ [.commit proposal committedSeals] ++ changed.2)

def prepareRound (be : Backend B) (c : Core B) (lastSpeaker : Address) (newView : View) (roundChange : Bool) : Core B :=
  let c := { c with roundChangeSet := newRoundChangeSet c.fullnodeSet }
  let c := updateRoundState be c newView roundChange
  { c with
    fullnodeSet := c.fullnodeSet.calcSpeaker lastSpeaker (uint64 newView.round), waitingForRoundChange := false }

-- The part of startNewRound below the choice of the view. None is the panic on
-- the String of a nil BlockProposal when a lock has lost its preprepare.
def enterRound (lastSpeaker : Address) (newView : View) (roundChange : Bool) : Option (Core B × List (Effect B)) :=
  let entered := (prepareRound be c lastSpeaker newView roundChange).setState .acceptRequest
  let c := entered.1
  if roundChange ∧ c.isSpeaker then
    if c.current.isHashLocked be.hasBadBlockProposal then
      match c.current.blockProposal with
      | none => none
      | some proposal => some (c, entered.2 ++ c.sendPreprepare wire be ⟨proposal⟩)
    else
      match c.current.pendingRequest with
      | none => some entered
      | some request => some (c, entered.2 ++ c.sendPreprepare wire be request)
  else some entered

-- None is the panic on the Number of a nil last proposal.
def startNewRound (round : Nat) : Option (Core B × List (Effect B)) :=
  match be.lastBlockProposal with
  | none => none
  | some (lastBlockProposal, lastSpeaker) =>
    let number := number lastBlockProposal
    if c.current.sequence ≤ number then
      enterRound wire be { c with fullnodeSet := be.fullnodes lastBlockProposal } lastSpeaker ⟨0, number + 1⟩ false
    else if (number : Int) = int64 (int64 c.current.sequence - 1) then
      if round = 0 then some (c, [])
      else if round < c.current.round then some (c, [])
      else enterRound wire be c lastSpeaker ⟨round, c.current.sequence⟩ true
    else some (c, [])

-- New followed by Start: the first round is entered with no current round state.
def start (address : Address) : Option (Core B × List (Effect B)) :=
  match be.lastBlockProposal with
  | none => none
  | some (lastBlockProposal, lastSpeaker) =>
    let fullnodeSet := be.fullnodes lastBlockProposal
    let view : View := ⟨0, number lastBlockProposal + 1⟩
    let c : Core B := {
      address := address, state := .acceptRequest, fullnodeSet := fullnodeSet, waitingForRoundChange := false
      backlogs := ∅, current := newRoundState view fullnodeSet 0 none none
      roundChangeSet := newRoundChangeSet fullnodeSet, pendingRequests := [] }
    enterRound wire be c lastSpeaker view false

def answersOldBlock (src : Address) (preprepare : Preprepare B) : Bool :=
  let proposal := preprepare.blockProposal
  let fullnodeSet := (be.parentFullnodes proposal).copy wire.text
  let previousSpeaker := be.getSpeaker (uint64 (uint64 (number proposal) + 2 ^ 64 - 1))
  let fullnodeSet := fullnodeSet.calcSpeaker previousSpeaker (uint64 preprepare.view.round)
  fullnodeSet.isSpeaker src && be.hasBlockProposal (hash proposal) (number proposal)

def acceptPreprepare (c : Core B) (preprepare : Preprepare B) : Core B :=
  { c with current := c.current.setPreprepare preprepare }

-- The part of handlePreprepare below the verification, in StateAcceptRequest.
def answerPreprepare (preprepare : Preprepare B) : Core B × List (Effect B) :=
  if c.current.isHashLocked be.hasBadBlockProposal then
    if hash preprepare.blockProposal = c.current.lockedHash then
      let prepared := (c.acceptPreprepare preprepare).setState .prepared
      (prepared.1, prepared.2 ++ prepared.1.sendCommit wire be)
    else sendNextRoundChange wire be c
  else
    let preprepared := (c.acceptPreprepare preprepare).setState .preprepared
    (preprepared.1, preprepared.2 ++ preprepared.1.sendPrepare wire be)

def handlePreprepare (msg : Message B) (src : Address) : Outcome B :=
  match msg.decodePreprepare with
  | none => ⟨c, [], .error .failedDecodePreprepare⟩
  | some preprepare =>
    let proposal := preprepare.blockProposal
    match c.checkMessage msgPreprepare preprepare.view with
    | .error e =>
      if e = .oldMessage ∧ answersOldBlock wire be src preprepare then
        ⟨c, c.sendCommitForOldBlock wire be preprepare.view (hash proposal), .ok ()⟩
      else ⟨c, [], .error e⟩
    | .ok () =>
      if ¬ c.fullnodeSet.isSpeaker src then ⟨c, [], .error .notFromSpeaker⟩
      else
        match be.verify proposal with
        | .error .futureBlock => ⟨c, [.postAfterDelay (.backlog src msg)], .error (.verification .futureBlock)⟩
        | .error .invalid =>
          let changed := sendNextRoundChange wire be c
          ⟨changed.1, changed.2, .error (.verification .invalid)⟩
        | .ok () =>
          if c.state = .acceptRequest then
            let answered := answerPreprepare wire be c preprepare
            ⟨answered.1, answered.2, .ok ()⟩
          else ⟨c, [], .ok ()⟩

-- verifyPrepare and verifyCommit: reflect.DeepEqual against our own subject.
def verifySubject (c : Core B) (received : Subject) : Except CoreError Unit :=
  if c.current.subject = some received then .ok () else .error .inconsistentSubject

def acceptPrepare (c : Core B) (msg : Message B) : Core B :=
  { c with current := { c.current with prepares := c.current.prepares.addOrKeep msg } }

def handlePrepare (msg : Message B) : Outcome B :=
  match msg.decodeSubject with
  | none => ⟨c, [], .error .failedDecodePrepare⟩
  | some prepare =>
    match c.checkMessage msgPrepare prepare.view with
    | .error e => ⟨c, [], .error e⟩
    | .ok () =>
      match c.verifySubject prepare with
      | .error e => ⟨c, [], .error e⟩
      | .ok () =>
        let c := c.acceptPrepare msg
        if ((c.current.isHashLocked be.hasBadBlockProposal ∧ prepare.digest = c.current.lockedHash) ∨
            c.fullnodeSet.minApprovers ≤ c.current.getPrepareOrCommitSize) ∧ c.state.cmp .prepared = .lt then
          let prepared := { c with current := c.current.lockHash }.setState .prepared
          ⟨prepared.1, prepared.2 ++ prepared.1.sendCommit wire be, .ok ()⟩
        else ⟨c, [], .ok ()⟩

def acceptCommit (c : Core B) (msg : Message B) : Core B :=
  { c with current := { c.current with commits := c.current.commits.addOrKeep msg } }

def handleCommit (msg : Message B) : Outcome B :=
  match msg.decodeSubject with
  | none => ⟨c, [], .error .failedDecodeCommit⟩
  | some commit =>
    match c.checkMessage msgCommit commit.view with
    | .error e => ⟨c, [], .error e⟩
    | .ok () =>
      match c.verifySubject commit with
      | .error e => ⟨c, [], .error e⟩
      | .ok () =>
        let c := c.acceptCommit msg
        if c.fullnodeSet.minApprovers ≤ c.current.commits.size ∧ c.state.cmp .committed = .lt then
          let committed := Core.commit wire be { c with current := c.current.lockHash }
          ⟨committed.1, committed.2, .ok ()⟩
        else ⟨c, [], .ok ()⟩

def handleRoundChange (msg : Message B) : Option (Outcome B) :=
  match msg.decodeSubject with
  | none => some ⟨c, [], .error .invalidMessage⟩
  | some rc =>
    match c.checkMessage msgRoundChange rc.view with
    | .error e => some ⟨c, [], .error e⟩
    | .ok () =>
      let cv := c.currentView
      let roundView := rc.view
      let added := c.roundChangeSet.add roundView.round msg
      let c := { c with roundChangeSet := added.1 }
      match added.2 with
      | .error e => some ⟨c, [], .error e⟩
      | .ok messageCount =>
        let expectedConsensus := c.fullnodeSet.maxFaulty + c.fullnodeSet.E
        if c.waitingForRoundChange ∧ messageCount = expectedConsensus then
          if cv.round < roundView.round then
            let changed := sendRoundChange wire be c roundView.round
            some ⟨changed.1, changed.2, .ok ()⟩
          else some ⟨c, [], .ok ()⟩
        else if messageCount = c.fullnodeSet.minApprovers ∧
            (c.waitingForRoundChange ∨ cv.round < roundView.round) then
          (startNewRound wire be c roundView.round).map fun started => ⟨started.1, started.2, .ok ()⟩
        else if cv.round < roundView.round then some ⟨c, [], .error .ignored⟩
        else some ⟨c, [], .ok ()⟩

def dispatch (msg : Message B) (src : Address) : Option (Outcome B) :=
  if msg.code = msgPreprepare then some (handlePreprepare wire be c msg src)
  else if msg.code = msgPrepare then some (handlePrepare wire be c msg)
  else if msg.code = msgCommit then some (handleCommit wire be c msg)
  else if msg.code = msgRoundChange then handleRoundChange wire be c msg
  else some ⟨c, [], .error .invalidMessage⟩

-- testBacklog around every handler: a future message is stored and still refused.
def handleCheckedMsg (msg : Message B) (src : Address) : Option (Outcome B) :=
  (dispatch wire be c msg src).map fun out =>
    match out.result with
    | .error .futureMessage => { out with core := out.core.storeBacklog msg src }
    | _ => out

def checkFullnodeSignature (set : FullnodeSet) (data sig : Bytes) : Except CoreError Address :=
  match wire.getSignatureAddress data sig with
  | none => .error .invalidSignature
  | some signer =>
    match (set.getByAddress signer).2 with
    | some val => .ok val
    | none => .error .unauthorizedAddress

def fromPayload (b : Bytes) (validateFn : Bytes → Bytes → Except CoreError Address) : Except CoreError (Message B) :=
  match wire.fromPayload b with
  | none => .error .malformedPayload
  | some m => do
      let _ ← validateFn (m.payloadNoSig wire) m.signature
      return m

def receive (c : Core B) (payload : Bytes) : Except CoreError (Message B × Address) := do
  let msg ← fromPayload wire payload (checkFullnodeSignature wire c.fullnodeSet)
  match (c.fullnodeSet.getByAddress msg.address).2 with
  | none => .error .unauthorizedAddress
  | some src => .ok (msg, src)

def handleMsg (payload : Bytes) : Option (Outcome B) :=
  match receive wire c payload with
  | .error e => some ⟨c, [], .error e⟩
  | .ok (msg, src) => handleCheckedMsg wire be c msg src

def handleRequest (request : Request B) : Outcome B :=
  match c.checkRequestMsg request with
  | .error e => ⟨c, [], .error e⟩
  | .ok () =>
    let c := { c with current := { c.current with pendingRequest := some request } }
    if c.state = .acceptRequest then ⟨c, c.sendPreprepare wire be request, .ok ()⟩ else ⟨c, [], .ok ()⟩

def handleTimeoutMsg : Option (Core B × List (Effect B)) :=
  let maxRound := if c.waitingForRoundChange then none
    else c.roundChangeSet.maxRound (c.fullnodeSet.maxFaulty + c.fullnodeSet.E)
  match maxRound with
  | some r => if c.current.round < r then some (sendRoundChange wire be c r.toNat) else behindOrNext
  | none => behindOrNext
where
  behindOrNext : Option (Core B × List (Effect B)) :=
    match be.lastBlockProposal with
    | some (last, _) =>
      if c.current.sequence ≤ number last then startNewRound wire be c 0
      else some (sendNextRoundChange wire be c)
    | none => some (sendNextRoundChange wire be c)

def gossipIfOk (payload : Bytes) (out : Outcome B) : Core B × List (Effect B) :=
  match out.result with
  | .ok () => (out.core, out.effects ++ [.gossip payload])
  | .error _ => (out.core, out.effects)

-- One iteration of handleEvents. None is a panic of the handler.
def step : Event B → Option (Core B × List (Effect B))
  | .request blockProposal => let out := handleRequest wire be c ⟨blockProposal⟩
    if out.result = .error .futureMessage then some (out.core.storeRequestMsg ⟨blockProposal⟩, out.effects)
    else some (out.core, out.effects)
  | .message payload => (handleMsg wire be c payload).map (gossipIfOk payload)
  | .backlog src msg => (handleCheckedMsg wire be c msg src).map (gossipIfOk (wire.payload msg))
  | .timeout => handleTimeoutMsg wire be c
  | .finalCommitted => startNewRound wire be c 0

end Core

end Didux.Sport
