import Didux.Lib.Prque
import Didux.Sport.RoundState

set_option autoImplicit false

namespace Didux.Sport

variable {B : Type}

structure Core (B : Type) where
  address : Address
  state : State
  fullnodeSet : FullnodeSet
  waitingForRoundChange : Bool
  backlogs : Assoc Address (Prque (Message B))
  current : RoundState B
  roundChangeSet : RoundChangeSet B
  pendingRequests : Prque (Request B)

inductive Event (B : Type) where
  | request (blockProposal : B)
  | message (payload : Bytes)
  | backlog (src : Address) (msg : Message B)
  | timeout
  | finalCommitted
deriving DecidableEq, Repr

-- What a handler asks of the backend and of the event mux. Posted events arrive
-- later, from goroutines of their own; a broadcast also comes back as an event.
inductive Effect (B : Type) where
  | broadcast (msg : Message B)
  | gossip (payload : Bytes)
  | commit (blockProposal : B) (seals : List Bytes)
  | post (event : Event B)
  | postAfterDelay (event : Event B)
deriving DecidableEq, Repr

-- The answers of sport.Backend while one event is handled. They may change from
-- one event to the next. A nil lastBlockProposal means that its author was not recovered.
structure Backend (B : Type) where
  lastBlockProposal : Option (B × Address)
  fullnodes : B → FullnodeSet
  parentFullnodes : B → FullnodeSet
  getSpeaker : Nat → Address
  hasBlockProposal : Hash → Nat → Bool
  hasBadBlockProposal : Hash → Bool
  verify : B → Except VerifyError Unit
  commit : B → List Bytes → Bool
  sign : Bytes → Option Bytes

def msgPriority (code : Nat) : Nat :=
  if code = msgPreprepare then 1 else if code = msgCommit then 2 else if code = msgPrepare then 3 else 0

def toPriority (msgCode : Nat) (view : View) : Int :=
  if msgCode = msgRoundChange then -float32 (uint64 (uint64 view.sequence * 1000))
  else -float32 (uint64 (uint64 view.sequence * 1000 + uint64 view.round * 10 + msgPriority msgCode))

def Message.view (msg : Message B) : Option View :=
  if msg.code = msgPreprepare then msg.decodePreprepare.map Preprepare.view
  else msg.decodeSubject.map Subject.view

namespace Core

def currentView (c : Core B) : View := c.current.view

def isSpeaker (c : Core B) : Bool := c.fullnodeSet.isSpeaker c.address

def checkMessage (c : Core B) (msgCode : Nat) (view : View) : Except CoreError Unit :=
  if msgCode = msgRoundChange then
    if c.currentView.sequence < view.sequence then .error .futureMessage
    else if view.cmp c.currentView = .lt then .error .oldMessage
    else .ok ()
  else if view.cmp c.currentView = .gt then .error .futureMessage
  else if view.cmp c.currentView = .lt then .error .oldMessage
  else if c.waitingForRoundChange then .error .futureMessage
  else if c.state = .acceptRequest then
    if msgPreprepare < msgCode then .error .futureMessage else .ok ()
  else .ok ()

def storeBacklog (c : Core B) (msg : Message B) (src : Address) : Core B :=
  if src = c.address then c
  else
    let backlog := (c.backlogs.lookup src).getD []
    let backlog := match msg.view with
      | none => backlog
      | some view => backlog.push msg (toPriority msg.code view)
    { c with backlogs := c.backlogs.insert src backlog }

-- One fullnode's queue: stop at the first future message, skip what cannot be
-- decoded or is no longer acceptable, post the rest.
def drainBacklog (c : Core B) (src : Address) : Nat → Prque (Message B) → Prque (Message B) × List (Effect B)
  | 0, backlog => (backlog, [])
  | fuel + 1, backlog => match backlog.pop with
    | none => (backlog, [])
    | some ((prio, msg), rest) =>
      match msg.view with
      | none => drainBacklog c src fuel rest
      | some view =>
        match c.checkMessage msg.code view with
        | .error .futureMessage => (rest.push msg prio, [])
        | .error _ => drainBacklog c src fuel rest
        | .ok () =>
          let drained := drainBacklog c src fuel rest
          (drained.1, .post (.backlog src msg) :: drained.2)

def processSender (c : Core B) (done : Core B × List (Effect B))
    (entry : Sigma fun _ : Address => Prque (Message B)) : Core B × List (Effect B) :=
  match (c.fullnodeSet.getByAddress entry.1).2 with
  | none => ({ done.1 with backlogs := done.1.backlogs.erase entry.1 }, done.2)
  | some src =>
    let drained := drainBacklog c src entry.2.length entry.2
    ({ done.1 with backlogs := done.1.backlogs.insert entry.1 drained.1 }, done.2 ++ drained.2)

def processBacklog (c : Core B) : Core B × List (Effect B) := c.backlogs.entries.foldl (processSender c) (c, [])

variable [BlockProposal B]

def checkRequestMsg (c : Core B) (request : Request B) : Except CoreError Unit :=
  match compare c.current.sequence (BlockProposal.number request.blockProposal) with
  | .gt => .error .oldMessage
  | .lt => .error .futureMessage
  | .eq => .ok ()

def requestPriority (request : Request B) : Int :=
  let negated := int64 (-int64 (BlockProposal.number request.blockProposal))
  if negated < 0 then -float32 negated.natAbs else float32 negated.natAbs

def storeRequestMsg (c : Core B) (request : Request B) : Core B :=
  { c with pendingRequests := c.pendingRequests.push request (requestPriority request) }

def drainRequests (c : Core B) : Nat → Prque (Request B) → Prque (Request B) × List (Effect B)
  | 0, queue => (queue, [])
  | fuel + 1, queue => match queue.pop with
    | none => (queue, [])
    | some ((prio, r), rest) =>
      match c.checkRequestMsg r with
      | .error .futureMessage => (rest.push r prio, [])
      | .error _ => drainRequests c fuel rest
      | .ok () =>
        let drained := drainRequests c fuel rest
        (drained.1, .post (.request r.blockProposal) :: drained.2)

def processPendingRequests (c : Core B) : Core B × List (Effect B) :=
  let drained := drainRequests c c.pendingRequests.length c.pendingRequests
  ({ c with pendingRequests := drained.1 }, drained.2)

def setState (c : Core B) (state : State) : Core B × List (Effect B) :=
  let c := { c with state := state }
  let requests := if state = .acceptRequest then processPendingRequests c else (c, [])
  let backlog := processBacklog requests.1
  (backlog.1, requests.2 ++ backlog.2)

-- The seal is over the proposal of the current round, whatever the message names.
def committedSealOf (be : Backend B) (c : Core B) (code : Nat) : Option Bytes :=
  match c.current.blockProposal with
  | some proposal =>
    if code = msgCommit then be.sign (prepareCommittedSeal (BlockProposal.hash proposal)) else some []
  | none => some []

def finalizeMessage (wire : Wire B) (be : Backend B) (c : Core B) (code : Nat) (msg : Content B) : Option (Message B) := do
  let committedSeal ← c.committedSealOf be code
  let unsigned : Message B :=
    { code := code, msg := msg, address := c.address, signature := [], committedSeal := committedSeal }
  let signature ← be.sign (unsigned.payloadNoSig wire)
  return { unsigned with signature := signature }

def broadcast (wire : Wire B) (be : Backend B) (c : Core B) (code : Nat) (msg : Content B) : List (Effect B) :=
  match c.finalizeMessage wire be code msg with
  | none => []
  | some finalized => [.broadcast finalized]

end Core

end Didux.Sport
