import Didux.Lib.Assoc
import Didux.Sport.FullnodeSet

set_option autoImplicit false

namespace Didux.Sport

variable {B : Type}

-- The set a messageSet refers to is shared with the core; only its members are read.
structure MessageSet (B : Type) where
  fullnodeSet : FullnodeSet
  messages : Assoc Address (Message B)

def newMessageSet (fullnodeSet : FullnodeSet) : MessageSet B := ⟨fullnodeSet, ∅⟩

namespace MessageSet

variable (ms : MessageSet B) (msg : Message B)

def verify : Except CoreError Unit :=
  match (ms.fullnodeSet.getByAddress msg.address).2 with
  | none => .error .unauthorizedAddress
  | some _ => .ok ()

def addVerifiedMessage : MessageSet B :=
  { ms with messages := ms.messages.insert msg.address msg }

def add : Except CoreError (MessageSet B) := do
  ms.verify msg
  return ms.addVerifiedMessage msg

-- The handlers of PREPARE and COMMIT log a failed Add and go on.
def addOrKeep : MessageSet B :=
  match ms.add msg with
  | .error _ => ms
  | .ok added => added

def values : List (Message B) := Assoc.values ms.messages

def size : Nat := Assoc.size ms.messages

def get (addr : Address) : Option (Message B) := ms.messages.lookup addr

theorem add_or_keep_cases : ms.addOrKeep msg =
      if msg.address ∈ ms.fullnodeSet.fullnodes then ms.addVerifiedMessage msg else ms := by
  by_cases member : msg.address ∈ ms.fullnodeSet.fullnodes
  · have found := (FullnodeSet.get_by_address_some_iff ms.fullnodeSet msg.address msg.address).mpr ⟨rfl, member⟩
    simp only [addOrKeep, add, verify, found, if_pos member]
    rfl
  · have absent := (FullnodeSet.get_by_address_none_iff ms.fullnodeSet msg.address).mpr member
    simp only [addOrKeep, add, verify, absent, if_neg member]
    rfl

end MessageSet

structure RoundChangeSet (B : Type) where
  fullnodeSet : FullnodeSet
  roundChanges : Assoc Nat (MessageSet B)

def newRoundChangeSet (fullnodeSet : FullnodeSet) : RoundChangeSet B := ⟨fullnodeSet, ∅⟩

namespace RoundChangeSet

-- Rounds are keyed by their low 64 bits. A rejected message still leaves the
-- empty set that was made for its round behind.
def add (rcs : RoundChangeSet B) (r : Nat) (msg : Message B) : RoundChangeSet B × Except CoreError Nat :=
  let round := uint64 r
  let known := (rcs.roundChanges.lookup round).getD (newMessageSet rcs.fullnodeSet)
  match known.add msg with
  | .error e => ({ rcs with roundChanges := rcs.roundChanges.insert round known }, .error e)
  | .ok added => ({ rcs with roundChanges := rcs.roundChanges.insert round added }, .ok added.size)

def stale (round : Nat) (entry : Sigma fun _ : Nat => MessageSet B) : Bool :=
  entry.2.values.length == 0 || decide (entry.1 < uint64 round)

def clear (rcs : RoundChangeSet B) (round : Nat) : RoundChangeSet B :=
  { rcs with roundChanges :=
      (rcs.roundChanges.entries.filter (stale round)).foldl (fun kept entry => kept.erase entry.1) rcs.roundChanges }

-- big.NewInt(int64(k)): a key of 2^63 or more comes out negative.
def maxRound (rcs : RoundChangeSet B) (num : Nat) : Option Int :=
  rcs.roundChanges.entries.foldl (fun best entry =>
    if entry.2.size < num then best
    else
      let r := int64 entry.1
      match best with
      | none => some r
      | some old => if old < r then some r else best) none

end RoundChangeSet

structure RoundState (B : Type) where
  round : Nat
  sequence : Nat
  preprepare : Option (Preprepare B)
  prepares : MessageSet B
  commits : MessageSet B
  lockedHash : Hash
  pendingRequest : Option (Request B)

def newRoundState (view : View) (fullnodeSet : FullnodeSet) (lockedHash : Hash)
    (preprepare : Option (Preprepare B)) (pendingRequest : Option (Request B)) : RoundState B where
  round := view.round
  sequence := view.sequence
  preprepare := preprepare
  prepares := newMessageSet fullnodeSet
  commits := newMessageSet fullnodeSet
  lockedHash := lockedHash
  pendingRequest := pendingRequest

namespace RoundState

variable (s : RoundState B)

def getPrepareOrCommitSize : Nat :=
  s.prepares.size + s.commits.size - s.prepares.values.countP fun m => (s.commits.get m.address).isSome

def blockProposal : Option B := s.preprepare.map Preprepare.blockProposal

def view : View := ⟨s.round, s.sequence⟩

def setPreprepare (preprepare : Preprepare B) : RoundState B :=
  { s with preprepare := some preprepare }

def unlockHash : RoundState B := { s with lockedHash := 0 }

def isHashLocked (hasBadBlockProposal : Hash → Bool) (s : RoundState B) : Bool :=
  if s.lockedHash = 0 then false else !hasBadBlockProposal s.lockedHash

variable [BlockProposal B]

def subject (s : RoundState B) : Option Subject :=
  s.preprepare.map fun preprepare => ⟨s.view, BlockProposal.hash preprepare.blockProposal⟩

def lockHash (s : RoundState B) : RoundState B :=
  match s.preprepare with
  | none => s
  | some preprepare => { s with lockedHash := BlockProposal.hash preprepare.blockProposal }

end RoundState

end Didux.Sport
