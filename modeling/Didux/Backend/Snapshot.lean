import Didux.Lib.Tally
import Didux.Lib.Runs
import Didux.Sport.FullnodeSet
import Didux.Backend.Header

set_option autoImplicit false

namespace Didux.Backend

open Sport

structure Vote where
  fullnode : Address
  blockNum : Nat
  address : Address
  authorize : Bool
deriving DecidableEq, Repr

structure Tally where
  authorize : Bool
  votes : Nat
deriving DecidableEq, Repr

structure Snapshot where
  epoch : Nat
  number : Nat
  hash : Hash
  votes : List Vote
  tally : Assoc Address Tally
  fullnodeSet : FullnodeSet

def newSnapshot (epoch number : Nat) (hash : Hash) (fullnodeSet : FullnodeSet) : Snapshot :=
  { epoch := epoch, number := number, hash := hash, votes := [], tally := ∅, fullnodeSet := fullnodeSet }

namespace Snapshot

def copy (text : Address → List Char) (s : Snapshot) : Snapshot := { s with fullnodeSet := s.fullnodeSet.copy text }

def members (s : Snapshot) : List Address := s.fullnodeSet.fullnodes

variable (s : Snapshot) (address : Address) (authorize : Bool)

def checkVote : Bool :=
  match (s.fullnodeSet.getByAddress address).2 with
  | some _ => !authorize
  | none => authorize

def cast : Snapshot × Bool :=
  if s.checkVote address authorize then
    match s.tally.lookup address with
    | some old => ({ s with tally := s.tally.insert address { old with votes := old.votes + 1 } }, true)
    | none => ({ s with tally := s.tally.insert address ⟨authorize, 1⟩ }, true)
  else (s, false)

def uncast : Snapshot × Bool :=
  match s.tally.lookup address with
  | none => (s, false)
  | some tally =>
    if tally.authorize ≠ authorize then (s, false)
    else if 1 < tally.votes then
      ({ s with tally := s.tally.insert address { tally with votes := tally.votes - 1 } }, true)
    else ({ s with tally := s.tally.erase address }, true)

def resetVotes (epoch number : Nat) (snap : Snapshot) : Snapshot :=
  if number % epoch = 0 then { snap with votes := [], tally := ∅ } else snap

def votesOn (fullnode address : Address) (vote : Vote) : Bool := vote.fullnode = fullnode ∧ vote.address = address

def discardVote (snap : Snapshot) (fullnode address : Address) : Snapshot :=
  match snap.votes.find? (votesOn fullnode address) with
  | none => snap
  | some vote =>
    { (snap.uncast vote.address vote.authorize).1 with votes := snap.votes.eraseP (votesOn fullnode address) }

def voteOf (nonce : BitVec 64) : Option Bool :=
  if nonce = nonceAuthVote then some true else if nonce = nonceDropVote then some false else none

def castVote (snap : Snapshot) (fullnode : Address) (number : Nat) (address : Address) (authorize : Bool) : Snapshot :=
  let counted := snap.cast address authorize
  if counted.2 then { counted.1 with votes := counted.1.votes ++ [⟨fullnode, number, address, authorize⟩] }
  else counted.1

-- The loop that drops the votes of a member voted out. The votes before the
-- index are those of the snapshot, the ones from the index on are the list.
def discardVotesOf (fullnode : Address) (snap : Snapshot) : List Vote → Snapshot
  | [] => snap
  | vote :: rest => if vote.fullnode = fullnode then discardVotesOf fullnode (snap.uncast vote.address vote.authorize).1 rest
    else discardVotesOf fullnode { snap with votes := snap.votes ++ [vote] } rest

def passVote (text : Address → List Char) (snap : Snapshot) (address : Address) : Snapshot :=
  match snap.tally.lookup address with
  | none => snap
  | some tally =>
    if snap.fullnodeSet.size / 2 < tally.votes then
      let changed :=
        if tally.authorize then { snap with fullnodeSet := (snap.fullnodeSet.addFullnode text address).1 }
        else
          discardVotesOf address
            { snap with fullnodeSet := (snap.fullnodeSet.removeFullnode address).1, votes := [] } snap.votes
      { changed with
        votes := changed.votes.filter fun vote => vote.address ≠ address, tally := changed.tally.erase address }
    else snap

-- A zero epoch is a division by zero.
def applyHeader (codec : Codec) (epoch : Nat) (snap : Snapshot) (header : Header) : Except EngineError Snapshot :=
  let number := uint64 header.number
  if epoch = 0 then .error .panic
  else
    let snap := snap.resetVotes epoch number
    match ecrecover codec header with
    | .error e => .error e
    | .ok fullnode =>
      match (snap.fullnodeSet.getByAddress fullnode).2 with
      | none => .error .unauthorized
      | some _ =>
        let snap := snap.discardVote fullnode header.coinbase
        match voteOf header.nonce with
        | none => .error .invalidVote
        | some authorize =>
          .ok ((snap.castVote fullnode number header.coinbase authorize).passVote codec.text header.coinbase)

def contiguous : List Header → Bool
  | first :: second :: rest => uint64 second.number == uint64 (uint64 first.number + 1) && contiguous (second :: rest)
  | _ => true

def applyHeaders (codec : Codec) (epoch : Nat) : Snapshot → List Header → Except EngineError Snapshot
  | snap, [] => .ok snap
  | snap, header :: rest => match applyHeader codec epoch snap header with
    | .error e => .error e
    | .ok next => applyHeaders codec epoch next rest

def apply (codec : Codec) (s : Snapshot) (headers : List Header) : Except EngineError Snapshot :=
  match headers with
  | [] => .ok s
  | first :: rest =>
    if ¬ contiguous headers then .error .invalidVotingChain
    else if uint64 first.number ≠ uint64 (s.number + 1) then .error .invalidVotingChain
    else
      match applyHeaders codec s.epoch (s.copy codec.text) headers with
      | .error e => .error e
      | .ok snap => .ok { snap with
          number := uint64 (s.number + headers.length), hash := ((first :: rest).getLast (by simp)).hash codec }

def Reached (codec : Codec) : Snapshot → Prop :=
  Runs.Reached
    (fun s => ∃ epoch hash addrs policy, addrs.Nodup ∧
      s = newSnapshot epoch 0 hash (newFullnodeSet codec.text addrs policy))
    (fun s next => ∃ headers, s.apply codec headers = .ok next)

end Snapshot

end Didux.Backend
