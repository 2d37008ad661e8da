import Didux.Sport.Types

set_option autoImplicit false

namespace Didux.Sport

-- A fullnode is its address; a nil Fullnode is none. The policy is stored and
-- copied only: every set selects its speaker with roundRobinSpeaker.
structure FullnodeSet where
  fullnodes : List Address
  policy : Nat
  speaker : Option Address
deriving DecidableEq, Repr

namespace FullnodeSet

variable (set : FullnodeSet)

def size : Nat := set.fullnodes.length

def getByIndex (i : Nat) : Option Address := set.fullnodes[i]?

def getByAddress (addr : Address) : Int × Option Address :=
  if addr ∈ set.fullnodes then (set.fullnodes.idxOf addr, some addr) else (-1, none)

def isSpeaker (address : Address) : Bool :=
  set.speaker == (set.getByAddress address).2

def maxFaulty : Nat := (set.size + 1) ⌈/⌉ 3 - 1

def minApprovers : Nat := (2 * set.size) ⌈/⌉ 3

def E (_ : FullnodeSet) : Nat := 1

end FullnodeSet

def calcSeed (set : FullnodeSet) (speaker : Address) (round : Nat) : Nat :=
  let offset := match set.getByAddress speaker with
    | (_, none) => 0
    | (idx, some _) => idx.toNat
  uint64 (offset + round)

def emptyAddress (addr : Address) : Bool := addr == 0

def roundRobinSpeaker (set : FullnodeSet) (speaker : Address) (round : Nat) : Option Address :=
  if set.size = 0 then none
  else
    let seed := if emptyAddress speaker then round else uint64 (calcSeed set speaker round + 1)
    set.getByIndex (seed % set.size)

def newFullnodeSet (text : Address → List Char) (addrs : List Address) (policy : Nat) : FullnodeSet :=
  let fullnodes := addrs.insertionSort fun a b => text a ≤ text b
  { fullnodes := fullnodes, policy := policy, speaker := fullnodes.head? }

namespace FullnodeSet

def calcSpeaker (set : FullnodeSet) (lastSpeaker : Address) (round : Nat) : FullnodeSet :=
  { set with speaker := roundRobinSpeaker set lastSpeaker round }

variable (text : Address → List Char) (set : FullnodeSet) (address : Address)

def addFullnode : FullnodeSet × Bool :=
  if address ∈ set.fullnodes then (set, false)
  else ({ set with fullnodes := (set.fullnodes ++ [address]).insertionSort fun a b => text a ≤ text b }, true)

def removeFullnode (set : FullnodeSet) (address : Address) : FullnodeSet × Bool :=
  if address ∈ set.fullnodes then ({ set with fullnodes := set.fullnodes.erase address }, true)
  else (set, false)

def copy : FullnodeSet :=
  newFullnodeSet text set.fullnodes set.policy

theorem get_by_address_some_iff (set : FullnodeSet) (addr found : Address) :
    (set.getByAddress addr).2 = some found ↔ addr = found ∧ addr ∈ set.fullnodes := by
  by_cases member : addr ∈ set.fullnodes <;> simp [getByAddress, member]

theorem get_by_address_none_iff (set : FullnodeSet) (addr : Address) :
    (set.getByAddress addr).2 = none ↔ addr ∉ set.fullnodes := by
  by_cases member : addr ∈ set.fullnodes <;> simp [getByAddress, member]

theorem copy_perm : (set.copy text).fullnodes.Perm set.fullnodes :=
  List.perm_insertionSort _ _

theorem add_fullnode_perm (fresh : address ∉ set.fullnodes) :
    (set.addFullnode text address).1.fullnodes.Perm (address :: set.fullnodes) := by
  simp only [addFullnode, if_neg fresh]
  exact (List.perm_insertionSort _ _).trans (List.perm_append_singleton address set.fullnodes)

end FullnodeSet

end Didux.Sport
