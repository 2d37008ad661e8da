import Didux.Lib.Program
import Didux.State.StateDB

set_option autoImplicit false

namespace Didux.Vm

open Sport State

inductive Side where
  | publicState
  | vaultState
deriving DecidableEq, Repr

inductive Refusal where
  | readOnlyMutateOpcode
  | writeProtection
deriving DecidableEq, Repr

-- `other` stands for the errors of the interpreter that nothing tells apart, `panic` for a crash of the node.
inductive VMError where
  | depth
  | insufficientBalance
  | readOnlyValueTransfer
  | contractAddressCollision
  | codeStoreOutOfGas
  | maxCodeSizeExceeded
  | executionReverted
  | outOfGas
  | refused (refusal : Refusal)
  | other
  | panic
deriving DecidableEq, Repr

structure Outcome where
  ret : Bytes
  contractAddr : Address
  gas : Nat
  err : Option VMError
deriving DecidableEq, Repr

structure Contract where
  caller : Address
  address : Address
  codeAddr : Address
  code : Bytes
  input : Bytes
  value : Nat
  gas : Nat

structure Rules where
  isSmilo : Bool
  isHomestead : Bool
  isEIP150 : Bool
  isEIP158 : Bool
  isByzantium : Bool
  estimateGas : Bool
deriving DecidableEq, Repr

inductive Refund where
  | add (gas : Nat)
  | sub (gas : Nat)

-- The instructions that write a state or call. The gas of a call is callGasTemp; the refunds are what the gas function
-- of the instruction does to the counter.
inductive Instr where
  | sstore (key value : Hash) (refunds : List Refund)
  | log (topics : List Hash) (data : Bytes)
  | selfdestruct (beneficiary : Address) (refunds : List Refund)
  | create (value : Nat) (code : Bytes)
  | create2 (value : Nat) (code : Bytes) (salt : Hash)
  | call (addr : Address) (input : Bytes) (gas value : Nat)
  | callCode (addr : Address) (input : Bytes) (gas value : Nat)
  | delegateCall (addr : Address) (input : Bytes) (gas : Nat)
  | staticCall (addr : Address) (input : Bytes) (gas : Nat)

namespace Instr

def isMutating : Instr → Bool
  | .selfdestruct _ _ | .create _ _ | .sstore _ _ _ | .log _ _ => true
  | _ => false

def writes : Instr → Bool
  | .selfdestruct _ _ | .create _ _ | .create2 _ _ _ | .sstore _ _ _ | .log _ _ => true
  | _ => false

def refunds : Instr → List Refund
  | .sstore _ _ refunds | .selfdestruct _ refunds => refunds
  | _ => []

end Instr

structure View where
  accounts : Side → Accounts
  refund : Side → Nat
  current : Side
  smiloReadOnly : Bool
  depth : Nat
  readOnly : Bool

inductive Op where
  | createAccount (a : Address)
  | setNonce (a : Address) (nonce : Nat)
  | setCode (a : Address) (code : Bytes)
  | setState (a : Address) (key value : Hash)
  | addBalance (a : Address) (amount : Int)
  | subBalance (a : Address) (amount : Int)
  | subSmiloPay (a : Address) (amount : Int)
  | suicide (a : Address)
  | addLog (a : Address) (topics : List Hash) (data : Bytes)
  | addRefund (gas : Nat)
  | subRefund (gas : Nat)

def Op.apply (pay : Accrual) (blockNumber : Nat) (s : StateDB) : Op → Option StateDB
  | .createAccount a => some (s.createAccount a)
  | .setNonce a nonce => some (s.setNonce a nonce)
  | .setCode a code => some (s.setCode a code)
  | .setState a key value => some (s.setState a key value)
  | .addBalance a amount => some (s.addBalance pay a amount blockNumber)
  | .subBalance a amount => some (s.subBalance pay a amount blockNumber)
  | .subSmiloPay a amount => some (s.subSmiloPay pay a amount blockNumber)
  | .suicide a => some (s.suicide a)
  | .addLog a topics data => some (s.addLog a topics data (uint64 blockNumber))
  | .addRefund gas => some (s.addRefund gas)
  | .subRefund gas => s.subRefund gas

-- The fields of the EVM and of its interpreter that change. No vault state means that both pointers are one. The head
-- of `states` is evm.StateDB. `snapshots` are the variables of that name of the running calls, the innermost first.
structure EVM where
  publicState : StateDB
  vaultState : Option StateDB
  states : List Side
  smiloReadOnly : Bool
  readOnlyDepth : Nat
  depth : Nat
  readOnly : Bool
  snapshots : List Nat

namespace EVM

variable (evm : EVM)

def current : Side := evm.states.headD .vaultState

def get : Side → StateDB
  | .publicState => evm.publicState
  | .vaultState => evm.vaultState.getD evm.publicState

def set (side : Side) (s : StateDB) : EVM :=
  match side, evm.vaultState with
  | .vaultState, some _ => { evm with vaultState := some s }
  | _, _ => { evm with publicState := s }

def push (side : Side) : EVM :=
  let pushed := { evm with states := side :: evm.states }
  if side = .publicState ∧ evm.vaultState.isSome ∧ !evm.smiloReadOnly then
    { pushed with smiloReadOnly := true, readOnlyDepth := evm.states.length }
  else pushed

def pop : EVM :=
  let popped := { evm with states := evm.states.tail }
  if popped.states.length = evm.readOnlyDepth ∧ evm.smiloReadOnly then { popped with smiloReadOnly := false } else popped

def discard : EVM := { evm with snapshots := evm.snapshots.tail }

def newEVM (publicState : StateDB) (vaultState : Option StateDB) : EVM :=
  push ⟨publicState, vaultState, [], false, 0, 0, false, []⟩ .vaultState

def view : View where
  accounts side := (evm.get side).objects
  refund side := (evm.get side).refund
  current := evm.current
  smiloReadOnly := evm.smiloReadOnly
  depth := evm.depth
  readOnly := evm.readOnly

-- The two checks that the loop of the interpreter makes before an instruction.
def refusal (rules : Rules) (evm : EVM) (i : Instr) : Option Refusal :=
  let transfers := match i with
    | .call _ _ _ value => value ≠ 0
    | _ => false
  if !rules.estimateGas && evm.smiloReadOnly && i.isMutating then some .readOnlyMutateOpcode
  else if evm.readOnly && rules.isByzantium && (i.writes || transfers) then some .writeProtection
  else none

end EVM

-- An instruction is fetched with the contract that runs it and with whether its gas is covered.
inductive Command where
  | look
  | fetch (contract : Contract) (i : Instr) (covered : Bool)
  | push (side : Side)
  | pop
  | enter (readOnly : Bool)
  | leave (readOnly : Bool)
  | snapshot
  | discard
  | revertToSnapshot (side : Side)
  | apply (side : Side) (op : Op)

def Command.Answer : Command → Type
  | .look => View
  | .fetch _ _ _ => Option Refusal
  | .revertToSnapshot _ => Bool
  | .apply _ _ => Bool
  | _ => Unit

abbrev Prog (α : Type) := Program Command Command.Answer α

-- A snapshot is taken on evm.StateDB; a call that goes on without an error leaves it be, which is a discard. Where the
-- answer to a revert or to an operation is false, the source panics.
def handle (pay : Accrual) (blockNumber : Nat) (rules : Rules) : (command : Command) → EVM → command.Answer × EVM
  | .look, evm => (evm.view, evm)
  | .fetch _ i _, evm => (evm.refusal rules i, evm)
  | .push side, evm => ((), evm.push side)
  | .pop, evm => ((), evm.pop)
  | .enter readOnly, evm => ((), { evm with depth := evm.depth + 1, readOnly := evm.readOnly || readOnly })
  | .leave readOnly, evm => ((), { evm with depth := evm.depth - 1, readOnly := readOnly })
  | .snapshot, evm =>
    let taken := (evm.get evm.current).snapshot
    ((), { evm.set evm.current taken.2 with snapshots := taken.1 :: evm.snapshots })
  | .discard, evm => ((), evm.discard)
  | .revertToSnapshot side, evm =>
    match evm.snapshots.head?.bind (evm.get side).revertToSnapshot with
    | none => (false, evm.discard)
    | some s => (true, evm.discard.set side s)
  | .apply side op, evm =>
    match op.apply pay blockNumber (evm.get side) with
    | none => (false, evm)
    | some s => (true, evm.set side s)

namespace Prog

def look : Prog View := .step .look .done
def fetch (contract : Contract) (i : Instr) (covered : Bool) : Prog (Option Refusal) := .step (.fetch contract i covered) .done
def push (side : Side) : Prog Unit := .step (.push side) .done
def pop : Prog Unit := .step .pop .done
def enter (readOnly : Bool) : Prog Unit := .step (.enter readOnly) .done
def leave (readOnly : Bool) : Prog Unit := .step (.leave readOnly) .done
def snapshot : Prog Unit := .step .snapshot .done
def discard : Prog Unit := .step .discard .done
def revertToSnapshot (side : Side) : Prog Bool := .step (.revertToSnapshot side) .done
def apply (side : Side) (op : Op) : Prog Bool := .step (.apply side op) .done

def whenever {α : Type} (c : Bool) (p : Prog α) : Prog Unit := if c then p >>= fun _ => pure () else pure ()

section Run

variable (pay : Accrual) (blockNumber : Nat) (rules : Rules) {α : Type} (evm : EVM)

@[simp] theorem run_look (k : View → Prog α) :
    (look >>= k).run (handle pay blockNumber rules) evm = (k evm.view).run (handle pay blockNumber rules) evm := rfl

end Run

end Prog

end Didux.Vm
