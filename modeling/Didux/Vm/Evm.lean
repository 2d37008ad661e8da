import Didux.Vm.Machine

set_option autoImplicit false

namespace Didux.Vm

open Sport State

-- What bytecode does, unrolled. `use` is an instruction that only costs gas, `look` one that reads, `instr` one that
-- writes or calls: it is charged its two portions of gas, next to what it hands to a callee. A loop is a tree as deep
-- as the gas of the contract lets it run.
inductive Code where
  | stop (ret : Bytes)
  | revert (ret : Bytes)
  | fail
  | use (gas : Nat) (next : Code)
  | look (next : View → Nat → Code)
  | instr (i : Instr) (constantGas dynamicGas : Nat) (next : Outcome → Code)

structure Precompile where
  requiredGas : Bytes → Nat
  run : Bytes → Option Bytes

-- The chain rules, the block, and what is not in the modelled part of the source: the meaning of bytecode, the
-- precompiled contracts and the derivation of addresses.
structure Environment where
  pay : Accrual
  blockNumber : Nat
  rules : Rules
  precompiles : Address → Option Precompile
  createAddress : Address → Nat → Address
  createAddress2 : Address → Hash → Bytes → Address
  machine : Contract → Code

def callCreateDepth : Nat := 1024
def callStipend : Nat := 2300
def callValueTransferGas : Nat := 9000
def createDataGas : Nat := 200
def maxCodeSize : Nat := 24576

def failure (gas : Nat) (e : VMError) : Outcome := ⟨[], 0, gas, some e⟩

namespace View

def getPrivateOrPublicStateDB (view : View) (addr : Address) : Bool × Side :=
  if (view.accounts .vaultState).exist addr then (true, .vaultState)
  else if (view.accounts .publicState).exist addr then (false, .publicState)
  else (false, view.current)

def canTransfer (view : View) (side : Side) (addr : Address) (amount : Nat) : Bool :=
  (amount : Int) ≤ (view.accounts side).getBalance addr

end View

namespace Instr

def charged : Instr → Nat
  | .call _ _ gas value | .callCode _ _ gas value => gas + if value = 0 then 0 else callValueTransferGas
  | .delegateCall _ _ gas | .staticCall _ _ gas => gas
  | _ => 0

def handed (rules : Rules) (left : Nat) : Instr → Nat × Nat
  | .create _ _ => if rules.isEIP150 then (left / 64, left - left / 64) else (0, left)
  | .create2 _ _ _ => (left / 64, left - left / 64)
  | .call _ _ gas value | .callCode _ _ gas value => (left, gas + if value = 0 then 0 else callStipend)
  | .delegateCall _ _ gas | .staticCall _ _ gas => (left, gas)
  | _ => (left, 0)

end Instr

open Prog

-- The refunds of an instruction go to evm.StateDB. The counter panics below zero.
def refundAll (side : Side) : List Refund → Prog Bool
  | [] => pure true
  | .add gas :: rest => do
      let _ ← apply side (.addRefund gas)
      refundAll side rest
  | .sub gas :: rest => do
      let ok ← apply side (.subRefund gas)
      if ok then refundAll side rest else pure false

def transfer (side : Side) (sender recipient : Address) (amount : Nat) : Prog Unit := do
  let _ ← apply side (.subBalance sender amount)
  let _ ← apply side (.addBalance recipient amount)
  pure ()

def write (contract : Contract) : Instr → Prog Unit
  | .sstore key value _ => do
      let view ← look
      let _ ← apply (view.getPrivateOrPublicStateDB contract.address).2 (.setState contract.address key value)
      pure ()
  | .log topics data => do
      let view ← look
      let _ ← apply view.current (.addLog contract.address topics data)
      pure ()
  | .selfdestruct beneficiary _ => do
      let view ← look
      let side := (view.getPrivateOrPublicStateDB contract.address).2
      let _ ← apply side (.addBalance beneficiary ((view.accounts side).getBalance contract.address))
      let _ ← apply side (.suicide contract.address)
      pure ()
  | _ => pure ()

inductive Performed where
  | halted (out : Outcome)
  | next (result : Outcome) (gas : Nat)

-- One round of the loop of the interpreter. `invoke` runs a call; its errors reach the caller as a zero on the stack only.
def perform (rules : Rules) (invoke : Contract → Instr → Nat → Prog Outcome) (contract : Contract) (i : Instr)
    (constantGas dynamicGas gas : Nat) : Prog Performed := do
  let refused ← fetch contract i (constantGas + (dynamicGas + i.charged) ≤ gas)
  match refused with
  | some e => pure (.halted (failure gas (.refused e)))
  | none =>
    if gas < constantGas then pure (.halted (failure gas .outOfGas))
    else do
      let view ← look
      let ok ← refundAll view.current i.refunds
      if !ok then pure (.halted (failure gas .panic))
      else if gas - constantGas < dynamicGas + i.charged then pure (.halted (failure (gas - constantGas) .outOfGas))
      else
        let left := gas - constantGas - (dynamicGas + i.charged)
        match i with
        | .sstore _ _ _ | .log _ _ => do
            write contract i
            pure (.next ⟨[], 0, 0, none⟩ left)
        | .selfdestruct _ _ => do
            write contract i
            pure (.halted ⟨[], 0, left, none⟩)
        | _ => do
            let out ← invoke contract i (i.handed rules left).2
            if out.err = some .panic then pure (.halted out) else pure (.next out ((i.handed rules left).1 + out.gas))

def exec (rules : Rules) (invoke : Contract → Instr → Nat → Prog Outcome) (contract : Contract) : Code → Nat → Prog Outcome
  | .stop ret, gas => pure ⟨ret, 0, gas, none⟩
  | .revert ret, gas => pure ⟨ret, 0, gas, some .executionReverted⟩
  | .fail, gas => pure (failure gas .other)
  | .use cost next, gas => if gas < cost then pure (failure gas .outOfGas) else exec rules invoke contract next (gas - cost)
  | .look next, gas => do
      let view ← look
      exec rules invoke contract (next view gas) gas
  | .instr i constantGas dynamicGas next, gas => do
      let performed ← perform rules invoke contract i constantGas dynamicGas gas
      match performed with
      | .halted out => pure out
      | .next result gas => exec rules invoke contract (next result) gas

-- A call runs with the state that holds its callee pushed, and pops it when it returns.
def within (addr : Address) (body : Bool → Prog Outcome) : Prog Outcome := do
  let view ← look
  push (view.getPrivateOrPublicStateDB addr).2
  let out ← body (view.getPrivateOrPublicStateDB addr).1
  pop
  pure out

section Calls

variable (env : Environment) (invoke : Contract → Instr → Nat → Prog Outcome)

-- run and EVMInterpreter.Run: precompiled contracts do not enter the interpreter.
def run (contract : Contract) (readOnly : Bool) : Prog Outcome :=
  match env.precompiles contract.codeAddr with
  | some p =>
    if contract.gas < p.requiredGas contract.input then pure (failure contract.gas .outOfGas)
    else
      match p.run contract.input with
      | some ret => pure ⟨ret, 0, contract.gas - p.requiredGas contract.input, none⟩
      | none => pure (failure (contract.gas - p.requiredGas contract.input) .other)
  | none => do
      let view ← look
      enter readOnly
      let out ← exec env.rules invoke contract (if contract.code = [] then .stop [] else env.machine contract) contract.gas
      leave view.readOnly
      pure out

def settle (side : Side) (out : Outcome) : Prog Outcome :=
  match out.err with
  | none => do
      discard
      pure out
  | some .panic => pure out
  | some e => do
      let ok ← revertToSnapshot side
      if ok then pure { out with gas := if e = .executionReverted then out.gas else 0 } else pure (failure 0 .panic)

def runCode (contract : Contract) : Prog Outcome := do
  let view ← look
  let out ← run env invoke { contract with code := (view.accounts view.current).getCode contract.codeAddr } false
  settle view.current out

-- Call after its checks of the depth and of the balance, which saw `view`.
def callChecked (view : View) (isVault : Bool) (caller addr : Address) (input : Bytes) (gas value : Nat) : Prog Outcome := do
  let absent := !(view.accounts view.current).exist addr
  snapshot
  if absent && (env.precompiles addr).isNone && env.rules.isEIP158 && value = 0 then do
    discard
    pure ⟨[], 0, gas, none⟩
  else do
    whenever absent (apply view.current (.createAccount addr))
    if env.rules.isSmilo && value ≠ 0 && view.smiloReadOnly && isVault then do
      discard
      pure (failure gas .readOnlyValueTransfer)
    else do
      whenever (!env.rules.isSmilo || value ≠ 0) (transfer .publicState caller addr value)
      runCode env invoke ⟨caller, addr, addr, [], input, value, gas⟩

def callCurrent (isVault : Bool) (caller addr : Address) (input : Bytes) (gas value : Nat) : Prog Outcome := do
  let view ← look
  if callCreateDepth < view.depth then pure (failure gas .depth)
  else if !view.canTransfer .publicState caller value then pure (failure gas .insufficientBalance)
  else callChecked env invoke view isVault caller addr input gas value

variable (caller addr : Address) (input : Bytes) (gas value : Nat)

def call : Prog Outcome :=
  within addr fun isVault => callCurrent env invoke isVault caller addr input gas value

-- CallCode and DelegateCall run the code of an address with the caller as context.
def callCodeCurrent : Prog Outcome := do
  let view ← look
  if callCreateDepth < view.depth then pure (failure gas .depth)
  else if !view.canTransfer view.current caller value then pure (failure gas .insufficientBalance)
  else do
    snapshot
    runCode env invoke ⟨caller, caller, addr, [], input, value, gas⟩

def callCode : Prog Outcome :=
  within addr fun _ => callCodeCurrent env invoke caller addr input gas value

def delegateCallCurrent (parent : Contract) (addr : Address) (input : Bytes) (gas : Nat) : Prog Outcome := do
  let view ← look
  if callCreateDepth < view.depth then pure (failure gas .depth)
  else do
    snapshot
    runCode env invoke ⟨parent.caller, parent.address, addr, [], input, parent.value, gas⟩

def delegateCall (parent : Contract) (addr : Address) (input : Bytes) (gas : Nat) : Prog Outcome :=
  within addr fun _ => delegateCallCurrent env invoke parent addr input gas

-- The snapshot is one of evm.StateDB, while the state that is touched and reverted is the one that holds the callee.
def staticCall (gas : Nat) : Prog Outcome := do
  let view ← look
  if callCreateDepth < view.depth then pure (failure gas .depth)
  else do
    let side := (view.getPrivateOrPublicStateDB addr).2
    snapshot
    let code := (view.accounts side).getCode addr
    let _ ← apply side (.addBalance addr 0)
    let out ← run env invoke ⟨caller, addr, addr, code, input, 0, gas⟩ true
    settle side out

-- Storing the code, and what create does with the result. The source reverts here under other conditions than a call.
def storeCode (address : Address) (out : Outcome) : Prog Outcome := do
  let view ← look
  let maxCodeSizeExceeded := env.rules.isEIP158 && maxCodeSize < out.ret.length
  let stores := out.err = none && !maxCodeSizeExceeded
  let paid := createDataGas * out.ret.length ≤ out.gas
  whenever (stores && paid) (apply view.current (.setCode address out.ret))
  let err := if stores && !paid then some .codeStoreOutOfGas else out.err
  let gas := if stores && paid then out.gas - createDataGas * out.ret.length else out.gas
  if out.err = some .panic then pure out
  else if maxCodeSizeExceeded || (err ≠ none && (env.rules.isHomestead || err ≠ some .codeStoreOutOfGas)) then do
    let ok ← revertToSnapshot view.current
    if ok then
      pure ⟨out.ret, address, if err = some .executionReverted then gas else 0,
        if maxCodeSizeExceeded && err = none then some .maxCodeSizeExceeded else err⟩
    else pure (failure 0 .panic)
  else do
    discard
    pure ⟨out.ret, address, gas, err⟩

-- create after its checks of the depth and of the balance, which saw `view`, and after the nonce of the creator. Outside
-- Smilo chains the value goes to contractAddr, which is still the zero address.
def createChecked (view : View) (caller : Address) (code : Bytes) (gas value : Nat) (address : Address) : Prog Outcome := do
  let accounts := view.accounts view.current
  if accounts.getNonce address ≠ 0 || accounts.getCode address ≠ [] then pure (failure 0 .contractAddressCollision)
  else do
    snapshot
    let _ ← apply view.current (.createAccount address)
    whenever env.rules.isEIP158 (apply view.current (.setNonce address 1))
    if env.rules.isSmilo && value ≠ 0 && view.smiloReadOnly && 0 < view.depth then do
      discard
      pure (failure gas .readOnlyValueTransfer)
    else do
      let recipient := if env.rules.isSmilo then address else 0
      whenever (!env.rules.isSmilo || value ≠ 0) (transfer view.current caller recipient value)
      let out ← run env invoke ⟨caller, address, address, code, [], value, gas⟩ false
      storeCode env address out

def createAt (caller : Address) (code : Bytes) (gas value : Nat) (address : Address) : Prog Outcome := do
  let view ← look
  if callCreateDepth < view.depth then pure (failure gas .depth)
  else if !view.canTransfer view.current caller value then pure (failure gas .insufficientBalance)
  else do
    let creator := if 0 < view.depth then Side.vaultState else .publicState
    let _ ← apply creator (.setNonce caller ((view.accounts creator).getNonce caller + 1))
    let view ← look
    createChecked env invoke view caller code gas value address

def create (caller : Address) (code : Bytes) (gas value : Nat) : Prog Outcome := do
  let view ← look
  let creator := if 0 < view.depth then Side.vaultState else .publicState
  createAt env invoke caller code gas value (env.createAddress caller ((view.accounts creator).getNonce caller))

def create2 (caller : Address) (code : Bytes) (gas value : Nat) (salt : Hash) : Prog Outcome :=
  createAt env invoke caller code gas value (env.createAddress2 caller salt code)

end Calls

-- The call instructions, as deep as `fuel`. A machine at depth 0 runs out of call depth before it runs out of fuel.
def invoke (env : Environment) : Nat → Contract → Instr → Nat → Prog Outcome
  | 0, _, _, gas => pure (failure gas .depth)
  | fuel + 1, parent, i, gas => match i with
    | .call addr input _ value => call env (invoke env fuel) parent.address addr input gas value
    | .callCode addr input _ value => callCode env (invoke env fuel) parent.address addr input gas value
    | .delegateCall addr input _ => delegateCall env (invoke env fuel) parent addr input gas
    | .staticCall addr input _ => staticCall env (invoke env fuel) parent.address addr input gas
    | .create value code => create env (invoke env fuel) parent.address code gas value
    | .create2 value code salt => create2 env (invoke env fuel) parent.address code gas value salt
    | .sstore _ _ _ | .log _ _ | .selfdestruct _ _ => pure (failure gas .other)

namespace Environment

variable (env : Environment)

def call (caller addr : Address) (input : Bytes) (gas value : Nat) : Prog Outcome :=
  Vm.call env (invoke env (callCreateDepth + 1)) caller addr input gas value

def create (caller : Address) (code : Bytes) (gas value : Nat) : Prog Outcome :=
  Vm.create env (invoke env (callCreateDepth + 1)) caller code gas value

end Environment

end Didux.Vm
