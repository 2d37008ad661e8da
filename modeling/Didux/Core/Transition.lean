import Didux.Vm.Evm

set_option autoImplicit false

namespace Didux.Core

open Sport State Vm Vm.Prog

inductive TxError where
  | invalidGasPrice
  | invalidSender
  | nonceTooHigh
  | nonceTooLow
  | insufficientSmiloPay
  | insufficientBalanceForGas
  | gasLimitReached
  | outOfGas
  | insufficientBalance
  | panic
deriving DecidableEq, Repr

structure Message where
  sender : Address
  recipient : Option Address
  nonce : Nat
  checkNonce : Bool
  gasPrice : Nat
  gas : Nat
  value : Nat
  data : Bytes
  isVault : Bool

-- What a node gets from its vault for the data of a vault message. Without a vault instance there is nothing to ask.
inductive VaultAccess where
  | absent
  | failed
  | payload (data : Bytes)

-- The environment of one message: that of the EVM, the configuration that TransitionDb reads and the coinbase.
structure MessageContext where
  evm : Environment
  isGas : Bool
  isGasRefunded : Bool
  coinbase : Address

structure TransitionResult where
  ret : Bytes
  usedGas : Nat
  failed : Bool
deriving DecidableEq, Repr

structure Transition where
  gp : Nat
  result : Except TxError TransitionResult

def maxUint64 : Nat := 2 ^ 64 - 1
def txGas : Nat := 21000
def txGasContractCreation : Nat := 53000
def txDataNonZeroGas : Nat := 68
def txDataZeroGas : Nat := 4

def intrinsicGas (data : Bytes) (contractCreation homestead : Bool) : Option Nat :=
  let gas := if contractCreation && homestead then txGasContractCreation else txGas
  let nz := (data.filter fun byt => byt ≠ 0).length
  if (maxUint64 - gas) / txDataNonZeroGas < nz then none
  else
    let gas := gas + nz * txDataNonZeroGas
    let z := data.length - nz
    if (maxUint64 - gas) / txDataZeroGas < z then none else some (gas + z * txDataZeroGas)

-- The pool panics above uint64.
def addGas (gp amount : Nat) : Option Nat := if maxUint64 - amount < gp then none else some (gp + amount)

section Message

variable (ctx : MessageContext) (msg : Message)

def bumpNonce : Prog Unit := do
  let view ← look
  let _ ← apply .publicState (.setNonce msg.sender ((view.accounts .publicState).getNonce msg.sender + 1))
  pure ()

def buyGas (gp : Nat) : Prog (Nat × Option TxError) := do
  let view ← look
  let accounts := view.accounts .publicState
  let mgval : Int := msg.gas * msg.gasPrice
  if accounts.getSmiloPay ctx.evm.pay msg.sender ctx.evm.blockNumber < mgval then pure (gp, some .insufficientSmiloPay)
  else if accounts.getBalance msg.sender < mgval then pure (gp, some .insufficientBalanceForGas)
  else if gp < msg.gas then pure (gp, some .gasLimitReached)
  else do
    let _ ← apply .publicState (.subSmiloPay msg.sender mgval)
    let _ ← apply .publicState (.subBalance msg.sender mgval)
    pure (gp - msg.gas, none)

def preCheck (gp : Nat) : Prog (Nat × Option TxError) := do
  let view ← look
  let nonce := (view.accounts .publicState).getNonce msg.sender
  if msg.checkNonce && nonce < msg.nonce then pure (gp, some .nonceTooHigh)
  else if msg.checkNonce && msg.nonce < nonce then pure (gp, some .nonceTooLow)
  else buyGas ctx msg gp

def gasUsed (gas : Nat) : Nat := msg.gas - gas

def refundCounter (view : Vm.View) (gas : Nat) : Nat := min (gasUsed msg gas / 2) (view.refund .publicState)

-- The gas left with the refund in it and the gas pool that gets it back, or a panic of the pool.
def refundGas (gp gas : Nat) : Prog (Option (Nat × Nat)) := do
  let view ← look
  let gas := gas + refundCounter msg view gas
  let _ ← apply .publicState (.addBalance msg.sender (gas * msg.gasPrice))
  pure ((addGas gp gas).map fun gp => (gas, gp))

def refundGasSmiloVersion (gp gas : Nat) : Prog (Option (Nat × Nat)) := do
  let _ ← apply .publicState (.addBalance msg.sender (gasUsed msg gas * msg.gasPrice))
  let view ← look
  let gas := gas + refundCounter msg view gas
  pure ((addGas gp gas).map fun gp => (gas, gp))

-- Give back the gas: all that was used under the whole refund, what is left of it and the fee of the coinbase otherwise.
def giveBack (whole : Bool) (gp gas : Nat) : Prog (Option (Nat × Nat)) :=
  if whole then refundGasSmiloVersion msg gp gas
  else do
    let back ← refundGas msg gp gas
    match back with
    | none => pure none
    | some (gas, gp) => do
        let _ ← apply .publicState (.addBalance ctx.coinbase (gasUsed msg gas * msg.gasPrice))
        pure (some (gas, gp))

-- Give back all the gas where nothing failed on the EVM and the chain is configured for it.
def wholeRefund (out : Outcome) : Bool := out.err = none && ctx.evm.rules.isSmilo && ctx.isGas && ctx.isGasRefunded

def conclude (isVault : Bool) (gp gas : Nat) (out : Outcome) : Prog Transition :=
  if out.err = some .panic then pure ⟨gp, .error .panic⟩
  else if out.err = some .insufficientBalance then pure ⟨gp, .error .insufficientBalance⟩
  else do
    let back ← giveBack ctx msg (wholeRefund ctx out) gp (if isVault then gas else out.gas)
    match back with
    | none => pure ⟨gp, .error .panic⟩
    | some (gas, gp) => pure ⟨gp, .ok ⟨out.ret, if isVault then 0 else gasUsed msg gas, out.err ≠ none⟩⟩

def runEvm (data : Bytes) (gas : Nat) : Prog Outcome :=
  match msg.recipient with
  | none => ctx.evm.create msg.sender data gas msg.value
  | some addr => ctx.evm.call msg.sender addr data gas msg.value

-- The call or the creation, on the gas that is left after the intrinsic one. A vault call without input ends early.
def deliver (isVault : Bool) (data : Bytes) (gp gas : Nat) : Prog Transition :=
  if msg.recipient.isSome && data = [] && isVault then do
    let back ← giveBack ctx msg (ctx.evm.rules.isSmilo && ctx.isGas) gp gas
    match back with
    | none => pure ⟨gp, .error .panic⟩
    | some (_, gp) => pure ⟨gp, .ok ⟨[], 0, false⟩⟩
  else do
    let out ← runEvm ctx msg data gas
    conclude ctx msg isVault gp gas out

-- The rest of TransitionDb once the data is known. The nonce of a call is incremented here unless the message is a vault
-- one; create does it on its own.
def execute (isVault : Bool) (data : Bytes) (gp : Nat) : Prog Transition :=
  match intrinsicGas msg.data msg.recipient.isNone ctx.evm.rules.isHomestead with
  | none => pure ⟨gp, .error .outOfGas⟩
  | some cost =>
    if msg.gas < cost then pure ⟨gp, .error .outOfGas⟩
    else do
      whenever (msg.recipient.isSome && !isVault) (bumpNonce msg)
      deliver ctx msg isVault data gp (msg.gas - cost)

def transitionDb (access : VaultAccess) (gp : Nat) : Prog Transition := do
  let checked ← preCheck ctx msg gp
  match checked with
  | (gp, some e) => pure ⟨gp, .error e⟩
  | (gp, none) =>
    if ctx.evm.rules.isSmilo && msg.isVault then
      match access with
      | .absent | .failed => do
          bumpNonce msg
          pure ⟨gp, .ok ⟨[], 0, false⟩⟩
      | .payload data => do
          whenever msg.recipient.isSome (bumpNonce msg)
          execute ctx msg true data gp
    else execute ctx msg false msg.data gp

theorem transition_plain (first second : VaultAccess) (gp : Nat) (plain : (ctx.evm.rules.isSmilo && msg.isVault) = false) :
    transitionDb ctx msg first gp = transitionDb ctx msg second gp := by
  simp only [transitionDb, plain, Bool.false_eq_true, if_false]

end Message

section Run

variable (ctx : MessageContext) (msg : Message)

def runIn {α : Type} (p : Prog α) (evm : EVM) : α × EVM :=
  p.run (handle ctx.evm.pay ctx.evm.blockNumber ctx.evm.rules) evm

theorem run_in_bind {α β : Type} (p : Prog α) (k : α → Prog β) (evm : EVM) :
    runIn ctx (p >>= k) evm = runIn ctx (k (runIn ctx p evm).1) (runIn ctx p evm).2 := Program.run_bind _ p k evm

def paid (a : Address) (amount : Int) (evm : EVM) : EVM := (runIn ctx (apply .publicState (.addBalance a amount)) evm).2

theorem give_back_whole (gp gas : Nat) (evm : EVM) : runIn ctx (giveBack ctx msg true gp gas) evm =
      let after := paid ctx msg.sender (gasUsed msg gas * msg.gasPrice) evm
      let left := gas + refundCounter msg after.view gas
      ((addGas gp left).map fun gp => (left, gp), after) := rfl

theorem give_back_plain (gp gas : Nat) (evm : EVM) : runIn ctx (giveBack ctx msg false gp gas) evm =
      let left := gas + refundCounter msg evm.view gas
      let refunded := paid ctx msg.sender (left * msg.gasPrice) evm
      match addGas gp left with
      | none => (none, refunded)
      | some gp => (some (left, gp), paid ctx ctx.coinbase (gasUsed msg left * msg.gasPrice) refunded) := by
  have first : runIn ctx (giveBack ctx msg false gp gas) evm =
      let left := gas + refundCounter msg evm.view gas
      runIn ctx (match (addGas gp left).map fun gp => (left, gp) with
        | none => pure none
        | some (gas, gp) => do
            let _ ← apply .publicState (.addBalance ctx.coinbase (gasUsed msg gas * msg.gasPrice))
            pure (some (gas, gp)))
        (paid ctx msg.sender (left * msg.gasPrice) evm) := rfl
  rw [first]
  dsimp only
  cases addGas gp (gas + refundCounter msg evm.view gas) <;> rfl

def deposited (evm : EVM) : EVM :=
  { evm with
    publicState := (evm.publicState.subSmiloPay ctx.evm.pay msg.sender (msg.gas * msg.gasPrice) ctx.evm.blockNumber).subBalance
      ctx.evm.pay msg.sender (msg.gas * msg.gasPrice) ctx.evm.blockNumber }

def Affords (evm : EVM) (gp : Nat) : Prop :=
  (msg.gas * msg.gasPrice : Int) ≤ evm.publicState.objects.getSmiloPay ctx.evm.pay msg.sender ctx.evm.blockNumber ∧
  (msg.gas * msg.gasPrice : Int) ≤ evm.publicState.objects.getBalance msg.sender ∧ msg.gas ≤ gp

theorem buy_gas_cases (gp : Nat) (evm : EVM) :
    (¬Affords ctx msg evm gp ∧ ∃ e, runIn ctx (buyGas ctx msg gp) evm = ((gp, some e), evm)) ∨
    (Affords ctx msg evm gp ∧ runIn ctx (buyGas ctx msg gp) evm = ((gp - msg.gas, none), deposited ctx msg evm)) := by
  unfold runIn buyGas
  rw [run_look]
  dsimp only
  split
  · rename_i smiloPay
    exact .inl ⟨fun affords => Int.not_le.mpr smiloPay affords.1, _, rfl⟩
  · rename_i smiloPay
    split
    · rename_i balance
      exact .inl ⟨fun affords => Int.not_le.mpr balance affords.2.1, _, rfl⟩
    · rename_i balance
      split
      · rename_i pool
        exact .inl ⟨fun affords => Nat.not_le.mpr pool affords.2.2, _, rfl⟩
      · rename_i pool
        exact .inr ⟨⟨Int.not_lt.mp smiloPay, Int.not_lt.mp balance, Nat.not_lt.mp pool⟩, rfl⟩

structure Passes (evm : EVM) (gp : Nat) : Prop where
  nonce : msg.checkNonce = true → evm.publicState.objects.getNonce msg.sender = msg.nonce
  affords : Affords ctx msg evm gp

theorem pre_check_cases (gp : Nat) (evm : EVM) :
    (¬Passes ctx msg evm gp ∧ ∃ e, runIn ctx (preCheck ctx msg gp) evm = ((gp, some e), evm)) ∨
    (Passes ctx msg evm gp ∧ runIn ctx (preCheck ctx msg gp) evm = ((gp - msg.gas, none), deposited ctx msg evm)) := by
  have look : runIn ctx (preCheck ctx msg gp) evm =
      if msg.checkNonce && evm.publicState.objects.getNonce msg.sender < msg.nonce then ((gp, some .nonceTooHigh), evm)
      else if msg.checkNonce && msg.nonce < evm.publicState.objects.getNonce msg.sender then ((gp, some .nonceTooLow), evm)
      else runIn ctx (buyGas ctx msg gp) evm := by
    unfold runIn preCheck
    rw [run_look]
    simp only [Program.run_ite]
    rfl
  rw [look]
  split
  · rename_i high
    simp only [Bool.and_eq_true, decide_eq_true_eq] at high
    exact .inl ⟨fun passes => Nat.ne_of_lt high.2 (passes.nonce high.1), _, rfl⟩
  · rename_i high
    split
    · rename_i low
      simp only [Bool.and_eq_true, decide_eq_true_eq] at low
      exact .inl ⟨fun passes => Nat.ne_of_gt low.2 (passes.nonce low.1), _, rfl⟩
    · rename_i low
      rcases buy_gas_cases ctx msg gp evm with ⟨poor, refused⟩ | ⟨affords, bought⟩
      · exact .inl ⟨fun passes => poor passes.affords, refused⟩
      · refine .inr ⟨⟨?_, affords⟩, bought⟩
        intro checked
        simp only [checked, Bool.true_and, decide_eq_true_eq] at high low
        omega

theorem transition_refused (access : VaultAccess) (gp : Nat) (evm : EVM) (refused : ¬Passes ctx msg evm gp) :
    ∃ e, runIn ctx (transitionDb ctx msg access gp) evm = (⟨gp, .error e⟩, evm) := by
  rcases pre_check_cases ctx msg gp evm with ⟨_, e, stopped⟩ | ⟨passed, _⟩
  · refine ⟨e, ?_⟩
    unfold transitionDb
    rw [run_in_bind, stopped]
    rfl
  · exact absurd passed refused

end Run

end Didux.Core
