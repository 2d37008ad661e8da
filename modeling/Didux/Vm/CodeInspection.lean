import Didux.Vm.Invariant

set_option autoImplicit false

namespace Didux.State.Accounts

open Sport

def empty (accounts : Accounts) (a : Address) : Bool := (accounts a).all Object.empty

def getCodeHash (keccak : Bytes → Hash) (accounts : Accounts) (a : Address) : Hash :=
  ((accounts a).map fun o => keccak o.code).getD 0

end Didux.State.Accounts

namespace Didux.Vm

open Sport State Prog

def getDataBig (data : Bytes) (start size : Nat) : Bytes := ((data.drop start).take size).rightpad size 0

namespace View

variable (view : View) (addr : Address)

-- The accounts of the state that getPrivateOrPublicStateDB finds the address in.
def holding : Accounts := view.accounts (view.getPrivateOrPublicStateDB addr).2

def extCodeSize : Nat := ((view.holding addr).getCode addr).length

def extCodeCopy (codeOffset length : Nat) : Bytes := getDataBig ((view.holding addr).getCode addr) codeOffset length

def extCodeHash (keccak : Bytes → Hash) : Hash :=
  if (view.accounts view.current).empty addr then 0 else (view.accounts view.current).getCodeHash keccak addr

end View

def callReturns (env : Environment) (evm : EVM) (caller addr : Address) (value : Nat) : Bool :=
  let found := evm.view.getPrivateOrPublicStateDB addr
  let view := (evm.push found.2).view
  callCreateDepth < view.depth || !view.canTransfer .publicState caller value ||
    (!(view.accounts view.current).exist addr && (env.precompiles addr).isNone && env.rules.isEIP158 && value = 0) ||
    (env.rules.isSmilo && value ≠ 0 && view.smiloReadOnly && found.1)

def runSettled (env : Environment) (invoke : Contract → Instr → Nat → Prog Outcome) (contract : Contract) (side : Side) :
    Prog Outcome := do
  let out ← run env invoke contract false
  let out ← settle side out
  pop
  pure out

structure Attributes (keccak : Bytes → Hash) (evm : EVM) (addr : Address) (code : Bytes) : Prop where
  size : evm.view.extCodeSize addr = code.length
  copied : ∀ codeOffset length, evm.view.extCodeCopy addr codeOffset length = getDataBig code codeOffset length
  hashed : (evm.view.holding addr).empty addr = false → evm.view.extCodeHash addr keccak = keccak code
  absent : evm.view.extCodeHash addr keccak = 0 ↔ (evm.view.holding addr).empty addr = true
  called : ∀ env invoke caller input gas value, callReturns env evm caller addr value = false →
    ∃ started : EVM, started.current = (evm.view.getPrivateOrPublicStateDB addr).2 ∧
      (call env invoke caller addr input gas value).run (handle env.pay env.blockNumber env.rules) evm =
        (runSettled env invoke ⟨caller, addr, addr, code, input, value, gas⟩ started.current).run
          (handle env.pay env.blockNumber env.rules) started

theorem get_data_whole (data : Bytes) : getDataBig data 0 data.length = data := by
  simp [getDataBig]

def SameCode (addr : Address) (evm next : EVM) : Prop :=
  next.current = evm.current ∧ ∀ side, (next.get side).objects.getCode addr = (evm.get side).objects.getCode addr

variable {addr a : Address} {evm : EVM} {s : StateDB} {pay : Accrual} {amount : Int} {blockNumber : Nat}

theorem write_code {change : Object → Change} {f : Object → Object}
    (kept : ∀ o, (f o).code = o.code) : (s.write a change f).objects.getCode addr = s.objects.getCode addr := by
  unfold StateDB.write
  cases there : s.objects a with
  | none => rfl
  | some o =>
    by_cases here : addr = a
    · subst a
      simp [StateDB.modify, StateDB.append, Accounts.getCode, there, kept]
    · simp [StateDB.modify, StateDB.append, Accounts.getCode, here]

theorem create_object_code (fresh : s.objects a = none) : (s.createObject a).objects.getCode addr = s.objects.getCode addr := by
  by_cases here : addr = a
  · subst a
    simp [StateDB.createObject, Accounts.getCode, fresh, newObject]
  · simp [StateDB.createObject, Accounts.getCode, here]

theorem get_or_new_code : (s.getOrNewStateObject a).objects.getCode addr = s.objects.getCode addr := by
  unfold StateDB.getOrNewStateObject
  cases there : s.objects a with
  | none => exact create_object_code there
  | some o => rfl

theorem update_code : (StateObject.updateSmiloPay pay s a blockNumber).objects.getCode addr = s.objects.getCode addr :=
  write_code fun _ => rfl

theorem set_balance_code : (StateObject.setBalance pay s a amount blockNumber).objects.getCode addr = s.objects.getCode addr := by
  refine Eq.trans (write_code ?_) update_code
  exact fun _ => rfl

theorem sub_balance_code : (s.subBalance pay a amount blockNumber).objects.getCode addr = s.objects.getCode addr := by
  unfold StateDB.subBalance StateObject.subBalance
  split_ifs
  · exact get_or_new_code
  · exact set_balance_code.trans get_or_new_code

theorem add_balance_code : (s.addBalance pay a amount blockNumber).objects.getCode addr = s.objects.getCode addr := by
  unfold StateDB.addBalance StateObject.addBalance StateObject.touch
  split_ifs
  · exact (write_code fun _ => rfl).trans get_or_new_code
  · exact (write_code fun _ => rfl).trans get_or_new_code
  · exact get_or_new_code
  · exact set_balance_code.trans (update_code.trans get_or_new_code)

theorem create_account_code (fresh : s.objects a = none) : (s.createAccount a).objects.getCode addr = s.objects.getCode addr := by
  by_cases here : addr = a
  · subst a
    simp [StateDB.createAccount, StateDB.modify, StateDB.createObject, Accounts.getCode, fresh, newObject]
  · simp [StateDB.createAccount, StateDB.modify, StateDB.createObject, Accounts.getCode, here]

theorem SameCode.trans {middle next : EVM} (first : SameCode addr evm middle) (second : SameCode addr middle next) :
    SameCode addr evm next :=
  ⟨second.1.trans first.1, fun side => (second.2 side).trans (first.2 side)⟩

theorem same_code_set {side : Side} (kept : s.objects.getCode addr = (evm.get side).objects.getCode addr) :
    SameCode addr evm (evm.set side s) := by
  refine ⟨EVM.set_current, fun other => ?_⟩
  rcases EVM.get_set evm side other s with ⟨here, shared⟩ | same
  · rw [here, shared, kept]
  · rw [same]

section Steps

variable {rules : Rules}

theorem transfer_same_code {side : Side} {sender recipient : Address} {amount : Nat} :
    SameCode addr evm ((transfer side sender recipient amount).run (handle pay blockNumber rules) evm).2 :=
  (same_code_set sub_balance_code).trans (same_code_set add_balance_code)

theorem whenever_same_code {α : Type} {c : Bool} {p : Prog α}
    (kept : c = true → SameCode addr evm (p.run (handle pay blockNumber rules) evm).2) :
    SameCode addr evm ((whenever c p).run (handle pay blockNumber rules) evm).2 := by
  cases c with
  | false => exact ⟨rfl, fun _ => rfl⟩
  | true =>
    rw [whenever, if_pos rfl, Program.run_bind]
    exact kept rfl

end Steps

theorem call_runs_code {env : Environment} {invoke : Contract → Instr → Nat → Prog Outcome} {caller : Address} {input : Bytes}
    {gas value : Nat} (goes : callReturns env evm caller addr value = false) :
    ∃ started : EVM, started.current = (evm.view.getPrivateOrPublicStateDB addr).2 ∧
      (call env invoke caller addr input gas value).run (handle env.pay env.blockNumber env.rules) evm =
        (runSettled env invoke ⟨caller, addr, addr, (evm.view.holding addr).getCode addr, input, value, gas⟩ started.current).run
          (handle env.pay env.blockNumber env.rules) started := by
  let side := (evm.view.getPrivateOrPublicStateDB addr).2
  let pushed := evm.push side
  have current : pushed.current = side := by
    simp only [pushed, EVM.push]
    split_ifs <;> rfl
  have same : ∀ other, pushed.get other = evm.get other := by
    intro other
    simp only [pushed, EVM.push]
    cases other <;> split_ifs <;> rfl
  simp only [callReturns, Bool.or_eq_false_iff, decide_eq_false_iff_not] at goes
  obtain ⟨⟨⟨shallow, solvent⟩, stays⟩, allowed⟩ := goes
  let absent := !(pushed.view.accounts pushed.view.current).exist addr
  let h := handle env.pay env.blockNumber env.rules
  let opened := (snapshot.run h pushed).2
  let made := ((whenever absent (apply pushed.current (.createAccount addr))).run h opened).2
  let started := ((whenever (!env.rules.isSmilo || value ≠ 0) (transfer .publicState caller addr value)).run h made).2
  have untouched : ∀ other, (opened.get other).objects = (pushed.get other).objects := by
    intro other
    have taken : opened.get other = (pushed.set pushed.current (pushed.get pushed.current).snapshot.2).get other := by
      cases other <;> rfl
    rcases EVM.get_set pushed pushed.current other (pushed.get pushed.current).snapshot.2 with ⟨here, shared⟩ | kept
    · rw [taken, here, shared]
      rfl
    · rw [taken, kept]
  have first : SameCode addr pushed opened :=
    ⟨EVM.set_current, fun other => congrArg (Accounts.getCode · addr) (untouched other)⟩
  have second : SameCode addr opened made := by
    refine whenever_same_code fun missing => same_code_set (create_account_code ?_)
    have missing : pushed.view.accounts pushed.view.current addr = none := by simpa [absent, Accounts.exist] using missing
    rw [untouched]
    exact missing
  have third : SameCode addr made started := whenever_same_code fun _ => transfer_same_code
  have kept := (first.trans second).trans third
  refine ⟨started, kept.1.trans current, ?_⟩
  have code : (started.view.accounts started.view.current).getCode addr = (evm.view.holding addr).getCode addr := by
    refine (kept.2 started.current).trans ?_
    rw [kept.1, current, same]
    rfl
  have checked : (callCurrent env invoke (evm.view.getPrivateOrPublicStateDB addr).1 caller addr input gas value).run h pushed =
      (runCode env invoke ⟨caller, addr, addr, [], input, value, gas⟩).run h started := by
    rw [callCurrent, run_look, if_neg shallow, if_neg (Bool.eq_false_iff.mp solvent), callChecked, Program.run_bind]
    rw [if_neg (Bool.eq_false_iff.mp stays), Program.run_bind, if_neg (Bool.eq_false_iff.mp allowed), Program.run_bind]
    rfl
  rw [call, within, run_look, Program.run_bind, Program.run_bind, show (Program.run _ (push _) evm).2 = pushed from rfl,
    checked, runCode, run_look, code]
  simp only [runSettled, Program.run_bind]
  rfl

theorem empty_code {accounts : Accounts} (empty : accounts.empty addr = true) : accounts.getCode addr = [] := by
  unfold Accounts.empty at empty
  unfold Accounts.getCode
  cases there : accounts addr with
  | none => rfl
  | some o =>
    rw [there, Option.all_some, Object.empty, Bool.and_eq_true_iff, decide_eq_true_eq] at empty
    exact empty.2

variable (keccak : Bytes → Hash)

theorem filled_hash {accounts : Accounts} (filled : accounts.empty addr = false) :
    accounts.getCodeHash keccak addr = keccak (accounts.getCode addr) := by
  unfold Accounts.empty at filled
  unfold Accounts.getCodeHash Accounts.getCode
  cases there : accounts addr with
  | none => simp [there] at filled
  | some o => rfl

theorem ext_code_hash_zero (nonzero : ∀ code, keccak code ≠ 0) (view : View) :
    view.extCodeHash addr keccak = 0 ↔ (view.accounts view.current).empty addr = true := by
  unfold View.extCodeHash
  cases empty : (view.accounts view.current).empty addr with
  | true => simp
  | false =>
    simp only [Bool.false_eq_true, iff_false]
    rw [filled_hash keccak empty]
    exact nonzero _

-- EXTCODEHASH reads evm.StateDB and the others the state that holds the address.
theorem code_inspection_iff (keccak : Bytes → Hash) (nonzero : ∀ code, keccak code ≠ 0) (evm : EVM) (addr : Address)
    (apart : keccak ((evm.view.accounts evm.current).getCode addr) = keccak ((evm.view.holding addr).getCode addr) →
      (evm.view.accounts evm.current).getCode addr = (evm.view.holding addr).getCode addr) :
    (∃ code, Attributes keccak evm addr code) ↔
      (evm.view.accounts evm.current).empty addr = (evm.view.holding addr).empty addr ∧
        (evm.view.accounts evm.current).getCode addr = (evm.view.holding addr).getCode addr := by
  have zero : evm.view.extCodeHash addr keccak = 0 ↔ (evm.view.accounts evm.view.current).empty addr = true :=
    ext_code_hash_zero keccak nonzero evm.view
  constructor
  · rintro ⟨code, attributes⟩
    have found : (evm.view.holding addr).getCode addr = code := by
      have whole := attributes.copied 0 (evm.view.extCodeSize addr)
      rw [attributes.size, get_data_whole, View.extCodeCopy, ← attributes.size, View.extCodeSize, get_data_whole] at whole
      exact whole
    have empties : (evm.view.accounts evm.current).empty addr = (evm.view.holding addr).empty addr :=
      Bool.eq_iff_iff.mpr (zero.symm.trans attributes.absent)
    refine ⟨empties, ?_⟩
    cases empty : (evm.view.holding addr).empty addr with
    | true => rw [empty_code empty, empty_code (empties.trans empty)]
    | false =>
      have hashed := attributes.hashed empty
      rw [View.extCodeHash, show evm.view.current = evm.current from rfl, empties, empty, if_neg Bool.false_ne_true,
        filled_hash keccak (empties.trans empty), ← found] at hashed
      exact apart hashed
  · rintro ⟨empties, codes⟩
    refine ⟨(evm.view.holding addr).getCode addr, rfl, fun _ _ => rfl, ?_, ?_, fun _ _ _ _ _ _ => call_runs_code⟩
    · intro filled
      rw [View.extCodeHash, show evm.view.current = evm.current from rfl, empties, filled, if_neg Bool.false_ne_true,
        filled_hash keccak (empties.trans filled), codes]
    · rw [zero, show evm.view.current = evm.current from rfl, empties]

def coded (balance : Int) : StateDB := StateDB.new fun a => if a = 7 then some ⟨1, balance, 0, 0, [1], fun _ => 0⟩ else none

-- A public frame inspects an address that both states hold.
theorem vault_code_inspected : ∃ code, Attributes (fun code => if code = [1] then 2 else 1)
    ((EVM.newEVM (coded 0) (some (coded 5))).push .publicState) 7 code := by
  refine (code_inspection_iff _ (fun code => ?_) _ 7 fun _ => rfl).mpr ⟨rfl, rfl⟩
  split <;> decide

-- A vault frame that inspects a public contract: it has a size, and no hash.
theorem public_code_without_hash :
    ¬ ∃ code, Attributes (fun _ => 1) (EVM.newEVM (coded 0) (some (StateDB.new fun _ => none))) 7 code := by
  rintro ⟨code, attributes⟩
  have empty := attributes.absent.mp rfl
  cases empty

end Didux.Vm
