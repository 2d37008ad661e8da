import Didux.Core.NonNegative
import Didux.Vm.Gas

set_option autoImplicit false

namespace Didux.Core

open Sport State Vm Vm.Prog Program

def total (accounts : Accounts) : Int := ∑ a : Address, accounts.getBalance a

theorem total_shift (before after : Accounts) (a : Address) (amount : Int)
    (shift : ∀ b, after.getBalance b = before.getBalance b + if b = a then amount else 0) :
    total after = total before + amount := by
  unfold total
  rw [Finset.sum_congr rfl fun b _ => shift b, Finset.sum_add_distrib, Finset.sum_ite_eq' Finset.univ a fun _ => amount,
    if_pos (Finset.mem_univ a)]

theorem total_same {before after : Accounts} (same : ∀ b, after.getBalance b = before.getBalance b) : total after = total before :=
  Finset.sum_congr rfl fun b _ => same b

section Message

variable (ctx : MessageContext) (msg : Message)

def publicTotal (evm : EVM) : Int := total evm.publicState.objects

theorem paid_total (evm : EVM) (a : Address) (amount : Int) : publicTotal (paid ctx a amount evm) = publicTotal evm + amount :=
  total_shift _ _ a amount fun b => StateDB.balance_add_balance ctx.evm.pay evm.publicState a b amount ctx.evm.blockNumber

theorem sub_balance_total (evm : EVM) (a : Address) (amount : Int) :
    publicTotal (runIn ctx (apply .publicState (.subBalance a amount)) evm).2 = publicTotal evm - amount := by
  have shift := total_shift evm.publicState.objects (evm.publicState.subBalance ctx.evm.pay a amount ctx.evm.blockNumber).objects a
    (-amount) fun b => by
      rw [StateDB.balance_sub_balance, Int.sub_eq_add_neg]
      split <;> simp
  exact shift

variable {evm : EVM} {gp gas : Nat} {isVault : Bool} {done : TransitionResult} {access : VaultAccess}

theorem bump_nonce_total : publicTotal (runIn ctx (bumpNonce msg) evm).2 = publicTotal evm :=
  total_same fun b => StateDB.balance_set_nonce evm.publicState msg.sender b _

theorem whenever_bump_total (c : Bool) (evm : EVM) :
    publicTotal (runIn ctx (whenever c (bumpNonce msg)) evm).2 = publicTotal evm := by
  cases c with
  | false => rfl
  | true => exact bump_nonce_total ctx msg

theorem deposited_total : publicTotal (deposited ctx msg evm) = publicTotal evm - msg.gas * msg.gasPrice := by
  let deducted := (runIn ctx (apply .publicState (.subSmiloPay msg.sender (msg.gas * msg.gasPrice))) evm).2
  have kept : publicTotal deducted = publicTotal evm := total_same fun b => StateDB.balance_sub_smilo_pay _ _ _ _ _ _
  have run : deposited ctx msg evm =
      (runIn ctx (apply .publicState (.subBalance msg.sender (msg.gas * msg.gasPrice))) deducted).2 := rfl
  rw [run, sub_balance_total, kept]

theorem refund_counter_bound (view : Vm.View) (gas : Nat) (bound : gas ≤ msg.gas) : gas + refundCounter msg view gas ≤ msg.gas := by
  have half : refundCounter msg view gas ≤ gasUsed msg gas / 2 := Nat.min_le_left _ _
  unfold gasUsed at half
  omega

theorem give_back_total {whole : Bool} {left : Nat × Nat} (bound : gas ≤ msg.gas)
    (back : (runIn ctx (giveBack ctx msg whole gp gas) evm).1 = some left) :
    publicTotal (runIn ctx (giveBack ctx msg whole gp gas) evm).2 =
      publicTotal evm + msg.gas * msg.gasPrice - (if whole then gas else 0 : Nat) * msg.gasPrice := by
  cases whole with
  | true =>
    have after := paid_total ctx evm msg.sender (gasUsed msg gas * msg.gasPrice)
    refine Eq.trans after ?_
    rw [if_pos rfl, gasUsed, Nat.cast_sub bound]
    ring
  | false =>
    let kept := gas + refundCounter msg evm.view gas
    have fits : kept ≤ msg.gas := refund_counter_bound msg evm.view gas bound
    have first := paid_total ctx evm msg.sender (kept * msg.gasPrice)
    rw [give_back_plain] at back ⊢
    dsimp only at back ⊢
    split at back
    · nomatch back
    · have second := paid_total ctx (paid ctx msg.sender (kept * msg.gasPrice) evm) ctx.coinbase (gasUsed msg kept * msg.gasPrice)
      refine Eq.trans second ?_
      rw [first, if_neg (by decide), gasUsed, Nat.cast_sub fits]
      ring

theorem run_evm_gas (data : Bytes) (gas : Nat) (evm : EVM) : (runIn ctx (runEvm ctx msg data gas) evm).1.gas ≤ gas := by
  unfold runEvm
  split
  · exact yields_run _ _ _ evm (ctx.evm.create_gas _ _ _ _)
  · exact yields_run _ _ _ evm (ctx.evm.call_gas _ _ _ _ _)

theorem conclude_total {out : Outcome} (bound : gas ≤ msg.gas)
    (kept : out.gas ≤ gas) (ok : (runIn ctx (conclude ctx msg isVault gp gas out) evm).1.result = .ok done) :
    publicTotal (runIn ctx (conclude ctx msg isVault gp gas out) evm).2 = publicTotal evm + msg.gas * msg.gasPrice -
      (if wholeRefund ctx out then (if isVault then gas else out.gas) else 0 : Nat) * msg.gasPrice := by
  unfold conclude at ok ⊢
  split at ok
  · contradiction
  · split at ok
    · contradiction
    · rename_i alive funded
      rw [if_neg alive, if_neg funded]
      rw [run_in_bind] at ok ⊢
      have within : (if isVault then gas else out.gas) ≤ msg.gas := by split <;> omega
      cases back : (runIn ctx (giveBack ctx msg (wholeRefund ctx out) gp (if isVault then gas else out.gas)) evm).1 with
      | none =>
        rw [back] at ok
        contradiction
      | some left => exact give_back_total ctx msg within back

def unreturned (isVault : Bool) (data : Bytes) (cost : Nat) (out : Outcome) : Nat :=
  if msg.recipient.isSome && data = [] && isVault then if ctx.evm.rules.isSmilo && ctx.isGas then msg.gas - cost else 0
  else if wholeRefund ctx out then (if isVault then msg.gas - cost else out.gas) else 0

def intrinsicCost : Nat := (intrinsicGas msg.data msg.recipient.isNone ctx.evm.rules.isHomestead).getD 0

theorem deliver_total (isVault : Bool) (data : Bytes) (gp cost : Nat) (evm : EVM) (done : TransitionResult)
    (conserving : (msg.recipient.isSome && data = [] && isVault) = false →
      publicTotal (runIn ctx (runEvm ctx msg data (msg.gas - cost)) evm).2 = publicTotal evm)
    (ok : (runIn ctx (deliver ctx msg isVault data gp (msg.gas - cost)) evm).1.result = .ok done) :
    publicTotal (runIn ctx (deliver ctx msg isVault data gp (msg.gas - cost)) evm).2 = publicTotal evm + msg.gas * msg.gasPrice -
      (unreturned ctx msg isVault data cost (runIn ctx (runEvm ctx msg data (msg.gas - cost)) evm).1 : Nat) * msg.gasPrice := by
  unfold deliver at ok ⊢
  unfold unreturned
  split at ok
  · rename_i early
    rw [if_pos early, if_pos early]
    rw [run_in_bind] at ok ⊢
    cases back : (runIn ctx (giveBack ctx msg (ctx.evm.rules.isSmilo && ctx.isGas) gp (msg.gas - cost)) evm).1 with
    | none =>
      rw [back] at ok
      nomatch ok
    | some left => exact give_back_total ctx msg (Nat.sub_le _ _) back
  · rename_i late
    rw [if_neg late, if_neg late]
    rw [run_in_bind] at ok ⊢
    rw [← conserving (Bool.eq_false_iff.mpr late)]
    exact conclude_total ctx msg (Nat.sub_le _ _) (run_evm_gas ctx msg data _ evm) ok

theorem execute_total {data : Bytes}
    (conserving : ∀ entered, (runIn ctx (whenever (msg.recipient.isSome && !isVault) (bumpNonce msg)) evm).2 = entered →
      (msg.recipient.isSome && data = [] && isVault) = false →
      publicTotal (runIn ctx (runEvm ctx msg data (msg.gas - intrinsicCost ctx msg)) entered).2 = publicTotal entered)
    (ok : (runIn ctx (execute ctx msg isVault data gp) evm).1.result = .ok done) :
    publicTotal (runIn ctx (execute ctx msg isVault data gp) evm).2 = publicTotal evm + msg.gas * msg.gasPrice -
      (unreturned ctx msg isVault data (intrinsicCost ctx msg) (runIn ctx (runEvm ctx msg data (msg.gas - intrinsicCost ctx msg))
        (runIn ctx (whenever (msg.recipient.isSome && !isVault) (bumpNonce msg)) evm).2).1 : Nat) * msg.gasPrice := by
  unfold intrinsicCost at conserving ⊢
  unfold execute at ok ⊢
  cases price : intrinsicGas msg.data msg.recipient.isNone ctx.evm.rules.isHomestead with
  | none =>
    rw [price] at ok
    contradiction
  | some cost =>
    rw [price] at ok conserving
    dsimp only at ok conserving ⊢
    split at ok
    · contradiction
    · rename_i enough
      rw [if_neg enough]
      rw [run_in_bind] at ok ⊢
      rw [← whenever_bump_total ctx msg (msg.recipient.isSome && !isVault) evm]
      exact deliver_total ctx msg isVault data gp cost _ done (conserving _ rfl) ok

def entered (evm : EVM) : EVM := (runIn ctx (whenever msg.recipient.isSome (bumpNonce msg)) (deposited ctx msg evm)).2

def evmRun (data : Bytes) (evm : EVM) : Outcome × EVM :=
  runIn ctx (runEvm ctx msg data (msg.gas - intrinsicCost ctx msg)) (entered ctx msg evm)

def Conserves (data : Bytes) (evm : EVM) : Prop := publicTotal (evmRun ctx msg data evm).2 = publicTotal (entered ctx msg evm)

-- The EVM run that TransitionDb makes keeps the total. Without a payload, and for a vault call without input, it makes none.
def Conserving (access : VaultAccess) (evm : EVM) : Prop :=
  if ctx.evm.rules.isSmilo && msg.isVault then
    match access with
    | .absent | .failed => True
    | .payload data => (msg.recipient.isSome && data = []) = false → Conserves ctx msg data evm
  else Conserves ctx msg msg.data evm

def lost (access : VaultAccess) (evm : EVM) : Nat :=
  if ctx.evm.rules.isSmilo && msg.isVault then
    match access with
    | .absent | .failed => msg.gas
    | .payload data => unreturned ctx msg true data (intrinsicCost ctx msg) (evmRun ctx msg data evm).1
  else unreturned ctx msg false msg.data (intrinsicCost ctx msg) (evmRun ctx msg msg.data evm).1

theorem without_payload_total : publicTotal (runIn ctx (do
      bumpNonce msg
      pure (⟨gp, .ok ⟨[], 0, false⟩⟩ : Transition)) (deposited ctx msg evm)).2 =
      publicTotal evm - msg.gas * msg.gasPrice := by
  rw [← deposited_total ctx msg]
  exact bump_nonce_total ctx msg

theorem transition_total (conserving : Conserving ctx msg access evm)
    (ok : (runIn ctx (transitionDb ctx msg access gp) evm).1.result = .ok done) :
    publicTotal (runIn ctx (transitionDb ctx msg access gp) evm).2 =
      publicTotal evm - (lost ctx msg access evm : Nat) * msg.gasPrice := by
  have finish : ∀ isVault data before, ((msg.recipient.isSome && data = [] && isVault) = false → Conserves ctx msg data evm) →
      publicTotal before = publicTotal evm - msg.gas * msg.gasPrice →
      (runIn ctx (whenever (msg.recipient.isSome && !isVault) (bumpNonce msg)) before).2 = entered ctx msg evm →
      (runIn ctx (execute ctx msg isVault data (gp - msg.gas)) before).1.result = .ok done →
      publicTotal (runIn ctx (execute ctx msg isVault data (gp - msg.gas)) before).2 =
        publicTotal evm - (unreturned ctx msg isVault data (intrinsicCost ctx msg) (evmRun ctx msg data evm).1 : Nat) * msg.gasPrice := by
    intro isVault data before conserves start entry ended
    have steady : ∀ machine, (runIn ctx (whenever (msg.recipient.isSome && !isVault) (bumpNonce msg)) before).2 = machine →
        (msg.recipient.isSome && data = [] && isVault) = false →
        publicTotal (runIn ctx (runEvm ctx msg data (msg.gas - intrinsicCost ctx msg)) machine).2 = publicTotal machine := by
      intro machine same runs
      rw [← same, entry]
      exact conserves runs
    rw [execute_total ctx msg steady ended, start, entry, evmRun]
    ring
  unfold transitionDb at ok ⊢
  unfold Conserving at conserving
  rw [run_in_bind] at ok ⊢
  rcases pre_check_cases ctx msg gp evm with ⟨_, e, refused⟩ | ⟨_, bought⟩
  · rw [refused] at ok
    contradiction
  · rw [bought] at ok ⊢
    dsimp only at ok ⊢
    unfold lost
    split at ok
    · rename_i vault
      rw [if_pos vault] at conserving
      rw [if_pos vault, if_pos vault]
      cases access with
      | absent => exact without_payload_total ctx msg
      | failed => exact without_payload_total ctx msg
      | payload data =>
        rw [run_in_bind] at ok ⊢
        apply finish true data _ (by simpa using conserving) _ _ ok
        · rw [whenever_bump_total, deposited_total]
        · rw [Bool.not_true, Bool.and_false]
          rfl
    · rename_i plain
      rw [if_neg plain] at conserving
      rw [if_neg plain, if_neg plain]
      apply finish false msg.data _ (fun _ => conserving) (deposited_total ctx msg) _ ok
      rw [Bool.not_false, Bool.and_true]
      rfl

-- When the deposit is split in full: nothing is paid for gas, or no way out of TransitionDb leaves gas unreturned. Without
-- a payload all of it is. The whole refund leaves what was not used: for a vault message all but the intrinsic gas.
def Accounted (access : VaultAccess) (evm : EVM) : Prop :=
  msg.gasPrice = 0 ∨
  if ctx.evm.rules.isSmilo && msg.isVault then
    match access with
    | .absent | .failed => msg.gas = 0
    | .payload data =>
      msg.gas ≤ intrinsicCost ctx msg ∨
      if msg.recipient.isSome && data = [] then (ctx.evm.rules.isSmilo && ctx.isGas) = false
      else wholeRefund ctx (evmRun ctx msg data evm).1 = false
  else (evmRun ctx msg msg.data evm).1.gas = 0 ∨ wholeRefund ctx (evmRun ctx msg msg.data evm).1 = false

theorem accounted_iff : Accounted ctx msg access evm ↔ msg.gasPrice = 0 ∨ lost ctx msg access evm = 0 := by
  unfold Accounted lost
  split
  · cases access with
    | absent => rfl
    | failed => rfl
    | payload data =>
      simp only [unreturned]
      split_ifs <;> simp_all [Nat.sub_eq_zero_iff_le]
  · simp only [unreturned]
    split_ifs <;> simp_all

theorem deposit_split_iff (access : VaultAccess) (gp : Nat) (evm : EVM) (done : TransitionResult)
    (conserving : Conserving ctx msg access evm)
    (ok : (runIn ctx (transitionDb ctx msg access gp) evm).1.result = .ok done) :
    total (runIn ctx (transitionDb ctx msg access gp) evm).2.publicState.objects = total evm.publicState.objects ↔
      Accounted ctx msg access evm := by
  have after := transition_total ctx msg conserving ok
  unfold publicTotal at after
  rw [after, accounted_iff, sub_eq_self, mul_eq_zero, Nat.cast_eq_zero, Nat.cast_eq_zero]
  exact or_comm

end Message

def spareMessage : Message where
  sender := 1
  recipient := some 2
  nonce := 0
  checkNonce := true
  gasPrice := 1
  gas := 30000
  value := 0
  data := []
  isVault := false

def spareContext : MessageContext :=
  (idleChain true true true fun _ _ => .stop []).context ⟨0, 0, 5, 0, 0, 0, 7, 7⟩ 7 spareMessage

def spareMachine : EVM := EVM.newEVM (StateDB.new (holder 1 100000 100000)) none

theorem spare_conserving : Conserving spareContext spareMessage .absent spareMachine := by
  have same : (evmRun spareContext spareMessage [] spareMachine).2.publicState.objects =
      (entered spareContext spareMessage spareMachine).publicState.objects := rfl
  exact congrArg total same

theorem spare_succeeds :
    (runIn spareContext (transitionDb spareContext spareMessage .absent 100000) spareMachine).1.result = .ok ⟨[], 21000, false⟩ := rfl

theorem unused_gas_lost :
    (runIn spareContext (transitionDb spareContext spareMessage .absent 100000) spareMachine).1.result = .ok ⟨[], 21000, false⟩ ∧
    Conserving spareContext spareMessage .absent spareMachine ∧
    total (runIn spareContext (transitionDb spareContext spareMessage .absent 100000) spareMachine).2.publicState.objects ≠
      total spareMachine.publicState.objects := by
  refine ⟨spare_succeeds, spare_conserving, ?_⟩
  have after := transition_total spareContext spareMessage spare_conserving spare_succeeds
  have nine : lost spareContext spareMessage .absent spareMachine = 9000 := rfl
  unfold publicTotal at after
  rw [after, nine]
  intro same
  have price : spareMessage.gasPrice = 1 := rfl
  rw [price] at same
  omega

-- The same message without the whole refund, to an account whose code takes 500 gas.
def payingContext : MessageContext :=
  (idleChain true true false fun _ _ => .use 500 (.stop [])).context ⟨0, 0, 5, 0, 0, 0, 7, 7⟩ 7 spareMessage

def payingMachine : EVM :=
  EVM.newEVM (StateDB.new (Function.update (holder 1 100000 100000) 2 (some ⟨0, 0, 0, 10, [0], fun _ => 0⟩))) none

theorem deposit_split_iff_paid :
    let after := runIn payingContext (transitionDb payingContext spareMessage .absent 100000) payingMachine
    after.1.result = .ok ⟨[], 21500, false⟩ ∧ after.2.publicState.objects.getBalance 7 = 21500 ∧
      total after.2.publicState.objects = total payingMachine.publicState.objects := by
  intro after
  have succeeds : after.1.result = .ok ⟨[], 21500, false⟩ := by rfl
  have same : (evmRun payingContext spareMessage [] payingMachine).2.publicState.objects =
      (entered payingContext spareMessage payingMachine).publicState.objects := by rfl
  refine ⟨succeeds, by decide +kernel, ?_⟩
  exact (deposit_split_iff payingContext spareMessage .absent 100000 payingMachine _ (congrArg total same) succeeds).mpr
    (.inr (.inr rfl))

end Didux.Core
