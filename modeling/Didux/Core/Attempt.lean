import Didux.State.Undo
import Didux.Vm.Solvent
import Didux.Core.Conservation

set_option autoImplicit false

namespace Didux.Core

open Sport State Vm Vm.Prog Program Nat

section Message

variable (ctx : MessageContext) (msg : Message)

theorem add_gas_fits {gp amount : Nat} (fits : gp + amount ≤ maxUint64) : addGas gp amount = some (gp + amount) :=
  if_neg (by omega)

variable {gas : Nat} {evm : EVM} {isVault : Bool} {data : Bytes}

theorem give_back_pool {whole : Bool} (bound : gas ≤ msg.gas) :
    ∃ left after, gas ≤ left ∧ left ≤ msg.gas ∧ ∀ gp, gp + msg.gas ≤ maxUint64 →
      runIn ctx (giveBack ctx msg whole gp gas) evm = (some (left, gp + left), after) := by
  cases whole with
  | true =>
    let after := paid ctx msg.sender (gasUsed msg gas * msg.gasPrice) evm
    have most := refund_counter_bound msg after.view gas bound
    refine ⟨gas + refundCounter msg after.view gas, after, le_add_right _ _, most, ?_⟩
    intro gp room
    rw [give_back_whole]
    dsimp only
    rw [add_gas_fits (Nat.le_trans (Nat.add_le_add_left most gp) room)]
    rfl
  | false =>
    let left := gas + refundCounter msg evm.view gas
    have most : left ≤ msg.gas := refund_counter_bound msg evm.view gas bound
    refine ⟨left, paid ctx ctx.coinbase (gasUsed msg left * msg.gasPrice) (paid ctx msg.sender (left * msg.gasPrice) evm),
      le_add_right _ _, most, ?_⟩
    intro gp room
    rw [give_back_plain]
    dsimp only
    rw [add_gas_fits (Nat.le_trans (Nat.add_le_add_left most gp) room)]

structure Ends (p : Nat → Prog Transition) (evm : EVM) (back : Nat) (result : Except TxError TransitionResult) (after : EVM) : Prop where
  bound : back ≤ msg.gas
  ends : ∀ gp, gp + msg.gas ≤ maxUint64 → runIn ctx (p gp) evm = (⟨gp + back, result⟩, after)

theorem conclude_ends {out : Outcome} (bound : gas ≤ msg.gas) (kept : out.gas ≤ gas) :
    (out.err = some .panic ∧ Ends ctx msg (conclude ctx msg isVault · gas out) evm 0 (.error .panic) evm) ∨
    (out.err = some .insufficientBalance ∧
      Ends ctx msg (conclude ctx msg isVault · gas out) evm 0 (.error .insufficientBalance) evm) ∨
    ∃ left done after, (if isVault then gas else out.gas) ≤ left ∧ (isVault = false → done.usedGas = gasUsed msg left) ∧
      Ends ctx msg (conclude ctx msg isVault · gas out) evm left (.ok done) after := by
  unfold conclude
  by_cases crashed : out.err = some .panic
  · simp only [if_pos crashed]
    exact .inl ⟨crashed, zero_le _, fun gp _ => rfl⟩
  · by_cases poor : out.err = some .insufficientBalance
    · simp only [if_neg crashed, if_pos poor]
      exact .inr (.inl ⟨poor, zero_le _, fun gp _ => rfl⟩)
    · have most : (if isVault then gas else out.gas) ≤ msg.gas := by split <;> omega
      obtain ⟨left, after, least, fits, given⟩ := give_back_pool ctx msg most
      simp only [if_neg crashed, if_neg poor]
      refine .inr (.inr ⟨left, ⟨out.ret, if isVault then 0 else gasUsed msg left, out.err ≠ none⟩, after, least, ?_, fits, ?_⟩)
      · exact fun shown => if_neg (by simp [shown])
      intro gp room
      rw [run_in_bind, given gp room]
      rfl

inductive Delivered (isVault : Bool) (data : Bytes) (gas : Nat) (evm : EVM) (p : Nat → Prog Transition) (start : EVM) : Prop where
  | crashed (after : EVM) (ends : Ends ctx msg p start 0 (.error .panic) after)
  | poor (err : (runIn ctx (runEvm ctx msg data gas) evm).1.err = some .insufficientBalance)
      (ends : Ends ctx msg p start 0 (.error .insufficientBalance) (runIn ctx (runEvm ctx msg data gas) evm).2)
  | done (left : Nat) (result : TransitionResult) (after : EVM) (least : isVault = true → gas ≤ left)
      (ends : Ends ctx msg p start left (.ok result) after) (used : isVault = false → result.usedGas = gasUsed msg left)

theorem deliver_ends (bound : gas ≤ msg.gas) :
    Delivered ctx msg isVault data gas evm (deliver ctx msg isVault data · gas) evm := by
  unfold deliver
  by_cases early : (msg.recipient.isSome && data = [] && isVault) = true
  · simp only [if_pos early]
    obtain ⟨left, after, least, most, given⟩ := give_back_pool ctx msg bound
    refine .done left ⟨[], 0, false⟩ after (fun _ => least) ⟨most, ?_⟩ (fun shown => by simp [shown] at early)
    intro gp room
    rw [run_in_bind, given gp room]
    rfl
  · simp only [if_neg early]
    have kept := run_evm_gas ctx msg data gas evm
    have next : ∀ {back result after}, Ends ctx msg (conclude ctx msg isVault · gas (runIn ctx (runEvm ctx msg data gas) evm).1)
        (runIn ctx (runEvm ctx msg data gas) evm).2 back result after → Ends ctx msg (fun gp => do
          let out ← runEvm ctx msg data gas
          conclude ctx msg isVault gp gas out) evm back result after :=
      fun ends => ⟨ends.bound, fun gp room => (run_in_bind ctx _ _ evm).trans (ends.ends gp room)⟩
    rcases conclude_ends ctx msg bound kept with
      ⟨_, ends⟩ | ⟨poor, ends⟩ | ⟨left, done, after, least, used, ends⟩
    · exact .crashed _ (next ends)
    · exact .poor poor (next ends)
    · refine .done left done after ?_ (next ends) used
      intro vault
      simpa [vault] using least

theorem execute_ends (isVault : Bool) (data : Bytes) (evm : EVM) :
    (Ends ctx msg (execute ctx msg isVault data) evm 0 (.error .outOfGas) evm) ∨
    (intrinsicCost ctx msg ≤ msg.gas ∧ Delivered ctx msg isVault data (msg.gas - intrinsicCost ctx msg)
      (runIn ctx (whenever (msg.recipient.isSome && !isVault) (bumpNonce msg)) evm).2 (execute ctx msg isVault data) evm) := by
  unfold execute intrinsicCost
  cases price : intrinsicGas msg.data msg.recipient.isNone ctx.evm.rules.isHomestead with
  | none => exact .inl ⟨zero_le _, fun gp _ => rfl⟩
  | some cost =>
    by_cases enough : msg.gas < cost
    · simp only [if_pos enough]
      exact .inl ⟨zero_le _, fun gp _ => rfl⟩
    · simp only [if_neg enough]
      refine .inr ⟨not_lt.mp enough, ?_⟩
      have next : ∀ {back result after}, Ends ctx msg (deliver ctx msg isVault data · (msg.gas - cost))
          (runIn ctx (whenever (msg.recipient.isSome && !isVault) (bumpNonce msg)) evm).2 back result after →
          Ends ctx msg (fun gp => do
            whenever (msg.recipient.isSome && !isVault) (bumpNonce msg)
            deliver ctx msg isVault data gp (msg.gas - cost)) evm back result after :=
        fun ends => ⟨ends.bound, fun gp room => (run_in_bind ctx _ _ evm).trans (ends.ends gp room)⟩
      cases deliver_ends ctx msg (sub_le _ _) with
      | crashed after ends => exact .crashed after (next ends)
      | poor err ends => exact .poor err (next ends)
      | done left result after least ends used => exact .done left result after least (next ends) used

theorem run_evm_poor (poor : (runIn ctx (runEvm ctx msg data gas) evm).1.err = some .insufficientBalance) :
    (runIn ctx (runEvm ctx msg data gas) evm).2.publicState = evm.publicState ∧
      (runIn ctx (runEvm ctx msg data gas) evm).2.vaultState = evm.vaultState := by
  unfold runEvm at poor ⊢
  split at poor
  · exact create_poor _ (invoke_bounded ctx.evm _) ctx.evm ctx.evm.pay ctx.evm.blockNumber ctx.evm.rules _ _ _ _ evm poor
  · exact call_poor _ (invoke_bounded ctx.evm _) ctx.evm ctx.evm.pay ctx.evm.blockNumber ctx.evm.rules _ _ _ _ _ evm poor

theorem deposited_undone (evm : EVM) : Undone evm.publicState (deposited ctx msg evm).publicState :=
  StateDB.undone_sub_balance _ (StateDB.undone_sub_smilo_pay _ (undone_refl _) _ _ _) _ _ _

theorem bump_undone {s : StateDB} {c : Bool} (undone : Undone s evm.publicState) :
    Undone s (runIn ctx (whenever c (bumpNonce msg)) evm).2.publicState := by
  cases c with
  | false => exact undone
  | true => exact StateDB.undone_set_nonce undone _ _

theorem bump_vault (c : Bool) (evm : EVM) : (runIn ctx (whenever c (bumpNonce msg)) evm).2.vaultState = evm.vaultState := by
  cases c <;> rfl

-- How a message ends that began in `start`: an error gives no gas back and leaves only what the journal takes back, and a
-- public message reports all the gas that it does not give back.
structure Leaves (isVault : Bool) (start : EVM) (back : Nat) (result : Except TxError TransitionResult) (after : EVM) : Prop where
  error : ∀ e, result = .error e → e ≠ .panic →
    back = 0 ∧ Undone start.publicState after.publicState ∧ after.vaultState = start.vaultState
  used : ∀ done, result = .ok done → isVault = false → done.usedGas + back = msg.gas

theorem execute_leaves (isVault : Bool) (data : Bytes) {start : EVM} (undone : Undone start.publicState evm.publicState)
    (same : evm.vaultState = start.vaultState) :
    ∃ back result after, Ends ctx msg (execute ctx msg isVault data) evm back result after ∧
      Leaves msg isVault start back result after := by
  rcases execute_ends ctx msg isVault data evm with ends | ⟨_, delivered⟩
  · exact ⟨0, _, _, ends, fun _ _ _ => ⟨rfl, undone, same⟩, fun _ done => by cases done⟩
  · cases delivered with
    | crashed after ends =>
      exact ⟨0, _, _, ends, fun e failed other => absurd (Except.error.inj failed).symm other, fun _ done => by cases done⟩
    | poor err ends =>
      obtain ⟨kept, vault⟩ := run_evm_poor ctx msg err
      refine ⟨0, _, _, ends, fun _ _ _ => ⟨rfl, ?_, ?_⟩, fun _ done => by cases done⟩
      · rw [kept]
        exact bump_undone ctx msg undone
      · rw [vault, bump_vault, same]
    | done left result after least ends used =>
      refine ⟨left, _, _, ends, fun _ failed => (by cases failed), ?_⟩
      rintro _ ⟨⟩ shown
      have most := ends.bound
      rw [used shown, gasUsed]
      omega

theorem transition_ends (access : VaultAccess) (evm : EVM) : ∃ back result after, back ≤ msg.gas ∧
      (∀ gp, gp ≤ maxUint64 → Passes ctx msg evm gp →
        runIn ctx (transitionDb ctx msg access gp) evm = (⟨gp - msg.gas + back, result⟩, after)) ∧
      Leaves msg (ctx.evm.rules.isSmilo && msg.isVault) evm back result after := by
  have begins : ∀ gp, Passes ctx msg evm gp → runIn ctx (preCheck ctx msg gp) evm = ((gp - msg.gas, none), deposited ctx msg evm) := by
    intro gp passes
    rcases pre_check_cases ctx msg gp evm with ⟨stopped, _⟩ | ⟨_, bought⟩
    · exact absurd passes stopped
    · exact bought
  have start := deposited_undone ctx msg evm
  have left : ∀ gp, gp ≤ maxUint64 → Passes ctx msg evm gp → gp - msg.gas + msg.gas ≤ maxUint64 := by
    intro gp bound passes
    have room := passes.affords.2.2
    omega
  cases vault : ctx.evm.rules.isSmilo && msg.isVault with
  | false =>
    obtain ⟨back, result, after, ends, leaves⟩ := execute_leaves ctx msg false msg.data start rfl
    refine ⟨back, result, after, ends.bound, fun gp bound passes => ?_, leaves⟩
    rw [transitionDb, run_in_bind, begins gp passes]
    simp only [vault]
    exact ends.ends _ (left gp bound passes)
  | true =>
    have unasked : Leaves msg true evm 0 (.ok ⟨[], 0, false⟩) (runIn ctx (bumpNonce msg) (deposited ctx msg evm)).2 :=
      ⟨fun _ failed => (by cases failed), fun _ _ shown => by cases shown⟩
    cases access with
    | absent =>
      refine ⟨0, _, _, zero_le _, fun gp _ passes => ?_, unasked⟩
      rw [transitionDb, run_in_bind, begins gp passes]
      simp only [vault]
      rfl
    | failed =>
      refine ⟨0, _, _, zero_le _, fun gp _ passes => ?_, unasked⟩
      rw [transitionDb, run_in_bind, begins gp passes]
      simp only [vault]
      rfl
    | payload data =>
      obtain ⟨back, result, after, ends, leaves⟩ := execute_leaves ctx msg true data
        (bump_undone ctx msg start) (bump_vault ctx msg msg.recipient.isSome _)
      refine ⟨back, result, after, ends.bound, fun gp bound passes => ?_, leaves⟩
      rw [transitionDb, run_in_bind, begins gp passes]
      simp only [vault, if_true]
      rw [run_in_bind]
      exact ends.ends _ (left gp bound passes)

end Message

end Didux.Core
