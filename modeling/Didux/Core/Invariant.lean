import Didux.Core.Transition
import Didux.Vm.Stack

set_option autoImplicit false

namespace Didux.Core

open Sport State Vm Vm.Prog Program

section Programs

variable (env : Environment) (J : EVM → Prop)

def Maintains {α : Type} (p : Prog α) : Prop :=
  Triple (handle env.pay env.blockNumber env.rules) (fun evm => J evm ∧ Room evm) p fun _ evm => J evm ∧ Room evm

variable {env J} {α β : Type}

theorem maintains_pure (value : α) : Maintains env J (pure value) := fun _ holds => holds

theorem maintains_bind (p : Prog β) (k : β → Prog α) (first : Maintains env J p) (rest : ∀ value, Maintains env J (k value)) :
    Maintains env J (p >>= k) := triple_bind p k _ first rest

theorem maintains_ite (c : Prop) [Decidable c] (p q : Prog α) (yes : Maintains env J p) (no : Maintains env J q) :
    Maintains env J (if c then p else q) := by
  split
  · exact yes
  · exact no

theorem maintains_whenever (c : Bool) (p : Prog β) (yes : Maintains env J p) : Maintains env J (whenever c p) :=
  maintains_ite _ _ _ (maintains_bind _ _ yes fun _ => maintains_pure ()) (maintains_pure ())

variable (inv : Invariant env J)

include inv

theorem apply_maintains {evm : EVM} {side : Side} (op : Op) (admitted : (Command.apply side op).Admitted env evm)
    (holds : J evm ∧ Room evm) : J (handle env.pay env.blockNumber env.rules (.apply side op) evm).2 ∧
      Room (handle env.pay env.blockNumber env.rules (.apply side op) evm).2 := by
  have same := same_stack_handle env.pay env.blockNumber env.rules (.apply side op) evm rfl
  exact ⟨inv _ evm admitted holds.1, room_returns holds.2 (returns_same holds.2.disciplined same)⟩

theorem maintains_apply (side : Side) (op : Op) (admitted : ∀ evm, (Command.apply side op).Admitted env evm) :
    Maintains env J (apply side op) := fun evm holds => apply_maintains inv op (admitted evm) holds

omit inv in
theorem maintains_look : Maintains env J look := fun _ holds => holds

end Programs

variable {ctx : MessageContext} {J : EVM → Prop} (msg : Message) (inv : Invariant ctx.evm J)

include inv

theorem bump_nonce_maintains : Maintains ctx.evm J (bumpNonce msg) := by
  apply maintains_bind _ _ maintains_look
  intro _
  exact maintains_bind _ _ (maintains_apply inv _ (.setNonce _ _) fun _ => trivial) fun _ => maintains_pure ()

theorem buy_gas_maintains (gp : Nat) : Maintains ctx.evm J (buyGas ctx msg gp) := by
  intro evm holds
  unfold buyGas
  rw [run_look]
  dsimp only
  split
  · exact holds
  · rename_i smiloPay
    split
    · exact holds
    · rename_i balance
      split
      · exact holds
      · have deducted := apply_maintains inv (.subSmiloPay msg.sender (msg.gas * msg.gasPrice)) (Int.not_lt.mp smiloPay) holds
        have same := EVM.balance_set evm .publicState .publicState _ msg.sender (StateDB.balance_sub_smilo_pay ctx.evm.pay
          evm.publicState msg.sender msg.sender (msg.gas * msg.gasPrice) ctx.evm.blockNumber)
        exact apply_maintains inv (.subBalance msg.sender (msg.gas * msg.gasPrice))
          (Int.le_trans (Int.not_lt.mp balance) same.ge) deducted

theorem pre_check_maintains (gp : Nat) : Maintains ctx.evm J (preCheck ctx msg gp) := by
  intro _
  apply maintains_ite _ _ _ (maintains_pure _)
  exact maintains_ite _ _ _ (maintains_pure _) (buy_gas_maintains msg inv gp)

omit msg in
theorem pays_maintains (a : Address) (gas price : Nat) : Maintains ctx.evm J (apply .publicState (.addBalance a (gas * price))) :=
  maintains_apply inv _ _ fun _ => .inl (Int.mul_nonneg (Int.natCast_nonneg gas) (Int.natCast_nonneg price))

theorem give_back_maintains (whole : Bool) (gp gas : Nat) : Maintains ctx.evm J (giveBack ctx msg whole gp gas) := by
  apply maintains_ite
  · exact maintains_bind _ _ (pays_maintains inv _ _ _) fun _ => maintains_bind _ _ maintains_look fun _ => maintains_pure _
  · apply maintains_bind
    · exact maintains_bind _ _ maintains_look fun _ => maintains_bind _ _ (pays_maintains inv _ _ _) fun _ => maintains_pure _
    · intro back
      cases back with
      | none => exact maintains_pure _
      | some left => exact maintains_bind _ _ (pays_maintains inv _ _ _) fun _ => maintains_pure _

variable (isVault : Bool)

theorem conclude_maintains (gp gas : Nat) (out : Outcome) :
    Maintains ctx.evm J (conclude ctx msg isVault gp gas out) := by
  apply maintains_ite _ _ _ (maintains_pure _)
  apply maintains_ite _ _ _ (maintains_pure _)
  apply maintains_bind _ _ (give_back_maintains msg inv _ gp _)
  intro back
  cases back with
  | none => exact maintains_pure _
  | some left => exact maintains_pure _

variable (data : Bytes)

theorem run_evm_maintains (gas : Nat) : Maintains ctx.evm J (runEvm ctx msg data gas) := by
  intro evm holds
  have nested := invoke_nested ctx.evm none nofun (callCreateDepth + 1)
  have runs : Stacks ctx.evm none (runEvm ctx msg data gas) evm fun _ => Confined none evm := by
    unfold runEvm
    split
    · exact stacks_look _ holds.2.disciplined (create_at_confined nested holds.2 ⟨nofun, nofun⟩ nofun _)
    · exact call_confined _ nested holds.2 nofun nofun _ _ _ _ nofun
  obtain ⟨proper, confined⟩ := runs (keeps_nothing _ _ _)
  have kept := along_run _ (fun command evm proper => inv command evm proper.2) _ evm proper holds.1
  exact ⟨kept, room_returns holds.2 confined.toReturns⟩

theorem deliver_maintains (gp gas : Nat) :
    Maintains ctx.evm J (deliver ctx msg isVault data gp gas) := by
  apply maintains_ite
  · apply maintains_bind _ _ (give_back_maintains msg inv _ gp _)
    intro back
    cases back with
    | none => exact maintains_pure _
    | some left => exact maintains_pure _
  · exact maintains_bind _ _ (run_evm_maintains msg inv data _) fun out => conclude_maintains msg inv isVault gp _ out

theorem execute_maintains (gp : Nat) : Maintains ctx.evm J (execute ctx msg isVault data gp) := by
  unfold execute
  split
  · exact maintains_pure _
  · apply maintains_ite _ _ _ (maintains_pure _)
    exact maintains_bind _ _ (maintains_whenever _ _ (bump_nonce_maintains msg inv)) fun _ => deliver_maintains msg inv isVault data gp _

theorem transition_maintains (access : VaultAccess) (gp : Nat) : Maintains ctx.evm J (transitionDb ctx msg access gp) := by
  apply maintains_bind _ _ (pre_check_maintains msg inv gp)
  intro checked
  rcases checked with ⟨gp, e⟩
  have bumps := bump_nonce_maintains msg inv
  cases e with
  | some e => exact maintains_pure _
  | none =>
    apply maintains_ite
    · cases access with
      | absent => exact maintains_bind _ _ bumps fun _ => maintains_pure _
      | failed => exact maintains_bind _ _ bumps fun _ => maintains_pure _
      | payload data => exact maintains_bind _ _ (maintains_whenever _ _ bumps) fun _ => execute_maintains msg inv true data gp
    · exact execute_maintains msg inv false msg.data gp

end Didux.Core
