import Didux.State.NonNegative
import Didux.Vm.Invariant

set_option autoImplicit false

namespace Didux.Vm

open Sport State Option StateDB

namespace EVM

def NonNegative (evm : EVM) : Prop := ∀ side, (evm.get side).NonNegative

theorem nonneg_new_evm (publicState : StateDB) (vaultState : Option StateDB) (holds : publicState.NonNegative)
    (vault : ∀ s, vaultState = some s → s.NonNegative) : (newEVM publicState vaultState).NonNegative := by
  intro side
  cases side with
  | publicState => exact holds
  | vaultState =>
    cases vaultState with
    | none => exact holds
    | some s => exact vault s rfl

theorem nonneg_results (evm : EVM) (vaultState : StateDB) (holds : evm.NonNegative) (vault : vaultState.NonNegative) :
    evm.publicState.NonNegative ∧ (evm.vaultState.getD vaultState).NonNegative := by
  refine ⟨holds .publicState, ?_⟩
  have written := holds .vaultState
  cases apart : evm.vaultState with
  | none => exact vault
  | some s => simpa [get, apart] using written

end EVM

theorem op_nonneg (env : Environment) (evm : EVM) (side : Side) (t : StateDB) (op : Op) (holds : (evm.get side).NonNegative)
    (admitted : (Command.apply side op).Admitted env evm) (applied : op.apply env.pay env.blockNumber (evm.get side) = some t) :
    t.NonNegative := by
  cases op with
  | createAccount a => exact some.inj applied ▸ nonneg_create_account holds a
  | setNonce a nonce => exact some.inj applied ▸ nonneg_set_nonce holds a nonce
  | setCode a code => exact some.inj applied ▸ nonneg_set_code holds a code
  | setState a key value => exact some.inj applied ▸ nonneg_set_state holds a key value
  | addBalance a amount =>
    have positive : 0 ≤ amount := by
      rcases admitted with positive | ⟨b, rfl⟩
      · exact positive
      · exact nonneg_balance holds b
    exact some.inj applied ▸ nonneg_add_balance env.pay holds a amount _ positive
  | subBalance a amount => exact some.inj applied ▸ nonneg_sub_balance env.pay holds a amount _ admitted
  | subSmiloPay a amount => exact some.inj applied ▸ nonneg_sub_smilo_pay env.pay holds a amount _ admitted
  | suicide a => exact some.inj applied ▸ nonneg_suicide holds a
  | addLog a topics data => exact some.inj applied ▸ nonneg_add_log holds a topics data _
  | addRefund gas => exact some.inj applied ▸ nonneg_add_refund holds gas
  | subRefund gas => exact nonneg_sub_refund holds gas applied

theorem nonneg_invariant (env : Environment) : Invariant env EVM.NonNegative := by
  intro command evm admitted holds
  refine states_move_all (handle_moves (fun _ => id) (fun _ => nonneg_snapshot) ?_ ?_) holds
  · exact fun _ _ revid reverted here => nonneg_revert here revid reverted
  · rintro side op t rfl applied here
    exact op_nonneg env evm side t op here admitted applied

end Didux.Vm
