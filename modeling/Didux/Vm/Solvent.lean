import Didux.Vm.Gas
import Didux.Vm.NonNegative

set_option autoImplicit false

namespace Didux.Vm

open Sport State Prog Program

section Calls

variable (invoked : Contract → Instr → Nat → Prog Outcome) (calls : ∀ c i gas, Bounded gas (invoked c i gas)) (env : Environment)

include calls

variable (pay : Accrual) (blockNumber : Nat) (rules : Rules)

theorem call_poor (caller addr : Address) (input : Bytes) (gas value : Nat) (evm : EVM)
    (poor : ((call env invoked caller addr input gas value).run (handle pay blockNumber rules) evm).1.err = some .insufficientBalance) :
    let after := ((call env invoked caller addr input gas value).run (handle pay blockNumber rules) evm).2
    after.publicState = evm.publicState ∧ after.vaultState = evm.vaultState := by
  have run : (call env invoked caller addr input gas value).run (handle pay blockNumber rules) evm =
      let found := evm.view.getPrivateOrPublicStateDB addr
      let ran := (callCurrent env invoked found.1 caller addr input gas value).run (handle pay blockNumber rules) (evm.push found.2)
      (ran.1, ran.2.pop) := by
    unfold call within
    simp only [run_bind]
    rfl
  rw [run] at poor ⊢
  dsimp only at poor ⊢
  rw [(pop_states _).1, (pop_states _).2]
  unfold callCurrent at poor ⊢
  rw [run_look] at poor ⊢
  split at poor
  · exact absurd poor (by simp [failure])
  · rename_i shallow
    rw [if_neg shallow]
    split at poor
    · rename_i refused
      rw [if_pos refused]
      exact push_states evm _
    · exact absurd poor (yields_run _ _ _ _ (call_checked_contained invoked calls env)).2

theorem create_poor (caller : Address) (code : Bytes) (gas value : Nat) (evm : EVM)
    (poor : ((create env invoked caller code gas value).run (handle pay blockNumber rules) evm).1.err = some .insufficientBalance) :
    let after := ((create env invoked caller code gas value).run (handle pay blockNumber rules) evm).2
    after.publicState = evm.publicState ∧ after.vaultState = evm.vaultState := by
  unfold create createAt at poor ⊢
  rw [run_look, run_look] at poor ⊢
  split at poor
  · exact absurd poor (by simp [failure])
  · rename_i shallow
    rw [if_neg shallow]
    split at poor
    · rename_i refused
      rw [if_pos refused]
      exact ⟨rfl, rfl⟩
    · rw [run_bind] at poor
      exact absurd poor (yields_run _ _ _ _ (create_checked_contained invoked calls env)).2

end Calls

end Didux.Vm
