import Didux.State.Balances
import Didux.Vm.Evm

set_option autoImplicit false

namespace Didux.Vm

open Sport State Prog Program

-- What a machine makes sure of before it issues a command: an account pays what it has, and a LOG is one that the
-- interpreter let through.
def Command.Admitted (env : Environment) (evm : EVM) : Command → Prop
  | .apply side (.addBalance _ amount) => 0 ≤ amount ∨ ∃ a, amount = (evm.get side).objects.getBalance a
  | .apply side (.subBalance a amount) => amount ≤ (evm.get side).objects.getBalance a
  | .apply side (.subSmiloPay a amount) => amount ≤ (evm.get side).objects.getSmiloPay env.pay a env.blockNumber
  | .apply side (.addLog _ topics data) => side = evm.current ∧ evm.refusal env.rules (.log topics data) = none
  | _ => True

def Funded (side : Side) (a : Address) (amount : Nat) (evm : EVM) : Prop := (amount : Int) ≤ (evm.get side).objects.getBalance a

def Invariant (env : Environment) (J : EVM → Prop) : Prop :=
  ∀ command evm, command.Admitted env evm → J evm → J (handle env.pay env.blockNumber env.rules command evm).2

namespace EVM

theorem get_set (evm : EVM) (side other : Side) (s : StateDB) :
    ((evm.set side s).get other = s ∧ evm.get other = evm.get side) ∨ (evm.set side s).get other = evm.get other := by
  cases side <;> cases other <;> cases vault : evm.vaultState <;> simp [set, get, vault]

theorem set_current {evm : EVM} {side : Side} {s : StateDB} : (evm.set side s).current = evm.current := by
  cases side <;> cases vault : evm.vaultState <;> simp [set, current, vault]

theorem balance_set (evm : EVM) (written side : Side) (s : StateDB) (a : Address)
    (same : s.objects.getBalance a = (evm.get written).objects.getBalance a) :
    ((evm.set written s).get side).objects.getBalance a = (evm.get side).objects.getBalance a := by
  rcases get_set evm written side s with ⟨here, shared⟩ | kept
  · rw [here, same, shared]
  · rw [kept]

end EVM

section Programs

variable (env : Environment)

structure Steady (command : Command) : Prop where
  admitted : ∀ evm, command.Admitted env evm
  balance : ∀ evm side a, ((handle env.pay env.blockNumber env.rules command evm).2.get side).objects.getBalance a =
    (evm.get side).objects.getBalance a

theorem snapshot_steady : Steady env .snapshot where
  admitted _ := trivial
  balance evm side a := by
    have same := EVM.balance_set evm evm.current side (evm.get evm.current).snapshot.2 a rfl
    cases side <;> exact same

variable {written side : Side} {addr caller address : Address} {evm : EVM} {out : Outcome} {contract : Contract} {gas value : Nat}
  {view : View} {isVault : Bool} {input code : Bytes}

theorem create_account_steady : Steady env (.apply written (.createAccount addr)) where
  admitted _ := trivial
  balance evm side a := EVM.balance_set evm written side _ a (StateDB.balance_create_account _ addr a)

theorem set_nonce_steady {nonce : Nat} : Steady env (.apply written (.setNonce addr nonce)) where
  admitted _ := trivial
  balance evm side a := EVM.balance_set evm written side _ a (StateDB.balance_set_nonce _ addr a nonce)

theorem can_transfer {a : Address} {amount : Nat}
    (enough : ¬(!evm.view.canTransfer side a amount) = true) : Funded side a amount evm := by
  rw [Bool.not_eq_true', Bool.not_eq_false] at enough
  exact of_decide_eq_true (p := _ ≤ _) enough

end Programs

theorem push_states (evm : EVM) (side : Side) :
    (evm.push side).publicState = evm.publicState ∧ (evm.push side).vaultState = evm.vaultState := by
  unfold EVM.push
  split <;> exact ⟨rfl, rfl⟩

theorem pop_states (evm : EVM) : evm.pop.publicState = evm.publicState ∧ evm.pop.vaultState = evm.vaultState := by
  unfold EVM.pop
  dsimp only
  split <;> exact ⟨rfl, rfl⟩

structure StatesMove (R : StateDB → StateDB → Prop) (evm after : EVM) : Prop where
  publicState : R evm.publicState after.publicState
  alone : evm.vaultState = none → after.vaultState = none
  vaultState : ∀ v, evm.vaultState = some v → ∃ w, after.vaultState = some w ∧ R v w

section StatesMove

variable {R : StateDB → StateDB → Prop} (refl : ∀ s, R s s)

include refl

theorem states_move_set (evm : EVM) (side : Side) (t : StateDB) (moves : R (evm.get side) t) : StatesMove R evm (evm.set side t) := by
  cases side with
  | publicState => exact ⟨moves, id, fun w there => ⟨w, there, refl w⟩⟩
  | vaultState =>
    cases vault : evm.vaultState with
    | none =>
      rw [EVM.get, vault] at moves
      simp only [EVM.set, vault]
      exact ⟨moves, fun _ => rfl, fun w there => by cases vault.symm.trans there⟩
    | some v =>
      rw [EVM.get, vault] at moves
      simp only [EVM.set, vault]
      refine ⟨refl _, fun alone => (by cases vault.symm.trans alone), ?_⟩
      intro w there
      obtain rfl := Option.some.inj (vault.symm.trans there)
      exact ⟨t, rfl, moves⟩

variable {evm : EVM}

theorem states_move_same {after : EVM} (publicState : after.publicState = evm.publicState)
    (vaultState : after.vaultState = evm.vaultState) : StatesMove R evm after :=
  ⟨publicState ▸ refl _, fun alone => vaultState.trans alone, fun v there => ⟨v, vaultState.trans there, refl v⟩⟩

theorem handle_moves {pay : Accrual} {blockNumber : Nat} {rules : Rules} {command : Command}
    (snapshot : ∀ s : StateDB, R s s.snapshot.2)
    (revert : ∀ (s t : StateDB) (revid : Nat), s.revertToSnapshot revid = some t → R s t)
    (op : ∀ side op t, command = .apply side op → op.apply pay blockNumber (evm.get side) = some t → R (evm.get side) t) :
    StatesMove R evm (handle pay blockNumber rules command evm).2 := by
  cases command with
  | push side => exact states_move_same refl (push_states evm side).1 (push_states evm side).2
  | pop => exact states_move_same refl (pop_states evm).1 (pop_states evm).2
  | snapshot =>
    have taken := states_move_set refl evm evm.current (evm.get evm.current).snapshot.2 (snapshot _)
    exact ⟨taken.publicState, taken.alone, taken.vaultState⟩
  | revertToSnapshot side =>
    simp only [handle]
    cases reverted : evm.snapshots.head?.bind (evm.get side).revertToSnapshot with
    | none => exact states_move_same refl rfl rfl
    | some s =>
      obtain ⟨revid, _, found⟩ := Option.bind_eq_some_iff.mp reverted
      have moved := states_move_set refl evm.discard side s (revert _ s revid found)
      exact ⟨moved.publicState, moved.alone, moved.vaultState⟩
  | apply side change =>
    simp only [handle]
    cases applied : change.apply pay blockNumber (evm.get side) with
    | none => exact states_move_same refl rfl rfl
    | some s => exact states_move_set refl evm side s (op side change s rfl applied)
  | _ => exact states_move_same refl rfl rfl

end StatesMove

theorem states_move_all {P : StateDB → Prop} {evm after : EVM} (moves : StatesMove (fun s t => P s → P t) evm after)
    (holds : ∀ side, P (evm.get side)) (side : Side) : P (after.get side) := by
  have first := moves.publicState (holds .publicState)
  cases side with
  | publicState => exact first
  | vaultState =>
    have second := holds .vaultState
    cases vault : evm.vaultState with
    | none =>
      rw [EVM.get, moves.alone vault]
      exact first
    | some v =>
      obtain ⟨w, there, moved⟩ := moves.vaultState v vault
      rw [EVM.get, vault] at second
      rw [EVM.get, there]
      exact moved second

end Didux.Vm
