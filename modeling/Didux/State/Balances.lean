import Didux.State.StateDB

set_option autoImplicit false

namespace Didux.State.StateDB

open Sport

theorem balance_update (accounts : Accounts) (a b : Address) (value : Option Object) :
    Accounts.getBalance (Function.update accounts a value) b =
      if b = a then (value.map fun o => o.balance).getD 0 else accounts.getBalance b := by
  unfold Accounts.getBalance
  by_cases same : b = a
  · rw [same, Function.update_self, if_pos rfl]
  · rw [Function.update_of_ne same, if_neg same]

section

variable (s : StateDB) (a b : Address)

theorem balance_modify (f : Object → Object) (keeps : ∀ o, (f o).balance = o.balance) :
    (s.modify a f).objects.getBalance b = s.objects.getBalance b := by
  have mapped : ((s.objects a).map f).map (fun o => o.balance) = (s.objects a).map fun o => o.balance := by
    simp only [Option.map_map, Function.comp_def, keeps]
  unfold modify
  rw [balance_update, mapped]
  split
  · rename_i same
    rw [same]
    rfl
  · rfl

theorem balance_write (change : Object → Change) (f : Object → Object) (keeps : ∀ o, (f o).balance = o.balance)
    : (s.write a change f).objects.getBalance b = s.objects.getBalance b := by
  unfold write
  cases live : s.objects a with
  | none => rfl
  | some o => exact balance_modify (s.append _) a b f keeps

theorem get_or_new_live : ∃ o, (s.getOrNewStateObject a).objects a = some o := by
  unfold getOrNewStateObject
  cases live : s.objects a with
  | none => exact ⟨newObject, by simp [createObject]⟩
  | some o => exact ⟨o, live⟩

theorem balance_get_or_new : (s.getOrNewStateObject a).objects.getBalance b = s.objects.getBalance b := by
  unfold getOrNewStateObject
  cases live : s.objects a with
  | some o => rfl
  | none =>
    unfold createObject
    rw [balance_update]
    split
    · rename_i same
      rw [same]
      simp [Accounts.getBalance, live, newObject]
    · rfl

theorem balance_create_account : (s.createAccount a).objects.getBalance b = s.objects.getBalance b := by
  unfold createAccount modify createObject
  dsimp only
  rw [balance_update, balance_update, Function.update_self]
  split
  · rename_i same
    rw [same]
    rfl
  · rfl

theorem balance_set_nonce (nonce : Nat) : (s.setNonce a nonce).objects.getBalance b = s.objects.getBalance b := by
  exact Eq.trans (balance_write _ a b _ _ fun _ => rfl) (balance_get_or_new s a b)

end

variable (pay : Accrual)

variable (s : StateDB) (a b : Address) (amount : Int) (blockNumber : Nat)

theorem balance_update_smilo_pay :
    (StateObject.updateSmiloPay pay s a blockNumber).objects.getBalance b = s.objects.getBalance b :=
  balance_write s a b _ _ (fun _ => rfl)

theorem live_write (change : Object → Change) (f : Object → Object) (o : Object) (live : s.objects a = some o)
    : (s.write a change f).objects a = some (f o) := by
  simp [write, live, append, modify]

theorem balance_set_balance (o : Object) (live : s.objects a = some o) :
    (StateObject.setBalance pay s a amount blockNumber).objects.getBalance b =
      if b = a then amount else s.objects.getBalance b := by
  have updated : (StateObject.updateSmiloPay pay s a blockNumber).objects a = some _ := live_write s a _ _ o live
  unfold StateObject.setBalance write
  simp only [modify, append, balance_update, updated]
  split
  · rfl
  · exact balance_update_smilo_pay pay s a b blockNumber

theorem balance_touch : (StateObject.touch s a).objects.getBalance b = s.objects.getBalance b := by
  have touched := balance_write s a b (fun _ => .touch) id (fun _ => rfl)
  unfold StateObject.touch
  split <;> exact touched

theorem balance_add_balance : (s.addBalance pay a amount blockNumber).objects.getBalance b =
      s.objects.getBalance b + if b = a then amount else 0 := by
  obtain ⟨o, live⟩ := get_or_new_live s a
  unfold addBalance StateObject.addBalance
  by_cases zero : amount = 0
  · rw [if_pos zero, zero, ite_self, Int.add_zero, ← balance_get_or_new s a b]
    split
    · exact balance_touch _ a b
    · rfl
  · have updated : (StateObject.updateSmiloPay pay (s.getOrNewStateObject a) a blockNumber).objects a = some _ :=
      live_write _ a _ _ o live
    rw [if_neg zero]
    rw [balance_set_balance pay _ a b _ blockNumber _ updated, balance_update_smilo_pay, balance_update_smilo_pay,
      balance_get_or_new, balance_get_or_new]
    split
    · rename_i same
      rw [same]
    · rw [Int.add_zero]

theorem balance_sub_balance : (s.subBalance pay a amount blockNumber).objects.getBalance b =
      s.objects.getBalance b - if b = a then amount else 0 := by
  obtain ⟨o, live⟩ := get_or_new_live s a
  unfold subBalance StateObject.subBalance
  by_cases zero : amount = 0
  · rw [if_pos zero, zero, ite_self, Int.sub_zero, balance_get_or_new]
  · rw [if_neg zero, balance_set_balance pay _ a b _ blockNumber _ live, balance_get_or_new, balance_get_or_new]
    split
    · rename_i same
      rw [same]
    · rw [Int.sub_zero]

theorem balance_sub_smilo_pay : (s.subSmiloPay pay a amount blockNumber).objects.getBalance b = s.objects.getBalance b := by
  unfold subSmiloPay StateObject.subSmiloPay
  split
  · exact balance_get_or_new s a b
  · refine Eq.trans (balance_write _ a b _ _ fun _ => rfl) ?_
    rw [balance_update_smilo_pay, balance_get_or_new]

end Didux.State.StateDB
