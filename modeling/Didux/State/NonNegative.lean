import Didux.State.Balances

set_option autoImplicit false

namespace Didux.State

open Sport Option

theorem calculate_nonneg (pay : Accrual) (prevBlock newBlock : Nat) (prevSmiloPay balance : Int) (positive : 0 ≤ prevSmiloPay) :
    0 ≤ pay.calculateSmiloPay prevBlock newBlock prevSmiloPay balance := by
  have gap : (0 : ℚ) ≤ (newBlock - prevBlock : Nat) * pay.speed balance :=
    mul_nonneg (Nat.cast_nonneg _) (pay.speed_nonneg balance)
  have sum : ∀ precision, (0 : ℚ) ≤ prevSmiloPay + pay.round precision ((newBlock - prevBlock : Nat) * pay.speed balance) :=
    fun precision => add_nonneg (Int.cast_nonneg positive) (pay.round_nonneg precision _ gap)
  unfold Accrual.calculateSmiloPay
  split
  · exact positive
  · dsimp only
    split
    · exact pay.maximum_nonneg balance
    · exact Int.tdiv_nonneg (Rat.num_nonneg.mpr (pay.round_nonneg _ _ (pay.round_nonneg _ _ (sum _)))) (Int.natCast_nonneg _)

def Account.NonNegative (data : Account) : Prop := 0 ≤ data.balance ∧ 0 ≤ data.smiloPay

-- rlp refuses negative numbers, and updateStateObject panics where it does.
def Account.encodable (data : Account) : Bool := 0 ≤ data.balance && 0 ≤ data.smiloPay

theorem nonnegative_encodable (data : Account) (holds : data.NonNegative) : data.encodable = true := by
  simp only [Account.encodable, holds.1, holds.2, decide_true, Bool.and_self]

def Each {α : Type} (P : α → Prop) (table : Address → Option α) : Prop := ∀ a x, table a = some x → P x

theorem each_update {α : Type} (P : α → Prop) (table : Address → Option α) (a : Address) (value : Option α)
    (each : Each P table) (here : ∀ x, value = some x → P x) : Each P (Function.update table a value) := by
  intro b x read
  by_cases same : b = a
  · rw [same, Function.update_self] at read
    exact here x read
  · rw [Function.update_of_ne same] at read
    exact each b x read

def Object.NonNegative (o : Object) : Prop := o.toAccount.NonNegative

def Entry.NonNegative : Entry → Prop
  | .resetObject _ prev => prev.NonNegative
  | .account _ change => ∀ o : Object, o.NonNegative → (change.revert o).NonNegative
  | _ => True

structure StateDB.NonNegative (s : StateDB) : Prop where
  trie : Each Account.NonNegative s.trie
  objects : Each Object.NonNegative s.objects
  deleted : Each Object.NonNegative s.deleted
  entries : ∀ entry ∈ s.entries, entry.NonNegative

namespace StateDB

variable {s : StateDB}

variable (holds : s.NonNegative)

include holds

theorem nonneg_balance (a : Address) : 0 ≤ s.objects.getBalance a := by
  unfold Accounts.getBalance
  cases live : s.objects a with
  | none => exact Int.le_refl 0
  | some o => exact (holds.objects a o live).1

theorem nonneg_append (entry : Entry) (sound : entry.NonNegative) : (s.append entry).NonNegative where
  trie := holds.trie
  objects := holds.objects
  deleted := holds.deleted
  entries := by
    intro e member
    rcases List.mem_cons.mp member with here | older
    · exact here ▸ sound
    · exact holds.entries e older

variable {a : Address} {f : Object → Object} {change : Object → Change} {amount : Int} {blockNumber : Nat}

theorem nonneg_modify (keeps : ∀ o, s.objects a = some o → (f o).NonNegative) : (s.modify a f).NonNegative where
  trie := holds.trie
  objects := by
    apply each_update _ _ _ _ holds.objects
    intro x mapped
    obtain ⟨o, live, rfl⟩ := map_eq_some_iff.mp mapped
    exact keeps o live
  deleted := holds.deleted
  entries := holds.entries

theorem nonneg_write (sound : ∀ o : Object, o.NonNegative → (Entry.account a (change o)).NonNegative)
    (keeps : ∀ o, s.objects a = some o → o.NonNegative → (f o).NonNegative) : (s.write a change f).NonNegative := by
  unfold write
  cases live : s.objects a with
  | none => exact holds
  | some o =>
    have nonneg := holds.objects a o live
    apply nonneg_modify (nonneg_append holds _ (sound o nonneg))
    intro p same
    exact keeps p same (holds.objects a p same)

omit holds

theorem new_object_nonneg : newObject.NonNegative := ⟨Int.le_refl 0, Int.le_refl 0⟩

theorem nonneg_create_object (holds : s.NonNegative) : (s.createObject a).NonNegative := by
  have fresh : ∀ x, some newObject = some x → Object.NonNegative x := fun x same => some.inj same ▸ new_object_nonneg
  unfold createObject
  cases live : s.objects a with
  | none =>
    have journaled := nonneg_append holds (.createObject a) trivial
    exact ⟨journaled.trie, each_update _ _ _ _ holds.objects fresh, each_update _ _ _ _ holds.deleted (by simp), journaled.entries⟩
  | some prev =>
    have journaled := nonneg_append holds (.resetObject a prev) (holds.objects a prev live)
    exact ⟨journaled.trie, each_update _ _ _ _ holds.objects fresh, each_update _ _ _ _ holds.deleted (by simp), journaled.entries⟩

theorem nonneg_get_or_new (holds : s.NonNegative) (a : Address) : (s.getOrNewStateObject a).NonNegative := by
  unfold getOrNewStateObject
  cases live : s.objects a with
  | none => exact nonneg_create_object holds
  | some o => exact holds

theorem nonneg_create_account (holds : s.NonNegative) (a : Address) : (s.createAccount a).NonNegative := by
  apply nonneg_modify (nonneg_create_object holds)
  intro o live
  have fresh : newObject = o := by simpa [createObject] using live
  subst fresh
  exact ⟨nonneg_balance holds a, Int.le_refl 0⟩

theorem nonneg_touch (holds : s.NonNegative) : (StateObject.touch s a).NonNegative := by
  have touched : (s.write a (fun _ => .touch) id).NonNegative :=
    nonneg_write holds (fun _ _ _ nonneg => nonneg) (fun _ _ nonneg => nonneg)
  unfold StateObject.touch
  split
  · exact ⟨touched.trie, touched.objects, touched.deleted, touched.entries⟩
  · exact touched

variable (pay : Accrual)

theorem nonneg_update_smilo_pay (holds : s.NonNegative) (a : Address) (blockNumber : Nat) :
    (StateObject.updateSmiloPay pay s a blockNumber).NonNegative := by
  apply nonneg_write holds
  · intro o nonneg p other
    exact ⟨other.1, nonneg.2⟩
  · intro o _ nonneg
    exact ⟨nonneg.1, calculate_nonneg pay _ _ _ _ nonneg.2⟩

theorem nonneg_set_balance (holds : s.NonNegative) (positive : 0 ≤ amount) :
    (StateObject.setBalance pay s a amount blockNumber).NonNegative := by
  apply nonneg_write (nonneg_update_smilo_pay pay holds a blockNumber)
  · intro o nonneg p other
    exact ⟨nonneg.1, other.2⟩
  · intro o _ nonneg
    exact ⟨positive, nonneg.2⟩

theorem nonneg_add_balance (holds : s.NonNegative) (a : Address) (amount : Int) (blockNumber : Nat) (positive : 0 ≤ amount) :
    (s.addBalance pay a amount blockNumber).NonNegative := by
  have live := nonneg_get_or_new holds a
  unfold addBalance StateObject.addBalance
  split
  · split
    · exact nonneg_touch live
    · exact live
  · have updated := nonneg_update_smilo_pay pay live a blockNumber
    exact nonneg_set_balance pay updated (Int.add_nonneg (nonneg_balance updated a) positive)

theorem nonneg_sub_balance (holds : s.NonNegative) (a : Address) (amount : Int) (blockNumber : Nat)
    (enough : amount ≤ s.objects.getBalance a) : (s.subBalance pay a amount blockNumber).NonNegative := by
  have live := nonneg_get_or_new holds a
  unfold subBalance StateObject.subBalance
  split
  · exact live
  · apply nonneg_set_balance pay live
    rw [balance_get_or_new]
    exact Int.sub_nonneg.mpr enough

theorem updated_smilo_pay :
    StateObject.smiloPay (StateObject.updateSmiloPay pay s a blockNumber) a = s.objects.getSmiloPay pay a blockNumber := by
  unfold StateObject.smiloPay StateObject.updateSmiloPay write Accounts.getSmiloPay
  cases live : s.objects a with
  | none => simp [live]
  | some o => simp [append, modify, live]

theorem get_or_new_smilo_pay (enough : amount ≤ s.objects.getSmiloPay pay a blockNumber) :
    amount ≤ (s.getOrNewStateObject a).objects.getSmiloPay pay a blockNumber := by
  unfold getOrNewStateObject
  cases live : s.objects a with
  | some o => exact enough
  | none =>
    have none_left : amount ≤ 0 := by simpa [Accounts.getSmiloPay, live] using enough
    have accrued := calculate_nonneg pay newObject.blockNumber blockNumber newObject.smiloPay newObject.balance (Int.le_refl 0)
    simpa [createObject, Accounts.getSmiloPay] using Int.le_trans none_left accrued

theorem nonneg_sub_smilo_pay (holds : s.NonNegative) (a : Address) (amount : Int) (blockNumber : Nat)
    (enough : amount ≤ s.objects.getSmiloPay pay a blockNumber) : (s.subSmiloPay pay a amount blockNumber).NonNegative := by
  have live := nonneg_get_or_new holds a
  unfold subSmiloPay StateObject.subSmiloPay
  split
  · exact live
  · apply nonneg_write (nonneg_update_smilo_pay pay live a blockNumber)
    · intro o nonneg p other
      exact ⟨other.1, nonneg.2⟩
    · intro o _ nonneg
      refine ⟨nonneg.1, ?_⟩
      rw [updated_smilo_pay]
      exact Int.sub_nonneg.mpr (get_or_new_smilo_pay pay enough)

theorem sub_smilo_pay_left (s : StateDB) (a : Address) (amount : Int) (blockNumber : Nat) (o : Object)
    (live : s.objects a = some o) (some_taken : amount ≠ 0) :
    StateObject.smiloPay (s.subSmiloPay pay a amount blockNumber) a = s.objects.getSmiloPay pay a blockNumber - amount := by
  have same : s.getOrNewStateObject a = s := by simp only [getOrNewStateObject, live]
  have updated : (StateObject.updateSmiloPay pay s a blockNumber).objects a = some _ := live_write s a _ _ o live
  unfold subSmiloPay StateObject.subSmiloPay StateObject.setSmiloPay
  rw [if_neg some_taken, same]
  dsimp only
  rw [updated_smilo_pay, StateObject.smiloPay, live_write _ a _ _ _ updated]
  rfl

theorem nonneg_plain_write (holds : s.NonNegative)
    (reverts : ∀ o p, ((change o).revert p).balance = p.balance ∧ ((change o).revert p).smiloPay = p.smiloPay)
    (keeps : ∀ o, (f o).balance = o.balance ∧ (f o).smiloPay = o.smiloPay) : (s.write a change f).NonNegative := by
  apply nonneg_write holds
  · intro o _ p other
    obtain ⟨balance, smiloPay⟩ := reverts o p
    exact ⟨balance ▸ other.1, smiloPay ▸ other.2⟩
  · intro o _ nonneg
    obtain ⟨balance, smiloPay⟩ := keeps o
    exact ⟨balance ▸ nonneg.1, smiloPay ▸ nonneg.2⟩

theorem nonneg_set_nonce (holds : s.NonNegative) (a : Address) (nonce : Nat) : (s.setNonce a nonce).NonNegative :=
  nonneg_plain_write (nonneg_get_or_new holds a) (fun _ _ => ⟨rfl, rfl⟩) (fun _ => ⟨rfl, rfl⟩)

theorem nonneg_set_code (holds : s.NonNegative) (a : Address) (code : Bytes) : (s.setCode a code).NonNegative :=
  nonneg_plain_write (nonneg_get_or_new holds a) (fun _ _ => ⟨rfl, rfl⟩) (fun _ => ⟨rfl, rfl⟩)

theorem nonneg_set_state (holds : s.NonNegative) (a : Address) (key value : Hash) : (s.setState a key value).NonNegative := by
  have live := nonneg_get_or_new holds a
  unfold setState StateObject.setState
  split
  · exact live
  · exact nonneg_plain_write live (fun _ _ => ⟨rfl, rfl⟩) (fun _ => ⟨rfl, rfl⟩)

theorem nonneg_suicide (holds : s.NonNegative) (a : Address) : (s.suicide a).NonNegative := by
  apply nonneg_write holds
  · intro o nonneg p other
    exact ⟨nonneg.1, other.2⟩
  · intro o _ nonneg
    exact ⟨Int.le_refl 0, nonneg.2⟩

variable {t : StateDB}

theorem nonneg_of_same (holds : s.NonNegative) (trie : t.trie = s.trie) (objects : t.objects = s.objects)
    (deleted : t.deleted = s.deleted) (entries : t.entries = s.entries) : t.NonNegative :=
  ⟨trie ▸ holds.trie, objects ▸ holds.objects, deleted ▸ holds.deleted, entries ▸ holds.entries⟩

theorem nonneg_add_refund (holds : s.NonNegative) (gas : Nat) : (s.addRefund gas).NonNegative :=
  nonneg_of_same (nonneg_append holds (.refund s.refund) trivial) rfl rfl rfl rfl

theorem nonneg_sub_refund (holds : s.NonNegative) (gas : Nat) (done : s.subRefund gas = some t) :
    t.NonNegative := by
  unfold subRefund at done
  split at done
  · contradiction
  · obtain rfl := some.inj done
    exact nonneg_of_same (nonneg_append holds (.refund s.refund) trivial) rfl rfl rfl rfl

theorem nonneg_add_log (holds : s.NonNegative) (a : Address) (topics : List Hash) (data : Bytes) (blockNumber : Nat) :
    (s.addLog a topics data blockNumber).NonNegative :=
  nonneg_of_same (nonneg_append holds (.addLog s.thash) trivial) rfl rfl rfl rfl

theorem nonneg_undo (holds : s.NonNegative) {entry : Entry} (sound : entry.NonNegative) : (s.undo entry).NonNegative := by
  cases entry with
  | createObject a => exact ⟨holds.trie, each_update _ _ _ _ holds.objects (by simp), holds.deleted, holds.entries⟩
  | resetObject a prev =>
    have back : ∀ x, some prev = some x → Object.NonNegative x := fun x same => some.inj same ▸ sound
    exact ⟨holds.trie, each_update _ _ _ _ holds.objects back, holds.deleted, holds.entries⟩
  | account a change => exact nonneg_modify holds fun o live => sound o (holds.objects a o live)
  | refund prev => exact nonneg_of_same holds rfl rfl rfl rfl
  | addLog txhash => exact nonneg_of_same holds rfl rfl rfl rfl
  | addPreimage hash => exact nonneg_of_same holds rfl rfl rfl rfl

theorem nonneg_unwind {n : Nat} (holds : s.NonNegative) : (unwind n s).NonNegative := by
  induction n generalizing s with
  | zero => exact holds
  | succ n ih =>
    unfold unwind
    cases journal : s.entries with
    | nil => exact holds
    | cons entry rest =>
      have sound := holds.entries entry (by simp [journal])
      have undone := nonneg_undo holds sound
      apply ih
      refine ⟨undone.trie, undone.objects, undone.deleted, ?_⟩
      intro e member
      exact holds.entries e (by simp [journal, member])

theorem nonneg_snapshot (holds : s.NonNegative) : s.snapshot.2.NonNegative := nonneg_of_same holds rfl rfl rfl rfl

theorem nonneg_prepare (holds : s.NonNegative) (thash bhash : Hash) (txIndex : Nat) :
    (s.prepare thash bhash txIndex).NonNegative := nonneg_of_same holds rfl rfl rfl rfl

theorem nonneg_revert (holds : s.NonNegative) (revid : Nat) (done : s.revertToSnapshot revid = some t) :
    t.NonNegative := by
  unfold revertToSnapshot at done
  split at done
  · contradiction
  · split at done
    · contradiction
    · obtain rfl := some.inj done
      exact nonneg_of_same (nonneg_unwind holds) rfl rfl rfl rfl

theorem nonneg_new (trie : Address → Option Account) (holds : Each Account.NonNegative trie) : (new trie).NonNegative where
  trie := holds
  objects a o live := by
    obtain ⟨data, stored, rfl⟩ := map_eq_some_iff.mp live
    exact holds a data stored
  deleted _ _ absent := by contradiction
  entries := by simp [new]

theorem nonneg_finalise (holds : s.NonNegative) (deleteEmptyObjects : Bool) : (s.finalise deleteEmptyObjects).NonNegative where
  trie a data read := by
    simp only [finalise, clearJournalAndRefund] at read
    split at read
    · exact holds.trie a data read
    · rename_i o dirty
      have live : s.objects a = some o := by grind
      split at read
      · contradiction
      · exact some.inj read ▸ holds.objects a o live
  objects a p read := by
    simp only [finalise, clearJournalAndRefund] at read
    split at read
    · exact holds.objects a p read
    · rename_i o dirty
      have live : s.objects a = some o := by grind
      split at read
      · contradiction
      · exact some.inj read ▸ holds.objects a o live
  deleted a p read := by
    simp only [finalise, clearJournalAndRefund] at read
    split at read
    · exact holds.deleted a p read
    · rename_i o dirty
      have live : s.objects a = some o := by grind
      split at read
      · exact some.inj read ▸ holds.objects a o live
      · contradiction
  entries := by simp [finalise, clearJournalAndRefund]

theorem nonneg_commit (holds : s.NonNegative) (deleteEmptyObjects : Bool) : (s.commit deleteEmptyObjects).NonNegative := by
  have live : ∀ a o, (s.objects a).or (s.deleted a) = some o → o.NonNegative := by
    intro a o read
    rcases or_eq_some_iff.mp read with here | ⟨_, gone⟩
    · exact holds.objects a o here
    · exact holds.deleted a o gone
  constructor
  · intro a data read
    simp only [commit, clearJournalAndRefund] at read
    split at read
    · exact holds.trie a data read
    · rename_i o here
      have nonneg := live a o here
      split at read
      · contradiction
      · split at read
        · exact some.inj read ▸ nonneg
        · exact holds.trie a data read
  · intro a p read
    simp only [commit, clearJournalAndRefund] at read
    split at read
    · contradiction
    · rename_i o here
      have nonneg := holds.objects a o here
      split at read
      · contradiction
      · split at read <;> exact some.inj read ▸ nonneg
  · intro a p read
    simp only [commit, clearJournalAndRefund] at read
    split at read
    · contradiction
    · rename_i o here
      split at read
      · exact some.inj read ▸ live a o here
      · exact holds.deleted a p read
  · simp [commit, clearJournalAndRefund]

end StateDB

end Didux.State
