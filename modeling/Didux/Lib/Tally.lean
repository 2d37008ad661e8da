import Didux.Lib.Assoc
import Mathlib.Data.List.Count

set_option autoImplicit false

namespace Didux

variable {α κ ν : Type} [DecidableEq κ]

def countKey (key : α → κ) (items : List α) (k : κ) : Nat := items.countP fun item => key item = k

def TalliedAt (key : α → κ) (entry : κ → Nat → ν) (table : Assoc κ ν) (items : List α) (k : κ) : Prop :=
  table.lookup k = if countKey key items k = 0 then none else some (entry k (countKey key items k))

variable (key : α → κ) (entry : κ → Nat → ν)

theorem count_key_cons (item : α) (items : List α) (k : κ) :
    countKey key (item :: items) k = countKey key items k + if key item = k then 1 else 0 := by
  simp [countKey, List.countP_cons]

theorem count_key_perm (left right : List α) (same : left.Perm right) (k : κ) : countKey key left k = countKey key right k :=
  same.countP_eq _

variable (table : Assoc κ ν) (items : List α) (k : κ)

theorem count_key_eq_zero_iff : countKey key items k = 0 ↔ ∀ item ∈ items, key item ≠ k := by
  simp [countKey]

theorem tallied_nil : TalliedAt key entry (∅ : Assoc κ ν) ([] : List α) k := rfl

theorem tallied_perm (left right : List α) (same : left.Perm right) (k : κ)
    (tallied : TalliedAt key entry table left k) : TalliedAt key entry table right k := by
  rw [TalliedAt, ← count_key_perm key left right same k]
  exact tallied

theorem tallied_cons_other (item : α) (items : List α) (k : κ) (other : key item ≠ k) :
    TalliedAt key entry table (item :: items) k ↔ TalliedAt key entry table items k := by
  rw [TalliedAt, TalliedAt, count_key_cons, if_neg other, Nat.add_zero]

theorem tallied_insert_other (changed : κ) (value : ν) (other : changed ≠ k)
    (tallied : TalliedAt key entry table items k) : TalliedAt key entry (table.insert changed value) items k := by
  rw [TalliedAt, AList.lookup_insert_ne (Ne.symm other)]
  exact tallied

theorem tallied_erase_other (changed : κ) (other : changed ≠ k) (tallied : TalliedAt key entry table items k)
    : TalliedAt key entry (table.erase changed) items k := by
  rw [TalliedAt, AList.lookup_erase_ne (Ne.symm other)]
  exact tallied

theorem tallied_insert (occurs : countKey key items k ≠ 0) :
    TalliedAt key entry (table.insert k (entry k (countKey key items k))) items k := by
  rw [TalliedAt, AList.lookup_insert, if_neg occurs]

theorem tallied_erase (gone : countKey key items k = 0) : TalliedAt key entry (table.erase k) items k := by
  rw [TalliedAt, AList.lookup_erase, if_pos gone]

theorem tallied_lookup_some (value : ν) (tallied : TalliedAt key entry table items k) (found : table.lookup k = some value) :
    countKey key items k ≠ 0 ∧ value = entry k (countKey key items k) := by
  rw [TalliedAt] at tallied
  by_cases gone : countKey key items k = 0
  · rw [if_pos gone, found] at tallied
    cases tallied
  · rw [if_neg gone, found] at tallied
    exact ⟨gone, Option.some.inj tallied⟩

theorem tallied_lookup_none (tallied : TalliedAt key entry table items k) (missing : table.lookup k = none)
    : countKey key items k = 0 := by
  by_contra occurs
  rw [TalliedAt, if_neg occurs, missing] at tallied
  cases tallied

end Didux
