import Mathlib.Data.List.AList
import Mathlib.Data.Finset.Card

set_option autoImplicit false

namespace Didux

-- A finite map with one value for each key. Iteration takes the entries in the
-- order they are stored; nothing below depends on which order that is.
abbrev Assoc (κ ν : Type) := AList fun _ : κ => ν

namespace Assoc

variable {κ ν : Type}

def size (map : Assoc κ ν) : Nat := map.entries.length

def values (map : Assoc κ ν) : List ν := map.entries.map fun entry => entry.2

theorem values_length (map : Assoc κ ν) : (values map).length = size map := by
  simp [values, size]

variable [DecidableEq κ]

variable (map : Assoc κ ν)

theorem keys_card : map.keys.toFinset.card = size map := by
  rw [List.toFinset_card_of_nodup map.keys_nodup, AList.keys, size]
  simp [List.keys]

theorem mem_values_lookup (value : ν) (present : value ∈ values map) : ∃ key, map.lookup key = some value := by
  obtain ⟨⟨key, stored⟩, member, same⟩ := List.mem_map.mp present
  cases same
  exact ⟨key, AList.mem_lookup_iff.mpr member⟩

theorem mem_keys_lookup (key : κ) (present : key ∈ map.keys) : ∃ value, map.lookup key = some value :=
  Option.isSome_iff_exists.mp (AList.lookup_isSome.mpr (AList.mem_keys.mpr present))

theorem lookup_insert_cases (key query : κ) (value found : ν) (read : (map.insert key value).lookup query = some found) :
    (query = key ∧ found = value) ∨ map.lookup query = some found := by
  by_cases same : query = key
  · subst query
    rw [AList.lookup_insert] at read
    exact .inl ⟨rfl, (Option.some.inj read).symm⟩
  · rw [AList.lookup_insert_ne same] at read
    exact .inr read

theorem size_insert_le (key : κ) (value : ν) : size (map.insert key value) ≤ size map + 1 := by
  have keys (any : Assoc κ ν) : size any = any.keys.length := by simp [size, AList.keys, List.keys]
  rw [keys, keys, AList.keys_insert]
  exact Nat.succ_le_succ List.length_erase_le

end Assoc

end Didux
