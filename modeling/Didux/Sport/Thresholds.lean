import Didux.Lib.Quorum
import Didux.Sport.FullnodeSet

set_option autoImplicit false

namespace Didux.Sport

namespace FullnodeSet

theorem ceil_div_three (n : Nat) : ((n ⌈/⌉ 3 : Nat) : Int) = ⌈(n : ℚ) / 3⌉ := by
  rw [eq_comm, Int.ceil_eq_iff, Nat.ceilDiv_eq_add_pred_div]
  have lower : (n + 3 - 1) / 3 * 3 < n + 3 := by omega
  have upper : n ≤ (n + 3 - 1) / 3 * 3 := by omega
  generalize (n + 3 - 1) / 3 = ceiling at lower upper
  have lower' : (ceiling : ℚ) * 3 < n + 3 := by exact_mod_cast lower
  have upper' : (n : ℚ) ≤ ceiling * 3 := by exact_mod_cast upper
  constructor
  · rw [Int.cast_natCast]
    linarith
  · rw [div_le_iff₀ (by norm_num)]
    exact upper'

variable (set : FullnodeSet)

theorem min_approvers_ceil : (set.minApprovers : Int) = ⌈(2 * set.size : ℚ) / 3⌉ := by
  rw [minApprovers, ceil_div_three]
  norm_cast

theorem max_faulty_ceil : (set.maxFaulty : Int) = ⌈((set.size : ℚ) + 1) / 3⌉ - 1 := by
  have positive : 1 ≤ (set.size + 1) ⌈/⌉ 3 := by
    rw [Nat.ceilDiv_eq_add_pred_div]
    omega
  have ceiling := ceil_div_three (set.size + 1)
  rw [maxFaulty, Nat.cast_sub positive, ceiling]
  norm_cast

theorem min_approvers_eq : set.minApprovers = (2 * set.size + 2) / 3 := by
  rfl

theorem max_faulty_eq : set.maxFaulty = set.size / 3 := by
  rw [maxFaulty, Nat.ceilDiv_eq_add_pred_div]
  omega

end FullnodeSet

structure QuorumSound (set : FullnodeSet) : Prop where
  overlap : ∀ left right : Finset Address, left ⊆ set.fullnodes.toFinset → right ⊆ set.fullnodes.toFinset →
    set.minApprovers ≤ left.card → set.minApprovers ≤ right.card → set.maxFaulty < (left ∩ right).card
  correct : ∀ left right faulty : Finset Address, left ⊆ set.fullnodes.toFinset → right ⊆ set.fullnodes.toFinset →
    set.minApprovers ≤ left.card → set.minApprovers ≤ right.card → faulty.card ≤ set.maxFaulty →
    ∃ a, a ∈ left ∧ a ∈ right ∧ a ∉ faulty
  available : set.minApprovers ≤ set.size - set.maxFaulty

theorem thresholds_sound_iff (set : FullnodeSet) (distinct : set.fullnodes.Nodup) (nonempty : 1 ≤ set.size) :
    QuorumSound set ↔ set.size % 3 ≠ 0 := by
  have members : set.fullnodes.toFinset.card = set.size := List.toFinset_card_of_nodup distinct
  have quorum := set.min_approvers_eq
  have faulty := set.max_faulty_eq
  constructor
  · intro sound multiple
    obtain ⟨left, right, leftIn, rightIn, leftCard, rightCard, shared⟩ :=
      Quorum.overlap_tight set.fullnodes.toFinset set.minApprovers (by omega) (by omega)
    have more := sound.overlap left right leftIn rightIn leftCard.ge rightCard.ge
    omega
  · intro residue
    have overlap : ∀ left right : Finset Address, left ⊆ set.fullnodes.toFinset → right ⊆ set.fullnodes.toFinset →
        set.minApprovers ≤ left.card → set.minApprovers ≤ right.card → set.maxFaulty < (left ∩ right).card := by
      intro left right leftIn rightIn leftLarge rightLarge
      have bound := Quorum.overlap_bound set.fullnodes.toFinset left right leftIn rightIn
      omega
    refine ⟨overlap, ?_, by omega⟩
    intro left right bad leftIn rightIn leftLarge rightLarge few
    have shared := overlap left right leftIn rightIn leftLarge rightLarge
    have inside : (bad ∩ (left ∩ right)).card ≤ bad.card := Finset.card_le_card Finset.inter_subset_left
    obtain ⟨a, present, good⟩ := Quorum.correct_member (left ∩ right) bad (by omega)
    exact ⟨a, (Finset.mem_inter.mp present).1, (Finset.mem_inter.mp present).2, good⟩

theorem thresholds_sound_four : QuorumSound ⟨[1, 2, 3, 4], 0, some 1⟩ :=
  (thresholds_sound_iff ⟨[1, 2, 3, 4], 0, some 1⟩ (by decide) (by decide)).mpr (by decide)

-- Of the members 1, 2 and 3, the groups {1, 2} and {2, 3} share only as many as may be faulty.
theorem thresholds_unsound_three : let set : FullnodeSet := ⟨[1, 2, 3], 0, some 1⟩
    set.minApprovers = 2 ∧ set.maxFaulty = 1 ∧ (({1, 2} : Finset Address) ∩ {2, 3}).card = 1 ∧ ¬ QuorumSound set := by
  refine ⟨by decide, by decide, by decide, ?_⟩
  intro sound
  have shared := sound.overlap {1, 2} {2, 3} (by decide) (by decide) (by decide) (by decide)
  exact absurd shared (by decide)

theorem min_approvers_two_f_plus_e (set : FullnodeSet) : 2 * set.maxFaulty + set.E ≤ set.minApprovers ↔ set.size % 3 ≠ 0 := by
  rw [set.min_approvers_eq, set.max_faulty_eq, FullnodeSet.E]
  omega

end Didux.Sport
