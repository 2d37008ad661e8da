import Mathlib.Data.Finset.Card

set_option autoImplicit false

namespace Didux.Quorum

variable {α β : Type} [DecidableEq α]

variable (members : Finset α)

theorem overlap_bound (left right : Finset α) (leftIn : left ⊆ members) (rightIn : right ⊆ members) :
    left.card + right.card ≤ members.card + (left ∩ right).card := by
  have union : (left ∪ right).card ≤ members.card := Finset.card_le_card (Finset.union_subset leftIn rightIn)
  have split := Finset.card_union_add_card_inter left right
  omega

theorem overlap_tight (quorum : Nat) (fits : quorum ≤ members.card) (most : members.card ≤ 2 * quorum) :
    ∃ left right, left ⊆ members ∧ right ⊆ members ∧ left.card = quorum ∧ right.card = quorum ∧
      (left ∩ right).card + members.card = 2 * quorum := by
  obtain ⟨left, leftIn, leftCard⟩ := Finset.exists_subset_card_eq fits
  have outside : (members \ left).card = members.card - quorum := by
    rw [Finset.card_sdiff_of_subset leftIn, leftCard]
  have room : 2 * quorum - members.card ≤ left.card := by omega
  obtain ⟨shared, sharedIn, sharedCard⟩ := Finset.exists_subset_card_eq room
  have apart : Disjoint (members \ left) shared := Finset.disjoint_of_subset_right sharedIn Finset.sdiff_disjoint
  have meet : left ∩ (members \ left ∪ shared) = shared := by
    rw [Finset.inter_union_distrib_left, Finset.inter_sdiff_self, Finset.empty_union]
    exact Finset.inter_eq_right.mpr sharedIn
  refine ⟨left, members \ left ∪ shared, leftIn, ?_, leftCard, ?_, ?_⟩
  · exact Finset.union_subset Finset.sdiff_subset (sharedIn.trans leftIn)
  · rw [Finset.card_union_of_disjoint apart]
    omega
  · rw [meet]
    omega

theorem correct_member (group faulty : Finset α) (larger : (faulty ∩ group).card < group.card) : ∃ a ∈ group, a ∉ faulty := by
  by_contra none
  have covered : group ⊆ faulty ∩ group := by
    intro a present
    by_cases bad : a ∈ faulty
    · exact Finset.mem_inter.mpr ⟨bad, present⟩
    · exact False.elim (none ⟨a, present, bad⟩)
  have bound := Finset.card_le_card covered
  omega

theorem correct_overlap (faulty left right : Finset α) (quorum : Nat) (leftIn : left ⊆ members) (rightIn : right ⊆ members)
    (leftLarge : quorum ≤ left.card) (rightLarge : quorum ≤ right.card) (few : (faulty ∩ members).card + members.card < 2 * quorum) :
    ∃ a, a ∈ left ∧ a ∈ right ∧ a ∉ faulty := by
  have shared := overlap_bound members left right leftIn rightIn
  have inside : (faulty ∩ (left ∩ right)).card ≤ (faulty ∩ members).card := by
    apply Finset.card_le_card
    apply Finset.inter_subset_inter (fun _ present => present)
    exact fun a present => leftIn (Finset.mem_inter.mp present).1
  obtain ⟨a, present, correct⟩ := correct_member (left ∩ right) faulty (by omega)
  exact ⟨a, (Finset.mem_inter.mp present).1, (Finset.mem_inter.mp present).2, correct⟩

-- Correct members make one choice each, so two quorums that each stand behind a
-- value stand behind the same one.
theorem quorum_choice_unique (faulty left right : Finset α) (quorum : Nat) (choice : α → β) (x y : β) (leftIn : left ⊆ members)
    (rightIn : right ⊆ members) (leftLarge : quorum ≤ left.card) (rightLarge : quorum ≤ right.card)
    (few : (faulty ∩ members).card + members.card < 2 * quorum) (leftChose : ∀ a ∈ left, a ∉ faulty → choice a = x)
    (rightChose : ∀ a ∈ right, a ∉ faulty → choice a = y) : x = y := by
  obtain ⟨a, inLeft, inRight, correct⟩ :=
    correct_overlap members faulty left right quorum leftIn rightIn leftLarge rightLarge few
  exact (leftChose a inLeft correct).symm.trans (rightChose a inRight correct)

end Didux.Quorum
