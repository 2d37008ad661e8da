import Mathlib

set_option autoImplicit false

namespace Didux

-- A queue that hands out a value of greatest priority first: a binary heap, in which the children of position `i` are at
-- `2 * i + 1` and `2 * i + 2`. Values of equal priority leave in the order that the heap makes of them.
abbrev Prque (α : Type) := List (Int × α)

namespace Prque

variable {α : Type}

def less (queue : Prque α) (i j : Nat) : Bool :=
  match queue[i]?, queue[j]? with
  | some first, some second => second.1 < first.1
  | _, _ => false

def swap (queue : Prque α) (i j : Nat) : Prque α :=
  match queue[i]?, queue[j]? with
  | some first, some second => (queue.set i second).set j first
  | _, _ => queue

def up : Nat → Nat → Prque α → Prque α
  | 0, _, queue => queue
  | fuel + 1, j, queue =>
    let i := (j - 1) / 2
    if queue.less j i then up fuel i (queue.swap i j) else queue

def down : Nat → Nat → Prque α → Prque α
  | 0, _, queue => queue
  | fuel + 1, i, queue =>
    let j := if queue.less (2 * i + 2) (2 * i + 1) then 2 * i + 2 else 2 * i + 1
    if queue.less j i then down fuel j (queue.swap i j) else queue

def push (queue : Prque α) (value : α) (priority : Int) : Prque α :=
  up queue.length queue.length (queue ++ [(priority, value)])

def pop : Prque α → Option ((Int × α) × Prque α)
  | [] => none
  | best :: rest => some (best, down rest.length 0 (swap (best :: rest) 0 rest.length).dropLast)

-- Past the end there is nothing, which is less than any priority.
def priority (queue : Prque α) (i : Nat) : WithBot Int := queue[i]?.map Prod.fst

def Heaped (queue : Prque α) : Prop := ∀ k, queue.priority k ≤ queue.priority ((k - 1) / 2)

variable {queue : Prque α} {fuel i j : Nat}

theorem priority_some (inside : i < queue.length) : queue.priority i = ((queue[i].1 : Int) : WithBot Int) := by
  rw [priority, List.getElem?_eq_getElem inside]
  rfl

theorem priority_end (outside : queue.length ≤ i) : queue.priority i = ⊥ := by
  rw [priority, List.getElem?_eq_none outside]
  rfl

theorem heaped_nil : Heaped ([] : Prque α) := fun _ => le_refl _

theorem less_iff (queue : Prque α) (upper : i ≤ j) : queue.less j i = true ↔ queue.priority i < queue.priority j := by
  by_cases inside : j < queue.length
  · have also : i < queue.length := Nat.lt_of_le_of_lt upper inside
    rw [priority_some inside, priority_some also, WithBot.coe_lt_coe]
    simp [less, inside, also]
  · have none : queue[j]? = none := List.getElem?_eq_none (Nat.not_lt.mp inside)
    rw [priority_end (Nat.not_lt.mp inside)]
    simp [less, none]

theorem less_inside (less : queue.less j i = true) : j < queue.length := by
  by_contra outside
  have none : queue[j]? = none := List.getElem?_eq_none (Nat.not_lt.mp outside)
  simp [Prque.less, none] at less

theorem swap_perm : (queue.swap i j).Perm queue := by
  unfold swap
  split
  · next first second here there =>
      obtain ⟨low, rfl⟩ := List.getElem?_eq_some_iff.mp here
      obtain ⟨high, rfl⟩ := List.getElem?_eq_some_iff.mp there
      exact List.set_set_perm low high
  · exact .refl _

theorem priority_swap (queue : Prque α) (first : i < queue.length) (second : j < queue.length) (k : Nat) :
    (queue.swap i j).priority k = queue.priority (if k = i then j else if k = j then i else k) := by
  unfold priority swap
  rw [List.getElem?_eq_getElem first, List.getElem?_eq_getElem second]
  grind

-- Only `j` may be above its parent, and what is below `j` fits below that parent.
theorem up_heaped (queue : Prque α) (fuel j : Nat) (enough : j ≤ fuel)
    (others : ∀ k, k ≠ j → queue.priority k ≤ queue.priority ((k - 1) / 2))
    (below : ∀ k, k ≠ j → (k - 1) / 2 = j → queue.priority k ≤ queue.priority ((j - 1) / 2)) : Heaped (up fuel j queue) := by
  induction fuel generalizing j queue with
  | zero =>
    intro k
    rcases Nat.eq_zero_or_pos k with rfl | inner
    · exact le_refl _
    · exact others k (by omega)
  | succ fuel ih =>
    rw [up]
    have parent : (j - 1) / 2 ≤ j := by omega
    have aunt := others ((j - 1) / 2)
    split
    · next larger =>
        have inside := less_inside larger
        have swapped := priority_swap queue (Nat.lt_of_le_of_lt parent inside) inside
        have less := (less_iff queue parent).mp larger
        have lower : (j - 1) / 2 ≠ j := fun same => absurd less (by simp [same])
        apply ih
        · omega
        · intro k other
          have edge := others k
          have niece := below k
          rw [swapped, swapped]
          clear others below ih
          split_ifs <;> grind
        · intro k other child
          have edge := others k
          rw [swapped, swapped]
          clear others below ih
          split_ifs <;> grind
    · next smaller =>
        have most := not_lt.mp (mt (less_iff queue parent).mpr smaller)
        intro k
        by_cases here : k = j
        · exact here ▸ most
        · exact others k here

theorem larger_child {queue : Prque α} {i j : Nat}
    (chosen : (if queue.less (2 * i + 2) (2 * i + 1) then 2 * i + 2 else 2 * i + 1) = j) : (j = 2 * i + 1 ∨ j = 2 * i + 2) ∧
      queue.priority (2 * i + 1) ≤ queue.priority j ∧ queue.priority (2 * i + 2) ≤ queue.priority j := by
  have pick := less_iff queue (Nat.le_succ (2 * i + 1))
  split_ifs at chosen <;> grind

-- Only the children of `i` may be above their parent, and they fit below the parent of `i`.
theorem down_heaped (queue : Prque α) (fuel i : Nat) (enough : queue.length ≤ i + fuel)
    (others : ∀ k, (k - 1) / 2 ≠ i → queue.priority k ≤ queue.priority ((k - 1) / 2))
    (below : ∀ k, (k - 1) / 2 = i → 0 < i → queue.priority k ≤ queue.priority ((i - 1) / 2)) : Heaped (down fuel i queue) := by
  induction fuel generalizing i queue with
  | zero =>
    intro k
    by_cases child : (k - 1) / 2 = i
    · rcases Nat.eq_zero_or_pos k with rfl | inner
      · exact le_refl _
      · have outside : Prque.priority (down 0 i queue) k = ⊥ := priority_end (by rw [down]; omega)
        exact outside ▸ bot_le
    · exact others k child
  | succ fuel ih =>
    rw [down]
    generalize chosen : (if queue.less (2 * i + 2) (2 * i + 1) then 2 * i + 2 else 2 * i + 1) = j
    have child := larger_child chosen
    have upper : i ≤ j := by omega
    have up := others i
    have lift := below j
    split
    · next larger =>
        have inside := less_inside larger
        have swapped := priority_swap queue (Nat.lt_of_le_of_lt upper inside) inside
        have less := (less_iff queue upper).mp larger
        apply ih
        · rw [swap_perm.length_eq]
          omega
        · intro k other
          have edge := others k
          rw [swapped, swapped]
          clear others below ih chosen
          have : (k - 1) / 2 = i → k = 0 ∨ k = 2 * i + 1 ∨ k = 2 * i + 2 := by omega
          split_ifs <;> grind
        · intro k isChild other
          have edge := others k
          rw [swapped, swapped]
          clear others below ih chosen
          split_ifs <;> grind
    · next smaller =>
        have most := not_lt.mp (mt (less_iff queue upper).mpr smaller)
        intro k
        by_cases isChild : (k - 1) / 2 = i
        · rcases (by omega : k = 0 ∧ i = 0 ∨ k = 2 * i + 1 ∨ k = 2 * i + 2) with ⟨rfl, rfl⟩ | rfl | rfl
          · exact le_refl _
          · rw [isChild]
            exact child.2.1.trans most
          · rw [isChild]
            exact child.2.2.trans most
        · exact others k isChild

theorem up_perm (fuel j : Nat) (queue : Prque α) : (up fuel j queue).Perm queue := by
  induction fuel generalizing j queue with
  | zero => exact .refl _
  | succ fuel ih =>
    rw [up]
    split
    · exact (ih _ _).trans swap_perm
    · exact .refl _

theorem down_perm (fuel i : Nat) (queue : Prque α) : (down fuel i queue).Perm queue := by
  induction fuel generalizing i queue with
  | zero => exact .refl _
  | succ fuel ih =>
    rw [down]
    generalize (if queue.less (2 * i + 2) (2 * i + 1) then 2 * i + 2 else 2 * i + 1) = j
    split
    · exact (ih _ _).trans swap_perm
    · exact .refl _

theorem push_perm (queue : Prque α) (value : α) (priority : Int) : (queue.push value priority).Perm ((priority, value) :: queue) :=
  (up_perm _ _ _).trans (List.perm_append_singleton _ _)

theorem push_heaped (queue : Prque α) (value : α) (priority : Int) (heaped : Heaped queue) : Heaped (queue.push value priority) := by
  have before : ∀ k, k < queue.length → Prque.priority (queue ++ [(priority, value)]) k = queue.priority k := by
    intro k inside
    rw [Prque.priority, List.getElem?_append_left inside, Prque.priority]
  have after : ∀ k, queue.length < k → Prque.priority (queue ++ [(priority, value)]) k = ⊥ := by
    intro k outside
    exact priority_end (by simp; omega)
  apply up_heaped _ _ _ (Nat.le_refl _)
  · intro k other
    by_cases inside : k < queue.length
    · rw [before k inside, before _ (by omega)]
      exact heaped k
    · rw [after k (by omega)]
      exact bot_le
  · intro k other child
    rw [after k (by omega)]
    exact bot_le

theorem heaped_root (heaped : Heaped queue) (k : Nat) : queue.priority k ≤ queue.priority 0 := by
  induction k using Nat.strong_induction_on with
  | _ k ih =>
    rcases Nat.eq_zero_or_pos k with rfl | inner
    · exact le_refl _
    · exact (heaped k).trans (ih _ (by omega))

theorem pop_none_iff (queue : Prque α) : queue.pop = none ↔ queue = [] := by
  cases queue <;> simp [pop]

theorem pop_perm (queue rest : Prque α) (best : Int × α) (popped : queue.pop = some (best, rest)) : (best :: rest).Perm queue := by
  cases queue with
  | nil => contradiction
  | cons first tail =>
    cases popped
    have length : (swap (best :: tail) 0 tail.length).length = tail.length + 1 := swap_perm.length_eq
    have filled : swap (best :: tail) 0 tail.length ≠ [] := List.ne_nil_of_length_pos (by omega)
    have last : (swap (best :: tail) 0 tail.length).getLast filled = best := by
      simp [List.getLast_eq_getElem, swap]
    have split := List.dropLast_concat_getLast filled
    rw [last] at split
    have whole : ((swap (best :: tail) 0 tail.length).dropLast ++ [best]).Perm (best :: tail) := by
      rw [split]
      exact swap_perm
    exact ((down_perm _ _ _).cons best).trans ((List.perm_append_singleton _ _).symm.trans whole)

theorem pop_heaped (queue rest : Prque α) (best : Int × α) (popped : queue.pop = some (best, rest)) (heaped : Heaped queue) :
    Heaped rest ∧ ∀ item ∈ rest, item.1 ≤ best.1 := by
  have members := (pop_perm queue rest best popped).subset
  cases queue with
  | nil => contradiction
  | cons first tail =>
    cases popped
    have swapped := priority_swap (best :: tail) (Nat.succ_pos _) (Nat.lt_succ_self tail.length)
    have length : (swap (best :: tail) 0 tail.length).dropLast.length = tail.length := by
      rw [List.length_dropLast, swap_perm.length_eq, List.length_cons, Nat.add_sub_cancel]
    have inner : ∀ k, 0 < k → k < tail.length →
        priority (swap (best :: tail) 0 tail.length).dropLast k = priority (best :: tail) k := by
      intro k positive inside
      have same := swapped k
      rw [if_neg (by omega), if_neg (by omega)] at same
      rw [← same, priority, priority, List.getElem?_dropLast, swap_perm.length_eq, List.length_cons, Nat.add_sub_cancel, if_pos inside]
    constructor
    · apply down_heaped
      · rw [length, Nat.zero_add]
      · intro k child
        by_cases inside : k < tail.length
        · rw [inner k (by omega) inside, inner _ (by omega) (by omega)]
          exact heaped k
        · rw [priority_end (by omega)]
          exact bot_le
      · exact fun _ _ positive => absurd positive (Nat.lt_irrefl 0)
    · intro item member
      obtain ⟨k, inside, here⟩ := List.mem_iff_getElem.mp (members (List.mem_cons_of_mem _ member))
      have bound := heaped_root heaped k
      rw [priority_some inside, here, priority_some (Nat.succ_pos _)] at bound
      exact WithBot.coe_le_coe.mp bound

def leaving : Nat → Prque α → List (Int × α)
  | 0, _ => []
  | fuel + 1, queue => match queue.pop with
    | none => []
    | some (best, rest) => best :: leaving fuel rest

theorem leaving_perm (fuel : Nat) (queue : Prque α) (enough : queue.length ≤ fuel) : (leaving fuel queue).Perm queue := by
  induction fuel generalizing queue with
  | zero => rw [List.length_eq_zero_iff.mp (Nat.le_zero.mp enough), leaving]
  | succ fuel ih =>
    rw [leaving]
    cases popped : queue.pop with
    | none => rw [(pop_none_iff queue).mp popped]
    | some found =>
      have all := pop_perm queue found.2 found.1 popped
      have length := all.length_eq
      exact ((ih found.2 (by simp at length; omega)).cons found.1).trans all

theorem leaving_sorted (fuel : Nat) (queue : Prque α) (enough : queue.length ≤ fuel) (heaped : Heaped queue) :
    (leaving fuel queue).Pairwise fun first second => second.1 ≤ first.1 := by
  induction fuel generalizing queue with
  | zero => exact .nil
  | succ fuel ih =>
    rw [leaving]
    cases popped : queue.pop with
    | none => exact .nil
    | some found =>
      have length := (pop_perm queue found.2 found.1 popped).length_eq
      have shorter : found.2.length ≤ fuel := by simp at length; omega
      obtain ⟨below, most⟩ := pop_heaped queue found.2 found.1 popped heaped
      refine List.pairwise_cons.mpr ⟨?_, ih found.2 shorter below⟩
      exact fun item member => most item ((leaving_perm fuel found.2 shorter).subset member)

end Prque

end Didux
