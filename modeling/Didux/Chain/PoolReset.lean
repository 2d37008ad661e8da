import Didux.Chain.Canonical
import Didux.Chain.LoadLastState

set_option autoImplicit false

namespace Didux.Chain

open Sport List

namespace BlockChain

-- The loops of the reset take one number down at each step, and nothing is stored below the first block.
def descend (bc : BlockChain) (target : Nat) : Nat → Block → Option (List Block × Block)
  | 0, block => some ([], block)
  | fuel + 1, block => if target < block.number then
      match bc.getParent block with
      | none => none
      | some parent => (descend bc target fuel parent).map fun walked => (block :: walked.1, walked.2) else some ([], block)

def meet (bc : BlockChain) : Nat → Block → Block → Option (List Block × List Block)
  | 0, rem, add => if rem.hash = add.hash then some ([], []) else none
  | fuel + 1, rem, add => if rem.hash = add.hash then some ([], []) else
      match bc.getParent rem, bc.getParent add with
      | some oldParent, some newParent => (meet bc fuel oldParent newParent).map fun walked => (rem :: walked.1, add :: walked.2)
      | _, _ => none

-- The blocks of the two branches above the common ancestor. Without one a branch is unrooted.
def branches (bc : BlockChain) (rem add : Block) : Option (List Block × List Block) := do
  let (discarded, rem) ← bc.descend add.number rem.number rem
  let (included, add) ← bc.descend rem.number add.number add
  let (oldBlocks, newBlocks) ← bc.meet rem.number rem add
  pure (discarded ++ oldBlocks, included ++ newBlocks)

structure Keyed (bc : BlockChain) : Prop where
  keyed : ∀ hash n block, bc.blocks hash n = some block → block.hash = hash ∧ block.number = n
  named : ∀ a b, bc.Stores a → bc.Stores b → a.hash = b.hash → a = b
  rooted : ∀ block other, bc.Stores block → bc.Stores other → block.number = 0 → other.hash ≠ block.parentHash

variable {bc : BlockChain} {rem add : Block}

theorem Keyed.parent (stored : bc.Keyed) {block parent : Block} (here : bc.Stores block)
    (found : bc.getParent block = some parent) : bc.Parent block parent ∧ bc.Stores parent := by
  obtain ⟨hash, number⟩ := stored.keyed _ _ _ found
  have there : bc.Stores parent := by
    rw [Stores, hash, number]
    exact found
  have high : block.number ≠ 0 := fun zero => stored.rooted block parent here there zero hash
  have small := block.small
  have below : uint64 (block.number + 2 ^ 64 - 1) = block.number - 1 := by
    rw [uint64]
    omega
  exact ⟨⟨found, by omega⟩, there⟩

theorem ancestor_cons {block parent : Block} (step : bc.Parent block parent) (x : Block) :
    bc.Ancestor block x ↔ x = block ∨ bc.Ancestor parent x := by
  constructor
  · intro up
    obtain rfl | ⟨next, first, rest⟩ := Relation.ReflTransGen.cases_head up
    · exact .inl rfl
    · rw [Option.some.inj (step.1.symm.trans first.1)]
      exact .inr rest
  · rintro (rfl | up)
    · exact .refl
    · exact .head step up

structure Passes (bc : BlockChain) (block : Block) (passed : List Block) (last : Block) : Prop where
  ancestors : ∀ x, bc.Ancestor block x ↔ x ∈ passed ∨ bc.Ancestor last x
  above : ∀ x ∈ passed, last.number < x.number
  stored : bc.Stores last

variable {passed : List Block} {block last : Block}

theorem passes_cons (stored : bc.Keyed) {parent : Block} (here : bc.Stores block) (found : bc.getParent block = some parent)
    (passes : bc.Passes parent passed last) : bc.Passes block (block :: passed) last := by
  have step := (stored.parent here found).1
  refine ⟨fun x => by rw [ancestor_cons step, passes.ancestors, mem_cons, or_assoc], ?_, passes.stored⟩
  intro x member
  obtain rfl | later := mem_cons.mp member
  · have up := ancestor_le parent last ((passes.ancestors last).mpr (.inr .refl))
    have down := step.2
    omega
  · exact passes.above x later

theorem passes_here (here : bc.Stores block) : bc.Passes block [] block :=
  ⟨fun x => by simp, fun x member => by simp at member, here⟩

theorem descend_passes (stored : bc.Keyed) {target fuel : Nat} (here : bc.Stores block) (enough : block.number ≤ fuel)
    (walked : bc.descend target fuel block = some (passed, last)) :
    bc.Passes block passed last ∧ (∀ x ∈ passed, target < x.number) ∧ last.number = min target block.number := by
  induction fuel generalizing block passed with
  | zero =>
    obtain ⟨rfl, rfl⟩ := Prod.mk.inj (Option.some.inj walked)
    exact ⟨passes_here here, fun x member => by simp at member, by omega⟩
  | succ fuel ih =>
    by_cases high : target < block.number
    · rw [descend, if_pos high] at walked
      cases found : bc.getParent block with
      | none => simp [found] at walked
      | some parent =>
        obtain ⟨step, there⟩ := stored.parent here found
        have down := step.2
        rw [found] at walked
        obtain ⟨⟨later, end'⟩, ran, same⟩ := Option.map_eq_some_iff.mp walked
        obtain ⟨rfl, rfl⟩ := Prod.mk.inj same
        obtain ⟨passes, above, number⟩ := ih there (by omega) ran
        refine ⟨passes_cons stored here found passes, ?_, by omega⟩
        intro x member
        obtain rfl | later := mem_cons.mp member
        · exact high
        · exact above x later
    · rw [descend, if_neg high] at walked
      obtain ⟨rfl, rfl⟩ := Prod.mk.inj (Option.some.inj walked)
      exact ⟨passes_here here, fun x member => by simp at member, by omega⟩

variable {common : Block}

theorem descend_some (target fuel : Nat) (up : bc.Ancestor block common) (low : common.number ≤ target) :
    ∃ walked, bc.descend target fuel block = some walked := by
  induction fuel generalizing block with
  | zero => exact ⟨_, rfl⟩
  | succ fuel ih =>
    by_cases high : target < block.number
    · obtain rfl | ⟨parent, step, rest⟩ := Relation.ReflTransGen.cases_head up
      · omega
      · obtain ⟨walked, ran⟩ := ih rest
        refine ⟨(block :: walked.1, walked.2), ?_⟩
        rw [descend, if_pos high, step.1]
        simp only [ran, Option.map_some]
    · exact ⟨_, if_neg high⟩

theorem level_ancestor (level : rem.number = add.number) (up : bc.Ancestor add rem) : rem = add := by
  obtain same | lower := ancestor_number add rem up
  · exact same
  · omega

theorem apart_cons {oldParent newParent : Block} (level : rem.number = add.number) (differ : rem ≠ add)
    (oldStep : bc.Parent rem oldParent) (newStep : bc.Parent add newParent) (below : ∀ x ∈ passed, bc.Ancestor oldParent x)
    (apart : ∀ x ∈ passed, ¬ bc.Ancestor newParent x) : ∀ x ∈ rem :: passed, ¬ bc.Ancestor add x := by
  intro x member up
  obtain rfl | later := mem_cons.mp member
  · exact differ (level_ancestor level up)
  · obtain rfl | up := (ancestor_cons newStep x).mp up
    · have low := ancestor_le _ _ (below x later)
      have down := oldStep.2
      omega
    · exact apart x later up

theorem meet_passes (stored : bc.Keyed) {fuel : Nat} {oldBlocks newBlocks : List Block} (old : bc.Stores rem) (new : bc.Stores add)
    (level : rem.number = add.number) (walked : bc.meet fuel rem add = some (oldBlocks, newBlocks)) :
    ∃ common, bc.Passes rem oldBlocks common ∧ bc.Passes add newBlocks common ∧
      (∀ x ∈ oldBlocks, ¬ bc.Ancestor add x) ∧ ∀ x ∈ newBlocks, ¬ bc.Ancestor rem x := by
  induction fuel generalizing rem add oldBlocks newBlocks with
  | zero =>
    rw [meet] at walked
    split_ifs at walked with same
    cases walked
    cases stored.named rem add old new same
    exact ⟨rem, passes_here old, passes_here old, by simp, by simp⟩
  | succ fuel ih =>
    rw [meet] at walked
    split_ifs at walked with same
    · cases walked
      cases stored.named rem add old new same
      exact ⟨rem, passes_here old, passes_here old, by simp, by simp⟩
    · have differ : rem ≠ add := fun equal => same (congrArg Block.hash equal)
      cases oldFound : bc.getParent rem with
      | none => simp [oldFound] at walked
      | some oldParent =>
        cases newFound : bc.getParent add with
        | none => simp [newFound] at walked
        | some newParent =>
          obtain ⟨oldStep, oldThere⟩ := stored.parent old oldFound
          obtain ⟨newStep, newThere⟩ := stored.parent new newFound
          simp only [oldFound, newFound] at walked
          obtain ⟨⟨olds, news⟩, ran, equal⟩ := Option.map_eq_some_iff.mp walked
          obtain ⟨rfl, rfl⟩ := Prod.mk.inj equal
          have down := oldStep.2
          have newDown := newStep.2
          obtain ⟨common, oldPasses, newPasses, oldApart, newApart⟩ := ih oldThere newThere (by omega) ran
          refine ⟨common, passes_cons stored old oldFound oldPasses, passes_cons stored new newFound newPasses,
            apart_cons level differ oldStep newStep (fun x member => (oldPasses.ancestors x).mpr (.inl member)) oldApart,
            apart_cons level.symm differ.symm newStep oldStep (fun x member => (newPasses.ancestors x).mpr (.inl member)) newApart⟩

theorem meet_some (fuel : Nat) (level : rem.number = add.number) (enough : rem.number ≤ fuel) (oldUp : bc.Ancestor rem common)
    (newUp : bc.Ancestor add common) : ∃ walked, bc.meet fuel rem add = some walked := by
  induction fuel generalizing rem add with
  | zero =>
    have zero := ancestor_number rem common oldUp
    have same : rem = add := by
      obtain rfl | lower := zero
      · exact level_ancestor level newUp
      · omega
    exact ⟨_, if_pos (congrArg Block.hash same)⟩
  | succ fuel ih =>
    by_cases same : rem.hash = add.hash
    · exact ⟨_, if_pos same⟩
    · obtain rfl | ⟨oldParent, oldStep, oldRest⟩ := Relation.ReflTransGen.cases_head oldUp
      · exact absurd (congrArg Block.hash (level_ancestor level newUp)) same
      · obtain rfl | ⟨newParent, newStep, newRest⟩ := Relation.ReflTransGen.cases_head newUp
        · exact absurd (congrArg Block.hash (level_ancestor level.symm oldUp)).symm same
        · have down := oldStep.2
          have newDown := newStep.2
          obtain ⟨walked, ran⟩ := ih (by omega) (by omega) oldRest newRest
          refine ⟨(rem :: walked.1, add :: walked.2), ?_⟩
          rw [meet, if_neg same, oldStep.1, newStep.1]
          simp only [ran, Option.map_some]

theorem branches_some (stored : bc.Keyed) (old : bc.Stores rem) (new : bc.Stores add) (oldUp : bc.Ancestor rem common)
    (newUp : bc.Ancestor add common) : ∃ walked, bc.branches rem add = some walked := by
  have oldLow := ancestor_le rem common oldUp
  have newLow := ancestor_le add common newUp
  obtain ⟨⟨discarded, oldLast⟩, first⟩ := descend_some add.number rem.number oldUp newLow
  obtain ⟨oldPasses, oldAbove, oldNumber⟩ := descend_passes stored old le_rfl first
  have oldRest : bc.Ancestor oldLast common := by
    refine ((oldPasses.ancestors common).mp oldUp).resolve_left fun member => ?_
    have high := oldAbove common member
    omega
  have oldBelow := ancestor_le oldLast common oldRest
  obtain ⟨⟨included, newLast⟩, second⟩ := descend_some oldLast.number add.number newUp oldBelow
  obtain ⟨newPasses, newAbove, newNumber⟩ := descend_passes stored new le_rfl second
  have newRest : bc.Ancestor newLast common := by
    refine ((newPasses.ancestors common).mp newUp).resolve_left fun member => ?_
    have high := newAbove common member
    omega
  obtain ⟨⟨oldBlocks, newBlocks⟩, third⟩ := meet_some oldLast.number (by omega) le_rfl oldRest newRest
  exact ⟨(discarded ++ oldBlocks, included ++ newBlocks), by simp [branches, first, second, third]⟩

theorem branches_apart (stored : bc.Keyed) (old : bc.Stores rem) (new : bc.Stores add) {discarded included : List Block}
    (walked : bc.branches rem add = some (discarded, included)) : (∀ x, x ∈ discarded ↔ bc.Ancestor rem x ∧ ¬ bc.Ancestor add x) ∧
      (∀ x, x ∈ included ↔ bc.Ancestor add x ∧ ¬ bc.Ancestor rem x) ∧ ∃ common, bc.Ancestor rem common ∧ bc.Ancestor add common := by
  simp only [branches, Option.bind_eq_bind, Option.bind_eq_some_iff, Prod.exists] at walked
  obtain ⟨olds, oldLast, first, news, newLast, second, oldBlocks, newBlocks, third, rfl, rfl⟩ := walked
  obtain ⟨oldPasses, oldAbove, oldNumber⟩ := descend_passes stored old le_rfl first
  obtain ⟨newPasses, newAbove, newNumber⟩ := descend_passes stored new le_rfl second
  obtain ⟨common, oldMeets, newMeets, oldApart, newApart⟩ := meet_passes stored oldPasses.stored newPasses.stored (by omega) third
  have oldUp : ∀ x, bc.Ancestor rem x ↔ x ∈ olds ++ oldBlocks ∨ bc.Ancestor common x := by
    intro x
    rw [oldPasses.ancestors, oldMeets.ancestors, mem_append, or_assoc]
  have newUp : ∀ x, bc.Ancestor add x ↔ x ∈ news ++ newBlocks ∨ bc.Ancestor common x := by
    intro x
    rw [newPasses.ancestors, newMeets.ancestors, mem_append, or_assoc]
  have oldOnly : ∀ x ∈ olds ++ oldBlocks, ¬ bc.Ancestor add x := by
    intro x member up
    have below := ancestor_le add x up
    obtain high | met := mem_append.mp member
    · have above := oldAbove x high
      omega
    · have low := ancestor_le oldLast x ((oldMeets.ancestors x).mpr (.inl met))
      obtain high | up := (newPasses.ancestors x).mp up
      · have above := newAbove x high
        omega
      · exact oldApart x met up
  have newOnly : ∀ x ∈ news ++ newBlocks, ¬ bc.Ancestor rem x := by
    intro x member up
    have below := ancestor_le rem x up
    have low := ancestor_le add x ((newUp x).mpr (.inl member))
    obtain high | met := mem_append.mp member
    · have above := newAbove x high
      omega
    · obtain high | up := (oldPasses.ancestors x).mp up
      · have above := oldAbove x high
        omega
      · exact newApart x met up
  refine ⟨fun x => ⟨fun member => ⟨(oldUp x).mpr (.inl member), oldOnly x member⟩, ?_⟩,
    fun x => ⟨fun member => ⟨(newUp x).mpr (.inl member), newOnly x member⟩, ?_⟩,
    common, (oldUp common).mpr (.inr .refl), (newUp common).mpr (.inr .refl)⟩
  · exact fun only => ((oldUp x).mp only.1).resolve_right fun up => only.2 ((newUp x).mpr (.inr up))
  · exact fun only => ((newUp x).mp only.1).resolve_right fun up => only.2 ((oldUp x).mpr (.inr up))

end BlockChain

-- What the pool reads of the chain.
structure PoolChain (σ τ : Type) where
  chain : BlockChain
  transactions : Block → List τ
  txHash : τ → Hash
  root : Block → Hash
  gasLimit : Block → Nat
  stateAt : Hash → Option σ

-- The height difference is computed on float64.
def depth (oldHead newHead : Block) : Nat := ((float64 oldHead.number : Int) - float64 newHead.number).natAbs

theorem depth_exact {old new : Block} (low : old.number < 2 ^ 53) (below : new.number < 2 ^ 53) :
    depth old new = ((old.number : Int) - new.number).natAbs := by
  have exact : ∀ n, n < 2 ^ 53 → float64 n = n := by
    intro n small
    have unit : n.log2 + 1 - 53 = 0 := by
      rcases Nat.eq_zero_or_pos n with rfl | positive
      · rfl
      · have := (Nat.log2_lt positive.ne').mpr small
        omega
    simp [float64, toFloat, unit]
  rw [depth, exact _ low, exact _ below]

structure TxPool (σ : Type) where
  currentState : σ
  pendingNonces : σ
  currentMaxGas : Nat

namespace PoolChain

variable {σ τ : Type} (node : PoolChain σ τ)

def txDifference (a b : List τ) : List τ := a.filter fun tx => node.txHash tx ∉ b.map node.txHash

def install (pool : TxPool σ) (newHead : Block) (reinject : List τ) : TxPool σ × List τ :=
  match node.stateAt (node.root newHead) with
  | none => (pool, [])
  | some statedb => (⟨statedb, statedb, node.gasLimit newHead⟩, reinject)

-- None is the use of a nil block.
def reset (pool : TxPool σ) (oldHead : Option Block) (newHead : Block) : Option (TxPool σ × List τ) :=
  match oldHead with
  | none => some (node.install pool newHead [])
  | some oldHead =>
    if oldHead.hash = newHead.parentHash ∨ 64 < depth oldHead newHead then some (node.install pool newHead [])
    else
      match node.chain.blocks oldHead.hash oldHead.number, node.chain.blocks newHead.hash newHead.number with
      | none, _ => some (pool, [])
      | some _, none => none
      | some rem, some add =>
        match node.chain.branches rem add with
        | none => some (pool, [])
        | some (discarded, included) =>
          some (node.install pool newHead
            (node.txDifference (discarded.flatMap node.transactions) (included.flatMap node.transactions)))

def BranchStored (old new : Block) : Prop :=
  node.chain.Stores old ∧ ∃ common, node.chain.Ancestor old common ∧ node.chain.Ancestor new common

def Dropped (old new : Block) (tx : τ) : Prop :=
  (∃ block, node.chain.Ancestor old block ∧ ¬ node.chain.Ancestor new block ∧ tx ∈ node.transactions block) ∧
    ∀ block other, node.chain.Ancestor new block → ¬ node.chain.Ancestor old block → other ∈ node.transactions block →
      node.txHash other ≠ node.txHash tx

def Follows (pool : TxPool σ) (old new : Block) (statedb : σ) : Prop :=
  ∃ offered, node.reset pool (some old) new = some (⟨statedb, statedb, node.gasLimit new⟩, offered) ∧
    (node.BranchStored old new → ∀ tx, tx ∈ offered ↔ node.Dropped old new tx)

variable {node} {old new : Block}

theorem tx_difference_dropped (stored : node.chain.Keyed) (oldHere : node.chain.Stores old) (newHere : node.chain.Stores new)
    {discarded included : List Block} (walked : node.chain.branches old new = some (discarded, included)) (tx : τ) :
    tx ∈ node.txDifference (discarded.flatMap node.transactions) (included.flatMap node.transactions) ↔ node.Dropped old new tx := by
  obtain ⟨oldOnly, newOnly, _⟩ := BlockChain.branches_apart stored oldHere newHere walked
  simp only [txDifference, mem_filter, mem_flatMap, mem_map, decide_eq_true_eq, oldOnly, newOnly, and_assoc]
  refine and_congr_right fun _ => ⟨fun clear block other up only member same => ?_, ?_⟩
  · exact clear ⟨other, ⟨block, up, only, member⟩, same⟩
  · rintro clear ⟨other, ⟨block, up, only, member⟩, same⟩
    exact clear block other up only member same

theorem child_drops_nothing (stored : node.chain.Keyed) (newHere : node.chain.Stores new)
    (parents : new.number ≠ 0 → (node.chain.getParent new).isSome) (child : old.hash = new.parentHash)
    (oldHere : node.chain.Stores old) (tx : τ) : ¬ node.Dropped old new tx := by
  have high : new.number ≠ 0 := fun zero => stored.rooted new old newHere oldHere zero child
  obtain ⟨parent, found⟩ := Option.isSome_iff_exists.mp (parents high)
  obtain ⟨step, there⟩ := stored.parent newHere found
  obtain rfl : parent = old := stored.named parent old there oldHere ((stored.keyed _ _ _ found).1.trans child.symm)
  rintro ⟨⟨block, up, only, _⟩, _⟩
  exact only (.head step up)

section Reset

variable {statedb : σ} (opened : node.stateAt (node.root new) = some statedb)

include opened

theorem install_opened (pool : TxPool σ) (reinject : List τ) :
    node.install pool new reinject = (⟨statedb, statedb, node.gasLimit new⟩, reinject) := by
  rw [install, opened]

theorem reset_skips (skipped : old.hash = new.parentHash ∨ 64 < depth old new) (pool : TxPool σ) :
    node.reset pool (some old) new = some (⟨statedb, statedb, node.gasLimit new⟩, []) := by
  rw [reset, if_pos skipped, install_opened opened]

-- A reorganisation goes to the walk, or ends without the old head.
theorem reset_walks (own : ∀ block, node.chain.blocks old.hash old.number = some block → block = old)
    (available : node.chain.Stores new) (other : old.hash ≠ new.parentHash) (shallow : depth old new ≤ 64) (pool : TxPool σ) :
    node.reset pool (some old) new = some (
      if node.chain.Stores old then
        match node.chain.branches old new with
        | none => (pool, [])
        | some (discarded, included) => (⟨statedb, statedb, node.gasLimit new⟩,
            node.txDifference (discarded.flatMap node.transactions) (included.flatMap node.transactions))
      else (pool, [])) := by
  have reorganised : ¬ (old.hash = new.parentHash ∨ 64 < depth old new) := not_or.mpr ⟨other, Nat.not_lt.mpr shallow⟩
  have add : node.chain.blocks new.hash new.number = some new := available
  rw [reset, if_neg reorganised, add]
  cases rem : node.chain.blocks old.hash old.number with
  | none => simp [BlockChain.Stores, rem]
  | some block =>
    obtain rfl := own block rem
    have here : node.chain.Stores block := rem
    rw [if_pos here]
    cases walked : node.chain.branches block new <;> simp [walked, install_opened opened]

end Reset

end PoolChain

-- Where the branch of the old head is not stored the pool stays at the old head; where the heights look more than 64 apart
-- nothing is offered. `own` says that the hash of the old head is that of no other block.
theorem pool_reset_iff {σ τ : Type} (node : PoolChain σ τ) (old new : Block) (statedb : σ) (stored : node.chain.Keyed)
    (own : ∀ block, node.chain.blocks old.hash old.number = some block → block = old) (available : node.chain.Stores new)
    (ancestors : new.number ≠ 0 → (node.chain.getParent new).isSome)
    (opened : node.stateAt (node.root new) = some statedb) :
    (∀ pool, (node.reset pool (some old) new).isSome ∧
      node.reset pool none new = some (⟨statedb, statedb, node.gasLimit new⟩, [])) ∧
    ((∀ pool, node.Follows pool old new statedb) ↔ old.hash = new.parentHash ∨ (depth old new ≤ 64 ∧ node.BranchStored old new) ∨
      (64 < depth old new ∧ (node.BranchStored old new → ∀ tx, ¬ node.Dropped old new tx))) := by
  have skips : _ → ∀ pool, node.reset pool (some old) new = _ := PoolChain.reset_skips opened
  have walks := PoolChain.reset_walks opened own available
  constructor
  · intro pool
    refine ⟨?_, by rw [PoolChain.reset, PoolChain.install_opened opened]⟩
    by_cases skipped : old.hash = new.parentHash ∨ 64 < depth old new
    · rw [skips skipped]
      rfl
    · rw [walks (not_or.mp skipped).1 (Nat.not_lt.mp (not_or.mp skipped).2)]
      rfl
  · constructor
    · intro follows
      by_contra neither
      obtain ⟨other, unstored, offers⟩ := not_or.mp neither |>.imp_right not_or.mp
      obtain ⟨offered, ran, exactly⟩ := follows ⟨statedb, statedb, node.gasLimit new + 1⟩
      rcases Nat.lt_or_ge 64 (depth old new) with deep | shallow
      · rw [skips (.inr deep)] at ran
        obtain ⟨-, rfl⟩ := Prod.mk.inj (Option.some.inj ran)
        exact offers ⟨deep, fun branch tx dropped => by simpa using (exactly branch tx).mpr dropped⟩
      · have stays : node.reset ⟨statedb, statedb, node.gasLimit new + 1⟩ (some old) new =
            some (⟨statedb, statedb, node.gasLimit new + 1⟩, []) := by
          rw [walks other shallow]
          split_ifs with here
          · cases walked : node.chain.branches old new with
            | none => rfl
            | some walk => exact absurd ⟨shallow, here, (BlockChain.branches_apart stored here available walked).2.2⟩ unstored
          · rfl
        rw [stays] at ran
        simp at ran
    · intro kept pool
      by_cases child : old.hash = new.parentHash
      · refine ⟨[], skips (.inl child) pool, fun branch tx => iff_of_false (by simp) ?_⟩
        exact PoolChain.child_drops_nothing stored available ancestors child branch.1 tx
      · rcases kept.resolve_left child with ⟨shallow, here, common, oldUp, newUp⟩ | ⟨deep, nothing⟩
        · obtain ⟨⟨discarded, included⟩, walked⟩ := BlockChain.branches_some stored here available oldUp newUp
          refine ⟨_, by rw [walks child shallow, if_pos here, walked], fun _ => ?_⟩
          exact PoolChain.tx_difference_dropped stored here available walked
        · exact ⟨[], skips (.inr deep) pool, fun branch tx => iff_of_false (by simp) (nothing branch tx)⟩

def siblingBlock : Block := ⟨3, 1, 1, 1, one_small⟩

def PoolChain.listed (blocks : List Block) : PoolChain Hash Hash where
  chain :=
    { blocks := fun hash number => blocks.find? fun block => block.hash = hash ∧ block.number = number
      td := fun _ _ => none
      canonical := fun _ => 0
      currentBlock := firstBlock }
  transactions := fun block => [block.hash]
  txHash := id
  root := fun block => block.hash
  gasLimit := fun _ => 10
  stateAt := some

theorem listed_keyed {blocks : List Block} (named : ∀ a ∈ blocks, ∀ b ∈ blocks, a.hash = b.hash → a = b)
    (rooted : ∀ a ∈ blocks, ∀ b ∈ blocks, a.number = 0 → b.hash ≠ a.parentHash) : (PoolChain.listed blocks).chain.Keyed where
  keyed := fun hash number block found => by simpa using find?_some found
  named := fun a b here there => named a (mem_of_find?_eq_some here) b (mem_of_find?_eq_some there)
  rooted := fun a b here there => rooted a (mem_of_find?_eq_some here) b (mem_of_find?_eq_some there)

def forked : PoolChain Hash Hash := .listed [firstBlock, secondBlock, siblingBlock]

theorem sibling_followed : forked.BranchStored secondBlock siblingBlock ∧
    ∀ pool, forked.Follows pool secondBlock siblingBlock 3 := by
  have branch : forked.BranchStored secondBlock siblingBlock := ⟨rfl, firstBlock, .single ⟨rfl, rfl⟩, .single ⟨rfl, rfl⟩⟩
  have stored : forked.chain.Keyed := listed_keyed (by decide) (by decide)
  have own : ∀ block, forked.chain.blocks 2 1 = some block → block = secondBlock :=
    fun block found => (Option.some.inj found).symm
  exact ⟨branch, (pool_reset_iff forked secondBlock siblingBlock 3 stored own rfl (fun _ => rfl) rfl).2.mpr
    (.inr (.inl ⟨(depth_exact (by decide) (by decide)).trans_le (by decide), branch⟩))⟩

def pruned : PoolChain Hash Hash := .listed [firstBlock, siblingBlock]

-- Without the block of the old head the pool stays at the old state and gas limit.
theorem missing_old_head_kept : pruned.chain.Stores siblingBlock ∧ pruned.chain.getParent siblingBlock = some firstBlock ∧
    depth secondBlock siblingBlock = 0 ∧ pruned.stateAt (pruned.root siblingBlock) = some 3 ∧
    pruned.gasLimit siblingBlock = 10 ∧ pruned.reset ⟨2, 2, 9⟩ (some secondBlock) siblingBlock = some (⟨2, 2, 9⟩, []) :=
  ⟨rfl, rfl, rfl, rfl, rfl, rfl⟩

end Didux.Chain
