import Didux.Chain.BlockChain
import Didux.Lib.Runs

set_option autoImplicit false

namespace Didux.Chain

open Sport Function Option Nat

namespace BlockChain

def Stores (bc : BlockChain) (block : Block) : Prop := bc.blocks block.hash block.number = some block

instance (bc : BlockChain) (block : Block) : Decidable (bc.Stores block) :=
  inferInstanceAs (Decidable (bc.blocks block.hash block.number = some block))

def Parent (bc : BlockChain) (block parent : Block) : Prop := bc.getParent block = some parent ∧ block.number = parent.number + 1

def Ancestor (bc : BlockChain) : Block → Block → Prop := Relation.ReflTransGen bc.Parent

structure Lists (bc : BlockChain) (canonical : Nat → Hash) (head : Block) : Prop where
  entries : ∀ n, n ≤ head.number → ∃ block, bc.Ancestor head block ∧ block.number = n ∧ canonical n = block.hash
  above : ∀ n, head.number < n → canonical n = 0

def Heaviest (bc : BlockChain) : Prop :=
  ∀ block, bc.Stores block → ∃ td localTd, bc.getTd block = some td ∧ bc.getTd bc.currentBlock = some localTd ∧ td ≤ localTd

def Indexed (bc : BlockChain) : Prop := bc.Lists bc.canonical bc.currentBlock ∧ bc.Heaviest

structure WellStored (genesis : Block) (bc : BlockChain) : Prop where
  keyed : ∀ hash n block, bc.blocks hash n = some block → block.hash = hash ∧ block.number = n
  named : ∀ a b, bc.Stores a → bc.Stores b → a.hash = b.hash → a = b
  nonzero : ∀ block, bc.Stores block → block.hash ≠ 0
  origin : bc.Stores genesis ∧ genesis.number = 0 ∧ (bc.getTd genesis).isSome
  parents : ∀ block, bc.Stores block → block ≠ genesis → ∃ parent td, bc.Stores parent ∧ bc.Parent block parent ∧
    bc.getTd parent = some td ∧ bc.getTd block = some (block.difficulty + td) ∧ 0 < block.difficulty

variable {genesis : Block} {bc : BlockChain}

section

variable (block ancestor : Block)

theorem ancestor_number (up : bc.Ancestor block ancestor) : ancestor = block ∨ ancestor.number < block.number := by
  induction up with
  | refl => exact .inl rfl
  | tail _ step ih =>
    have down := step.2
    obtain rfl | lower := ih
    · exact .inr (by omega)
    · exact .inr (by omega)

theorem ancestor_le (up : bc.Ancestor block ancestor) : ancestor.number ≤ block.number := by
  obtain rfl | lower := ancestor_number block ancestor up
  · exact le_refl _
  · exact le_of_lt lower

theorem ancestor_unique (a b : Block) (left : bc.Ancestor block a) (right : bc.Ancestor block b)
    (same : a.number = b.number) : a = b := by
  have functional : Relator.RightUnique bc.Parent := fun _ _ _ first second => some.inj (first.1.symm.trans second.1)
  obtain up | up := Relation.ReflTransGen.total_of_right_unique functional left right
  · obtain rfl | lower := ancestor_number _ _ up
    · rfl
    · omega
  · obtain rfl | lower := ancestor_number _ _ up
    · rfl
    · omega

variable (stored : WellStored genesis bc)

include stored

theorem parent_stored (block parent : Block) (step : bc.Parent block parent) :
    bc.Stores parent := by
  obtain ⟨hash, number⟩ := stored.keyed _ _ _ step.1
  have found := step.1
  rw [getParent, ← hash, ← number] at found
  exact found

theorem ancestor_stored (block ancestor : Block) (here : bc.Stores block) (up : bc.Ancestor block ancestor) : bc.Stores ancestor := by
  induction up with
  | refl => exact here
  | tail _ step _ => exact parent_stored stored _ _ step

theorem number_zero (block : Block) (here : bc.Stores block) (zero : block.number = 0) :
    block = genesis := by
  by_contra other
  obtain ⟨_, _, _, step, _⟩ := stored.parents block here other
  have down := step.2
  omega

theorem parent_exists (block : Block) (here : bc.Stores block) (high : block.number ≠ 0) :
    ∃ parent, bc.Stores parent ∧ bc.Parent block parent := by
  have other : block ≠ genesis := by
    rintro rfl
    exact high stored.origin.2.1
  obtain ⟨parent, _, there, step, _⟩ := stored.parents block here other
  exact ⟨parent, there, step⟩

theorem ancestor_at (n : Nat) (block : Block) (here : bc.Stores block) (low : n ≤ block.number) :
    ∃ ancestor, bc.Ancestor block ancestor ∧ ancestor.number = n := by
  induction height : block.number - n generalizing block with
  | zero => exact ⟨block, .refl, by omega⟩
  | succ height ih =>
    obtain ⟨parent, there, step⟩ := parent_exists stored block here (by omega)
    have down := step.2
    obtain ⟨ancestor, up, number⟩ := ih parent there (by omega) (by omega)
    exact ⟨ancestor, .head step up, number⟩

theorem ancestor_td {block ancestor : Block} (here : bc.Stores block) (up : bc.Ancestor block ancestor) :
    ancestor = block ∨ ∃ td more, bc.getTd ancestor = some td ∧ bc.getTd block = some more ∧ td < more := by
  induction up using Relation.ReflTransGen.head_induction_on with
  | refl => exact .inl rfl
  | @head block parent step _ ih =>
    have other : block ≠ genesis := by
      rintro rfl
      have down := step.2
      have zero := stored.origin.2.1
      omega
    obtain ⟨parent', td, there, step', weight, sum, positive⟩ := stored.parents block here other
    cases some.inj (step.1.symm.trans step'.1)
    obtain rfl | ⟨less, more, low, high, smaller⟩ := ih there
    · exact .inr ⟨td, _, weight, sum, by omega⟩
    · cases some.inj (high.symm.trans weight)
      exact .inr ⟨less, _, low, sum, by omega⟩

theorem lists_below (canonical : Nat → Hash) (head ancestor : Block) (here : bc.Stores head)
    (entries : ∀ n, n ≤ head.number → ∃ block, bc.Ancestor head block ∧ block.number = n ∧ canonical n = block.hash)
    (up : bc.Ancestor head ancestor) (n : Nat) (low : n ≤ ancestor.number) :
    ∃ block, bc.Ancestor ancestor block ∧ block.number = n ∧ canonical n = block.hash := by
  have top := ancestor_le head ancestor up
  obtain ⟨block, mine, number, entry⟩ := entries n (le_trans low top)
  obtain ⟨other, theirs, same⟩ := ancestor_at stored n ancestor (ancestor_stored stored head ancestor here up) low
  cases ancestor_unique head block other mine (up.trans theirs) (number.trans same.symm)
  exact ⟨block, theirs, number, entry⟩

omit stored

def Walk (bc : BlockChain) : Block → List Block → Block → Prop
  | block, [], last => block = last
  | block, first :: rest, last => first = block ∧ ∃ parent, bc.Parent block parent ∧ Walk bc parent rest last

theorem walk_append (middle last : Block) (first second : List Block) (upper : bc.Walk block first middle)
    (lower : bc.Walk middle second last) : bc.Walk block (first ++ second) last := by
  induction first generalizing block with
  | nil =>
    cases upper
    exact lower
  | cons one rest ih =>
    obtain ⟨same, parent, step, walked⟩ := upper
    exact ⟨same, parent, step, ih parent walked⟩

theorem walk_ancestor (last : Block) (chain : List Block) (walked : bc.Walk block chain last) : bc.Ancestor block last := by
  induction chain generalizing block with
  | nil =>
    cases walked
    exact .refl
  | cons one rest ih =>
    obtain ⟨_, parent, step, walked⟩ := walked
    exact .head step (ih parent walked)

theorem reduce_to_walk (stored : WellStored genesis bc) (target fuel : Nat) (block : Block) (here : bc.Stores block)
    (low : target ≤ block.number) (enough : block.number < target + fuel) :
    ∃ chain last, bc.reduceTo target fuel block = some (chain, last) ∧ bc.Walk block chain last ∧ last.number = target := by
  induction fuel generalizing block with
  | zero => omega
  | succ fuel ih =>
    by_cases done : block.number = target
    · exact ⟨[], block, by simp [reduceTo, done], rfl, done⟩
    · obtain ⟨parent, there, step⟩ := parent_exists stored block here (by omega)
      have down := step.2
      obtain ⟨chain, last, ran, walked, number⟩ := ih parent there (by omega) (by omega)
      exact ⟨block :: chain, last, by simp [reduceTo, done, step.1, ran], ⟨rfl, parent, step, walked⟩, number⟩

theorem new_chain_from_walk (stored : WellStored genesis bc) (fuel : Nat) (oldBlock newBlock : Block)
    (old : bc.Stores oldBlock) (new : bc.Stores newBlock) (level : oldBlock.number = newBlock.number)
    (enough : newBlock.number < fuel) :
    ∃ chain common, bc.newChainFrom fuel oldBlock newBlock = some chain ∧ bc.Walk newBlock chain common ∧
      bc.Ancestor oldBlock common := by
  induction fuel generalizing oldBlock newBlock with
  | zero => omega
  | succ fuel ih =>
    by_cases common : oldBlock.hash = newBlock.hash
    · cases stored.named oldBlock newBlock old new common
      exact ⟨[], oldBlock, by simp [newChainFrom], rfl, .refl⟩
    · have high : newBlock.number ≠ 0 := by
        intro zero
        apply common
        rw [number_zero stored newBlock new zero, number_zero stored oldBlock old (level.trans zero)]
      obtain ⟨oldParent, oldThere, oldStep⟩ := parent_exists stored oldBlock old (by omega)
      obtain ⟨newParent, newThere, newStep⟩ := parent_exists stored newBlock new high
      have oldDown := oldStep.2
      have newDown := newStep.2
      obtain ⟨chain, last, ran, walked, up⟩ := ih oldParent newParent oldThere newThere (by omega) (by omega)
      exact ⟨newBlock :: chain, last, by simp [newChainFrom, common, oldStep.1, newStep.1, ran],
        ⟨rfl, newParent, newStep, walked⟩, .head oldStep up⟩

variable {newBlock : Block} {n externTd : Nat} {hash : Hash}

theorem new_chain_walk (stored : WellStored genesis bc) {oldBlock : Block} (old : bc.Stores oldBlock)
    (new : bc.Stores newBlock) : ∃ chain common, bc.newChain oldBlock newBlock = some chain ∧ bc.Walk newBlock chain common ∧
      bc.Ancestor oldBlock common := by
  by_cases longer : newBlock.number < oldBlock.number
  · obtain ⟨passed, last, ran, walked, number⟩ := reduce_to_walk stored newBlock.number (oldBlock.number + 1) oldBlock old
      (le_of_lt longer) (by omega)
    have up := walk_ancestor oldBlock last passed walked
    obtain ⟨chain, common, found, down, meets⟩ := new_chain_from_walk stored (newBlock.number + 1) last newBlock
      (ancestor_stored stored oldBlock last old up) new number (by omega)
    exact ⟨chain, common, by simp [newChain, longer, ran, found], down, up.trans meets⟩
  · obtain ⟨passed, last, ran, walked, number⟩ := reduce_to_walk stored oldBlock.number (newBlock.number + 1) newBlock new
      (Nat.le_of_not_lt longer) (by omega)
    have up := walk_ancestor newBlock last passed walked
    obtain ⟨chain, common, found, down, meets⟩ := new_chain_from_walk stored (last.number + 1) oldBlock last old
      (ancestor_stored stored newBlock last new up) number.symm (by omega)
    exact ⟨passed ++ chain, common, by simp [newChain, longer, ran, found], walk_append newBlock last common passed chain walked down,
      meets⟩

theorem insert_all (chain : List Block) (block last : Block) (walked : bc.Walk block chain last) (next : BlockChain)
    (ran : chain.foldr (fun block bc => bc.insert block) bc = next) :
    next.blocks = bc.blocks ∧ next.td = bc.td ∧ next.currentBlock = (if chain = [] then bc.currentBlock else block) ∧
      (∀ n, last.number < n → n ≤ block.number →
        ∃ ancestor, bc.Ancestor block ancestor ∧ ancestor.number = n ∧ next.canonical n = ancestor.hash) ∧
      ∀ n, n ≤ last.number ∨ block.number < n → next.canonical n = bc.canonical n := by
  induction chain generalizing block next with
  | nil =>
    cases walked
    cases ran
    exact ⟨rfl, rfl, rfl, fun n above below => absurd below (by omega), fun _ _ => rfl⟩
  | cons first rest ih =>
    obtain ⟨rfl, parent, step, walked⟩ := walked
    obtain ⟨blocks, td, _, inside, outside⟩ := ih parent walked _ rfl
    have down := step.2
    have low := ancestor_le parent last (walk_ancestor parent last rest walked)
    cases ran
    refine ⟨blocks, td, by simp [insert], ?_, ?_⟩
    · intro n above below
      by_cases top : n = first.number
      · exact ⟨first, .refl, top.symm, by simp [insert, top]⟩
      · obtain ⟨ancestor, up, number, entry⟩ := inside n above (by omega)
        exact ⟨ancestor, .head step up, number, by simpa [insert, update_of_ne top] using entry⟩
    · intro n apart
      have other : n ≠ first.number := by omega
      simpa [insert, update_of_ne other] using outside n (by omega)

theorem mem_assigned_iff {canonical : Nat → Hash} {fuel i : Nat} :
    n ∈ assigned canonical fuel i ↔ i ≤ n ∧ n < i + fuel ∧ ∀ j, i ≤ j → j ≤ n → canonical j ≠ 0 := by
  induction fuel generalizing i with
  | zero =>
    simp only [assigned, List.not_mem_nil, false_iff]
    omega
  | succ fuel ih =>
    by_cases missing : canonical i = 0
    · simp only [assigned, missing, if_true, List.not_mem_nil, false_iff]
      rintro ⟨low, _, present⟩
      exact present i (le_refl i) low missing
    · simp only [assigned, missing, if_false, List.mem_cons, ih]
      constructor
      · rintro (rfl | ⟨low, high, present⟩)
        · refine ⟨le_refl _, by omega, fun j above below => ?_⟩
          cases le_antisymm above below
          exact missing
        · refine ⟨by omega, by omega, fun j above below => ?_⟩
          by_cases first : j = i
          · rw [first]
            exact missing
          · exact present j (by omega) below
      · rintro ⟨low, high, present⟩
        by_cases first : n = i
        · exact .inl first
        · exact .inr ⟨by omega, by omega, fun j above below => present j (by omega) below⟩

theorem delete_above_canonical (number top : Nat) (small : top < 2 ^ 64)
    (present : ∀ n, number < n → n ≤ top → bc.canonical n ≠ 0)
    (missing : ∀ n, number < n → top < n → bc.canonical n = 0) (n : Nat) :
    (bc.deleteAbove number).canonical n = if number < n then 0 else bc.canonical n := by
  simp only [deleteAbove, mem_assigned_iff]
  by_cases above : number < n
  · by_cases listed : n ≤ top
    · rw [if_pos above, if_pos ⟨above, by omega, fun j low high => present j low (by omega)⟩]
    · rw [if_pos above, missing n above (Nat.lt_of_not_le listed), ite_self]
  · rw [if_neg above, if_neg (fun inside => above inside.1)]

theorem lists_nonzero (stored : WellStored genesis bc) (head : Block) (here : bc.Stores head)
    (listed : bc.Lists bc.canonical head) (n : Nat) (low : n ≤ head.number) : bc.canonical n ≠ 0 := by
  obtain ⟨block, up, _, entry⟩ := listed.entries n low
  rw [entry]
  exact stored.nonzero block (ancestor_stored stored head block here up)

theorem delete_above_head (listed : bc.Lists bc.canonical bc.currentBlock) :
    (bc.deleteAbove bc.currentBlock.number).canonical = bc.canonical := by
  funext n
  rw [delete_above_canonical bc.currentBlock.number bc.currentBlock.number bc.currentBlock.small
    (fun n above below => absurd below (by omega)) (fun n _ above => listed.above n above)]
  split_ifs with above
  · exact (listed.above n above).symm
  · rfl

theorem insert_lists (head parent : Block) (canonical : Nat → Hash) (step : bc.Parent head parent)
    (entries : ∀ n, n ≤ parent.number → ∃ block, bc.Ancestor parent block ∧ block.number = n ∧ canonical n = block.hash)
    (above : ∀ n, head.number < n → canonical n = 0) : bc.Lists (update canonical head.number head.hash) head where
  entries n low := by
    have down := step.2
    by_cases top : n = head.number
    · exact ⟨head, .refl, top.symm, by rw [top, update_self]⟩
    · obtain ⟨block, up, number, entry⟩ := entries n (by omega)
      exact ⟨block, .head step up, number, by rw [update_of_ne top, entry]⟩
  above n high := by rw [update_of_ne (by omega), above n high]

theorem reorg_lists (stored : WellStored genesis bc) (here : bc.Stores bc.currentBlock)
    (new : bc.Stores newBlock) (listed : bc.Lists bc.canonical bc.currentBlock)
    (known : bc.Ancestor bc.currentBlock newBlock → newBlock = bc.currentBlock)
    (level : ∀ parent, bc.Parent newBlock parent → bc.Ancestor bc.currentBlock parent →
      bc.currentBlock.number ≤ newBlock.number) :
    ∃ next, bc.reorg bc.currentBlock newBlock = some next ∧ next.blocks = bc.blocks ∧ next.td = bc.td ∧
      bc.Lists (next.insert newBlock).canonical newBlock := by
  obtain ⟨chain, common, found, walked, up⟩ := new_chain_walk stored here new
  match chain, walked with
  | [], walked =>
    cases walked
    cases known up
    refine ⟨bc.deleteAbove bc.currentBlock.number, by simp [reorg, found], rfl, rfl, ?_⟩
    obtain ⟨block, top, number, entry⟩ := listed.entries bc.currentBlock.number (le_refl _)
    cases ancestor_unique _ block _ top .refl number
    have same : ((bc.deleteAbove bc.currentBlock.number).insert bc.currentBlock).canonical = bc.canonical := by
      rw [insert, delete_above_head listed, ← entry, update_eq_self]
    rw [same]
    exact listed
  | [first], walked =>
    obtain ⟨rfl, parent, step, rfl⟩ := walked
    refine ⟨bc.deleteAbove bc.currentBlock.number, by simp [reorg, found], rfl, rfl, ?_⟩
    have low := level parent step up
    rw [insert, delete_above_head listed]
    exact insert_lists first parent bc.canonical step (lists_below stored bc.canonical bc.currentBlock parent here listed.entries up)
      (fun n high => listed.above n (by omega))
  | first :: second :: rest, walked =>
    obtain ⟨rfl, parent, step, walked⟩ := walked
    have meets := walk_ancestor parent common _ walked
    obtain ⟨blocks, td, current, inside, outside⟩ := insert_all (second :: rest) parent common walked _ rfl
    have taken : bc.reorg bc.currentBlock first = some
        (((second :: rest).foldr (fun block bc => bc.insert block) bc).deleteAbove
          ((second :: rest).foldr (fun block bc => bc.insert block) bc).currentBlock.number) := by
      rw [reorg, found]
      rfl
    generalize (second :: rest).foldr (fun block bc => bc.insert block) bc = middle at blocks td current inside outside taken
    rw [if_neg (List.cons_ne_nil _ _)] at current
    rw [current] at taken
    have kept : ∀ n, (middle.deleteAbove parent.number).canonical n = if parent.number < n then 0 else middle.canonical n := by
      apply delete_above_canonical parent.number bc.currentBlock.number bc.currentBlock.small
      · intro n above below
        rw [outside n (.inr above)]
        exact lists_nonzero stored bc.currentBlock here listed n below
      · intro n above high
        rw [outside n (.inr above), listed.above n high]
    refine ⟨_, taken, blocks, td, insert_lists first parent _ step ?_ ?_⟩
    · intro n low
      rw [kept n, if_neg (by omega)]
      by_cases shared : n ≤ common.number
      · obtain ⟨block, below, number, entry⟩ := lists_below stored bc.canonical bc.currentBlock common here listed.entries up n shared
        exact ⟨block, meets.trans below, number, by rw [outside n (.inl shared), entry]⟩
      · exact inside n (by omega) low
    · intro n high
      have down := step.2
      rw [kept n, if_pos (by omega)]

structure Writable (bc : BlockChain) (block : Block) : Prop where
  parent : ∃ parent, bc.Stores parent ∧ parent.hash = block.parentHash ∧ parent.number + 1 = block.number
  positive : 0 < block.difficulty
  named : ∀ n other, bc.blocks block.hash n = some other → other = block
  nonzero : block.hash ≠ 0

theorem parent_number (n : Nat) (next : n + 1 = block.number) : uint64 (block.number + 2 ^ 64 - 1) = n := by
  have small := block.small
  simp only [uint64]
  omega

theorem write_block_blocks : (bc.writeBlock block externTd).blocks hash n =
      if hash = block.hash ∧ n = block.number then some block else bc.blocks hash n := by
  by_cases name : hash = block.hash
  · subst hash
    by_cases number : n = block.number
    · simp [writeBlock, number]
    · simp [writeBlock, number]
  · simp [writeBlock, name]

theorem write_block_td : (bc.writeBlock block externTd).td hash n =
      if hash = block.hash ∧ n = block.number then some externTd else bc.td hash n := by
  by_cases name : hash = block.hash
  · subst hash
    by_cases number : n = block.number
    · simp [writeBlock, number]
    · simp [writeBlock, number]
  · simp [writeBlock, name]

end

section Write

variable {block : Block} {externTd : Nat}

variable {other : Block}

theorem write_block_kept (writable : bc.Writable block) {hash : Hash} {n : Nat}
    (here : bc.blocks hash n = some other) : (bc.writeBlock block externTd).blocks hash n = some other := by
  rw [write_block_blocks]
  split_ifs with key
  · rw [key.1] at here
    rw [writable.named n other here]
  · exact here

theorem write_block_stores (here : (bc.writeBlock block externTd).Stores other) : other = block ∨ bc.Stores other := by
  rw [Stores, write_block_blocks] at here
  split_ifs at here
  · exact .inl (some.inj here).symm
  · exact .inr here

variable (writable : bc.Writable block)

include writable

theorem write_block_parent (child parent : Block) (step : bc.Parent child parent) :
    (bc.writeBlock block externTd).Parent child parent :=
  ⟨write_block_kept writable step.1, step.2⟩

theorem write_block_ancestor {child ancestor : Block} (up : bc.Ancestor child ancestor) :
    (bc.writeBlock block externTd).Ancestor child ancestor :=
  Relation.ReflTransGen.mono (write_block_parent writable) _ _ up

theorem writable_parent (ptd : Nat) (weight : bc.parentTd block = some ptd) :
    ∃ parent, bc.Stores parent ∧ parent.hash = block.parentHash ∧ parent.number + 1 = block.number ∧
      bc.getParent block = some parent ∧ bc.getTd parent = some ptd := by
  obtain ⟨parent, there, hash, number⟩ := writable.parent
  have below := parent_number block parent.number number
  refine ⟨parent, there, hash, number, ?_, ?_⟩
  · rw [getParent, below, ← hash]
    exact there
  · rw [parentTd, below, ← hash] at weight
    exact weight

omit writable

theorem write_block_get_td (stored : WellStored genesis bc) (writable : bc.Writable block) (ptd : Nat)
    (weight : bc.parentTd block = some ptd) (other : Block) (here : bc.Stores other) :
    (bc.writeBlock block (block.difficulty + ptd)).getTd other = bc.getTd other := by
  rw [getTd, write_block_td]
  split_ifs with key
  · have same := writable.named other.number other (by rw [← key.1]; exact here)
    subst other
    obtain ⟨parent, _, _, number, below, sum⟩ := writable_parent writable ptd weight
    have high : block ≠ genesis := by
      rintro rfl
      have zero := stored.origin.2.1
      omega
    obtain ⟨parent', td, _, step, weight', total, _⟩ := stored.parents block here high
    cases some.inj (step.1.symm.trans below)
    cases some.inj (weight'.symm.trans sum)
    exact total.symm
  · rfl

theorem write_block_well_stored (stored : WellStored genesis bc) (writable : bc.Writable block) (ptd : Nat)
    (weight : bc.parentTd block = some ptd) : WellStored genesis (bc.writeBlock block (block.difficulty + ptd)) := by
  have kept := fun other => write_block_get_td stored writable ptd weight other
  have still : ∀ other, bc.Stores other → (bc.writeBlock block (block.difficulty + ptd)).Stores other :=
    fun other here => write_block_kept writable here
  refine ⟨?_, ?_, ?_, ?_, ?_⟩
  · intro hash n other here
    rw [write_block_blocks] at here
    split_ifs at here with key
    · cases here
      exact ⟨key.1.symm, key.2.symm⟩
    · exact stored.keyed hash n other here
  · intro a b left right same
    obtain rfl | old := write_block_stores left
    · obtain rfl | old := write_block_stores right
      · rfl
      · exact (writable.named b.number b (by rw [same]; exact old)).symm
    · obtain rfl | old' := write_block_stores right
      · exact writable.named a.number a (by rw [← same]; exact old)
      · exact stored.named a b old old' same
  · intro other here
    obtain rfl | old := write_block_stores here
    · exact writable.nonzero
    · exact stored.nonzero other old
  · obtain ⟨origin, zero, weighed⟩ := stored.origin
    exact ⟨still genesis origin, zero, by rw [kept genesis origin]; exact weighed⟩
  · intro other here high
    obtain rfl | old := write_block_stores here
    · obtain ⟨parent, there, _, number, below, sum⟩ := writable_parent writable ptd weight
      refine ⟨parent, ptd, still parent there, write_block_parent writable _ _ ⟨below, number.symm⟩, ?_, ?_, writable.positive⟩
      · rw [kept parent there, sum]
      · rw [getTd, write_block_td, if_pos ⟨rfl, rfl⟩]
    · obtain ⟨parent, td, there, step, sum, total, positive⟩ := stored.parents other old high
      exact ⟨parent, td, still parent there, write_block_parent writable _ _ step, by rw [kept parent there, sum],
        by rw [kept other old, total], positive⟩

end Write

def Undercuts (bc : BlockChain) (block : Block) : Prop :=
  block.number < bc.currentBlock.number ∧ bc.canonical (block.number - 1) = block.parentHash ∧
    ∃ ptd localTd, bc.parentTd block = some ptd ∧ bc.getTd bc.currentBlock = some localTd ∧ localTd ≤ block.difficulty + ptd

structure Inv (genesis : Block) (bc : BlockChain) : Prop where
  stored : WellStored genesis bc
  head : bc.Stores bc.currentBlock
  indexed : bc.Indexed

variable (block : Block) (localTd externTd : Nat) (shouldPreserve : Option (Block → Bool)) (coin : Bool)

variable {currentBlock : Block}

theorem chooses_heavier {block : Block} {localTd externTd : Nat}
    (chosen : chooses shouldPreserve coin currentBlock block localTd externTd = true) : localTd ≤ externTd := by
  unfold chooses at chosen
  split_ifs at chosen <;> omega

theorem not_chooses_lighter {block : Block} {localTd externTd : Nat}
    (left : chooses shouldPreserve coin currentBlock block localTd externTd = false) : externTd ≤ localTd := by
  unfold chooses at left
  split_ifs at left <;> omega

theorem stored_td (stored : WellStored genesis bc) (block : Block) (here : bc.Stores block) : ∃ td, bc.getTd block = some td := by
  by_cases first : block = genesis
  · rw [first]
    exact isSome_iff_exists.mp stored.origin.2.2
  · obtain ⟨_, td, _, _, _, total, _⟩ := stored.parents block here first
    exact ⟨_, total⟩

theorem writable_td {block : Block} (stored : WellStored genesis bc) (writable : bc.Writable block) :
    ∃ ptd, bc.parentTd block = some ptd := by
  obtain ⟨parent, there, hash, number⟩ := writable.parent
  obtain ⟨td, sum⟩ := stored_td stored parent there
  exact ⟨td, by rw [parentTd, parent_number block parent.number number, ← hash]; exact sum⟩

theorem head_inv (stored : WellStored genesis bc) (next : BlockChain) (block : Block) (here : bc.Stores block)
    (blocks : next.blocks = bc.blocks) (td : next.td = bc.td) (listed : bc.Lists (next.insert block).canonical block)
    (heaviest : ∀ other, bc.Stores other → ∃ td localTd, bc.getTd other = some td ∧ bc.getTd block = some localTd ∧ td ≤ localTd) :
    Inv genesis (next.insert block) := by
  obtain ⟨_, _, canonical, current⟩ := next
  cases blocks
  cases td
  exact ⟨⟨stored.keyed, stored.named, stored.nonzero, stored.origin, stored.parents⟩, here,
    ⟨listed.entries, listed.above⟩, heaviest⟩

structure Written (genesis : Block) (bc : BlockChain) (block : Block) (localTd externTd : Nat) : Prop where
  stored : WellStored genesis bc
  head : bc.Stores bc.currentBlock
  new : bc.Stores block
  mine : bc.getTd bc.currentBlock = some localTd
  total : bc.getTd block = some externTd
  parent : ∃ parent, bc.Parent block parent
  listed : bc.Lists bc.canonical bc.currentBlock
  bounded : ∀ other, bc.Stores other → other = block ∨ ∃ td, bc.getTd other = some td ∧ td ≤ localTd

theorem write_block_written (inv : Inv genesis bc) (writable : bc.Writable block) (ptd localTd : Nat)
    (weight : bc.parentTd block = some ptd) (mine : bc.getTd bc.currentBlock = some localTd) :
    Written genesis (bc.writeBlock block (block.difficulty + ptd)) block localTd (block.difficulty + ptd) := by
  obtain ⟨stored, head, listed, heaviest⟩ := inv
  obtain ⟨parent, there, hash, number, below, _⟩ := writable_parent writable ptd weight
  have kept := fun other => write_block_get_td stored writable ptd weight other
  refine ⟨write_block_well_stored stored writable ptd weight, write_block_kept writable head, ?_, ?_, ?_, ?_, ?_, ?_⟩
  · rw [Stores, write_block_blocks, if_pos ⟨rfl, rfl⟩]
  · rw [← mine]
    exact kept _ head
  · rw [getTd, write_block_td, if_pos ⟨rfl, rfl⟩]
  · exact ⟨parent, write_block_parent writable _ _ ⟨below, number.symm⟩⟩
  · refine ⟨fun n low => ?_, listed.above⟩
    obtain ⟨ancestor, up, at', entry⟩ := listed.entries n low
    exact ⟨ancestor, write_block_ancestor writable up, at', entry⟩
  · intro other here
    obtain rfl | here := write_block_stores here
    · exact .inl rfl
    · obtain ⟨td, more, sum, local', le⟩ := heaviest other here
      cases some.inj (local'.symm.trans mine)
      exact .inr ⟨td, by rw [kept other here, sum], le⟩

variable (written : Written genesis bc block localTd externTd)

include written

theorem side_inv (lighter : externTd ≤ localTd) : Inv genesis bc := by
  refine ⟨written.stored, written.head, written.listed, fun other here => ?_⟩
  obtain rfl | ⟨td, sum, le⟩ := written.bounded other here
  · exact ⟨externTd, localTd, written.total, written.mine, lighter⟩
  · exact ⟨td, localTd, sum, written.mine, le⟩

variable (heavier : localTd ≤ externTd)

include heavier

theorem canon_heaviest (other : Block) (here : bc.Stores other) :
    ∃ td more, bc.getTd other = some td ∧ bc.getTd block = some more ∧ td ≤ more := by
  obtain rfl | ⟨td, sum, le⟩ := written.bounded other here
  · exact ⟨externTd, externTd, written.total, written.total, le_refl _⟩
  · exact ⟨td, externTd, sum, written.total, le_trans le heavier⟩

theorem extend_inv (child : block.parentHash = bc.currentBlock.hash) : Inv genesis (bc.insert block) := by
  obtain ⟨parent, step⟩ := written.parent
  have there := parent_stored written.stored block parent step
  have name := (written.stored.keyed _ _ _ step.1).1
  cases written.stored.named parent bc.currentBlock there written.head (name.trans child)
  have next := step.2
  refine head_inv written.stored bc block written.new rfl rfl ?_ (canon_heaviest block localTd externTd written heavier)
  exact insert_lists block bc.currentBlock bc.canonical step written.listed.entries
    (fun n high => written.listed.above n (by omega))

theorem reorg_inv (level : block.number < bc.currentBlock.number → bc.canonical (block.number - 1) ≠ block.parentHash) :
    ∃ next, bc.reorg bc.currentBlock block = some next ∧ Inv genesis (next.insert block) := by
  have known : bc.Ancestor bc.currentBlock block → block = bc.currentBlock := by
    intro up
    obtain same | ⟨td, more, less, most, smaller⟩ := ancestor_td written.stored written.head up
    · exact same
    · cases some.inj (less.symm.trans written.total)
      cases some.inj (most.symm.trans written.mine)
      omega
  have high : ∀ parent, bc.Parent block parent → bc.Ancestor bc.currentBlock parent →
      bc.currentBlock.number ≤ block.number := by
    intro parent step up
    by_contra low
    have number := step.2
    obtain ⟨other, mine, same, entry⟩ := written.listed.entries parent.number (by omega)
    cases ancestor_unique _ _ _ mine up same
    refine level (by omega) ?_
    rw [number, Nat.add_sub_cancel, entry]
    exact (written.stored.keyed _ _ _ step.1).1
  obtain ⟨next, taken, blocks, td, listed⟩ := reorg_lists written.stored written.head written.new written.listed known high
  exact ⟨next, taken, head_inv written.stored next block written.new blocks td listed
    (canon_heaviest block localTd externTd written heavier)⟩

omit written heavier

theorem write_block_with_state_eq {block : Block} {ptd localTd : Nat} (weight : bc.parentTd block = some ptd)
    (mine : bc.getTd bc.currentBlock = some localTd) : bc.writeBlockWithState shouldPreserve coin block =
      let written := bc.writeBlock block (block.difficulty + ptd)
      if chooses shouldPreserve coin bc.currentBlock block localTd (block.difficulty + ptd) then
        if block.parentHash ≠ bc.currentBlock.hash then
          match written.reorg written.currentBlock block with
          | none => .error .invalidChain
          | some next => .ok (next.insert block, .canonStatTy)
        else .ok (written.insert block, .canonStatTy)
      else .ok (written, .sideStatTy) := by
  simp only [writeBlockWithState, weight, mine]
  rfl

theorem write_inv {block : Block} (inv : Inv genesis bc) (writable : bc.Writable block) (level : ¬ bc.Undercuts block) :
    ∃ next status, bc.writeBlockWithState shouldPreserve coin block = .ok (next, status) ∧ Inv genesis next := by
  obtain ⟨localTd, mine⟩ := stored_td inv.stored bc.currentBlock inv.head
  obtain ⟨ptd, weight⟩ := writable_td inv.stored writable
  have written := write_block_written block inv writable ptd localTd weight mine
  rw [write_block_with_state_eq shouldPreserve coin weight mine]
  cases chosen : chooses shouldPreserve coin bc.currentBlock block localTd (block.difficulty + ptd) with
  | false => exact ⟨_, .sideStatTy, rfl, side_inv block _ _ written (not_chooses_lighter _ _ chosen)⟩
  | true =>
    have heavier := chooses_heavier _ _ chosen
    by_cases child : block.parentHash = bc.currentBlock.hash
    · exact ⟨_, .canonStatTy, by simp [child], extend_inv block _ _ written heavier child⟩
    · obtain ⟨next, taken, kept⟩ := reorg_inv block _ _ written heavier
        (fun low fork => level ⟨low, fork, ptd, localTd, weight, mine, heavier⟩)
      exact ⟨_, .canonStatTy, by simp [child, taken], kept⟩

theorem start_inv (genesis : Block) (zero : genesis.number = 0) (nonzero : genesis.hash ≠ 0) : Inv genesis (start genesis) := by
  have only : ∀ hash n block, (start genesis).blocks hash n = some block → hash = genesis.hash ∧ n = genesis.number ∧
    block = genesis := by
    intro hash n block here
    simp only [start] at here
    split_ifs at here with key
    exact ⟨key.1, key.2, (some.inj here).symm⟩
  have here : (start genesis).Stores genesis := by simp [Stores, start]
  have weight : (start genesis).getTd genesis = some genesis.difficulty := by simp [getTd, start]
  refine ⟨⟨?_, ?_, ?_, ⟨here, zero, by simp [weight]⟩, ?_⟩, here, ⟨?_, ?_⟩, ?_⟩
  · intro hash n block found
    obtain ⟨rfl, rfl, rfl⟩ := only hash n block found
    exact ⟨rfl, rfl⟩
  · intro a b left right _
    rw [(only _ _ _ left).2.2, (only _ _ _ right).2.2]
  · intro block found
    rw [(only _ _ _ found).2.2]
    exact nonzero
  · intro block found other
    exact absurd (only _ _ _ found).2.2 other
  · intro n low
    exact ⟨genesis, .refl, by simp only [start] at low; omega, by simp only [start] at low ⊢; simp; omega⟩
  · intro n high
    simp only [start] at high ⊢
    rw [if_neg (by omega)]
  · intro block found
    rw [(only _ _ _ found).2.2]
    exact ⟨_, _, weight, weight, le_refl _⟩

def Step (allowed : BlockChain → Block → Prop) (bc next : BlockChain) : Prop :=
  ∃ shouldPreserve coin block status, bc.Writable block ∧ allowed bc block ∧
    bc.writeBlockWithState shouldPreserve coin block = .ok (next, status)

def Reached (allowed : BlockChain → Block → Prop) : BlockChain → Prop :=
  Runs.Reached (fun bc => ∃ genesis : Block, genesis.number = 0 ∧ genesis.hash ≠ 0 ∧ bc = start genesis) (Step allowed)

-- As long as no single block takes over from below the head's parent, the index is
-- the head's chain after every call and the head is the heaviest block; no call fails.
theorem canonical_index (bc : BlockChain) (reached : Reached (fun bc block => ¬ bc.Undercuts block) bc) :
    bc.Indexed ∧ ∀ shouldPreserve coin block, bc.Writable block → ¬ bc.Undercuts block →
      ∃ next status, bc.writeBlockWithState shouldPreserve coin block = .ok (next, status) ∧ next.Indexed := by
  have inv : ∃ genesis, Inv genesis bc := by
    refine Runs.reached_invariant _ _ (fun bc => ∃ genesis, Inv genesis bc) ?_ ?_ bc reached
    · rintro _ ⟨genesis, zero, nonzero, rfl⟩
      exact ⟨genesis, start_inv genesis zero nonzero⟩
    · rintro before after ⟨genesis, inv⟩ ⟨shouldPreserve, coin, block, status, writable, level, ran⟩
      obtain ⟨next, status', ran', kept⟩ := write_inv shouldPreserve coin inv writable level
      cases Except.ok.inj (ran.symm.trans ran')
      exact ⟨genesis, kept⟩
  obtain ⟨genesis, inv⟩ := inv
  refine ⟨inv.indexed, fun shouldPreserve coin block writable level => ?_⟩
  obtain ⟨next, status, ran, kept⟩ := write_inv shouldPreserve coin inv writable level
  exact ⟨next, status, ran, kept.indexed⟩

end BlockChain

namespace Forks

def genesis : Block := ⟨1, 0, 0, 1, by decide⟩
def first : Block := ⟨2, 1, 1, 1, by decide⟩
def second : Block := ⟨3, 2, 2, 1, by decide⟩

def heavy : Block := ⟨4, 1, 1, 5, by decide⟩

-- A sibling of the first block and its child.
def rival : Block := ⟨5, 1, 1, 1, by decide⟩
def longer : Block := ⟨6, 5, 2, 1, by decide⟩

def write (bc : BlockChain) (block : Block) : BlockChain :=
  match bc.writeBlockWithState none false block with
  | .ok (next, _) => next
  | .error _ => bc

def one : BlockChain := write (BlockChain.start genesis) first
def two : BlockChain := write one second
def three : BlockChain := write two heavy
def side : BlockChain := write one rival
def switched : BlockChain := write side longer

variable (allowed : BlockChain → Block → Prop)

theorem write_step (bc : BlockChain) (block parent : Block) (here : bc.Stores parent) (hash : parent.hash = block.parentHash)
    (number : parent.number + 1 = block.number) (positive : 0 < block.difficulty) (fresh : ∀ n, bc.blocks block.hash n = none)
    (nonzero : block.hash ≠ 0) (permitted : allowed bc block) (ran : (bc.writeBlockWithState none false block).isOk = true) :
    BlockChain.Step allowed bc (write bc block) := by
  have taken : ∃ status, bc.writeBlockWithState none false block = .ok (write bc block, status) := by
    unfold write
    cases outcome : bc.writeBlockWithState none false block with
    | error e => simp [outcome, Except.toBool] at ran
    | ok result => exact ⟨result.2, rfl⟩
  obtain ⟨status, taken⟩ := taken
  exact ⟨none, false, block, status, ⟨⟨parent, here, hash, number⟩, positive, fun n other found => by simp [fresh n] at found, nonzero⟩,
    permitted, taken⟩

theorem one_step (permitted : allowed (BlockChain.start genesis) first) :
    BlockChain.Reached allowed one := by
  refine Runs.reached_step _ _ _ _ (Runs.reached_start _ _ _ ⟨genesis, rfl, by decide, rfl⟩) ?_
  exact write_step allowed _ first genesis (by decide +kernel) rfl rfl (by decide) (fun _ => rfl) (by decide) permitted
    (by decide +kernel)

end Forks

-- Two light blocks, then a heavy sibling of the first one: it becomes the head and the second block stays in the index.
theorem stale_entry_above_head : ∃ bc, BlockChain.Reached (fun _ _ => True) bc ∧ bc.currentBlock = Forks.heavy ∧
    bc.canonical 2 = Forks.second.hash ∧ ¬ bc.Indexed := by
  have second : BlockChain.Reached (fun _ _ => True) Forks.two :=
    Runs.reached_step _ _ _ _ (Forks.one_step _ trivial) (Forks.write_step _ _ Forks.second Forks.first (by decide +kernel)
      rfl rfl (by decide) (fun _ => rfl) (by decide) trivial (by decide +kernel))
  have third : BlockChain.Reached (fun _ _ => True) Forks.three :=
    Runs.reached_step _ _ _ _ second (Forks.write_step _ _ Forks.heavy Forks.genesis (by decide +kernel)
      rfl rfl (by decide) (fun _ => rfl) (by decide) trivial (by decide +kernel))
  have head : Forks.three.currentBlock = Forks.heavy := by decide +kernel
  have stale : Forks.three.canonical 2 = Forks.second.hash := by decide +kernel
  refine ⟨Forks.three, third, head, stale, ?_⟩
  intro indexed
  have empty := indexed.1.above 2 (by rw [head]; decide)
  rw [stale] at empty
  exact absurd empty (by decide)

-- The node goes over to the longer branch.
theorem canonical_index_longer_branch : BlockChain.Reached (fun bc block => ¬ bc.Undercuts block) Forks.switched ∧
    Forks.one.currentBlock = Forks.first ∧ Forks.switched.currentBlock = Forks.longer ∧
    Forks.switched.canonical 1 = Forks.rival.hash ∧ Forks.switched.Indexed := by
  have level : ∀ (bc : BlockChain) (block : Block), bc.currentBlock.number ≤ block.number → ¬ bc.Undercuts block :=
    fun _ _ up undercuts => Nat.not_lt.mpr up undercuts.1
  have second : BlockChain.Reached (fun bc block => ¬ bc.Undercuts block) Forks.side :=
    Runs.reached_step _ _ _ _ (Forks.one_step _ (level _ _ (by decide))) (Forks.write_step _ _ Forks.rival Forks.genesis
      (by decide +kernel) rfl rfl (by decide) (fun _ => rfl) (by decide) (level _ _ (by decide +kernel)) (by decide +kernel))
  have third : BlockChain.Reached (fun bc block => ¬ bc.Undercuts block) Forks.switched :=
    Runs.reached_step _ _ _ _ second (Forks.write_step _ _ Forks.longer Forks.rival (by decide +kernel)
      rfl rfl (by decide) (fun _ => rfl) (by decide) (level _ _ (by decide +kernel)) (by decide +kernel))
  exact ⟨third, by decide +kernel, by decide +kernel, by decide +kernel, (BlockChain.canonical_index Forks.switched third).1⟩

end Didux.Chain
