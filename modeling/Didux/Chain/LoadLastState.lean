import Didux.Chain.BlockChain

set_option autoImplicit false

namespace Didux.Chain

open Sport

-- What state.New opens of the two caches, and the vault root that is kept for a public one.
structure States where
  root : Block → Hash
  stateCache : Hash → Bool
  vaultStateCache : Hash → Bool
  getVaultStateRoot : Hash → Hash

namespace States

variable (states : States) (block : Block)

def opensPublic : Bool := states.stateCache (states.root block)

def opensVault : Bool := states.vaultStateCache (states.getVaultStateRoot (states.root block))

def stateAt : Bool := states.opensPublic block && states.opensVault block

end States

-- What a node finds when it starts. `above` are the headers above the genesis block that SetHead(0) deletes.
structure Startup where
  chain : BlockChain
  states : States
  genesis : Block
  headBlockHash : Hash
  numbers : Hash → Option Nat
  above : Hash → Nat → Bool

-- A node that is blocked waits for a mutex that it holds.
inductive Loaded where
  | current (block : Block)
  | failed
  | blocked
deriving DecidableEq

namespace Startup

variable (db : Startup)

def getBlockByHash (hash : Hash) : Option Block := (db.numbers hash).bind fun number => db.chain.blocks hash number

def getBlockByNumber (number : Nat) : Option Block := db.chain.blocks (db.chain.canonical number) number

-- Each step is one number down, and nothing is stored below the first block.
def repair : Nat → Block → Option Block
  | 0, _ => none
  | fuel + 1, head => if db.states.opensPublic head then some head else
      match db.chain.getParent head with
      | none => none
      | some block => repair fuel block

def loadWith (reset : Startup → Loaded) : Loaded :=
  if db.headBlockHash = 0 then reset db
  else
    match db.getBlockByHash db.headBlockHash with
    | none => reset db
    | some head =>
      match if db.states.opensPublic head then some head else db.repair (head.number + 1) head with
      | none => .failed
      | some block =>
        if db.states.opensVault block then .current block
        else
          match db.repair (block.number + 1) block with
          | none => reset db
          | some repaired => .current repaired

-- Before the first load the current block is the genesis block, so the hash of the head is not written.
def setHead : Startup :=
  { db with chain.blocks := fun hash number => if db.above hash number then none else db.chain.blocks hash number }

-- SetHead(0) holds the mutex while it loads the last state again, and a Reset there waits for it.
def reset : Loaded :=
  match db.setHead.loadWith fun _ => .blocked with
  | .current _ => .current db.genesis
  | other => other

def loadLastState : Loaded := db.loadWith reset

structure Indexed (head : Block) : Prop where
  listed : db.getBlockByNumber head.number = some head
  number : ∀ n block, n ≤ head.number → db.getBlockByNumber n = some block → block.number = n
  parent : ∀ n block, n < head.number → db.getBlockByNumber (n + 1) = some block → block.parentHash = db.chain.canonical n
  first : ∀ block, db.getBlockByNumber 0 = some block → db.chain.getParent block = none

-- The highest stored block of the index, up to the number `top`, that passes the test.
structure Highest (test : Block → Bool) (top : Nat) (block : Block) : Prop where
  below : block.number ≤ top
  listed : db.getBlockByNumber block.number = some block
  passes : test block = true
  above : ∀ n other, block.number < n → n ≤ top → db.getBlockByNumber n = some other → test other = false

def Stored (low top : Nat) : Prop := ∀ n, low ≤ n → n ≤ top → (db.getBlockByNumber n).isSome = true

variable {db} {head : Block}

theorem get_parent_listed (indexed : db.Indexed head) {n : Nat} {block : Block} (below : n < head.number)
    (here : db.getBlockByNumber (n + 1) = some block) : db.chain.getParent block = db.getBlockByNumber n := by
  have small := head.small
  have number : uint64 (block.number + 2 ^ 64 - 1) = n := by
    rw [indexed.number _ _ below here, uint64]
    omega
  rw [BlockChain.getParent, indexed.parent n block below here, number]
  rfl

theorem highest_lower {test : Block → Bool} {n : Nat} {block : Block} (here : db.getBlockByNumber (n + 1) = some block)
    (fails : test block = false) (found : Block) : db.Highest test (n + 1) found ↔ db.Highest test n found := by
  constructor
  · rintro ⟨below, listed, passes, above⟩
    rcases below.lt_or_eq with lower | same
    · exact ⟨Nat.le_of_lt_succ lower, listed, passes, fun m other up top => above m other up (by omega)⟩
    · rw [same] at listed
      rw [← Option.some.inj (here.symm.trans listed), fails] at passes
      contradiction
  · rintro ⟨below, listed, passes, above⟩
    refine ⟨by omega, listed, passes, fun m other up top there => ?_⟩
    rcases top.lt_or_eq with lower | rfl
    · exact above m other up (by omega) there
    · rwa [← Option.some.inj (here.symm.trans there)]

theorem stored_lower {low n : Nat} {block : Block} (here : db.getBlockByNumber (n + 1) = some block) :
    db.Stored low (n + 1) ↔ db.Stored low n := by
  constructor
  · exact fun stored m above up => stored m above (by omega)
  · intro stored m above up
    rcases up.lt_or_eq with lower | rfl
    · exact stored m above (by omega)
    · rw [here]
      rfl

theorem highest_here (indexed : db.Indexed head) {n : Nat} {block : Block} (below : n ≤ head.number)
    (here : db.getBlockByNumber n = some block) {test : Block → Bool} (passes : test block = true) (found : Block) :
    block = found ↔ db.Highest test n found ∧ db.Stored found.number n := by
  have number := indexed.number n block below here
  constructor
  · rintro rfl
    refine ⟨⟨number.le, number.symm ▸ here, passes, fun _ _ above up => absurd up (by omega)⟩, fun m above up => ?_⟩
    rw [show m = n by omega, here]
    rfl
  · rintro ⟨highest, -⟩
    rcases highest.below.lt_or_eq with lower | same
    · rw [highest.above n block lower le_rfl here] at passes
      contradiction
    · exact Option.some.inj (here.symm.trans (same ▸ highest.listed))

-- The walk down goes through stored blocks to the first one that has its public state.
theorem repair_iff (indexed : db.Indexed head) {n : Nat} {block found : Block} (below : n ≤ head.number)
    (here : db.getBlockByNumber n = some block) : db.repair (n + 1) block = some found ↔
      db.Highest db.states.opensPublic n found ∧ db.Stored found.number n := by
  induction n generalizing block with
  | zero =>
    cases opens : db.states.opensPublic block with
    | true => rw [repair, if_pos opens, Option.some.injEq, highest_here indexed below here opens]
    | false =>
      have none : ¬ db.Highest db.states.opensPublic 0 found := by
        intro highest
        have listed := Nat.le_zero.mp highest.below ▸ highest.listed
        have passes := highest.passes
        rw [← Option.some.inj (here.symm.trans listed), opens] at passes
        contradiction
      simp [repair, opens, indexed.first block here, none]
  | succ n ih =>
    cases opens : db.states.opensPublic block with
    | true => rw [repair, if_pos opens, Option.some.injEq, highest_here indexed below here opens]
    | false =>
      rw [repair, if_neg (by simp [opens]), get_parent_listed indexed below here, highest_lower here opens, stored_lower here]
      cases parent : db.getBlockByNumber n with
      | none =>
        have gap : ∀ low, low ≤ n → ¬ db.Stored low n := fun low up stored => by simpa [parent] using stored n up le_rfl
        simpa using fun highest => gap _ highest.below
      | some lower => exact ih (by omega) parent

theorem reset_blocked (missing : db.headBlockHash ≠ 0 → db.getBlockByHash db.headBlockHash = none) : db.reset = .blocked := by
  have again : (db.setHead.loadWith fun _ => .blocked) = .blocked := by
    unfold loadWith
    split_ifs with zero
    · rfl
    · have gone : db.setHead.getBlockByHash db.setHead.headBlockHash = none := by
        have missing := missing zero
        unfold getBlockByHash at missing ⊢
        cases number : db.numbers db.headBlockHash with
        | none => simp [setHead, number]
        | some n =>
          rw [number, Option.bind_some] at missing
          simp [setHead, number, missing]
      rw [gone]
  rw [reset, again]

theorem load_last_state_current (indexed : ∀ head, db.getBlockByHash db.headBlockHash = some head → db.Indexed head)
    (block : Block) : db.loadLastState = .current block ↔
      ∃ head, db.headBlockHash ≠ 0 ∧ db.getBlockByHash db.headBlockHash = some head ∧
        db.repair (head.number + 1) head = some block := by
  have opened : ∀ n block, db.states.opensPublic block = true → db.repair (n + 1) block = some block := fun _ _ opens => if_pos opens
  unfold loadLastState loadWith
  by_cases zero : db.headBlockHash = 0
  · rw [reset_blocked fun nonzero => absurd zero nonzero]
    simp [zero]
  · rw [if_neg zero]
    cases found : db.getBlockByHash db.headBlockHash with
    | none =>
      simp only [reset_blocked fun _ => found]
      simp
    | some head =>
      have joined : (if db.states.opensPublic head then some head else db.repair (head.number + 1) head) =
          db.repair (head.number + 1) head := by
        split_ifs with opens
        · exact (opened _ head opens).symm
        · rfl
      simp only [joined, zero, ne_eq, not_false_eq_true, true_and, Option.some.injEq, exists_eq_left']
      cases stopped : db.repair (head.number + 1) head with
      | none => simp
      | some last =>
        have opens := ((repair_iff (indexed head found) le_rfl (indexed head found).listed).mp stopped).1.passes
        simp only [opened _ last opens, ite_self, Loaded.current.injEq, Option.some.injEq]

end Startup

-- The head is usable exactly where the first block from the recorded head down that has its public state, over stored
-- blocks, has its vault state too.
theorem usable_head_iff (db : Startup) (indexed : ∀ head, db.getBlockByHash db.headBlockHash = some head → db.Indexed head) :
    (∀ block, db.loadLastState = .current block →
      ∃ head, db.getBlockByHash db.headBlockHash = some head ∧ db.Highest db.states.stateAt head.number block) ↔
    ∀ head block, db.headBlockHash ≠ 0 → db.getBlockByHash db.headBlockHash = some head →
      db.Highest db.states.opensPublic head.number block → db.Stored block.number head.number → db.states.opensVault block = true := by
  have walk : ∀ head block, db.getBlockByHash db.headBlockHash = some head → (db.repair (head.number + 1) head = some block ↔
      db.Highest db.states.opensPublic head.number block ∧ db.Stored block.number head.number) :=
    fun head block found => Startup.repair_iff (indexed head found) le_rfl (indexed head found).listed
  constructor
  · intro usable head block nonzero found highest stored
    have stops := (walk head block found).mpr ⟨highest, stored⟩
    obtain ⟨_, _, highest⟩ := usable block ((Startup.load_last_state_current indexed block).mpr ⟨head, nonzero, found, stops⟩)
    exact (Bool.and_eq_true_iff.mp highest.passes).2
  · intro vaults block loaded
    obtain ⟨head, nonzero, found, stops⟩ := (Startup.load_last_state_current indexed block).mp loaded
    obtain ⟨highest, stored⟩ := (walk head block found).mp stops
    have vault := vaults head block nonzero found highest stored
    refine ⟨head, found, highest.below, highest.listed, Bool.and_eq_true_iff.mpr ⟨highest.passes, vault⟩, ?_⟩
    intro n other above below there
    rw [States.stateAt, highest.above n other above below there, Bool.false_and]

theorem zero_small : 0 < 2 ^ 64 := by decide
theorem one_small : 1 < 2 ^ 64 := by decide

def firstBlock : Block := ⟨1, 0, 0, 1, zero_small⟩
def secondBlock : Block := ⟨2, 1, 1, 1, one_small⟩

def twoBlocks (publics vaults : Hash → Bool) : Startup where
  chain :=
    { blocks := fun hash number => if hash = 1 ∧ number = 0 then some firstBlock
        else if hash = 2 ∧ number = 1 then some secondBlock else none
      td := fun _ _ => none
      canonical := fun number => if number = 0 then 1 else if number = 1 then 2 else 0
      currentBlock := firstBlock }
  states := ⟨fun block => block.hash, publics, vaults, id⟩
  genesis := firstBlock
  headBlockHash := 2
  numbers hash := if hash = 1 then some 0 else if hash = 2 then some 1 else none
  above hash _ := hash = 2

-- A head without its states falls back to its parent, which has both.
theorem two_blocks_usable : let db := twoBlocks (· = 1) (· = 1)
    db.loadLastState = .current firstBlock ∧ ∃ head, db.Highest db.states.stateAt head firstBlock := by
  intro db
  have loaded : db.loadLastState = .current firstBlock := by decide +kernel
  refine ⟨loaded, ?_⟩
  have indexed : ∀ head, db.getBlockByHash 2 = some head → db.Indexed head := by
    rintro _ ⟨⟩
    refine ⟨rfl, ?_, ?_, ?_⟩
    · intro n block below here
      rcases Nat.le_one_iff_eq_zero_or_eq_one.mp below with rfl | rfl
      · cases here
        rfl
      · cases here
        rfl
    · intro n block below here
      cases Nat.lt_one_iff.mp below
      cases here
      rfl
    · rintro block ⟨⟩
      decide +kernel
  obtain ⟨head, _, highest⟩ := (usable_head_iff _ indexed).mpr (fun _ _ _ _ highest _ => highest.passes) firstBlock loaded
  exact ⟨head.number, highest⟩

-- The head has no vault state, its parent has both, and the head stays.
theorem missing_vault_state_loaded : let db := twoBlocks (fun _ => true) (· = 1)
    db.loadLastState = .current secondBlock ∧ db.states.opensVault secondBlock = false ∧ db.states.stateAt firstBlock = true := by
  decide +kernel

end Didux.Chain
