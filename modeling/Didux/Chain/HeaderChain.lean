import Didux.Chain.Canonical

set_option autoImplicit false

namespace Didux.Chain

open Sport Function

-- The tables of a header chain are those of a block chain, with the current header for the current block.
abbrev HeaderChain := BlockChain

namespace HeaderChain

-- Overwrite any stale canonical number assignments. A header that is missing is a nil pointer.
def overwrite : Nat → Hash → Nat → Option Block → HeaderChain → Option HeaderChain
  | 0, _, _, _, _ => none
  | fuel + 1, headHash, headNumber, headHeader, hc => if hc.canonical headNumber = headHash then some hc else
      let hc := { hc with canonical := update hc.canonical headNumber headHash }
      match headHeader with
      | none => none
      | some header => overwrite fuel header.parentHash (uint64 (header.number + 2 ^ 64 - 1)) (hc.getParent header) hc

-- The coin is the comparison of a random number that is drawn for two headers of equal weight.
def writeHeader (coin : Bool) (hc : HeaderChain) (header : Block) : Except ChainError (HeaderChain × WriteStatus) :=
  match hc.parentTd header, hc.getTd hc.currentBlock with
  | none, _ => .error .unknownAncestor
  | some _, none => .error .panic
  | some ptd, some localTd =>
    let externTd := header.difficulty + ptd
    let hc := hc.writeBlock header externTd
    if localTd < externTd ∨ (externTd = localTd ∧ coin = true) then
      let hc := hc.deleteAbove header.number
      match overwrite (header.number + 1) header.parentHash (uint64 (header.number + 2 ^ 64 - 1)) (hc.getParent header) hc with
      | none => .error .panic
      | some hc => .ok (hc.insert header, .canonStatTy)
    else .ok (hc, .sideStatTy)

-- The last component is the counter of the headers that may still be checked one by one.
def walkBack (hc : HeaderChain) : Nat → Hash → Nat → Nat → Hash × Nat × Nat
  | 0, hash, number, maxNonCanonical => (hash, number, maxNonCanonical)
  | ancestor + 1, hash, number, maxNonCanonical =>
    if hc.canonical number = hash then (hc.canonical (number - (ancestor + 1)), number - (ancestor + 1), maxNonCanonical) else
      match maxNonCanonical with
      | 0 => (0, 0, 0)
      | maxNonCanonical + 1 =>
        match hc.blocks hash number with
        | none => (0, 0, maxNonCanonical)
        | some header => walkBack hc ancestor header.parentHash (number - 1) maxNonCanonical

def getAncestor (hc : HeaderChain) (hash : Hash) (number ancestor maxNonCanonical : Nat) : Hash × Nat × Nat :=
  if number < ancestor then (0, 0, maxNonCanonical)
  else if ancestor = 1 then
    match hc.blocks hash number with
    | some header => (header.parentHash, number - 1, maxNonCanonical)
    | none => (0, 0, maxNonCanonical)
  else hc.walkBack ancestor hash number maxNonCanonical

def TooFar (hc : HeaderChain) (header : Block) (ancestor maxNonCanonical : Nat) : Prop :=
  maxNonCanonical < ancestor ∧
    ∀ block, hc.Ancestor header block → header.number ≤ block.number + maxNonCanonical → hc.canonical block.number ≠ block.hash

def FindsAncestor (hc : HeaderChain) (header : Block) (ancestor maxNonCanonical : Nat) (answer : Hash × Nat × Nat) : Prop :=
  (∃ block, hc.Ancestor header block ∧ block.number + ancestor = header.number ∧ answer.1 = block.hash ∧ answer.2.1 = block.number) ∨
    (answer.1 = 0 ∧ answer.2.1 = 0 ∧ (header.number < ancestor ∨ hc.TooFar header ancestor maxNonCanonical))

open BlockChain

variable {genesis : Block} {hc : HeaderChain}

section Writing

variable {header : Block} {old : Nat → Hash}

theorem listed_below (stored : WellStored genesis hc) (here : hc.Stores hc.currentBlock) (listed : hc.Lists old hc.currentBlock)
    (there : hc.Stores header) (entry : old header.number = header.hash) (n : Nat) (low : n ≤ header.number) :
    ∃ block, hc.Ancestor header block ∧ block.number = n ∧ old n = block.hash := by
  have inside : header.number ≤ hc.currentBlock.number := by
    by_contra above
    rw [listed.above _ (Nat.lt_of_not_le above)] at entry
    exact stored.nonzero header there entry.symm
  obtain ⟨block, up, number, hash⟩ := listed.entries header.number inside
  cases stored.named block header (ancestor_stored stored _ _ here up) there (hash.symm.trans entry)
  exact lists_below stored old hc.currentBlock header here listed.entries up n low

theorem overwrite_entries (stored : WellStored genesis hc) (here : hc.Stores hc.currentBlock) (listed : hc.Lists old hc.currentBlock)
    (fuel : Nat) (header : Block) (there : hc.Stores header) (enough : header.number < fuel) (canonical : Nat → Hash)
    (same : ∀ n, n ≤ header.number → canonical n = old n) :
    ∃ next, overwrite fuel header.hash header.number (some header) { hc with canonical := canonical } =
        some { hc with canonical := next } ∧
      (∀ n, n ≤ header.number → ∃ block, hc.Ancestor header block ∧ block.number = n ∧ next n = block.hash) ∧
      ∀ n, header.number < n → next n = canonical n := by
  induction fuel generalizing header canonical with
  | zero => omega
  | succ fuel ih =>
    by_cases done : canonical header.number = header.hash
    · refine ⟨canonical, by simp [overwrite, done], fun n low => ?_, fun _ _ => rfl⟩
      have entry : old header.number = header.hash := (same _ (Nat.le_refl _)).symm.trans done
      obtain ⟨ancestor, above, at_, value⟩ := listed_below stored here listed there entry n low
      exact ⟨ancestor, above, at_, (same n low).trans value⟩
    · have high : header.number ≠ 0 := by
        intro zero
        obtain ⟨block, up, number, hash⟩ := listed.entries 0 (Nat.zero_le _)
        have first := number_zero stored block (ancestor_stored stored _ _ here up) number
        apply done
        rw [same _ (Nat.le_refl _), zero, hash, first, number_zero stored header there zero]
      obtain ⟨parent, known, step⟩ := parent_exists stored header there high
      have down := step.2
      have name := (stored.keyed _ _ _ step.1).1
      obtain ⟨next, run, entries, kept⟩ := ih parent known (by omega) (update canonical header.number header.hash)
        (fun n low => by rw [update_of_ne (by omega), same n (by omega)])
      refine ⟨next, ?_, fun n low => ?_, fun n above => ?_⟩
      · have found : BlockChain.getParent { hc with canonical := update canonical header.number header.hash } header = some parent :=
          step.1
        simp only [overwrite, done, if_false, found, parent_number header parent.number down.symm, ← name]
        exact run
      · by_cases top : n = header.number
        · exact ⟨header, .refl, top.symm, by rw [top, kept _ (by omega), update_self]⟩
        · obtain ⟨block, up, number, entry⟩ := entries n (by omega)
          exact ⟨block, .head step up, number, entry⟩
      · rw [kept n (by omega), update_of_ne (by omega)]

theorem takeover_inv {localTd externTd : Nat} (written : Written genesis hc header localTd externTd) (heavier : localTd ≤ externTd) :
    ∃ next, overwrite (header.number + 1) header.parentHash (uint64 (header.number + 2 ^ 64 - 1))
        ((hc.deleteAbove header.number).getParent header) (hc.deleteAbove header.number) = some next ∧
      Inv genesis (next.insert header) := by
  obtain ⟨parent, step⟩ := written.parent
  have down := step.2
  have name := (written.stored.keyed _ _ _ step.1).1
  have deleted := delete_above_canonical header.number hc.currentBlock.number hc.currentBlock.small
    (fun n _ low => lists_nonzero written.stored _ written.head written.listed n low) (fun n _ above => written.listed.above n above)
  obtain ⟨next, run, entries, kept⟩ := overwrite_entries written.stored written.head written.listed (header.number + 1) parent
    (parent_stored written.stored header parent step) (by omega) (hc.deleteAbove header.number).canonical
    (fun n low => by rw [deleted, if_neg (by omega)])
  refine ⟨{ hc with canonical := next }, ?_, ?_⟩
  · have found : (hc.deleteAbove header.number).getParent header = some parent := step.1
    rw [found, parent_number header parent.number down.symm, ← name]
    exact run
  · refine head_inv written.stored { hc with canonical := next } header written.new rfl rfl ?_
      (canon_heaviest header localTd externTd written heavier)
    refine insert_lists header parent next step entries fun n above => ?_
    rw [kept n (by omega), deleted, if_pos above]

theorem write_header_inv (coin : Bool) (inv : Inv genesis hc) (writable : hc.Writable header) :
    ∃ next status, hc.writeHeader coin header = .ok (next, status) ∧ Inv genesis next := by
  obtain ⟨localTd, mine⟩ := stored_td inv.stored hc.currentBlock inv.head
  obtain ⟨ptd, weight⟩ := writable_td inv.stored writable
  have written := write_block_written header inv writable ptd localTd weight mine
  simp only [writeHeader, weight, mine]
  split_ifs with chosen
  · obtain ⟨next, run, kept⟩ := takeover_inv written (by rcases chosen with more | ⟨same, -⟩ <;> omega)
    exact ⟨next.insert header, .canonStatTy, by rw [run], kept⟩
  · refine ⟨_, .sideStatTy, rfl, side_inv header localTd _ written ?_⟩
    by_contra more
    exact chosen (.inl (Nat.lt_of_not_le more))

end Writing

section Ancestry

theorem walk_back_finds (inv : Inv genesis hc) (ancestor maxNonCanonical : Nat) (header : Block) (there : hc.Stores header)
    (low : ancestor ≤ header.number) :
    hc.FindsAncestor header ancestor maxNonCanonical (hc.walkBack ancestor header.hash header.number maxNonCanonical) := by
  induction ancestor generalizing header maxNonCanonical with
  | zero => exact .inl ⟨header, .refl, rfl, rfl, rfl⟩
  | succ ancestor ih =>
    rw [walkBack.eq_def]
    dsimp only
    by_cases listed : hc.canonical header.number = header.hash
    · rw [if_pos listed]
      obtain ⟨block, up, number, entry⟩ := listed_below inv.stored inv.head inv.indexed.1 there listed (header.number - (ancestor + 1))
        (Nat.sub_le _ _)
      exact .inl ⟨block, up, by omega, entry, number.symm⟩
    · rw [if_neg listed]
      cases maxNonCanonical with
      | zero =>
        refine .inr ⟨rfl, rfl, .inr ⟨Nat.succ_pos _, fun block up near => ?_⟩⟩
        cases ancestor_unique header block header up .refl (by have := ancestor_le header block up; omega)
        exact listed
      | succ more =>
        obtain ⟨parent, known, step⟩ := parent_exists inv.stored header there (by omega)
        have down := step.2
        have name := (inv.stored.keyed _ _ _ step.1).1
        have found : hc.blocks header.hash header.number = some header := there
        have below : header.number - 1 = parent.number := by omega
        simp only [found, ← name, below]
        rcases ih more parent known (by omega) with ⟨block, up, number, answer⟩ | ⟨hash, number, far⟩
        · exact .inl ⟨block, .head step up, by omega, answer⟩
        · refine .inr ⟨hash, number, .inr ?_⟩
          obtain short | ⟨long, none⟩ := far
          · omega
          · refine ⟨by omega, fun block up near => ?_⟩
            obtain rfl | ⟨next, first, rest⟩ := Relation.ReflTransGen.cases_head up
            · exact listed
            · cases Option.some.inj (first.1.symm.trans step.1)
              exact none block rest (by omega)

theorem get_ancestor_finds (inv : Inv genesis hc) {header : Block} (there : hc.Stores header) {ancestor maxNonCanonical : Nat} :
    hc.FindsAncestor header ancestor maxNonCanonical (hc.getAncestor header.hash header.number ancestor maxNonCanonical) := by
  rw [getAncestor]
  split_ifs with beyond one
  · exact .inr ⟨rfl, rfl, .inl beyond⟩
  · subst one
    obtain ⟨parent, known, step⟩ := parent_exists inv.stored header there (by omega)
    have down := step.2
    have found : hc.blocks header.hash header.number = some header := there
    simp only [found]
    exact .inl ⟨parent, .single step, down.symm, (inv.stored.keyed _ _ _ step.1).1.symm, Nat.sub_eq_of_eq_add down⟩
  · exact walk_back_finds inv ancestor maxNonCanonical header there (Nat.le_of_not_lt beyond)

end Ancestry

def Step (hc next : HeaderChain) : Prop := ∃ coin header status, hc.Writable header ∧ hc.writeHeader coin header = .ok (next, status)

def Reached : HeaderChain → Prop :=
  Runs.Reached (fun hc => ∃ genesis : Block, genesis.number = 0 ∧ genesis.hash ≠ 0 ∧ hc = BlockChain.start genesis) Step

-- After every call the index is the chain of the current header, which is the heaviest, no call fails, and an ancestor
-- is found unless it is too far away.
theorem header_chain_index (hc : HeaderChain) (reached : Reached hc) :
    hc.Indexed ∧ (∀ coin header, hc.Writable header → ∃ next status, hc.writeHeader coin header = .ok (next, status) ∧ next.Indexed) ∧
      ∀ header ancestor maxNonCanonical, hc.Stores header →
        hc.FindsAncestor header ancestor maxNonCanonical (hc.getAncestor header.hash header.number ancestor maxNonCanonical) := by
  obtain ⟨genesis, inv⟩ : ∃ genesis, Inv genesis hc := by
    refine Runs.reached_invariant _ _ (fun hc => ∃ genesis, Inv genesis hc) ?_ ?_ hc reached
    · rintro _ ⟨genesis, zero, nonzero, rfl⟩
      exact ⟨genesis, start_inv genesis zero nonzero⟩
    · rintro before after ⟨genesis, inv⟩ ⟨coin, header, status, writable, ran⟩
      obtain ⟨next, status', ran', kept⟩ := write_header_inv coin inv writable
      cases Except.ok.inj (ran.symm.trans ran')
      exact ⟨genesis, kept⟩
  refine ⟨inv.indexed, fun coin header writable => ?_, fun header ancestor maxNonCanonical there =>
    get_ancestor_finds inv there⟩
  obtain ⟨next, status, ran, kept⟩ := write_header_inv coin inv writable
  exact ⟨next, status, ran, kept.indexed⟩

end HeaderChain

namespace Forks

def writeHeader (hc : HeaderChain) (header : Block) : HeaderChain :=
  match HeaderChain.writeHeader false hc header with
  | .ok (next, _) => next
  | .error _ => hc

def headers : HeaderChain := writeHeader (writeHeader (writeHeader (BlockChain.start genesis) first) second) heavy

theorem header_step (hc : HeaderChain) (header parent : Block) (here : hc.Stores parent) (hash : parent.hash = header.parentHash)
    (number : parent.number + 1 = header.number) (positive : 0 < header.difficulty) (fresh : ∀ n, hc.blocks header.hash n = none)
    (nonzero : header.hash ≠ 0) (ran : (HeaderChain.writeHeader false hc header).isOk = true) :
    HeaderChain.Step hc (writeHeader hc header) := by
  obtain ⟨status, taken⟩ : ∃ status, HeaderChain.writeHeader false hc header = .ok (writeHeader hc header, status) := by
    unfold writeHeader
    cases outcome : HeaderChain.writeHeader false hc header with
    | error e => simp [outcome, Except.isOk, Except.toBool] at ran
    | ok result => exact ⟨result.2, rfl⟩
  exact ⟨false, header, status, ⟨⟨parent, here, hash, number⟩, positive, fun n other found => by simp [fresh n] at found, nonzero⟩, taken⟩

end Forks

theorem header_chain_index_fork : HeaderChain.Reached Forks.headers ∧ Forks.headers.currentBlock = Forks.heavy ∧ Forks.headers.Indexed ∧
    Forks.headers.canonical 2 = 0 ∧ Forks.headers.getAncestor Forks.second.hash 2 2 2 = (Forks.genesis.hash, 0, 0) := by
  have reached : HeaderChain.Reached Forks.headers := by
    refine Runs.reached_step _ _ _ _ (Runs.reached_step _ _ _ _ (Runs.reached_step _ _ _ _
      (Runs.reached_start _ _ _ ⟨Forks.genesis, rfl, by decide, rfl⟩)
      (Forks.header_step _ Forks.first Forks.genesis (by decide +kernel) rfl rfl (by decide) (fun _ => rfl) (by decide)
        (by decide +kernel)))
      (Forks.header_step _ Forks.second Forks.first (by decide +kernel) rfl rfl (by decide) (fun _ => rfl) (by decide)
        (by decide +kernel)))
      (Forks.header_step _ Forks.heavy Forks.genesis (by decide +kernel) rfl rfl (by decide) (fun _ => rfl) (by decide)
        (by decide +kernel))
  exact ⟨reached, by decide +kernel, (HeaderChain.header_chain_index _ reached).1, by decide +kernel, by decide +kernel⟩

end Didux.Chain
