import Didux.Miner.Worker

set_option autoImplicit false

namespace Didux.Miner

open Sport State Vm Didux.Core StateDB

namespace Pending

variable (heap : PriceHeap) (pending : Pending)

theorem next_perm (acc : Address) (txs rest : List (Address × List Transaction)) (tx : Transaction)
    (taken : next acc txs = some (tx, rest)) :
    (tx :: rest.flatMap fun account => account.2).Perm (txs.flatMap fun account => account.2) := by
  induction txs generalizing rest with
  | nil => contradiction
  | cons account others ih =>
    rcases account with ⟨a, queue⟩
    have deeper : ∀ found, next acc others = some found → (tx, rest) = (found.1, (a, queue) :: found.2) →
        (tx :: rest.flatMap fun account => account.2).Perm (((a, queue) :: others).flatMap fun account => account.2) := by
      intro found here same
      obtain ⟨rfl, rfl⟩ := Prod.mk.inj same
      exact List.perm_middle.symm.trans ((ih found.2 here).append_left queue)
    cases queue with
    | nil =>
      unfold next at taken
      split at taken
      · contradiction
      · obtain ⟨found, here, same⟩ := Option.map_eq_some_iff.mp taken
        exact deeper found here same.symm
    | cons head queue =>
      unfold next at taken
      split at taken
      · obtain ⟨rfl, rfl⟩ := Prod.mk.inj (Option.some.inj taken)
        rfl
      · obtain ⟨found, here, same⟩ := Option.map_eq_some_iff.mp taken
        exact deeper found here same.symm

theorem pop_perm (tx : Transaction) (head : pending.peek = some tx) : (tx :: (pending.pop heap).all).Perm pending.all := by
  obtain ⟨rest, heads⟩ := List.head?_eq_some_iff.mp head
  unfold all pop
  rw [heads]
  exact ((heap.perm rest).append_right _).cons tx

theorem shift_perm (tx : Transaction) (head : pending.peek = some tx) : (tx :: (pending.shift heap).all).Perm pending.all := by
  have popped := pop_perm heap pending tx head
  obtain ⟨rest, heads⟩ := List.head?_eq_some_iff.mp head
  unfold shift
  rw [heads]
  dsimp only
  cases taken : next (tx.sender.getD 0) pending.txs with
  | none => exact popped
  | some found =>
    have perm := next_perm _ pending.txs found.2 found.1 taken
    have front : (heap.order (found.1 :: rest) ++ found.2.flatMap fun account => account.2).Perm
        (rest ++ found.1 :: found.2.flatMap fun account => account.2) :=
      ((heap.perm _).append_right _).trans List.perm_middle.symm
    unfold all
    rw [heads]
    exact (front.trans (perm.append_left rest)).cons tx

theorem advance_perm (tx : Transaction) (err : Option TxError) (head : pending.peek = some tx) :
    (tx :: (advance heap pending err).all).Perm pending.all := by
  unfold advance
  split
  · exact pop_perm heap pending tx head
  · exact pop_perm heap pending tx head
  · exact shift_perm heap pending tx head

end Pending

theorem size_perm (next pending : Pending) (tx : Transaction) (perm : (tx :: next.all).Perm pending.all) :
    pending.size = next.size + 1 := perm.length_eq.symm

section Commit

variable (chain : Chain) (header : Header) (coinbase : Address) (access : Transaction → VaultAccess) (heap : PriceHeap)

theorem rounds_enough (rounds : Nat) (pending : Pending) (work : Work) (enough : pending.size ≤ rounds) :
    commitRounds chain header coinbase access heap rounds pending work =
      commitTransactions chain header coinbase access heap pending work := by
  unfold commitTransactions
  induction rounds generalizing pending work with
  | zero => rw [Nat.le_zero.mp enough]
  | succ rounds ih =>
    cases head : pending.peek with
    | none =>
      have done : ∀ n, commitRounds chain header coinbase access heap n pending work = some work := by
        intro n
        cases n with
        | zero => rfl
        | succ n => simp [commitRounds, head]
      rw [done, done]
    | some tx =>
      have popped := size_perm _ pending tx (Pending.pop_perm heap pending tx head)
      have advanced := fun err => size_perm _ pending tx (Pending.advance_perm heap pending tx err head)
      rw [popped]
      unfold commitRounds
      rw [head]
      dsimp only
      split
      · rfl
      · split
        · exact ih _ _ (by omega)
        · split
          · rfl
          · rename_i next err _
            have same : (pending.pop heap).size = (advance heap pending err).size := by
              have := advanced err
              omega
            rw [same]
            exact ih _ _ (by have := advanced err; omega)

end Commit

theorem process_all_append (chain : Chain) (header : Header) (access : Transaction → VaultAccess) (index : Nat)
    (txs : List Transaction) (tx : Transaction) (p q : Chain.Processing) (done : chain.processAll header access index txs p = .ok q) :
    chain.processAll header access index (txs ++ [tx]) p = chain.processOne header header.hash access (index + txs.length) tx q := by
  induction txs generalizing index p with
  | nil =>
    obtain rfl : p = q := Except.ok.inj done
    simp only [List.nil_append, Chain.processAll]
    split <;> simp_all
  | cons first rest ih =>
    simp only [List.cons_append, Chain.processAll, List.length_cons] at done ⊢
    split at done
    · contradiction
    · rename_i next one
      rw [ih (index + 1) next done, Nat.add_right_comm, Nat.add_assoc]

section Replay

variable (chain : Chain) (header : Header) (hash : Hash) (author : Address) (access asked : Transaction → VaultAccess)
  (publicState vaultState : StateDB)

structure Follows (work : Work) (p : Chain.Processing) : Prop where
  replayed : chain.processAll header asked 0 work.txs ⟨publicState, vaultState, header.gasLimit, 0, [], []⟩ = .ok p
  level : ∀ thash txIndex, Alike (fun _ => header.hash) (work.state.prepare thash 0 txIndex)
    (p.publicState.prepare thash header.hash txIndex)
  revisions : work.state.validRevisions = []
  replayedRevisions : p.publicState.validRevisions = []
  pool : work.gasPool ≤ p.gp
  bound : p.gp ≤ maxUint64
  usedGas : p.usedGas = work.gasUsed
  receipts : p.receipts = work.receipts.map (Receipt.stamped fun _ => header.hash)
  count : work.tcount = work.txs.length

variable (tx : Transaction) (work : Work) (p : Chain.Processing) (plain : (chain.isSmilo && tx.isVault) = false)
  (follows : Follows chain header asked publicState vaultState work p)

include plain follows

omit plain in
theorem follows_failed (e : TxError) (state vault : StateDB) (other : e ≠ .panic)
    (failed : (attempt chain (header.unsealed hash author) header.author access tx (work.prepare tx)).result = .error e)
    (reverted : (attempt chain (header.unsealed hash author) header.author access tx (work.prepare tx)).publicState.revertToSnapshot
      (work.prepare tx).state.snapshot.1 = some state) : Follows chain header asked publicState vaultState
      { work.prepare tx with
        state := state, vaultState := vault
        gasPool := (attempt chain (header.unsealed hash author) header.author access tx (work.prepare tx)).gp } p := by
  obtain ⟨undone, _, less, _⟩ := Chain.apply_failed chain (header.unsealed hash author) header.author tx _ _ _ _ _ e
    (Nat.le_trans follows.pool follows.bound) other failed
  obtain ⟨back, again, alike, revisions⟩ := undone_revert undone
  obtain rfl : back = state := Option.some.inj (again.symm.trans reverted)
  refine { follows with level := ?_, revisions := revisions.trans follows.revisions, pool := Nat.le_trans less follows.pool }
  intro thash txIndex
  have prepared := alike_prepare alike thash 0 0 txIndex rfl
  exact alike_trans _ _ _ _ prepared (follows.level thash txIndex)

theorem follows_kept (receipts : Receipts)
    (ok : (attempt chain (header.unsealed hash author) header.author access tx (work.prepare tx)).result = .ok receipts) :
    ∃ q, Follows chain header asked publicState vaultState
      (((work.prepare tx).keep tx (attempt chain (header.unsealed hash author) header.author access tx (work.prepare tx))
        receipts).count none) q := by
  have alike : Alike (fun _ => header.hash) (work.prepare tx).state.snapshot.2
      (p.publicState.prepare tx.hash header.hash work.tcount) := { follows.level tx.hash work.tcount with }
  have fresh : Fresh (work.prepare tx).state.snapshot.2 := by
    simp [Fresh, snapshot, Work.prepare, prepare, follows.revisions]
  have freshTwin : Fresh (p.publicState.prepare tx.hash header.hash work.tcount) := by
    simp [Fresh, prepare, follows.replayedRevisions]
  obtain ⟨samePublic, sameResult, pool, _, most⟩ := Chain.apply_pool chain (header.unsealed hash author) header.author tx _ _ _ _ _
    plain p.gp receipts follows.pool follows.bound ok
  obtain ⟨sameGp, finished, agrees⟩ := Chain.apply_alike chain header hash author header.author tx (access tx) (asked tx) _ _
    (work.prepare tx).vaultState.snapshot.2 (p.vaultState.prepare tx.hash header.hash work.tcount) p.gp
    (work.prepare tx).gasUsed plain alike fresh freshTwin
  generalize replay : chain.applyTransaction header header.author tx (asked tx) (p.publicState.prepare tx.hash header.hash work.tcount)
    (p.vaultState.prepare tx.hash header.hash work.tcount) p.gp (work.prepare tx).gasUsed = replayed at sameGp finished agrees
  rw [sameResult.trans ok] at agrees
  rw [samePublic] at finished
  have total : p.usedGas = (work.prepare tx).gasUsed := follows.usedGas
  obtain ⟨receipt, vault, gas, usedGas⟩ := receipts
  generalize outcome : replayed.result = result at agrees
  cases agrees with
  | ok =>
    have one : chain.processOne header header.hash asked (0 + work.txs.length) tx p =
        .ok ⟨replayed.publicState, replayed.vaultState, replayed.gp, usedGas,
          p.receipts ++ [receipt.stamped fun _ => header.hash], p.vaultReceipts ++ []⟩ := by
      unfold Chain.processOne
      dsimp only
      rw [Nat.zero_add, ← follows.count, total, replay, outcome]
      rfl
    refine ⟨_, (process_all_append chain header asked 0 work.txs tx _ p follows.replayed).trans one, ?_, ?_, ?_, ?_, ?_, ?_, ?_, ?_⟩
    · exact fun thash txIndex => alike_prepare finished thash 0 header.hash txIndex rfl
    · exact Chain.apply_ok_revisions chain _ _ tx _ _ _ _ _ _ ok
    · exact replay ▸ Chain.apply_ok_revisions chain _ _ tx _ _ _ _ _ _ (replay ▸ outcome)
    · exact sameGp ▸ pool
    · exact Nat.le_trans (sameGp ▸ most) follows.bound
    · rfl
    · simp [Work.count, Work.keep, Work.prepare, follows.receipts]
    · simp [Work.count, Work.keep, Work.prepare, follows.count]

omit plain follows in
theorem follows_rounds (heap : PriceHeap) (rounds : Nat) (pending : Pending) (work last : Work) (p : Chain.Processing)
    (plain : ∀ tx ∈ pending.all, tx.isVault = false) (follows : Follows chain header asked publicState vaultState work p)
    (done : commitRounds chain (header.unsealed hash author) header.author access heap rounds pending work = some last) :
    ∃ q, Follows chain header asked publicState vaultState last q := by
  induction rounds generalizing pending work p with
  | zero =>
    obtain rfl : work = last := Option.some.inj done
    exact ⟨p, follows⟩
  | succ rounds ih =>
    unfold commitRounds at done
    split at done
    · obtain rfl : work = last := Option.some.inj done
      exact ⟨p, follows⟩
    · split at done
      · obtain rfl : work = last := Option.some.inj done
        exact ⟨p, follows⟩
      · rename_i tx head
        have rest : ∀ next : Pending, (tx :: next.all).Perm pending.all → ∀ tx ∈ next.all, tx.isVault = false :=
          fun next perm tx member => plain tx (perm.subset (List.mem_cons_of_mem _ member))
        have advanced := fun err => rest _ (Pending.advance_perm heap pending tx err head)
        have here : (chain.isSmilo && tx.isVault) = false := by
          rw [plain tx ((Pending.pop_perm heap pending tx head).subset List.mem_cons_self), Bool.and_false]
        split at done
        · exact ih _ _ p (rest _ (Pending.pop_perm heap pending tx head)) follows done
        · split at done
          · contradiction
          · rename_i next err committed
            rcases commit_cases chain _ _ access tx _ next err committed with
              ⟨e, state, vault, rfl, other, failed, reverted, -, rfl⟩ | ⟨receipts, rfl, ok, rfl⟩
            · exact ih _ _ p (advanced _)
                (follows_failed chain header hash author access asked publicState vaultState tx work p follows e state vault other
                  failed reverted) done
            · obtain ⟨q, kept⟩ :=
                follows_kept chain header hash author access asked publicState vaultState tx work p here follows receipts ok
              exact ih _ _ q (advanced _) kept done

end Replay

-- `header` is the sealed header of the block, of which the worker had everything but the hash and the author.
theorem mined_block_replays (chain : Chain) (header : Header) (hash : Hash) (author coinbase : Address)
    (access asked : Transaction → VaultAccess) (heap : PriceHeap) (pending : Pending)
    (publicTrie vaultTrie otherVault : Address → Option Account) (work : Work)
    (sealer : coinbase = header.author) (gasLimit : header.gasLimit < 2 ^ 64) (plain : ∀ tx ∈ pending.all, tx.isVault = false)
    (mined : commitTransactions chain (header.unsealed hash author) coinbase access heap pending
      (makeCurrent (header.unsealed hash author) (new publicTrie) (new vaultTrie)) = some work) :
    ∃ processed, chain.process header asked work.txs (new publicTrie) (new otherVault) = .ok processed ∧
      processed.receipts = work.receipts.map (Receipt.stamped fun _ => header.hash) ∧
      processed.usedGas = work.gasUsed ∧
      processed.root = (chain.finalize (header.unsealed hash author) work.txs work.state).1 := by
  subst sealer
  have start : Follows chain header asked (new publicTrie) (new otherVault)
      (makeCurrent (header.unsealed hash author) (new publicTrie) (new vaultTrie))
      ⟨new publicTrie, new otherVault, header.gasLimit, 0, [], []⟩ := by
    refine ⟨rfl, ?_, rfl, rfl, Nat.le_refl _, Nat.le_sub_one_of_lt gasLimit, rfl, rfl, rfl⟩
    intro thash txIndex
    exact ⟨rfl, rfl, rfl, rfl, rfl, rfl, fun _ => rfl, rfl, rfl, rfl, rfl⟩
  obtain ⟨q, follows⟩ := follows_rounds chain header hash author access asked _ _ heap _ pending _ work _ plain start mined
  let finalized := chain.finalize header work.txs q.publicState
  refine ⟨⟨finalized.2, q.vaultState, q.usedGas, q.receipts, q.vaultReceipts, finalized.1⟩, ?_, follows.receipts, follows.usedGas, ?_⟩
  · unfold Chain.process
    rw [follows.replayed]
  · have level := Chain.finalize_alike chain header hash author work.txs _ _ (follows.level 0 0)
    rw [Chain.finalize_prepare, Chain.finalize_prepare] at level
    exact level.symm

def plainPending : Pending := ⟨[plainTransaction 1 2 5, plainTransaction 2 1 0], []⟩

def plainHeap : PriceHeap := ⟨id, fun _ => .refl _⟩

def plainChain : Chain := idleChain true true true fun _ _ => .stop []

def plainHeader : Header := ⟨3, 0, 5, 0, 0, 100000, 7, 7⟩

theorem mined_block_replays_skipped :
    ∃ work, commitTransactions plainChain (plainHeader.unsealed 0 0) 7 (fun _ => .absent) plainHeap plainPending
        (makeCurrent (plainHeader.unsealed 0 0) (new (holder 1 100000 100000)) (new fun _ => none)) = some work ∧
      work.txs = [plainTransaction 2 1 0] ∧
      ∃ processed, plainChain.process plainHeader (fun _ => .absent) work.txs (new (holder 1 100000 100000))
          (new fun _ => none) = .ok processed ∧
        processed.receipts = work.receipts.map (Receipt.stamped fun _ => 3) := by
  refine ⟨_, rfl, rfl, ?_⟩
  obtain ⟨processed, done, receipts, _⟩ := mined_block_replays plainChain plainHeader 0 0 7 (fun _ => .absent) (fun _ => .absent)
    plainHeap plainPending (holder 1 100000 100000) (fun _ => none) (fun _ => none) _ rfl (by decide) (by decide) rfl
  exact ⟨processed, done, receipts⟩

end Didux.Miner
