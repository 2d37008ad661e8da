import Didux.Core.Logs
import Didux.Miner.Replay

set_option autoImplicit false

namespace Didux.Miner

open Sport State Vm Didux.Core Core.Chain

structure Included (chain : Chain) (header : Header) (rounds : List Round) (work : Work) : Prop where
  ledger : Ledger chain 0 (uint64 header.number) rounds work.state work.vaultState work.receipts work.vaultReceipts
  txs : work.txs = rounds.map Round.tx
  count : work.tcount = rounds.length
  ranked : Ranked work.state
  vaultRanked : Ranked work.vaultState

section Commit

variable {chain : Chain} {header : Header} {coinbase : Address} {access : Transaction → VaultAccess} {rounds : List Round} {work : Work}

theorem included_start (chain : Chain) (header : Header) (publicTrie vaultTrie : Address → Option Account) :
    Included chain header [] (makeCurrent header (StateDB.new publicTrie) (StateDB.new vaultTrie)) :=
  ⟨ledger_new _ _ _, rfl, rfl, ranked_cleared rfl, ranked_cleared rfl⟩

theorem held_reverted {s t u : StateDB} (held : Held Set.univ s t) (reverted : t.revertToSnapshot s.snapshot.1 = some u) :
    u.logs = s.logs ∧ u.logSize = s.logSize ∧ u.entries = s.entries ∧ Ranked u := by
  obtain ⟨journalIndex, older, suffix, -⟩ := StateDB.revert_revision _ reverted
  obtain ⟨found, again, level, -⟩ := held_back held (List.mem_map_of_mem (suffix.subset List.mem_cons_self))
  obtain rfl := Option.some.inj (again.symm.trans reverted)
  exact ⟨level.logs, level.logSize, level.entries, ranked_revert _ reverted held.ranked⟩

theorem prepared_ranked {s : StateDB} (ranked : Ranked s) (thash bhash : Hash) (txIndex : Nat) : Ranked (s.prepare thash bhash txIndex) :=
  ⟨ranked.ordered, ranked.bounded⟩

theorem included_failed (included : Included chain header rounds work) (tx : Transaction) (e : TxError) (state vaultState : StateDB)
    (failed : (attempt chain header coinbase access tx (work.prepare tx)).result = .error e)
    (reverted : (attempt chain header coinbase access tx (work.prepare tx)).publicState.revertToSnapshot
      (work.prepare tx).state.snapshot.1 = some state)
    (vaultReverted : (attempt chain header coinbase access tx (work.prepare tx)).vaultState.revertToSnapshot
      (work.prepare tx).vaultState.snapshot.1 = some vaultState) (gasPool : Nat) :
    Included chain header rounds { work.prepare tx with state := state, vaultState := vaultState, gasPool := gasPool } := by
  have ranked : Ranked (work.prepare tx).state := prepared_ranked included.ranked _ _ _
  have vaultRanked : Ranked (work.prepare tx).vaultState := prepared_ranked included.vaultRanked _ _ _
  obtain ⟨held, vaultHeld⟩ := apply_error_held chain header coinbase tx (access tx) _ _ (work.prepare tx).state
    (work.prepare tx).vaultState _ _ (held_start ranked) (held_start vaultRanked) e failed
  obtain ⟨logs, logSize, journal, after⟩ := held_reverted held reverted
  obtain ⟨vaultLogs, vaultSize, vaultJournal, vaultAfter⟩ := held_reverted vaultHeld vaultReverted
  have ledger := included.ledger
  exact ⟨⟨ledger.sound, tracks_logging ledger.publicState logs logSize (journal.trans ledger.publicState.journal),
      tracks_logging ledger.vaultState vaultLogs vaultSize (vaultJournal.trans ledger.vaultState.journal),
      ledger.listed, ledger.vaultListed, ledger.logs, ledger.vaultLogs⟩,
    included.txs, included.count, after, vaultAfter⟩

theorem ready_snapshot {s : StateDB} {bhash : Hash} {blockNumber : Nat} {part : Round → List Content}
    (tracks : Tracks bhash blockNumber part rounds s) (hash : Hash) (new : hash ∉ rounds.map (fun round => round.tx.hash)) :
    Ready ⟨hash, bhash, rounds.length, blockNumber⟩ (s.prepare hash bhash rounds.length).snapshot.2 :=
  { tracks_prepare tracks hash new with }

theorem included_kept (included : Included chain header rounds work) (tx : Transaction)
    (new : tx.hash ∉ rounds.map fun round => round.tx.hash) (receipts : Receipts)
    (ok : (attempt chain header coinbase access tx (work.prepare tx)).result = .ok receipts) :
    ∃ round, Included chain header (rounds ++ [round])
      (((work.prepare tx).keep tx (attempt chain header coinbase access tx (work.prepare tx)) receipts).count none) := by
  have place := included.count
  have ledger := included.ledger
  have ready : Ready ⟨tx.hash, 0, rounds.length, uint64 header.number⟩ (work.prepare tx).state.snapshot.2 := by
    simp only [Work.prepare, place]
    exact ready_snapshot ledger.publicState tx.hash new
  have vaultReady : Ready ⟨tx.hash, 0, rounds.length, uint64 header.number⟩ (work.prepare tx).vaultState.snapshot.2 := by
    simp only [Work.prepare, place]
    exact ready_snapshot ledger.vaultState tx.hash new
  have vaultRanked : Ranked (work.prepare tx).vaultState.snapshot.2 :=
    ranked_snapshot (prepared_ranked included.vaultRanked _ _ _)
  obtain ⟨ranked, vaultRanked⟩ := apply_ok_ranked chain header coinbase tx (access tx) _ _ _ _ vaultRanked receipts ok
  obtain ⟨round, same, first, second, after⟩ := ledger_apply header coinbase tx (access tx) (work.prepare tx).gasPool
    (work.prepare tx).gasUsed ledger new _ _ ready rfl rfl vaultReady rfl rfl receipts ok
  refine ⟨round, after, ?_, ?_, ranked, vaultRanked⟩
  · simp [Work.count, Work.keep, Work.prepare, included.txs, same]
  · simp [Work.count, Work.keep, Work.prepare, included.count]

theorem rounds_txs (heap : PriceHeap) (n : Nat) (pending : Pending) (work last : Work)
    (done : commitRounds chain header coinbase access heap n pending work = some last) : ∃ more, last.txs = work.txs ++ more := by
  induction n generalizing pending work with
  | zero => exact ⟨[], by rw [← Option.some.inj done, List.append_nil]⟩
  | succ n ih =>
    unfold commitRounds at done
    split at done
    · exact ⟨[], by rw [← Option.some.inj done, List.append_nil]⟩
    · split at done
      · exact ⟨[], by rw [← Option.some.inj done, List.append_nil]⟩
      · split at done
        · exact ih _ _ done
        · split at done
          · contradiction
          · next tx _ _ _ next err committed =>
              obtain ⟨more, extended⟩ := ih _ _ done
              rcases commit_cases chain header coinbase access tx _ next err committed with
                ⟨e, state, vault, rfl, -, -, -, -, rfl⟩ | ⟨receipts, rfl, -, rfl⟩
              · exact ⟨more, extended⟩
              · exact ⟨tx :: more, by rw [extended]; simp [Work.count, Work.keep, Work.prepare]⟩

theorem included_rounds (heap : PriceHeap) (n : Nat) (pending : Pending) (work last : Work) (rounds : List Round)
    (included : Included chain header rounds work) (distinct : (last.txs.map Transaction.hash).Nodup)
    (done : commitRounds chain header coinbase access heap n pending work = some last) :
    ∃ all, Included chain header all last := by
  induction n generalizing pending work rounds with
  | zero => exact ⟨rounds, Option.some.inj done ▸ included⟩
  | succ n ih =>
    unfold commitRounds at done
    split at done
    · exact ⟨rounds, Option.some.inj done ▸ included⟩
    · split at done
      · exact ⟨rounds, Option.some.inj done ▸ included⟩
      · split at done
        · exact ih _ _ rounds included done
        · split at done
          · contradiction
          · next tx _ _ _ next err committed =>
              obtain ⟨more, extended⟩ := rounds_txs heap n _ _ last done
              rcases commit_cases chain header coinbase access tx _ next err committed with
                ⟨e, state, vault, rfl, -, failed, reverted, vaultReverted, rfl⟩ | ⟨receipts, rfl, ok, rfl⟩
              · exact ih _ _ rounds (included_failed included tx e state vault failed reverted vaultReverted _) done
              · have new : tx.hash ∉ rounds.map fun round => round.tx.hash := by
                  rw [extended] at distinct
                  simp only [Work.count, Work.keep, Work.prepare, included.txs, List.append_assoc, List.map_append, List.map_map]
                    at distinct
                  exact fun member => (List.nodup_append.mp distinct).2.2 _ member _ (by simp) rfl
                obtain ⟨round, kept⟩ := included_kept included tx new receipts ok
                exact ih _ _ _ kept done

end Commit

end Didux.Miner
