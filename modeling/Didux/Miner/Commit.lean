import Didux.Miner.Replay

set_option autoImplicit false

namespace Didux.Miner

open Sport State Vm Didux.Core

structure Work.Unchanged (before after : Work) : Prop where
  state : Alike id after.state before.state
  vaultState : Alike id after.vaultState before.vaultState
  gasUsed : after.gasUsed = before.gasUsed
  gasPool : after.gasPool = before.gasPool

def Work.Spends (before after : Work) : Prop :=
  ∃ receipt, after.receipts = before.receipts ++ [receipt] ∧ after.gasPool + receipt.gasUsed = before.gasPool ∧
    after.gasUsed = before.gasUsed + receipt.gasUsed

section Commit

variable (chain : Chain) (header : Header) (coinbase : Address) (access : Transaction → VaultAccess) (tx : Transaction)
  (work next : Work) (err : Option TxError)

def Bought (gas : Nat) : Prop :=
  ∃ msg, msg.gas = gas ∧ chain.Runs tx msg ∧
    Passes (chain.context header coinbase msg) msg (chain.start tx work.state.snapshot.2 work.vaultState.snapshot.2) work.gasPool

-- The states are put back and the pool is not: a transaction that fails after it bought its gas takes it from the block.
theorem commit_costs_iff (bound : work.gasPool ≤ maxUint64)
    (committed : commitTransaction chain header coinbase access tx work = some (next, err)) :
    ((∀ e, err = some e → work.Unchanged next) ∧ (err = none → (chain.isSmilo && tx.isVault) = false → work.Spends next)) ↔
      ∀ e gas, err = some e → Bought chain header coinbase tx work gas → gas = 0 := by
  rcases commit_cases chain header coinbase access tx work next err committed with
    ⟨e, state, vaultState, rfl, other, failed, reverted, vaultReverted, rfl⟩ | ⟨receipts, rfl, ok, rfl⟩
  · obtain ⟨undone, vault, _, pool⟩ := Chain.apply_failed chain header coinbase tx _ _ _ _ _ e bound other failed
    obtain ⟨back, again, alike, _⟩ := StateDB.undone_revert undone
    obtain rfl : back = state := Option.some.inj (again.symm.trans reverted)
    obtain ⟨vaultBack, vaultAgain, vaultAlike, _⟩ := StateDB.undone_revert (undone_refl work.vaultState.snapshot.2)
    have same : vaultBack = vaultState := by
      rw [attempt, vault] at vaultReverted
      exact Option.some.inj (vaultAgain.symm.trans vaultReverted)
    subst vaultBack
    constructor
    · rintro ⟨unchanged, _⟩ e' gas ⟨⟩ ⟨msg, rfl, runs, passes⟩
      exact pool.mp (unchanged e rfl).gasPool msg runs passes
    · intro free
      refine ⟨fun _ _ => ⟨alike, vaultAlike, rfl, ?_⟩, fun done => by cases done⟩
      exact pool.mpr fun msg runs passes => free e msg.gas rfl ⟨msg, rfl, runs, passes⟩
  · refine iff_of_true ⟨fun _ failed => (by cases failed), ?_⟩ fun _ _ failed => by cases failed
    intro _ plain
    obtain ⟨pool, used⟩ := Chain.apply_spends chain header coinbase tx _ _ _ _ _ receipts bound plain ok
    exact ⟨receipts.receipt, rfl, pool, used⟩

end Commit

def plainWork : Work := makeCurrent plainHeader (StateDB.new (holder 1 100000 100000)) (StateDB.new fun _ => none)

-- The first call succeeds; the second fails by its nonce, before its gas is taken.
theorem plain_transaction_spends :
    (∃ next, commitTransaction plainChain plainHeader 7 (fun _ => .absent) (plainTransaction 2 1 0) plainWork = some (next, none) ∧
      plainWork.Spends next) ∧
    ∃ next, commitTransaction plainChain plainHeader 7 (fun _ => .absent) (plainTransaction 2 1 5) plainWork =
      some (next, some .nonceTooHigh) ∧ plainWork.Unchanged next := by
  refine ⟨⟨_, rfl, ?_⟩, ⟨_, rfl, ?_⟩⟩
  · have costs := (commit_costs_iff plainChain plainHeader 7 (fun _ => .absent) (plainTransaction 2 1 0) plainWork _ none (by decide)
      rfl).mpr fun _ _ failed => by cases failed
    exact costs.2 rfl rfl
  · refine ((commit_costs_iff plainChain plainHeader 7 (fun _ => .absent) (plainTransaction 2 1 5) plainWork _ _ (by decide)
      rfl).mpr ?_).1 _ rfl
    rintro _ _ _ ⟨msg, rfl, ⟨_, sent⟩, passes⟩
    obtain rfl := Option.some.inj sent
    exact absurd (passes.nonce rfl) (by decide)

-- Less gas than the intrinsic cost: the deposit is put back, the gas is not.
theorem failed_transaction_takes_gas :
    ∃ next, commitTransaction plainChain plainHeader 7 (fun _ => .absent) { plainTransaction 2 1 0 with gas := 10000 } plainWork =
        some (next, some .outOfGas) ∧ next.gasPool = 90000 ∧ plainWork.gasPool = 100000 :=
  ⟨_, rfl, rfl, rfl⟩

end Didux.Miner
