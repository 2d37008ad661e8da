import Didux.Vm.Twin
import Didux.Core.Attempt

set_option autoImplicit false

namespace Didux.Core

open Sport State Vm Vm.Prog Program StateDB

def Receipt.stamped (stamp : Hash → Hash) (receipt : Receipt) : Receipt :=
  { receipt with logs := receipt.logs.map (Log.stamped stamp), blockHash := stamp receipt.blockHash }

-- A header before it is sealed: its hash and what the engine recovers from the seal are not there yet.
def Header.unsealed (header : Header) (hash : Hash) (author : Address) : Header := { header with hash := hash, author := author }

inductive Agrees (stamp : Hash → Hash) : Except TxError Receipts → Except TxError Receipts → Prop where
  | error (e : TxError) : Agrees stamp (.error e) (.error e)
  | ok (receipt : Receipt) (gas usedGas : Nat) :
      Agrees stamp (.ok ⟨receipt, none, gas, usedGas⟩) (.ok ⟨receipt.stamped stamp, none, gas, usedGas⟩)

namespace Chain

variable (chain : Chain) {stamp : Hash → Hash}

theorem finish_alike (header : Header) (hash : Hash) (author : Address) (s t : StateDB) (alike : Alike stamp s t) :
    (chain.finish (header.unsealed hash author) s).1 = (chain.finish header t).1 ∧
    Alike stamp (chain.finish (header.unsealed hash author) s).2 (chain.finish header t).2 := by
  show (chain.finish header s).1 = _ ∧ Alike stamp (chain.finish header s).2 _
  unfold finish
  split
  · exact ⟨rfl, alike_finalise alike true⟩
  · have finalised := alike_finalise alike (chain.rules header.number).isEIP158
    exact ⟨congrArg (some ∘ chain.trieHash) finalised.trie, finalised⟩

theorem bloom_stamped {logs : List Log} : chain.bloomOf (logs.map (Log.stamped stamp)) = chain.bloomOf logs := by
  unfold bloomOf
  rw [List.map_map]
  rfl

variable {header : Header} {hash : Hash} {author origin : Address} {tx : Transaction} {usedGas : Nat} {v w : StateDB}

theorem receipts_alike {s t : StateDB} {done : TransitionResult} (alike : Alike stamp s t) :
    let first := chain.receiptsOf (header.unsealed hash author) tx origin false usedGas s v done
    let second := chain.receiptsOf header tx origin false usedGas t w done
    Alike stamp first.1 second.1 ∧ Agrees stamp (.ok first.2.2) (.ok second.2.2) := by
  obtain ⟨root, finished⟩ := finish_alike chain header hash author s t alike
  have logs := finished.logs tx.hash
  refine ⟨finished, ?_⟩
  have same : (chain.receiptsOf header tx origin false usedGas t w done).2.2 =
      ⟨(chain.receiptsOf (header.unsealed hash author) tx origin false usedGas s v done).2.2.receipt.stamped stamp, none, done.usedGas,
        usedGas + done.usedGas⟩ := by
    simp only [receiptsOf, getLogs, ← logs, bloom_stamped, ← root,
      ← finished.bhash, ← finished.txIndex]
    rfl
  rw [same]
  exact .ok _ _ _

theorem after_message_alike {first second : Transition × EVM} (result : first.1 = second.1) (twins : Twin stamp first.2 second.2) :
    let applied := chain.afterMessage (header.unsealed hash author) tx origin false v usedGas first
    let replayed := chain.afterMessage header tx origin false w usedGas second
    applied.gp = replayed.gp ∧ Alike stamp applied.publicState replayed.publicState ∧ Agrees stamp applied.result replayed.result := by
  unfold afterMessage
  rw [← result]
  cases first.1.result with
  | error e => exact ⟨rfl, twins.alike, .error e⟩
  | ok done =>
    obtain ⟨finished, agrees⟩ := receipts_alike chain twins.alike
    exact ⟨rfl, finished, agrees⟩

theorem rewards_alike (header : Header) (s t : StateDB) (alike : Alike stamp s t) :
    Alike stamp (chain.accumulateRewards header s) (chain.accumulateRewards header t) := by
  unfold accumulateRewards
  split
  · exact alike
  · apply alike_add_balance
    split
    · exact alike
    · exact alike_add_balance _ alike _ _ _

theorem finalize_alike (header : Header) (hash : Hash) (author : Address) (txs : List Transaction) (s t : StateDB)
    (alike : Alike stamp s t) : (chain.finalize (header.unsealed hash author) txs s).1 = (chain.finalize header txs t).1 := by
  show (chain.finalize header txs s).1 = _
  have rewarded := rewards_alike chain header s t alike
  unfold finalize
  split
  · exact congrArg chain.trieHash (alike_finalise rewarded _).trie
  · exact congrArg chain.trieHash (alike_finalise alike _).trie

theorem finalize_prepare (header : Header) (txs : List Transaction) (s : StateDB) (thash bhash : Hash) (txIndex : Nat) :
    (chain.finalize header txs (s.prepare thash bhash txIndex)).1 = (chain.finalize header txs s).1 := by
  have rewarded : chain.accumulateRewards header (s.prepare thash bhash txIndex) =
      (chain.accumulateRewards header s).prepare thash bhash txIndex := by
    unfold accumulateRewards
    cases chain.communityAddress <;> simp only [add_balance_prepare] <;> split_ifs <;> rfl
  unfold finalize
  rw [rewarded]
  split <;> rfl

theorem apply_ok_revisions (header : Header) (coinbase : Address) (tx : Transaction) (access : VaultAccess) (s v : StateDB)
    (gp usedGas : Nat) (receipts : Receipts)
    (ok : (chain.applyTransaction header coinbase tx access s v gp usedGas).result = .ok receipts) :
    (chain.applyTransaction header coinbase tx access s v gp usedGas).publicState.validRevisions = [] := by
  have finished : ∀ s : StateDB, (chain.finish header s).2.validRevisions = [] := by
    intro s
    unfold finish
    split <;> rfl
  rcases apply_cases chain tx with ⟨_, refused⟩ | ⟨msg, runs⟩
  · rw [refused] at ok
    contradiction
  · rw [apply_runs chain _ _ tx msg _ _ _ _ _ runs] at ok ⊢
    unfold afterMessage at ok ⊢
    dsimp only at ok ⊢
    split at ok
    · contradiction
    · unfold receiptsOf
      split <;> exact finished _

section Pool

variable (header : Header) (coinbase : Address) (tx : Transaction) (access : VaultAccess) (s v : StateDB) (gp usedGas : Nat)

def start : EVM := EVM.newEVM s (if chain.isSmilo && tx.isVault then some v else none)

theorem apply_failed (e : TxError) (bound : gp ≤ maxUint64) (other : e ≠ .panic)
    (failed : (chain.applyTransaction header coinbase tx access s v gp usedGas).result = .error e) :
    let applied := chain.applyTransaction header coinbase tx access s v gp usedGas
    Undone s applied.publicState ∧ applied.vaultState = v ∧ applied.gp ≤ gp ∧
      (applied.gp = gp ↔ ∀ msg, chain.Runs tx msg → Passes (chain.context header coinbase msg) msg (chain.start tx s v) gp →
        msg.gas = 0) := by
  have alone : (chain.start tx s v).vaultState.getD v = v := by
    unfold start
    split <;> rfl
  by_cases unread : ∃ msg, chain.Runs tx msg
  · obtain ⟨msg, runs⟩ := unread
    let ctx := chain.context header coinbase msg
    have only : ∀ read, chain.Runs tx read → read = msg := fun read again => Option.some.inj (again.2.symm.trans runs.2)
    rw [apply_runs chain _ _ tx msg _ _ _ _ _ runs, ← start] at failed ⊢
    by_cases passes : Passes ctx msg (chain.start tx s v) gp
    · obtain ⟨back, result, after, most, ends, leaves⟩ := transition_ends ctx msg access (chain.start tx s v)
      have room := passes.affords.2.2
      rw [ends gp bound passes] at failed ⊢
      unfold afterMessage at failed ⊢
      cases result with
      | ok done => contradiction
      | error found =>
        obtain rfl : found = e := Except.error.inj failed
        obtain ⟨rfl, undone, vault⟩ := leaves.error found rfl other
        refine ⟨undone, (congrArg (·.getD v) vault).trans alone, by dsimp only; omega, ?_⟩
        constructor
        · rintro same read again _
          rw [only read again]
          dsimp only at same
          omega
        · intro free
          have zero := free msg runs passes
          dsimp only
          omega
    · obtain ⟨found, stopped⟩ := transition_refused ctx msg access gp _ passes
      rw [stopped]
      refine ⟨undone_refl s, alone, Nat.le_refl gp, iff_of_true rfl ?_⟩
      intro read again passed
      rw [only read again] at passed
      exact absurd passed passes
  · rcases apply_cases chain tx with ⟨_, refused⟩ | reads
    · rw [refused]
      exact ⟨undone_refl s, rfl, Nat.le_refl gp, iff_of_true rfl fun msg runs => absurd ⟨msg, runs⟩ unread⟩
    · exact absurd reads unread

theorem apply_spends (receipts : Receipts) (bound : gp ≤ maxUint64) (plain : (chain.isSmilo && tx.isVault) = false)
    (ok : (chain.applyTransaction header coinbase tx access s v gp usedGas).result = .ok receipts) :
    (chain.applyTransaction header coinbase tx access s v gp usedGas).gp + receipts.receipt.gasUsed = gp ∧
      receipts.usedGas = usedGas + receipts.receipt.gasUsed := by
  rcases apply_cases chain tx with ⟨_, refused⟩ | ⟨msg, runs⟩
  · rw [refused] at ok
    contradiction
  · let ctx := chain.context header coinbase msg
    rw [apply_runs chain _ _ tx msg _ _ _ _ _ runs, ← start] at ok ⊢
    by_cases passes : Passes ctx msg (chain.start tx s v) gp
    · obtain ⟨back, result, after, most, ends, leaves⟩ := transition_ends ctx msg access (chain.start tx s v)
      have room := passes.affords.2.2
      rw [ends gp bound passes] at ok ⊢
      unfold afterMessage at ok ⊢
      cases result with
      | error e => contradiction
      | ok done =>
        have used := leaves.used done rfl (message_vault tx msg runs.2 ▸ plain)
        simp only [receiptsOf, plain, Bool.false_eq_true, if_false] at ok
        cases ok
        dsimp only
        omega
    · obtain ⟨found, stopped⟩ := transition_refused ctx msg access gp _ passes
      rw [stopped] at ok
      contradiction

end Pool

section Public

variable (header : Header) (hash : Hash) (author coinbase : Address) (tx : Transaction) (access other : VaultAccess)
  (s t v w : StateDB) (gp usedGas : Nat) (plain : (chain.isSmilo && tx.isVault) = false)

include plain

theorem apply_alike (alike : Alike stamp s t) (fresh : Fresh s) (freshTwin : Fresh t) :
    let first := chain.applyTransaction (header.unsealed hash author) coinbase tx access s v gp usedGas
    let second := chain.applyTransaction header coinbase tx other t w gp usedGas
    first.gp = second.gp ∧ Alike stamp first.publicState second.publicState ∧ Agrees stamp first.result second.result := by
  rcases apply_cases chain tx with ⟨e, refused⟩ | ⟨msg, runs⟩
  · rw [refused, refused]
    exact ⟨rfl, alike, .error e⟩
  · have asked := transition_plain (chain.context header coinbase msg) msg access other gp (message_vault tx msg runs.2 ▸ plain)
    have twins := twin_run chain.pay header.number (chain.rules header.number)
      (transitionDb (chain.context header coinbase msg) msg other gp) (twin_start s t alike fresh freshTwin)
    rw [apply_runs chain _ _ tx msg _ _ _ _ _ runs, apply_runs chain _ _ tx msg _ _ _ _ _ runs, plain]
    have unsealed : chain.context (header.unsealed hash author) coinbase msg = chain.context header coinbase msg := rfl
    rw [unsealed, asked]
    exact after_message_alike chain twins.1 twins.2

theorem apply_pool (more : Nat) (receipts : Receipts) (fewer : gp ≤ more) (bound : more ≤ maxUint64)
    (ok : (chain.applyTransaction header coinbase tx access s v gp usedGas).result = .ok receipts) :
    let first := chain.applyTransaction header coinbase tx access s v gp usedGas
    let second := chain.applyTransaction header coinbase tx access s v more usedGas
    second.publicState = first.publicState ∧ second.result = first.result ∧ first.gp ≤ second.gp ∧ first.gp ≤ gp ∧ second.gp ≤ more := by
  rcases apply_cases chain tx with ⟨_, refused⟩ | ⟨msg, runs⟩
  · rw [refused] at ok
    contradiction
  · let ctx := chain.context header coinbase msg
    let start := EVM.newEVM s none
    rw [apply_runs chain _ _ tx msg _ _ _ _ _ runs, plain, if_neg (by decide)] at ok
    rw [apply_runs chain _ _ tx msg _ _ _ _ _ runs, apply_runs chain _ _ tx msg _ _ _ _ _ runs, plain, if_neg (by decide)]
    by_cases passes : Passes ctx msg start gp
    · obtain ⟨back, result, after, most, ends, _⟩ := transition_ends ctx msg access start
      have room := passes.affords.2.2
      have still : Passes ctx msg start more :=
        ⟨passes.nonce, passes.affords.1, passes.affords.2.1, Nat.le_trans room fewer⟩
      rw [ends gp (Nat.le_trans fewer bound) passes, ends more bound still]
      unfold afterMessage
      cases result <;> exact ⟨rfl, rfl, by dsimp only; omega, by dsimp only; omega, by dsimp only; omega⟩
    · obtain ⟨found, stopped⟩ := transition_refused ctx msg access gp start passes
      rw [stopped] at ok
      contradiction

end Public

end Chain

end Didux.Core
