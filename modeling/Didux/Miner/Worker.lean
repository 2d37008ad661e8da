import Didux.Core.Replay

set_option autoImplicit false

namespace Didux.Miner

open Sport State Vm Didux.Core

-- What container/heap does to the heads, of which the first has the best price.
structure PriceHeap where
  order : List Transaction → List Transaction
  perm : ∀ heads, (order heads).Perm heads

-- TransactionsByPriceAndNonce: the next transaction of each account, and those that follow it.
structure Pending where
  heads : List Transaction
  txs : List (Address × List Transaction)

namespace Pending

def peek (pending : Pending) : Option Transaction := pending.heads.head?

def next (acc : Address) : List (Address × List Transaction) → Option (Transaction × List (Address × List Transaction))
  | [] => none
  | (a, []) :: others => if a = acc then none else (next acc others).map fun taken => (taken.1, (a, []) :: taken.2)
  | (a, tx :: queue) :: others => if a = acc then some (tx, (a, queue) :: others)
    else (next acc others).map fun taken => (taken.1, (a, tx :: queue) :: taken.2)

variable (heap : PriceHeap) (pending : Pending)

def pop : Pending := { pending with heads := heap.order pending.heads.tail }

def shift : Pending :=
  match pending.heads with
  | [] => pending
  | head :: rest =>
    match next (head.sender.getD 0) pending.txs with
    | none => pending.pop heap
    | some (tx, txs) => ⟨heap.order (tx :: rest), txs⟩

def all : List Transaction := pending.heads ++ pending.txs.flatMap fun account => account.2

def size : Nat := pending.all.length

end Pending

-- The environment of the block that is being mined. The gas pool is that of the first call of commitTransactions.
structure Work where
  state : StateDB
  vaultState : StateDB
  gasPool : Nat
  gasUsed : Nat
  tcount : Nat
  txs : List Transaction
  receipts : List Receipt
  vaultReceipts : List Receipt

def makeCurrent (header : Header) (state vaultState : StateDB) : Work := ⟨state, vaultState, header.gasLimit, 0, 0, [], [], []⟩

def Work.prepare (work : Work) (tx : Transaction) : Work :=
  { work with
    state := work.state.prepare tx.hash 0 work.tcount
    vaultState := work.vaultState.prepare tx.hash 0 work.tcount }

section Commit

variable (chain : Chain) (header : Header) (coinbase : Address) (access : Transaction → VaultAccess)

-- ApplyTransaction after a snapshot of both states.
def attempt (tx : Transaction) (work : Work) : Applied :=
  chain.applyTransaction header coinbase tx (access tx) work.state.snapshot.2 work.vaultState.snapshot.2 work.gasPool work.gasUsed

def Work.keep (work : Work) (tx : Transaction) (applied : Applied) (receipts : Receipts) : Work :=
  { work with
    state := applied.publicState, vaultState := applied.vaultState, gasPool := applied.gp, gasUsed := receipts.usedGas
    txs := work.txs ++ [tx], receipts := work.receipts ++ [receipts.receipt]
    vaultReceipts := work.vaultReceipts ++ receipts.vaultReceipt.toList }

-- The work and the error of the transaction, or none where the node crashes. The pool is not put back.
def commitTransaction (tx : Transaction) (work : Work) : Option (Work × Option TxError) :=
  let applied := attempt chain header coinbase access tx work
  match applied.result with
  | .error .panic => none
  | .error e =>
    match applied.publicState.revertToSnapshot work.state.snapshot.1,
      applied.vaultState.revertToSnapshot work.vaultState.snapshot.1 with
    | some state, some vaultState => some ({ work with state := state, vaultState := vaultState, gasPool := applied.gp }, some e)
    | _, _ => none
  | .ok receipts => some (work.keep tx applied receipts, none)

theorem commit_cases (tx : Transaction) (work next : Work) (err : Option TxError)
    (committed : commitTransaction chain header coinbase access tx work = some (next, err)) :
    let applied := attempt chain header coinbase access tx work
    (∃ e state vaultState, err = some e ∧ e ≠ .panic ∧ applied.result = .error e ∧
      applied.publicState.revertToSnapshot work.state.snapshot.1 = some state ∧
      applied.vaultState.revertToSnapshot work.vaultState.snapshot.1 = some vaultState ∧
      next = { work with state := state, vaultState := vaultState, gasPool := applied.gp }) ∨
    ∃ receipts, err = none ∧ applied.result = .ok receipts ∧ next = work.keep tx applied receipts := by
  unfold commitTransaction at committed
  dsimp only at committed ⊢
  split at committed
  · contradiction
  · rename_i e crash result
    split at committed
    · rename_i state vaultState reverted vaultReverted
      obtain ⟨rfl, rfl⟩ := Prod.mk.inj (Option.some.inj committed)
      exact .inl ⟨e, state, vaultState, rfl, crash, result, reverted, vaultReverted, rfl⟩
    · contradiction
  · rename_i receipts result
    obtain ⟨rfl, rfl⟩ := Prod.mk.inj (Option.some.inj committed)
    exact .inr ⟨receipts, rfl, result, rfl⟩

def Work.count (work : Work) : Option TxError → Work
  | none => { work with tcount := work.tcount + 1 }
  | some _ => work

def advance (heap : PriceHeap) (pending : Pending) : Option TxError → Pending
  | some .gasLimitReached | some .nonceTooHigh => pending.pop heap
  | _ => pending.shift heap

def commitRounds (heap : PriceHeap) : Nat → Pending → Work → Option Work
  | 0, _, work => some work
  | rounds + 1, pending, work => if work.gasPool < txGas then some work else
      match pending.peek with
      | none => some work
      | some tx =>
        if tx.isProtected && !chain.isEIP155 header.number && !tx.isVault then commitRounds heap rounds (pending.pop heap) work
        else
          match commitTransaction chain header coinbase access tx (work.prepare tx) with
          | none => none
          | some (work, err) =>
            commitRounds heap rounds (advance heap pending err) (work.count err)

-- Every round takes a transaction out of the pending ones, so their number bounds the rounds.
def commitTransactions (heap : PriceHeap) (pending : Pending) (work : Work) : Option Work :=
  commitRounds chain header coinbase access heap pending.size pending work

end Commit

end Didux.Miner
