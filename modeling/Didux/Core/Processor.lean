import Didux.Core.Transition

set_option autoImplicit false

namespace Didux.Core

open Sport State Vm

-- `author` is what the engine recovers from the seal.
structure Header where
  hash : Hash
  parentHash : Hash
  number : Nat
  time : Nat
  difficulty : Nat
  gasLimit : Nat
  coinbase : Address
  author : Address

-- No sender is a signature that AsMessage refuses.
structure Transaction where
  hash : Hash
  sender : Option Address
  recipient : Option Address
  nonce : Nat
  gasPrice : Nat
  gas : Nat
  value : Nat
  data : Bytes
  isVault : Bool
  isProtected : Bool

def Transaction.asMessage (tx : Transaction) : Option Message :=
  tx.sender.map fun sender =>
    { sender := sender, recipient := tx.recipient, nonce := tx.nonce, checkNonce := true, gasPrice := tx.gasPrice, gas := tx.gas,
      value := tx.value, data := tx.data, isVault := tx.isVault }

-- What the EVM knows of the block and of the message. GetHash starts at the parent of the block.
structure Context where
  origin : Address
  gasPrice : Nat
  coinbase : Address
  parentHash : Hash
  blockNumber : Nat
  time : Nat
  difficulty : Nat
  gasLimit : Nat

def newEVMContext (msg : Message) (header : Header) (author : Address) : Context where
  origin := msg.sender
  gasPrice := msg.gasPrice
  coinbase := author
  parentHash := header.parentHash
  blockNumber := header.number
  time := header.time
  difficulty := header.difficulty
  gasLimit := header.gasLimit

theorem message_vault (tx : Transaction) (msg : Message) (read : tx.asMessage = some msg) : msg.isVault = tx.isVault := by
  obtain ⟨_, _, rfl⟩ := Option.map_eq_some_iff.mp read
  rfl

-- The chain configuration, and as parameters what is not in the modelled part of the source.
structure Chain where
  isSmilo : Bool
  isGas : Bool
  isGasRefunded : Bool
  forks : Nat → Rules
  isEIP155 : Nat → Bool
  pay : Accrual
  precompiles : Nat → Address → Option Precompile
  createAddress : Address → Nat → Address
  createAddress2 : Address → Hash → Bytes → Address
  machine : Context → Contract → Code
  trieHash : (Address → Option Account) → Hash
  bloom : List (Address × List Hash) → Nat
  blockReward : Nat → Nat
  communityAddress : Option Address

namespace Chain

variable (chain : Chain)

def rules (number : Nat) : Rules := { chain.forks number with isSmilo := chain.isSmilo, estimateGas := false }

def context (header : Header) (coinbase : Address) (msg : Message) : MessageContext where
  evm :=
    { pay := chain.pay
      blockNumber := header.number
      rules := chain.rules header.number
      precompiles := chain.precompiles header.number
      createAddress := chain.createAddress
      createAddress2 := chain.createAddress2
      machine := chain.machine (newEVMContext msg header coinbase) }
  isGas := chain.isGas
  isGasRefunded := chain.isGasRefunded
  coinbase := coinbase

def intermediateRoot (s : StateDB) (deleteEmptyObjects : Bool) : Hash × StateDB :=
  let s := s.finalise deleteEmptyObjects
  (chain.trieHash s.trie, s)

end Chain

structure Receipt where
  postState : Option Hash
  failed : Bool
  cumulativeGasUsed : Nat
  txHash : Hash
  gasUsed : Nat
  contractAddress : Address
  logs : List Log
  bloom : Nat
  blockHash : Hash
  blockNumber : Nat
  transactionIndex : Nat
deriving DecidableEq

structure Receipts where
  receipt : Receipt
  vaultReceipt : Option Receipt
  gas : Nat
  usedGas : Nat

structure Applied where
  publicState : StateDB
  vaultState : StateDB
  gp : Nat
  result : Except TxError Receipts

namespace Chain

variable (chain : Chain)

def bloomOf (logs : List Log) : Nat := chain.bloom (logs.map fun log => (log.address, log.topics))

variable (header : Header) (s : StateDB)

-- Byzantium leaves the root out of the receipt.
def finish : Option Hash × StateDB :=
  if (chain.rules header.number).isByzantium then (none, s.finalise true)
  else
    let rooted := chain.intermediateRoot s (chain.rules header.number).isEIP158
    (some rooted.1, rooted.2)

def created (tx : Transaction) (origin : Address) : Address :=
  if tx.recipient.isNone then chain.createAddress origin tx.nonce else 0

def receiptsOf (tx : Transaction) (origin : Address) (isVault : Bool) (usedGas : Nat)
    (publicState vaultState : StateDB) (done : TransitionResult) : StateDB × StateDB × Receipts :=
  let finished := chain.finish header publicState
  let usedGas := usedGas + done.usedGas
  let logs := finished.2.getLogs tx.hash
  let receipt : Receipt :=
    { postState := finished.1, failed := !isVault && done.failed, cumulativeGasUsed := usedGas, txHash := tx.hash
      gasUsed := done.usedGas, contractAddress := chain.created tx origin, logs := logs, bloom := chain.bloomOf logs
      blockHash := finished.2.bhash, blockNumber := header.number, transactionIndex := finished.2.txIndex }
  if isVault then
    let vault := chain.finish header vaultState
    let logs := vault.2.getLogs tx.hash
    let vaultReceipt : Receipt :=
      { postState := vault.1, failed := done.failed, cumulativeGasUsed := usedGas, txHash := tx.hash
        gasUsed := done.usedGas, contractAddress := chain.created tx origin, logs := logs, bloom := chain.bloomOf logs
        blockHash := 0, blockNumber := 0, transactionIndex := 0 }
    (finished.2, vault.2, ⟨receipt, some vaultReceipt, done.usedGas, usedGas⟩)
  else (finished.2, vaultState, ⟨receipt, none, done.usedGas, usedGas⟩)

def afterMessage (tx : Transaction) (origin : Address) (isVault : Bool) (vaultState : StateDB) (usedGas : Nat)
    (ran : Transition × EVM) : Applied :=
  let publicState := ran.2.publicState
  let vaultState := ran.2.vaultState.getD vaultState
  match ran.1.result with
  | .error e => ⟨publicState, vaultState, ran.1.gp, .error e⟩
  | .ok done =>
    let finished := chain.receiptsOf header tx origin isVault usedGas publicState vaultState done
    ⟨finished.1, finished.2.1, ran.1.gp, .ok finished.2.2⟩

-- Without a vault transaction the EVM gets the public state twice, and the vault state is not touched.
def applyTransaction (coinbase : Address) (tx : Transaction) (access : VaultAccess)
    (publicState vaultState : StateDB) (gp usedGas : Nat) : Applied :=
  let isVault := chain.isSmilo && tx.isVault
  if !chain.isGas && 0 < tx.gasPrice then ⟨publicState, vaultState, gp, .error .invalidGasPrice⟩
  else
    match tx.asMessage with
    | none => ⟨publicState, vaultState, gp, .error .invalidSender⟩
    | some msg =>
      let ctx := chain.context header coinbase msg
      let vmenv := EVM.newEVM publicState (if isVault then some vaultState else none)
      chain.afterMessage header tx msg.sender isVault vaultState usedGas (runIn ctx (transitionDb ctx msg access gp) vmenv)

def Runs (tx : Transaction) (msg : Message) : Prop := (!chain.isGas && decide (0 < tx.gasPrice)) = false ∧ tx.asMessage = some msg

theorem apply_runs (coinbase : Address) (tx : Transaction) (msg : Message) (access : VaultAccess)
    (publicState vaultState : StateDB) (gp usedGas : Nat) (runs : chain.Runs tx msg) :
    chain.applyTransaction header coinbase tx access publicState vaultState gp usedGas =
      chain.afterMessage header tx msg.sender (chain.isSmilo && tx.isVault) vaultState usedGas
        (runIn (chain.context header coinbase msg) (transitionDb (chain.context header coinbase msg) msg access gp)
          (EVM.newEVM publicState (if chain.isSmilo && tx.isVault then some vaultState else none))) := by
  unfold applyTransaction
  rw [runs.1, if_neg (by decide), runs.2]

theorem apply_cases (tx : Transaction) : (∃ e, ∀ header coinbase access publicState vaultState gp usedGas,
      chain.applyTransaction header coinbase tx access publicState vaultState gp usedGas = ⟨publicState, vaultState, gp, .error e⟩) ∨
    ∃ msg, chain.Runs tx msg := by
  unfold applyTransaction Runs
  by_cases price : (!chain.isGas && decide (0 < tx.gasPrice)) = true
  · simp only [if_pos price]
    exact .inl ⟨_, fun _ _ _ _ _ _ _ => rfl⟩
  · simp only [if_neg price]
    cases tx.asMessage with
    | none => exact .inl ⟨_, fun _ _ _ _ _ _ _ => rfl⟩
    | some msg => exact .inr ⟨msg, Bool.eq_false_of_not_eq_true price, rfl⟩

-- AccumulateRewards. The community gets a quarter of the reward on top of it.
def accumulateRewards : StateDB :=
  if header.coinbase = 0 then s
  else
    let reward := chain.blockReward header.number
    let s := match chain.communityAddress with
      | none => s
      | some community => s.addBalance chain.pay community (reward / 4 : Nat) header.number
    s.addBalance chain.pay header.coinbase reward header.number

def finalize (txs : List Transaction) (s : StateDB) : Hash × StateDB :=
  let s := if (1 < header.number ∧ txs ≠ []) ∨ header.number < 40000000 then chain.accumulateRewards header s else s
  chain.intermediateRoot s (chain.rules header.number).isEIP158

structure Processing where
  publicState : StateDB
  vaultState : StateDB
  gp : Nat
  usedGas : Nat
  receipts : List Receipt
  vaultReceipts : List Receipt

-- One round of the loop of Process: Prepare on both states, then ApplyTransaction with the author of the header.
def processOne (bhash : Hash) (access : Transaction → VaultAccess) (index : Nat) (tx : Transaction)
    (p : Processing) : Except TxError Processing :=
  let applied := chain.applyTransaction header header.author tx (access tx) (p.publicState.prepare tx.hash bhash index)
    (p.vaultState.prepare tx.hash bhash index) p.gp p.usedGas
  match applied.result with
  | .error e => .error e
  | .ok receipts =>
    .ok ⟨applied.publicState, applied.vaultState, applied.gp, receipts.usedGas, p.receipts ++ [receipts.receipt],
      p.vaultReceipts ++ receipts.vaultReceipt.toList⟩

def processAll (header : Header) (access : Transaction → VaultAccess) : Nat → List Transaction → Processing →
    Except TxError Processing
  | _, [], p => .ok p
  | index, tx :: rest, p => match chain.processOne header header.hash access index tx p with
    | .error e => .error e
    | .ok p => processAll header access (index + 1) rest p

structure Processed where
  publicState : StateDB
  vaultState : StateDB
  usedGas : Nat
  receipts : List Receipt
  vaultReceipts : List Receipt
  root : Hash

def process (access : Transaction → VaultAccess) (txs : List Transaction)
    (publicState vaultState : StateDB) : Except TxError Processed :=
  match chain.processAll header access 0 txs ⟨publicState, vaultState, header.gasLimit, 0, [], []⟩ with
  | .error e => .error e
  | .ok p =>
    let finalized := chain.finalize header txs p.publicState
    .ok ⟨finalized.2, p.vaultState, p.usedGas, p.receipts, p.vaultReceipts, finalized.1⟩

end Chain

end Didux.Core
