import Didux.Core.NonNegative
import Didux.Miner.Worker

set_option autoImplicit false

namespace Didux.Miner

open Sport State Vm Didux.Core Function Option StateDB

abbrev Trie := Address → Option Account

structure Block where
  header : Header
  root : Hash
  gasUsed : Nat
  bloom : Nat
  receiptHash : Hash
  txs : List Transaction

-- The databases of the node: the blocks, the tries of both states by their root, and what WriteVaultStateRoot stored under
-- public roots.
structure Database where
  blocks : Hash → Option Block
  tries : Hash → Option Trie
  vaultTries : Hash → Option Trie
  vaultRoots : Hash → Option Hash

-- A missing entry reads as the zero hash.
def Database.getVaultStateRoot (db : Database) (blockRoot : Hash) : Hash := (db.vaultRoots blockRoot).getD 0

def openTrie (tries : Hash → Option Trie) (root : Hash) : Option Trie := if root = 0 then some fun _ => none else tries root

-- `access` is what the vault of the node answers, `heap` the order of its pending transactions.
structure Node where
  chain : Chain
  createBloom : List Receipt → Nat
  deriveSha : List Receipt → Hash
  access : Transaction → VaultAccess
  coinbase : Address
  heap : PriceHeap

-- A block that waits for its seal, with the tries it was begun on. The hash and the author of its header are not final.
structure Task where
  block : Block
  publicTrie : Trie
  vaultTrie : Trie
  work : Work

structure System where
  db : Database
  tasks : List Task

inductive Event where
  | insert (block : Block)
  | begin (parent : Hash) (header : Header) (pending : Pending)
  | sealed (index : Nat) (hash : Hash) (author : Address)

namespace Database

variable (db : Database)

def stateAt (root : Hash) : Option (Trie × Trie) := do
  let publicTrie ← openTrie db.tries root
  let vaultTrie ← openTrie db.vaultTries (db.getVaultStateRoot root)
  some (publicTrie, vaultTrie)

def write (chain : Chain) (block : Block) (publicState vaultState : StateDB) : Database :=
  let isEIP158 := (chain.rules block.header.number).isEIP158
  let publicTrie := (publicState.commit isEIP158).trie
  let vaultTrie := (vaultState.commit isEIP158).trie
  { blocks := update db.blocks block.header.hash (some block)
    tries := update db.tries (chain.trieHash publicTrie) (some publicTrie)
    vaultTries := update db.vaultTries (chain.trieHash vaultTrie) (some vaultTrie)
    vaultRoots := update db.vaultRoots block.root (some (chain.trieHash vaultTrie)) }

end Database

namespace Node

variable (node : Node)

def validateState (block : Block) (p : Chain.Processed) : Option (StateDB × StateDB) :=
  let rooted := node.chain.intermediateRoot p.publicState (node.chain.rules block.header.number).isEIP158
  if block.gasUsed = p.usedGas ∧ block.bloom = node.createBloom p.receipts ∧ block.receiptHash = node.deriveSha p.receipts ∧
    block.root = rooted.1 then some (rooted.2, p.vaultState)
  else none

def execute (block : Block) (publicState vaultState : StateDB) : Option (StateDB × StateDB) :=
  match node.chain.process block.header node.access block.txs publicState vaultState with
  | .error _ => none
  | .ok p => node.validateState block p

def commitNewWork (parent : Block) (header : Header) (pending : Pending) (publicTrie vaultTrie : Trie) : Option Task := do
  let header := { header with parentHash := parent.header.hash }
  let work ← commitTransactions node.chain header node.coinbase node.access node.heap pending
    (makeCurrent header (new publicTrie) (new vaultTrie))
  let finalized := node.chain.finalize header work.txs work.state
  let block : Block :=
    { header := header, root := finalized.1, gasUsed := work.gasUsed, bloom := node.createBloom work.receipts
      receiptHash := node.deriveSha work.receipts, txs := work.txs }
  some ⟨block, publicTrie, vaultTrie, { work with state := finalized.2 }⟩

end Node

def Task.sealed (task : Task) (hash : Hash) (author : Address) : Block :=
  { task.block with header := { task.block.header with hash := hash, author := author } }

namespace System

variable (node : Node) (s : System)

def written : Event → Option (Block × StateDB × StateDB)
  | .insert block => do
      let parent ← s.db.blocks block.header.parentHash
      let tries ← s.db.stateAt parent.root
      let states ← node.execute block (new tries.1) (new tries.2)
      some (block, states)
  | .sealed index hash author => s.tasks[index]?.map fun task => (task.sealed hash author, task.work.state, task.work.vaultState)
  | .begin _ _ _ => none

def apply : Event → Option System
  | .begin parent header pending => do
      let parent ← s.db.blocks parent
      let tries ← s.db.stateAt parent.root
      let task ← node.commitNewWork parent header pending tries.1 tries.2
      some { s with tasks := s.tasks ++ [task] }
  | event => (s.written node event).map fun write => { s with db := s.db.write node.chain write.1 write.2.1 write.2.2 }

end System

structure Genesis where
  block : Block
  trie : Trie

def Genesis.system (node : Node) (genesis : Genesis) : System where
  db :=
    { blocks := update (fun _ => none) genesis.block.header.hash (some genesis.block)
      tries := update (fun _ => none) (node.chain.trieHash genesis.trie) (some genesis.trie)
      vaultTries := fun _ => none
      vaultRoots := fun _ => none }
  tasks := []

theorem genesis_state_at (node : Node) (genesis : Genesis) (root : genesis.block.root = node.chain.trieHash genesis.trie)
    (nonzero : genesis.block.root ≠ 0) :
    (genesis.system node).db.stateAt genesis.block.root = some (genesis.trie, fun _ => none) := by
  have read : openTrie (genesis.system node).db.tries genesis.block.root = some genesis.trie := by
    rw [openTrie, if_neg nonzero, root]
    simp only [Genesis.system, update_self]
  simp only [Database.stateAt, read]
  rfl

theorem unsorted (heads : List Transaction) : (id heads).Perm heads := .refl heads

def forkTransaction (hash : Hash) : Transaction where
  hash := hash
  sender := some 1
  recipient := none
  nonce := 0
  gasPrice := 1
  gas := 60000
  value := 0
  data := []
  isVault := true
  isProtected := true

end Didux.Miner
