import Didux.Sport.Types

set_option autoImplicit false

namespace Didux.Chain

open Sport Function

-- Blocks by what the index reads of them. The number is a uint64.
structure Block where
  hash : Hash
  parentHash : Hash
  number : Nat
  difficulty : Nat
  small : number < 2 ^ 64
deriving DecidableEq

-- The tables of the database that the index uses. A canonical entry that is not there reads as the zero hash.
structure BlockChain where
  blocks : Hash → Nat → Option Block
  td : Hash → Nat → Option Nat
  canonical : Nat → Hash
  currentBlock : Block

inductive WriteStatus where
  | canonStatTy
  | sideStatTy
deriving DecidableEq, Repr

inductive ChainError where
  | unknownAncestor
  | invalidChain
  | panic
deriving DecidableEq, Repr

namespace BlockChain

variable (bc : BlockChain) (block : Block)

-- The number of the parent is computed on uint64.
def getParent : Option Block :=
  bc.blocks block.parentHash (uint64 (block.number + 2 ^ 64 - 1))

def getTd : Option Nat := bc.td block.hash block.number

def parentTd : Option Nat := bc.td block.parentHash (uint64 (block.number + 2 ^ 64 - 1))

def insert : BlockChain :=
  { bc with canonical := update bc.canonical block.number block.hash, currentBlock := block }

-- Reduce a chain to a number. Each step is one number down, so the number of the block bounds them.
def reduceTo (bc : BlockChain) (target : Nat) : Nat → Block → Option (List Block × Block)
  | 0, _ => none
  | fuel + 1, block => if block.number = target then some ([], block) else
      match bc.getParent block with
      | none => none
      | some parent => (reduceTo bc target fuel parent).map fun walked => (block :: walked.1, walked.2)

-- Reduce both chains until the common ancestor is found; the result is the part of the new one.
def newChainFrom (bc : BlockChain) : Nat → Block → Block → Option (List Block)
  | 0, _, _ => none
  | fuel + 1, oldBlock, newBlock => if oldBlock.hash = newBlock.hash then some [] else
      match bc.getParent oldBlock, bc.getParent newBlock with
      | some oldParent, some newParent => (newChainFrom bc fuel oldParent newParent).map fun rest => newBlock :: rest
      | _, _ => none

def newChain (oldBlock newBlock : Block) : Option (List Block) :=
  if newBlock.number < oldBlock.number then
    match bc.reduceTo newBlock.number (oldBlock.number + 1) oldBlock with
    | none => none
    | some (_, oldBlock) => bc.newChainFrom (newBlock.number + 1) oldBlock newBlock
  else
    match bc.reduceTo oldBlock.number (newBlock.number + 1) newBlock with
    | none => none
    | some (chain, newBlock) => (bc.newChainFrom (newBlock.number + 1) oldBlock newBlock).map fun rest => chain ++ rest

def assigned (canonical : Nat → Hash) : Nat → Nat → List Nat
  | 0, _ => []
  | fuel + 1, i => if canonical i = 0 then [] else i :: assigned canonical fuel (i + 1)

def deleteAbove (number : Nat) : BlockChain :=
  { bc with canonical := fun i => if i ∈ assigned bc.canonical (2 ^ 64) (number + 1) then 0 else bc.canonical i }

-- The head of the new chain is left for the caller to insert.
def reorg (oldBlock newBlock : Block) : Option BlockChain :=
  (bc.newChain oldBlock newBlock).map fun chain =>
    let bc := chain.tail.foldr (fun block bc => bc.insert block) bc
    bc.deleteAbove bc.currentBlock.number

def chooses (shouldPreserve : Option (Block → Bool)) (coin : Bool) (currentBlock block : Block) (localTd externTd : Nat) : Bool :=
  if localTd < externTd then true
  else if externTd = localTd then
    if block.number < currentBlock.number then true
    else if block.number = currentBlock.number then
      let preserves := shouldPreserve.getD fun _ => false
      !preserves currentBlock && (preserves block || coin)
    else false
  else false

def writeBlock (externTd : Nat) : BlockChain :=
  { bc with
    td := update bc.td block.hash (update (bc.td block.hash) block.number (some externTd))
    blocks := update bc.blocks block.hash (update (bc.blocks block.hash) block.number (some block)) }

-- The coin is the comparison of a random number that is drawn for two blocks of equal weight.
def writeBlockWithState (shouldPreserve : Option (Block → Bool)) (coin : Bool) (bc : BlockChain) (block : Block) :
    Except ChainError (BlockChain × WriteStatus) :=
  match bc.parentTd block, bc.getTd bc.currentBlock with
  | none, _ => .error .unknownAncestor
  | some _, none => .error .panic
  | some ptd, some localTd =>
    let externTd := block.difficulty + ptd
    let bc := bc.writeBlock block externTd
    if chooses shouldPreserve coin bc.currentBlock block localTd externTd then
      if block.parentHash ≠ bc.currentBlock.hash then
        match bc.reorg bc.currentBlock block with
        | none => .error .invalidChain
        | some bc => .ok (bc.insert block, .canonStatTy)
      else .ok (bc.insert block, .canonStatTy)
    else .ok (bc, .sideStatTy)

def start (genesis : Block) : BlockChain where
  blocks hash number := if hash = genesis.hash ∧ number = genesis.number then some genesis else none
  td hash number := if hash = genesis.hash ∧ number = genesis.number then some genesis.difficulty else none
  canonical number := if number = genesis.number then genesis.hash else 0
  currentBlock := genesis

end BlockChain

end Didux.Chain
