import Didux.Core.Receipts
import Didux.Lib.Interleave
import Didux.Rawdb.Freezer

set_option autoImplicit false

namespace Didux.Rawdb

open Sport Didux.Core

structure Codec where
  Header : Type
  Body : Type
  Receipts : Type
  hash : Header → Hash
  number : Header → Nat
  transactions : Body → List Transaction
  storedReceipts : Receipts → List StoredReceiptRLP
  hashBytes : Hash → Bytes
  bytesToHash : Bytes → Hash
  encodeHeader : Header → Bytes
  decodeHeader : Bytes → Option Header
  encodeBody : Body → Bytes
  decodeBody : Bytes → Option Body
  encodeTd : Nat → Bytes
  decodeTd : Bytes → Option Nat
  encodeReceipts : Receipts → Bytes
  decodeReceipts : Bytes → Option Receipts

structure Codec.Lawful (c : Codec) : Prop where
  hash : ∀ h, c.bytesToHash (c.hashBytes h) = h
  header : ∀ h, c.decodeHeader (c.encodeHeader h) = some h
  body : ∀ b, c.decodeBody (c.encodeBody b) = some b
  td : ∀ d, c.decodeTd (c.encodeTd d) = some d
  receipts : ∀ r, c.decodeReceipts (c.encodeReceipts r) = some r
  hashSome : ∀ h, c.hashBytes h ≠ []
  headerSome : ∀ h, c.encodeHeader h ≠ []
  bodySome : ∀ b, c.encodeBody b ≠ []
  tdSome : ∀ d, c.encodeTd d ≠ []
  receiptsSome : ∀ r, c.encodeReceipts r ≠ []

-- The keys of the active store: headerHashKey of a number, and the keys of the parts of a block.
inductive Key where
  | canonical (number : Nat)
  | part (kind : Kind) (number : Nat) (hash : Hash)
deriving DecidableEq

structure Disk where
  active : Key → Option Bytes
  tables : Kind → List Bytes

inductive Lookup where
  | ancient (kind : Kind) (number : Nat)
  | get (key : Key)
  | has (key : Key)

def Lookup.Answer : Lookup → Type
  | .ancient _ _ => Option Bytes
  | .get _ => Option Bytes
  | .has _ => Bool

abbrev Reader := Program Lookup Lookup.Answer

def Disk.answer : (lookup : Lookup) → Disk → lookup.Answer
  | .ancient kind number, d => (d.tables kind)[number]?
  | .get key, d => d.active key
  | .has key, d => (d.active key).isSome

namespace Disk

variable (d : Disk)

def put (key : Key) (data : Bytes) : Disk := { d with active := Function.update d.active key (some data) }

def delete (key : Key) : Disk := { d with active := Function.update d.active key none }

-- DeleteBlockWithoutNumber, and DeleteBlock, as far as the parts of the block go.
def deleteBlock (hash : Hash) (number : Nat) : Disk :=
  (((d.delete (.part .receipts number hash)).delete (.part .headers number hash)).delete (.part .bodies number hash)).delete
    (.part .diffs number hash)

end Disk

def Key.number : Key → Nat
  | .canonical number => number
  | .part _ number _ => number

namespace Reader

def ancient (kind : Kind) (number : Nat) : Reader (Option Bytes) := .step (.ancient kind number) .done

def get (key : Key) : Reader (Option Bytes) := .step (.get key) .done

def has (key : Key) : Reader Bool := .step (.has key) .done

-- ReadHeaderRLP and its like. The freezer may move the data between the first two accesses, hence the third.
def readRLP (kind : Kind) (number : Nat) (key : Key) : Reader Bytes := do
  let data ← ancient kind number
  if data.getD [] ≠ [] then pure (data.getD [])
  else do
    let data ← get key
    if data.getD [] ≠ [] then pure (data.getD [])
    else do
      let data ← ancient kind number
      pure (data.getD [])

variable (hash : Hash) (number : Nat)

def readHeaderRLP : Reader Bytes := readRLP .headers number (.part .headers number hash)

def readBodyRLP : Reader Bytes := readRLP .bodies number (.part .bodies number hash)

def readTdRLP : Reader Bytes := readRLP .diffs number (.part .diffs number hash)

def readReceiptsRLP : Reader Bytes := readRLP .receipts number (.part .receipts number hash)

variable (c : Codec) (chain : Chain)

def decoded {α : Type} (decode : Bytes → Option α) (data : Bytes) : Option α := if data = [] then none else decode data

def readCanonicalHash (number : Nat) : Reader Hash := do
  let data ← readRLP .hashes number (.canonical number)
  pure (if data = [] then 0 else c.bytesToHash data)

variable (hash : Hash) (number : Nat)

def readHeader : Reader (Option c.Header) := do
  let data ← readHeaderRLP hash number
  pure (decoded c.decodeHeader data)

def readBody : Reader (Option c.Body) := do
  let data ← readBodyRLP hash number
  pure (decoded c.decodeBody data)

def readTd : Reader (Option Nat) := do
  let data ← readTdRLP hash number
  pure (decoded c.decodeTd data)

def readRawReceipts : Reader (Option c.Receipts) := do
  let data ← readReceiptsRLP hash number
  pure (decoded c.decodeReceipts data)

def readReceipts : Reader (Option (List Receipt)) := do
  match ← readRawReceipts c hash number with
  | none => pure none
  | some receipts =>
    match ← readBody c hash number with
    | none => pure none
    | some body => pure (chain.readReceipts hash number (c.transactions body) (c.storedReceipts receipts))

-- HasHeader, HasBody and HasReceipts. Here there is no third access.
def hasPart (kind : Kind) (hash : Hash) (number : Nat) : Reader Bool := do
  let data ← ancient .hashes number
  if data.map c.bytesToHash = some hash then pure true else has (.part kind number hash)

def hasHeader : Reader Bool := hasPart c .headers hash number

def hasBody : Reader Bool := hasPart c .bodies hash number

def hasReceipts : Reader Bool := hasPart c .receipts hash number

section Alone

variable (d : Disk)

variable (kind : Kind)

@[simp] theorem ancient_alone (number : Nat) : (ancient kind number).alone Disk.answer d = (d.tables kind)[number]? := rfl

@[simp] theorem get_alone (key : Key) : (get key).alone Disk.answer d = d.active key := rfl

@[simp] theorem has_alone (key : Key) : (has key).alone Disk.answer d = (d.active key).isSome := rfl

theorem read_rlp_alone (number : Nat) (key : Key) : (readRLP kind number key).alone Disk.answer d =
      if (d.tables kind)[number]?.getD [] = [] then (d.active key).getD [] else (d.tables kind)[number]?.getD [] := by
  rw [readRLP, Program.alone_bind]
  by_cases frozen : (d.tables kind)[number]?.getD [] = []
  · by_cases stored : (d.active key).getD [] = []
    · simp [stored]
    · simp [stored]
  · simp [frozen]

theorem has_part_alone (hash : Hash) (number : Nat) : (hasPart c kind hash number).alone Disk.answer d = true ↔
      (d.tables .hashes)[number]?.map c.bytesToHash = some hash ∨ (d.active (.part kind number hash)).isSome = true := by
  rw [hasPart, Program.alone_bind]
  by_cases frozen : (d.tables .hashes)[number]?.map c.bytesToHash = some hash
  · simp
  · simp

theorem read_receipts_alone (hash : Hash) (number : Nat) : (readReceipts c chain hash number).alone Disk.answer d =
      ((readRawReceipts c hash number).alone Disk.answer d).bind fun receipts =>
        ((readBody c hash number).alone Disk.answer d).bind fun body =>
          chain.readReceipts hash number (c.transactions body) (c.storedReceipts receipts) := by
  unfold readReceipts
  rw [Program.alone_bind]
  cases (readRawReceipts c hash number).alone Disk.answer d with
  | none => rfl
  | some receipts =>
    rw [Program.alone_bind]
    cases (readBody c hash number).alone Disk.answer d with
    | none => rfl
    | some body => rfl

end Alone

end Reader

end Didux.Rawdb
