import Didux.Rawdb.Table

set_option autoImplicit false

namespace Didux.Rawdb

open Sport

inductive Kind where
  | headers
  | hashes
  | bodies
  | receipts
  | diffs
deriving DecidableEq, Repr

-- freezerNoSnappy: hashes and difficulties do not compress well.
def Kind.noSnappy : Kind → Bool
  | .headers => false
  | .hashes => true
  | .bodies => false
  | .receipts => false
  | .diffs => true

def Kind.all : List Kind := [.hashes, .headers, .bodies, .receipts, .diffs]

theorem Kind.mem_all (k : Kind) : k ∈ Kind.all := by cases k <;> decide

theorem Kind.nodup_all : Kind.all.Nodup := by decide

-- The tables are a Go map: a loop over them meets each once, in any order.
def Order : Type := { kinds : List Kind // kinds.Perm Kind.all }

theorem Order.mem (order : Order) (k : Kind) : k ∈ order.val := order.property.mem_iff.mpr k.mem_all

theorem Order.nodup (order : Order) : order.val.Nodup := order.property.nodup_iff.mpr Kind.nodup_all

abbrev Record := Kind → Bytes

inductive FreezerError where
  | outOrderInsertion
  | table (e : TableError)
deriving DecidableEq, Repr

structure Freezer where
  frozen : Nat
  tables : Kind → Table

namespace Freezer

def appendTables (x : Snappy) (number : Nat) (record : Record) (writes : Kind → Written × Written) :
    List Kind → (Kind → Table) → (Kind → Table) × Option TableError
  | [], tables => (tables, none)
  | k :: ks, tables => match (tables k).append x number (record k) (writes k).1 (writes k).2 with
    | (t, some e) => (Function.update tables k t, some e)
    | (t, none) => appendTables x number record writes ks (Function.update tables k t)

def truncateTables (items : Nat) : List Kind → (Kind → Table) → (Kind → Table) × Option TableError
  | [], tables => (tables, none)
  | k :: ks, tables => match (tables k).truncate items with
    | (t, some e) => (Function.update tables k t, some e)
    | (t, none) => truncateTables items ks (Function.update tables k t)

def shortest (tables : Kind → Table) (kinds : List Kind) : Nat := (kinds.map fun k => (tables k).items).min?.getD maxUint64

def repair (f : Freezer) (order : Order) : Freezer × Option TableError :=
  let least := shortest f.tables order.val
  match truncateTables least order.val f.tables with
  | (tables, some e) => ({ f with tables := tables }, some e)
  | (tables, none) => (⟨least, tables⟩, none)

-- none is log.Crit: a failed rollback stops the node.
def appendAncient (x : Snappy) (f : Freezer) (number : Nat) (record : Record) (writes : Kind → Written × Written) (order : Order) :
    Option (Freezer × Option FreezerError) :=
  if f.frozen ≠ number then some (f, some .outOrderInsertion)
  else
    match appendTables x f.frozen record writes Kind.all f.tables with
    | (tables, none) => some (⟨f.frozen + 1, tables⟩, none)
    | (tables, some e) =>
      match ({ f with tables := tables } : Freezer).repair order with
      | (_, some _) => none
      | (f, none) => some (f, some (.table e))

def truncateAncients (f : Freezer) (items : Nat) (order : Order) : Freezer × Option FreezerError :=
  if f.frozen ≤ items then (f, none)
  else
    match truncateTables items order.val f.tables with
    | (tables, some e) => ({ f with tables := tables }, some (.table e))
    | (tables, none) => (⟨items, tables⟩, none)

def ancient (x : Snappy) (f : Freezer) (kind : Kind) (number : Nat) : Except TableError Bytes :=
  (f.tables kind).retrieve x number

def ancients (f : Freezer) : Nat := f.frozen

def byKind (headers hashes bodies receipts diffs : Table) : Kind → Table
  | .headers => headers
  | .hashes => hashes
  | .bodies => bodies
  | .receipts => receipts
  | .diffs => diffs

theorem by_kind_eta (tables : Kind → Table) :
    byKind (tables .headers) (tables .hashes) (tables .bodies) (tables .receipts) (tables .diffs) = tables := by
  funext k
  cases k <;> rfl

def sync (f : Freezer) : Option Freezer := do
  let headers ← (f.tables .headers).sync
  let hashes ← (f.tables .hashes).sync
  let bodies ← (f.tables .bodies).sync
  let receipts ← (f.tables .receipts).sync
  let diffs ← (f.tables .diffs).sync
  some { f with tables := byKind headers hashes bodies receipts diffs }

-- newFreezer on a directory: for each table its index file and its data files.
def newFreezer (maxFileSize : Nat) (index : Kind → File) (disk : Kind → Nat → Option File) (order : Order) : Option Freezer := do
  let headers ← Table.newCustomTable (index .headers) (disk .headers) maxFileSize (Kind.noSnappy .headers)
  let hashes ← Table.newCustomTable (index .hashes) (disk .hashes) maxFileSize (Kind.noSnappy .hashes)
  let bodies ← Table.newCustomTable (index .bodies) (disk .bodies) maxFileSize (Kind.noSnappy .bodies)
  let receipts ← Table.newCustomTable (index .receipts) (disk .receipts) maxFileSize (Kind.noSnappy .receipts)
  let diffs ← Table.newCustomTable (index .diffs) (disk .diffs) maxFileSize (Kind.noSnappy .diffs)
  match repair ⟨0, byKind headers hashes bodies receipts diffs⟩ order with
  | (_, some _) => none
  | (f, none) => some f

end Freezer

end Didux.Rawdb
