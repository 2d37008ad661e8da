import Didux.Sport.Types

set_option autoImplicit false

namespace Didux.Rawdb

open Sport

def maxUint64 : Nat := 2 ^ 64 - 1

def uint16 (n : Nat) : Nat := n % 2 ^ 16
def uint32 (n : Nat) : Nat := n % 2 ^ 32

theorem uint16_of_lt {n : Nat} (small : n < 2 ^ 16) : uint16 n = n := by
  exact Nat.mod_eq_of_lt small

theorem uint32_of_lt {n : Nat} (small : n < 2 ^ 32) : uint32 n = n := by
  exact Nat.mod_eq_of_lt small

-- filenum is stored in two bytes, offset in four.
structure IndexEntry where
  filenum : Nat
  offset : Nat
deriving DecidableEq, Repr

def indexEntrySize : Nat := 6

namespace IndexEntry

def marshallBinary (i : IndexEntry) : Bytes :=
  [UInt8.ofNat (uint16 i.filenum / 2 ^ 8), UInt8.ofNat (uint16 i.filenum), UInt8.ofNat (uint32 i.offset / 2 ^ 24),
    UInt8.ofNat (uint32 i.offset / 2 ^ 16), UInt8.ofNat (uint32 i.offset / 2 ^ 8), UInt8.ofNat (uint32 i.offset)]

def unmarshalBinary : Bytes → Option IndexEntry
  | [a, b, c, d, e, f] => some ⟨a.toNat * 2 ^ 8 + b.toNat, c.toNat * 2 ^ 24 + d.toNat * 2 ^ 16 + e.toNat * 2 ^ 8 + f.toNat⟩
  | _ => none

@[simp] theorem length_marshall_binary (i : IndexEntry) : i.marshallBinary.length = indexEntrySize := rfl

theorem unmarshal_marshall (i : IndexEntry) (number : i.filenum < 2 ^ 16) (offset : i.offset < 2 ^ 32) :
    unmarshalBinary i.marshallBinary = some i := by
  simp only [marshallBinary, unmarshalBinary, UInt8.toNat_ofNat', uint16_of_lt number, uint32_of_lt offset]
  congr 1
  cases i with
  | mk filenum offset =>
    simp only [mk.injEq]
    simp only at number offset
    omega

end IndexEntry

-- An open file of the table. It is opened without O_APPEND, so a write goes to the position of the
-- handle. synced counts the bytes an fsync has covered.
structure File where
  content : Bytes
  position : Nat
  synced : Nat
deriving DecidableEq, Repr

namespace File

def empty : File := ⟨[], 0, 0⟩

def seekEnd (f : File) : File := { f with position := f.content.length }

def write (f : File) (bytes : Bytes) : File :=
  ⟨f.content.take f.position ++ bytes ++ f.content.drop (f.position + bytes.length), f.position + bytes.length,
    min f.synced f.position⟩

-- ReadAt fails when the file ends before the buffer is full.
def readAt (f : File) (offset length : Nat) : Option Bytes :=
  let bytes := (f.content.drop offset).take length
  if bytes.length = length then some bytes else none

-- truncateFreezerFile: a shorter file is filled up with zeros, and the position moves to the end.
def truncate (f : File) (size : Nat) : File :=
  ⟨f.content.take size ++ List.replicate (size - f.content.length) 0, size, min f.synced size⟩

def sync (f : File) : File := { f with synced := f.content.length }

-- The machine stops: of the bytes no fsync covered only a part is on the disk, and what is on the disk stays there.
def crash (f : File) (kept : Nat) : File :=
  let content := f.content.take (max f.synced kept)
  ⟨content, 0, content.length⟩

def entry (f : File) (i : Nat) : Option IndexEntry :=
  (f.readAt (i * indexEntrySize) indexEntrySize).bind IndexEntry.unmarshalBinary

end File

inductive Access where
  | readOnly
  | readWrite
deriving DecidableEq, Repr

inductive Opener where
  | forAppend
  | forReadOnly
  | truncated
deriving DecidableEq, Repr

-- Only opening for reading needs the file to exist.
def Opener.open : Opener → Option File → Option (File × Access)
  | .forAppend, f => some ((f.getD .empty).seekEnd, .readWrite)
  | .forReadOnly, f => f.map fun f => ({ f with position := 0 }, .readOnly)
  | .truncated, _ => some (.empty, .readWrite)

inductive TableError where
  | unexpectedItem (want have_ : Nat)
  | outOfBounds
  | missingDataFile (filenum : Nat)
  | eof
  | notExist
  | badFile
  | shortWrite
  | corrupt
deriving DecidableEq, Repr

-- What the operating system makes of a write: all of it, or an error after the first n bytes.
inductive Written where
  | whole
  | part (n : Nat)
deriving DecidableEq, Repr

def Written.kept : Written → Bytes → Bytes
  | .whole, bytes => bytes
  | .part n, bytes => bytes.take n

structure Snappy where
  encode : Bytes → Bytes
  decode : Bytes → Option Bytes

structure Snappy.Lawful (x : Snappy) : Prop where
  decode_encode : ∀ blob, x.decode (x.encode blob) = some blob

-- disk is the directory: the data files that exist, by number. files are the open ones, of which
-- head is the one numbered headId.
structure Table where
  items : Nat
  noCompression : Bool
  maxFileSize : Nat
  index : File
  disk : Nat → Option File
  files : Nat → Option Access
  headId : Nat
  tailId : Nat
  itemOffset : Nat
  headBytes : Nat

namespace Table

variable (x : Snappy) (t : Table) (blob : Bytes)

def encode : Bytes := if t.noCompression then blob else x.encode blob

def decode : Option Bytes := if t.noCompression then some blob else x.decode blob

def openFile (t : Table) (num : Nat) (opener : Opener) : Option Table :=
  match t.files num with
  | some _ => some t
  | none => (opener.open (t.disk num)).map fun (f, access) =>
    { t with disk := Function.update t.disk num (some f), files := Function.update t.files num (some access) }

def releaseFile (t : Table) (num : Nat) : Table := { t with files := Function.update t.files num none }

def releaseFilesAfter (t : Table) (num : Nat) (remove : Bool) : Table :=
  { t with
    files := fun n => if num < n then none else t.files n
    disk := fun n => if remove = true ∧ num < n ∧ (t.files n).isSome then none else t.disk n }

-- An operation on the head goes through its handle.
def onHead (t : Table) (change : File → File) : Option Table :=
  match t.files t.headId, t.disk t.headId with
  | some .readWrite, some f => some { t with disk := Function.update t.disk t.headId (some (change f)) }
  | _, _ => none

def overflows (t : Table) (bLen : Nat) : Bool :=
  uint32 (t.headBytes + bLen) < bLen || t.maxFileSize < uint32 (t.headBytes + bLen)

-- The old head is reopened for reading; that this may fail is ignored.
def rollover (t : Table) : Option Table := do
  let nextID := uint32 (t.headId + 1)
  let t ← t.openFile nextID .truncated
  let t := t.releaseFile t.headId
  let t := (t.openFile t.headId .forReadOnly).getD t
  some { t with headBytes := 0, headId := nextID }

-- The entry of the item just written to the head. The error of the index write is ignored.
def note (t : Table) (bLen : Nat) (index : Written) : Table :=
  let newOffset := uint32 (t.headBytes + bLen)
  let idx : IndexEntry := ⟨t.headId, newOffset⟩
  { t with headBytes := newOffset, index := t.index.write (index.kept idx.marshallBinary), items := t.items + 1 }

def append (item : Nat) (blob : Bytes) (data index : Written) : Table × Option TableError :=
  if t.items ≠ item then (t, some (.unexpectedItem t.items item))
  else
    let blob := t.encode x blob
    let bLen := uint32 blob.length
    match if t.overflows bLen = true then t.rollover else some t with
    | none => (t, some .notExist)
    | some t =>
      match t.onHead (·.write (data.kept blob)) with
      | none => (t, some .badFile)
      | some t =>
        match data with
        | .part _ => (t, some .shortWrite)
        | .whole => (t.note bLen index, none)

def rewind (t : Table) (filenum : Nat) : Option Table := do
  let t ← (t.releaseFile filenum).openFile filenum .forAppend
  some { t.releaseFilesAfter filenum true with headId := filenum }

def truncate (t : Table) (items : Nat) : Table × Option TableError :=
  if t.items ≤ items then (t, none)
  else
    let t := { t with index := t.index.truncate ((items + 1) * indexEntrySize) }
    match t.index.entry items with
    | none => (t, some .eof)
    | some expected =>
      match if expected.filenum ≠ t.headId then t.rewind expected.filenum else some t with
      | none => (t, some .notExist)
      | some t =>
        match t.onHead (·.truncate expected.offset) with
        | none => (t, some .badFile)
        | some t => ({ t with items := items, headBytes := expected.offset }, none)

structure Bounds where
  startOffset : Nat
  endOffset : Nat
  filenum : Nat
deriving DecidableEq, Repr

def Bounds.size (bounds : Bounds) : Nat :=
  if bounds.startOffset ≤ bounds.endOffset then bounds.endOffset - bounds.startOffset
  else 2 ^ 32 - (bounds.startOffset - bounds.endOffset)

-- An item that does not fit the file the one before it ends in stands at the start of the next.
def getBounds (t : Table) (item : Nat) : Option Bounds := do
  let startIdx ← t.index.entry item
  let endIdx ← t.index.entry (item + 1)
  if startIdx.filenum ≠ endIdx.filenum then some ⟨0, endIdx.offset, endIdx.filenum⟩
  else some ⟨startIdx.offset, endIdx.offset, endIdx.filenum⟩

def dataFile (t : Table) (filenum : Nat) : Option File := (t.files filenum).bind fun _ => t.disk filenum

def readBlob (t : Table) (bounds : Bounds) : Except TableError Bytes :=
  match t.dataFile bounds.filenum with
  | none => .error (.missingDataFile bounds.filenum)
  | some dataFile =>
    match dataFile.readAt bounds.startOffset bounds.size with
    | none => .error .eof
    | some blob => .ok blob

def retrieve (item : Nat) : Except TableError Bytes :=
  if t.items ≤ item then .error .outOfBounds
  else if item < t.itemOffset then .error .outOfBounds
  else
    match t.getBounds (item - t.itemOffset) with
    | none => .error .eof
    | some bounds =>
      match t.readBlob bounds with
      | .error e => .error e
      | .ok blob =>
        match t.decode x blob with
        | none => .error .corrupt
        | some blob => .ok blob

def has (t : Table) (number : Nat) : Bool := number < t.items

def sync (t : Table) : Option Table := ({ t with index := t.index.sync } : Table).onHead File.sync

-- The loop over the index from its end. entries counts the index entries that are left; with none
-- left a truncation asks for a negative size and fails.
def repairLoop (entries : Nat) (t : Table) (lastIndex : IndexEntry) (contentSize : Nat) :
    Option (Table × IndexEntry × Nat × Nat) :=
  if lastIndex.offset = contentSize then some (t, lastIndex, contentSize, entries)
  else if lastIndex.offset < contentSize then do
    -- the head file holds bytes no entry names
    let t ← ({ t with headId := lastIndex.filenum } : Table).onHead (·.truncate lastIndex.offset)
    some (t, lastIndex, lastIndex.offset, entries)
  else
    match entries with
    | 0 => none
    | entries + 1 => do
        let t := { t with index := t.index.truncate (entries * indexEntrySize) }
        -- the buffer keeps the last entry when nothing is left to read
        let newLastIndex := (t.index.entry (entries - 1)).getD lastIndex
        if newLastIndex.filenum ≠ lastIndex.filenum then
          let t ← (t.releaseFile lastIndex.filenum).openFile newLastIndex.filenum .forAppend
          let head ← t.disk newLastIndex.filenum
          repairLoop entries t newLastIndex head.content.length
        else repairLoop entries t newLastIndex contentSize

def preopenRange (t : Table) (low : Nat) : Nat → Option Table
  | 0 => some t
  | n + 1 => do
      let t ← preopenRange t low n
      t.openFile (low + n) .forReadOnly

def preopen (t : Table) : Option Table := do
  let t := t.releaseFilesAfter 0 false
  let t ← t.preopenRange t.tailId (t.headId - t.tailId)
  t.openFile t.headId .forAppend

def zeroEntry : IndexEntry := ⟨0, 0⟩

-- An index that is a multiple of the entry size is left as it is, an empty one gets its first entry.
def repairIndex (index : File) : File :=
  if index.content.length = 0 then index.write zeroEntry.marshallBinary
  else if index.content.length % indexEntrySize ≠ 0 then
    index.truncate (index.content.length - index.content.length % indexEntrySize)
  else index

-- The first entry names no item; without any the subtraction wraps around.
def countItems (itemOffset entries : Nat) : Nat :=
  if entries = 0 then uint64 (itemOffset + maxUint64) else itemOffset + (entries - 1)

-- ReadAt errors are ignored: what could not be read are zeros.
def repair (t : Table) : Option Table := do
  let index := repairIndex t.index
  let offsetsSize := index.content.length
  let firstIndex := (index.entry 0).getD zeroEntry
  let lastIndex := (index.entry (offsetsSize / indexEntrySize - 1)).getD zeroEntry
  let t : Table := { t with index := index, tailId := firstIndex.offset, itemOffset := firstIndex.filenum }
  let t ← t.openFile lastIndex.filenum .forAppend
  let head ← t.disk lastIndex.filenum
  let (t, lastIndex, contentSize, entries) ← t.repairLoop (offsetsSize / indexEntrySize) lastIndex head.content.length
  let t ← ({ t with headId := lastIndex.filenum } : Table).sync
  preopen { t with items := countItems t.itemOffset entries, headBytes := uint32 contentSize }

-- newCustomTable on a directory: the index file and the data files that are there.
def newCustomTable (index : File) (disk : Nat → Option File) (maxFileSize : Nat) (noCompression : Bool) : Option Table :=
  repair ⟨0, noCompression, maxFileSize, index.seekEnd, disk, fun _ => none, 0, 0, 0, 0⟩

end Table

end Didux.Rawdb
