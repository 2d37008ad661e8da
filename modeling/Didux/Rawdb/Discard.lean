import Didux.Rawdb.Torn

set_option autoImplicit false

namespace Didux.Rawdb

open Sport Function List Option Table Nat
open Table (zeroEntry)

inductive Step where
  | edit (e : Edit)
  | reopen
deriving DecidableEq, Repr

def Step.effect (blobs : List Bytes) : Step → List Bytes
  | .edit e => e.effect blobs
  | .reopen => blobs

-- The first index entry has the number of discarded items where others have a file, and the first file where others have an offset.
def File.relabel (f : File) (items tail entries : Nat) : File :=
  { f with content := (⟨items, tail⟩ : IndexEntry).marshallBinary ++ f.content.drop (entries * indexEntrySize) }

namespace Table

def restart (t : Table) : Option Table := newCustomTable t.index t.disk t.maxFileSize t.noCompression

def step (x : Snappy) (t : Table) : Step → Option Table
  | .edit e => t.edit x e
  | .reopen => t.restart

def steps (x : Snappy) (t : Table) : List Step → Option Table
  | [] => some t
  | s :: ss => (t.step x s).bind fun u => u.steps x ss

def discard (t : Table) (items tail : Nat) : Option Table :=
  newCustomTable (t.index.relabel items tail (items + 1)) (fun id => if id < tail then none else t.disk id) t.maxFileSize
    t.noCompression

def Discardable (t : Table) (items tail : Nat) : Prop :=
  (items = 0 ∧ tail = 0) ∨ (items < t.items ∧ items < 2 ^ 16 ∧
    ∃ bounds ∈ t.getBounds items, bounds.startOffset = 0 ∧ tail ≤ bounds.filenum ∧ (bounds.filenum = items → tail = 0))

def Allows (x : Snappy) (discarded tail : Nat) (t : Table) : Step → Prop
  | .edit (.append blob) => t.Takes x (.append blob)
  | .edit (.truncate items) => (discarded = 0 ∧ tail = 0) ∨ t.items ≤ items
  | .reopen => True

def AllowsAll (x : Snappy) (discarded tail : Nat) (t : Table) : List Step → Prop
  | [] => True
  | s :: ss => t.Allows x discarded tail s ∧ ∀ u ∈ t.step x s, AllowsAll x discarded tail u ss

instance (t : Table) (items tail : Nat) : Decidable (t.Discardable items tail) := inferInstanceAs (Decidable (_ ∨ _))

instance (x : Snappy) (discarded tail : Nat) (t : Table) : (s : Step) → Decidable (t.Allows x discarded tail s)
  | .edit (.append blob) => inferInstanceAs (Decidable (t.Takes x (.append blob)))
  | .edit (.truncate _) => inferInstanceAs (Decidable (_ ∨ _))
  | .reopen => isTrue trivial

instance decidableAllowsAll (x : Snappy) (discarded tail : Nat) (t : Table) :
    (ss : List Step) → Decidable (t.AllowsAll x discarded tail ss)
  | [] => isTrue trivial
  | s :: ss =>
    have : DecidablePred fun u : Table => u.AllowsAll x discarded tail ss := fun u => decidableAllowsAll x discarded tail u ss
    inferInstanceAs (Decidable (t.Allows x discarded tail s ∧ ∀ u ∈ t.step x s, u.AllowsAll x discarded tail ss))

structure ReadsFrom (x : Snappy) (t : Table) (discarded : Nat) (blobs : List Bytes) : Prop where
  items : t.items = blobs.length
  inside : ∀ i (small : i < blobs.length), discarded ≤ i → t.retrieve x i = .ok (blobs.get ⟨i, small⟩)
  outside : ∀ i, i < discarded ∨ blobs.length ≤ i → t.retrieve x i = .error .outOfBounds

end Table

structure Pruned (o tail : Nat) (t u : Table) : Prop where
  items : t.items = u.items + o
  noCompression : t.noCompression = u.noCompression
  maxFileSize : t.maxFileSize = u.maxFileSize
  index : t.index = u.index.relabel o tail 1
  disk : ∀ id, tail ≤ id → t.disk id = u.disk id
  files : ∀ id, tail ≤ id → t.files id = u.files id
  headId : t.headId = u.headId
  headBytes : t.headBytes = u.headBytes
  tailId : t.tailId = u.tailId
  itemOffset : t.itemOffset = o
  below : tail ≤ u.headId

structure Kept (o tail : Nat) (qs : List Placed) : Prop where
  some_ : (o = 0 ∧ tail = 0) ∨ (o < 2 ^ 16 ∧ qs ≠ [])
  first : ∀ p ∈ qs.head?, p.file = o → tail = 0
  files : ∀ p ∈ qs, tail ≤ p.file

section Reading

variable {x : Snappy} {o tail : Nat} {t u : Table} {qs : List Placed}

theorem kept_number (kept : Kept o tail qs) : o < 2 ^ 16 := by
  rcases kept.some_ with ⟨rfl, -⟩ | ⟨small, -⟩
  · exact Nat.two_pow_pos 16
  · exact small

theorem relabel_eq {f g : File} {entries : Nat} (content : f.content = (g.relabel o tail entries).content)
    (position : f.position = g.position)
    (synced : f.synced = g.synced) : f = g.relabel o tail entries := by
  cases f
  cases content
  cases position
  cases synced
  rfl

variable (ok : Level u qs) (pruned : Pruned o tail t u)
include ok pruned

theorem pruned_index : t.index.content = indexBytes (⟨o, tail⟩ :: qs.map Placed.entry) := by
  have entries : u.index.content = zeroEntry.marshallBinary ++ indexBytes (qs.map Placed.entry) := ok.indexed
  rw [pruned.index, File.relabel, entries]
  rfl

theorem pruned_bounds (kept : Kept o tail qs) {i : Nat} (small : i < qs.length) : t.getBounds i = u.getBounds i := by
  have indexed := pruned_index ok pruned
  have entry (j : Nat) (inside : j < qs.length) : t.index.entry (j + 1) = u.index.entry (j + 1) := by
    have narrow := ok.narrow (qs.get ⟨j, inside⟩) (get_mem ..)
    have at_ : (qs.map Placed.entry)[j]? = some (qs.get ⟨j, inside⟩).entry := by simp [inside]
    have mine : indexBytes (⟨o, tail⟩ :: qs.map Placed.entry) <+: t.index.content := ⟨[], by rw [append_nil, indexed]⟩
    have theirs : indexBytes (entries qs) <+: u.index.content := ⟨[], by rw [append_nil, ok.indexed]⟩
    rw [entry_of_index_bytes mine at_ narrow.1 narrow.2, entry_of_index_bytes theirs at_ narrow.1 narrow.2]
  cases i with
  | succ i =>
    simp only [getBounds, entry i (lt_of_succ_lt small), entry (i + 1) small]
  | zero =>
    obtain ⟨p, rest, rfl⟩ := exists_cons_of_length_pos small
    have start : p.start = 0 := by rcases ok.chain.1 with ⟨-, start⟩ | ⟨-, start⟩ <;> exact start
    have narrow := ok.narrow p mem_cons_self
    have tailNarrow : tail < 2 ^ 32 :=
      ((kept.files p List.mem_cons_self).trans_lt narrow.1).trans (Nat.pow_lt_pow_right (by decide) (by decide))
    have stored : indexBytes (⟨o, tail⟩ :: (p :: rest).map Placed.entry) <+: t.index.content := ⟨[], by rw [append_nil, indexed]⟩
    have first : t.index.entry 0 = some ⟨o, tail⟩ := entry_of_index_bytes stored rfl (kept_number kept) tailNarrow
    have second : t.index.entry 1 = some p.entry := entry_of_index_bytes stored rfl narrow.1 narrow.2
    rw [show u.getBounds 0 = some ⟨p.start, p.stop, p.file⟩ from get_bounds_indexed ok.index ok.chain ok.narrow [] rest p rfl]
    simp only [getBounds, first, second, bind_eq_bind, bind_some]
    -- the discarded number is compared with the file of the item
    by_cases same : o = p.entry.filenum
    · rw [if_neg (not_not.mpr same), kept.first p rfl same.symm, start]
      rfl
    · rw [if_pos same, start]
      rfl

theorem pruned_retrieve (kept : Kept o tail qs) {i : Nat} (small : i < qs.length) : t.retrieve x (i + o) = u.retrieve x i := by
  have bounds := pruned_bounds ok pruned kept small
  have found := get_bounds_at ok.index ok.chain ok.narrow small
  have file := kept.files _ (get_mem qs ⟨i, small⟩)
  have read (start stop : Nat) : t.readBlob ⟨start, stop, (qs.get ⟨i, small⟩).file⟩ =
    u.readBlob ⟨start, stop, (qs.get ⟨i, small⟩).file⟩ := by
    simp only [readBlob, dataFile, pruned.files _ file, pruned.disk _ file]
  have decode : t.decode x = u.decode x := by
    funext blob
    rw [decode, decode, pruned.noCompression]
  rw [Table.retrieve, Table.retrieve, pruned.items, pruned.itemOffset, ok.whole, Nat.add_sub_cancel, bounds, Nat.sub_zero, found]
  simp only [read, decode, add_le_add_iff_right, not_lt_zero, not_lt.mpr (le_add_left o i)]

theorem pruned_reads (lawful : x.Lawful) (kept : Kept o tail qs) {blobs : List Bytes}
    (discarded : o ≤ blobs.length) (stored : qs.map Placed.blob = (blobs.drop o).map (u.encode x)) : t.ReadsFrom x o blobs := by
  have reads := level_reads lawful ok stored
  have items : t.items = blobs.length := by
    rw [pruned.items, reads.items, List.length_drop, Nat.sub_add_cancel discarded]
  refine ⟨items, fun i small from_ => ?_, fun i where_ => ?_⟩
  · obtain ⟨j, rfl⟩ := Nat.exists_eq_add_of_le' from_
    have inside : j < (blobs.drop o).length := by rw [length_drop]; omega
    have length : j < qs.length := by
      rwa [← ok.items, reads.items]
    rw [pruned_retrieve ok pruned kept length, reads.inside j inside]
    simp [add_comm]
  · rw [retrieve, items, pruned.itemOffset]
    rcases where_ with before | after
    · rw [if_pos before, ite_self]
    · rw [if_pos after]

end Reading

section Stepping

variable {x : Snappy} {o tail : Nat} {t u : Table} {qs : List Placed} (ok : Level u qs) (pruned : Pruned o tail t u)
include ok pruned

theorem pruned_write (bytes : Bytes) : t.index.write bytes = (u.index.write bytes).relabel o tail 1 := by
  have long : indexEntrySize ≤ u.index.content.length := by
    rw [ok.indexed, length_index_bytes]
    exact Nat.le_mul_of_pos_left _ (Nat.succ_pos _)
  have atEnd : t.index.position = t.index.content.length := by
    rw [pruned.index]
    simp only [File.relabel, ok.indexEnd, length_append, IndexEntry.length_marshall_binary, length_drop]
    omega
  have content : (t.index.write bytes).content = ((u.index.write bytes).relabel o tail 1).content := by
    rw [(write_at_end atEnd).1, File.relabel, (write_at_end ok.indexEnd).1, one_mul, drop_append_of_le_length long, pruned.index,
      File.relabel, one_mul, append_assoc]
  refine relabel_eq content ?_ ?_ <;> rw [File.write, File.write, pruned.index, File.relabel]

theorem pruned_grown {f : File} (blob : Bytes) : Pruned o tail (t.grown x f blob) (u.grown x f blob) := by
  have encode : t.encode x = u.encode x := encode_eq pruned.noCompression
  have below := pruned.below
  have full : t.overflows = u.overflows := by
    funext n
    rw [overflows, overflows, pruned.headBytes, pruned.maxFileSize]
  have above {α : Type} {g h : Nat → Option α} (same : ∀ id, tail ≤ id → g id = h id) (n : Nat) (value : Option α) (id : Nat)
      (inside : tail ≤ id) : update g n value id = update h n value id := by
    by_cases here : id = n
    · rw [here, update_self, update_self]
    · rw [update_of_ne here, update_of_ne here, same id inside]
  rw [grown, grown, ready, ready, encode, full]
  split
  · refine ⟨?_, pruned.noCompression, pruned.maxFileSize, ?_, fun id inside => ?_, fun id inside => ?_, ?_, rfl, pruned.tailId,
      pruned.itemOffset, below.trans (le_succ _)⟩
    · simp only [note, put, rolled, pruned.items]
      omega
    · simp only [rolled, pruned.headId]
      exact pruned_write ok pruned _
    · simp only [rolled, pruned.headId]
      exact above (above (above pruned.disk _ _) _ _) _ _ id inside
    · simp only [rolled, pruned.headId]
      exact above (above pruned.files _ _) _ _ id inside
    · simp only [note, put, rolled, pruned.headId]
  · refine ⟨?_, pruned.noCompression, pruned.maxFileSize, ?_, fun id inside => ?_, pruned.files, pruned.headId, ?_, pruned.tailId,
      pruned.itemOffset, below⟩
    · simp only [note, put, pruned.items]
      omega
    · simp only [put, pruned.headId, pruned.headBytes]
      exact pruned_write ok pruned _
    · simp only [put, pruned.headId]
      exact above pruned.disk _ _ id inside
    · simp only [note, put, pruned.headBytes]

theorem pruned_append {blob : Bytes} (takes : t.Takes x (.append blob)) :
    ∃ v w p, t.edit x (.append blob) = some v ∧ Level w (qs ++ [p]) ∧ Pruned o tail v w ∧ p.blob = u.encode x blob ∧
      w.noCompression = u.noCompression ∧ tail ≤ p.file := by
  obtain ⟨f, there⟩ := ok.headFile
  have encode : t.encode x = u.encode x := encode_eq pruned.noCompression
  have full (n : Nat) : t.overflows n = u.overflows n := by
    rw [overflows, overflows, pruned.headBytes, pruned.maxFileSize]
  have fits : u.Fits x blob := by
    obtain ⟨size, number⟩ := takes
    rw [encode] at size number
    rw [full, pruned.headId] at number
    exact ⟨size, number, .inl ok.clean⟩
  obtain ⟨p, same, file, grown, clean⟩ := grown_intact ok.toIntact ok.clean there fits
  have grownPruned : Pruned o tail (t.grown x f blob) (u.grown x f blob) := pruned_grown ok pruned blob
  refine ⟨t.grown x f blob, u.grown x f blob, p, ?_, ⟨⟨grown, clean⟩, by rw [tip_snoc]; exact file.symm⟩, grownPruned, same,
    grown_kept.1, file ▸ grownPruned.below⟩
  have size : uint32 (t.encode x blob).length = (t.encode x blob).length := uint32_of_lt takes.1
  have room : t.overflows (uint32 (t.encode x blob).length) = true → t.headId + 1 < 2 ^ 32 := by
    intro more
    have number := takes.2
    rw [if_pos (size ▸ more)] at number
    exact number.trans (Nat.pow_lt_pow_right (by decide) (by decide))
  have writable : t.files t.headId = some .readWrite := by
    rw [pruned.headId, pruned.files _ pruned.below, ok.writable]
  have fresh : t.files (t.headId + 1) = none := by
    rw [pruned.headId, pruned.files _ (pruned.below.trans (le_succ _)), ok.closed _ (lt_succ_self _)]
  have head : t.disk t.headId = some f := by rw [pruned.headId, pruned.disk _ pruned.below, there]
  have run := append_ready (x := x) rfl writable fresh head blob .whole .whole room
  rw [size] at run
  rw [edit, op, run]
  rfl

end Stepping

structure Leftover (o tail : Nat) (qs : List Placed) (index : File) (disk : Nat → Option File) : Prop where
  kept : Kept o tail qs
  chain : Chained zeroEntry qs
  narrow : ∀ p ∈ qs, p.file < 2 ^ 16 ∧ p.stop < 2 ^ 32
  indexed : index.content = indexBytes (⟨o, tail⟩ :: qs.map Placed.entry)
  below : tail ≤ (tip zeroEntry qs).filenum
  present : ∀ id, tail ≤ id → id ≤ (tip zeroEntry qs).filenum → (disk id).isSome
  held : ∀ p ∈ qs, ∃ f, disk p.file = some f ∧ p.Held f
  head : ∃ f, disk (tip zeroEntry qs).filenum = some f ∧ f.content.length = (tip zeroEntry qs).offset

section Opening

variable {x : Snappy} {o tail : Nat} {t u : Table} {qs : List Placed} {index : File} {disk : Nat → Option File}

variable (left : Leftover o tail qs index disk)

include left

theorem leftover_entries :
    index.entry 0 = some ⟨o, tail⟩ ∧ index.entry qs.length = some (tip zeroEntry qs) := by
  have stored : indexBytes (⟨o, tail⟩ :: qs.map Placed.entry) <+: index.content := ⟨[], by rw [append_nil, left.indexed]⟩
  obtain ⟨number, offset⟩ := tip_narrow left.narrow
  have small : tail < 2 ^ 32 := (left.below.trans_lt number).trans (Nat.pow_lt_pow_right (by decide) (by decide))
  have first : index.entry 0 = some ⟨o, tail⟩ := entry_of_index_bytes stored rfl (kept_number left.kept) small
  refine ⟨first, ?_⟩
  rcases eq_nil_or_concat qs with none | ⟨before, p, last⟩
  · have nothing : o = 0 ∧ tail = 0 := left.kept.some_.resolve_right fun both => both.2 none
    rw [none, length_nil, first, nothing.1, nothing.2]
    rfl
  · refine entry_of_index_bytes stored ?_ number offset
    rw [last, concat_eq_append, tip_snoc]
    simp

theorem leftover_repair (maxFileSize : Nat) (noCompression : Bool) :
    ∃ v t, v.index = index.seekEnd ∧ v.tailId = tail ∧ v.itemOffset = o ∧ v.noCompression = noCompression ∧
      (∀ id, (v.disk id).map File.content = (disk id).map File.content) ∧
      newCustomTable index disk maxFileSize noCompression = some t ∧
      Resumed v t (tip zeroEntry qs).filenum (qs.length + 1) (tip zeroEntry qs).offset := by
  obtain ⟨first, last⟩ := leftover_entries left
  obtain ⟨f, there, size⟩ := left.head
  have length : index.content.length = (qs.length + 1) * 6 := by
    rw [left.indexed, length_index_bytes, length_cons, length_map]
    rfl
  have whole : repairIndex index.seekEnd = index.seekEnd := by
    rw [repairIndex, show index.seekEnd.content = index.content from rfl, length, if_neg (by omega),
      if_neg (by rw [not_not]; exact mul_mod_left _ _)]
  have offset : uint32 (tip zeroEntry qs).offset = (tip zeroEntry qs).offset := uint32_of_lt (tip_narrow left.narrow).2
  generalize tip_ : tip zeroEntry qs = e at *
  have opened : openFile ⟨0, noCompression, maxFileSize, index.seekEnd, disk, fun _ => none, 0, tail, o, 0⟩ e.filenum .forAppend =
      some ⟨0, noCompression, maxFileSize, index.seekEnd, update disk e.filenum (some f.seekEnd),
        update (fun _ => none) e.filenum (some .readWrite), 0, tail, o, 0⟩ := by
    rw [open_for_append rfl]
    simp only [there, getD_some]
  have content (id : Nat) : (update disk e.filenum (some f.seekEnd) id).map File.content = (disk id).map File.content := by
    by_cases here : id = e.filenum
    · rw [here, update_self, there]
      rfl
    · rw [update_of_ne here]
  obtain ⟨v, t, sync, run, done⟩ := sync_preopen (t := ⟨0, noCompression, maxFileSize, index.seekEnd,
      update disk e.filenum (some f.seekEnd), update (fun _ => none) e.filenum (some .readWrite), 0, tail, o, 0⟩)
    (update_self ..) rfl (update_apply (fun _ => none) e.filenum (some Access.readWrite)) (tip_ ▸ left.below)
    (fun id large small => (content_exists (content id)).trans (left.present id large (tip_ ▸ small))) (qs.length + 1) e.offset
  refine ⟨_, t, rfl, rfl, rfl, rfl, content, ?_, done⟩
  have entries : index.seekEnd.content.length / indexEntrySize = qs.length + 1 := by
    rw [show index.seekEnd.content = index.content from rfl, length]
    exact Nat.mul_div_cancel _ (by decide)
  have read (i : Nat) : index.seekEnd.entry i = index.entry i := rfl
  have loop (w : Table) : w.repairLoop (qs.length + 1) e f.seekEnd.content.length = some (w, e, e.offset, qs.length + 1) := by
    rw [repairLoop.eq_def, show f.seekEnd.content = f.content from rfl, size, if_pos rfl]
  simp only [Table.newCustomTable, Table.repair, whole, entries, read, Nat.add_sub_cancel, first, last, Option.getD_some, opened,
    Option.bind_eq_bind, Option.bind_some, update_self, loop, sync, offset]
  exact run

theorem leftover_opens (maxFileSize : Nat) (noCompression : Bool) :
    ∃ t u, newCustomTable index disk maxFileSize noCompression = some t ∧ Level u qs ∧ Pruned o tail t u ∧
      u.noCompression = noCompression := by
  obtain ⟨v, t, index_, tail_, offset, compression, content, run, done⟩ := leftover_repair left maxFileSize noCompression
  have data (id : Nat) : (t.disk id).map File.content = (disk id).map File.content := (done.data id).trans (content id)
  obtain ⟨f, there, size⟩ := left.head
  have headId := done.headId
  have headBytes := done.headBytes
  have indexed : t.index.content = indexBytes (⟨o, tail⟩ :: qs.map Placed.entry) := by
    rw [done.index, index_]
    exact left.indexed
  have indexEnd : t.index.position = (indexBytes (entries qs)).length := by
    rw [done.index, index_, length_index_bytes]
    exact (congrArg length left.indexed).trans length_index_bytes
  let u : Table := { t with
    items := qs.length
    index := { t.index with content := indexBytes (entries qs) }
    disk := fun id => if id < tail then some .empty else t.disk id
    files := fun id => if id < tail then some .readOnly else t.files id
    itemOffset := 0 }
  have inside {id : Nat} (large : tail ≤ id) : u.disk id = t.disk id ∧ u.files id = t.files id :=
    ⟨if_neg (not_lt.mpr large), if_neg (not_lt.mpr large)⟩
  have head : tail ≤ t.headId := headId ▸ left.below
  have shape : Shape u qs := by
    refine ⟨le_rfl, rfl, ⟨[], append_nil _⟩, left.chain, left.narrow, fun id small => ?_, fun id large => ?_, ?_, headId.ge⟩
    · by_cases before : id < tail
      · simp [u, before]
      · have large : tail ≤ id := Nat.le_of_not_lt before
        have within : id ≤ (tip zeroEntry qs).filenum := headId ▸ small
        rw [(inside large).1, (inside large).2]
        exact ⟨done.opened id (tail_ ▸ large) within, (content_exists (data id)).trans (left.present id large within)⟩
    · rw [(inside (head.trans (le_of_lt large))).2]
      exact done.closed id (headId ▸ large)
    · rw [(inside head).2, headId]
      exact done.writable
  have held (p : Placed) (member : p ∈ qs) : p.On u := by
    rw [Placed.On, (inside (left.kept.files p member)).1]
    exact content_held (data p.file) (left.held p member)
  have newest : u.disk u.headId = t.disk (tip zeroEntry qs).filenum := (inside head).1.trans (congrArg t.disk headId)
  have clean : u.Clean := by
    intro g at_
    rw [newest] at at_
    have equal := data (tip zeroEntry qs).filenum
    rw [at_, there] at equal
    exact ((congrArg length (some.inj equal)).trans size).trans headBytes.symm
  refine ⟨t, u, run, ⟨⟨⟨⟨shape, held⟩, rfl, rfl, indexEnd, ?_, fun g at_ => done.headEnd g (newest.symm.trans at_)⟩, clean⟩, headId⟩,
    ⟨?_, rfl, rfl, ?_, fun id large => (inside large).1.symm, fun id large => (inside large).2.symm, rfl, rfl, rfl,
      done.same.itemOffset.trans offset, head⟩, done.same.noCompression.trans compression⟩
  · rw [if_pos headId.symm]
    exact headBytes
  · rw [done.items, offset]
    exact add_comm _ _
  · exact relabel_eq indexed rfl rfl

omit left

theorem pruned_leftover (ok : Level u qs) (pruned : Pruned o tail t u) (kept : Kept o tail qs) : Leftover o tail qs t.index t.disk := by
  have head : tail ≤ (tip zeroEntry qs).filenum := ok.head ▸ pruned.below
  refine ⟨kept, ok.chain, ok.narrow, pruned_index ok pruned, head, fun id large small => ?_, fun p member => ?_, ?_⟩
  · rw [pruned.disk id large]
    exact (ok.opened id (ok.head ▸ small)).2
  · rw [pruned.disk p.file (kept.files p member)]
    exact ok.held p member
  · obtain ⟨f, there⟩ := ok.headFile
    refine ⟨f, ?_, ?_⟩
    · rw [pruned.disk _ head, ← ok.head, there]
    · rw [ok.clean f there, ok.headBytes, if_pos ok.head.symm]

end Opening

section Running

variable {x : Snappy} {o tail : Nat} {t u : Table} {ps qs : List Placed} {blobs : List Bytes}

theorem pruned_self (ok : Level u qs) : Pruned 0 0 u u := by
  refine ⟨rfl, rfl, rfl, ?_, fun _ _ => rfl, fun _ _ => rfl, rfl, rfl, rfl, ok.whole, zero_le _⟩
  refine relabel_eq ?_ rfl rfl
  rw [File.relabel, ok.indexed]
  rfl

theorem pruned_eq (ok : Level u qs) (pruned : Pruned 0 0 t u) : t = u := by
  have self := pruned_self ok
  have index : t.index = u.index := pruned.index.trans self.index.symm
  have disk : t.disk = u.disk := funext fun id => pruned.disk id (zero_le id)
  have files : t.files = u.files := funext fun id => pruned.files id (zero_le id)
  obtain ⟨items, compression, size, -, -, -, headId, headBytes, tailId, offset, -⟩ := pruned
  have whole := ok.whole
  cases t
  cases u
  simp_all

structure Sound (x : Snappy) (o tail : Nat) (t : Table) (blobs : List Bytes) (u : Table) (qs : List Placed) : Prop where
  level : Level u qs
  pruned : Pruned o tail t u
  kept : Kept o tail qs
  discarded : o ≤ blobs.length
  stored : qs.map Placed.blob = (blobs.drop o).map (u.encode x)

theorem sound_items (ok : Sound x o tail t blobs u qs) : t.items = blobs.length := by
  have length := stored_items ⟨qs, ok.level.toIntact, ok.stored⟩
  rw [ok.pruned.items, length, List.length_drop, Nat.sub_add_cancel ok.discarded]

theorem kept_snoc (kept : Kept o tail qs) {p : Placed} (file : tail ≤ p.file) : Kept o tail (qs ++ [p]) := by
  refine ⟨kept.some_.imp_right fun both => ⟨both.1, by simp⟩, fun q first same => ?_, fun q member => ?_⟩
  · rcases kept.some_ with nothing | ⟨-, some_⟩
    · exact nothing.2
    · rw [head?_append_of_ne_nil _ some_] at first
      exact kept.first q first same
  · rcases mem_append.mp member with old | new
    · exact kept.files q old
    · exact mem_singleton.mp new ▸ file

theorem step_sound (ok : Sound x o tail t blobs u qs) {s : Step} (allows : t.Allows x o tail s) :
    ∃ v w rs, t.step x s = some v ∧ Sound x o tail v (s.effect blobs) w rs := by
  match s with
  | .edit (.append blob) =>
    obtain ⟨v, w, p, run, level, pruned, same, compression, file⟩ := pruned_append ok.level ok.pruned allows
    refine ⟨v, w, qs ++ [p], run, level, pruned, kept_snoc ok.kept file, ?_, ?_⟩
    · exact ok.discarded.trans (by simp [Step.effect, Edit.effect])
    · simp only [Step.effect, Edit.effect]
      rw [drop_append_of_le_length ok.discarded, encode_eq compression, map_append, ok.stored]
      simp [same]
  | .edit (.truncate items) =>
    by_cases few : t.items ≤ items
    · refine ⟨t, u, qs, by rw [step, edit, truncate, if_pos few], ?_⟩
      rw [Step.effect, Edit.effect, take_of_length_le (sound_items ok ▸ few)]
      exact ok
    · obtain ⟨rfl, rfl⟩ := allows.resolve_right few
      obtain rfl := pruned_eq ok.level ok.pruned
      obtain ⟨v, run, level, compression⟩ := truncate_level ok.level (Nat.lt_of_not_le few)
      refine ⟨v, v, qs.take items, by rw [step, edit, run], level, pruned_self level,
        ⟨.inl ⟨rfl, rfl⟩, fun _ _ _ => rfl, fun _ _ => zero_le _⟩, zero_le _, ?_⟩
      have stored := ok.stored
      rw [drop_zero] at stored
      rw [Step.effect, Edit.effect, drop_zero, encode_eq compression, map_take, stored, map_take]
  | .reopen =>
    obtain ⟨v, w, run, level, pruned, compression⟩ :=
      leftover_opens (pruned_leftover ok.level ok.pruned ok.kept) t.maxFileSize t.noCompression
    refine ⟨v, w, qs, run, level, pruned, ok.kept, ok.discarded, ?_⟩
    exact blobs_eq (compression.trans ok.pruned.noCompression) ok.stored

theorem steps_sound (ok : Sound x o tail t blobs u qs) (ss : List Step) (allows : t.AllowsAll x o tail ss) :
    ∃ v w rs, t.steps x ss = some v ∧ Sound x o tail v (ss.foldl Step.effect blobs) w rs := by
  induction ss generalizing t blobs u qs with
  | nil => exact ⟨t, u, qs, rfl, ok⟩
  | cons s ss ih =>
    obtain ⟨v, w, rs, step, next⟩ := step_sound ok allows.1
    obtain ⟨z, y, zs, run, done⟩ := ih next (allows.2 v step)
    exact ⟨z, y, zs, by rw [steps, step, bind_some, run], done⟩

theorem chained_from {e : IndexEntry} {p : Placed} (chain : Chained e ps) (member : p ∈ ps) : e.filenum ≤ p.file := by
  obtain ⟨before, after, rfl⟩ := append_of_mem member
  obtain ⟨first, second⟩ := chained_append.mp chain
  have lower := (chained_tip first).1
  rcases second.1 with ⟨same, -⟩ | ⟨later, -⟩ <;> omega

theorem discard_kept (ok : Level t ps) (discardable : t.Discardable o tail) :
    Kept o tail (ps.drop o) ∧ Chained zeroEntry (ps.drop o) ∧ tip zeroEntry (ps.drop o) = tip zeroEntry ps ∧
      o ≤ ps.length := by
  rcases discardable with ⟨rfl, rfl⟩ | ⟨inside, small, bounds, at_, start, file, number⟩
  · exact ⟨⟨.inl ⟨rfl, rfl⟩, fun _ _ _ => rfl, fun _ _ => zero_le _⟩, ok.chain, rfl, zero_le _⟩
  · rw [ok.items] at inside
    have parts : ps.drop o = ps.get ⟨o, inside⟩ :: ps.drop (o + 1) := drop_eq_getElem_cons inside
    have split := split_at inside
    have found := get_bounds_at ok.index ok.chain ok.narrow inside
    rw [mem_def.mp at_, some.injEq] at found
    subst found
    have chain := ok.chain
    rw [split, chained_append] at chain
    generalize ps.get ⟨o, inside⟩ = p at *
    have begins : p.start = 0 := start
    have follows : p.Follows zeroEntry := by
      rcases Nat.eq_zero_or_pos p.file with first | later
      · exact .inl ⟨first, begins⟩
      · exact .inr ⟨later, begins⟩
    rw [parts]
    refine ⟨⟨.inr ⟨small, nofun⟩, fun q first => ?_, fun q member => ?_⟩, ⟨follows, chain.2.2⟩, ?_, inside.le⟩
    · obtain rfl : p = q := some.inj first
      exact number
    · rcases mem_cons.mp member with rfl | later
      · exact file
      · exact file.trans (chained_from chain.2.2 later)
    · have ends := congrArg (tip zeroEntry) split
      rw [tip_append] at ends
      exact ends.symm

theorem discard_leftover (ok : Level t ps) (discardable : t.Discardable o tail) :
    Leftover o tail (ps.drop o) (t.index.relabel o tail (o + 1)) fun id => if id < tail then none else t.disk id := by
  obtain ⟨kept, chain, last, -⟩ := discard_kept ok discardable
  have below : tail ≤ t.headId := by
    rcases kept.some_ with ⟨-, rfl⟩ | ⟨-, some_⟩
    · exact zero_le _
    · obtain ⟨p, member⟩ := exists_mem_of_ne_nil _ some_
      exact (kept.files p member).trans ((chained_mem chain member).1.trans (by rw [last, ok.head]))
  have there {id : Nat} (large : tail ≤ id) : (if id < tail then none else t.disk id) = t.disk id := if_neg (not_lt.mpr large)
  refine ⟨kept, chain, fun p member => ok.narrow p (mem_of_mem_drop member), ?_, ?_, fun id large small => ?_,
    fun p member => ?_, ?_⟩
  · rw [File.relabel, ok.indexed, index_bytes_drop, map_drop]
    rfl
  · rw [last, ← ok.head]
    exact below
  · rw [last, ← ok.head] at small
    rw [there large]
    exact (ok.opened id small).2
  · rw [there (kept.files p member)]
    exact ok.held p (mem_of_mem_drop member)
  · obtain ⟨f, at_⟩ := ok.headFile
    refine ⟨f, ?_, ?_⟩
    · rw [last, ← ok.head, there below, at_]
    · rw [last, ok.clean f at_, ok.headBytes, if_pos ok.head.symm]

-- Whatever is appended after the discard, and however often the table is opened again, every item that
-- was not discarded reads back as it was appended.
theorem discarded_tail_reads (lawful : x.Lawful) (maxFileSize : Nat) (noCompression : Bool) (es : List Edit) (o tail : Nat)
    (takes : ∀ created ∈ newCustomTable .empty (fun _ => none) maxFileSize noCompression,
      created.TakesAll x es ∧ ∀ t ∈ created.edits x es, t.Discardable o tail) :
    ∃ created t opened, newCustomTable .empty (fun _ => none) maxFileSize noCompression = some created ∧
      created.edits x es = some t ∧ t.discard o tail = some opened ∧
      ∀ ss, opened.AllowsAll x o tail ss →
        ∃ v, opened.steps x ss = some v ∧ v.ReadsFrom x o (ss.foldl Step.effect (edited [] es)) := by
  obtain ⟨created, new, intact, clean, -, -, headId⟩ := new_table_empty maxFileSize noCompression
  obtain ⟨room, discardable⟩ := takes created new
  obtain ⟨t, ps, run, level, stored⟩ := @edits_level x _ [] [] ⟨⟨intact, clean⟩, headId⟩ rfl es room
  obtain ⟨kept, -, -, few⟩ := discard_kept level (discardable t run)
  obtain ⟨opened, u, opens, left, pruned, compression⟩ :=
    leftover_opens (discard_leftover level (discardable t run)) t.maxFileSize t.noCompression
  have length := placed_length stored
  have sound : Sound x o tail opened (edited [] es) u (ps.drop o) := by
    refine ⟨left, pruned, kept, length ▸ few, ?_⟩
    rw [encode_eq compression, map_drop, stored, map_drop]
  refine ⟨created, t, opened, new, run, opens, fun ss allows => ?_⟩
  obtain ⟨v, w, rs, ran, done⟩ := steps_sound sound ss allows
  exact ⟨v, ran, pruned_reads done.level done.pruned lawful done.kept done.discarded done.stored⟩

theorem two_discarded_read : ∃ created t opened v, newCustomTable .empty (fun _ => none) 4 true = some created ∧
      created.edits plain [.append [1, 1], .append [2, 2], .append [3, 3], .append [4, 4]] = some t ∧ t.discard 2 1 = some opened ∧
      opened.steps plain [.edit (.append [5, 5]), .reopen, .edit (.truncate 5)] = some v ∧ v.items = 5 ∧
      v.retrieve plain 1 = .error .outOfBounds ∧ v.retrieve plain 2 = .ok [3, 3] ∧ v.retrieve plain 4 = .ok [5, 5] := by
  obtain ⟨created, t, opened, new, run, opens, reads⟩ := discarded_tail_reads plain_lawful 4 true
    [.append [1, 1], .append [2, 2], .append [3, 3], .append [4, 4]] 2 1 (by decide +kernel)
  have allowed : ∀ created ∈ newCustomTable .empty (fun _ => none) 4 true,
      ∀ t ∈ created.edits plain [.append [1, 1], .append [2, 2], .append [3, 3], .append [4, 4]], ∀ opened ∈ t.discard 2 1,
        opened.AllowsAll plain 2 1 [.edit (.append [5, 5]), .reopen, .edit (.truncate 5)] := by decide +kernel
  obtain ⟨v, ran, done⟩ := reads _ (allowed created new t run opened opens)
  exact ⟨created, t, opened, v, new, run, opens, ran, done.items, done.outside 1 (by decide), done.inside 2 (by decide) (by decide),
    done.inside 4 (by decide) (by decide)⟩

-- One item in a file: with two of three discarded the read of the third starts at byte 2. With two of five items discarded
-- a truncation to three removes none: opened again, the table has five.
theorem discarded_tail_misread :
    (((newCustomTable .empty (fun _ => none) 3 true).bind (·.edits plain [.append [1, 1, 1], .append [2, 2, 2], .append [3, 4, 5]])).bind
        (·.discard 2 2)).map (fun t => (t.items, (t.retrieve plain 2).toOption)) = some (3, some [5]) ∧
      (((newCustomTable .empty (fun _ => none) 4 true).bind
          (·.edits plain [.append [1, 1], .append [2, 2], .append [3, 3], .append [4, 4], .append [5, 5]])).bind
        fun t => (t.discard 2 1).bind fun t => (t.edit plain (.truncate 3)).bind restart).map
          (fun t => (t.items, (t.retrieve plain 4).toOption)) = some (5, some [5, 5]) := by
  decide +kernel

end Running

end Didux.Rawdb
