import Didux.Rawdb.Durable

set_option autoImplicit false

namespace Didux.Rawdb

open Sport List Option Table Nat
open Table (zeroEntry)

inductive Edit where
  | append (blob : Bytes)
  | truncate (items : Nat)
deriving DecidableEq, Repr

def Edit.effect (blobs : List Bytes) : Edit → List Bytes
  | .append blob => blobs ++ [blob]
  | .truncate items => blobs.take items

def edited (blobs : List Bytes) (es : List Edit) : List Bytes := es.foldl Edit.effect blobs

def File.shorten (f : File) (size : Nat) : File := ⟨f.content.take size, 0, min f.synced size⟩

namespace Table

def edit (x : Snappy) (t : Table) : Edit → Option Table
  | .append blob => t.op x (.append blob)
  | .truncate items => match t.truncate items with
    | (u, none) => some u
    | (_, some _) => none

def edits (x : Snappy) (t : Table) : List Edit → Option Table
  | [] => some t
  | e :: es => (t.edit x e).bind fun u => u.edits x es

def Takes (x : Snappy) (t : Table) : Edit → Prop
  | .append blob => (t.encode x blob).length < 2 ^ 32 ∧
      (if t.overflows (t.encode x blob).length = true then t.headId + 1 else t.headId) < 2 ^ 16
  | .truncate _ => True

def TakesAll (x : Snappy) (t : Table) : List Edit → Prop
  | [] => True
  | e :: es => t.Takes x e ∧ ∀ u ∈ t.edit x e, TakesAll x u es

instance (x : Snappy) (t : Table) : (e : Edit) → Decidable (t.Takes x e)
  | .append _ => inferInstanceAs (Decidable (_ ∧ _))
  | .truncate _ => isTrue trivial

instance decidableTakesAll (x : Snappy) (t : Table) : (es : List Edit) → Decidable (t.TakesAll x es)
  | [] => isTrue trivial
  | e :: es => have : DecidablePred fun u : Table => u.TakesAll x es := fun u => decidableTakesAll x u es
    inferInstanceAs (Decidable (t.Takes x e ∧ ∀ u ∈ t.edit x e, u.TakesAll x es))

-- What newCustomTable finds when the machine stopped with the index and the newest data file cut short.
def torn (t : Table) (index head : Nat) : Table :=
  ⟨0, t.noCompression, t.maxFileSize, (t.index.shorten index).seekEnd,
    fun id => (t.disk id).map fun f => if id = t.headId then f.shorten head else f, fun _ => none, 0, 0, 0, 0⟩

structure Survived (t : Table) (index head k : Nat) : Prop where
  inside : k ≤ t.items
  indexed : 0 < k → (k + 1) * indexEntrySize ≤ index
  data : ∀ i < k, ∀ bounds, t.getBounds i = some bounds → bounds.filenum = t.headId → bounds.endOffset ≤ head

structure Reads (x : Snappy) (t : Table) (blobs : List Bytes) : Prop where
  items : t.items = blobs.length
  inside : ∀ i (small : i < blobs.length), t.retrieve x i = .ok (blobs.get ⟨i, small⟩)
  outside : ∀ i, blobs.length ≤ i → t.retrieve x i = .error .outOfBounds

def Restored (x : Snappy) (t : Table) (blobs : List Bytes) (index head : Nat) : Prop :=
  ∃ u k, (t.torn index head).repair = some u ∧ t.Survived index head k ∧ (∀ j, t.Survived index head j → j ≤ k) ∧
    u.Reads x (blobs.take k) ∧
    ∀ es, u.TakesAll x es → ∃ v, u.edits x es = some v ∧ v.Reads x (edited (blobs.take k) es)

end Table

section Editing

variable {x : Snappy} {t : Table} {ps : List Placed} {blobs : List Bytes}

structure Level (t : Table) (ps : List Placed) : Prop extends Tended t ps where
  head : t.headId = (tip zeroEntry ps).filenum

theorem truncate_level (ok : Level t ps) {k : Nat} (more : k < t.items) :
    ∃ u, t.truncate k = (u, none) ∧ Level u (ps.take k) ∧ u.noCompression = t.noCompression := by
  have inside : k ≤ ps.length := ok.items ▸ more.le
  obtain ⟨u, run, intact, clean, compression⟩ := truncate_loose ok.toLoose inside more
  obtain ⟨v, same, done⟩ := truncate_shape ok.toShape inside more
  obtain rfl : u = v := congrArg Prod.fst (run.symm.trans same)
  exact ⟨u, run, ⟨⟨intact, clean⟩, done.headId⟩, compression⟩

theorem edit_level (ok : Level t ps) (stored : ps.map Placed.blob = blobs.map (t.encode x)) {e : Edit} (takes : t.Takes x e) :
    ∃ u qs, t.edit x e = some u ∧ Level u qs ∧ qs.map Placed.blob = (e.effect blobs).map (u.encode x) := by
  cases e with
  | append blob =>
    obtain ⟨f, there⟩ := ok.headFile
    have fits : t.Fits x blob := ⟨takes.1, takes.2, .inl ok.clean⟩
    obtain ⟨p, same, file, grown, clean⟩ := grown_intact ok.toIntact ok.clean there fits
    refine ⟨t.grown x f blob, ps ++ [p], op_append ok.toIntact there fits, ⟨⟨grown, clean⟩, ?_⟩, blobs_eq grown_kept.1 ?_⟩
    · rw [tip_snoc]
      exact file.symm
    · simp only [Edit.effect, map_append, stored, map_cons, map_nil, same]
  | truncate items =>
    by_cases few : t.items ≤ items
    · have length : blobs.length ≤ items := stored_items ⟨ps, ok.toIntact, stored⟩ ▸ few
      refine ⟨t, ps, by rw [edit, truncate, if_pos few], ok, ?_⟩
      rw [Edit.effect, take_of_length_le length]
      exact stored
    · obtain ⟨u, run, level, compression⟩ := truncate_level ok (Nat.lt_of_not_le few)
      refine ⟨u, ps.take items, by rw [edit, run], level, blobs_eq compression ?_⟩
      rw [Edit.effect, map_take, stored, map_take]

theorem edits_level (ok : Level t ps) (stored : ps.map Placed.blob = blobs.map (t.encode x)) (es : List Edit)
    (takes : t.TakesAll x es) :
    ∃ u qs, t.edits x es = some u ∧ Level u qs ∧ qs.map Placed.blob = (edited blobs es).map (u.encode x) := by
  induction es generalizing t ps blobs with
  | nil => exact ⟨t, ps, rfl, ok, stored⟩
  | cons e es ih =>
    obtain ⟨u, qs, step, level, same⟩ := edit_level ok stored takes.1
    obtain ⟨v, rs, run, done, all⟩ := ih level same (takes.2 u step)
    exact ⟨v, rs, by rw [edits, step, bind_some, run], done, all⟩

theorem level_reads (lawful : x.Lawful) (ok : Level t ps) (stored : ps.map Placed.blob = blobs.map (t.encode x)) :
    t.Reads x blobs := by
  have items : t.items = blobs.length := stored_items ⟨ps, ok.toIntact, stored⟩
  refine ⟨items, fun i small => retrieve_placed lawful ok.toLoose stored small, fun i outside => ?_⟩
  rw [retrieve, if_pos (items ▸ outside)]

end Editing

section Tearing

variable {x : Snappy} {t : Table} {ps : List Placed} {index head k : Nat}

theorem torn_disk {id : Nat} {f : File} (there : t.disk id = some f) :
    (t.torn index head).disk id = some (if id = t.headId then f.shorten head else f) := congrArg (Option.map _) there

theorem torn_held (ok : Loose t ps) {p : Placed} (member : p ∈ ps) (left : p.file = t.headId → p.stop ≤ head) :
    ∃ f, (t.torn index head).disk p.file = some f ∧ p.Held f ∧ p.stop ≤ f.content.length := by
  obtain ⟨f, there, held⟩ := ok.held p member
  have stop := ok.inside member there
  refine ⟨_, torn_disk there, ?_⟩
  by_cases newest : p.file = t.headId
  · rw [if_pos newest]
    refine ⟨held_take held (left newest) ⟨[], append_nil _⟩, ?_⟩
    rw [File.shorten, length_take]
    exact le_min (left newest) stop
  · rw [if_neg newest]
    exact ⟨held, stop⟩

theorem survived_iff (ok : Intact t ps) : t.Survived index head k ↔ k ≤ ps.length ∧ (0 < k → (k + 1) * indexEntrySize ≤ index) ∧
      ∀ p ∈ ps.take k, p.file = t.headId → p.stop ≤ head := by
  have bounds {i : Nat} (small : i < ps.length) := get_bounds_at ok.index ok.chain ok.narrow small
  refine ⟨fun survived => ⟨ok.items ▸ survived.inside, survived.indexed, fun p member newest => ?_⟩,
    fun ⟨inside, indexed, data⟩ => ⟨ok.items ▸ inside, indexed, fun i small b at_ newest => ?_⟩⟩
  · obtain ⟨i, small, rfl⟩ := mem_iff_getElem.mp member
    obtain ⟨below, within⟩ := lt_min_iff.mp (length_take ▸ small)
    rw [getElem_take] at newest ⊢
    exact survived.data i below _ (bounds within) newest
  · have within : i < ps.length := small.trans_le inside
    obtain rfl := some.inj ((bounds within).symm.trans at_)
    refine data _ ?_ newest
    exact mem_take_iff_getElem.mpr ⟨i, lt_min small within, rfl⟩

theorem torn_index (head : Nat) (ok : Intact t ps) (whole : ¬ (0 < index ∧ index < indexEntrySize)) :
    ∃ n, (repairIndex (t.torn index head).index).content = indexBytes (entries (ps.take n)) ∧
      (repairIndex (t.torn index head).index).position = (repairIndex (t.torn index head).index).content.length ∧
      n ≤ ps.length ∧ ∀ k ≤ ps.length, (0 < k → (k + 1) * indexEntrySize ≤ index) ↔ k ≤ n := by
  have content : (t.torn index head).index.content = (indexBytes (entries ps)).take index := by
    rw [← ok.indexed]
    rfl
  rcases Nat.eq_zero_or_pos index with rfl | some_
  · have empty : (t.torn 0 head).index.content = [] := by rw [content, take_zero]
    have position : (t.torn 0 head).index.position = (t.torn 0 head).index.content.length := rfl
    obtain ⟨grown, atEnd⟩ := @write_at_end _ zeroEntry.marshallBinary position
    refine ⟨0, ?_, ?_, zero_le _, fun k _ => ⟨fun long => ?_, fun none pos => absurd pos (not_lt.mpr none)⟩⟩
    · rw [repairIndex, empty, if_pos length_nil, grown, empty]
      rfl
    · rw [repairIndex, empty, if_pos length_nil]
      exact atEnd
    · by_contra pos
      have := long (Nat.lt_of_not_le pos)
      rw [indexEntrySize] at this
      omega
  · have first : indexEntrySize ≤ index := Nat.le_of_not_lt fun short => whole ⟨some_, short⟩
    obtain ⟨n, indexed, indexEnd, ⟨inside, within⟩, enough⟩ := repair_index_cut content first rfl
    refine ⟨n, indexed, indexEnd, inside, fun k fewer => ⟨fun long => ?_, fun small _ => ?_⟩⟩
    · rcases Nat.eq_zero_or_pos k with rfl | pos
      · exact zero_le n
      · exact enough k fewer (long pos)
    · exact (mul_le_mul_right _ (succ_le_succ small)).trans within

theorem torn_found (head : Nat) (ok : Intact t ps) (whole : ¬ (0 < index ∧ index < indexEntrySize)) :
    ∃ n ≤ ps.length, (∀ k ≤ ps.length, (0 < k → (k + 1) * indexEntrySize ≤ index) ↔ k ≤ n) ∧
      ∀ k, t.Survived index head k → Found (t.torn index head) (ps.take n) k := by
  obtain ⟨n, indexed, indexEnd, inside, entries⟩ := torn_index head ok whole
  refine ⟨n, inside, entries, fun k survived => ?_⟩
  obtain ⟨few, long, data⟩ := (survived_iff ok).mp survived
  refine cut_found ok (fun _ => rfl) ((entries k few).mp long) few indexed indexEnd
    (fun p member => torn_held ok.toLoose (mem_of_mem_take member) (data p member)) fun id f there => ?_
  rw [torn_disk there]
  rfl

theorem reopened_survived (ok : Level t ps) {u : Table} {n j : Nat} (done : Reopened (t.torn index head) u (ps.take n) k j)
    (inside : n ≤ ps.length) (indexed : ∀ k ≤ ps.length, (0 < k → (k + 1) * indexEntrySize ≤ index) ↔ k ≤ n) :
    t.Survived index head j := by
  have within : j ≤ n := done.inside.trans (length_take_le n ps)
  have first : (ps.take n).take j = ps.take j := by rw [take_take, min_eq_left within]
  refine (survived_iff ok.toIntact).mpr ⟨within.trans inside, (indexed j (within.trans inside)).mpr within, fun p member newest => ?_⟩
  obtain ⟨file, stop⟩ := chained_mem (chained_take ok.chain j) member
  have last : (tip zeroEntry (ps.take j)).filenum = t.headId :=
    le_antisymm (shape_take ok.toShape j).below (newest ▸ file)
  have headId : u.headId = t.headId := by rw [done.headId, first, last]
  obtain ⟨g, there⟩ := done.shape.headFile
  have size : g.content.length = (tip zeroEntry (ps.take j)).offset := by
    rw [done.clean g there, done.headBytes, first]
  obtain ⟨f, before⟩ := ok.headFile
  have short := done.shrunk u.headId g there
  rw [headId, torn_disk before, if_pos rfl, getD_some, File.shorten, length_take, size] at short
  exact (stop (newest.trans last.symm)).trans (short.trans (min_le_left _ _))

theorem torn_repaired (head : Nat) (ok : Level t ps) (whole : ¬ (0 < index ∧ index < indexEntrySize)) :
    ∃ u k, (t.torn index head).repair = some u ∧ t.Survived index head k ∧ (∀ j, t.Survived index head j → j ≤ k) ∧
      Level u (ps.take k) ∧ u.noCompression = t.noCompression := by
  obtain ⟨n, inside, entries, found⟩ := torn_found head ok.toIntact whole
  have nothing : t.Survived index head 0 := ⟨zero_le _, fun none => absurd none (lt_irrefl 0), fun i none => absurd none (not_lt_zero i)⟩
  obtain ⟨u, k, run, done⟩ := repair_found (found 0 nothing)
  have survived : t.Survived index head k := reopened_survived ok done inside entries
  -- every prefix that survived gives the same table
  have longest {j : Nat} (other : t.Survived index head j) : ∃ i, j ≤ i ∧ Reopened (t.torn index head) u (ps.take n) j i ∧ i = k := by
    obtain ⟨v, i, same, again⟩ := repair_found (found j other)
    obtain rfl : u = v := some.inj (run.symm.trans same)
    exact ⟨i, again.enough, again, again.items.symm.trans done.items⟩
  obtain ⟨i, -, all, rfl⟩ := longest survived
  have within : i ≤ n := all.inside.trans (length_take_le n ps)
  have first : (ps.take n).take i = ps.take i := by rw [take_take, min_eq_left within]
  have intact := reopened_intact all
  have headId := all.headId
  rw [first] at intact headId
  refine ⟨u, i, run, survived, fun j other => ?_, ⟨⟨intact, all.clean⟩, headId⟩, all.noCompression⟩
  obtain ⟨m, few, -, rfl⟩ := longest other
  exact few

theorem uncounted_preopen {f : File} (opened : t.files 0 = some .readWrite) (there : t.disk 0 = some f) (tail : t.tailId = 0)
    (whole : t.itemOffset = 0) (headBytes : Nat) : ∃ v u, ({ t with headId := 0 } : Table).sync = some v ∧
      preopen { v with items := countItems v.itemOffset 0, headBytes := headBytes } = some u ∧ u.items = maxUint64 := by
  have count : countItems 0 0 = maxUint64 := by decide
  simp [sync, onHead, opened, there, preopen, releaseFilesAfter, tail, whole, preopenRange,
    openFile, count]

theorem emptied_repair (t : Table) (closed : t.files 0 = none) (empty : (repairIndex t.index).content = []) :
    ∃ u, t.repair = some u ∧ u.items = maxUint64 := by
  have unread (i : Nat) : (repairIndex t.index).entry i = none := by simp [File.entry, File.readAt, empty, indexEntrySize]
  have entered : ({ t with index := repairIndex t.index, tailId := 0, itemOffset := 0 } : Table).openFile 0 .forAppend =
      some (t.entered zeroEntry) :=
    open_for_append (t := { t with index := repairIndex t.index, tailId := 0, itemOffset := 0 }) closed
  have head : (t.entered zeroEntry).disk 0 = some (t.headFile 0) := by simp [Table.entered, zeroEntry]
  have opened : (t.entered zeroEntry).files 0 = some .readWrite := by simp [Table.entered, zeroEntry]
  obtain ⟨v, f, loop, there, files, tail, whole⟩ : ∃ v f,
      (t.entered zeroEntry).repairLoop 0 zeroEntry (t.headFile 0).content.length = some (v, zeroEntry, 0, 0) ∧
        v.disk 0 = some f ∧ v.files 0 = some .readWrite ∧ v.tailId = 0 ∧ v.itemOffset = 0 := by
    rw [repairLoop.eq_def]
    rcases Nat.eq_zero_or_pos (t.headFile 0).content.length with none | some_
    · rw [none, if_pos (show zeroEntry.offset = 0 from rfl)]
      exact ⟨_, _, rfl, head, opened, rfl, rfl⟩
    · have start : zeroEntry.offset = 0 := rfl
      have number : zeroEntry.filenum = 0 := rfl
      rw [start, number, if_neg some_.ne, if_pos some_]
      simp only [onHead, opened, head]
      exact ⟨_, (t.headFile 0).truncate 0, rfl, by simp, opened, rfl, rfl⟩
  obtain ⟨w, u, synced, done, items⟩ := uncounted_preopen files there tail whole (uint32 0)
  refine ⟨u, ?_, items⟩
  simp only [Table.repair, unread, Option.getD_none, empty, List.length_nil, Nat.zero_div, Option.bind_eq_bind]
  rw [show zeroEntry.offset = 0 from rfl, show zeroEntry.filenum = 0 from rfl, entered, Option.bind_some, head, Option.bind_some, loop,
    bind_some]
  simp only [show zeroEntry.filenum = 0 from rfl, synced, bind_some]
  exact done

theorem torn_emptied (t : Table) (some_ : 0 < index) (short : index < indexEntrySize) (long : indexEntrySize ≤ t.index.content.length) :
    (repairIndex (t.torn index head).index).content = [] := by
  have size : (t.torn index head).index.content.length = index := by
    have cut : (t.torn index head).index.content = t.index.content.take index := rfl
    rw [cut, length_take, min_eq_left (short.le.trans long)]
  rw [Table.repairIndex, size, if_neg some_.ne', Nat.mod_eq_of_lt short, if_pos some_.ne', Nat.sub_self, truncate_content (Nat.zero_le _),
    take_zero]

-- A crash that leaves between one and five bytes of the index is the only one repair does not undo.
theorem torn_table_restored_iff (lawful : x.Lawful) (maxFileSize : Nat) (noCompression : Bool) (es : List Edit)
    (takes : ∀ created ∈ newCustomTable .empty (fun _ => none) maxFileSize noCompression, created.TakesAll x es) (index head : Nat) :
    ∃ created t, newCustomTable .empty (fun _ => none) maxFileSize noCompression = some created ∧ created.edits x es = some t ∧
      (t.Restored x (edited [] es) index head ↔ ¬ (0 < index ∧ index < indexEntrySize)) := by
  obtain ⟨created, opened, intact, clean, -, -, headId⟩ := new_table_empty maxFileSize noCompression
  obtain ⟨t, ps, run, level, stored⟩ := @edits_level x _ [] [] ⟨⟨intact, clean⟩, headId⟩ rfl es (takes created opened)
  refine ⟨created, t, opened, run, fun restored torn => ?_, fun whole => ?_⟩
  · obtain ⟨u, k, repaired, survived, -, reads, -⟩ := restored
    have long : indexEntrySize ≤ t.index.content.length := by
      rw [level.indexed, length_index_bytes]
      exact Nat.le_mul_of_pos_left _ (Nat.succ_pos _)
    obtain ⟨v, again, items⟩ := emptied_repair (t.torn index head) rfl (torn_emptied t torn.1 torn.2 long)
    obtain rfl : u = v := some.inj (repaired.symm.trans again)
    have none : k = 0 := by
      by_contra some_
      have entries := survived.indexed (pos_of_ne_zero some_)
      exact absurd ((Nat.le_mul_of_pos_left indexEntrySize (Nat.succ_pos k)).trans entries) (Nat.not_le.mpr torn.2)
    have few := reads.items
    rw [items, none, take_zero] at few
    exact absurd few (by decide)
  · obtain ⟨u, k, repaired, survived, longest, done, compression⟩ := torn_repaired head level whole
    have kept : (ps.take k).map Placed.blob = ((edited [] es).take k).map (u.encode x) := by
      rw [encode_eq compression, map_take, stored, map_take]
    refine ⟨u, k, repaired, survived, longest, level_reads lawful done kept, fun later room => ?_⟩
    obtain ⟨v, qs, ran, final, all⟩ := edits_level done kept later room
    exact ⟨v, ran, level_reads lawful final all⟩

theorem torn_second_file_restored : ∃ created t u, newCustomTable .empty (fun _ => none) 3 true = some created ∧
      created.edits plain [.append [1, 2], .append [3], .truncate 1, .append [4, 5]] = some t ∧
      (t.torn 16 1).repair = some u ∧ u.items = 1 ∧ u.retrieve plain 0 = .ok [1, 2] := by
  obtain ⟨created, t, opened, run, restored⟩ := torn_table_restored_iff plain_lawful 3 true
    [.append [1, 2], .append [3], .truncate 1, .append [4, 5]] (by decide +kernel) 16 1
  obtain ⟨u, k, repaired, -, -, reads, -⟩ := restored.mpr (by decide)
  have counted : ((newCustomTable .empty (fun _ => none) 3 true).bind fun created =>
      (created.edits plain [.append [1, 2], .append [3], .truncate 1, .append [4, 5]]).bind fun t =>
        (t.torn 16 1).repair.map items) = some 1 := by decide +kernel
  rw [opened, bind_some, run, bind_some, repaired] at counted
  have items : u.items = 1 := some.inj counted
  obtain rfl : k = 1 := by
    have length := reads.items
    rw [items, length_take, show (edited [] _).length = 2 from rfl] at length
    omega
  exact ⟨created, t, u, opened, run, repaired, items, reads.inside 0 (by decide)⟩

-- Three bytes of the index are left: the reopened table counts 2 ^ 64 - 1 items and takes no further item.
theorem torn_first_entry_counts_wrong :
    ((newCustomTable .empty (fun _ => none) 100 true).bind fun created => (created.edits plain [.append [1, 2]]).bind fun t =>
        (t.torn 3 2).repair.map fun u => (u.items, (u.retrieve plain 0).toOption, (u.append plain 0 [1, 2] .whole .whole).2)) =
      some (2 ^ 64 - 1, none, some (.unexpectedItem (2 ^ 64 - 1) 0)) := by
  decide +kernel

end Tearing

end Didux.Rawdb
