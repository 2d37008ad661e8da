import Didux.Rawdb.Table

set_option autoImplicit false

namespace Didux.Rawdb

open Sport Function List Option Table Nat
open Table (zeroEntry)

structure Placed where
  file : Nat
  start : Nat
  blob : Bytes
deriving DecidableEq, Repr

namespace Placed

def stop (p : Placed) : Nat := p.start + p.blob.length

def entry (p : Placed) : IndexEntry := ⟨p.file, p.stop⟩

def Held (p : Placed) (f : File) : Prop := (f.content.drop p.start).take p.blob.length = p.blob

def Follows (e : IndexEntry) (p : Placed) : Prop :=
  (p.file = e.filenum ∧ p.start = e.offset) ∨ (e.filenum < p.file ∧ p.start = 0)

end Placed

def Chained : IndexEntry → List Placed → Prop
  | _, [] => True
  | e, p :: ps => p.Follows e ∧ Chained p.entry ps

def tip : IndexEntry → List Placed → IndexEntry
  | e, [] => e
  | _, p :: ps => tip p.entry ps

def entries (ps : List Placed) : List IndexEntry := zeroEntry :: ps.map Placed.entry

def indexBytes (es : List IndexEntry) : Bytes := es.flatMap IndexEntry.marshallBinary

section Chain

variable {e : IndexEntry} {p : Placed} {ps qs : List Placed}

theorem chained_append : Chained e (ps ++ qs) ↔ Chained e ps ∧ Chained (tip e ps) qs := by
  induction ps generalizing e with
  | nil => simp [Chained, tip]
  | cons p ps ih => simp [Chained, tip, ih, and_assoc]

theorem tip_append : tip e (ps ++ qs) = tip (tip e ps) qs := by
  induction ps generalizing e with
  | nil => rfl
  | cons p ps ih => simp [tip, ih]

theorem tip_snoc : tip e (ps ++ [p]) = p.entry := tip_append

theorem chained_tip (chain : Chained e ps) :
    e.filenum ≤ (tip e ps).filenum ∧ (e.filenum = (tip e ps).filenum → e.offset ≤ (tip e ps).offset) := by
  induction ps generalizing e with
  | nil => exact ⟨le_rfl, fun _ => le_rfl⟩
  | cons p ps ih =>
    obtain ⟨later, inside⟩ := ih chain.2
    have stop : p.entry.offset = p.start + p.blob.length := rfl
    have file : p.entry.filenum = p.file := rfl
    rcases chain.1 with ⟨same, start⟩ | ⟨next, start⟩
    · refine ⟨by simp only [tip]; omega, fun eq => ?_⟩
      have := inside (by simp only [tip] at eq; omega)
      simp only [tip]
      omega
    · refine ⟨by simp only [tip]; omega, fun eq => ?_⟩
      simp only [tip] at eq
      omega

theorem chained_mem (chain : Chained e ps) (member : p ∈ ps) :
    p.file ≤ (tip e ps).filenum ∧ (p.file = (tip e ps).filenum → p.stop ≤ (tip e ps).offset) := by
  obtain ⟨before, after, rfl⟩ := append_of_mem member
  rw [tip_append]
  exact chained_tip (chained_append.mp chain).2.2

theorem entries_getElem (before after : List Placed) :
    (entries (before ++ after))[before.length]? = some (tip zeroEntry before) := by
  induction before using reverseRecOn with
  | nil => rfl
  | append_singleton before p _ =>
    rw [tip_snoc]
    simp [entries]

end Chain

section Bytes

variable {f : File} {es : List IndexEntry}

theorem index_bytes_take (k : Nat) : (indexBytes es).take (k * indexEntrySize) = indexBytes (es.take k) := by
  induction es generalizing k with
  | nil => simp [indexBytes]
  | cons e es ih =>
    cases k with
    | zero => simp [indexBytes]
    | succ k =>
      have size : (k + 1) * indexEntrySize = e.marshallBinary.length + k * indexEntrySize := by
        rw [IndexEntry.length_marshall_binary]; ring
      simp only [indexBytes, flatMap_cons, take_succ_cons] at ih ⊢
      rw [size, take_length_add_append, ih]

theorem length_index_bytes : (indexBytes es).length = es.length * indexEntrySize := by
  induction es with
  | nil => rfl
  | cons e es ih =>
    simp only [indexBytes, flatMap_cons, length_append, length_cons] at ih ⊢
    rw [ih, IndexEntry.length_marshall_binary]
    ring

theorem index_bytes_drop (k : Nat) : (indexBytes es).drop (k * indexEntrySize) = indexBytes (es.drop k) := by
  have parts : indexBytes es = indexBytes (es.take k) ++ indexBytes (es.drop k) := by
    rw [indexBytes, indexBytes, indexBytes, ← flatMap_append, take_append_drop]
  have same := take_append_drop (k * indexEntrySize) (indexBytes es)
  rw [index_bytes_take] at same
  exact append_cancel_left (same.trans parts)

theorem entry_of_index_bytes {i : Nat} {e : IndexEntry} (stored : indexBytes es <+: f.content) (at_ : es[i]? = some e)
    (number : e.filenum < 2 ^ 16) (offset : e.offset < 2 ^ 32) : f.entry i = some e := by
  obtain ⟨rest, content⟩ := stored
  have here : es.drop i = e :: es.drop (i + 1) := by
    obtain ⟨inside, rfl⟩ := List.getElem?_eq_some_iff.mp at_
    exact drop_eq_getElem_cons inside
  have long : i * indexEntrySize ≤ (indexBytes es).length := by
    rw [length_index_bytes]
    exact Nat.mul_le_mul_right _ (List.getElem?_eq_some_iff.mp at_).1.le
  have bytes : (f.content.drop (i * indexEntrySize)).take indexEntrySize = e.marshallBinary := by
    rw [← content, drop_append_of_le_length long, index_bytes_drop, here]
    rw [← e.length_marshall_binary]
    exact take_left
  rw [File.entry, File.readAt]
  simp only [bytes]
  exact IndexEntry.unmarshal_marshall e number offset

@[simp] theorem length_truncate (f : File) (size : Nat) : (f.truncate size).content.length = size := by
  simp only [File.truncate, length_append, length_take, length_replicate]
  omega

theorem truncate_content {size : Nat} (inside : size ≤ f.content.length) : (f.truncate size).content = f.content.take size := by
  simp [File.truncate, Nat.sub_eq_zero_of_le inside]

theorem write_at_end {bytes : Bytes} (atEnd : f.position = f.content.length) :
    (f.write bytes).content = f.content ++ bytes ∧ (f.write bytes).position = (f.write bytes).content.length := by
  have grown : (f.write bytes).content = f.content ++ bytes := by simp [File.write, atEnd]
  refine ⟨grown, ?_⟩
  rw [grown, length_append, ← atEnd]
  rfl

end Bytes

section Held

variable {p : Placed} {f g : File}

variable (held : p.Held f)

include held

theorem held_append (grown : f.content <+: g.content) : p.Held g := by
  obtain ⟨rest, content⟩ := grown
  have long : p.blob.length ≤ (f.content.drop p.start).length := by
    have := congrArg length held
    simp only [length_take] at this
    omega
  rw [Placed.Held, ← content, drop_append, take_append_of_le_length long]
  exact held

theorem held_take {size : Nat} (inside : p.stop ≤ size) (cut : f.content.take size <+: g.content) : p.Held g := by
  have kept : p.Held { f with content := f.content.take size } := by
    have fits : min p.blob.length (size - p.start) = p.blob.length := by
      simp only [Placed.stop] at inside
      omega
    rw [Placed.Held, drop_take, take_take, fits]
    exact held
  exact held_append kept cut

theorem held_truncate {size : Nat} (inside : p.stop ≤ size) : p.Held (f.truncate size) :=
  held_take held inside ⟨_, rfl⟩

theorem held_read : f.readAt p.start p.blob.length = some p.blob := by
  rw [File.readAt]
  simp [show (f.content.drop p.start).take p.blob.length = p.blob from held]

end Held

def Placed.On (p : Placed) (t : Table) : Prop := ∃ f, t.disk p.file = some f ∧ p.Held f

structure Shape (t : Table) (ps : List Placed) : Prop where
  fewer : ps.length ≤ t.items
  whole : t.itemOffset = 0
  index : indexBytes (entries ps) <+: t.index.content
  chain : Chained zeroEntry ps
  narrow : ∀ p ∈ ps, p.file < 2 ^ 16 ∧ p.stop < 2 ^ 32
  opened : ∀ id ≤ t.headId, (t.files id).isSome ∧ (t.disk id).isSome
  closed : ∀ id, t.headId < id → t.files id = none
  writable : t.files t.headId = some .readWrite
  below : (tip zeroEntry ps).filenum ≤ t.headId

structure Loose (t : Table) (ps : List Placed) : Prop extends Shape t ps where
  held : ∀ p ∈ ps, p.On t

structure Intact (t : Table) (ps : List Placed) : Prop extends Loose t ps where
  items : t.items = ps.length
  indexed : t.index.content = indexBytes (entries ps)
  indexEnd : t.index.position = t.index.content.length
  headBytes : t.headBytes = if (tip zeroEntry ps).filenum = t.headId then (tip zeroEntry ps).offset else 0
  headEnd : ∀ f, t.disk t.headId = some f → f.position = f.content.length

def Table.Clean (t : Table) : Prop := ∀ f, t.disk t.headId = some f → f.content.length = t.headBytes

section Reading

variable {x : Snappy} {t : Table} {ps : List Placed}

theorem tip_narrow (narrow : ∀ p ∈ ps, p.file < 2 ^ 16 ∧ p.stop < 2 ^ 32) :
    (tip zeroEntry ps).filenum < 2 ^ 16 ∧ (tip zeroEntry ps).offset < 2 ^ 32 := by
  induction ps using reverseRecOn with
  | nil => exact ⟨Nat.two_pow_pos 16, Nat.two_pow_pos 32⟩
  | append_singleton ps p _ =>
    rw [tip_snoc]
    exact narrow p (by simp)

theorem index_entry (index : indexBytes (entries ps) <+: t.index.content) (narrow : ∀ p ∈ ps, p.file < 2 ^ 16 ∧ p.stop < 2 ^ 32)
    (before after : List Placed) (split : ps = before ++ after) : t.index.entry before.length = some (tip zeroEntry before) := by
  subst split
  obtain ⟨number, offset⟩ := tip_narrow fun p member => narrow p (mem_append_left after member)
  exact entry_of_index_bytes index (entries_getElem before after) number offset

theorem get_bounds_indexed (index : indexBytes (entries ps) <+: t.index.content) (chain : Chained zeroEntry ps)
    (narrow : ∀ p ∈ ps, p.file < 2 ^ 16 ∧ p.stop < 2 ^ 32) (before after : List Placed) (p : Placed)
    (split : ps = before ++ p :: after) : t.getBounds before.length = some ⟨p.start, p.stop, p.file⟩ := by
  have first := index_entry index narrow before (p :: after) split
  have second := index_entry index narrow (before ++ [p]) after (by simpa using split)
  rw [tip_snoc, length_append, length_singleton] at second
  rw [split] at chain
  have follows : p.Follows (tip zeroEntry before) := (chained_append.mp chain).2.1
  simp only [getBounds, first, second, bind_eq_bind, bind_some]
  rcases follows with ⟨file, start⟩ | ⟨file, start⟩
  · rw [if_neg (by simp [Placed.entry, file]), ← start]
    rfl
  · rw [if_pos (by simp only [Placed.entry]; omega), start]
    rfl

theorem split_at {i : Nat} (inside : i < ps.length) : ps = ps.take i ++ ps.get ⟨i, inside⟩ :: ps.drop (i + 1) := by
  rw [get_eq_getElem, ← drop_eq_getElem_cons inside, take_append_drop]

theorem get_bounds_at (index : indexBytes (entries ps) <+: t.index.content) (chain : Chained zeroEntry ps)
    (narrow : ∀ p ∈ ps, p.file < 2 ^ 16 ∧ p.stop < 2 ^ 32) {i : Nat} (inside : i < ps.length) :
    t.getBounds i = some ⟨(ps.get ⟨i, inside⟩).start, (ps.get ⟨i, inside⟩).stop, (ps.get ⟨i, inside⟩).file⟩ := by
  have found := get_bounds_indexed index chain narrow _ _ _ (split_at inside)
  rwa [length_take_of_le inside.le] at found

theorem bounds_size (p : Placed) : (⟨p.start, p.stop, p.file⟩ : Table.Bounds).size = p.blob.length := by
  have ordered : p.start ≤ p.stop := le_add_right p.start p.blob.length
  rw [Table.Bounds.size, if_pos ordered]
  exact Nat.add_sub_cancel_left p.start p.blob.length

theorem retrieve_loose (ok : Loose t ps) (before after : List Placed) (p : Placed) (split : ps = before ++ p :: after)
    {blob : Bytes} (decoded : t.decode x p.blob = some blob) : t.retrieve x before.length = .ok blob := by
  have member : p ∈ ps := by rw [split]; simp
  obtain ⟨f, there, held⟩ := ok.held p member
  obtain ⟨access, isOpen⟩ := isSome_iff_exists.mp
    (ok.opened p.file ((chained_mem ok.chain member).1.trans ok.below)).1
  have inside : ¬ t.items ≤ before.length := by
    have := ok.fewer
    rw [split, length_append, length_cons] at this
    omega
  have read : t.readBlob ⟨p.start, p.stop, p.file⟩ = .ok p.blob := by
    have data : t.dataFile p.file = some f := by rw [dataFile, isOpen, bind_some, there]
    rw [readBlob, data]
    dsimp only
    rw [bounds_size, held_read held]
  rw [retrieve, if_neg inside, if_neg (by rw [ok.whole]; omega)]
  rw [ok.whole, Nat.sub_zero, get_bounds_indexed ok.index ok.chain ok.narrow before after p split]
  simp only [read, decoded]

theorem retrieve_reads {i : Nat} {p : Placed} {blob : Bytes} (read : t.retrieve x i = .ok blob) (whole : t.itemOffset = 0)
    (bounds : t.getBounds i = some ⟨p.start, p.stop, p.file⟩) :
    ∃ f, t.disk p.file = some f ∧ p.blob.length ≤ (f.content.drop p.start).length := by
  rw [retrieve] at read
  split at read
  · cases read
  · rw [whole, Nat.sub_zero, bounds] at read
    cases found : t.readBlob ⟨p.start, p.stop, p.file⟩ with
    | error e => simp only [found] at read; cases read
    | ok bytes =>
      rw [readBlob] at found
      cases data : t.dataFile p.file with
      | none => simp only [data] at found; cases found
      | some f =>
        obtain ⟨access, -, there⟩ := bind_eq_some_iff.mp data
        refine ⟨f, there, ?_⟩
        simp only [data, bounds_size] at found
        by_contra short
        have missing : f.readAt p.start p.blob.length = none := by
          rw [File.readAt]
          simp only [length_take, ite_eq_right_iff]
          omega
        rw [missing] at found
        cases found

end Reading

section Writing

variable {x : Snappy} {t : Table} {ps : List Placed}

theorem chained_inside {e : IndexEntry} (chain : Chained e ps) (held : ∀ p ∈ ps, p.On t)
    (start : ∀ f, t.disk e.filenum = some f → e.offset ≤ f.content.length) :
    ∀ p ∈ ps, ∀ f, t.disk p.file = some f → p.stop ≤ f.content.length := by
  induction ps generalizing e with
  | nil => nofun
  | cons q ps ih =>
    have here (f : File) (there : t.disk q.file = some f) : q.stop ≤ f.content.length := by
      obtain ⟨g, same, held⟩ := held q mem_cons_self
      obtain rfl : f = g := some.inj (there.symm.trans same)
      have long := congrArg length held
      rw [length_take, length_drop] at long
      rw [Placed.stop]
      rcases chain.1 with ⟨file, begins⟩ | ⟨-, begins⟩
      · have := start f (file ▸ there)
        omega
      · omega
    intro p member
    rcases mem_cons.mp member with rfl | later
    · exact here
    · exact ih chain.2 (fun p member => held p (mem_cons_of_mem q member)) here p later

theorem Loose.inside (ok : Loose t ps) {p : Placed} (member : p ∈ ps) {f : File} (there : t.disk p.file = some f) :
    p.stop ≤ f.content.length :=
  chained_inside ok.chain ok.held (fun _ _ => zero_le _) p member f there

theorem Shape.headFile (ok : Shape t ps) : ∃ f, t.disk t.headId = some f :=
  isSome_iff_exists.mp (ok.opened t.headId le_rfl).2

theorem on_head (writable : t.files t.headId = some .readWrite) {f : File} (there : t.disk t.headId = some f) (change : File → File) :
    t.onHead change = some { t with disk := update t.disk t.headId (some (change f)) } := by
  rw [onHead, writable, there]

theorem loose_grow (ok : Loose t ps) {f g : File} (there : t.disk t.headId = some f) (grown : f.content <+: g.content) :
    Loose { t with disk := update t.disk t.headId (some g) } ps where
  fewer := ok.fewer
  whole := ok.whole
  index := ok.index
  chain := ok.chain
  narrow := ok.narrow
  held p member := by
    obtain ⟨h, at_, held⟩ := ok.held p member
    by_cases same : p.file = t.headId
    · rw [same, there] at at_
      cases at_
      exact ⟨g, by simp [same], held_append held grown⟩
    · exact ⟨h, by simpa [same] using at_, held⟩
  opened id inside := by
    refine ⟨(ok.opened id inside).1, ?_⟩
    by_cases same : id = t.headId
    · simp [same]
    · simpa [same] using (ok.opened id inside).2
  closed := ok.closed
  writable := ok.writable
  below := ok.below

def Table.rolled (t : Table) (f : File) : Table :=
  { t with
    disk := update (update t.disk (t.headId + 1) (some .empty)) t.headId (some { f with position := 0 })
    files := update (update t.files (t.headId + 1) (some .readWrite)) t.headId (some .readOnly)
    headBytes := 0
    headId := t.headId + 1 }

theorem rollover_rolled (fresh : t.files (t.headId + 1) = none) {f : File} (there : t.disk t.headId = some f)
    (room : t.headId + 1 < 2 ^ 32) :
    t.rollover = some (t.rolled f) := by
  have next : uint32 (t.headId + 1) = t.headId + 1 := uint32_of_lt room
  simp [rollover, openFile, next, fresh, Opener.open, releaseFile, there, rolled]

theorem rolled_loose (ok : Loose t ps) {f : File} (there : t.disk t.headId = some f) : Loose (t.rolled f) ps where
  fewer := ok.fewer
  whole := ok.whole
  index := ok.index
  chain := ok.chain
  narrow := ok.narrow
  held p member := by
    obtain ⟨h, at_, held⟩ := ok.held p member
    have inside : p.file ≤ t.headId := (chained_mem ok.chain member).1.trans ok.below
    have other : p.file ≠ t.headId + 1 := by omega
    by_cases same : p.file = t.headId
    · rw [same, there] at at_
      cases at_
      exact ⟨{ f with position := 0 }, by simp [rolled, same], held⟩
    · exact ⟨h, by simpa [rolled, same, other] using at_, held⟩
  opened id inside := by
    have within : id ≤ t.headId + 1 := inside
    by_cases same : id = t.headId
    · simp [rolled, same]
    · by_cases next : id = t.headId + 1
      · simp [rolled, next]
      · simpa [rolled, same, next] using ok.opened id (by omega)
  closed id outside := by
    have beyond : t.headId + 1 < id := outside
    have first : id ≠ t.headId := by omega
    have second : id ≠ t.headId + 1 := by omega
    simpa [rolled, first, second] using ok.closed id (by omega)
  writable := by
    have other : t.headId + 1 ≠ t.headId := by omega
    simp [rolled]
  below := le_succ_of_le ok.below

theorem rolled_intact (ok : Intact t ps) {f : File} (there : t.disk t.headId = some f) : Intact (t.rolled f) ps where
  toLoose := rolled_loose ok.toLoose there
  items := ok.items
  indexed := ok.indexed
  indexEnd := ok.indexEnd
  headBytes := by
    have lower : (tip zeroEntry ps).filenum ≠ t.headId + 1 := by
      have := ok.below
      omega
    rw [if_neg (show (tip zeroEntry ps).filenum ≠ (t.rolled f).headId from lower)]
    rfl
  headEnd g at_ := by
    have other : t.headId + 1 ≠ t.headId := by omega
    obtain rfl : File.empty = g := by simpa [rolled] using at_
    rfl

theorem rolled_clean (f : File) : (t.rolled f).Clean := by
  intro g at_
  obtain rfl : File.empty = g := by simpa [rolled] using at_
  rfl

end Writing

section Appending

variable {x : Snappy} {t : Table} {ps : List Placed} {f : File}

def Table.ready (t : Table) (n : Nat) (f : File) : Table × File :=
  if t.overflows n = true then (t.rolled f, .empty) else (t, f)

def Table.put (t : Table) (f : File) : Table := { t with disk := update t.disk t.headId (some f) }

theorem put_head (f : File) : (t.put f).disk (t.put f).headId = some f := by
  simp [put]

theorem ready_intact (ok : Intact t ps) (there : t.disk t.headId = some f) (n : Nat) :
    Intact (t.ready n f).1 ps ∧ (t.ready n f).1.disk (t.ready n f).1.headId = some (t.ready n f).2 := by
  rw [ready]
  split
  next => exact ⟨rolled_intact ok there, by simp [rolled]⟩
  next => exact ⟨ok, there⟩

theorem ready_clean (n : Nat) (clean : t.Clean ∨ t.overflows n = true) : (t.ready n f).1.Clean := by
  rw [ready]
  split
  next => exact rolled_clean f
  next fits => exact clean.resolve_right fits

theorem ready_kept (n : Nat) : (t.ready n f).1.items = t.items ∧ (t.ready n f).1.noCompression = t.noCompression ∧
    (t.ready n f).1.maxFileSize = t.maxFileSize ∧ (t.ready n f).1.index = t.index := by
  rw [ready]
  split <;> exact ⟨rfl, rfl, rfl, rfl⟩

theorem head_bytes_lt (ok : Intact t ps) : t.headBytes < 2 ^ 32 := by
  rw [ok.headBytes]
  split
  next => exact (tip_narrow ok.narrow).2
  next => exact Nat.two_pow_pos 32

theorem ready_room (ok : Intact t ps) {n : Nat} (small : n < 2 ^ 32) : (t.ready n f).1.headBytes + n < 2 ^ 32 := by
  have bytes := head_bytes_lt ok
  rw [ready]
  split
  next => simpa [rolled] using small
  next fits =>
      have ordered : n ≤ uint32 (t.headBytes + n) := by
        simp only [overflows, Bool.or_eq_true, decide_eq_true_eq, not_or] at fits
        exact Nat.le_of_not_lt fits.1
      simp only [uint32] at ordered
      change t.headBytes + n < 2 ^ 32
      omega

theorem append_ready {items : Nat} (counted : t.items = items) (writable : t.files t.headId = some .readWrite)
    (fresh : t.files (t.headId + 1) = none) (there : t.disk t.headId = some f) (blob : Bytes) (data index : Written)
    (room : t.overflows (uint32 (t.encode x blob).length) = true → t.headId + 1 < 2 ^ 32) : t.append x items blob data index =
      let n := uint32 (t.encode x blob).length
      let u := (t.ready n f).1.put ((t.ready n f).2.write (data.kept (t.encode x blob)))
      match data with
      | .part _ => (u, some .shortWrite)
      | .whole => (u.note n index, none) := by
  have opened : (if t.overflows (uint32 (t.encode x blob).length) = true then t.rollover else some t) =
      some (t.ready (uint32 (t.encode x blob).length) f).1 := by
    rw [ready]
    split
    next full => exact rollover_rolled fresh there (room full)
    next => rfl
  have head (n : Nat) : (t.ready n f).1.files (t.ready n f).1.headId = some .readWrite ∧
      (t.ready n f).1.disk (t.ready n f).1.headId = some (t.ready n f).2 := by
    rw [ready]
    split
    next => simp [rolled]
    next => exact ⟨writable, there⟩
  simp only [append, counted, ne_eq, opened, on_head (head _).1 (head _).2]
  rfl

theorem put_intact (ok : Intact t ps) (there : t.disk t.headId = some f) (bytes : Bytes) : Intact (t.put (f.write bytes)) ps where
  toLoose := loose_grow ok.toLoose there ⟨bytes, (write_at_end (ok.headEnd f there)).1.symm⟩
  items := ok.items
  indexed := ok.indexed
  indexEnd := ok.indexEnd
  headBytes := ok.headBytes
  headEnd g at_ := by
    obtain rfl : f.write bytes = g := some.inj ((put_head _).symm.trans at_)
    exact (write_at_end (ok.headEnd f there)).2

theorem entries_snoc (p : Placed) : indexBytes (entries (ps ++ [p])) = indexBytes (entries ps) ++ p.entry.marshallBinary := by
  simp [entries, indexBytes]

theorem note_loose (ok : Intact t ps) (n : Nat) (index : Written) : Loose (t.note n index) ps where
  fewer := ok.fewer.trans (le_succ _)
  whole := ok.whole
  index := ok.index.trans ⟨_, (write_at_end ok.indexEnd).1.symm⟩
  chain := ok.chain
  narrow := ok.narrow
  held := ok.held
  opened := ok.opened
  closed := ok.closed
  writable := ok.writable
  below := ok.below

theorem note_intact (ok : Intact t ps) (blob : Bytes) (number : t.headId < 2 ^ 16) (offset : t.headBytes + blob.length < 2 ^ 32)
    (held : (⟨t.headId, t.headBytes, blob⟩ : Placed).On t) :
    Intact (t.note blob.length .whole) (ps ++ [⟨t.headId, t.headBytes, blob⟩]) := by
  have size : uint32 (t.headBytes + blob.length) = t.headBytes + blob.length := uint32_of_lt offset
  have grown : (t.note blob.length .whole).index.content = indexBytes (entries (ps ++ [⟨t.headId, t.headBytes, blob⟩])) := by
    rw [note, (write_at_end ok.indexEnd).1, ok.indexed, entries_snoc, size]
    rfl
  have follows : (⟨t.headId, t.headBytes, blob⟩ : Placed).Follows (tip zeroEntry ps) := by
    rcases eq_or_lt_of_le ok.below with same | lower
    · exact .inl ⟨same.symm, by rw [ok.headBytes, if_pos same]⟩
    · exact .inr ⟨lower, by rw [ok.headBytes, if_neg lower.ne]⟩
  refine ⟨⟨⟨?_, ok.whole, ⟨[], by rw [grown, append_nil]⟩, chained_append.mpr ⟨ok.chain, follows, trivial⟩, fun p member => ?_,
    ok.opened, ok.closed, ok.writable, ?_⟩, fun p member => ?_⟩, ?_, grown, (write_at_end ok.indexEnd).2, ?_, ok.headEnd⟩
  · simp [note, ok.items]
  · rcases mem_append.mp member with old | new
    · exact ok.narrow p old
    · obtain rfl := mem_singleton.mp new
      exact ⟨number, offset⟩
  · rw [tip_snoc]
    exact le_rfl
  · rcases mem_append.mp member with old | new
    · exact ok.held p old
    · obtain rfl := mem_singleton.mp new
      exact held
  · simp [note, ok.items]
  · have here : (⟨t.headId, t.headBytes, blob⟩ : Placed).entry.filenum = (t.note blob.length .whole).headId := rfl
    rw [tip_snoc, if_pos here]
    exact size

theorem put_held (ok : Intact t ps) (there : t.disk t.headId = some f) (blob : Bytes) (clean : t.Clean ∨ blob = []) :
    (⟨t.headId, t.headBytes, blob⟩ : Placed).Held (f.write blob) := by
  rcases clean with clean | rfl
  · rw [Placed.Held, (write_at_end (ok.headEnd f there)).1, ← clean f there, drop_left, take_length]
  · rfl

theorem note_clean (clean : t.Clean) (there : t.disk t.headId = some f) (atEnd : f.position = f.content.length) (blob : Bytes)
    (offset : t.headBytes + blob.length < 2 ^ 32) : ((t.put (f.write blob)).note blob.length .whole).Clean := by
  intro g at_
  have noted : (t.put (f.write blob)).disk (t.put (f.write blob)).headId = some g := at_
  obtain rfl : f.write blob = g := some.inj ((put_head _).symm.trans noted)
  rw [(write_at_end atEnd).1, length_append, clean f there]
  exact (uint32_of_lt offset).symm

end Appending

section Truncating

variable {t : Table} {ps : List Placed} {f : File}

theorem entries_take (k : Nat) : (entries ps).take (k + 1) = entries (ps.take k) := by
  simp [entries]

def Keeps (t u : Table) (e : IndexEntry) : Prop :=
  ∀ p : Placed, p.file ≤ e.filenum → (p.file = e.filenum → p.stop ≤ e.offset) → p.On t → p.On u

variable (ok : Shape t ps)

include ok

theorem rewind_shape :
    ∃ u f, t.rewind (tip zeroEntry ps).filenum = some u ∧ u.disk u.headId = some f ∧ Shape u ps ∧
      u.headId = (tip zeroEntry ps).filenum ∧ u.index = t.index ∧ u.noCompression = t.noCompression ∧
      u.maxFileSize = t.maxFileSize ∧ Keeps t u (tip zeroEntry ps) := by
  obtain ⟨f, there⟩ := isSome_iff_exists.mp (ok.opened (tip zeroEntry ps).filenum ok.below).2
  generalize tip_ : tip zeroEntry ps = e at there
  have step : t.rewind e.filenum = some { t with
      disk := fun n => if e.filenum < n ∧ (update t.files e.filenum (some Access.readWrite) n).isSome then none
        else update t.disk e.filenum (some f.seekEnd) n
      files := fun n => if e.filenum < n then none else update t.files e.filenum (some Access.readWrite) n
      headId := e.filenum } := by
    simp [rewind, releaseFile, openFile, Opener.open, there, releaseFilesAfter]
  refine ⟨_, f.seekEnd, step, by simp, ⟨ok.fewer, ok.whole, ok.index, ok.chain, ok.narrow, fun id within => ?_,
    fun id outside => if_pos outside, by simp, (congrArg IndexEntry.filenum tip_).le⟩, rfl, rfl, rfl, rfl, fun p inside _ held => ?_⟩
  · have kept : ¬ e.filenum < id := not_lt.mpr within
    by_cases same : id = e.filenum
    · simp [same]
    · simpa [kept, same] using ok.opened id (le_trans within (tip_ ▸ ok.below))
  · obtain ⟨g, at_, held⟩ := held
    have kept : ¬ e.filenum < p.file := not_lt.mpr inside
    by_cases same : p.file = e.filenum
    · rw [same, there] at at_
      cases at_
      exact ⟨f.seekEnd, by simp [same], held⟩
    · exact ⟨g, by simpa [kept, same] using at_, held⟩

theorem shape_take (k : Nat) : Shape t (ps.take k) := by
  have split : ps.take k ++ ps.drop k = ps := take_append_drop k ps
  have chain : Chained zeroEntry (ps.take k ++ ps.drop k) := split.symm ▸ ok.chain
  obtain ⟨first, second⟩ := chained_append.mp chain
  have shorter : indexBytes (entries (ps.take k)) <+: indexBytes (entries ps) := by
    rw [← entries_take, ← index_bytes_take]
    exact take_prefix _ _
  refine ⟨(length_take_le' k ps).trans ok.fewer, ok.whole, shorter.trans ok.index, first,
    fun p member => ok.narrow p (mem_of_mem_take member), ok.opened, ok.closed, ok.writable, (chained_tip second).1.trans ?_⟩
  rw [← tip_append, split]
  exact ok.below

theorem index_truncate {k : Nat} (inside : k ≤ ps.length) :
    (t.index.truncate ((k + 1) * indexEntrySize)).content = indexBytes (entries (ps.take k)) := by
  obtain ⟨rest, content⟩ := ok.index
  have long : (k + 1) * indexEntrySize ≤ (indexBytes (entries ps)).length := by
    rw [length_index_bytes]
    refine mul_le_mul_right _ ?_
    simp only [entries, length_cons, length_map]
    omega
  have longer : (indexBytes (entries ps)).length ≤ t.index.content.length := ok.index.length_le
  rw [truncate_content (long.trans longer), ← content, take_append_of_le_length long, index_bytes_take, entries_take]

theorem reindex_shape {index : File} (indexed : index.content = indexBytes (entries ps)) :
    Shape { t with index := index } ps :=
  ⟨ok.fewer, ok.whole, ⟨[], by rw [append_nil]; exact indexed.symm⟩, ok.chain, ok.narrow, ok.opened, ok.closed, ok.writable,
    ok.below⟩

omit ok

def Table.cut (t : Table) (f : File) (items : Nat) (e : IndexEntry) : Table :=
  { t.put (f.truncate e.offset) with items := items, headBytes := e.offset }

theorem cut_shape (ok : Shape t ps) (f : File) (e : IndexEntry) : Shape (t.cut f ps.length e) ps := by
  refine ⟨le_rfl, ok.whole, ok.index, ok.chain, ok.narrow, fun id inside => ⟨(ok.opened id inside).1, ?_⟩, ok.closed, ok.writable,
    ok.below⟩
  by_cases same : id = t.headId
  · simp [cut, put, same]
  · simpa [cut, put, same] using (ok.opened id inside).2

theorem cut_keeps {e : IndexEntry} (there : t.disk t.headId = some f) (head : t.headId = e.filenum) (items : Nat) :
    Keeps t (t.cut f items e) e := by
  intro p _ stop held
  obtain ⟨g, at_, held⟩ := held
  by_cases same : p.file = t.headId
  · rw [same, there] at at_
    cases at_
    exact ⟨_, by simp [cut, put, same], held_truncate held (stop (same.trans head))⟩
  · exact ⟨g, by simpa [cut, put, same] using at_, held⟩

theorem cut_clean (t : Table) (f : File) (items : Nat) (e : IndexEntry) : (t.cut f items e).Clean := by
  intro g at_
  obtain rfl : f.truncate e.offset = g := by simpa [cut, put] using at_
  exact length_truncate f e.offset

structure Truncated (t u : Table) (ps : List Placed) : Prop extends Shape u ps where
  items : u.items = ps.length
  indexed : u.index.content = indexBytes (entries ps)
  indexEnd : u.index.position = u.index.content.length
  headBytes : u.headBytes = (tip zeroEntry ps).offset
  headId : u.headId = (tip zeroEntry ps).filenum
  headEnd : ∀ f, u.disk u.headId = some f → f.position = f.content.length
  clean : u.Clean
  kept : Keeps t u (tip zeroEntry ps)
  noCompression : u.noCompression = t.noCompression
  maxFileSize : u.maxFileSize = t.maxFileSize

theorem cut_truncated (ok : Shape t ps) (there : t.disk t.headId = some f) (indexed : t.index.content = indexBytes (entries ps))
    (indexEnd : t.index.position = t.index.content.length) (head : t.headId = (tip zeroEntry ps).filenum) :
    Truncated t (t.cut f ps.length (tip zeroEntry ps)) ps := by
  refine ⟨cut_shape ok f _, rfl, indexed, indexEnd, rfl, head, fun g at_ => ?_, cut_clean t f _ _, cut_keeps there head _, rfl, rfl⟩
  obtain rfl : f.truncate (tip zeroEntry ps).offset = g := by simpa [cut, put] using at_
  exact (length_truncate f _).symm

theorem truncate_shape (ok : Shape t ps) {k : Nat} (inside : k ≤ ps.length) (more : k < t.items) :
    ∃ u, t.truncate k = (u, none) ∧ Truncated t u (ps.take k) := by
  have length : (ps.take k).length = k := length_take_of_le inside
  have indexed := index_truncate ok inside
  have indexEnd : (t.index.truncate ((k + 1) * indexEntrySize)).position = (t.index.truncate ((k + 1) * indexEntrySize)).content.length :=
    (length_truncate _ _).symm
  have cut := reindex_shape (shape_take ok k) indexed
  have expected := index_entry cut.index cut.narrow (ps.take k) [] (append_nil _).symm
  rw [length] at expected
  rw [truncate, if_neg (not_le.mpr more)]
  simp only [expected]
  by_cases same : (tip zeroEntry (ps.take k)).filenum = t.headId
  · obtain ⟨f, there⟩ := cut.headFile
    rw [if_neg (not_not.mpr same)]
    simp only [on_head cut.writable there]
    have done := cut_truncated cut there indexed indexEnd same.symm
    rw [length] at done
    exact ⟨_, rfl, { done with kept := done.kept }⟩
  · obtain ⟨u, f, rewound, there, shape, head, sameIndex, compression, size, kept⟩ := rewind_shape cut
    rw [if_pos same, rewound]
    simp only [on_head shape.writable there]
    have done := cut_truncated shape there (by rw [sameIndex]; exact indexed) (by rw [sameIndex]; exact indexEnd) head
    rw [length] at done
    exact ⟨_, rfl, { done with
      kept := fun p file stop held => done.kept p file stop (kept p file stop held)
      noCompression := compression
      maxFileSize := size }⟩

theorem truncate_loose (ok : Loose t ps) {k : Nat} (inside : k ≤ ps.length) (more : k < t.items) :
    ∃ u, t.truncate k = (u, none) ∧ Intact u (ps.take k) ∧ u.Clean ∧ u.noCompression = t.noCompression := by
  obtain ⟨u, run, done⟩ := truncate_shape ok.toShape inside more
  refine ⟨u, run, ⟨⟨done.toShape, fun p member => ?_⟩, done.items, done.indexed, done.indexEnd, ?_, done.headEnd⟩, done.clean,
    done.noCompression⟩
  · obtain ⟨file, stop⟩ := chained_mem done.chain member
    exact done.kept p file stop (ok.held p (mem_of_mem_take member))
  · rw [if_pos done.headId.symm, done.headBytes]

end Truncating

end Didux.Rawdb
