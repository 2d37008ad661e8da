import Didux.Rawdb.Rollback

set_option autoImplicit false

namespace Didux.Rawdb

open Sport Function List Option Table Nat Freezer
open Table (zeroEntry)

inductive Op where
  | append (blob : Bytes)
  | sync
deriving DecidableEq, Repr

namespace Table

def op (x : Snappy) (t : Table) : Op → Option Table
  | .append blob => match t.append x t.items blob .whole .whole with
    | (u, none) => some u
    | (_, some _) => none
  | .sync => t.sync

def ops (x : Snappy) (t : Table) : List Op → Option Table
  | [] => some t
  | o :: rest => (t.op x o).bind fun u => u.ops x rest

-- How much of each file is on the disk when the machine stops, beyond what was synced.
structure Cut where
  index : Nat
  data : Nat → Nat

def reopen (t : Table) (cut : Cut) : Option Table :=
  newCustomTable (t.index.crash cut.index) (fun id => (t.disk id).map (·.crash (cut.data id))) t.maxFileSize t.noCompression

def HeadSynced (t : Table) : Prop := ∀ f, t.disk t.headId = some f → f.content.length ≤ f.synced

end Table

def Op.blob : Op → List Bytes
  | .append blob => [blob]
  | .sync => []

def appended (ops : List Op) : List Bytes := ops.flatMap Op.blob

def FitsAll (x : Snappy) (t : Table) : List Op → Prop
  | [] => True
  | o :: rest => (∀ blob, o = .append blob → t.Fits x blob) ∧ ∀ u, t.op x o = some u → FitsAll x u rest

def Covered (x : Snappy) (t : Table) : List Op → Prop
  | [] => True
  | o :: rest => (∀ blob, o = .append blob → t.overflows (t.encode x blob).length = true → t.HeadSynced) ∧
      ∀ u, t.op x o = some u → Covered x u rest

structure Placed.Safe (p : Placed) (f : File) : Prop where
  held : p.Held f
  inside : p.stop ≤ f.content.length
  synced : p.stop ≤ f.synced

structure Durable (t : Table) (ps : List Placed) : Prop where
  index : (indexBytes (entries ps)).length ≤ t.index.synced
  data : ∀ p ∈ ps, ∃ f, t.disk p.file = some f ∧ p.Safe f

def Settled (t : Table) (ps : List Placed) : Prop := ∀ p ∈ ps, p.file ≠ t.headId → ∃ f, t.disk p.file = some f ∧ p.Safe f

section Safe

variable {p : Placed} {f : File}

theorem safe_write (safe : p.Safe f) (atEnd : f.position = f.content.length) {bytes : Bytes} : p.Safe (f.write bytes) where
  held := held_append safe.held ⟨bytes, (write_at_end atEnd).1.symm⟩
  inside := by
    rw [(write_at_end atEnd).1, length_append]
    exact safe.inside.trans (le_add_right _ _)
  synced := le_min safe.synced (atEnd ▸ safe.inside)

theorem safe_crash (safe : p.Safe f) {kept : Nat} : p.Held (f.crash kept) ∧ p.stop ≤ (f.crash kept).content.length := by
  have reach : p.stop ≤ max f.synced kept := safe.synced.trans (le_max_left _ _)
  refine ⟨held_take safe.held reach ⟨[], append_nil _⟩, ?_⟩
  rw [File.crash, length_take]
  exact le_min reach safe.inside

end Safe

section Growing

variable {x : Snappy} {t : Table} {ps qs : List Placed} {f : File} {blob : Bytes}

theorem op_append (ok : Intact t ps) (there : t.disk t.headId = some f) (fits : t.Fits x blob) :
    t.op x (.append blob) = some (t.grown x f blob) := by
  have size : uint32 (t.encode x blob).length = (t.encode x blob).length := uint32_of_lt fits.size
  have room : t.overflows (uint32 (t.encode x blob).length) = true → t.headId + 1 < 2 ^ 32 := by
    intro full
    have number := fits.number
    rw [if_pos (size ▸ full)] at number
    exact number.trans (Nat.pow_lt_pow_right (by decide) (by decide))
  have run := append_ready ok.items ok.writable (ok.closed _ (lt_succ_self _)) there blob .whole .whole room
  rw [size] at run
  rw [op, ok.items, run]
  rfl

theorem grown_kept : (t.grown x f blob).noCompression = t.noCompression ∧ (t.grown x f blob).maxFileSize = t.maxFileSize := by
  obtain ⟨-, compression, size, -⟩ := ready_kept (t := t) (f := f) (t.encode x blob).length
  exact ⟨compression, size⟩

theorem grown_intact (ok : Intact t ps) (clean : t.Clean) (there : t.disk t.headId = some f) (fits : t.Fits x blob) :
    ∃ p : Placed, p.blob = t.encode x blob ∧ p.file = (t.grown x f blob).headId ∧
      Intact (t.grown x f blob) (ps ++ [p]) ∧ (t.grown x f blob).Clean := by
  obtain ⟨p, placed, file, grown⟩ := grown_placed ok there fits
  obtain ⟨ready, head⟩ := ready_intact ok there (t.encode x blob).length
  exact ⟨p, placed, file, grown, note_clean (ready_clean _ (.inl clean)) head (ready.headEnd _ head) _ (ready_room ok fits.size)⟩

theorem grown_safe (ok : Intact t ps) (there : t.disk t.headId = some f) {p : Placed} (inside : p.file ≤ t.headId)
    (safe : ∃ g, t.disk p.file = some g ∧ p.Safe g) : ∃ g, (t.grown x f blob).disk p.file = some g ∧ p.Safe g := by
  obtain ⟨g, at_, safe⟩ := safe
  rw [grown, ready]
  by_cases full : t.overflows (t.encode x blob).length = true
  · have next : p.file ≠ t.headId + 1 := by omega
    simp only [if_pos full, note, put, rolled]
    rw [update_of_ne next]
    by_cases head : p.file = t.headId
    · rw [head, there] at at_
      cases at_
      rw [head, update_self]
      exact ⟨_, rfl, ⟨safe.held, safe.inside, safe.synced⟩⟩
    · rw [update_of_ne head, update_of_ne next]
      exact ⟨g, at_, safe⟩
  · simp only [if_neg full, note, put]
    by_cases head : p.file = t.headId
    · rw [head, there] at at_
      cases at_
      rw [head, update_self]
      exact ⟨_, rfl, safe_write safe (ok.headEnd f there)⟩
    · rw [update_of_ne head]
      exact ⟨g, at_, safe⟩

theorem grown_durable (ok : Intact t (qs ++ ps)) (there : t.disk t.headId = some f) (durable : Durable t qs) :
    Durable (t.grown x f blob) qs where
  index := by
    obtain ⟨-, -, -, index⟩ := ready_kept (t := t) (f := f) (t.encode x blob).length
    have synced : (t.grown x f blob).index.synced = min t.index.synced t.index.position := by
      simp only [grown, put, index]
      rfl
    have shorter : (indexBytes (entries qs)).length ≤ (indexBytes (entries (qs ++ ps))).length := by
      simp only [length_index_bytes, entries, length_cons, length_map, length_append]
      exact mul_le_mul_right _ (by omega)
    rw [synced, ok.indexEnd, ok.indexed]
    exact le_min durable.index shorter
  data p member := grown_safe ok there
    ((chained_mem ok.chain (mem_append_left ps member)).1.trans ok.below) (durable.data p member)

theorem grown_settled (ok : Intact t ps) (there : t.disk t.headId = some f) (settled : Settled t ps)
    (covered : t.overflows (t.encode x blob).length = true → t.HeadSynced) {p : Placed}
    (file : p.file = (t.grown x f blob).headId) : Settled (t.grown x f blob) (ps ++ [p]) := by
  intro q member other
  rcases mem_append.mp member with old | new
  · have inside : q.file ≤ t.headId := (chained_mem ok.chain old).1.trans ok.below
    refine grown_safe ok there inside ?_
    by_cases head : q.file = t.headId
    · -- the file that was left: the whole of it was synced
      by_cases full : t.overflows (t.encode x blob).length = true
      · obtain ⟨g, at_, held⟩ := ok.held q old
        have stop := ok.inside old at_
        exact ⟨g, at_, held, stop, stop.trans (covered full g (head ▸ at_))⟩
      · refine absurd ?_ other
        rw [head, grown, ready, if_neg full]
        rfl
    · exact settled q old head
  · obtain rfl := mem_singleton.mp new
    exact absurd file other

def Table.flushed (t : Table) (f : File) : Table :=
  { t with index := t.index.sync, disk := update t.disk t.headId (some f.sync) }

theorem op_sync (ok : Intact t ps) (there : t.disk t.headId = some f) : t.op x .sync = some (t.flushed f) := by
  simp only [Table.op, Table.sync, Table.onHead, ok.writable, there]
  rfl

theorem flushed_head : (t.flushed f).disk (t.flushed f).headId = some f.sync := update_self ..

theorem flushed_intact (ok : Intact t ps) (there : t.disk t.headId = some f) : Intact (t.flushed f) ps := by
  have grown := loose_grow ok.toLoose there (g := f.sync) ⟨[], append_nil _⟩
  have shape : Shape (t.flushed f) ps := reindex_shape grown.toShape ok.indexed
  refine ⟨⟨shape, grown.held⟩, ok.items, ok.indexed, ok.indexEnd, ok.headBytes, fun g at_ => ?_⟩
  obtain rfl : f.sync = g := some.inj ((flushed_head).symm.trans at_)
  exact ok.headEnd f there

theorem flushed_clean (clean : t.Clean) (there : t.disk t.headId = some f) : (t.flushed f).Clean := by
  intro g at_
  obtain rfl : f.sync = g := some.inj ((flushed_head).symm.trans at_)
  exact clean f there

theorem flushed_safe (there : t.disk t.headId = some f) {p : Placed} (safe : ∃ g, t.disk p.file = some g ∧ p.Safe g) :
    ∃ g, (t.flushed f).disk p.file = some g ∧ p.Safe g := by
  obtain ⟨g, at_, safe⟩ := safe
  by_cases head : p.file = t.headId
  · rw [head, there] at at_
    cases at_
    exact ⟨f.sync, by rw [head]; exact flushed_head, safe.held, safe.inside, safe.inside⟩
  · exact ⟨g, (update_of_ne head _ _).trans at_, safe⟩

theorem flushed_durable (ok : Intact t ps) (there : t.disk t.headId = some f) (settled : Settled t ps) :
    Durable (t.flushed f) ps where
  index := by
    rw [← ok.indexed]
    exact le_rfl
  data p member := by
    by_cases head : p.file = t.headId
    · obtain ⟨g, at_, held⟩ := ok.held p member
      have same : g = f := by
        rw [head, there] at at_
        exact (some.inj at_).symm
      subst same
      have stop := ok.inside member at_
      exact ⟨g.sync, by rw [head]; exact flushed_head, held, stop, stop⟩
    · exact flushed_safe there (settled p member head)

end Growing

section Losing

variable {x : Snappy} {t : Table} {ps : List Placed} {f : File} {blob : Bytes}

def Exposed (t : Table) (ps : List Placed) : Prop :=
  ∃ p ∈ ps, p.file < t.headId ∧ ∃ f, t.disk p.file = some f ∧ p.start ≤ f.synced ∧ f.synced < p.stop

theorem chained_crosses {e : IndexEntry} {s : Nat} (chain : Chained e ps) (before : e.filenum = (tip e ps).filenum → e.offset ≤ s)
    (beyond : s < (tip e ps).offset) : ∃ p ∈ ps, p.file = (tip e ps).filenum ∧ p.start ≤ s ∧ s < p.stop := by
  induction ps generalizing e with
  | nil => exact absurd (before rfl) (not_le.mpr beyond)
  | cons p ps ih =>
    have start : p.file = (tip p.entry ps).filenum → p.start ≤ s := by
      intro last
      rcases chain.1 with ⟨same, here⟩ | ⟨-, zero⟩
      · rw [here]
        exact before (same.symm.trans last)
      · rw [zero]
        exact zero_le s
    by_cases reached : p.file = (tip p.entry ps).filenum ∧ s < p.stop
    · exact ⟨p, mem_cons_self, reached.1, start reached.1, reached.2⟩
    · obtain ⟨q, member, found⟩ := ih chain.2 (fun last => Nat.le_of_not_lt fun more => reached ⟨last, more⟩) beyond
      exact ⟨q, mem_cons_of_mem p member, found⟩

theorem grown_below {id : Nat} (below : id < t.headId) :
    (t.grown x f blob).disk id = t.disk id ∧ t.headId ≤ (t.grown x f blob).headId := by
  have head : id ≠ t.headId := below.ne
  have next : id ≠ t.headId + 1 := by omega
  rw [grown, ready]
  split
  · exact ⟨by simp only [note, put, rolled, update_of_ne next, update_of_ne head],
      le_succ _⟩
  · exact ⟨by simp only [note, put, update_of_ne head], le_rfl⟩

variable {more : List Placed}

theorem grown_exposed (exposed : Exposed t ps) : Exposed (t.grown x f blob) (ps ++ more) := by
  obtain ⟨p, member, below, g, at_, start, stop⟩ := exposed
  obtain ⟨same, higher⟩ : (t.grown x f blob).disk _ = _ ∧ _ := grown_below below
  exact ⟨p, mem_append_left more member, below.trans_le higher, g, same.trans at_, start, stop⟩

theorem flushed_exposed (exposed : Exposed t ps) : Exposed (t.flushed f) ps := by
  obtain ⟨p, member, below, g, at_, start, stop⟩ := exposed
  exact ⟨p, member, below, g, (update_of_ne below.ne _ _).trans at_, start, stop⟩

theorem rollover_exposes (ok : Intact t ps) (clean : t.Clean) (there : t.disk t.headId = some f)
    (full : t.overflows (t.encode x blob).length = true) (unsynced : f.synced < f.content.length) :
    Exposed (t.grown x f blob) (ps ++ more) := by
  have bytes : f.content.length = t.headBytes := clean f there
  have last : (tip zeroEntry ps).filenum = t.headId := by
    by_contra other
    rw [ok.headBytes, if_neg other] at bytes
    omega
  rw [bytes, ok.headBytes, if_pos last] at unsynced
  obtain ⟨p, member, file, start, stop⟩ := chained_crosses ok.chain (fun _ => zero_le _) unsynced
  have here : p.file = t.headId := file.trans last
  refine ⟨p, mem_append_left more member, ?_, { f with position := 0 }, ?_, start, stop⟩
  · rw [here, grown, ready, if_pos full]
    exact lt_succ_self _
  · have next : t.headId ≠ t.headId + 1 := by omega
    rw [here, grown, ready, if_pos full]
    simp only [note, put, rolled, update_of_ne next, update_self]

end Losing

section Running

variable {x : Snappy} {t : Table} {ps : List Placed}

structure Tended (t : Table) (ps : List Placed) : Prop extends Intact t ps where
  clean : t.Clean

theorem op_tended (ok : Tended t ps) (o : Op) (fits : ∀ blob, o = .append blob → t.Fits x blob) :
    ∃ u more, t.op x o = some u ∧ Tended u (ps ++ more) ∧ more.map Placed.blob = o.blob.map (t.encode x) ∧
      u.noCompression = t.noCompression ∧ u.maxFileSize = t.maxFileSize ∧
      (∀ qs rest, ps = qs ++ rest → Durable t qs → Durable u qs) ∧
      (Settled t ps → (∀ blob, o = .append blob → t.overflows (t.encode x blob).length = true → t.HeadSynced) →
        Settled u (ps ++ more)) ∧
      (Exposed t ps ∨ ¬ (∀ blob, o = .append blob → t.overflows (t.encode x blob).length = true → t.HeadSynced) →
        Exposed u (ps ++ more)) := by
  obtain ⟨f, there⟩ := ok.toIntact.headFile
  cases o with
  | append blob =>
    obtain ⟨p, same, file, grown, clean⟩ := grown_intact ok.toIntact ok.clean there (fits blob rfl)
    refine ⟨t.grown x f blob, [p], op_append ok.toIntact there (fits blob rfl), ⟨grown, clean⟩, by simp [Op.blob, same],
      grown_kept.1, grown_kept.2, fun qs rest split durable => ?_, fun settled covered => ?_, fun bad => ?_⟩
    · subst split
      exact grown_durable ok.toIntact there durable
    · exact grown_settled ok.toIntact there settled (covered blob rfl) file
    · rcases bad with exposed | uncovered
      · exact grown_exposed exposed
      · obtain ⟨full, unsynced⟩ : t.overflows (t.encode x blob).length = true ∧ f.synced < f.content.length := by
          by_contra neither
          refine uncovered fun other same full => ?_
          cases same
          intro g at_
          obtain rfl : f = g := some.inj (there.symm.trans at_)
          exact Nat.le_of_not_lt fun more => neither ⟨full, more⟩
        exact rollover_exposes ok.toIntact ok.clean there full unsynced
  | sync =>
    refine ⟨t.flushed f, [], op_sync ok.toIntact there, ?_, rfl, rfl, rfl, fun qs rest split durable => ⟨?_, fun p member => ?_⟩,
      fun settled _ => ?_, fun bad => ?_⟩
    · rw [append_nil]
      exact ⟨flushed_intact ok.toIntact there, flushed_clean ok.clean there⟩
    · have shorter : (indexBytes (entries qs)).length ≤ (indexBytes (entries (qs ++ rest))).length := by
        simp only [length_index_bytes, entries, length_cons, length_map, length_append]
        exact mul_le_mul_right _ (by omega)
      rw [← split, ← ok.indexed] at shorter
      exact shorter
    · exact flushed_safe there (durable.data p member)
    · rw [append_nil]
      exact fun p member other => flushed_safe there (settled p member other)
    · rw [append_nil]
      exact flushed_exposed (bad.resolve_right fun uncovered => uncovered (by simp))

theorem ops_tended (ok : Tended t ps) {os : List Op} (fits : FitsAll x t os) :
    ∃ u more, t.ops x os = some u ∧ Tended u (ps ++ more) ∧ more.map Placed.blob = (appended os).map (t.encode x) ∧
      u.noCompression = t.noCompression ∧ u.maxFileSize = t.maxFileSize ∧
      (∀ qs rest, ps = qs ++ rest → Durable t qs → Durable u qs) ∧
      (Settled t ps → Covered x t os → Settled u (ps ++ more)) ∧
      (Exposed t ps ∨ ¬ Covered x t os → Exposed u (ps ++ more)) := by
  induction os generalizing t ps with
  | nil => exact ⟨t, [], rfl, by rwa [append_nil], rfl, rfl, rfl, fun _ _ _ durable => durable,
      fun settled _ => by rwa [append_nil], fun bad => by
        rw [append_nil]
        exact bad.resolve_right fun uncovered => uncovered trivial⟩
  | cons o os ih =>
    obtain ⟨u, first, step, tended, blobs, compression, size, durable, settled, exposed⟩ := op_tended ok o fits.1
    obtain ⟨v, later, run, done, others, compressions, sizes, durables, settleds, exposeds⟩ := ih tended (fits.2 u step)
    refine ⟨v, first ++ later, ?_, by rw [← append_assoc]; exact done, ?_, compressions.trans compression, sizes.trans size,
      fun qs rest split held => ?_, fun start covered => ?_, fun bad => ?_⟩
    · simp only [ops, step, bind_some, run]
    · have parts : appended (o :: os) = o.blob ++ appended os := flatMap_cons
      rw [map_append, blobs, others, encode_eq compression, parts, map_append]
    · exact durables qs (rest ++ first) (by rw [split, append_assoc]) (durable qs rest split held)
    · rw [← append_assoc]
      exact settleds (settled start covered.1) (covered.2 u step)
    · rw [← append_assoc]
      refine exposeds ?_
      rcases bad with before | uncovered
      · exact .inl (exposed (.inl before))
      · by_cases here : ∀ blob, o = .append blob → t.overflows (t.encode x blob).length = true → t.HeadSynced
        · refine .inr fun rest => uncovered ⟨here, fun w same => ?_⟩
          cases step.symm.trans same
          exact rest
        · exact .inl (exposed (.inr here))

end Running

section Crashing

variable {x : Snappy} {t : Table} {ps qs : List Placed}

def Table.crashed (t : Table) (cut : Table.Cut) : Table :=
  ⟨0, t.noCompression, t.maxFileSize, (t.index.crash cut.index).seekEnd, fun id => (t.disk id).map (·.crash (cut.data id)),
    fun _ => none, 0, 0, 0, 0⟩

theorem repair_index_cut {f : File} {m : Nat} (content : f.content = (indexBytes (entries ps)).take m) (first : indexEntrySize ≤ m)
    (atEnd : f.position = f.content.length) : ∃ j, (repairIndex f).content = indexBytes (entries (ps.take j)) ∧
      (repairIndex f).position = (repairIndex f).content.length ∧
      (j ≤ ps.length ∧ (j + 1) * indexEntrySize ≤ m) ∧ ∀ k ≤ ps.length, (k + 1) * indexEntrySize ≤ m → k ≤ j := by
  have length : f.content.length = min m ((ps.length + 1) * indexEntrySize) := by
    rw [content, length_take, length_index_bytes]
    simp [entries]
  have whole : indexEntrySize ≤ (ps.length + 1) * indexEntrySize := Nat.le_mul_of_pos_left _ (Nat.succ_pos _)
  have six : indexEntrySize = 6 := rfl
  rw [six] at first length whole
  generalize size : f.content.length = n at length
  have cut : f.content.take (n / 6 * 6) = indexBytes (entries (ps.take (n / 6 - 1))) := by
    have few : n / 6 * 6 ≤ m := by omega
    have some_ : n / 6 - 1 + 1 = n / 6 := by omega
    rw [content, take_take, min_eq_left few, ← entries_take, some_]
    exact index_bytes_take _
  have repaired : (repairIndex f).content = f.content.take (n / 6 * 6) ∧
      (repairIndex f).position = (repairIndex f).content.length := by
    rw [repairIndex, size, six, if_neg (by omega)]
    by_cases exact_ : n % 6 = 0
    · rw [if_neg (not_not.mpr exact_)]
      refine ⟨(take_of_length_le ?_).symm, atEnd⟩
      omega
    · rw [if_pos exact_, truncate_content (by omega)]
      have same : n - n % 6 = n / 6 * 6 := by omega
      rw [same]
      refine ⟨rfl, ?_⟩
      rw [length_take, size, min_eq_left (by omega)]
      rfl
  refine ⟨n / 6 - 1, repaired.1.trans cut, repaired.2, by rw [six]; omega, fun k inside long => ?_⟩
  rw [six] at long
  have more : (k + 1) * 6 ≤ n := by omega
  omega

theorem cut_found (ok : Intact t ps) {u : Table} {n k : Nat} (closed : ∀ id, u.files id = none) (fewer : k ≤ n) (inside : k ≤ ps.length)
    (indexed : (repairIndex u.index).content = indexBytes (entries (ps.take n)))
    (indexEnd : (repairIndex u.index).position = (repairIndex u.index).content.length)
    (left : ∀ p ∈ ps.take k, ∃ f, u.disk p.file = some f ∧ p.Held f ∧ p.stop ≤ f.content.length)
    (present : ∀ id f, t.disk id = some f → (u.disk id).isSome) : Found u (ps.take n) k := by
  have first : (ps.take n).take k = ps.take k := by rw [take_take, min_eq_left fewer]
  refine ⟨chained_take ok.chain n, fun p member => ok.narrow p (mem_of_mem_take member), ?_, indexed, indexEnd, closed,
    fun p member => ?_, ?_, fun id small => ?_⟩
  · rw [length_take]
    exact le_min fewer inside
  · obtain ⟨f, there, held, -⟩ := left p (first ▸ member)
    exact ⟨f, there, held⟩
  · rw [first]
    rcases eq_nil_or_concat (ps.take k) with none | ⟨before, p, last⟩
    · rw [none]
      exact zero_le _
    · obtain ⟨f, there, -, stop⟩ := left p (by rw [last]; simp)
      rw [last, concat_eq_append, tip_snoc, show p.entry.filenum = p.file from rfl, there]
      exact stop
  · have below : (tip zeroEntry (ps.take n)).filenum ≤ t.headId := (shape_take ok.toShape n).below
    obtain ⟨f, there⟩ := isSome_iff_exists.mp (ok.opened id (small.le.trans below)).2
    exact present id f there

variable {cut : Table.Cut}

theorem crash_found (ok : Intact t ps) {rest : List Placed} (split : ps = qs ++ rest) (durable : Durable t qs) :
    ∃ j, Found (t.crashed cut) (ps.take j) qs.length ∧ (ps.take j).take qs.length = qs := by
  have shorter : qs.length ≤ ps.length := by rw [split, length_append]; exact le_add_right _ _
  have kept : (qs.length + 1) * indexEntrySize ≤ max t.index.synced cut.index := by
    have index := durable.index
    rw [length_index_bytes] at index
    simp only [entries, length_cons, length_map] at index
    exact index.trans (le_max_left _ _)
  have content : (t.index.crash cut.index).seekEnd.content =
      (indexBytes (entries ps)).take (max t.index.synced cut.index) := by rw [← ok.indexed]; rfl
  obtain ⟨j, indexed, indexEnd, -, enough⟩ :=
    repair_index_cut content (le_trans (Nat.le_mul_of_pos_left _ (Nat.succ_pos _)) kept) rfl
  have long : qs.length ≤ j := enough qs.length shorter kept
  have all : ps.take qs.length = qs := by rw [split, take_left]
  refine ⟨j, cut_found ok (fun _ => rfl) long shorter indexed indexEnd (fun p member => ?_) (fun id f there => ?_), ?_⟩
  · obtain ⟨f, there, safe⟩ := durable.data p (all ▸ member)
    exact ⟨f.crash (cut.data p.file), congrArg (Option.map _) there, safe_crash safe⟩
  · exact Option.isSome_iff_exists.mpr ⟨_, congrArg (Option.map _) there⟩
  · rw [take_take, min_eq_left long, all]

theorem reopen_durable (ok : Intact t ps) {rest : List Placed} (split : ps = qs ++ rest) (durable : Durable t qs) :
    ∃ z rs j, t.reopen cut = some z ∧ Reopened (t.crashed cut) z rs qs.length j ∧ rs.take qs.length = qs := by
  obtain ⟨j, found, first⟩ := crash_found ok split durable
  obtain ⟨z, i, run, done⟩ := repair_found found
  exact ⟨z, ps.take j, i, run, done, first⟩

theorem truncate_reopened {u : Table} {rs : List Placed} {k j m : Nat} (ok : Reopened t u rs k j) (enough : k ≤ m) :
    ∃ v, u.truncate m = (v, none) ∧ Loose v (rs.take k) ∧ v.noCompression = t.noCompression := by
  by_cases few : u.items ≤ m
  · exact ⟨u, by rw [truncate, if_pos few], reopened_loose ok, ok.noCompression⟩
  · have more : m < j := ok.items ▸ Nat.lt_of_not_le few
    have inside : m ≤ (rs.take j).length := by
      rw [length_take_of_le ok.inside]
      exact more.le
    have first : ((rs.take j).take m).take k = rs.take k := by
      rw [take_take, take_take, min_eq_left enough, min_eq_left ok.enough]
    obtain ⟨v, run, done⟩ := truncate_shape ok.shape inside (ok.items ▸ more)
    refine ⟨v, run, ⟨first ▸ shape_take done.toShape k, fun p member => ?_⟩, done.noCompression.trans ok.noCompression⟩
    obtain ⟨file, stop⟩ := chained_mem done.chain (mem_of_mem_take (first.symm ▸ member))
    exact done.kept p file stop (ok.held p member)

end Crashing

section Tables

variable {x : Snappy} {t : Table} {ps : List Placed} {xs : List Bytes}

theorem exposed_lost (ok : Intact t ps) (index : indexEntrySize ≤ t.index.synced) (exposed : Exposed t ps) :
    ∃ i < ps.length, ∀ z blob, t.reopen ⟨0, fun _ => 0⟩ = some z → z.retrieve x i ≠ .ok blob := by
  obtain ⟨p, member, below, f, there, start, stop⟩ := exposed
  obtain ⟨before, after, split⟩ := append_of_mem member
  refine ⟨before.length, by rw [split, length_append, length_cons]; omega, fun z blob run read => ?_⟩
  have nothing : Durable t [] := ⟨index, nofun⟩
  obtain ⟨j, found, -⟩ := crash_found ok (nil_append ps).symm nothing
  obtain ⟨z', i, opened, done⟩ := repair_found found
  obtain rfl : z' = z := some.inj (opened.symm.trans run)
  have counted : before.length < i := by
    by_contra few
    rw [retrieve, if_pos (by rw [done.items]; omega)] at read
    cases read
  have place : ((ps.take j).take i)[before.length]? = some p := by
    have inside : before.length < (ps.take j).length := counted.trans_le done.inside
    have short : before.length < j := lt_of_lt_of_le inside (length_take_le j ps)
    rw [getElem?_take_of_lt counted, getElem?_take_of_lt short, split]
    simp
  have parts : (ps.take j).take i = ((ps.take j).take i).take before.length ++ p :: ((ps.take j).take i).drop (before.length + 1) := by
    obtain ⟨inside, rfl⟩ := List.getElem?_eq_some_iff.mp place
    rw [← drop_eq_getElem_cons inside, take_append_drop]
  have bounds := get_bounds_indexed done.shape.index done.shape.chain done.shape.narrow _ _ p parts
  have length : (((ps.take j).take i).take before.length).length = before.length :=
    List.length_take_of_le (List.getElem?_eq_some_iff.mp place).1.le
  rw [length] at bounds
  obtain ⟨g, data, enough⟩ := retrieve_reads read done.shape.whole bounds
  have short := done.shrunk p.file g data
  have crashed : (t.crashed ⟨0, fun _ => 0⟩).disk p.file = some (f.crash 0) := congrArg (Option.map _) there
  rw [crashed, getD_some] at short
  have cut : (f.crash 0).content.length ≤ f.synced := by
    rw [File.crash, length_take, max_zero]
    exact min_le_left _ _
  rw [length_drop] at enough
  have reach : p.stop = p.start + p.blob.length := rfl
  omega

def Opened (x : Snappy) (t : Table) (xs : List Bytes) : Prop :=
  ∃ ps, Tended t ps ∧ Settled t ps ∧ ps.map Placed.blob = xs.map (t.encode x)

def Survives (x : Snappy) (t : Table) (xs : List Bytes) (os : List Op) : Prop :=
  ∃ u v, t.ops x os = some u ∧ u.sync = some v ∧ ∀ later, FitsAll x v later → ∃ w, v.ops x later = some w ∧
    ∀ cut, ∃ z, w.reopen cut = some z ∧
      ∀ (i : Nat) (inside : i < (xs ++ appended os).length), z.retrieve x i = .ok ((xs ++ appended os).get ⟨i, inside⟩)

theorem survives_iff_covered (lawful : x.Lawful) (opened : Opened x t xs) {os : List Op} (fits : FitsAll x t os) :
    Survives x t xs os ↔ Covered x t os := by
  obtain ⟨ps, tended, settled, same⟩ := opened
  obtain ⟨u, more, run, done, blobs, compression, -, -, settles, exposes⟩ := ops_tended tended fits
  obtain ⟨f, there⟩ := done.toIntact.headFile
  have synced : u.sync = some (u.flushed f) := op_sync (x := x) done.toIntact there
  have flushed : Tended (u.flushed f) (ps ++ more) := ⟨flushed_intact done.toIntact there, flushed_clean done.clean there⟩
  have all : (ps ++ more).map Placed.blob = (xs ++ appended os).map (t.encode x) := by
    rw [map_append, same, blobs, map_append]
  refine ⟨fun survives => ?_, fun covered => ?_⟩
  · by_contra uncovered
    have exposed : Exposed (u.flushed f) (ps ++ more) := flushed_exposed (exposes (.inr uncovered))
    have index : indexEntrySize ≤ (u.flushed f).index.synced := by
      have length : (u.flushed f).index.synced = u.index.content.length := rfl
      rw [length, done.indexed, length_index_bytes]
      exact Nat.le_mul_of_pos_left _ (Nat.succ_pos _)
    obtain ⟨i, inside, lost⟩ := exposed_lost (x := x) flushed.toIntact index exposed
    obtain ⟨u', v', run', sync', after⟩ := survives
    obtain rfl : u = u' := some.inj (run.symm.trans run')
    obtain rfl : u.flushed f = v' := some.inj (synced.symm.trans sync')
    obtain ⟨w, none, reopened⟩ := after [] trivial
    obtain rfl : u.flushed f = w := some.inj none
    obtain ⟨z, opened, reads⟩ := reopened ⟨0, fun _ => 0⟩
    have length := placed_length all
    exact lost z _ opened (reads i (length ▸ inside))
  · have durable := flushed_durable done.toIntact there (settles settled covered)
    refine ⟨u, u.flushed f, run, synced, fun later room => ?_⟩
    obtain ⟨w, rest, ran, final, -, compressions, -, durables, -, -⟩ := ops_tended flushed room
    refine ⟨w, ran, fun cut => ?_⟩
    obtain ⟨z, rs, j, opened, done, first⟩ := reopen_durable final.toIntact rfl (durables _ [] (append_nil _).symm durable)
    refine ⟨z, opened, fun i inside => retrieve_placed lawful (first ▸ reopened_loose done) (blobs_eq ?_ all) inside⟩
    exact (done.noCompression.trans compressions).trans compression

end Tables

-- The background freezer moves blocks one by one and syncs; only then it deletes them from the key-value store.
inductive Task where
  | append (record : Record)
  | sync

def Task.op (k : Kind) : Task → Op
  | .append record => .append (record k)
  | .sync => .sync

namespace Freezer

def task (x : Snappy) (order : Order) (f : Freezer) : Task → Option Freezer
  | .append record => match f.appendAncient x f.frozen record (fun _ => (.whole, .whole)) order with
    | some (g, none) => some g
    | _ => none
  | .sync => f.sync

def tasks (x : Snappy) (order : Order) (f : Freezer) : List Task → Option Freezer
  | [] => some f
  | o :: rest => (f.task x order o).bind fun g => g.tasks x order rest

def wiped (f : Freezer) : List Nat := (range f.frozen).filter (0 < ·)

def reopen (maxFileSize : Nat) (f : Freezer) (cut : Kind → Table.Cut) (order : Order) : Option Freezer :=
  newFreezer maxFileSize (fun k => (f.tables k).index.crash (cut k).index)
    (fun k id => ((f.tables k).disk id).map (·.crash ((cut k).data id))) order

end Freezer

def Task.record : Task → List Record
  | .append record => [record]
  | .sync => []

def frozenBy (os : List Task) : List Record := os.flatMap Task.record

section Freezers

variable {x : Snappy} {f : Freezer} {ps : Kind → List Placed}

structure InStep (f : Freezer) (ps : Kind → List Placed) : Prop where
  tended : ∀ k, Tended (f.tables k) (ps k)
  length : ∀ k, (ps k).length = f.frozen

theorem append_tables_op (tables : Kind → Table) {record : Record} (ks : List Kind) (nodup : ks.Nodup) (n : Nat)
    (items : ∀ k ∈ ks, (tables k).items = n)
    (each : ∀ k ∈ ks, ∃ u, (tables k).op x (.append (record k)) = some u) :
    ∃ next, appendTables x n record (fun _ => (.whole, .whole)) ks tables = (next, none) ∧
      (∀ k ∈ ks, (tables k).op x (.append (record k)) = some (next k)) ∧ ∀ k, k ∉ ks → next k = tables k := by
  induction ks generalizing tables with
  | nil => exact ⟨tables, rfl, nofun, fun _ _ => rfl⟩
  | cons k ks ih =>
    obtain ⟨fresh, rest⟩ := nodup_cons.mp nodup
    obtain ⟨u, step⟩ := each k mem_cons_self
    have appended : (tables k).append x n (record k) .whole .whole = (u, none) := by
      rw [op, items k mem_cons_self] at step
      split at step
      next v same => rw [same, some.inj step]
      next => cases step
    have others (j : Kind) (member : j ∈ ks) : update tables k u j = tables j := update_rest u fresh member
    obtain ⟨next, run, done, outside⟩ := ih (update tables k u) rest
      (fun j member => by rw [others j member]; exact items j (mem_cons_of_mem k member))
      (fun j member => by rw [others j member]; exact each j (mem_cons_of_mem k member))
    refine ⟨next, ?_, fun j member => ?_, fun j other => ?_⟩
    · rw [appendTables, appended]
      exact run
    · rcases mem_cons.mp member with rfl | later
      · rw [step, outside j fresh, update_self]
      · rw [← others j later]
        exact done j later
    · rw [outside j fun member => other (mem_cons_of_mem k member)]
      exact update_outside u other

theorem sync_tables {next : Kind → Table} (each : ∀ k, (f.tables k).sync = some (next k)) : f.sync = some { f with tables := next } := by
  simp only [Freezer.sync, each, Option.bind_eq_bind, Option.bind_some, Freezer.by_kind_eta]

theorem task_tables (order : Order) (ok : InStep f ps) (o : Task) (fits : ∀ k blob, o.op k = .append blob → (f.tables k).Fits x blob) :
    ∃ g, f.task x order o = some g ∧ (∀ k, (f.tables k).op x (o.op k) = some (g.tables k)) ∧
      g.frozen = f.frozen + o.record.length := by
  have each (k : Kind) : ∃ u, (f.tables k).op x (o.op k) = some u := by
    obtain ⟨u, -, step, -⟩ := op_tended (ok.tended k) (o.op k) (fits k)
    exact ⟨u, step⟩
  cases o with
  | append record =>
    obtain ⟨next, run, done, -⟩ := append_tables_op f.tables Kind.all Kind.nodup_all f.frozen
      (fun k _ => (ok.tended k).items.trans (ok.length k)) fun k _ => each k
    refine ⟨⟨f.frozen + 1, next⟩, ?_, fun k => done k k.mem_all, rfl⟩
    rw [task, appendAncient, if_neg (not_not.mpr rfl), run]
  | sync =>
    choose next synced using each
    exact ⟨{ f with tables := next }, sync_tables synced, synced, rfl⟩

theorem tasks_tables (order : Order) (ok : InStep f ps) (os : List Task) (fits : ∀ k, FitsAll x (f.tables k) (os.map (Task.op k))) :
    ∃ g, f.tasks x order os = some g ∧ (∀ k, (f.tables k).ops x (os.map (Task.op k)) = some (g.tables k)) ∧
      g.frozen = f.frozen + (frozenBy os).length := by
  induction os generalizing f ps with
  | nil => exact ⟨f, rfl, fun _ => rfl, rfl⟩
  | cons o os ih =>
    obtain ⟨g, step, tables, count⟩ := task_tables order ok o fun k => (fits k).1
    have next (k : Kind) : ∃ more, Tended (g.tables k) (ps k ++ more) ∧ (ps k ++ more).length = g.frozen := by
      obtain ⟨u, more, op, tended, blobs, -⟩ := op_tended (ok.tended k) (o.op k) (fits k).1
      obtain rfl : u = g.tables k := some.inj (op.symm.trans (tables k))
      refine ⟨more, tended, ?_⟩
      have length := congrArg length blobs
      rw [length_map] at length
      rw [length_append, ok.length k, length, count]
      cases o <;> rfl
    choose more tended length using next
    obtain ⟨h, run, all, total⟩ := ih ⟨tended, length⟩ fun k => (fits k).2 _ (tables k)
    refine ⟨h, ?_, fun k => ?_, ?_⟩
    · simp only [tasks, step, bind_some, run]
    · simp only [map_cons, ops, tables k, bind_some, all k]
    · have parts : frozenBy (o :: os) = o.record ++ frozenBy os := flatMap_cons
      rw [total, count, parts, length_append, add_assoc]

variable {order : Order} {os : List Task}

theorem le_shortest {tables : Kind → Table} {n : Nat} (each : ∀ k, n ≤ (tables k).items) : n ≤ shortest tables order.val := by
  have some_ : (order.val.map fun k => (tables k).items) ≠ [] := by
    intro none
    have member := mem_map_of_mem (f := fun k => (tables k).items) (order.mem .headers)
    rw [none] at member
    cases member
  obtain ⟨m, least⟩ := isSome_iff_exists.mp (isSome_min?_of_ne_nil some_)
  obtain ⟨k, -, same⟩ := mem_map.mp (min?_eq_some_iff.mp least).1
  rw [shortest, least, ← same]
  exact each k

theorem new_freezer_reopened {m n : Nat} {cut : Kind → Table.Cut} {qs : Kind → List Placed}
    (size : ∀ k, (f.tables k).maxFileSize = m) (compression : ∀ k, (f.tables k).noCompression = k.noSnappy)
    (length : ∀ k, (qs k).length = n) (each : ∀ k, ∃ z rs j, (f.tables k).reopen (cut k) = some z ∧
      Reopened ((f.tables k).crashed (cut k)) z rs (qs k).length j ∧ rs.take (qs k).length = qs k) :
    ∃ g, f.reopen m cut order = some g ∧ n ≤ g.ancients ∧
      ∀ k, Loose (g.tables k) (qs k) ∧ (g.tables k).noCompression = (f.tables k).noCompression := by
  choose z rs j opened done first using each
  have least : n ≤ shortest z order.val :=
    le_shortest fun k => by rw [(done k).items, ← length k]; exact (done k).enough
  obtain ⟨next, run, -, good⟩ := truncate_tables z (shortest z order.val)
    (fun k u => Loose u (qs k) ∧ u.noCompression = (f.tables k).noCompression) order.val order.nodup fun k _ => by
      obtain ⟨u, run, loose, kept⟩ := truncate_reopened (done k) ((length k).le.trans least)
      exact ⟨u, run, first k ▸ loose, kept⟩
  have tables (k : Kind) : newCustomTable ((f.tables k).index.crash (cut k).index)
      (fun id => ((f.tables k).disk id).map (·.crash ((cut k).data id))) m k.noSnappy = some (z k) := by
    rw [← size k, ← compression k]
    exact opened k
  refine ⟨⟨shortest z order.val, next⟩, ?_, least, fun k => good k (order.mem k)⟩
  simp only [Freezer.reopen, Freezer.newFreezer, tables, Option.bind_eq_bind, Option.bind_some, Freezer.by_kind_eta, Freezer.repair, run]

structure FreezerOpened (x : Snappy) (maxFileSize : Nat) (f : Freezer) (xs : List Record) : Prop where
  frozen : f.frozen = xs.length
  size : ∀ k, (f.tables k).maxFileSize = maxFileSize
  compression : ∀ k, (f.tables k).noCompression = k.noSnappy
  opened : ∀ k, Opened x (f.tables k) (column xs k)

def WipesOnlyDurable (x : Snappy) (maxFileSize : Nat) (order : Order) (f : Freezer) (xs : List Record) (os : List Task) : Prop :=
  ∃ u v, f.tasks x order os = some u ∧ u.sync = some v ∧ ∀ later, (∀ k, FitsAll x (v.tables k) (later.map (Task.op k))) →
    ∃ w, v.tasks x order later = some w ∧ ∀ cut, ∃ g, w.reopen maxFileSize cut order = some g ∧
      ∀ number ∈ v.wiped, number < g.ancients ∧ ∃ inside : number < (xs ++ frozenBy os).length,
        ∀ k, g.ancient x k number = .ok ((xs ++ frozenBy os).get ⟨number, inside⟩ k)

theorem appended_column {k : Kind} : appended (os.map (Task.op k)) = column (frozenBy os) k := by
  induction os with
  | nil => rfl
  | cons o os ih =>
    have first : appended ((o :: os).map (Task.op k)) = (o.op k).blob ++ appended (os.map (Task.op k)) := flatMap_cons
    have second : frozenBy (o :: os) = o.record ++ frozenBy os := flatMap_cons
    rw [first, second, ih, column, column, map_append]
    cases o <;> rfl

theorem sync_in_step {maxFileSize : Nat} {xs : List Record} (opened : FreezerOpened x maxFileSize f xs)
    (fits : ∀ k, FitsAll x (f.tables k) (os.map (Task.op k))) (covered : ∀ k, Covered x (f.tables k) (os.map (Task.op k))) :
    ∃ u v qs, f.tasks x order os = some u ∧ u.sync = some v ∧ InStep v qs ∧ v.frozen = (xs ++ frozenBy os).length ∧
      ∀ k, Durable (v.tables k) (qs k) ∧ (qs k).map Placed.blob = (column (xs ++ frozenBy os) k).map ((v.tables k).encode x) ∧
        (v.tables k).maxFileSize = maxFileSize ∧ (v.tables k).noCompression = k.noSnappy := by
  choose ps tended settled same using opened.opened
  have lengths (k : Kind) : (ps k).length = xs.length := by
    have := congrArg length (same k)
    rwa [length_map, length_map, length_column] at this
  obtain ⟨u, ran, tables, count⟩ := tasks_tables order ⟨tended, fun k => (lengths k).trans opened.frozen.symm⟩ os fits
  have each (k : Kind) : ∃ more head, (u.tables k).sync = some ((u.tables k).flushed head) ∧
      Tended ((u.tables k).flushed head) (ps k ++ more) ∧ Durable ((u.tables k).flushed head) (ps k ++ more) ∧
      more.map Placed.blob = (column (frozenBy os) k).map ((f.tables k).encode x) ∧
      (u.tables k).noCompression = (f.tables k).noCompression ∧ (u.tables k).maxFileSize = (f.tables k).maxFileSize := by
    obtain ⟨t, more, run, done, blobs, compression, size, -, settles, -⟩ := ops_tended (tended k) (fits k)
    obtain rfl : t = u.tables k := some.inj (run.symm.trans (tables k))
    obtain ⟨head, there⟩ := done.toIntact.headFile
    rw [appended_column] at blobs
    exact ⟨more, head, op_sync (x := x) done.toIntact there, ⟨flushed_intact done.toIntact there, flushed_clean done.clean there⟩,
      flushed_durable done.toIntact there (settles (settled k) (covered k)), blobs, compression, size⟩
  choose more head synced flushed durable blobs compression size using each
  have total : u.frozen = (xs ++ frozenBy os).length := by rw [count, opened.frozen, length_append]
  refine ⟨u, _, fun k => ps k ++ more k, ran, sync_tables synced, ⟨flushed, fun k => ?_⟩, total, fun k => ⟨durable k, ?_,
    (size k).trans (opened.size k), (compression k).trans (opened.compression k)⟩⟩
  · have := congrArg length (blobs k)
    rw [length_map, length_map, length_column] at this
    rw [length_append, lengths, this]
    exact total.symm ▸ (length_append ..).symm
  · have together : (ps k ++ more k).map Placed.blob = (column (xs ++ frozenBy os) k).map ((f.tables k).encode x) := by
      rw [map_append, same, blobs, column, column, column, map_append, map_append]
    exact blobs_eq (compression k) together

theorem wipes_only_durable (lawful : x.Lawful) {maxFileSize : Nat} {xs : List Record}
    (opened : FreezerOpened x maxFileSize f xs) (fits : ∀ k, FitsAll x (f.tables k) (os.map (Task.op k)))
    (covered : ∀ k, Covered x (f.tables k) (os.map (Task.op k))) : WipesOnlyDurable x maxFileSize order f xs os := by
  obtain ⟨u, v, qs, ran, synced, step, total, each⟩ := sync_in_step opened fits covered
  refine ⟨u, v, ran, synced, fun later room => ?_⟩
  obtain ⟨w, after, tables, -⟩ := tasks_tables order step later room
  refine ⟨w, after, fun cut => ?_⟩
  have final (k : Kind) : (w.tables k).noCompression = (v.tables k).noCompression ∧ (w.tables k).maxFileSize = (v.tables k).maxFileSize ∧
      ∃ z rs j, (w.tables k).reopen (cut k) = some z ∧
        Reopened ((w.tables k).crashed (cut k)) z rs (qs k).length j ∧ rs.take (qs k).length = qs k := by
    obtain ⟨t, rest, run, done, -, compression, size, durables, -, -⟩ := ops_tended (step.tended k) (room k)
    obtain rfl : t = w.tables k := some.inj (run.symm.trans (tables k))
    exact ⟨compression, size, reopen_durable done.toIntact rfl (durables _ [] (append_nil _).symm (each k).1)⟩
  obtain ⟨g, reopened, long, good⟩ := new_freezer_reopened (fun k => (final k).2.1.trans (each k).2.2.1)
    (fun k => (final k).1.trans (each k).2.2.2) step.length fun k => (final k).2.2
  refine ⟨g, reopened, fun number member => ?_⟩
  have frozen : number < v.frozen := mem_range.mp (mem_of_mem_filter member)
  have inside : number < (xs ++ frozenBy os).length := total ▸ frozen
  refine ⟨frozen.trans_le long, inside, fun k => ?_⟩
  have here : number < (column (xs ++ frozenBy os) k).length := by rwa [length_column]
  rw [← column_get inside here]
  exact retrieve_placed lawful (good k).1 (blobs_eq ((good k).2.trans (final k).1) (each k).2.1) here

end Freezers

-- For a table: its items survive every crash after the Sync exactly when no file was left before an fsync
-- covered it. For the freezer: if that holds of its five tables, what it deletes stays readable.
theorem synced_items_survive (x : Snappy) (lawful : x.Lawful) (t : Table) (xs : List Bytes) (opened : Opened x t xs) (os : List Op)
    (fits : FitsAll x t os) (maxFileSize : Nat) (order : Order) (f : Freezer) (records : List Record)
    (freezer : FreezerOpened x maxFileSize f records) (tasks : List Task)
    (room : ∀ k, FitsAll x (f.tables k) (tasks.map (Task.op k))) : (Survives x t xs os ↔ Covered x t os) ∧
      ((∀ k, Covered x (f.tables k) (tasks.map (Task.op k))) → WipesOnlyDurable x maxFileSize order f records tasks) :=
  ⟨survives_iff_covered lawful opened fits, wipes_only_durable lawful freezer room⟩

section Examples

instance (t : Table) : Decidable t.HeadSynced :=
  match h : t.disk t.headId with
  | none => isTrue fun f there => by rw [h] at there; cases there
  | some f => decidable_of_iff (f.content.length ≤ f.synced)
      ⟨fun enough g there => by rw [h] at there; cases there; exact enough, fun synced => synced f h⟩

instance (P : Bytes → Prop) [DecidablePred P] : (o : Op) → Decidable (∀ blob, o = .append blob → P blob)
  | .append blob => decidable_of_iff (P blob) ⟨fun holds other same => by cases same; exact holds, fun all => all blob rfl⟩
  | .sync => isTrue nofun

instance decidableAfter (x : Snappy) (t : Table) (o : Op) (P : Table → Prop) [DecidablePred P] :
    Decidable (∀ u, t.op x o = some u → P u) :=
  match h : t.op x o with
  | none => isTrue nofun
  | some u => decidable_of_iff (P u) ⟨fun holds v same => by cases same; exact holds, fun all => all u rfl⟩

instance decidableFitsAll (x : Snappy) (t : Table) : (os : List Op) → Decidable (FitsAll x t os)
  | [] => isTrue trivial
  | _ :: rest => have : DecidablePred fun u => FitsAll x u rest := fun u => decidableFitsAll x u rest
    inferInstanceAs (Decidable (_ ∧ _))

instance decidableCovered (x : Snappy) (t : Table) : (os : List Op) → Decidable (Covered x t os)
  | [] => isTrue trivial
  | _ :: rest => have : DecidablePred fun u => Covered x u rest := fun u => decidableCovered x u rest
    inferInstanceAs (Decidable (_ ∧ _))

def filled : List Op := [.append [1, 2], .append [3, 4], .sync, .append [5, 6]]

def blocks : List Task := [.append (fun _ => [1, 2]), .append (fun _ => [3, 4])]

theorem synced_items_survive_filled : ∃ t, newCustomTable .empty (fun _ => none) 4 true = some t ∧ Survives plain t [] filled ∧
      ∃ f, create 100 listed = some f ∧ WipesOnlyDurable plain 100 listed f [] blocks := by
  obtain ⟨t, opened, intact, clean, -, -⟩ := new_table_empty 4 true
  obtain ⟨f, created, frozen, tables⟩ := create_tables 100 listed
  have fits : ∀ t ∈ newCustomTable .empty (fun _ => none) 4 true, FitsAll plain t filled ∧ Covered plain t filled := by
    decide +kernel
  have room : ∀ f ∈ create 100 listed, ∀ k, FitsAll plain (f.tables k) (blocks.map (Task.op k)) ∧
      Covered plain (f.tables k) (blocks.map (Task.op k)) := by
    decide +kernel
  have table : Opened plain t [] := ⟨[], ⟨intact, clean⟩, nofun, rfl⟩
  have freezer : FreezerOpened plain 100 f [] := ⟨frozen, fun k => (tables k).2.2.1, fun k => (tables k).2.2.2,
    fun k => ⟨[], ⟨(tables k).1, (tables k).2.1⟩, nofun, rfl⟩⟩
  obtain ⟨survives, wipes⟩ := synced_items_survive plain plain_lawful t [] table filled (fits t opened).1 100 listed f [] freezer blocks
    fun k => (room f created k).1
  exact ⟨t, opened, survives.mpr (fits t opened).2, f, created, wipes fun k => (room f created k).2⟩

-- The second item does not fit the first file, which no fsync covers: after the Sync a crash loses its item.
theorem sync_skips_the_file_left_behind : ((newCustomTable .empty (fun _ => none) 4 true).bind fun t =>
        (t.ops plain [.append [1, 2, 3], .append [4, 5, 6]]).bind fun u => u.sync.bind fun v =>
          (v.reopen ⟨0, fun _ => 0⟩).map fun z =>
            (z.items, (z.retrieve plain 0).toOption, (z.retrieve plain 1).toOption)) = some (2, none, some [4, 5, 6]) := by
  decide +kernel

end Examples

end Didux.Rawdb
