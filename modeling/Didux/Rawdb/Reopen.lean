import Didux.Rawdb.Layout

set_option autoImplicit false

namespace Didux.Rawdb

open Sport Function List Option Table Nat
open Table (zeroEntry)

structure Mending (t : Table) (rs : List Placed) (k j size : Nat) : Prop where
  enough : k ≤ j
  inside : j ≤ rs.length
  indexed : t.index.content = indexBytes (entries (rs.take j))
  indexEnd : t.index.position = t.index.content.length
  held : ∀ p ∈ rs.take k, p.On t
  floor : ∃ f, t.disk (tip zeroEntry (rs.take k)).filenum = some f ∧
    (tip zeroEntry (rs.take k)).offset ≤ f.content.length
  present : ∀ id ≤ (tip zeroEntry (rs.take j)).filenum, (t.disk id).isSome
  files : ∀ id, t.files id = if id = (tip zeroEntry (rs.take j)).filenum then some .readWrite else none
  head : ∃ f, t.disk (tip zeroEntry (rs.take j)).filenum = some f ∧ f.content.length = size ∧ f.position = size

structure SameTable (t u : Table) : Prop where
  noCompression : u.noCompression = t.noCompression
  maxFileSize : u.maxFileSize = t.maxFileSize
  tailId : u.tailId = t.tailId
  itemOffset : u.itemOffset = t.itemOffset

theorem SameTable.refl (t : Table) : SameTable t t := ⟨rfl, rfl, rfl, rfl⟩

theorem SameTable.trans {t u v : Table} (first : SameTable t u) (second : SameTable u v) : SameTable t v :=
  ⟨second.1.trans first.1, second.2.trans first.2, second.3.trans first.3, second.4.trans first.4⟩

def NoLonger (t u : Table) : Prop := ∀ id g, u.disk id = some g → g.content.length ≤ ((t.disk id).getD .empty).content.length

theorem NoLonger.refl (t : Table) : NoLonger t t := fun id g there => by rw [there]; exact le_rfl

theorem NoLonger.trans {t u v : Table} (first : NoLonger t u) (second : NoLonger u v) : NoLonger t v := by
  intro id g there
  refine (second id g there).trans ?_
  cases middle : u.disk id with
  | none => exact zero_le _
  | some f => exact first id f middle

theorem no_longer_update {t u : Table} {n : Nat} {f : File} (disk : u.disk = update t.disk n (some f))
    (short : f.content.length ≤ ((t.disk n).getD .empty).content.length) : NoLonger t u := by
  intro id g there
  rw [disk] at there
  by_cases here : id = n
  · subst here
    rw [update_self] at there
    cases there
    exact short
  · rw [update_of_ne here] at there
    rw [there]
    exact le_rfl

section Loop

variable {t : Table} {rs : List Placed} {k j size : Nat}

theorem chained_take (chain : Chained zeroEntry rs) (j : Nat) : Chained zeroEntry (rs.take j) := by
  have split : rs.take j ++ rs.drop j = rs := take_append_drop j rs
  exact (chained_append.mp (split.symm ▸ chain)).1

theorem tip_take (chain : Chained zeroEntry rs) (fewer : k ≤ j) :
    (tip zeroEntry (rs.take k)).filenum ≤ (tip zeroEntry (rs.take j)).filenum ∧
      ((tip zeroEntry (rs.take k)).filenum = (tip zeroEntry (rs.take j)).filenum →
        (tip zeroEntry (rs.take k)).offset ≤ (tip zeroEntry (rs.take j)).offset) := by
  have split : (rs.take j).take k ++ (rs.take j).drop k = rs.take j := take_append_drop k _
  have chained := chained_take chain j
  rw [← split] at chained
  have ordered := chained_tip (chained_append.mp chained).2
  rw [← tip_append, split, take_take, min_eq_left fewer] at ordered
  exact ordered

theorem take_entry (narrow : ∀ p ∈ rs, p.file < 2 ^ 16 ∧ p.stop < 2 ^ 32) {f : File}
    (indexed : f.content = indexBytes (entries (rs.take j))) (inside : j ≤ rs.length) :
    f.entry j = some (tip zeroEntry (rs.take j)) := by
  have length : (rs.take j).length = j := length_take_of_le inside
  have at_ := entries_getElem (rs.take j) []
  rw [append_nil, length] at at_
  obtain ⟨number, offset⟩ := tip_narrow fun p member => narrow p (mem_of_mem_take (i := j) member)
  exact entry_of_index_bytes ⟨[], by rw [append_nil, indexed]⟩ at_ number offset

theorem drop_entry (indexed : t.index.content = indexBytes (entries (rs.take (j + 1)))) (inside : j + 1 ≤ rs.length) :
    (t.index.truncate ((j + 1) * indexEntrySize)).content = indexBytes (entries (rs.take j)) := by
  have long : (j + 1) * indexEntrySize ≤ t.index.content.length := by
    rw [indexed, length_index_bytes]
    refine mul_le_mul_right _ ?_
    simp only [entries, length_cons, length_map, length_take]
    omega
  rw [truncate_content long, indexed, index_bytes_take, entries_take, take_take, min_eq_left (le_succ j)]

theorem open_for_append {n : Nat} (closed : t.files n = none) : t.openFile n .forAppend = some { t with
      disk := update t.disk n (some ((t.disk n).getD .empty).seekEnd)
      files := update t.files n (some .readWrite) } := by
  rw [openFile, closed]
  rfl

theorem open_for_reading {n : Nat} {f : File} (closed : t.files n = none) (there : t.disk n = some f) :
    t.openFile n .forReadOnly = some { t with
      disk := update t.disk n (some { f with position := 0 })
      files := update t.files n (some .readOnly) } := by
  rw [openFile, closed, there]
  rfl

variable (chain : Chained zeroEntry rs)

include chain

theorem mending_cut (ok : Mending t rs k j size) {f : File} (there : t.disk (tip zeroEntry (rs.take j)).filenum = some f) :
    Mending { t with
      headId := (tip zeroEntry (rs.take j)).filenum
      disk := update t.disk (tip zeroEntry (rs.take j)).filenum
        (some (f.truncate (tip zeroEntry (rs.take j)).offset)) } rs k j (tip zeroEntry (rs.take j)).offset := by
  have fewer {p : Placed} (member : p ∈ rs.take k) : p ∈ rs.take j := take_subset_take_left rs ok.enough member
  obtain ⟨g, same, size, -⟩ := ok.head
  obtain rfl : f = g := some.inj (there.symm.trans same)
  refine ⟨ok.enough, ok.inside, ok.indexed, ok.indexEnd, fun p member => ?_, ?_, fun id small => ?_, ok.files,
    ⟨_, update_self .., length_truncate f _, rfl⟩⟩
  · obtain ⟨h, at_, held⟩ := ok.held p member
    by_cases last : p.file = (tip zeroEntry (rs.take j)).filenum
    · rw [last, there] at at_
      cases at_
      exact ⟨_, by rw [last]; exact update_self .., held_truncate held ((chained_mem (chained_take chain j) (fewer member)).2 last)⟩
    · exact ⟨h, (update_of_ne last _ _).trans at_, held⟩
  · obtain ⟨h, at_, long⟩ := ok.floor
    by_cases last : (tip zeroEntry (rs.take k)).filenum = (tip zeroEntry (rs.take j)).filenum
    · refine ⟨_, by rw [last]; exact update_self .., ?_⟩
      rw [length_truncate]
      exact (tip_take chain ok.enough).2 last
    · exact ⟨h, (update_of_ne last _ _).trans at_, long⟩
  · by_cases last : id = (tip zeroEntry (rs.take j)).filenum
    · rw [last]
      simp
    · have found := ok.present id small
      rwa [← update_of_ne last (some (f.truncate (tip zeroEntry (rs.take j)).offset)) t.disk] at found

theorem mending_back (ok : Mending t rs k (j + 1) size) (beyond : size < (tip zeroEntry (rs.take (j + 1))).offset) :
    let e := tip zeroEntry (rs.take (j + 1))
    let e' := tip zeroEntry (rs.take j)
    let t' := { t with index := t.index.truncate ((j + 1) * indexEntrySize) }
    (e'.filenum = e.filenum → Mending t' rs k j size) ∧
      (e'.filenum ≠ e.filenum → ∃ u head, (t'.releaseFile e.filenum).openFile e'.filenum .forAppend = some u ∧
        u.disk e'.filenum = some head ∧ Mending u rs k j head.content.length ∧ SameTable t u ∧ NoLonger t u) := by
  intro e e' t'
  have indexed := drop_entry ok.indexed ok.inside
  have indexEnd : t'.index.position = t'.index.content.length := (length_truncate _ _).symm
  have inside : j ≤ rs.length := le_of_succ_le ok.inside
  have ordered := tip_take chain (le_succ j)
  -- the first k items reach at most to the end of the file
  have enough : k ≤ j := by
    by_contra more
    obtain rfl : k = j + 1 := by have := ok.enough; omega
    obtain ⟨f, there, long⟩ := ok.floor
    obtain ⟨g, same, length, -⟩ := ok.head
    obtain rfl : f = g := some.inj (there.symm.trans same)
    omega
  refine ⟨fun same => ?_, fun other => ?_⟩
  · have head := ok.head
    have files := ok.files
    have present := ok.present
    rw [show (tip zeroEntry (rs.take (j + 1))).filenum = e'.filenum from same.symm] at head files present
    exact ⟨enough, inside, indexed, indexEnd, ok.held, ok.floor, present, files, head⟩
  · have lower : e'.filenum < e.filenum := lt_of_le_of_ne ordered.1 other
    obtain ⟨f, there⟩ := isSome_iff_exists.mp (ok.present e'.filenum lower.le)
    have closed : (t'.releaseFile e.filenum).files e'.filenum = none := by
      refine (update_of_ne other _ _).trans ?_
      rw [ok.files, if_neg other]
    have step : (t'.releaseFile e.filenum).openFile e'.filenum .forAppend = some { t' with
        disk := update t.disk e'.filenum (some f.seekEnd)
        files := update (update t.files e.filenum none) e'.filenum (some .readWrite) } := by
      rw [open_for_append closed, show (t'.releaseFile e.filenum).disk e'.filenum = some f from there]
      rfl
    refine ⟨_, f.seekEnd, step, update_self .., ?_, ⟨rfl, rfl, rfl, rfl⟩, no_longer_update rfl (by rw [there]; exact le_rfl)⟩
    refine ⟨enough, inside, indexed, indexEnd, fun p member => ?_, ?_, fun id small => ?_, fun id => ?_,
      ⟨_, update_self .., rfl, rfl⟩⟩
    · obtain ⟨g, at_, held⟩ := ok.held p member
      by_cases here : p.file = e'.filenum
      · rw [here, there] at at_
        cases at_
        exact ⟨f.seekEnd, by rw [here]; exact update_self .., held⟩
      · exact ⟨g, (update_of_ne here _ _).trans at_, held⟩
    · obtain ⟨g, at_, long⟩ := ok.floor
      by_cases here : (tip zeroEntry (rs.take k)).filenum = e'.filenum
      · rw [here, there] at at_
        cases at_
        exact ⟨f.seekEnd, by rw [here]; exact update_self .., long⟩
      · exact ⟨g, (update_of_ne here _ _).trans at_, long⟩
    · by_cases here : id = e'.filenum
      · rw [here]
        simp
      · have found := ok.present id (small.trans ordered.1)
        rwa [← update_of_ne here (some f.seekEnd) t.disk] at found
    · by_cases here : id = e'.filenum
      · simp [here, e']
      · rw [if_neg here]
        refine (update_of_ne here _ _).trans ?_
        by_cases last : id = e.filenum
        · rw [last, update_self]
        · rw [update_of_ne last, ok.files, if_neg last]

theorem repair_loop_stops (ok : Mending t rs k j size) (within : (tip zeroEntry (rs.take j)).offset ≤ size) {n : Nat} :
    ∃ u, t.repairLoop n (tip zeroEntry (rs.take j)) size =
        some (u, tip zeroEntry (rs.take j), (tip zeroEntry (rs.take j)).offset, n) ∧
      Mending u rs k j (tip zeroEntry (rs.take j)).offset ∧ SameTable t u ∧ NoLonger t u := by
  rw [repairLoop.eq_def]
  by_cases same : (tip zeroEntry (rs.take j)).offset = size
  · subst same
    rw [if_pos rfl]
    exact ⟨t, rfl, ok, .refl t, .refl t⟩
  · obtain ⟨f, there, length, -⟩ := ok.head
    have writable : t.files (tip zeroEntry (rs.take j)).filenum = some .readWrite := by rw [ok.files, if_pos rfl]
    rw [if_neg same, if_pos (lt_of_le_of_ne within same)]
    have short : (f.truncate (tip zeroEntry (rs.take j)).offset).content.length ≤
        ((t.disk (tip zeroEntry (rs.take j)).filenum).getD .empty).content.length := by
      rw [there, length_truncate, getD_some, length]
      exact within
    refine ⟨_, ?_, mending_cut chain ok there, ⟨rfl, rfl, rfl, rfl⟩, no_longer_update rfl short⟩
    simp only [onHead, writable, there, bind_eq_bind, bind_some]

theorem repair_loop_mending (narrow : ∀ p ∈ rs, p.file < 2 ^ 16 ∧ p.stop < 2 ^ 32) (ok : Mending t rs k j size) :
    ∃ u i, t.repairLoop (j + 1) (tip zeroEntry (rs.take j)) size =
        some (u, tip zeroEntry (rs.take i), (tip zeroEntry (rs.take i)).offset, i + 1) ∧
      Mending u rs k i (tip zeroEntry (rs.take i)).offset ∧ SameTable t u ∧ NoLonger t u := by
  induction j generalizing t size with
  | zero =>
    obtain ⟨u, stopped, done, same⟩ := repair_loop_stops chain ok (zero_le _)
    exact ⟨u, 0, stopped, done, same⟩
  | succ j ih =>
    by_cases within : (tip zeroEntry (rs.take (j + 1))).offset ≤ size
    · obtain ⟨u, stopped, done, same⟩ := repair_loop_stops chain ok within
      exact ⟨u, j + 1, stopped, done, same⟩
    · have beyond : size < (tip zeroEntry (rs.take (j + 1))).offset := Nat.lt_of_not_le within
      have last := take_entry narrow (drop_entry ok.indexed ok.inside) (le_of_succ_le ok.inside)
      obtain ⟨stay, move⟩ := mending_back chain ok beyond
      rw [repairLoop, if_neg beyond.ne', if_neg (not_lt.mpr beyond.le)]
      simp only [Nat.add_sub_cancel, last, Option.getD_some]
      by_cases file : (tip zeroEntry (rs.take j)).filenum = (tip zeroEntry (rs.take (j + 1))).filenum
      · rw [if_neg (not_not.mpr file)]
        obtain ⟨u, i, run, done, same, shrunk⟩ := ih (stay file)
        exact ⟨u, i, run, done, ⟨same.1, same.2, same.3, same.4⟩, shrunk⟩
      · rw [if_pos file]
        obtain ⟨u, head, opened, there, moved, same, shrunk⟩ := move file
        obtain ⟨v, i, run, done, again, more⟩ := ih moved
        refine ⟨v, i, ?_, done, same.trans again, shrunk.trans more⟩
        simp only [opened, there, bind_eq_bind, bind_some]
        exact run

end Loop

section Opening

variable {t : Table} {rs : List Placed} {k : Nat}

structure Preopened (t u : Table) (low n : Nat) : Prop where
  same : SameTable t u
  items : u.items = t.items
  index : u.index = t.index
  headId : u.headId = t.headId
  headBytes : u.headBytes = t.headBytes
  data : ∀ id, (u.disk id).map File.content = (t.disk id).map File.content
  kept : ∀ id, t.files id ≠ none ∨ n ≤ id → u.disk id = t.disk id
  files : ∀ id, u.files id = if t.files id = none ∧ low ≤ id ∧ id < n then some .readOnly else t.files id

theorem preopen_range {low n : Nat} (present : ∀ id, low ≤ id → id < low + n → (t.disk id).isSome) :
    ∃ u, t.preopenRange low n = some u ∧ Preopened t u low (low + n) := by
  induction n with
  | zero =>
    refine ⟨t, rfl, .refl t, rfl, rfl, rfl, rfl, fun _ => rfl, fun _ _ => rfl, fun id => ?_⟩
    rw [if_neg fun both => absurd both.2.1 (not_le.mpr both.2.2)]
  | succ n ih =>
    obtain ⟨u, run, ok⟩ := ih fun id large small => present id large (lt_succ_of_lt small)
    obtain ⟨f, there⟩ := isSome_iff_exists.mp (present (low + n) (le_add_right _ _) (lt_succ_self _))
    simp only [preopenRange, run, bind_eq_bind, bind_some]
    rw [show low + (n + 1) = low + n + 1 from rfl]
    have reach : low ≤ low + n := le_add_right _ _
    generalize low + n = n at *
    have unread : u.disk n = some f := (ok.kept n (.inr le_rfl)).trans there
    have state : u.files n = t.files n := by rw [ok.files, if_neg (by simp)]
    cases open_ : t.files n with
    | some access =>
      refine ⟨u, by rw [openFile, state, open_], ok.same, ok.items, ok.index, ok.headId, ok.headBytes, ok.data,
        fun id which => ?_, fun id => ?_⟩
      · by_cases here : id = n
        · exact ok.kept id (.inr here.ge)
        · exact ok.kept id (which.imp_right fun after => by omega)
      · rw [ok.files]
        by_cases here : id = n
        · simp [here, open_]
        · congr 1
          simp only [eq_iff_iff, and_congr_right_iff]
          omega
    | none =>
      refine ⟨_, open_for_reading (state.trans open_) unread, ⟨ok.same.1, ok.same.2, ok.same.3, ok.same.4⟩, ok.items,
        ok.index, ok.headId, ok.headBytes, fun id => ?_, fun id which => ?_, fun id => ?_⟩
      · by_cases here : id = n
        · rw [here, there]
          simp
        · rw [← ok.data id]
          exact congrArg _ (update_of_ne here _ _)
      · have other : id ≠ n := by
          rintro rfl
          exact which.elim (fun opened => opened open_) fun after => absurd after (not_succ_le_self id)
        exact (update_of_ne other _ _).trans (ok.kept id (which.imp_right fun after => by omega))
      · by_cases here : id = n
        · rw [here]
          simp [open_, reach]
        · refine (update_of_ne here _ _).trans ?_
          rw [ok.files]
          congr 1
          simp only [eq_iff_iff, and_congr_right_iff]
          omega

theorem preopen_head (t : Table) (tail : t.tailId ≤ t.headId) (present : ∀ id, t.tailId ≤ id → id ≤ t.headId → (t.disk id).isSome)
    (files : ∀ id, t.files id = if id = t.headId then some .readWrite else none)
    (atEnd : ∀ f, t.disk t.headId = some f → f.position = f.content.length) :
    ∃ u, t.preopen = some u ∧ SameTable t u ∧ u.items = t.items ∧ u.index = t.index ∧ u.headId = t.headId ∧
      u.headBytes = t.headBytes ∧ (∀ id, (u.disk id).map File.content = (t.disk id).map File.content) ∧
      (∀ id, t.tailId ≤ id → id ≤ t.headId → (u.files id).isSome) ∧ (∀ id, t.headId < id → u.files id = none) ∧
      u.files t.headId = some .readWrite ∧
      ∀ f, u.disk t.headId = some f → f.position = f.content.length := by
  have released (id : Nat) : (t.releaseFilesAfter 0 false).files id = if id = t.headId ∧ id = 0 then some .readWrite else none := by
    simp only [releaseFilesAfter, files]
    rcases Nat.eq_zero_or_pos id with rfl | pos
    · simp
    · rw [if_pos pos, if_neg (fun both => absurd both.2 pos.ne')]
  have disk : (t.releaseFilesAfter 0 false).disk = t.disk := by
    simp [releaseFilesAfter]
  have all : t.tailId + (t.headId - t.tailId) = t.headId := Nat.add_sub_cancel' tail
  obtain ⟨u, run, ok⟩ := preopen_range fun id large small => by
    rw [disk]
    exact present id large (small.le.trans all.le)
  rw [all] at ok
  have data (id : Nat) : (u.disk id).map File.content = (t.disk id).map File.content := by rw [ok.data, disk]
  have below (id : Nat) (large : t.tailId ≤ id) (small : id < t.headId) : u.files id = some .readOnly := by
    rw [ok.files, if_pos]
    exact ⟨by rw [released, if_neg (fun both => absurd both.1 small.ne)], large, small⟩
  have above (id : Nat) (large : t.headId < id) : u.files id = none := by
    rw [ok.files, if_neg (fun both => absurd both.2.2 large.le.not_gt), released, if_neg (fun both => absurd both.1 large.ne')]
  have step : t.preopen = u.openFile t.headId .forAppend := by
    simp only [preopen, bind_eq_bind]
    rw [show (t.releaseFilesAfter 0 false).tailId = t.tailId from rfl, show (t.releaseFilesAfter 0 false).headId = t.headId from rfl,
      run, bind_some, ok.headId]
    rfl
  rcases Nat.eq_zero_or_pos t.headId with first | later
  · -- file 0 is still open for writing
    have open_ : u.files t.headId = some .readWrite := by
      rw [ok.files, if_neg (fun both => absurd both.2.2 (lt_irrefl _)), released, if_pos ⟨rfl, first⟩]
    have same : u.disk t.headId = t.disk t.headId := by rw [ok.kept _ (.inr le_rfl), disk]
    refine ⟨u, by rw [step, openFile, open_], ⟨ok.same.1, ok.same.2, ok.same.3, ok.same.4⟩, ok.items, ok.index, ok.headId,
      ok.headBytes, data, fun id large small => ?_, above, open_, fun f there => atEnd f (same ▸ there)⟩
    rcases lt_or_eq_of_le small with lower | rfl
    · rw [below id large lower]
      rfl
    · rw [open_]
      rfl
  · have closed : u.files t.headId = none := by
      rw [ok.files, if_neg (fun both => absurd both.2.2 (lt_irrefl _)), released, if_neg (fun both => absurd both.2 later.ne')]
    obtain ⟨f, there⟩ := isSome_iff_exists.mp (present t.headId tail le_rfl)
    have same : u.disk t.headId = some f := by rw [ok.kept _ (.inr le_rfl), disk, there]
    refine ⟨_, step.trans (open_for_append closed), ⟨ok.same.1, ok.same.2, ok.same.3, ok.same.4⟩, ok.items, ok.index, ok.headId,
      ok.headBytes, fun id => ?_, fun id large small => ?_, fun id large => ?_, update_self .., fun g head => ?_⟩
    · by_cases here : id = t.headId
      · rw [here, there]
        simp [same, File.seekEnd]
      · rw [← data id]
        exact congrArg _ (update_of_ne here _ _)
    · rcases lt_or_eq_of_le small with lower | rfl
      · have opened := below id large lower
        rw [← update_of_ne lower.ne (some Access.readWrite) u.files] at opened
        exact isSome_iff_exists.mpr ⟨_, opened⟩
      · simp
    · exact (update_of_ne large.ne' _ _).trans (above id large)
    · have written : update u.disk t.headId (some ((u.disk t.headId).getD .empty).seekEnd) t.headId = some g := head
      rw [update_self] at written
      rw [← some.inj written]
      rfl

structure Reopened (t u : Table) (rs : List Placed) (k j : Nat) : Prop where
  enough : k ≤ j
  inside : j ≤ rs.length
  shape : Shape u (rs.take j)
  held : ∀ p ∈ rs.take k, p.On u
  items : u.items = j
  indexed : u.index.content = indexBytes (entries (rs.take j))
  indexEnd : u.index.position = u.index.content.length
  headId : u.headId = (tip zeroEntry (rs.take j)).filenum
  headBytes : u.headBytes = (tip zeroEntry (rs.take j)).offset
  headEnd : ∀ f, u.disk u.headId = some f → f.position = f.content.length
  clean : u.Clean
  shrunk : NoLonger t u
  noCompression : u.noCompression = t.noCompression
  maxFileSize : u.maxFileSize = t.maxFileSize

structure Found (t : Table) (rs : List Placed) (k : Nat) : Prop where
  chain : Chained zeroEntry rs
  narrow : ∀ p ∈ rs, p.file < 2 ^ 16 ∧ p.stop < 2 ^ 32
  inside : k ≤ rs.length
  indexed : (repairIndex t.index).content = indexBytes (entries rs)
  indexEnd : (repairIndex t.index).position = (repairIndex t.index).content.length
  closed : ∀ id, t.files id = none
  held : ∀ p ∈ rs.take k, p.On t
  floor : (tip zeroEntry (rs.take k)).offset ≤ ((t.disk (tip zeroEntry (rs.take k)).filenum).getD .empty).content.length
  present : ∀ id < (tip zeroEntry rs).filenum, (t.disk id).isSome

theorem content_exists {first second : Option File} (same : first.map File.content = second.map File.content) :
    first.isSome = second.isSome := by
  rw [← isSome_map, same, isSome_map]

theorem content_held {p : Placed} {first second : Option File} (same : first.map File.content = second.map File.content)
    (held : ∃ f, second = some f ∧ p.Held f) : ∃ f, first = some f ∧ p.Held f := by
  obtain ⟨f, rfl, held⟩ := held
  obtain ⟨g, rfl, equal⟩ := map_eq_some_iff.mp same
  exact ⟨g, rfl, by rw [Placed.Held, equal]; exact held⟩

theorem reopened_loose {u : Table} {j : Nat} (ok : Reopened t u rs k j) : Loose u (rs.take k) := by
  have first : (rs.take j).take k = rs.take k := by rw [take_take, min_eq_left ok.enough]
  exact ⟨first ▸ shape_take ok.shape k, ok.held⟩

structure Resumed (t u : Table) (id entries headBytes : Nat) : Prop where
  same : SameTable t u
  items : u.items = countItems t.itemOffset entries
  index : u.index = t.index.sync
  headId : u.headId = id
  headBytes : u.headBytes = headBytes
  data : ∀ i, (u.disk i).map File.content = (t.disk i).map File.content
  opened : ∀ i, t.tailId ≤ i → i ≤ id → (u.files i).isSome
  closed : ∀ i, id < i → u.files i = none
  writable : u.files id = some .readWrite
  headEnd : ∀ f, u.disk id = some f → f.position = f.content.length

theorem sync_preopen {id : Nat} {f : File} (there : t.disk id = some f) (atEnd : f.position = f.content.length)
    (files : ∀ i, t.files i = if i = id then some .readWrite else none) (tail : t.tailId ≤ id)
    (present : ∀ i, t.tailId ≤ i → i ≤ id → (t.disk i).isSome) (entries headBytes : Nat) :
    ∃ v u, ({ t with headId := id } : Table).sync = some v ∧
      preopen { v with items := countItems v.itemOffset entries, headBytes := headBytes } = some u ∧
      Resumed t u id entries headBytes := by
  have writable : t.files id = some .readWrite := by rw [files, if_pos rfl]
  have sync : ({ t with headId := id } : Table).sync = some { t with
      headId := id
      index := t.index.sync
      disk := update t.disk id (some f.sync) } := by
    simp only [sync, onHead, writable, there]
  have content (i : Nat) : (update t.disk id (some f.sync) i).map File.content = (t.disk i).map File.content := by
    by_cases here : i = id
    · rw [here, there, update_self]
      rfl
    · rw [update_of_ne here]
  have writes (g : File) (at_ : update t.disk id (some f.sync) id = some g) : g.position = g.content.length := by
    rw [update_self] at at_
    rw [← some.inj at_]
    exact atEnd
  obtain ⟨u, run, same, items, index, headId, headBytes, data, opened, closed, head, headEnd⟩ := preopen_head { t with
      headId := id
      index := t.index.sync
      disk := update t.disk id (some f.sync)
      items := countItems t.itemOffset entries
      headBytes := headBytes } tail (fun i large small => (content_exists (content i)).trans (present i large small)) files writes
  exact ⟨_, u, sync, run, ⟨same.1, same.2, same.3, same.4⟩, items, index, headId, headBytes, fun i => (data i).trans (content i), opened,
    closed, head, headEnd⟩

theorem mended_reopened (chain : Chained zeroEntry rs) (narrow : ∀ p ∈ rs, p.file < 2 ^ 16 ∧ p.stop < 2 ^ 32) {j : Nat}
    (ok : Mending t rs k j (tip zeroEntry (rs.take j)).offset) (tail : t.tailId = 0) (whole : t.itemOffset = 0) :
    ∃ v u, ({ t with headId := (tip zeroEntry (rs.take j)).filenum } : Table).sync = some v ∧
      preopen { v with
        items := countItems v.itemOffset (j + 1)
        headBytes := uint32 (tip zeroEntry (rs.take j)).offset } = some u ∧ Reopened t u rs k j := by
  obtain ⟨f, there, length, atEnd⟩ := ok.head
  generalize last : tip zeroEntry (rs.take j) = e at *
  have offset : uint32 e.offset = e.offset := by
    rw [← last]
    exact uint32_of_lt (tip_narrow fun p member => narrow p (mem_of_mem_take member)).2
  have count : countItems t.itemOffset (j + 1) = j := by simp [countItems, whole]
  obtain ⟨v, u, sync, run, done⟩ := sync_preopen there (atEnd.trans length.symm) (last ▸ ok.files) (tail ▸ zero_le _)
    (fun id _ small => ok.present id (last ▸ small)) (j + 1) (uint32 e.offset)
  refine ⟨v, u, sync, run, ?_⟩
  have headId := done.headId
  have indexed : u.index.content = indexBytes (entries (rs.take j)) := (congrArg File.content done.index).trans ok.indexed
  refine ⟨ok.enough, ok.inside, ?_, fun p member => content_held (done.data p.file) (ok.held p member), done.items.trans count,
    indexed, ?_,
    headId.trans (congrArg IndexEntry.filenum last.symm), ?_, ?_, ?_, ?_, done.same.noCompression, done.same.maxFileSize⟩
  · refine ⟨?_, done.same.itemOffset.trans whole, ⟨[], by rw [append_nil]; exact indexed.symm⟩, chained_take chain j,
      fun p member => narrow p (mem_of_mem_take member), fun id small => ?_, fun id large => done.closed id (headId ▸ large), ?_, ?_⟩
    · rw [done.items]
      exact (length_take_le j rs).trans count.ge
    · rw [headId] at small
      exact ⟨done.opened id (tail ▸ zero_le id) small, (content_exists (done.data id)).trans (ok.present id (last ▸ small))⟩
    · rw [headId]
      exact done.writable
    · rw [headId, last]
  · rw [done.index]
    exact ok.indexEnd
  · rw [done.headBytes, last]
    exact offset
  · rw [headId]
    exact done.headEnd
  · intro g at_
    rw [headId] at at_
    have equal := done.data e.filenum
    rw [at_, there] at equal
    rw [done.headBytes, some.inj equal, length]
    exact offset.symm
  · intro id g at_
    have equal := done.data id
    rw [at_] at equal
    obtain ⟨h, found, content⟩ := map_eq_some_iff.mp equal.symm
    rw [found, getD_some, content]

def Table.headFile (t : Table) (filenum : Nat) : File := ((t.disk filenum).getD .empty).seekEnd

def Table.entered (t : Table) (e : IndexEntry) : Table :=
  { t with
    index := repairIndex t.index
    tailId := 0
    itemOffset := 0
    disk := update t.disk e.filenum (some (t.headFile e.filenum))
    files := update t.files e.filenum (some .readWrite) }

theorem entered_mending (ok : Found t rs k) :
    Mending (t.entered (tip zeroEntry rs)) rs k rs.length (t.headFile (tip zeroEntry rs).filenum).content.length := by
  have all : rs.take rs.length = rs := take_length
  have below : (tip zeroEntry (rs.take k)).filenum ≤ (tip zeroEntry rs).filenum := by
    have := (tip_take ok.chain ok.inside).1
    rwa [all] at this
  refine ⟨ok.inside, le_rfl, by rw [all]; exact ok.indexed, ok.indexEnd, fun p member => ?_, ?_, fun id small => ?_, fun id => ?_, ?_⟩
  · obtain ⟨f, there, held⟩ := ok.held p member
    by_cases here : p.file = (tip zeroEntry rs).filenum
    · refine ⟨t.headFile p.file, by rw [here]; exact update_self .., ?_⟩
      rw [headFile, there]
      exact held
    · exact ⟨f, (update_of_ne here _ _).trans there, held⟩
  · by_cases here : (tip zeroEntry (rs.take k)).filenum = (tip zeroEntry rs).filenum
    · exact ⟨t.headFile (tip zeroEntry rs).filenum, by rw [here]; exact update_self .., here ▸ ok.floor⟩
    · obtain ⟨f, there⟩ := isSome_iff_exists.mp (ok.present _ (lt_of_le_of_ne below here))
      refine ⟨f, (update_of_ne here _ _).trans there, ?_⟩
      have floor := ok.floor
      rwa [there] at floor
  · rw [all] at small
    by_cases here : id = (tip zeroEntry rs).filenum
    · rw [here]
      exact isSome_iff_exists.mpr ⟨_, update_self ..⟩
    · have found := ok.present id (lt_of_le_of_ne small here)
      rwa [← update_of_ne here (some (t.headFile (tip zeroEntry rs).filenum)) t.disk] at found
  · rw [all]
    by_cases here : id = (tip zeroEntry rs).filenum
    · rw [if_pos here, here]
      exact update_self ..
    · rw [if_neg here]
      exact (update_of_ne here _ _).trans (ok.closed id)
  · rw [all]
    exact ⟨_, update_self .., rfl, rfl⟩

theorem repair_found (ok : Found t rs k) : ∃ u j, t.repair = some u ∧ Reopened t u rs k j := by
  have length : (repairIndex t.index).content.length / indexEntrySize = rs.length + 1 := by
    rw [ok.indexed, length_index_bytes, Nat.mul_div_cancel _ (by decide)]
    simp [entries]
  have all : rs.take rs.length = rs := take_length
  have lastEntry : (repairIndex t.index).entry rs.length = some (tip zeroEntry rs) := by
    have := take_entry (j := rs.length) ok.narrow (ok.indexed.trans (by rw [all])) le_rfl
    rwa [all] at this
  have firstEntry : (repairIndex t.index).entry 0 = some zeroEntry :=
    entry_of_index_bytes ⟨[], by rw [List.append_nil, ok.indexed]⟩ rfl (Nat.two_pow_pos 16) (Nat.two_pow_pos 32)
  obtain ⟨v, j, loop, mended, same, shrunk⟩ := repair_loop_mending ok.chain ok.narrow (entered_mending ok)
  obtain ⟨w, u, synced, opened, done⟩ := mended_reopened ok.chain ok.narrow mended same.tailId same.itemOffset
  rw [all] at loop
  have opening : NoLonger t (t.entered (tip zeroEntry rs)) := no_longer_update rfl le_rfl
  refine ⟨u, j, ?_, { done with
    shrunk := (opening.trans shrunk).trans done.shrunk
    noCompression := done.noCompression.trans same.1
    maxFileSize := done.maxFileSize.trans same.2 }⟩
  have entered : ({ t with index := repairIndex t.index, tailId := zeroEntry.offset, itemOffset := zeroEntry.filenum } :
      Table).openFile (tip zeroEntry rs).filenum .forAppend = some (t.entered (tip zeroEntry rs)) :=
    open_for_append (t := { t with index := repairIndex t.index, tailId := 0, itemOffset := 0 }) (ok.closed _)
  have head : (t.entered (tip zeroEntry rs)).disk (tip zeroEntry rs).filenum =
      some (t.headFile (tip zeroEntry rs).filenum) := update_self ..
  simp only [Table.repair, length, Nat.add_sub_cancel, lastEntry, firstEntry, Option.getD_some, Option.bind_eq_bind]
  rw [entered, Option.bind_some, head, Option.bind_some, loop, Option.bind_some]
  simp only [synced]
  exact opened

end Opening

end Didux.Rawdb
