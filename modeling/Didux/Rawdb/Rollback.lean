import Didux.Rawdb.Freezer
import Didux.Rawdb.Reopen

set_option autoImplicit false

namespace Didux.Rawdb

open Sport Function List Freezer

section Tables

variable {x : Snappy} {t u : Table} {blobs : List Bytes} {blob : Bytes}

def Stored (x : Snappy) (t : Table) (blobs : List Bytes) : Prop :=
  ∃ ps, Intact t ps ∧ ps.map Placed.blob = blobs.map (t.encode x)

def Ahead (x : Snappy) (t : Table) (blobs : List Bytes) : Prop :=
  t.items = blobs.length + 1 ∧ ∃ ps, Loose t ps ∧ ps.map Placed.blob = blobs.map (t.encode x)

def Table.Roomy (x : Snappy) (t : Table) (blob : Bytes) : Prop :=
  t.overflows (uint32 (t.encode x blob).length) = true → t.headId + 1 < 2 ^ 32

structure Table.Fits (x : Snappy) (t : Table) (blob : Bytes) : Prop where
  size : (t.encode x blob).length < 2 ^ 32
  number : (if t.overflows (t.encode x blob).length = true then t.headId + 1 else t.headId) < 2 ^ 16
  clear : t.Clean ∨ t.overflows (t.encode x blob).length = true ∨ t.encode x blob = []

theorem encode_eq (same : u.noCompression = t.noCompression) : u.encode x = t.encode x := by
  funext blob
  rw [Table.encode, Table.encode, same]

variable {ps : List Placed}

theorem blobs_eq (same : u.noCompression = t.noCompression) (stored : ps.map Placed.blob = blobs.map (t.encode x)) :
    ps.map Placed.blob = blobs.map (u.encode x) := by
  rw [encode_eq same]
  exact stored

theorem decode_encode (lawful : x.Lawful) : t.decode x (t.encode x blob) = some blob := by
  rw [Table.encode, Table.decode]
  split
  next => rfl
  next => exact lawful.decode_encode blob

theorem placed_length (same : ps.map Placed.blob = blobs.map (t.encode x)) : ps.length = blobs.length := by
  simpa using congrArg length same

theorem stored_items (stored : Stored x t blobs) : t.items = blobs.length := by
  obtain ⟨ps, ok, same⟩ := stored
  rw [ok.items, placed_length same]

theorem retrieve_placed (lawful : x.Lawful) (ok : Loose t ps) (same : ps.map Placed.blob = blobs.map (t.encode x)) {i : Nat}
    (inside : i < blobs.length) : t.retrieve x i = .ok (blobs.get ⟨i, inside⟩) := by
  have length := placed_length same
  have here : i < ps.length := length ▸ inside
  have blob : (ps.get ⟨i, here⟩).blob = t.encode x (blobs.get ⟨i, inside⟩) := by
    have at_ := congrArg (fun l => l[i]?) same
    simpa [here, inside] using at_
  have found := retrieve_loose ok _ _ _ (split_at here) (blob ▸ decode_encode lawful)
  rwa [length_take_of_le here.le] at found

theorem truncate_stored (stored : Stored x t blobs) {k : Nat} :
    ∃ u, t.truncate k = (u, none) ∧ Stored x u (blobs.take k) ∧ u.noCompression = t.noCompression := by
  have items := stored_items stored
  obtain ⟨ps, ok, same⟩ := stored
  by_cases few : t.items ≤ k
  · refine ⟨t, by rw [Table.truncate, if_pos few], ⟨ps, ok, ?_⟩, rfl⟩
    rw [take_of_length_le (items ▸ few)]
    exact same
  · have more : k < t.items := Nat.lt_of_not_le few
    obtain ⟨u, run, cut, -, compression⟩ := truncate_loose ok.toLoose (ok.items ▸ more.le) more
    refine ⟨u, run, ⟨ps.take k, cut, ?_⟩, compression⟩
    rw [encode_eq compression, map_take, same, map_take]

theorem truncate_ahead (ahead : Ahead x t blobs) :
    ∃ u, t.truncate blobs.length = (u, none) ∧ Stored x u blobs ∧ u.noCompression = t.noCompression := by
  obtain ⟨items, ps, ok, same⟩ := ahead
  have length := placed_length same
  obtain ⟨u, run, cut, -, compression⟩ := truncate_loose ok length.ge (by omega)
  refine ⟨u, run, ⟨ps, ?_, blobs_eq compression same⟩, compression⟩
  rwa [take_of_length_le length.le] at cut

variable {index : Written}

theorem append_part_stored (stored : Stored x t blobs) (roomy : t.Roomy x blob) {n : Nat} :
    ∃ u, t.append x blobs.length blob (.part n) index = (u, some .shortWrite) ∧ Stored x u blobs ∧
      u.noCompression = t.noCompression := by
  have items := stored_items stored
  obtain ⟨ps, ok, same⟩ := stored
  obtain ⟨f, there⟩ := ok.headFile
  have run := append_ready ok.items ok.writable (ok.closed _ (Nat.lt_succ_self _)) there blob (.part n) index roomy
  obtain ⟨ready, head⟩ := ready_intact ok there (uint32 (t.encode x blob).length)
  obtain ⟨-, compression, -, -⟩ := ready_kept (t := t) (f := f) (uint32 (t.encode x blob).length)
  rw [← ok.items, items] at run
  exact ⟨_, run, ⟨ps, put_intact ready head _, blobs_eq compression same⟩, compression⟩

def Table.grown (x : Snappy) (t : Table) (f : File) (blob : Bytes) : Table :=
  ((t.ready (t.encode x blob).length f).1.put ((t.ready (t.encode x blob).length f).2.write (t.encode x blob))).note
    (t.encode x blob).length .whole

theorem grown_placed {f : File} (ok : Intact t ps) (there : t.disk t.headId = some f) (fits : t.Fits x blob) :
    ∃ p : Placed, p.blob = t.encode x blob ∧ p.file = (t.grown x f blob).headId ∧ Intact (t.grown x f blob) (ps ++ [p]) := by
  obtain ⟨ready, head⟩ := ready_intact ok there (t.encode x blob).length
  have number : (t.ready (t.encode x blob).length f).1.headId < 2 ^ 16 := by
    have := fits.number
    rw [Table.ready]
    split at this
    next full => rw [if_pos full]; exact this
    next full => rw [if_neg full]; exact this
  have clear : (t.ready (t.encode x blob).length f).1.Clean ∨ t.encode x blob = [] := by
    rcases fits.clear with clean | full | none
    · exact .inl (ready_clean _ (.inl clean))
    · exact .inl (ready_clean _ (.inr full))
    · exact .inr none
  exact ⟨⟨_, _, t.encode x blob⟩, rfl, rfl, note_intact (put_intact ready head _) (t.encode x blob) number (ready_room ok fits.size)
    ⟨_, put_head _, put_held ready head _ clear⟩⟩

theorem append_whole_stored (stored : Stored x t blobs) (roomy : t.Roomy x blob) :
    ∃ u, t.append x blobs.length blob .whole index = (u, none) ∧ Ahead x u blobs ∧ u.noCompression = t.noCompression ∧
      (index = .whole → t.Fits x blob → Stored x u (blobs ++ [blob])) := by
  have items := stored_items stored
  obtain ⟨ps, ok, same⟩ := stored
  obtain ⟨f, there⟩ := ok.headFile
  have run := append_ready ok.items ok.writable (ok.closed _ (Nat.lt_succ_self _)) there blob .whole index roomy
  obtain ⟨ready, head⟩ := ready_intact ok there (uint32 (t.encode x blob).length)
  obtain ⟨counted, compression, -, -⟩ := ready_kept (t := t) (f := f) (uint32 (t.encode x blob).length)
  have put := put_intact ready head (t.encode x blob)
  rw [← ok.items, items] at run
  refine ⟨_, run, ⟨?_, ps, note_loose put _ index, blobs_eq compression same⟩, compression, fun whole fits => ?_⟩
  · rw [← items, ← counted]
    rfl
  · subst whole
    rw [uint32_of_lt fits.size] at compression ⊢
    obtain ⟨p, placed, -, grown⟩ := grown_placed ok there fits
    refine ⟨ps ++ [p], grown, blobs_eq compression ?_⟩
    simp only [map_append, same, map_cons, map_nil, placed]

end Tables

section Freezers

variable {x : Snappy} {xs : List Record} {tables : Kind → Table}

def column (xs : List Record) (k : Kind) : List Bytes := xs.map fun record => record k

@[simp] theorem length_column (k : Kind) : (column xs k).length = xs.length := length_map ..

theorem column_get {k : Kind} {i : Nat} (inside : i < xs.length) (here : i < (column xs k).length) :
    (column xs k).get ⟨i, here⟩ = xs.get ⟨i, inside⟩ k := by
  simp [column]

def Roomy (x : Snappy) (tables : Kind → Table) (record : Record) (writes : Kind → Written × Written) : List Kind → Prop
  | [] => True
  | k :: ks => (tables k).Roomy x (record k) ∧ ((writes k).1 = .whole → Roomy x tables record writes ks)

variable {ks : List Kind}

theorem roomy_congr {record : Record} {writes : Kind → Written × Written} {others : Kind → Table}
    (same : ∀ k ∈ ks, others k = tables k) (roomy : Roomy x tables record writes ks) : Roomy x others record writes ks := by
  induction ks with
  | nil => trivial
  | cons k ks ih =>
    refine ⟨?_, fun whole => ih (fun j member => same j (mem_cons_of_mem k member)) (roomy.2 whole)⟩
    rw [same k mem_cons_self]
    exact roomy.1

theorem update_outside {j k : Kind} (t : Table) (other : j ∉ k :: ks) : update tables k t j = tables j :=
  update_of_ne (ne_of_not_mem_cons other) _ _

theorem update_rest {j k : Kind} (t : Table) (fresh : k ∉ ks) (member : j ∈ ks) :
    update tables k t j = tables j :=
  update_of_ne (ne_of_mem_of_not_mem member fresh) _ _

theorem append_tables (xs : List Record) (record : Record) (writes : Kind → Written × Written) (ks : List Kind) (nodup : ks.Nodup)
    (stored : ∀ k ∈ ks, Stored x (tables k) (column xs k)) (roomy : Roomy x tables record writes ks) :
    ∃ next error, appendTables x xs.length record writes ks tables = (next, error) ∧
      (∀ k, k ∉ ks → next k = tables k) ∧
      (error = none ↔ ∀ k ∈ ks, (writes k).1 = .whole) ∧
      (error = none → ∀ k ∈ ks, (writes k).2 = .whole → (tables k).Fits x (record k) →
        Stored x (next k) (column (xs ++ [record]) k)) ∧
      (∀ k ∈ ks, Ahead x (next k) (column xs k) ∨ Stored x (next k) (column xs k)) ∧
      (error ≠ none → ∃ k ∈ ks, Stored x (next k) (column xs k)) := by
  induction ks generalizing tables with
  | nil => exact ⟨tables, none, rfl, fun _ _ => rfl, by simp, nofun, nofun, fun bad => absurd rfl bad⟩
  | cons k ks ih =>
    obtain ⟨fresh, rest⟩ := nodup_cons.mp nodup
    have here := stored k mem_cons_self
    rw [appendTables]
    have length : (column xs k).length = xs.length := length_column k
    cases data : (writes k).1 with
    | part n =>
      obtain ⟨u, run, kept, -⟩ := append_part_stored here roomy.1
      rw [length] at run
      rw [run]
      refine ⟨_, _, rfl, fun j other => update_outside u other, ?_, nofun,
        fun j member => .inr ?_, fun _ => ⟨k, mem_cons_self, by rw [update_self]; exact kept⟩⟩
      · refine ⟨nofun, fun all => ?_⟩
        have := all k mem_cons_self
        rw [data] at this
        cases this
      · by_cases same : j = k
        · rw [same, update_self]
          exact kept
        · rw [update_of_ne same]
          exact stored j member
    | whole =>
      obtain ⟨u, run, ahead, -, fits⟩ := append_whole_stored here roomy.1
      rw [length] at run
      rw [run]
      have others (j : Kind) (member : j ∈ ks) : update tables k u j = tables j :=
        update_rest u fresh member
      obtain ⟨next, error, later, outside, whole, done, each, some_⟩ := ih rest
        (fun j member => by rw [others j member]; exact stored j (mem_cons_of_mem k member))
        (roomy_congr others (roomy.2 data))
      have first : next k = u := (outside k fresh).trans (update_self ..)
      refine ⟨next, error, later, fun j other => ?_, ?_, fun none j member index fit => ?_, fun j member => ?_, fun bad => ?_⟩
      · rw [outside j fun member => other (mem_cons_of_mem k member)]
        exact update_outside u other
      · rw [whole, forall_mem_cons, and_iff_right data]
      · rcases mem_cons.mp member with rfl | later
        · rw [first, column, map_append]
          exact fits index fit
        · exact done none j later index (by rw [others j later]; exact fit)
      · rcases mem_cons.mp member with rfl | later
        · rw [first]
          exact .inl ahead
        · exact each j later
      · obtain ⟨j, member, kept⟩ := some_ bad
        exact ⟨j, mem_cons_of_mem k member, kept⟩

theorem truncate_tables (tables : Kind → Table) (items : Nat) (Q : Kind → Table → Prop) (ks : List Kind) (nodup : ks.Nodup)
    (each : ∀ k ∈ ks, ∃ u, (tables k).truncate items = (u, none) ∧ Q k u) :
    ∃ next, truncateTables items ks tables = (next, none) ∧ (∀ k, k ∉ ks → next k = tables k) ∧ ∀ k ∈ ks, Q k (next k) := by
  induction ks generalizing tables with
  | nil => exact ⟨tables, rfl, fun _ _ => rfl, nofun⟩
  | cons k ks ih =>
    obtain ⟨fresh, rest⟩ := nodup_cons.mp nodup
    obtain ⟨u, run, good⟩ := each k mem_cons_self
    have others (j : Kind) (member : j ∈ ks) : update tables k u j = tables j :=
      update_rest u fresh member
    obtain ⟨next, later, outside, all⟩ := ih (update tables k u) rest
      fun j member => by rw [others j member]; exact each j (mem_cons_of_mem k member)
    rw [truncateTables, run]
    refine ⟨next, later, fun j other => ?_, fun j member => ?_⟩
    · rw [outside j fun member => other (mem_cons_of_mem k member)]
      exact update_outside u other
    · rcases mem_cons.mp member with rfl | later
      · rw [outside j fresh, update_self]
        exact good
      · exact all j later

structure Holding (x : Snappy) (f : Freezer) (xs : List Record) : Prop where
  frozen : f.frozen = xs.length
  stored : ∀ k, Stored x (f.tables k) (column xs k)

theorem shortest_eq {n : Nat} {order : Order} (least : ∀ k, n ≤ (tables k).items) (there : ∃ k, (tables k).items = n) :
    shortest tables order.val = n := by
  have min : (order.val.map fun k => (tables k).items).min? = some n := by
    rw [min?_eq_some_iff]
    refine ⟨?_, fun m member => ?_⟩
    · obtain ⟨k, here⟩ := there
      exact mem_map.mpr ⟨k, order.mem k, here⟩
    · obtain ⟨k, -, rfl⟩ := mem_map.mp member
      exact least k
  rw [shortest, min]
  rfl

theorem repair_holding (frozen : Nat) (order : Order) (each : ∀ k, Ahead x (tables k) (column xs k) ∨ Stored x (tables k) (column xs k))
    (one : ∃ k, Stored x (tables k) (column xs k)) : ∃ g, repair ⟨frozen, tables⟩ order = (g, none) ∧ Holding x g xs := by
  have shortest : shortest tables order.val = xs.length := by
    refine shortest_eq (fun k => ?_) ?_
    · rcases each k with ahead | stored
      · rw [ahead.1, length_column]
        exact Nat.le_succ _
      · rw [stored_items stored, length_column]
    · obtain ⟨k, stored⟩ := one
      exact ⟨k, by rw [stored_items stored, length_column]⟩
  obtain ⟨next, run, -, good⟩ := truncate_tables tables xs.length (fun k u => Stored x u (column xs k))
    order.val order.nodup fun k _ => by
      rcases each k with ahead | stored
      · obtain ⟨u, run, kept, -⟩ := truncate_ahead ahead
        exact ⟨u, by rw [← run, length_column], kept⟩
      · obtain ⟨u, run, kept, -⟩ := truncate_stored stored
        rw [take_of_length_le (length_column k).le] at kept
        exact ⟨u, run, kept⟩
  refine ⟨⟨xs.length, next⟩, ?_, rfl, fun k => good k (order.mem k)⟩
  simp only [repair, shortest, run]

end Freezers

inductive Call where
  | appendAncient (number : Nat) (record : Record) (writes : Kind → Written × Written) (order : Order)
  | truncateAncients (items : Nat) (order : Order)

def Freezer.call (x : Snappy) (f : Freezer) : Call → Option (Freezer × Option FreezerError)
  | .appendAncient number record writes order => f.appendAncient x number record writes order
  | .truncateAncients items order => some (f.truncateAncients items order)

def Freezer.run (x : Snappy) (f : Freezer) : List Call → Option (Freezer × List (Option FreezerError))
  | [] => some (f, [])
  | c :: cs => do
      let (f, answer) ← f.call x c
      let (f, answers) ← f.run x cs
      some (f, answer :: answers)

-- What the store is for: a list of records that only a successful append extends.
namespace Call

def succeeds (xs : List Record) : Call → Bool
  | .appendAncient number _ writes _ => decide (number = xs.length ∧ ∀ k ∈ Kind.all, (writes k).1 = .whole)
  | .truncateAncients _ _ => true

def effect (xs : List Record) : Call → List Record
  | .appendAncient number record writes order =>
    if succeeds xs (.appendAncient number record writes order) then xs ++ [record] else xs
  | .truncateAncients items _ => xs.take items

def Careful (x : Snappy) (f : Freezer) : Call → Prop
  | .appendAncient number record writes _ => f.frozen = number →
      Roomy x f.tables record writes Kind.all ∧
        ((∀ k, (writes k).1 = .whole) → ∀ k, (writes k).2 = .whole ∧ (f.tables k).Fits x (record k))
  | .truncateAncients _ _ => True

end Call

def records : List Record → List Call → List Record × List Bool
  | xs, [] => (xs, [])
  | xs, c :: cs => ((records (c.effect xs) cs).1, c.succeeds xs :: (records (c.effect xs) cs).2)

def AllCareful (x : Snappy) (f : Freezer) : List Call → Prop
  | [] => True
  | c :: cs => c.Careful x f ∧ ∀ g answer, f.call x c = some (g, answer) → AllCareful x g cs

section Decidability

variable (x : Snappy)

instance (t : Table) : Decidable t.Clean :=
  match h : t.disk t.headId with
  | none => isTrue fun f there => by rw [h] at there; cases there
  | some f => decidable_of_iff (f.content.length = t.headBytes)
      ⟨fun same g there => by rw [h] at there; cases there; exact same, fun clean => clean f h⟩

instance (t : Table) (blob : Bytes) : Decidable (t.Roomy x blob) := inferInstanceAs (Decidable (_ → _))

instance (t : Table) (blob : Bytes) : Decidable (t.Fits x blob) :=
  decidable_of_iff ((t.encode x blob).length < 2 ^ 32 ∧
      (if t.overflows (t.encode x blob).length = true then t.headId + 1 else t.headId) < 2 ^ 16 ∧
      (t.Clean ∨ t.overflows (t.encode x blob).length = true ∨ t.encode x blob = []))
    ⟨fun ⟨size, number, clear⟩ => ⟨size, number, clear⟩, fun fits => ⟨fits.size, fits.number, fits.clear⟩⟩

instance decidableRoomy (tables : Kind → Table) (record : Record) (writes : Kind → Written × Written) :
    (ks : List Kind) → Decidable (Roomy x tables record writes ks)
  | [] => isTrue trivial
  | _ :: ks => have := decidableRoomy tables record writes ks
    inferInstanceAs (Decidable (_ ∧ (_ → _)))

instance decidableForallKind (P : Kind → Prop) [DecidablePred P] : Decidable (∀ k, P k) :=
  decidable_of_iff (∀ k ∈ Kind.all, P k) ⟨fun all k => all k k.mem_all, fun all k _ => all k⟩

instance (f : Freezer) (c : Call) : Decidable (c.Careful x f) :=
  match c with
  | .appendAncient _ _ _ _ => inferInstanceAs (Decidable (_ → _ ∧ (_ → _)))
  | .truncateAncients _ _ => isTrue trivial

instance decidableAllCareful (f : Freezer) : (calls : List Call) → Decidable (AllCareful x f calls)
  | [] => isTrue trivial
  | c :: cs => have : Decidable (∀ g answer, f.call x c = some (g, answer) → AllCareful x g cs) :=
      match h : f.call x c with
      | none => isTrue nofun
      | some (g, answer) =>
        have := decidableAllCareful g cs
        decidable_of_iff (AllCareful x g cs)
          ⟨fun careful g' answer' same => by cases same; exact careful, fun all => all g answer rfl⟩
    inferInstanceAs (Decidable (_ ∧ _))

end Decidability

section Runs

variable {x : Snappy} {f : Freezer} {xs : List Record}

variable {order : Order}

variable (holding : Holding x f xs)

include holding

theorem append_step {number : Nat} {record : Record} {writes : Kind → Written × Written}
    (careful : (Call.appendAncient number record writes order).Careful x f) :
    ∃ g answer, f.appendAncient x number record writes order = some (g, answer) ∧
      answer.isNone = (Call.appendAncient number record writes order).succeeds xs ∧
      Holding x g ((Call.appendAncient number record writes order).effect xs) := by
  by_cases next : f.frozen = number
  · obtain ⟨roomy, fits⟩ := careful next
    have here : number = xs.length := next.symm.trans holding.frozen
    obtain ⟨tables, error, run, -, whole, done, each, one⟩ :=
      append_tables (x := x) xs record writes Kind.all Kind.nodup_all (fun k _ => holding.stored k) roomy
    have run' : appendTables x f.frozen record writes Kind.all f.tables = (tables, error) := holding.frozen ▸ run
    cases error with
    | none =>
      have all : ∀ k, (writes k).1 = .whole := fun k => whole.mp rfl k k.mem_all
      have good : (Call.appendAncient number record writes order).succeeds xs = true := by simp [Call.succeeds, here, all]
      refine ⟨⟨f.frozen + 1, tables⟩, none, ?_, good.symm, ?_⟩
      · rw [appendAncient, if_neg (not_not.mpr next), run']
      · rw [Call.effect, if_pos good]
        exact ⟨by simp [holding.frozen], fun k => done rfl k k.mem_all (fits all k).1 (fits all k).2⟩
    | some e =>
      have bad : (Call.appendAncient number record writes order).succeeds xs = false := by
        rw [Call.succeeds, decide_eq_false_iff_not]
        intro both
        cases whole.mpr both.2
      obtain ⟨k, -, stored⟩ := one nofun
      obtain ⟨g, repaired, back⟩ := repair_holding f.frozen order (fun k => each k k.mem_all) ⟨k, stored⟩
      refine ⟨g, some (.table e), ?_, bad.symm, ?_⟩
      · rw [appendAncient, if_neg (not_not.mpr next), run']
        simp only [repaired]
      · rw [Call.effect, bad]
        exact back
  · have bad : (Call.appendAncient number record writes order).succeeds xs = false := by
      rw [Call.succeeds, decide_eq_false_iff_not]
      exact fun both => next (holding.frozen.trans both.1.symm)
    refine ⟨f, some .outOrderInsertion, by rw [appendAncient, if_pos next], bad.symm, ?_⟩
    rw [Call.effect, bad]
    exact holding

theorem truncate_step {items : Nat} :
    ∃ g, f.truncateAncients items order = (g, none) ∧ Holding x g (xs.take items) := by
  by_cases few : f.frozen ≤ items
  · refine ⟨f, by rw [truncateAncients, if_pos few], ?_⟩
    rw [take_of_length_le (holding.frozen ▸ few)]
    exact holding
  · have more : items < xs.length := holding.frozen ▸ Nat.lt_of_not_le few
    obtain ⟨next, run, -, good⟩ := truncate_tables f.tables items (fun k u => Stored x u (column (xs.take items) k))
      order.val order.nodup fun k _ => by
        obtain ⟨u, run, kept, -⟩ := truncate_stored (holding.stored k)
        refine ⟨u, run, ?_⟩
        rw [column, map_take]
        exact kept
    refine ⟨⟨items, next⟩, by rw [truncateAncients, if_neg few, run], ?_, fun k => good k (order.mem k)⟩
    exact (length_take_of_le more.le).symm

theorem call_step {c : Call} (careful : c.Careful x f) :
    ∃ g answer, f.call x c = some (g, answer) ∧ answer.isNone = c.succeeds xs ∧ Holding x g (c.effect xs) := by
  cases c with
  | appendAncient number record writes order => exact append_step holding careful
  | truncateAncients items order =>
    obtain ⟨g, run, next⟩ := truncate_step holding
    exact ⟨g, none, congrArg some run, rfl, next⟩

theorem run_holding {calls : List Call} (careful : AllCareful x f calls) :
    ∃ g answers, f.run x calls = some (g, answers) ∧ answers.map Option.isNone = (records xs calls).2 ∧
      Holding x g (records xs calls).1 := by
  induction calls generalizing f xs with
  | nil => exact ⟨f, [], rfl, rfl, holding⟩
  | cons c cs ih =>
    obtain ⟨g, answer, call, same, next⟩ := call_step holding careful.1
    obtain ⟨h, answers, run, rest, final⟩ := ih next (careful.2 g answer call)
    refine ⟨h, answer :: answers, ?_, ?_, final⟩
    · simp only [Freezer.run, call, run, Option.bind_eq_bind, Option.bind_some]
    · rw [map_cons, same, rest]
      rfl

end Runs

section Creation

variable {x : Snappy}

theorem reopened_intact {t u : Table} {rs : List Placed} {k : Nat} (ok : Reopened t u rs k k) : Intact u (rs.take k) where
  toLoose := reopened_loose ok
  items := ok.items.trans (length_take_of_le ok.inside).symm
  indexed := ok.indexed
  indexEnd := ok.indexEnd
  headBytes := by rw [if_pos ok.headId.symm, ok.headBytes]
  headEnd := ok.headEnd

variable (maxFileSize : Nat)

theorem new_table_empty (noCompression : Bool) :
    ∃ t, Table.newCustomTable .empty (fun _ => none) maxFileSize noCompression = some t ∧ Intact t [] ∧ t.Clean ∧
      t.maxFileSize = maxFileSize ∧ t.noCompression = noCompression ∧ t.headId = 0 := by
  have found : Found ⟨0, noCompression, maxFileSize, File.empty.seekEnd, fun _ => none, fun _ => none, 0, 0, 0, 0⟩ [] 0 :=
    ⟨trivial, nofun, le_rfl, rfl, rfl, fun _ => rfl, nofun, Nat.zero_le _, fun id small => absurd small (Nat.not_lt_zero id)⟩
  obtain ⟨u, j, run, ok⟩ := repair_found found
  obtain rfl : j = 0 := Nat.le_zero.mp ok.inside
  exact ⟨u, run, reopened_intact ok, ok.clean, ok.maxFileSize, ok.noCompression, ok.headId⟩

def Freezer.create (maxFileSize : Nat) (order : Order) : Option Freezer :=
  newFreezer maxFileSize (fun _ => .empty) (fun _ _ => none) order

theorem create_tables (order : Order) : ∃ f, create maxFileSize order = some f ∧ f.frozen = 0 ∧
    ∀ k, Intact (f.tables k) [] ∧ (f.tables k).Clean ∧ (f.tables k).maxFileSize = maxFileSize ∧
      (f.tables k).noCompression = k.noSnappy := by
  have each (k : Kind) := new_table_empty maxFileSize k.noSnappy
  choose tables opened intact clean size compression _ using each
  have shortest : shortest tables order.val = 0 :=
    shortest_eq (fun _ => Nat.zero_le _) ⟨.headers, (intact .headers).items⟩
  obtain ⟨next, run, -, same⟩ := truncate_tables tables 0 (fun k u => u = tables k) order.val order.nodup fun k _ =>
    ⟨tables k, if_pos (intact k).items.le, rfl⟩
  obtain rfl : next = tables := funext fun k => same k (order.mem k)
  refine ⟨⟨0, next⟩, ?_, rfl, fun k => ⟨intact k, clean k, size k, compression k⟩⟩
  simp only [create, newFreezer, opened, Option.bind_eq_bind, Option.bind_some, by_kind_eta, repair,
    shortest, run]

theorem create_holding (order : Order) : ∃ f, create maxFileSize order = some f ∧ Holding x f [] := by
  obtain ⟨f, created, frozen, each⟩ := create_tables maxFileSize order
  exact ⟨f, created, frozen, fun k => ⟨[], (each k).1, rfl⟩⟩

end Creation

-- For every sequence of calls: each answers as the list of records says it should, all tables have the
-- reported length, and every item reads back as it was appended.
theorem ancient_store_atomic (x : Snappy) (lawful : x.Lawful) (maxFileSize : Nat) (order : Order) (calls : List Call)
    (careful : ∀ f, create maxFileSize order = some f → AllCareful x f calls) :
    ∃ f g answers, create maxFileSize order = some f ∧ f.run x calls = some (g, answers) ∧
      answers.map Option.isNone = (records [] calls).2 ∧ g.ancients = (records [] calls).1.length ∧
      ∀ k, (g.tables k).items = g.ancients ∧
        ∀ (i : Nat) (inside : i < (records [] calls).1.length),
          g.ancient x k i = .ok ((records [] calls).1.get ⟨i, inside⟩ k) := by
  obtain ⟨f, created, holding⟩ := create_holding (x := x) maxFileSize order
  obtain ⟨g, answers, run, same, final⟩ := run_holding holding (careful f created)
  refine ⟨f, g, answers, created, run, same, final.frozen, fun k => ⟨?_, fun i inside => ?_⟩⟩
  · rw [stored_items (final.stored k), length_column]
    exact final.frozen.symm
  · obtain ⟨ps, ok, blobs⟩ := final.stored k
    have here : i < (column (records [] calls).1 k).length := by rwa [length_column]
    rw [← column_get inside here]
    exact retrieve_placed lawful ok.toLoose blobs here

section Examples

def plain : Snappy := ⟨id, some⟩

theorem plain_lawful : plain.Lawful := ⟨fun _ => rfl⟩

def listed : Order := ⟨Kind.all, .refl _⟩

def small : Record := fun _ => [1, 2]

def written : Kind → Written × Written := fun _ => (.whole, .whole)

def torn (k : Kind) : Kind → Written × Written := update written k (.part 1, .whole)

def tornAndCut : List Call :=
  [.appendAncient 0 small written listed, .appendAncient 1 small (torn .bodies) listed, .truncateAncients 0 listed,
    .appendAncient 0 small written listed]

theorem ancient_store_atomic_torn_and_cut :
    ∃ f g answers, create 100 listed = some f ∧ f.run plain tornAndCut = some (g, answers) ∧
      answers.map Option.isNone = [true, false, true, true] ∧ g.ancients = 1 ∧ g.ancient plain .bodies 0 = .ok [1, 2] := by
  have careful : ∀ f ∈ create 100 listed, AllCareful plain f tornAndCut := by decide +kernel
  obtain ⟨f, g, answers, created, run, same, length, each⟩ := ancient_store_atomic plain plain_lawful 100 listed tornAndCut careful
  exact ⟨f, g, answers, created, run, same, length, (each .bodies).2 0 (by decide +kernel)⟩

-- The same append tried again after its first attempt left one byte: it succeeds, and its hash reads back wrong.
theorem torn_append_shifts_the_next : small .hashes = [1, 2] ∧
      (((create 100 listed).bind fun f =>
          f.run plain [.appendAncient 0 small (torn .hashes) listed, .appendAncient 0 small written listed]).map
        fun (g, answers) => (answers, g.ancients, (g.ancient plain .hashes 0).toOption)) =
        some ([some (.table .shortWrite), none], 1, some [1, 1]) := by
  decide +kernel

end Examples

end Didux.Rawdb
