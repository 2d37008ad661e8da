import Didux.State.Alike

set_option autoImplicit false

namespace Didux.State

open Sport List

def touches (touched : List Address) : List Entry := touched.map (Entry.account · .touch)

def Light (s : StateDB) (n : Nat) : Prop :=
  ∃ (touched : List Address) (kept : List Entry), s.entries = touches touched ++ kept ∧ kept.length ≤ n

def Entry.isTouch : Entry → Bool
  | .account _ .touch => true
  | _ => false

theorem touches_of_all (entries : List Entry) (all : entries.all Entry.isTouch = true) : ∃ touched, entries = touches touched := by
  induction entries with
  | nil => exact ⟨[], rfl⟩
  | cons entry rest ih =>
    rw [all_cons, Bool.and_eq_true] at all
    obtain ⟨touched, rfl⟩ := ih all.2
    cases entry with
    | account a change =>
      cases change with
      | touch => exact ⟨a :: touched, rfl⟩
      | _ => exact nomatch all.1
    | _ => exact nomatch all.1

theorem all_touches (touched : List Address) : (touches touched).all Entry.isTouch = true := by
  simp [touches, Entry.isTouch]

theorem light_iff (s : StateDB) (n : Nat) : Light s n ↔ (s.entries.take (s.entries.length - n)).all Entry.isTouch = true := by
  constructor
  · rintro ⟨touched, kept, entries, length⟩
    have few : s.entries.length - n ≤ (touches touched).length := by
      rw [entries, length_append]
      omega
    rw [entries] at few ⊢
    rw [take_append_of_le_length few, all_eq_true]
    intro entry member
    exact all_eq_true.mp (all_touches touched) entry (mem_of_mem_take member)
  · intro all
    obtain ⟨touched, newest⟩ := touches_of_all _ all
    refine ⟨touched, s.entries.drop (s.entries.length - n), ?_, ?_⟩
    · rw [← newest, take_append_drop]
    · rw [length_drop]
      omega

instance lightDecidable (s : StateDB) (n : Nat) : Decidable (Light s n) := decidable_of_iff _ (light_iff s n).symm

-- From `s` to `t` no account and no log changed. The journal may have lost entries and got touches; what a revision that
-- was taken since would undo is touches.
structure Frozen (s t : StateDB) : Prop where
  objects : t.objects = s.objects
  logs : t.logs = s.logs
  entries : ∃ (touched : List Address) (kept : List Entry), t.entries = touches touched ++ kept ∧ kept <:+ s.entries
  next : s.nextRevisionId ≤ t.nextRevisionId
  valid : ∀ revision ∈ t.validRevisions, revision ∈ s.validRevisions ∨ (s.nextRevisionId ≤ revision.1 ∧ Light t revision.2)

theorem frozen_refl (s : StateDB) : Frozen s s :=
  ⟨rfl, rfl, ⟨[], s.entries, rfl, suffix_refl _⟩, Nat.le_refl _, fun _ member => .inl member⟩

theorem touches_suffix {touched : List Address} {base kept : List Entry} (suffix : kept <:+ touches touched ++ base) :
    ∃ still rest, kept = touches still ++ rest ∧ rest <:+ base := by
  obtain ⟨dropped, split⟩ := suffix
  rcases append_eq_append_iff.mp split with ⟨still, here, there⟩ | ⟨lost, here, there⟩
  · obtain ⟨gone, left, rfl, -, rfl⟩ := map_eq_append_iff.mp here
    exact ⟨left, base, there, suffix_refl _⟩
  · exact ⟨[], kept, rfl, lost, there.symm⟩

theorem light_frozen {s t : StateDB} (frozen : Frozen s t) (n : Nat) (light : Light s n) : Light t n := by
  obtain ⟨newer, kept, entries, suffix⟩ := frozen.entries
  obtain ⟨older, base, before, length⟩ := light
  rw [before] at suffix
  obtain ⟨still, rest, rfl, left⟩ := touches_suffix suffix
  refine ⟨newer ++ still, rest, ?_, Nat.le_trans left.length_le length⟩
  rw [entries, touches, touches, touches, map_append, append_assoc]

theorem frozen_trans {s t u : StateDB} (first : Frozen s t) (second : Frozen t u) : Frozen s u where
  objects := second.objects.trans first.objects
  logs := second.logs.trans first.logs
  entries := by
    obtain ⟨older, kept, before, suffix⟩ := first.entries
    obtain ⟨newer, left, after, rest⟩ := second.entries
    rw [before] at rest
    obtain ⟨still, base, rfl, further⟩ := touches_suffix rest
    refine ⟨newer ++ still, base, ?_, further.trans suffix⟩
    rw [after, touches, touches, touches, map_append, append_assoc]
  next := Nat.le_trans first.next second.next
  valid revision member := by
    rcases second.valid revision member with middle | ⟨name, light⟩
    · rcases first.valid revision middle with old | ⟨name, light⟩
      · exact .inl old
      · exact .inr ⟨name, light_frozen second _ light⟩
    · exact .inr ⟨Nat.le_trans first.next name, light⟩

theorem frozen_light {s t : StateDB} (fresh : Fresh s) (frozen : Frozen s t) (id journalIndex : Nat) (new : s.nextRevisionId ≤ id)
    (member : (id, journalIndex) ∈ t.validRevisions) : Light t journalIndex := by
  rcases frozen.valid _ member with old | ⟨-, light⟩
  · exact absurd (fresh _ old) (Nat.not_lt.mpr new)
  · exact light

namespace StateDB

theorem frozen_snapshot (s : StateDB) : Frozen s s.snapshot.2 where
  objects := rfl
  logs := rfl
  entries := ⟨[], s.entries, rfl, suffix_refl _⟩
  next := Nat.le_succ _
  valid revision member := by
    rcases mem_cons.mp member with rfl | older
    · exact .inr ⟨Nat.le_refl _, [], s.entries, rfl, Nat.le_refl _⟩
    · exact .inl older

theorem frozen_touch (pay : Accrual) (s : StateDB) (a : Address) (blockNumber : Nat) (there : s.objects.exist a = true) :
    Frozen s (s.addBalance pay a 0 blockNumber) := by
  obtain ⟨o, live⟩ := Option.isSome_iff_exists.mp there
  have same : s.getOrNewStateObject a = s := by simp only [getOrNewStateObject, live]
  have objects : Function.update s.objects a (some o) = s.objects := by rw [← live, Function.update_eq_self]
  have touched : s.write a (fun _ => .touch) id = s.append (.account a .touch) := by
    simp only [write, live, modify, append, Option.map_some, id, objects]
  unfold addBalance StateObject.addBalance StateObject.touch
  rw [if_pos rfl, same, touched]
  have one : Frozen s (s.append (.account a .touch)) :=
    ⟨rfl, rfl, ⟨[a], s.entries, rfl, suffix_refl _⟩, Nat.le_refl _, fun _ member => .inl member⟩
  split_ifs
  · exact { one with }
  · exact one
  · exact frozen_refl s

theorem unwind_touches (touched : List Address) (kept : List Entry) (n : Nat) (s : StateDB)
    (entries : s.entries = touches touched ++ kept) (few : n ≤ touched.length) :
    (unwind n s).objects = s.objects ∧ (unwind n s).logs = s.logs ∧ (unwind n s).entries <:+ s.entries := by
  induction n generalizing touched s with
  | zero => exact ⟨rfl, rfl, suffix_refl _⟩
  | succ n ih =>
    cases touched with
    | nil => contradiction
    | cons a rest =>
      have same : (Change.touch.revert : Object → Object) = id := rfl
      have undone : (s.undo (.account a .touch)).objects = s.objects := by
        simp only [undo, modify, same, Option.map_id, id, Function.update_eq_self]
      obtain ⟨objects, logs, suffix⟩ := ih rest { s.undo (.account a .touch) with
        entries := touches rest ++ kept, dirties := drop s.dirties (some a) } rfl (Nat.le_of_succ_le_succ few)
      simp only [unwind, entries]
      exact ⟨objects.trans undone, logs, suffix.trans (suffix_cons _ _)⟩

variable (id : Nat)

theorem revert_revision {s t : StateDB} (reverted : s.revertToSnapshot id = some t) :
    ∃ journalIndex older, (id, journalIndex) :: older <:+ s.validRevisions ∧
      t = { unwind (s.entries.length - journalIndex) s with validRevisions := older } := by
  unfold revertToSnapshot at reverted
  split at reverted
  · contradiction
  · next name journalIndex older rest =>
      split at reverted
      · contradiction
      · next named =>
          obtain rfl := not_not.mp named
          exact ⟨journalIndex, older, rest ▸ dropWhile_suffix _, (Option.some.inj reverted).symm⟩

theorem fresh_revert {s t : StateDB} (reverted : s.revertToSnapshot id = some t) (fresh : Fresh s) : Fresh t := by
  obtain ⟨journalIndex, older, suffix, rfl⟩ := revert_revision id reverted
  have next : (unwind (s.entries.length - journalIndex) s).nextRevisionId = s.nextRevisionId :=
    congrArg Prod.snd (revisions_unwind s _)
  intro revision member
  have bound := fresh revision (suffix.subset (mem_cons_of_mem _ member))
  exact next ▸ bound

theorem frozen_revert {s t : StateDB} (reverted : s.revertToSnapshot id = some t)
    (light : ∀ journalIndex, (id, journalIndex) ∈ s.validRevisions → Light s journalIndex) : Frozen s t := by
  obtain ⟨journalIndex, older, suffix, rfl⟩ := revert_revision id reverted
  obtain ⟨touched, kept, entries, length⟩ := light journalIndex (suffix.subset mem_cons_self)
  have few : s.entries.length - journalIndex ≤ touched.length := by
    rw [entries, touches, length_append, length_map]
    omega
  obtain ⟨objects, logs, left⟩ := unwind_touches touched kept _ s entries few
  have next : (unwind (s.entries.length - journalIndex) s).nextRevisionId = s.nextRevisionId :=
    congrArg Prod.snd (revisions_unwind s _)
  exact ⟨objects, logs, ⟨[], _, rfl, left⟩, Nat.le_of_eq next.symm,
    fun revision member => .inl (suffix.subset (mem_cons_of_mem _ member))⟩

end StateDB

end Didux.State
