import Didux.State.Alike

set_option autoImplicit false

namespace Didux.State

open Sport Function

structure Undoes (n : Nat) (s t : StateDB) : Prop where
  length : t.entries.length = s.entries.length + n
  alike : Alike id (StateDB.unwind n t) s
  revisions : t.revisions = s.revisions

def Undone (s t : StateDB) : Prop := ∃ n, Undoes n s t

theorem undone_refl (s : StateDB) : Undone s s := ⟨0, rfl, alike_refl s, rfl⟩

namespace StateDB

variable {s t : StateDB}

theorem undone_entry (u : StateDB) (entry : Entry) (undone : Undone s t) (journal : u.entries = entry :: t.entries)
    (here : Alike id (u.back entry t.entries) t) (revisions : u.revisions = t.revisions) : Undone s u := by
  obtain ⟨n, undoes⟩ := undone
  have unwound : unwind (n + 1) u = unwind n (u.back entry t.entries) := by
    rw [unwind, journal]
    rfl
  refine ⟨n + 1, ?_, ?_, revisions.trans undoes.revisions⟩
  · rw [journal, List.length_cons, undoes.length, Nat.add_assoc]
  · rw [unwound]
    exact alike_trans id _ _ _ (alike_unwind n _ _ here) undoes.alike

theorem drop_bump (dirties : Address → Nat) (a : Option Address) : drop (bump dirties a) a = dirties := by
  cases a with
  | none => rfl
  | some a => simp [drop, bump]

theorem restored_write (objects : Accounts) (a : Address) (o : Object) (live : objects a = some o) (f g : Object → Object)
    (inverse : g (f o) = o) :
    update (update objects a ((objects a).map f)) a ((update objects a ((objects a).map f) a).map g) = objects := by
  simp only [update_self, update_idem, live, Option.map_some, inverse]
  rw [← live, update_eq_self]

theorem undone_write (undone : Undone s t) (a : Address) (change : Object → Change) (f : Object → Object)
    (inverse : ∀ o, (change o).revert (f o) = o) : Undone s (t.write a change f) := by
  unfold write
  cases live : t.objects a with
  | none => exact undone
  | some o =>
    have objects := restored_write t.objects a o live f (change o).revert (inverse o)
    exact undone_entry ((t.append (.account a (change o))).modify a f) (.account a (change o)) undone rfl
      { alike_refl t with objects := objects, entries := rfl, dirties := drop_bump t.dirties (some a) } rfl

theorem undone_get_or_new (undone : Undone s t) (a : Address) : Undone s (t.getOrNewStateObject a) := by
  unfold getOrNewStateObject
  cases live : t.objects a with
  | some o => exact undone
  | none =>
    have created : t.createObject a = { t.append (.createObject a) with
        objects := update t.objects a (some newObject), deleted := update t.deleted a none } := by
      simp only [createObject, live]
    have objects : update (update t.objects a (some newObject)) a none = t.objects := by
      rw [update_idem, ← live, update_eq_self]
    show Undone s (t.createObject a)
    rw [created]
    exact undone_entry _ (.createObject a) undone rfl
      { alike_refl t with objects := objects, entries := rfl, dirties := drop_bump t.dirties (some a) } rfl

variable (pay : Accrual)

variable (undone : Undone s t) (a : Address)

include undone

theorem undone_update_smilo_pay (blockNumber : Nat) :
    Undone s (StateObject.updateSmiloPay pay t a blockNumber) :=
  undone_write undone a _ _ fun _ => rfl

theorem undone_sub_smilo_pay (amount : Int) (blockNumber : Nat) :
    Undone s (t.subSmiloPay pay a amount blockNumber) := by
  have live := undone_get_or_new undone a
  unfold subSmiloPay StateObject.subSmiloPay
  split
  · exact live
  · exact undone_write (undone_update_smilo_pay pay live a blockNumber) a _ _ fun _ => rfl

theorem undone_sub_balance (amount : Int) (blockNumber : Nat) :
    Undone s (t.subBalance pay a amount blockNumber) := by
  have live := undone_get_or_new undone a
  unfold subBalance StateObject.subBalance
  split
  · exact live
  · exact undone_write (undone_update_smilo_pay pay live a blockNumber) a _ _ fun _ => rfl

theorem undone_set_nonce (nonce : Nat) : Undone s (t.setNonce a nonce) :=
  undone_write (undone_get_or_new undone a) a _ _ fun _ => rfl

omit undone

theorem undone_revert (undone : Undone s.snapshot.2 t) :
    ∃ u, t.revertToSnapshot s.snapshot.1 = some u ∧ Alike id u s ∧ u.validRevisions = s.validRevisions := by
  obtain ⟨n, undoes⟩ := undone
  have valid : t.validRevisions = (s.nextRevisionId, s.entries.length) :: s.validRevisions := congrArg Prod.fst undoes.revisions
  have entries : t.entries.length - s.entries.length = n := by
    rw [undoes.length]
    exact Nat.add_sub_cancel_left _ n
  refine ⟨{ unwind n t with validRevisions := s.validRevisions }, ?_, { undoes.alike with }, rfl⟩
  unfold revertToSnapshot
  rw [valid, List.dropWhile_cons_of_neg (by simp [snapshot])]
  simp only [snapshot, ne_eq, not_true_eq_false, if_false, entries]

end StateDB

end Didux.State
