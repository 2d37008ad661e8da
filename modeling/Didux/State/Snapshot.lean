import Didux.Lib.Runs
import Didux.State.Frozen
import Didux.State.Undo

set_option autoImplicit false

namespace Didux.State

open Sport Function List

inductive Method where
  | createAccount (a : Address)
  | suicide (a : Address)
  | setNonce (a : Address) (nonce : Nat)
  | setCode (a : Address) (code : Bytes)
  | setState (a : Address) (key value : Hash)
  | setBalance (a : Address) (amount : Int) (blockNumber : Nat)
  | addBalance (a : Address) (amount : Int) (blockNumber : Nat)
  | subBalance (a : Address) (amount : Int) (blockNumber : Nat)
  | setSmiloPay (a : Address) (amount : Int)
  | addSmiloPay (a : Address) (amount : Int)
  | subSmiloPay (a : Address) (amount : Int) (blockNumber : Nat)
  | updateSmiloPay (a : Address) (blockNumber : Nat)
  | addRefund (gas : Nat)
  | subRefund (gas : Nat)
  | addLog (a : Address) (topics : List Hash) (data : Bytes) (blockNumber : Nat)
  | addPreimage (hash : Hash) (preimage : Bytes)
  | snapshot
  | revertToSnapshot (revid : Nat)

namespace Method

-- No state where the source panics.
def apply (pay : Accrual) (s : StateDB) : Method → Option StateDB
  | .createAccount a => some (s.createAccount a)
  | .suicide a => some (s.suicide a)
  | .setNonce a nonce => some (s.setNonce a nonce)
  | .setCode a code => some (s.setCode a code)
  | .setState a key value => some (s.setState a key value)
  | .setBalance a amount blockNumber => some (s.setBalance pay a amount blockNumber)
  | .addBalance a amount blockNumber => some (s.addBalance pay a amount blockNumber)
  | .subBalance a amount blockNumber => some (s.subBalance pay a amount blockNumber)
  | .setSmiloPay a amount => some (s.setSmiloPay a amount)
  | .addSmiloPay a amount => some (s.addSmiloPay a amount)
  | .subSmiloPay a amount blockNumber => some (s.subSmiloPay pay a amount blockNumber)
  | .updateSmiloPay a blockNumber => some (s.updateSmiloPay pay a blockNumber)
  | .addRefund gas => some (s.addRefund gas)
  | .subRefund gas => s.subRefund gas
  | .addLog a topics data blockNumber => some (s.addLog a topics data blockNumber)
  | .addPreimage hash preimage => some (s.addPreimage hash preimage)
  | .snapshot => some s.snapshot.2
  | .revertToSnapshot revid => s.revertToSnapshot revid

def touchesRipemd (s : StateDB) : Method → Bool
  | .addBalance a amount _ | .addSmiloPay a amount => a = ripemd && amount = 0 && (s.objects a).all Object.empty
  | _ => false

def run (pay : Accrual) (s : StateDB) (methods : List Method) : Option StateDB := methods.foldlM (apply pay) s

def quiet (pay : Accrual) : StateDB → List Method → Bool
  | _, [] => true
  | s, method :: rest => !method.touchesRipemd s && ((method.apply pay s).all fun t => quiet pay t rest)

end Method

-- The account that Finalise deleted at an address is removed by Commit too: it is not written back to the trie.
def StateDB.Settled (s : StateDB) (deleteEmptyObjects : Bool) (a : Address) : Prop :=
  ∀ o, s.deleted a = some o → StateDB.removed deleteEmptyObjects o = true

-- What the life of a state consists of. Each Finalise and each Commit takes its own rule.
inductive Step (pay : Accrual) : StateDB → StateDB → Prop where
  | method (s t : StateDB) (method : Method) (applied : method.apply pay s = some t) : Step pay s t
  | prepare (s : StateDB) (thash bhash : Hash) (txIndex : Nat) : Step pay s (s.prepare thash bhash txIndex)
  | finalise (s : StateDB) (deleteEmptyObjects : Bool) : Step pay s (s.finalise deleteEmptyObjects)
  | commit (s : StateDB) (deleteEmptyObjects : Bool) (settled : ∀ a, s.Settled deleteEmptyObjects a) :
    Step pay s (s.commit deleteEmptyObjects)
  | copy (s : StateDB) : Step pay s s.copy

def Reachable (pay : Accrual) : StateDB → Prop := Runs.Reached (fun s => ∃ trie, s = StateDB.new trie) (Step pay)

-- States that no method tells apart. They may differ in which of the accounts in `loose` count as dirty, and in what
-- Finalise marked of the accounts that are not in `live`.
structure Level (loose live : Set Address) (s t : StateDB) : Prop where
  trie : s.trie = t.trie
  objects : s.objects = t.objects
  dirtyObjects : ∀ a ∈ live, s.dirtyObjects a = t.dirtyObjects a
  refund : s.refund = t.refund
  thash : s.thash = t.thash
  bhash : s.bhash = t.bhash
  txIndex : s.txIndex = t.txIndex
  logs : s.logs = t.logs
  logSize : s.logSize = t.logSize
  preimages : s.preimages = t.preimages
  entries : s.entries = t.entries
  dirties : ∀ a, a ∉ loose → s.dirties a = t.dirties a

section Level

variable {loose live : Set Address} {s t u : StateDB}

theorem level_refl : Level loose live s s :=
  ⟨rfl, rfl, fun _ _ => rfl, rfl, rfl, rfl, rfl, rfl, rfl, rfl, rfl, fun _ _ => rfl⟩

theorem level_trans (first : Level loose live s t) (second : Level loose live t u) : Level loose live s u where
  trie := first.trie.trans second.trie
  objects := first.objects.trans second.objects
  dirtyObjects a member := (first.dirtyObjects a member).trans (second.dirtyObjects a member)
  refund := first.refund.trans second.refund
  thash := first.thash.trans second.thash
  bhash := first.bhash.trans second.bhash
  txIndex := first.txIndex.trans second.txIndex
  logs := first.logs.trans second.logs
  logSize := first.logSize.trans second.logSize
  preimages := first.preimages.trans second.preimages
  entries := first.entries.trans second.entries
  dirties a strict := (first.dirties a strict).trans (second.dirties a strict)

theorem level_mono {fewer : Set Address} (subset : fewer ⊆ live) (level : Level loose live s t) : Level loose fewer s t :=
  { level with dirtyObjects := fun a member => level.dirtyObjects a (subset member) }

theorem level_undo (level : Level loose live s t) {entry : Entry} : Level loose live (s.undo entry) (t.undo entry) := by
  cases entry with
  | createObject a =>
    refine { level with objects := by simp only [StateDB.undo, level.objects], dirtyObjects := ?_ }
    intro b member
    have same := level.dirtyObjects b member
    by_cases here : b = a
    · simp only [StateDB.undo, here, update_self]
    · simp only [StateDB.undo, update_of_ne here, same]
  | resetObject a prev => exact { level with objects := by simp only [StateDB.undo, level.objects] }
  | account a change => exact { level with objects := by simp only [StateDB.undo, StateDB.modify, level.objects] }
  | refund prev => exact { level with refund := rfl }
  | addLog txhash =>
    exact { level with
      logs := by simp only [StateDB.undo, level.logs]
      logSize := by simp only [StateDB.undo, level.logSize] }
  | addPreimage hash => exact { level with preimages := by simp only [StateDB.undo, level.preimages] }

theorem level_back (level : Level loose live s t) (entry : Entry) (rest : List Entry) :
    Level loose live (s.back entry rest) (t.back entry rest) := by
  refine { level_undo level with entries := rfl, dirties := ?_ }
  intro a strict
  have same := level.dirties a strict
  show StateDB.drop s.dirties entry.dirtied a = StateDB.drop t.dirties entry.dirtied a
  cases entry.dirtied with
  | none => exact same
  | some b =>
    by_cases here : a = b
    · simp only [StateDB.drop, ← here, update_self, same]
    · simp only [StateDB.drop, update_of_ne here, same]

theorem level_unwind (n : Nat) (s t : StateDB) (level : Level loose live s t) :
    Level loose live (StateDB.unwind n s) (StateDB.unwind n t) := by
  induction n generalizing s t with
  | zero => exact level
  | succ n ih =>
    unfold StateDB.unwind
    rw [← level.entries]
    cases s.entries with
    | nil => exact level
    | cons entry rest => exact ih _ _ (level_back level entry rest)

end Level

-- One journaled change: the new entry leads back, up to the dirtiness of the accounts in `loose`.
structure Edit (loose : Set Address) (s t : StateDB) : Prop where
  journaled : ∃ entry, t.entries = entry :: s.entries ∧ (∀ a, entry = .createObject a → s.objects a = none) ∧
    Level loose {a | s.objects a ≠ none} (t.back entry s.entries) s
  trie : t.trie = s.trie
  revisions : t.revisions = s.revisions
  kept : ∀ a, s.objects a ≠ none → t.objects a ≠ none
  deleted : ∀ a o, t.deleted a = some o → s.deleted a = some o

def Edits (loose : Set Address) : StateDB → StateDB → Prop := Relation.ReflTransGen (Edit loose)

namespace StateDB

variable {loose : Set Address} {s t : StateDB}

theorem edit_write (t : StateDB) (a : Address) (o : Object) (live : t.objects a = some o) (change : Object → Change)
    (f : Object → Object) (inverse : ∀ o, (change o).revert (f o) = o) (dirties : Address → Nat)
    (counted : ∀ b, b ∉ loose → dirties b = bump t.dirties (some a) b) :
    Edit loose t { (t.append (.account a (change o))).modify a f with dirties := dirties } := by
  have same : Level loose {b | t.objects b ≠ none} t t := level_refl
  have objects := restored_write t.objects a o live f (change o).revert (inverse o)
  refine ⟨⟨.account a (change o), rfl, fun _ => nofun, { same with objects := objects, dirties := ?_ }⟩, rfl, rfl, ?_, fun _ _ => id⟩
  · intro b strict
    have dropped := congrFun (drop_bump t.dirties (some a)) b
    have here := counted b strict
    show drop dirties (some a) b = t.dirties b
    by_cases at_a : b = a
    · simp only [drop, at_a, update_self] at dropped here ⊢
      rw [here, dropped]
    · simp only [drop, bump, update_of_ne at_a] at here ⊢
      exact here
  · intro b present
    by_cases here : b = a
    · simp [modify, append, here, live]
    · simpa [modify, append, update_of_ne here] using present

variable {a : Address} {pay : Accrual} {blockNumber : Nat} {amount : Int}

theorem edits_write (edits : Edits loose s t) {change : Object → Change} {f : Object → Object}
    (inverse : ∀ o, (change o).revert (f o) = o) : Edits loose s (t.write a change f) := by
  unfold write
  cases live : t.objects a with
  | none => exact edits
  | some o => exact edits.tail (edit_write t a o live change f inverse _ fun _ _ => rfl)

theorem edits_create (edits : Edits loose s t) (a : Address) (f : Object → Object) :
    Edits loose s ((t.createObject a).modify a f) := by
  have same : Level loose {b | t.objects b ≠ none} t t := level_refl
  have kept : ∀ b, t.objects b ≠ none → ((t.createObject a).modify a f).objects b ≠ none := by
    intro b present
    by_cases here : b = a
    · simp [modify, createObject, here]
    · simpa [modify, createObject, update_of_ne here] using present
  have deleted : ∀ b o, ((t.createObject a).modify a f).deleted b = some o → t.deleted b = some o := by
    intro b o there
    by_cases here : b = a
    · simp [modify, createObject, here] at there
    · simpa [modify, createObject, update_of_ne here] using there
  have restored : ∀ x, t.objects a = x →
      update (update (update t.objects a (some newObject)) a
        ((update t.objects a (some newObject) a).map f)) a x = t.objects := by
    rintro x rfl
    rw [update_idem, update_idem, update_eq_self]
  unfold createObject at kept deleted ⊢
  cases live : t.objects a with
  | none =>
    refine edits.tail ⟨⟨.createObject a, rfl, ?_, ?_⟩, rfl, rfl, kept, deleted⟩
    · rintro b ⟨⟩
      exact live
    · refine { same with objects := restored none live, dirtyObjects := ?_, dirties := ?_ }
      · intro b present
        have other : b ≠ a := fun here => present (here ▸ live)
        exact update_of_ne other _ _
      · exact fun b _ => congrFun (drop_bump t.dirties (some a)) b
  | some prev =>
    refine edits.tail ⟨⟨.resetObject a prev, rfl, fun _ => (by simp), ?_⟩, rfl, rfl, kept, deleted⟩
    exact { same with objects := restored (some prev) live }

theorem edits_get_or_new (edits : Edits loose s t) (a : Address) : Edits loose s (t.getOrNewStateObject a) := by
  unfold getOrNewStateObject
  cases t.objects a with
  | some o => exact edits
  | none =>
    have created := edits_create edits a id
    have unchanged : (t.createObject a).modify a id = t.createObject a := by
      simp only [modify, Option.map_id_fun, id, update_eq_self]
    rwa [unchanged] at created

theorem edit_beside {u : StateDB} {entry : Entry} (journal : u.entries = entry :: t.entries)
    (plain : ∀ a, entry ≠ .createObject a) (level : Level loose {a | t.objects a ≠ none} (u.back entry t.entries) t)
    (trie : u.trie = t.trie) (revisions : u.revisions = t.revisions) (objects : u.objects = t.objects)
    (deleted : u.deleted = t.deleted) : Edit loose t u where
  journaled := ⟨entry, journal, fun a same => absurd same (plain a), level⟩
  trie := trie
  revisions := revisions
  kept _ present := objects ▸ present
  deleted _ _ there := deleted ▸ there

variable (edits : Edits loose s t)

include edits

theorem edits_touch (live : (t.objects a).isSome) (allowed : a = ripemd → a ∈ loose) :
    Edits loose s (StateObject.touch t a) := by
  obtain ⟨o, live⟩ := Option.isSome_iff_exists.mp live
  unfold StateObject.touch write
  simp only [live]
  split
  · next special =>
      refine edits.tail (edit_write t a o live (fun _ => .touch) id (fun _ => rfl) _ ?_)
      intro b strict
      have other : b ≠ a := fun here => strict (here ▸ allowed special)
      exact update_of_ne other _ _
  · exact edits.tail (edit_write t a o live (fun _ => .touch) id (fun _ => rfl) _ fun _ _ => rfl)

theorem edits_update_smilo_pay : Edits loose s (StateObject.updateSmiloPay pay t a blockNumber) :=
  edits_write edits fun _ => rfl

theorem edits_set_balance : Edits loose s (StateObject.setBalance pay t a amount blockNumber) :=
  edits_write (edits_update_smilo_pay edits) fun _ => rfl

theorem edits_set_smilo_pay : Edits loose s (StateObject.setSmiloPay t a amount) :=
  edits_write edits fun _ => rfl

theorem edits_add_nothing (allowed : a = ripemd → (t.objects a).any Object.empty = true → a ∈ loose) :
    Edits loose s (if (t.objects a).any Object.empty then StateObject.touch t a else t) := by
  split
  · next empty =>
      have live : (t.objects a).isSome := by
        cases there : t.objects a with
        | none => simp [there] at empty
        | some o => rfl
      exact edits_touch edits live fun special => allowed special empty
  · exact edits

end StateDB

variable {s : StateDB} {pay : Accrual}

theorem empty_get_or_new {a : Address} :
    ((s.getOrNewStateObject a).objects a).any Object.empty = (s.objects a).all Object.empty := by
  unfold StateDB.getOrNewStateObject
  cases live : s.objects a with
  | none => simp [StateDB.createObject, newObject, Object.empty]
  | some o => simp [live]

-- Every method but Snapshot and RevertToSnapshot is a row of journaled changes. The RIPEMD account gets loose where the
-- method touches it.
theorem method_edits (pay : Accrual) (loose : Set Address) (s t : StateDB) (method : Method) (applied : method.apply pay s = some t)
    (allowed : method.touchesRipemd s = true → ripemd ∈ loose)
    (snapshot : method ≠ .snapshot) (revert : ∀ revid, method ≠ .revertToSnapshot revid) : Edits loose s t := by
  have start : Edits loose s s := .refl
  have touch : ∀ a amount, amount = (0 : Int) → (method.touchesRipemd s = (a = ripemd && amount = 0 && (s.objects a).all Object.empty)) →
      a = ripemd → ((s.getOrNewStateObject a).objects a).any Object.empty = true → a ∈ loose := by
    rintro a amount rfl touches rfl empty
    rw [empty_get_or_new] at empty
    exact allowed (by rw [touches, empty]; rfl)
  have live := StateDB.edits_get_or_new start
  have level : Level loose {b | s.objects b ≠ none} s s := level_refl
  cases method with
  | snapshot => exact absurd rfl snapshot
  | revertToSnapshot revid => exact absurd rfl (revert revid)
  | createAccount a => exact Option.some.inj applied ▸ StateDB.edits_create start a _
  | suicide a => exact Option.some.inj applied ▸ StateDB.edits_write start fun _ => rfl
  | setNonce a nonce => exact Option.some.inj applied ▸ StateDB.edits_write (live a) fun _ => rfl
  | setCode a code => exact Option.some.inj applied ▸ StateDB.edits_write (live a) fun _ => rfl
  | setState a key value =>
    obtain rfl := Option.some.inj applied
    unfold StateDB.setState StateObject.setState
    split
    · exact live a
    · apply StateDB.edits_write (live a)
      intro o
      simp only [Change.revert, update_idem, update_eq_self]
  | setBalance a amount blockNumber => exact Option.some.inj applied ▸ StateDB.edits_set_balance (live a)
  | addBalance a amount blockNumber =>
    obtain rfl := Option.some.inj applied
    unfold StateDB.addBalance StateObject.addBalance
    split
    · next nothing => exact StateDB.edits_add_nothing (live a) (touch a amount nothing rfl)
    · exact StateDB.edits_set_balance (StateDB.edits_update_smilo_pay (live a))
  | subBalance a amount blockNumber =>
    obtain rfl := Option.some.inj applied
    unfold StateDB.subBalance StateObject.subBalance
    split
    · exact live a
    · exact StateDB.edits_set_balance (live a)
  | setSmiloPay a amount => exact Option.some.inj applied ▸ StateDB.edits_set_smilo_pay (live a)
  | addSmiloPay a amount =>
    obtain rfl := Option.some.inj applied
    unfold StateDB.addSmiloPay StateObject.addSmiloPay
    split
    · next nothing => exact StateDB.edits_add_nothing (live a) (touch a amount nothing rfl)
    · exact StateDB.edits_set_smilo_pay (live a)
  | subSmiloPay a amount blockNumber =>
    obtain rfl := Option.some.inj applied
    unfold StateDB.subSmiloPay StateObject.subSmiloPay
    split
    · exact live a
    · exact StateDB.edits_set_smilo_pay (StateDB.edits_update_smilo_pay (live a))
  | updateSmiloPay a blockNumber => exact Option.some.inj applied ▸ StateDB.edits_update_smilo_pay (live a)
  | addRefund gas =>
    obtain rfl := Option.some.inj applied
    exact .single (StateDB.edit_beside rfl (fun _ => (by simp)) { level with } rfl rfl rfl rfl)
  | subRefund gas =>
    simp only [Method.apply, StateDB.subRefund] at applied
    split at applied
    · contradiction
    · obtain rfl := Option.some.inj applied
      exact .single (StateDB.edit_beside rfl (fun _ => (by simp)) { level with } rfl rfl rfl rfl)
  | addLog a topics data blockNumber =>
    obtain rfl := Option.some.inj applied
    refine .single (StateDB.edit_beside rfl (fun _ => (by simp)) { level with logs := ?_ } rfl rfl rfl rfl)
    simp [StateDB.back, StateDB.undo, StateDB.addLog]
  | addPreimage hash preimage =>
    obtain rfl := Option.some.inj applied
    unfold StateDB.addPreimage
    cases there : s.preimages hash with
    | some old => exact start
    | none =>
      refine .single (StateDB.edit_beside rfl (fun _ => (by simp)) { level with preimages := ?_ } rfl rfl rfl rfl)
      show update (update s.preimages hash (some preimage)) hash none = s.preimages
      rw [update_idem, ← there, update_eq_self]

-- What journaled changes, snapshots and reverts keep, every method keeps and with it every run.
section Invariant

variable (pay : Accrual) {loose : Set Address} {inv : StateDB → Prop} (edit : ∀ s t, Edit loose s t → inv s → inv t)
  (snapshot : ∀ s : StateDB, inv s → inv s.snapshot.2)
  (revert : ∀ (s t : StateDB) (revid : Nat), s.revertToSnapshot revid = some t → inv s → inv t)

include edit snapshot revert

theorem method_invariant (s t : StateDB) (method : Method) (applied : method.apply pay s = some t)
    (allowed : method.touchesRipemd s = true → ripemd ∈ loose) (holds : inv s) : inv t := by
  by_cases taken : method = .snapshot
  · subst taken
    exact Option.some.inj applied ▸ snapshot s holds
  by_cases reverts : ∃ revid, method = .revertToSnapshot revid
  · obtain ⟨revid, rfl⟩ := reverts
    exact revert s t revid applied holds
  · have edits := method_edits pay loose s t method applied allowed taken (not_exists.mp reverts)
    exact Runs.run_invariant (Edit loose) inv (fun before after holds made => edit before after made holds) s t edits holds

theorem methods_invariant (methods : List Method) (s t : StateDB) (ran : Method.run pay s methods = some t)
    (allowed : ripemd ∈ loose ∨ Method.quiet pay s methods = true) (holds : inv s) : inv t := by
  induction methods generalizing s with
  | nil => exact Option.some.inj ran ▸ holds
  | cons method rest ih =>
    obtain ⟨u, applied, ran⟩ := Option.bind_eq_some_iff.mp ran
    simp only [Method.quiet, applied, Bool.and_eq_true, Bool.not_eq_true'] at allowed
    apply ih u ran (allowed.imp id And.right)
    apply method_invariant pay edit snapshot revert s u method applied _ holds
    intro touches
    exact allowed.resolve_right fun quiet => by simp [quiet.1] at touches

end Invariant

structure Rooted (s : StateDB) : Prop where
  absent : ∀ a, s.objects a = none → s.trie a = none
  created : ∀ a, .createObject a ∈ s.entries → s.trie a = none

section Rooted

variable {s t : StateDB}

theorem rooted_new {trie : Address → Option Account} : Rooted (StateDB.new trie) :=
  ⟨fun _ => Option.map_eq_none_iff.mp, fun _ => nofun⟩

theorem rooted_edit {loose : Set Address} (edit : Edit loose s t) (rooted : Rooted s) : Rooted t := by
  obtain ⟨entry, journal, created, -⟩ := edit.journaled
  refine ⟨?_, ?_⟩
  · intro a gone
    have before : s.objects a = none := by_contra fun present => edit.kept a present gone
    rw [edit.trie, rooted.absent a before]
  · intro a member
    rw [journal] at member
    rw [edit.trie]
    rcases mem_cons.mp member with here | older
    · exact rooted.absent a (created a here.symm)
    · exact rooted.created a older

theorem rooted_unwind {n : Nat} (rooted : Rooted s) : Rooted (StateDB.unwind n s) := by
  induction n generalizing s with
  | zero => exact rooted
  | succ n ih =>
    unfold StateDB.unwind
    cases journal : s.entries with
    | nil => exact rooted
    | cons entry rest =>
      have older : ∀ a, .createObject a ∈ rest → s.trie a = none :=
        fun a member => rooted.created a (journal ▸ mem_cons_of_mem _ member)
      apply ih
      cases entry with
      | createObject a =>
        refine ⟨?_, older⟩
        intro b gone
        by_cases here : b = a
        · exact here ▸ rooted.created a (journal ▸ mem_cons_self)
        · exact rooted.absent b (by simpa [StateDB.undo, update_of_ne here] using gone)
      | resetObject a prev =>
        refine ⟨?_, older⟩
        intro b gone
        by_cases here : b = a
        · simp [StateDB.undo, here] at gone
        · exact rooted.absent b (by simpa [StateDB.undo, update_of_ne here] using gone)
      | account a change =>
        refine ⟨?_, older⟩
        intro b gone
        by_cases here : b = a
        · exact rooted.absent b (by simpa [StateDB.undo, StateDB.modify, here] using gone)
        · exact rooted.absent b (by simpa [StateDB.undo, StateDB.modify, update_of_ne here] using gone)
      | refund prev => exact ⟨rooted.absent, older⟩
      | addLog txhash => exact ⟨rooted.absent, older⟩
      | addPreimage hash => exact ⟨rooted.absent, older⟩

theorem rooted_revert (s t : StateDB) (revid : Nat) (reverted : s.revertToSnapshot revid = some t) (rooted : Rooted s) :
    Rooted t := by
  obtain ⟨journalIndex, older, -, rfl⟩ := StateDB.revert_revision revid reverted
  exact { rooted_unwind rooted with }

theorem deleted_unwind (n : Nat) (s : StateDB) : (StateDB.unwind n s).deleted = s.deleted := by
  induction n generalizing s with
  | zero => rfl
  | succ n ih =>
    unfold StateDB.unwind
    cases s.entries with
    | nil => rfl
    | cons entry rest => cases entry <;> exact ih _

-- Only Finalise and Commit delete accounts; a creation takes one out of the deleted ones.
def NoneDeleted (s t : StateDB) : Prop := ∀ a o, t.deleted a = some o → s.deleted a = some o

theorem none_deleted_edit {base : StateDB} {loose : Set Address} (edit : Edit loose s t) (none : NoneDeleted base s) :
    NoneDeleted base t := fun a o there => none a o (edit.deleted a o there)

theorem none_deleted_revert {base : StateDB} (s t : StateDB) (revid : Nat) (reverted : s.revertToSnapshot revid = some t)
    (none : NoneDeleted base s) : NoneDeleted base t := by
  obtain ⟨journalIndex, older, -, rfl⟩ := StateDB.revert_revision revid reverted
  intro a o there
  exact none a o (deleted_unwind _ s ▸ there)

variable (rooted : Rooted s) {d : Bool}

include rooted

theorem rooted_finalise : Rooted (s.finalise d) := by
  refine ⟨?_, fun _ => nofun⟩
  intro a gone
  have before := rooted.absent a
  simp only [StateDB.finalise, StateDB.clearJournalAndRefund] at gone ⊢
  split_ifs at gone ⊢ with clean
  · exact before gone
  · cases live : s.objects a with
    | none => exact before live
    | some o =>
      simp only [live] at gone
      split_ifs at gone with removed
      simp only [removed, if_true]

variable {a : Address}

theorem commit_absent (absent : s.objects a = none) (settled : s.Settled d a) : (s.commit d).trie a = none := by
  have before := rooted.absent a absent
  simp only [StateDB.commit, StateDB.clearJournalAndRefund, absent, Option.none_or]
  cases old : s.deleted a with
  | none => exact before
  | some o =>
    have removed := settled o old
    by_cases dirty : (s.dirtyObjects a || s.dirties a ≠ 0) = true
    · simp_all [StateDB.removed]
    · simp_all

theorem rooted_commit (settled : ∀ a, s.Settled d a) : Rooted (s.commit d) := by
  refine ⟨?_, fun _ => nofun⟩
  intro a gone
  cases live : s.objects a with
  | none => exact commit_absent rooted live (settled a)
  | some o =>
    simp only [StateDB.commit, StateDB.clearJournalAndRefund, live, Option.some_or] at gone ⊢
    split_ifs at gone with removed
    rw [if_pos removed]

theorem rooted_copy : Rooted s.copy := by
  refine ⟨?_, fun _ => nofun⟩
  intro a gone
  simp only [StateDB.copy] at gone
  split_ifs at gone
  · exact rooted.absent a gone
  · exact Option.map_eq_none_iff.mp gone

variable {deleteEmptyObjects : Bool}

theorem written_absent (absent : s.objects a = none) (settled : s.Settled d a) :
    ((s.finalise deleteEmptyObjects).commit d).trie a = none := by
  have kept : (s.finalise deleteEmptyObjects).objects a = none := by
    simp [StateDB.finalise, StateDB.clearJournalAndRefund, absent]
  have same : (s.finalise deleteEmptyObjects).deleted a = s.deleted a := by
    simp [StateDB.finalise, StateDB.clearJournalAndRefund, absent]
  exact commit_absent (rooted_finalise rooted) kept fun o there => settled o (same ▸ there)

omit rooted

theorem written_level {loose : Set Address} (level : Level loose {a | t.objects a ≠ none} s t) (live : t.objects a ≠ none)
    (strict : a ∉ loose) :
    ((s.finalise deleteEmptyObjects).commit d).trie a = ((t.finalise deleteEmptyObjects).commit d).trie a := by
  obtain ⟨o, live⟩ := Option.ne_none_iff_exists'.mp live
  have here : s.objects a = some o := level.objects ▸ live
  have marked := level.dirtyObjects a (by simp [live])
  have counted := level.dirties a strict
  by_cases clean : t.dirties a = 0
  · simp [StateDB.commit, StateDB.finalise, StateDB.clearJournalAndRefund, here, live, marked, level.trie, counted, clean]
  · simp [StateDB.commit, StateDB.finalise, StateDB.clearJournalAndRefund, here, live, counted, clean]

end Rooted

structure Ranked (s : StateDB) : Prop where
  ordered : s.validRevisions.Pairwise fun newer older => older.1 < newer.1 ∧ older.2 ≤ newer.2
  bounded : ∀ revision ∈ s.validRevisions, revision.1 < s.nextRevisionId ∧ revision.2 ≤ s.entries.length

section Ranked

variable {s t : StateDB}

theorem ranked_cleared (cleared : s.validRevisions = []) : Ranked s :=
  ⟨cleared ▸ .nil, cleared ▸ nofun⟩

theorem ranked_grown (ranked : Ranked s) (revisions : t.revisions = s.revisions) (longer : s.entries.length ≤ t.entries.length) :
    Ranked t := by
  have valid : t.validRevisions = s.validRevisions := congrArg Prod.fst revisions
  have next : t.nextRevisionId = s.nextRevisionId := congrArg Prod.snd revisions
  refine ⟨valid ▸ ranked.ordered, ?_⟩
  intro revision member
  have bound := ranked.bounded revision (valid ▸ member)
  exact ⟨next ▸ bound.1, Nat.le_trans bound.2 longer⟩

theorem ranked_edit {loose : Set Address} (edit : Edit loose s t) (ranked : Ranked s) : Ranked t := by
  obtain ⟨entry, journal, -⟩ := edit.journaled
  exact ranked_grown ranked edit.revisions (by simp [journal])

theorem ranked_snapshot (ranked : Ranked s) : Ranked s.snapshot.2 := by
  refine ⟨pairwise_cons.mpr ⟨ranked.bounded, ranked.ordered⟩, ?_⟩
  intro revision member
  rcases mem_cons.mp member with rfl | older
  · exact ⟨Nat.lt_succ_self _, Nat.le_refl _⟩
  · have bound := ranked.bounded revision older
    exact ⟨Nat.lt_succ_of_lt bound.1, bound.2⟩

theorem unwind_entries (n : Nat) (s : StateDB) : (StateDB.unwind n s).entries = s.entries.drop n := by
  induction n generalizing s with
  | zero => rfl
  | succ n ih =>
    unfold StateDB.unwind
    cases journal : s.entries with
    | nil => simp [journal]
    | cons entry rest => exact ih _

theorem ranked_revert (revid : Nat) (reverted : s.revertToSnapshot revid = some t) (ranked : Ranked s) : Ranked t := by
  obtain ⟨journalIndex, older, suffix, rfl⟩ := StateDB.revert_revision revid reverted
  have ordered := pairwise_cons.mp (ranked.ordered.sublist suffix.sublist)
  have place := (ranked.bounded _ (suffix.subset mem_cons_self)).2
  have next : (StateDB.unwind (s.entries.length - journalIndex) s).nextRevisionId = s.nextRevisionId :=
    congrArg Prod.snd (StateDB.revisions_unwind s _)
  refine ⟨ordered.2, ?_⟩
  intro revision member
  have named := (ranked.bounded revision (suffix.subset (mem_cons_of_mem _ member))).1
  refine ⟨next ▸ named, ?_⟩
  rw [unwind_entries, length_drop]
  have below := (ordered.1 revision member).2
  omega

variable {revid : Nat}

theorem revert_found (ranked : Ranked s) {journalIndex : Nat} {older : List (Nat × Nat)}
    (there : (revid, journalIndex) :: older <:+ s.validRevisions) : s.revertToSnapshot revid =
      some { StateDB.unwind (s.entries.length - journalIndex) s with validRevisions := older } := by
  obtain ⟨newer, split⟩ := there
  have ordered := pairwise_append.mp (split ▸ ranked.ordered)
  have skipped : s.validRevisions.dropWhile (fun revision => revid < revision.1) = (revid, journalIndex) :: older := by
    rw [← split, dropWhile_append_of_pos]
    · exact dropWhile_cons_of_neg (by simp)
    · intro revision member
      exact decide_eq_true (ordered.2.2 revision member _ mem_cons_self).1
  unfold StateDB.revertToSnapshot
  rw [skipped]
  simp only [ne_eq, not_true_eq_false, if_false]

theorem revert_valid (ranked : Ranked s) (valid : revid ∈ s.validRevisions.map Prod.fst) : (s.revertToSnapshot revid).isSome := by
  obtain ⟨⟨id, journalIndex⟩, member, rfl⟩ := mem_map.mp valid
  obtain ⟨newer, older, split⟩ := append_of_mem member
  rw [revert_found ranked ⟨newer, split.symm⟩]
  rfl

end Ranked

-- The newest `n` entries of the journal lead back to `base`, and none of them undoes the creation of an account that was
-- there already.
structure Backs (loose : Set Address) (base : StateDB) (n : Nat) (t : StateDB) : Prop where
  length : t.entries.length = base.entries.length + n
  created : ∀ a, .createObject a ∈ t.entries.take n → base.objects a = none
  kept : ∀ a, base.objects a ≠ none → t.objects a ≠ none
  level : Level loose {a | base.objects a ≠ none} (StateDB.unwind n t) base

section Backs

variable {loose : Set Address} {base t u : StateDB} {n : Nat}

theorem backs_refl : Backs loose base 0 base := ⟨rfl, fun _ => nofun, fun _ => id, level_refl⟩

theorem backs_edit (edit : Edit loose t u) (backs : Backs loose base n t) : Backs loose base (n + 1) u := by
  obtain ⟨entry, journal, created, level⟩ := edit.journaled
  have subset : {a | base.objects a ≠ none} ⊆ {a | t.objects a ≠ none} := backs.kept
  refine ⟨?_, ?_, fun a present => edit.kept a (backs.kept a present), ?_⟩
  · rw [journal, length_cons, backs.length, Nat.add_assoc]
  · intro a member
    rw [journal] at member
    rcases mem_cons.mp member with here | older
    · exact by_contra fun present => backs.kept a present (created a here.symm)
    · exact backs.created a older
  · have unwound : StateDB.unwind (n + 1) u = StateDB.unwind n (u.back entry t.entries) := by
      rw [StateDB.unwind, journal]
      rfl
    rw [unwound]
    exact level_trans (level_unwind n _ _ (level_mono subset level)) backs.level

theorem backs_back (backs : Backs loose base (n + 1) t) :
    ∃ entry rest, t.entries = entry :: rest ∧ Backs loose base n (t.back entry rest) := by
  cases journal : t.entries with
  | nil =>
    have length := backs.length
    rw [journal] at length
    contradiction
  | cons entry rest =>
    have created := backs.created
    have level := backs.level
    rw [journal] at created
    rw [StateDB.unwind, journal] at level
    refine ⟨entry, rest, rfl, ?_, fun a member => created a (mem_cons_of_mem _ member), ?_, level⟩
    · have length := backs.length
      rw [journal] at length
      exact Nat.succ.inj length
    · intro a present
      have before := backs.kept a present
      cases entry with
      | createObject b =>
        have other : a ≠ b := fun here => present (here ▸ created b mem_cons_self)
        simpa [StateDB.back, StateDB.undo, update_of_ne other] using before
      | resetObject b prev =>
        by_cases here : a = b
        · simp [StateDB.back, StateDB.undo, here]
        · simpa [StateDB.back, StateDB.undo, update_of_ne here] using before
      | account b change =>
        by_cases here : a = b
        · simpa [StateDB.back, StateDB.undo, StateDB.modify, here] using here ▸ before
        · simpa [StateDB.back, StateDB.undo, StateDB.modify, update_of_ne here] using before
      | refund prev => exact before
      | addLog txhash => exact before
      | addPreimage hash => exact before

theorem backs_unwind (m n : Nat) (t : StateDB) (backs : Backs loose base (n + m) t) : Backs loose base n (StateDB.unwind m t) := by
  induction m generalizing t with
  | zero => exact backs
  | succ m ih =>
    obtain ⟨entry, rest, journal, back⟩ := backs_back backs
    have unwound : StateDB.unwind (m + 1) t = StateDB.unwind m (t.back entry rest) := by
      rw [StateDB.unwind, journal]
      rfl
    rw [unwound]
    exact ih _ back

theorem backs_renamed (backs : Backs loose base n t) (renamed : Level loose Set.univ u t) : Backs loose base n u where
  length := (congrArg length renamed.entries).trans backs.length
  created a member := backs.created a (renamed.entries ▸ member)
  kept a present := renamed.objects ▸ backs.kept a present
  level := level_trans (level_unwind n _ _ (level_mono (Set.subset_univ _) renamed)) backs.level

end Backs

-- Since `s` took its snapshot: as long as that snapshot is valid, the journal leads back to `s` and the older ones are
-- still there.
structure Held (loose : Set Address) (s t : StateDB) : Prop where
  ranked : Ranked t
  given : s.nextRevisionId < t.nextRevisionId
  backs : s.nextRevisionId ∈ t.validRevisions.map Prod.fst →
    ∃ n, Backs loose s n t ∧ (s.nextRevisionId, s.entries.length) :: s.validRevisions <:+ t.validRevisions

section Held

variable {loose : Set Address} {s t u : StateDB}

theorem held_start (ranked : Ranked s) : Held loose s s.snapshot.2 where
  ranked := ranked_snapshot ranked
  given := Nat.lt_succ_self _
  backs _ := ⟨0, backs_renamed backs_refl { (level_refl : Level loose Set.univ s s) with }, suffix_refl _⟩

theorem held_edit (edit : Edit loose t u) (held : Held loose s t) : Held loose s u := by
  have valid : u.validRevisions = t.validRevisions := congrArg Prod.fst edit.revisions
  have next : u.nextRevisionId = t.nextRevisionId := congrArg Prod.snd edit.revisions
  refine ⟨ranked_edit edit held.ranked, next ▸ held.given, ?_⟩
  intro member
  obtain ⟨n, backs, suffix⟩ := held.backs (valid ▸ member)
  exact ⟨n + 1, backs_edit edit backs, valid ▸ suffix⟩

theorem held_snapshot (held : Held loose s t) : Held loose s t.snapshot.2 := by
  refine ⟨ranked_snapshot held.ranked, Nat.lt_succ_of_lt held.given, ?_⟩
  intro member
  rcases mem_cons.mp member with here | older
  · exact absurd here (Nat.ne_of_lt held.given)
  · obtain ⟨n, backs, suffix⟩ := held.backs older
    exact ⟨n, backs_renamed backs { (level_refl : Level loose Set.univ t t) with }, suffix.trans (suffix_cons _ _)⟩

theorem held_revert (revid : Nat) (reverted : t.revertToSnapshot revid = some u) (held : Held loose s t) : Held loose s u := by
  have ranked := ranked_revert revid reverted held.ranked
  obtain ⟨journalIndex, older, suffix, rfl⟩ := StateDB.revert_revision revid reverted
  have next : (StateDB.unwind (t.entries.length - journalIndex) t).nextRevisionId = t.nextRevisionId :=
    congrArg Prod.snd (StateDB.revisions_unwind t _)
  refine ⟨ranked, next ▸ held.given, ?_⟩
  intro member
  obtain ⟨⟨id, place⟩, among, rfl⟩ := mem_map.mp member
  have tail : older <:+ t.validRevisions := (suffix_cons _ _).trans suffix
  obtain ⟨n, backs, named⟩ := held.backs (mem_map_of_mem (tail.subset among))
  have still : (s.nextRevisionId, s.entries.length) :: s.validRevisions <:+ older := by
    rcases suffix_or_suffix_of_suffix named tail with inside | beyond
    · exact inside
    · rcases suffix_cons_iff.mp beyond with same | below
      · exact same ▸ suffix_refl _
      · have ordered := pairwise_cons.mp (held.ranked.ordered.sublist named.sublist)
        exact absurd (ordered.1 _ (below.subset among)).1 (Nat.lt_irrefl _)
  have ordered := pairwise_cons.mp (held.ranked.ordered.sublist suffix.sublist)
  have above : s.entries.length ≤ journalIndex := (ordered.1 _ (still.subset mem_cons_self)).2
  have place := (held.ranked.bounded _ (suffix.subset mem_cons_self)).2
  have count : n = (journalIndex - s.entries.length) + (t.entries.length - journalIndex) := by
    have length := backs.length
    omega
  refine ⟨journalIndex - s.entries.length, ?_, still⟩
  exact backs_renamed (backs_unwind _ _ t (count ▸ backs))
    { (level_refl : Level loose Set.univ _ _) with }

end Held

theorem reachable_sound (reachable : Reachable pay s) : Rooted s ∧ Ranked s := by
  apply Runs.reached_invariant _ (Step pay) (fun s => Rooted s ∧ Ranked s) _ _ s reachable
  · rintro s ⟨trie, rfl⟩
    exact ⟨rooted_new, ranked_cleared rfl⟩
  · rintro s t ⟨rooted, ranked⟩ step
    cases step with
    | method t method applied =>
      have allowed : method.touchesRipemd s = true → ripemd ∈ Set.univ := fun _ => Set.mem_univ _
      exact ⟨method_invariant pay (fun _ _ => rooted_edit)
        (fun _ holds => { holds with }) rooted_revert s t method applied allowed rooted,
        method_invariant pay (fun _ _ => ranked_edit) (fun _ => ranked_snapshot) (fun _ _ => ranked_revert) s t method applied allowed
          ranked⟩
    | prepare thash bhash txIndex => exact ⟨{ rooted with }, { ranked with }⟩
    | finalise deleteEmptyObjects => exact ⟨rooted_finalise rooted, ranked_cleared rfl⟩
    | commit deleteEmptyObjects settled => exact ⟨rooted_commit rooted settled, ranked_cleared rfl⟩
    | copy => exact ⟨rooted_copy rooted, ranked_cleared rfl⟩

theorem held_run {loose : Set Address} {s t : StateDB} {methods : List Method} (ranked : Ranked s)
    (ran : Method.run pay s.snapshot.2 methods = some t)
    (allowed : ripemd ∈ loose ∨ Method.quiet pay s.snapshot.2 methods = true) : Held loose s t :=
  methods_invariant pay (fun _ _ => held_edit) (fun _ => held_snapshot) (fun _ _ => held_revert) methods _ t ran allowed
    (held_start ranked)

theorem held_back {loose : Set Address} {s t : StateDB} (held : Held loose s t)
    (valid : s.nextRevisionId ∈ t.validRevisions.map Prod.fst) :
    ∃ u, t.revertToSnapshot s.nextRevisionId = some u ∧ Level loose {a | s.objects a ≠ none} u s ∧
      u.validRevisions = s.validRevisions := by
  obtain ⟨n, backs, there⟩ := held.backs valid
  have count : t.entries.length - s.entries.length = n := by
    rw [backs.length]
    exact Nat.add_sub_cancel_left _ n
  refine ⟨_, revert_found held.ranked there, ?_, rfl⟩
  rw [count]
  exact { backs.level with }

structure Observed (s t : StateDB) : Prop where
  objects : t.objects = s.objects
  refund : t.refund = s.refund
  logs : t.logs = s.logs
  logSize : t.logSize = s.logSize
  preimages : t.preimages = s.preimages

-- Two things outlive the revert. The RIPEMD account that was touched stays dirty, and Finalise deletes it where it is
-- empty. An account that Finalise deleted, and that was created again, is not there any more for Commit to write back.
theorem revert_restores (pay : Accrual) (s t : StateDB) (methods : List Method) (reachable : Reachable pay s)
    (ran : Method.run pay s.snapshot.2 methods = some t) (valid : s.snapshot.1 ∈ t.validRevisions.map Prod.fst) :
    ∃ u, t.revertToSnapshot s.snapshot.1 = some u ∧ Observed s u ∧
      (∀ finaliseEmpty commitEmpty a, s.Settled commitEmpty a →
        (a = ripemd → s.objects a = none ∨ Method.quiet pay s.snapshot.2 methods = true) →
        ((u.finalise finaliseEmpty).commit commitEmpty).trie a = ((s.finalise finaliseEmpty).commit commitEmpty).trie a) ∧
      ∀ revid ∈ s.validRevisions.map Prod.fst, (u.revertToSnapshot revid).isSome := by
  obtain ⟨rooted, ranked⟩ := reachable_sound reachable
  have held : Held {ripemd} s t := held_run ranked ran (.inl rfl)
  obtain ⟨u, reverted, level, older⟩ := held_back held valid
  have after : Rooted t :=
    methods_invariant pay (fun _ _ => rooted_edit) (fun _ holds => { holds with }) rooted_revert methods _ t ran
      (.inl (Set.mem_univ ripemd)) { rooted with }
  have since : NoneDeleted s t :=
    methods_invariant pay (fun _ _ => none_deleted_edit) (fun _ => id) none_deleted_revert methods _ t ran
      (.inl (Set.mem_univ ripemd)) fun _ _ => id
  have settled := rooted_revert t u _ reverted after
  have fewer := none_deleted_revert t u _ reverted since
  refine ⟨u, reverted, ⟨level.objects, level.refund, level.logs, level.logSize, level.preimages⟩, ?_, ?_⟩
  · intro finaliseEmpty commitEmpty a removed touched
    by_cases absent : s.objects a = none
    · rw [written_absent rooted absent removed,
        written_absent settled (level.objects ▸ absent) fun o there => removed o (fewer a o there)]
    by_cases special : a = ripemd
    · have quiet := (touched special).resolve_left absent
      have strict : Held ∅ s t := held_run ranked ran (.inr quiet)
      obtain ⟨v, again, even, -⟩ := held_back strict valid
      obtain rfl := Option.some.inj (again.symm.trans reverted)
      exact written_level even absent (Set.notMem_empty a)
    · exact written_level level absent special
  · intro revid member
    exact revert_valid (ranked_revert _ reverted held.ranked) (older ▸ member)

def steadyAccrual : Accrual where
  speed balance := |balance|
  maximum balance := |balance| * 1000
  round _ q := q
  speed_nonneg _ := abs_nonneg _
  maximum_nonneg balance := mul_nonneg (abs_nonneg balance) (by decide)
  round_nonneg _ _ positive := positive

def twoAccounts : Address → Option Account := fun a =>
  if a = 7 then some ⟨1, 50, 0, 0, [], fun _ => 0⟩ else if a = ripemd then some ⟨0, 0, 0, 0, [], fun _ => 0⟩ else none

def payment : List Method :=
  [.subSmiloPay 7 20 3, .snapshot, .addBalance 9 5 3, .createAccount 7, .setState 7 1 2, .revertToSnapshot 1, .suicide 7,
    .addPreimage 4 [1], .addLog 7 [] [2] 3]

theorem revert_restores_payment : ∃ t u, Method.run steadyAccrual (StateDB.new twoAccounts).snapshot.2 payment = some t ∧
      t.revertToSnapshot 0 = some u ∧ Observed (StateDB.new twoAccounts) u ∧
      ∀ a, ((u.finalise true).commit false).trie a = (((StateDB.new twoAccounts).finalise true).commit false).trie a := by
  have valid : (Method.run steadyAccrual (StateDB.new twoAccounts).snapshot.2 payment).map (fun t => t.validRevisions.map Prod.fst) =
      some [0] := by decide +kernel
  have quiet : Method.quiet steadyAccrual (StateDB.new twoAccounts).snapshot.2 payment = true := by decide +kernel
  obtain ⟨t, ran, revisions⟩ := Option.map_eq_some_iff.mp valid
  obtain ⟨u, reverted, observed, written, -⟩ := revert_restores steadyAccrual (StateDB.new twoAccounts) t payment
    (Runs.reached_start _ _ _ ⟨twoAccounts, rfl⟩) ran (revisions ▸ mem_singleton_self 0)
  exact ⟨t, u, ran, reverted, observed, fun a => written true false a (fun _ => nofun) fun _ => .inr quiet⟩

-- Nothing is added to the account 9, which is then there and empty, and Finalise deletes it.
def emptied : StateDB := ((StateDB.new twoAccounts).addBalance steadyAccrual 9 0 1).finalise true

-- Commit with the other rule writes the account back, but not where a creation of it was reverted before.
theorem reverted_creation_not_written_back :
    Reachable steadyAccrual emptied ∧ ∃ t u, Method.run steadyAccrual emptied.snapshot.2 [.createAccount 9] = some t ∧
      t.revertToSnapshot emptied.snapshot.1 = some u ∧ ((emptied.finalise false).commit false).trie 9 ≠ none ∧
      ((u.finalise false).commit false).trie 9 = none := by
  refine ⟨?_, _, _, rfl, rfl, ?_, ?_⟩
  · have start := Runs.reached_start (fun s => ∃ trie, s = StateDB.new trie) (Step steadyAccrual) _ ⟨twoAccounts, rfl⟩
    exact Runs.reached_step _ _ _ _ (Runs.reached_step _ _ _ _ start (.method _ _ (.addBalance 9 0 1) rfl)) (.finalise _ true)
  · exact Option.isSome_iff_ne_none.mp (by decide +kernel)
  · exact Option.isNone_iff_eq_none.mp (by decide +kernel)

-- Nothing is added to the empty RIPEMD account, and that is reverted: with the touch Finalise deletes the account.
example : ((Method.run steadyAccrual (StateDB.new twoAccounts).snapshot.2 [.addBalance ripemd 0 1]).bind
      (·.revertToSnapshot 0)).map (fun u => (((u.finalise true).commit true).trie ripemd).isSome) = some false ∧
    ((((StateDB.new twoAccounts).finalise true).commit true).trie ripemd).isSome = true := by
  decide +kernel

end Didux.State
