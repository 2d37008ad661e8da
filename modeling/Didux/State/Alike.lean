import Didux.State.StateDB

set_option autoImplicit false

namespace Didux.State

open Sport Function

-- A log with another block hash: the node that seals a block fills it in later than the others.
def Log.stamped (stamp : Hash → Hash) (log : Log) : Log := { log with blockHash := stamp log.blockHash }

structure Alike (stamp : Hash → Hash) (s t : StateDB) : Prop where
  trie : s.trie = t.trie
  objects : s.objects = t.objects
  refund : s.refund = t.refund
  thash : s.thash = t.thash
  bhash : stamp s.bhash = t.bhash
  txIndex : s.txIndex = t.txIndex
  logs : ∀ hash, (s.logs hash).map (Log.stamped stamp) = t.logs hash
  logSize : s.logSize = t.logSize
  preimages : s.preimages = t.preimages
  entries : s.entries = t.entries
  dirties : s.dirties = t.dirties

theorem alike_refl (s : StateDB) : Alike id s s :=
  ⟨rfl, rfl, rfl, rfl, rfl, rfl, fun _ => List.map_id _, rfl, rfl, rfl, rfl⟩

theorem alike_trans (stamp : Hash → Hash) (s t u : StateDB) (first : Alike id s t) (second : Alike stamp t u) : Alike stamp s u where
  trie := first.trie.trans second.trie
  objects := first.objects.trans second.objects
  refund := first.refund.trans second.refund
  thash := first.thash.trans second.thash
  bhash := (congrArg stamp first.bhash).trans second.bhash
  txIndex := first.txIndex.trans second.txIndex
  logs hash := (congrArg (List.map (Log.stamped stamp)) ((List.map_id _).symm.trans (first.logs hash))).trans (second.logs hash)
  logSize := first.logSize.trans second.logSize
  preimages := first.preimages.trans second.preimages
  entries := first.entries.trans second.entries
  dirties := first.dirties.trans second.dirties

namespace StateDB

variable {stamp : Hash → Hash} {s t : StateDB}

variable {entry : Entry} {a : Address}

variable (alike : Alike stamp s t)

include alike

theorem alike_append : Alike stamp (s.append entry) (t.append entry) :=
  { alike with
    entries := congrArg (entry :: ·) alike.entries
    dirties := congrArg (bump · entry.dirtied) alike.dirties }

theorem alike_modify {f : Object → Object} : Alike stamp (s.modify a f) (t.modify a f) :=
  { alike with objects := by simp only [modify, alike.objects] }

theorem alike_write (a : Address) (change : Object → Change) (f : Object → Object) :
    Alike stamp (s.write a change f) (t.write a change f) := by
  unfold write
  rw [← alike.objects]
  cases s.objects a with
  | none => exact alike
  | some o => exact alike_modify (alike_append alike)

theorem alike_create_object : Alike stamp (s.createObject a) (t.createObject a) := by
  have here : update s.objects a (some newObject) = update t.objects a (some newObject) := by rw [alike.objects]
  unfold createObject
  rw [← alike.objects] at here ⊢
  cases s.objects a with
  | none => exact { alike_append alike with objects := here }
  | some prev => exact { alike_append alike with objects := here }

theorem alike_get_or_new (a : Address) :
    Alike stamp (s.getOrNewStateObject a) (t.getOrNewStateObject a) := by
  unfold getOrNewStateObject
  rw [← alike.objects]
  cases s.objects a with
  | none => exact alike_create_object alike
  | some o => exact alike

theorem alike_create_account (a : Address) : Alike stamp (s.createAccount a) (t.createAccount a) := by
  unfold createAccount
  rw [← alike.objects]
  exact alike_modify (alike_create_object alike)

theorem alike_touch (a : Address) : Alike stamp (StateObject.touch s a) (StateObject.touch t a) := by
  have touched := alike_write alike a (fun _ => .touch) id
  unfold StateObject.touch
  split
  · exact { touched with dirties := congrArg (bump · (some a)) touched.dirties }
  · exact touched

omit alike

variable (pay : Accrual)

theorem alike_update_smilo_pay (alike : Alike stamp s t) (a : Address) (blockNumber : Nat) :
    Alike stamp (StateObject.updateSmiloPay pay s a blockNumber) (StateObject.updateSmiloPay pay t a blockNumber) :=
  alike_write alike a _ _

theorem alike_set_balance (alike : Alike stamp s t) {amount : Int} {blockNumber : Nat} :
    Alike stamp (StateObject.setBalance pay s a amount blockNumber) (StateObject.setBalance pay t a amount blockNumber) :=
  alike_write (alike_update_smilo_pay pay alike a blockNumber) a _ _

theorem alike_add_balance (alike : Alike stamp s t) (a : Address) (amount : Int) (blockNumber : Nat) :
    Alike stamp (s.addBalance pay a amount blockNumber) (t.addBalance pay a amount blockNumber) := by
  have live := alike_get_or_new alike a
  unfold addBalance StateObject.addBalance
  rw [← live.objects]
  split
  · split
    · exact alike_touch live a
    · exact live
  · have updated := alike_update_smilo_pay pay live a blockNumber
    dsimp only
    rw [← updated.objects]
    exact alike_set_balance pay updated

theorem alike_sub_balance (alike : Alike stamp s t) (a : Address) (amount : Int) (blockNumber : Nat) :
    Alike stamp (s.subBalance pay a amount blockNumber) (t.subBalance pay a amount blockNumber) := by
  have live := alike_get_or_new alike a
  unfold subBalance StateObject.subBalance
  rw [← live.objects]
  split
  · exact live
  · exact alike_set_balance pay live

theorem alike_sub_smilo_pay (alike : Alike stamp s t) (a : Address) (amount : Int) (blockNumber : Nat) :
    Alike stamp (s.subSmiloPay pay a amount blockNumber) (t.subSmiloPay pay a amount blockNumber) := by
  have live := alike_get_or_new alike a
  unfold subSmiloPay StateObject.subSmiloPay
  split
  · exact live
  · have updated := alike_update_smilo_pay pay live a blockNumber
    dsimp only
    unfold StateObject.smiloPay
    rw [← updated.objects]
    exact alike_write updated a _ _

theorem alike_set_nonce (alike : Alike stamp s t) (a : Address) (nonce : Nat) : Alike stamp (s.setNonce a nonce) (t.setNonce a nonce) :=
  alike_write (alike_get_or_new alike a) a _ _

theorem alike_set_code (alike : Alike stamp s t) (a : Address) (code : Bytes) : Alike stamp (s.setCode a code) (t.setCode a code) :=
  alike_write (alike_get_or_new alike a) a _ _

theorem alike_set_state (alike : Alike stamp s t) (a : Address) (key value : Hash) :
    Alike stamp (s.setState a key value) (t.setState a key value) := by
  have live := alike_get_or_new alike a
  unfold setState StateObject.setState
  rw [← live.objects]
  split
  · exact live
  · exact alike_write live a _ _

theorem alike_suicide (alike : Alike stamp s t) (a : Address) : Alike stamp (s.suicide a) (t.suicide a) := alike_write alike a _ _

theorem alike_add_refund (alike : Alike stamp s t) (gas : Nat) : Alike stamp (s.addRefund gas) (t.addRefund gas) := by
  unfold addRefund
  rw [← alike.refund]
  exact { alike_append alike with refund := rfl }

theorem alike_sub_refund (alike : Alike stamp s t) (gas : Nat) : (s.subRefund gas = none ∧ t.subRefund gas = none) ∨
    ∃ s' t', s.subRefund gas = some s' ∧ t.subRefund gas = some t' ∧ Alike stamp s' t' := by
  unfold subRefund
  rw [← alike.refund]
  split
  · exact .inl ⟨rfl, rfl⟩
  · exact .inr ⟨_, _, rfl, rfl, { alike_append alike with refund := rfl }⟩

theorem alike_add_log (alike : Alike stamp s t) (a : Address) (topics : List Hash) (data : Bytes) (blockNumber : Nat) :
    Alike stamp (s.addLog a topics data blockNumber) (t.addLog a topics data blockNumber) := by
  unfold addLog
  rw [← alike.thash, ← alike.txIndex, ← alike.logSize]
  have logs : ∀ hash, (update s.logs s.thash (s.logs s.thash ++
        [⟨a, topics, data, blockNumber, s.thash, s.txIndex, s.bhash, s.logSize⟩]) hash).map (Log.stamped stamp) =
      update t.logs s.thash (t.logs s.thash ++
        [⟨a, topics, data, blockNumber, s.thash, s.txIndex, t.bhash, s.logSize⟩]) hash := by
    intro hash
    by_cases here : hash = s.thash
    · rw [here, update_self, update_self, List.map_append, alike.logs, ← alike.bhash]
      rfl
    · rw [update_of_ne here, update_of_ne here]
      exact alike.logs hash
  exact { alike_append alike with logs := logs, logSize := rfl, thash := alike.thash }

theorem alike_prepare (alike : Alike stamp s t) (thash first second : Hash) (txIndex : Nat)
    (stamped : stamp first = second) : Alike stamp (s.prepare thash first txIndex) (t.prepare thash second txIndex) :=
  { alike with thash := rfl, bhash := stamped, txIndex := rfl }

theorem alike_undo (alike : Alike stamp s t) : Alike stamp (s.undo entry) (t.undo entry) := by
  cases entry with
  | createObject a => exact { alike with objects := by simp only [undo, alike.objects] }
  | resetObject a prev => exact { alike with objects := by simp only [undo, alike.objects] }
  | account a change => exact alike_modify alike
  | refund prev => exact { alike with refund := rfl }
  | addLog txhash =>
    have logs : ∀ hash, (update s.logs txhash (s.logs txhash).dropLast hash).map (Log.stamped stamp) =
        update t.logs txhash (t.logs txhash).dropLast hash := by
      intro hash
      by_cases here : hash = txhash
      · rw [here, update_self, update_self, List.map_dropLast, alike.logs]
      · rw [update_of_ne here, update_of_ne here]
        exact alike.logs hash
    exact { alike with logs := logs, logSize := congrArg (· - 1) alike.logSize }
  | addPreimage hash => exact { alike with preimages := by simp only [undo, alike.preimages] }

def back (s : StateDB) (entry : Entry) (rest : List Entry) : StateDB :=
  { s.undo entry with entries := rest, dirties := drop s.dirties entry.dirtied }

theorem alike_back (alike : Alike stamp s t) {rest : List Entry} : Alike stamp (s.back entry rest) (t.back entry rest) :=
  { alike_undo alike with entries := rfl, dirties := congrArg (drop · entry.dirtied) alike.dirties }

theorem alike_unwind (n : Nat) (s t : StateDB) (alike : Alike stamp s t) : Alike stamp (unwind n s) (unwind n t) := by
  induction n generalizing s t with
  | zero => exact alike
  | succ n ih =>
    unfold unwind
    rw [← alike.entries]
    cases s.entries with
    | nil => exact alike
    | cons entry rest => exact ih _ _ (alike_back alike)

theorem alike_finalise (alike : Alike stamp s t) (deleteEmptyObjects : Bool) :
    Alike stamp (s.finalise deleteEmptyObjects) (t.finalise deleteEmptyObjects) := by
  unfold finalise
  rw [← alike.dirties, ← alike.objects, ← alike.trie]
  exact { alike with trie := rfl, objects := rfl, refund := rfl, entries := rfl, dirties := rfl }

-- Prepare and the methods on accounts do not see each other.
section Prepare

variable (s : StateDB) (a : Address) (thash bhash : Hash) (txIndex : Nat)

theorem objects_prepare : (s.prepare thash bhash txIndex).objects = s.objects := rfl

theorem write_prepare {change : Object → Change} {f : Object → Object} :
    (s.prepare thash bhash txIndex).write a change f = (s.write a change f).prepare thash bhash txIndex := by
  simp only [write, prepare]
  cases s.objects a <;> rfl

theorem get_or_new_prepare :
    (s.prepare thash bhash txIndex).getOrNewStateObject a = (s.getOrNewStateObject a).prepare thash bhash txIndex := by
  unfold getOrNewStateObject createObject
  cases live : s.objects a <;> simp [prepare, append, live]

theorem add_balance_prepare (pay : Accrual) (amount : Int) (blockNumber : Nat) :
    (s.prepare thash bhash txIndex).addBalance pay a amount blockNumber =
      (s.addBalance pay a amount blockNumber).prepare thash bhash txIndex := by
  unfold addBalance StateObject.addBalance StateObject.touch StateObject.setBalance StateObject.updateSmiloPay
  simp only [get_or_new_prepare, write_prepare, objects_prepare]
  split_ifs <;> rfl

end Prepare

-- The revisions of a state: no method but Snapshot, RevertToSnapshot and Finalise changes them.
def revisions (s : StateDB) : List (Nat × Nat) × Nat := (s.validRevisions, s.nextRevisionId)

section Revisions

variable (s : StateDB) (a : Address)

variable {entry : Entry} {f : Object → Object}

@[simp] theorem revisions_append : (s.append entry).revisions = s.revisions := rfl

@[simp] theorem revisions_modify : (s.modify a f).revisions = s.revisions := rfl

@[simp] theorem revisions_write {change : Object → Change} : (s.write a change f).revisions = s.revisions := by
  unfold write
  split <;> rfl

@[simp] theorem revisions_create_object : (s.createObject a).revisions = s.revisions := by
  unfold createObject
  split <;> rfl

@[simp] theorem revisions_get_or_new : (s.getOrNewStateObject a).revisions = s.revisions := by
  unfold getOrNewStateObject
  split
  · exact revisions_create_object s a
  · rfl

@[simp] theorem revisions_create_account : (s.createAccount a).revisions = s.revisions := revisions_create_object s a

@[simp] theorem revisions_touch : (StateObject.touch s a).revisions = s.revisions := by
  unfold StateObject.touch
  split <;> exact revisions_write s a

variable (pay : Accrual) (amount : Int) (blockNumber : Nat)

@[simp] theorem revisions_update_smilo_pay : (StateObject.updateSmiloPay pay s a blockNumber).revisions = s.revisions :=
  revisions_write s a

@[simp] theorem revisions_set_balance : (StateObject.setBalance pay s a amount blockNumber).revisions = s.revisions := by
  unfold StateObject.setBalance
  rw [revisions_write, revisions_update_smilo_pay]

@[simp] theorem revisions_add_balance : (s.addBalance pay a amount blockNumber).revisions = s.revisions := by
  unfold addBalance StateObject.addBalance
  split_ifs <;> simp

@[simp] theorem revisions_sub_balance : (s.subBalance pay a amount blockNumber).revisions = s.revisions := by
  unfold subBalance StateObject.subBalance
  split_ifs <;> simp

@[simp] theorem revisions_sub_smilo_pay : (s.subSmiloPay pay a amount blockNumber).revisions = s.revisions := by
  unfold subSmiloPay StateObject.subSmiloPay StateObject.setSmiloPay
  split_ifs <;> simp

@[simp] theorem revisions_set_nonce {nonce : Nat} : (s.setNonce a nonce).revisions = s.revisions := by
  simp only [setNonce, StateObject.setNonce, revisions_write, revisions_get_or_new]

@[simp] theorem revisions_set_code {code : Bytes} : (s.setCode a code).revisions = s.revisions := by
  simp only [setCode, StateObject.setCode, revisions_write, revisions_get_or_new]

@[simp] theorem revisions_set_state {key value : Hash} : (s.setState a key value).revisions = s.revisions := by
  unfold setState StateObject.setState
  split_ifs <;> simp

@[simp] theorem revisions_suicide : (s.suicide a).revisions = s.revisions := revisions_write s a

theorem revisions_undo : (s.undo entry).revisions = s.revisions := by
  cases entry <;> rfl

theorem revisions_unwind (n : Nat) : (unwind n s).revisions = s.revisions := by
  induction n generalizing s with
  | zero => rfl
  | succ n ih =>
    unfold unwind
    split
    · rfl
    · exact (ih _).trans (revisions_undo s)

end Revisions

end StateDB

def Fresh (s : StateDB) : Prop := ∀ revision ∈ s.validRevisions, revision.1 < s.nextRevisionId

end Didux.State
