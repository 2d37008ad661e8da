import Didux.State.Alike

set_option autoImplicit false

namespace Didux.State

open Sport Function List StateDB

structure Content where
  address : Address
  topics : List Hash
  data : Bytes
deriving DecidableEq

def Log.content (log : Log) : Content := ⟨log.address, log.topics, log.data⟩

structure Place where
  thash : Hash
  bhash : Hash
  txIndex : Nat
  blockNumber : Nat

def Place.log (place : Place) (index : Nat) (content : Content) : Log :=
  ⟨content.address, content.topics, content.data, place.blockNumber, place.thash, place.txIndex, place.bhash, index⟩

def Place.stamp (place : Place) : Nat → List Content → List Log
  | _, [] => []
  | start, content :: rest => place.log start content :: place.stamp (start + 1) rest

theorem stamp_append (place : Place) (start : Nat) (first second : List Content) :
    place.stamp start (first ++ second) = place.stamp start first ++ place.stamp (start + first.length) second := by
  induction first generalizing start with
  | nil => rfl
  | cons content rest ih =>
    rw [cons_append, Place.stamp, ih, Place.stamp, length_cons, cons_append, Nat.add_assoc, Nat.add_comm 1]

theorem map_content_stamp (place : Place) (start : Nat) (contents : List Content) :
    (place.stamp start contents).map Log.content = contents := by
  induction contents generalizing start with
  | nil => rfl
  | cons content rest ih => exact congrArg (content :: ·) (ih (start + 1))

theorem indices_stamp (place : Place) (start : Nat) (contents : List Content) :
    (place.stamp start contents).map Log.index = range' start contents.length := by
  induction contents generalizing start with
  | nil => rfl
  | cons content rest ih => exact congrArg (start :: ·) (ih (start + 1))

def Entry.logged : Entry → Option Hash
  | .addLog txhash => some txhash
  | _ => none

namespace StateDB

-- What a state knows of its logs: no method but AddLog, Prepare and the undoing of an AddLog changes it.
def logging (s : StateDB) : (Hash → List Log) × Nat × List Hash × Hash × Hash × Nat :=
  (s.logs, s.logSize, s.entries.filterMap Entry.logged, s.thash, s.bhash, s.txIndex)

section Logging

variable (s : StateDB) (a : Address)

theorem logging_append (entry : Entry) (plain : entry.logged = none) : (s.append entry).logging = s.logging := by
  simp only [logging, append, filterMap_cons, plain]

@[simp] theorem logging_modify (f : Object → Object) : (s.modify a f).logging = s.logging := rfl

@[simp] theorem logging_write (change : Object → Change) (f : Object → Object) : (s.write a change f).logging = s.logging := by
  unfold write
  split
  · rfl
  · exact logging_append s _ rfl

@[simp] theorem logging_create_object : (s.createObject a).logging = s.logging := by
  unfold createObject
  split
  · exact logging_append s (.createObject a) rfl
  · next prev _ => exact logging_append s (.resetObject a prev) rfl

@[simp] theorem logging_get_or_new : (s.getOrNewStateObject a).logging = s.logging := by
  unfold getOrNewStateObject
  split
  · exact logging_create_object s a
  · rfl

@[simp] theorem logging_create_account : (s.createAccount a).logging = s.logging := logging_create_object s a

@[simp] theorem logging_touch : (StateObject.touch s a).logging = s.logging := by
  unfold StateObject.touch
  split <;> exact logging_write s a _ _

variable (pay : Accrual) (amount : Int) (blockNumber : Nat)

@[simp] theorem logging_update_smilo_pay : (StateObject.updateSmiloPay pay s a blockNumber).logging = s.logging := logging_write s a _ _

@[simp] theorem logging_set_balance : (StateObject.setBalance pay s a amount blockNumber).logging = s.logging := by
  unfold StateObject.setBalance
  rw [logging_write, logging_update_smilo_pay]

@[simp] theorem logging_add_balance : (s.addBalance pay a amount blockNumber).logging = s.logging := by
  unfold addBalance StateObject.addBalance
  split_ifs <;> simp

@[simp] theorem logging_sub_balance : (s.subBalance pay a amount blockNumber).logging = s.logging := by
  unfold subBalance StateObject.subBalance
  split_ifs <;> simp

@[simp] theorem logging_sub_smilo_pay : (s.subSmiloPay pay a amount blockNumber).logging = s.logging := by
  unfold subSmiloPay StateObject.subSmiloPay StateObject.setSmiloPay
  split_ifs <;> simp

@[simp] theorem logging_set_nonce (nonce : Nat) : (s.setNonce a nonce).logging = s.logging := by
  simp only [setNonce, StateObject.setNonce, logging_write, logging_get_or_new]

@[simp] theorem logging_set_code (code : Bytes) : (s.setCode a code).logging = s.logging := by
  simp only [setCode, StateObject.setCode, logging_write, logging_get_or_new]

@[simp] theorem logging_set_state (key value : Hash) : (s.setState a key value).logging = s.logging := by
  unfold setState StateObject.setState
  split_ifs <;> simp

@[simp] theorem logging_suicide : (s.suicide a).logging = s.logging := logging_write s a _ _

@[simp] theorem logging_add_refund (gas : Nat) : (s.addRefund gas).logging = s.logging := logging_append s (.refund s.refund) rfl

theorem logging_sub_refund (gas : Nat) (t : StateDB) (applied : s.subRefund gas = some t) : t.logging = s.logging := by
  unfold subRefund at applied
  split at applied
  · contradiction
  · exact Option.some.inj applied ▸ logging_append s (.refund s.refund) rfl

end Logging

end StateDB

structure Recorded (place : Place) (base : Hash → List Log) (size : Nat) (contents : List Content) (s : StateDB) : Prop where
  logs : s.logs = update base place.thash (base place.thash ++ place.stamp size contents)
  logSize : s.logSize = size + contents.length
  journal : s.entries.filterMap Entry.logged = replicate contents.length place.thash
  thash : s.thash = place.thash
  bhash : s.bhash = place.bhash
  txIndex : s.txIndex = place.txIndex

section Recorded

variable {place : Place} {base : Hash → List Log} {size : Nat} {contents : List Content} {s t : StateDB}

theorem recorded_logging (recorded : Recorded place base size contents s) (same : t.logging = s.logging) :
    Recorded place base size contents t := by
  simp only [logging, Prod.mk.injEq] at same
  obtain ⟨logs, logSize, journal, thash, bhash, txIndex⟩ := same
  exact ⟨logs.trans recorded.logs, logSize.trans recorded.logSize, journal.trans recorded.journal, thash.trans recorded.thash,
    bhash.trans recorded.bhash, txIndex.trans recorded.txIndex⟩

theorem recorded_start (s : StateDB) (blockNumber : Nat) (empty : s.entries.filterMap Entry.logged = []) :
    Recorded ⟨s.thash, s.bhash, s.txIndex, blockNumber⟩ s.logs s.logSize [] s := by
  refine ⟨?_, rfl, empty, rfl, rfl, rfl⟩
  rw [Place.stamp, append_nil, update_eq_self]

theorem recorded_add_log (recorded : Recorded place base size contents s) (address : Address) (topics : List Hash) (data : Bytes) :
    Recorded place base size (contents ++ [⟨address, topics, data⟩]) (s.addLog address topics data place.blockNumber) := by
  constructor
  · simp only [addLog, recorded.logs, recorded.thash, recorded.bhash, recorded.txIndex, recorded.logSize,
      update_self, update_idem, stamp_append, append_assoc]
    rfl
  · simp only [addLog, recorded.logSize, length_append, length_cons, length_nil, Nat.add_assoc]
  · simp only [addLog, append, filterMap_cons, Entry.logged, recorded.journal, recorded.thash,
      length_append, length_cons, length_nil, replicate_succ]
  · exact recorded.thash
  · exact recorded.bhash
  · exact recorded.txIndex

theorem recorded_undo (recorded : Recorded place base size contents s) (entry : Entry) (rest : List Entry)
    (newest : s.entries = entry :: rest) (dirties : Address → Nat) :
    ∃ k, Recorded place base size (contents.take k) { s.undo entry with entries := rest, dirties := dirties } := by
  have journal := recorded.journal
  rw [newest, filterMap_cons] at journal
  cases entry with
  | addLog txhash =>
    cases contents using reverseRecOn with
    | nil => simp [Entry.logged] at journal
    | append_singleton older content _ =>
      simp only [Entry.logged, length_append, length_cons, length_nil, replicate_succ, cons.injEq]
        at journal
      obtain ⟨rfl, journal⟩ := journal
      refine ⟨older.length, ?_⟩
      rw [take_left]
      refine ⟨?_, ?_, journal, recorded.thash, recorded.bhash, recorded.txIndex⟩
      · simp only [undo, recorded.logs, update_self, update_idem, stamp_append, ← append_assoc]
        simp only [Place.stamp, dropLast_concat]
      · simp only [undo, recorded.logSize, length_append, length_cons, length_nil]
        omega
  | _ =>
    refine ⟨contents.length, ?_⟩
    rw [take_length]
    exact ⟨recorded.logs, recorded.logSize, journal, recorded.thash, recorded.bhash, recorded.txIndex⟩

theorem recorded_unwind (n : Nat) (recorded : Recorded place base size contents s) :
    ∃ k, Recorded place base size (contents.take k) (unwind n s) := by
  induction n generalizing s contents with
  | zero => exact ⟨contents.length, by rwa [take_length]⟩
  | succ n ih =>
    unfold unwind
    split
    · exact ⟨contents.length, by rwa [take_length]⟩
    · next entry rest newest =>
        obtain ⟨k, undone⟩ := recorded_undo recorded entry rest newest (drop s.dirties entry.dirtied)
        obtain ⟨j, unwound⟩ := ih undone
        exact ⟨min j k, by rwa [take_take] at unwound⟩

theorem recorded_revert (recorded : Recorded place base size contents s) (revid : Nat) (reverted : s.revertToSnapshot revid = some t) :
    ∃ k, Recorded place base size (contents.take k) t := by
  unfold revertToSnapshot at reverted
  split at reverted
  · contradiction
  · split at reverted
    · contradiction
    · obtain rfl := Option.some.inj reverted
      obtain ⟨k, unwound⟩ := recorded_unwind _ recorded
      exact ⟨k, unwound.logs, unwound.logSize, unwound.journal, unwound.thash, unwound.bhash, unwound.txIndex⟩

end Recorded

end Didux.State
