import Didux.State.Alike
import Didux.Vm.Evm

set_option autoImplicit false

namespace Didux.Vm

open Sport State Prog Program List StateDB

def shift (n : Nat) (taken : List (Nat × Nat)) : List (Nat × Nat) := taken.map fun revision => (n + revision.1, revision.2)

def found (k : Nat) (taken : List (Nat × Nat)) : Option (Nat × List (Nat × Nat)) :=
  match taken.dropWhile fun revision => k < revision.1 with
  | [] => none
  | (id, journalIndex) :: older => if id ≠ k then none else some (journalIndex, older)

theorem revert_taken {s : StateDB} {n k : Nat} {taken old : List (Nat × Nat)} (valid : s.validRevisions = shift n taken ++ old)
    (below : ∀ revision ∈ old, revision.1 < n) : s.revertToSnapshot (n + k) = (found k taken).map fun hit =>
      { unwind (s.entries.length - hit.1) s with validRevisions := shift n hit.2 ++ old } := by
  have passes : ∀ revision : Nat × Nat, decide (n + k < n + revision.1) = decide (k < revision.1) := by
    intro revision
    rw [decide_eq_decide]
    omega
  unfold StateDB.revertToSnapshot found
  rw [valid, dropWhile_append, shift, dropWhile_map]
  simp only [Function.comp_def, passes]
  cases rest : taken.dropWhile fun revision => k < revision.1 with
  | cons revision older =>
    simp only [map_cons, isEmpty_cons, Bool.false_eq_true, if_false, cons_append, ne_eq, Nat.add_left_cancel_iff]
    split <;> rfl
  | nil =>
    -- Nothing is left of this run, and the older names are all smaller.
    cases old with
    | nil => rfl
    | cons revision older =>
      have small := below revision mem_cons_self
      rw [dropWhile_cons_of_neg (by simp only [decide_eq_true_eq]; omega)]
      exact if_pos (by omega)

structure Numbered (n : Nat) (old taken : List (Nat × Nat)) (count : Nat) (running : List Nat) (evm : EVM) : Prop where
  valid : evm.publicState.validRevisions = shift n taken ++ old
  next : evm.publicState.nextRevisionId = n + count
  running : evm.snapshots = running.map (n + ·)
  below : ∀ revision ∈ old, revision.1 < n

def Paired (evm twin : EVM) : Prop :=
  ∃ n m old older taken count running, Numbered n old taken count running evm ∧ Numbered m older taken count running twin

structure Twin (stamp : Hash → Hash) (evm twin : EVM) : Prop where
  alone : evm.vaultState = none
  aloneTwin : twin.vaultState = none
  states : evm.states = twin.states
  smiloReadOnly : evm.smiloReadOnly = twin.smiloReadOnly
  readOnlyDepth : evm.readOnlyDepth = twin.readOnlyDepth
  depth : evm.depth = twin.depth
  readOnly : evm.readOnly = twin.readOnly
  alike : Alike stamp evm.publicState twin.publicState
  paired : Paired evm twin

theorem get_alone {evm : EVM} (alone : evm.vaultState = none) {side : Side} : evm.get side = evm.publicState := by
  cases side <;> simp [EVM.get, alone]

theorem set_alone (evm : EVM) (alone : evm.vaultState = none) (side : Side) (s : StateDB) :
    evm.set side s = { evm with publicState := s } := by
  cases side <;> simp [EVM.set, alone]

section Steps

variable {stamp : Hash → Hash} {evm twin : EVM}

theorem twin_view (pair : Twin stamp evm twin) : evm.view = twin.view := by
  unfold EVM.view EVM.current
  simp only [get_alone pair.alone, get_alone pair.aloneTwin, pair.alike.objects, pair.alike.refund, pair.states,
    pair.smiloReadOnly, pair.depth, pair.readOnly]

variable {next : EVM} {n count : Nat} {old taken : List (Nat × Nat)} {running : List Nat}

theorem numbered_of_state
    (numbered : Numbered n old taken count running evm) (revisions : next.publicState.revisions = evm.publicState.revisions)
    (snapshots : next.snapshots = evm.snapshots) : Numbered n old taken count running next where
  valid := (congrArg Prod.fst revisions).trans numbered.valid
  next := (congrArg Prod.snd revisions).trans numbered.next
  running := snapshots.trans numbered.running
  below := numbered.below

theorem paired_of_states {nextTwin : EVM} (paired : Paired evm twin)
    (first : next.publicState.revisions = evm.publicState.revisions) (snapshots : next.snapshots = evm.snapshots)
    (second : nextTwin.publicState.revisions = twin.publicState.revisions) (snapshotsTwin : nextTwin.snapshots = twin.snapshots) :
    Paired next nextTwin := by
  obtain ⟨n, m, old, older, taken, count, running, here, there⟩ := paired
  exact ⟨n, m, old, older, taken, count, running, numbered_of_state here first snapshots,
    numbered_of_state there second snapshotsTwin⟩

theorem twin_push (pair : Twin stamp evm twin) {side : Side} : Twin stamp (evm.push side) (twin.push side) := by
  have apart : ∀ machine : EVM, machine.vaultState = none → machine.push side = { machine with states := side :: machine.states } := by
    intro machine alone
    simp [EVM.push, alone]
  rw [apart evm pair.alone, apart twin pair.aloneTwin]
  exact { pair with states := congrArg (side :: ·) pair.states, paired := paired_of_states pair.paired rfl rfl rfl rfl }

theorem twin_pop (pair : Twin stamp evm twin) : Twin stamp evm.pop twin.pop := by
  have tails : evm.states.tail = twin.states.tail := congrArg tail pair.states
  unfold EVM.pop
  rw [← tails, ← pair.readOnlyDepth, ← pair.smiloReadOnly]
  dsimp only
  split <;> exact { pair with
    states := rfl, smiloReadOnly := rfl, readOnlyDepth := rfl, paired := paired_of_states pair.paired rfl rfl rfl rfl }

theorem numbered_snapshot (numbered : Numbered n old taken count running evm) :
    Numbered n old ((count, evm.publicState.entries.length) :: taken) (count + 1) (count :: running)
      { evm with publicState := evm.publicState.snapshot.2, snapshots := evm.publicState.snapshot.1 :: evm.snapshots } where
  valid := by simp only [StateDB.snapshot, numbered.valid, numbered.next, shift, map_cons, cons_append]
  next := by simp only [StateDB.snapshot, numbered.next, Nat.add_assoc]
  running := by simp only [StateDB.snapshot, numbered.running, numbered.next, map_cons]
  below := numbered.below

theorem twin_snapshot (pair : Twin stamp evm twin) : Twin stamp
      { evm with publicState := evm.publicState.snapshot.2, snapshots := evm.publicState.snapshot.1 :: evm.snapshots }
      { twin with publicState := twin.publicState.snapshot.2, snapshots := twin.publicState.snapshot.1 :: twin.snapshots } := by
  obtain ⟨n, m, old, older, taken, count, running, here, there⟩ := pair.paired
  have first := numbered_snapshot here
  have second := numbered_snapshot there
  rw [← pair.alike.entries] at second
  exact { pair with alike := { pair.alike with }, paired := ⟨n, m, old, older, _, _, _, first, second⟩ }

theorem numbered_discard
    (numbered : Numbered n old taken count running evm) : Numbered n old taken count running.tail evm.discard :=
  { numbered with running := by simp only [EVM.discard, numbered.running, map_tail] }

theorem twin_discard (pair : Twin stamp evm twin) : Twin stamp evm.discard twin.discard := by
  obtain ⟨n, m, old, older, taken, count, running, here, there⟩ := pair.paired
  exact { pair with
    paired := ⟨n, m, old, older, taken, count, _, numbered_discard here,
      numbered_discard there⟩ }

theorem numbered_revert (n : Nat) (old taken older : List (Nat × Nat)) (count journalIndex : Nat) (running : List Nat)
    (numbered : Numbered n old taken count running evm) : Numbered n old older count running.tail
      { evm.discard with
        publicState := { unwind (evm.publicState.entries.length - journalIndex) evm.publicState with
          validRevisions := shift n older ++ old } } where
  valid := rfl
  next := (congrArg Prod.snd (revisions_unwind evm.publicState _)).trans numbered.next
  running := (numbered_discard numbered).running
  below := numbered.below

theorem twin_revert (pair : Twin stamp evm twin) : (evm.snapshots.head?.bind evm.publicState.revertToSnapshot = none ∧
      twin.snapshots.head?.bind twin.publicState.revertToSnapshot = none) ∨
    ∃ s t, evm.snapshots.head?.bind evm.publicState.revertToSnapshot = some s ∧
      twin.snapshots.head?.bind twin.publicState.revertToSnapshot = some t ∧
      Twin stamp { evm.discard with publicState := s } { twin.discard with publicState := t } := by
  obtain ⟨n, m, old, older, taken, count, running, here, there⟩ := pair.paired
  rw [here.running, there.running]
  cases running with
  | nil => exact .inl ⟨rfl, rfl⟩
  | cons k rest =>
    simp only [map_cons, head?_cons, Option.bind_some]
    rw [revert_taken here.valid here.below,
      revert_taken there.valid there.below]
    cases found k taken with
    | none => exact .inl ⟨rfl, rfl⟩
    | some hit =>
      have first := numbered_revert n old taken hit.2 count hit.1 _ here
      have second := numbered_revert m older taken hit.2 count hit.1 _ there
      have alike := alike_unwind (evm.publicState.entries.length - hit.1) _ _ pair.alike
      rw [← pair.alike.entries] at second ⊢
      refine .inr ⟨_, _, rfl, rfl, ?_⟩
      exact { pair with alike := { alike with }, paired := ⟨n, m, old, older, hit.2, count, _, first, second⟩ }

theorem op_alike {pay : Accrual} {blockNumber : Nat} {s t : StateDB} {op : Op} (alike : Alike stamp s t) :
    (op.apply pay blockNumber s = none ∧ op.apply pay blockNumber t = none) ∨
    ∃ s' t', op.apply pay blockNumber s = some s' ∧ op.apply pay blockNumber t = some t' ∧ Alike stamp s' t' := by
  cases op with
  | createAccount a => exact .inr ⟨_, _, rfl, rfl, alike_create_account alike a⟩
  | setNonce a nonce => exact .inr ⟨_, _, rfl, rfl, alike_set_nonce alike a nonce⟩
  | setCode a code => exact .inr ⟨_, _, rfl, rfl, alike_set_code alike a code⟩
  | setState a key value => exact .inr ⟨_, _, rfl, rfl, alike_set_state alike a key value⟩
  | addBalance a amount => exact .inr ⟨_, _, rfl, rfl, alike_add_balance pay alike a amount blockNumber⟩
  | subBalance a amount => exact .inr ⟨_, _, rfl, rfl, alike_sub_balance pay alike a amount blockNumber⟩
  | subSmiloPay a amount => exact .inr ⟨_, _, rfl, rfl, alike_sub_smilo_pay pay alike a amount blockNumber⟩
  | suicide a => exact .inr ⟨_, _, rfl, rfl, alike_suicide alike a⟩
  | addLog a topics data => exact .inr ⟨_, _, rfl, rfl, alike_add_log alike a topics data _⟩
  | addRefund gas => exact .inr ⟨_, _, rfl, rfl, alike_add_refund alike gas⟩
  | subRefund gas => exact alike_sub_refund alike gas

theorem op_revisions (pay : Accrual) (blockNumber : Nat) (s t : StateDB) (op : Op)
    (applied : op.apply pay blockNumber s = some t) : t.revisions = s.revisions := by
  cases op with
  | subRefund gas =>
    simp only [Op.apply, subRefund] at applied
    split at applied
    · contradiction
    · exact Option.some.inj applied ▸ rfl
  | addRefund gas => exact Option.some.inj applied ▸ rfl
  | addLog a topics data => exact Option.some.inj applied ▸ rfl
  | _ =>
    obtain rfl := Option.some.inj applied
    simp

variable (pay : Accrual) (blockNumber : Nat) (rules : Rules)

theorem twin_apply (pair : Twin stamp evm twin) (side : Side) (op : Op) :
    (handle pay blockNumber rules (.apply side op) evm).1 = (handle pay blockNumber rules (.apply side op) twin).1 ∧
    Twin stamp (handle pay blockNumber rules (.apply side op) evm).2 (handle pay blockNumber rules (.apply side op) twin).2 := by
  simp only [handle, get_alone pair.alone, get_alone pair.aloneTwin, set_alone evm pair.alone, set_alone twin pair.aloneTwin]
  rcases op_alike pair.alike with ⟨here, there⟩ | ⟨s, t, here, there, alike⟩
  · rw [here, there]
    exact ⟨rfl, pair⟩
  · rw [here, there]
    have first := op_revisions pay blockNumber _ s op here
    have second := op_revisions pay blockNumber _ t op there
    exact ⟨rfl, { pair with alike := alike, paired := paired_of_states pair.paired first rfl second rfl }⟩

theorem twin_step (command : Command) (evm twin : EVM) (pair : Twin stamp evm twin) :
    (handle pay blockNumber rules command evm).1 = (handle pay blockNumber rules command twin).1 ∧
    Twin stamp (handle pay blockNumber rules command evm).2 (handle pay blockNumber rules command twin).2 := by
  have kept : Paired evm twin := pair.paired
  cases command with
  | look => exact ⟨twin_view pair, pair⟩
  | fetch contract i covered =>
    refine ⟨?_, pair⟩
    show evm.refusal rules i = twin.refusal rules i
    unfold EVM.refusal
    rw [pair.smiloReadOnly, pair.readOnly]
  | push side => exact ⟨rfl, twin_push pair⟩
  | pop => exact ⟨rfl, twin_pop pair⟩
  | enter readOnly =>
    exact ⟨rfl, { pair with
      depth := congrArg (· + 1) pair.depth, readOnly := congrArg (· || readOnly) pair.readOnly
      paired := paired_of_states kept rfl rfl rfl rfl }⟩
  | leave readOnly =>
    exact ⟨rfl, { pair with
      depth := congrArg (· - 1) pair.depth, readOnly := rfl, paired := paired_of_states kept rfl rfl rfl rfl }⟩
  | snapshot =>
    simp only [handle, get_alone pair.alone, get_alone pair.aloneTwin, set_alone evm pair.alone, set_alone twin pair.aloneTwin]
    exact ⟨rfl, twin_snapshot pair⟩
  | discard => exact ⟨rfl, twin_discard pair⟩
  | revertToSnapshot side =>
    simp only [handle, get_alone pair.alone, get_alone pair.aloneTwin]
    rcases twin_revert pair with ⟨here, there⟩ | ⟨s, t, here, there, reverted⟩
    · rw [here, there]
      exact ⟨rfl, twin_discard pair⟩
    · rw [here, there]
      simp only [set_alone evm.discard pair.alone, set_alone twin.discard pair.aloneTwin]
      exact ⟨rfl, reverted⟩
  | apply side op => exact twin_apply pay blockNumber rules pair side op

theorem twin_run {α : Type} (p : Prog α) (pair : Twin stamp evm twin) :
    (p.run (handle pay blockNumber rules) evm).1 = (p.run (handle pay blockNumber rules) twin).1 ∧
    Twin stamp (p.run (handle pay blockNumber rules) evm).2 (p.run (handle pay blockNumber rules) twin).2 :=
  run_simulates _ _ (Twin stamp) (twin_step pay blockNumber rules) p evm twin pair

theorem twin_start (s t : StateDB) (alike : Alike stamp s t) (fresh : Fresh s) (freshTwin : Fresh t) :
    Twin stamp (EVM.newEVM s none) (EVM.newEVM t none) where
  alone := rfl
  aloneTwin := rfl
  states := rfl
  smiloReadOnly := rfl
  readOnlyDepth := rfl
  depth := rfl
  readOnly := rfl
  alike := alike
  paired := ⟨s.nextRevisionId, t.nextRevisionId, s.validRevisions, t.validRevisions, [], 0, [],
    ⟨rfl, rfl, rfl, fresh⟩, ⟨rfl, rfl, rfl, freshTwin⟩⟩

end Steps

end Didux.Vm
