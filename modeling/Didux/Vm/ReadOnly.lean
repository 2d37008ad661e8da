import Didux.State.Frozen
import Didux.Vm.Stack
import Didux.Vm.Twin

set_option autoImplicit false

namespace Didux.Vm

open Sport State Prog Program StateDB EVM

def Exposed (evm : EVM) : Prop := 0 < evm.depth ∧ .publicState ∈ evm.states

def Untouched (env : Environment) (command : Command) (evm : EVM) : Prop :=
  Exposed evm →
    (handle env.pay env.blockNumber env.rules command evm).2.publicState.objects = evm.publicState.objects ∧
    (handle env.pay env.blockNumber env.rules command evm).2.publicState.logs = evm.publicState.logs

-- Which of the instructions that isMutating does not list leave an exposed public state. A call moves its value in the
-- public state whatever state holds the two accounts, unless the callee is a vault account; a callee that no state holds
-- is created in evm.StateDB, as is a contract.
def Instr.Spares (env : Environment) (evm : EVM) (caller : Address) : Instr → Prop
  | .call addr _ _ value => let side := (evm.view.getPrivateOrPublicStateDB addr).2
    .publicState ∈ side :: evm.states → evm.view.canTransfer .publicState caller value = true →
      (value = 0 ∨ (evm.view.accounts .vaultState).exist addr = true) ∧
      (side = .publicState → (evm.view.accounts .publicState).exist addr = true ∨
        ((env.precompiles addr).isNone = true ∧ env.rules.isEIP158 = true ∧ value = 0))
  | .staticCall addr _ _ =>
    (evm.view.getPrivateOrPublicStateDB addr).2 = .publicState → .publicState ∈ evm.states →
      (evm.view.accounts .publicState).exist addr = true
  | .create2 value code salt =>
    let address := env.createAddress2 caller salt code
    evm.current = .publicState → evm.view.canTransfer .publicState caller value = true →
      (evm.view.accounts .publicState).getNonce address ≠ 0 ∨ (evm.view.accounts .publicState).getCode address ≠ []
  | _ => True

-- The steps of code that can write an exposed public state, without those that do. A static call made on the vault
-- state reverts a public callee to the revision that has the name of one of the vault state.
def Safe (env : Environment) : Command → EVM → Prop
  | .fetch contract i covered, evm =>
    evm.refusal env.rules i = none → covered = true → evm.depth ≤ callCreateDepth → i.Spares env evm contract.address
  | .revertToSnapshot .publicState, evm => Exposed evm → evm.current = .vaultState → ∀ revision ∈ evm.publicState.validRevisions,
      evm.snapshots.head? = some revision.1 → Light evm.publicState revision.2
  | _, _ => True

instance exposedDecidable (evm : EVM) : Decidable (Exposed evm) := inferInstanceAs (Decidable (_ ∧ _))

instance sparesDecidable (env : Environment) (evm : EVM) (caller : Address) (i : Instr) : Decidable (i.Spares env evm caller) := by
  cases i <;> unfold Instr.Spares <;> infer_instance

instance safeDecidable (env : Environment) (command : Command) (evm : EVM) : Decidable (Safe env command evm) := by
  cases command with
  | revertToSnapshot side => cases side <;> unfold Safe <;> infer_instance
  | _ => unfold Safe; infer_instance

structure Sound (evm : EVM) : Prop where
  apart : evm.vaultState.isSome = true
  guarded : Guarded evm
  fresh : Fresh evm.publicState

theorem sound_exposed {evm : EVM} (sound : Sound evm) (member : .publicState ∈ evm.states) : evm.smiloReadOnly = true :=
  (guarded_flag sound.guarded).mpr ⟨sound.apart, member⟩

theorem set_vault {evm : EVM} (apart : evm.vaultState.isSome = true) {s : StateDB} :
    evm.set .vaultState s = { evm with vaultState := some s } := by
  obtain ⟨v, vault⟩ := Option.isSome_iff_exists.mp apart
  simp only [EVM.set, vault]

theorem sound_same {evm next : EVM} (sound : Sound evm) (same : SameStack evm next) (fresh : Fresh next.publicState) : Sound next :=
  ⟨same.apart.trans sound.apart, guarded_same sound.guarded same, fresh⟩

theorem sound_set {evm : EVM} (sound : Sound evm) (side : Side) (s : StateDB) (fresh : side = .publicState → Fresh s) :
    Sound (evm.set side s) := by
  apply sound_same sound (same_stack_set evm side s)
  cases side with
  | publicState => exact fresh rfl
  | vaultState =>
    rw [set_vault sound.apart]
    exact sound.fresh

theorem sound_push {evm : EVM} (sound : Sound evm) {side : Side} : Sound (evm.push side) := by
  have guarded := guarded_push sound.guarded side
  obtain ⟨flag, low, same⟩ := push_eq evm side
  rw [same] at guarded ⊢
  exact ⟨sound.apart, guarded, sound.fresh⟩

theorem sound_pop {evm : EVM} (sound : Sound evm) : Sound evm.pop := by
  have guarded := guarded_pop sound.guarded
  obtain ⟨flag, same⟩ := pop_eq evm
  rw [same] at guarded ⊢
  exact ⟨sound.apart, guarded, sound.fresh⟩

structure Stays (before : EVM) (err : Option VMError) (after : EVM) : Prop where
  states : after.states = before.states
  depth : after.depth = before.depth
  snapshots : err ≠ some .panic → after.snapshots = before.snapshots
  frozen : Exposed before → Frozen before.publicState after.publicState
  sound : Sound after

theorem stays_refl {evm : EVM} (sound : Sound evm) (err : Option VMError) : Stays evm err evm :=
  ⟨rfl, rfl, fun _ => rfl, fun _ => frozen_refl _, sound⟩

theorem exposed_stays {before after : EVM} {err : Option VMError} (stays : Stays before err after) :
    Exposed after ↔ Exposed before := by
  unfold Exposed
  rw [stays.states, stays.depth]

variable {before middle after : EVM} {err : Option VMError}

theorem stays_trans (first : Stays before none middle) (second : Stays middle err after) : Stays before err after where
  states := second.states.trans first.states
  depth := second.depth.trans first.depth
  snapshots calm := (second.snapshots calm).trans (first.snapshots nofun)
  frozen exposed := frozen_trans (first.frozen exposed) (second.frozen ((exposed_stays first).mpr exposed))
  sound := second.sound

structure Opened (before after : EVM) : Prop where
  states : after.states = before.states
  depth : after.depth = before.depth
  snapshots : after.snapshots = (before.get before.current).nextRevisionId :: before.snapshots
  frozen : Exposed before → Frozen before.publicState after.publicState
  fresh : Fresh before.publicState
  sound : Sound after

theorem opened_exposed {before after : EVM} (opened : Opened before after) : Exposed after ↔ Exposed before := by
  unfold Exposed
  rw [opened.states, opened.depth]

theorem opened_frozen (opened : Opened before middle)
    (stays : Stays middle err after) (exposed : Exposed before) : Frozen before.publicState after.publicState :=
  frozen_trans (opened.frozen exposed) (stays.frozen ((opened_exposed opened).mpr exposed))

theorem opened_stays (opened : Opened before middle) (stays : Stays middle none after) : Opened before after where
  states := stays.states.trans opened.states
  depth := stays.depth.trans opened.depth
  snapshots := (stays.snapshots nofun).trans opened.snapshots
  frozen := opened_frozen opened stays
  fresh := opened.fresh
  sound := stays.sound

section Steps

variable (env : Environment)

def Protects {α : Type} (p : Prog α) (evm : EVM) (post : α → EVM → Prop) : Prop :=
  Assures (handle env.pay env.blockNumber env.rules) (Safe env) (Untouched env) p evm post

variable {env} {evm : EVM} {α β : Type} {post : α → EVM → Prop}

theorem protects_done (value : α) (holds : post value evm) : Protects env (pure value) evm post := assures_done value evm holds

theorem protects_ite {c : Prop} [Decidable c] {p q : Prog α} (yes : c → Protects env p evm post) (no : ¬ c → Protects env q evm post) :
    Protects env (if c then p else q) evm post := by
  split
  · exact yes ‹_›
  · exact no ‹_›

theorem protects_bind (p : Prog β) (k : β → Prog α) (middle : β → EVM → Prop) (first : Protects env p evm middle)
    (rest : ∀ value after, middle value after → Protects env (k value) after post) : Protects env (p >>= k) evm post :=
  assures_bind p k evm middle first rest

theorem protects_frozen {command : Command} {next : command.Answer → Prog α} (frozen : Safe env command evm → Exposed evm →
      Frozen evm.publicState (handle env.pay env.blockNumber env.rules command evm).2.publicState) (rest : Safe env command evm →
      Protects env (next (handle env.pay env.blockNumber env.rules command evm).1)
        (handle env.pay env.blockNumber env.rules command evm).2 post) : Protects env (.step command next) evm post :=
  assures_step command next evm (fun safe exposed => ⟨(frozen safe exposed).objects, (frozen safe exposed).logs⟩) rest

theorem protects_fetch {contract : Contract} {i : Instr} {covered : Bool} (k : Option Refusal → Prog α)
    (rest : Safe env (.fetch contract i covered) evm → Protects env (k (evm.refusal env.rules i)) evm post) :
    Protects env (fetch contract i covered >>= k) evm post :=
  protects_frozen (fun _ _ => frozen_refl _) rest

theorem protects_look (k : View → Prog α) (rest : Protects env (k evm.view) evm post) : Protects env (look >>= k) evm post :=
  protects_frozen (fun _ _ => frozen_refl _) fun _ => rest

variable {side : Side} {k : Unit → Prog α} {readOnly : Bool} {op : Op}

theorem protects_push (rest : Protects env (k ()) (evm.push side) post) : Protects env (push side >>= k) evm post := by
  apply protects_frozen ?_ fun _ => rest
  intro _ _
  obtain ⟨flag, low, same⟩ := push_eq evm side
  simp only [handle, same]
  exact frozen_refl _

theorem protects_pop (rest : Protects env (k ()) evm.pop post) : Protects env (pop >>= k) evm post := by
  apply protects_frozen ?_ fun _ => rest
  intro _ _
  obtain ⟨flag, same⟩ := pop_eq evm
  simp only [handle, same]
  exact frozen_refl _

theorem protects_enter
    (rest : Protects env (k ()) { evm with depth := evm.depth + 1, readOnly := evm.readOnly || readOnly } post) :
    Protects env (enter readOnly >>= k) evm post :=
  protects_frozen (fun _ _ => frozen_refl _) fun _ => rest

theorem protects_leave (rest : Protects env (k ()) { evm with depth := evm.depth - 1, readOnly := readOnly } post) :
    Protects env (leave readOnly >>= k) evm post :=
  protects_frozen (fun _ _ => frozen_refl _) fun _ => rest

variable (sound : Sound evm)
  (frozen : Exposed evm → side = .publicState → ∀ s, op.apply env.pay env.blockNumber evm.publicState = some s → Frozen evm.publicState s)

include sound frozen

theorem stays_apply : Stays evm none (handle env.pay env.blockNumber env.rules (.apply side op) evm).2 := by
  cases applied : op.apply env.pay env.blockNumber (evm.get side) with
  | none =>
    simp only [handle, applied]
    exact stays_refl sound none
  | some s =>
    simp only [handle, applied]
    cases side with
    | publicState =>
      have revisions := op_revisions env.pay env.blockNumber _ s op applied
      have fresh : Fresh s := by
        unfold Fresh
        rw [show s.validRevisions = evm.publicState.validRevisions from congrArg Prod.fst revisions,
          show s.nextRevisionId = evm.publicState.nextRevisionId from congrArg Prod.snd revisions]
        exact sound.fresh
      exact ⟨rfl, rfl, fun _ => rfl, fun exposed => frozen exposed rfl s applied, sound_set sound .publicState s fun _ => fresh⟩
    | vaultState =>
      have kept := sound_set sound .vaultState s (by simp)
      rw [set_vault sound.apart] at kept ⊢
      exact ⟨rfl, rfl, fun _ => rfl, fun _ => frozen_refl _, kept⟩

theorem protects_apply : Protects env (apply side op) evm fun _ after => Stays evm none after := by
  have stays : Stays evm none (handle env.pay env.blockNumber env.rules (.apply side op) evm).2 := stays_apply sound frozen
  exact protects_frozen (fun _ => stays.frozen) fun _ => protects_done _ stays

omit frozen

theorem protects_whenever {c : Bool} {p : Prog β} (first : c = true → Protects env p evm fun _ after => Stays evm none after)
    (rest : ∀ after, Stays evm none after → Protects env (k ()) after post) : Protects env (whenever c p >>= k) evm post := by
  cases c with
  | false => exact rest evm (stays_refl sound none)
  | true =>
    have runs : Protects env (p >>= fun _ => pure ()) evm fun (_ : Unit) after => Stays evm none after :=
      protects_bind p _ _ (first rfl) fun _ after stays => protects_done () stays
    exact protects_bind _ k _ runs fun _ after stays => rest after stays

theorem protects_snapshot (rest : ∀ after, Opened evm after → Protects env (k ()) after post) :
    Protects env (snapshot >>= k) evm post := by
  have opened : Opened evm (handle env.pay env.blockNumber env.rules .snapshot evm).2 := by
    simp only [handle]
    cases current : evm.current with
    | publicState =>
      have fresh : Fresh evm.publicState.snapshot.2 := by
        intro revision member
        rcases List.mem_cons.mp member with rfl | older
        · exact Nat.lt_succ_self _
        · exact Nat.lt_succ_of_lt (sound.fresh revision older)
      refine ⟨rfl, rfl, ?_, fun _ => frozen_snapshot _, sound.fresh, sound_same sound ⟨rfl, rfl, rfl, rfl, rfl, rfl⟩ fresh⟩
      rw [current]
      rfl
    | vaultState =>
      rw [set_vault sound.apart]
      refine ⟨rfl, rfl, ?_, fun _ => frozen_refl _, sound.fresh, sound_same sound ⟨sound.apart.symm, rfl, rfl, rfl, rfl, rfl⟩ sound.fresh⟩
      rw [current]
      rfl
  exact protects_frozen (fun _ => opened.frozen) fun _ => rest _ opened

omit sound

theorem protects_discard {before : EVM} (opened : Opened before evm)
    (rest : ∀ after, Stays before none after → Protects env (k ()) after post) : Protects env (discard >>= k) evm post := by
  have stays : Stays before none evm.discard :=
    ⟨opened.states, opened.depth, fun _ => congrArg List.tail opened.snapshots, opened.frozen,
      sound_same opened.sound ⟨rfl, rfl, rfl, rfl, rfl, rfl⟩ opened.sound.fresh⟩
  exact protects_frozen (fun _ _ => frozen_refl _) fun _ => rest _ stays

-- A revert of an exposed public state undoes touches. Where evm.StateDB is the public state the revision is one that the
-- call itself took; elsewhere the step says so.
theorem frozen_reverted {before : EVM} (opened : Opened before evm) (safe : Safe env (.revertToSnapshot .publicState) evm)
    (exposed : Exposed evm) {s : StateDB} (reverted : evm.snapshots.head?.bind evm.publicState.revertToSnapshot = some s) :
    Frozen evm.publicState s := by
  have exposedBefore : Exposed before := (opened_exposed opened).mp exposed
  have current : evm.current = before.current := by rw [current, opened.states, current]
  rw [opened.snapshots] at reverted
  apply frozen_revert _ reverted
  intro journalIndex member
  cases side : before.current with
  | publicState =>
    rw [side] at member
    exact frozen_light opened.fresh (opened.frozen exposedBefore) _ journalIndex (Nat.le_refl _) member
  | vaultState =>
    exact safe exposed (current.trans side) _ member (congrArg List.head? opened.snapshots)

theorem protects_revert {before : EVM} (opened : Opened before evm) {k : Bool → Prog α}
    (rest : ∀ ok after, Stays before none after → Protects env (k ok) after post) :
    Protects env (revertToSnapshot side >>= k) evm post := by
  have snapshots : evm.discard.snapshots = before.snapshots := congrArg List.tail opened.snapshots
  have sound : Sound evm.discard := sound_same opened.sound ⟨rfl, rfl, rfl, rfl, rfl, rfl⟩ opened.sound.fresh
  have exposed : Exposed before → Exposed evm := (opened_exposed opened).mpr
  cases reverted : evm.snapshots.head?.bind (evm.get side).revertToSnapshot with
  | none =>
    apply protects_frozen
    · intro _ _
      simp only [handle, reverted]
      exact frozen_refl _
    · intro _
      simp only [handle, reverted]
      exact rest false _ ⟨opened.states, opened.depth, fun _ => snapshots, opened.frozen, sound⟩
  | some s =>
    obtain ⟨id, -, taken⟩ := Option.bind_eq_some_iff.mp reverted
    cases side with
    | publicState =>
      apply protects_frozen
      · intro safe exposed
        simp only [handle, reverted]
        exact frozen_reverted opened safe exposed reverted
      · intro safe
        simp only [handle, reverted]
        apply rest true
        exact ⟨opened.states, opened.depth, fun _ => snapshots,
          fun was => frozen_trans (opened.frozen was) (frozen_reverted opened safe (exposed was) reverted),
          sound_set sound .publicState s fun _ => fresh_revert id taken opened.sound.fresh⟩
    | vaultState =>
      have kept := sound_set sound .vaultState s (by simp)
      rw [set_vault sound.apart] at kept
      apply protects_frozen
      · intro _ _
        simp only [handle, reverted, set_vault sound.apart]
        exact frozen_refl _
      · intro _
        simp only [handle, reverted, set_vault sound.apart]
        exact rest true _ ⟨opened.states, opened.depth, fun _ => snapshots, opened.frozen, kept⟩

end Steps

section Interpreter

variable {env : Environment}

variable {side : Side} {refunds : List Refund} {contract : Contract} {i : Instr} {gas left value : Nat} {out : Outcome}
  {addr caller address : Address} {input code : Bytes}

theorem protects_hidden {evm : EVM} (sound : Sound evm) {op : Op} (hidden : Exposed evm → side = .vaultState) :
    Protects env (apply side op) evm fun _ after => Stays evm none after := by
  apply protects_apply sound
  intro exposed there
  exact nomatch (hidden exposed).symm.trans there

theorem protects_after {before evm : EVM} {p : Prog Bool} (stays : Stays before none evm)
    (next : Protects env p evm fun _ after => Stays evm none after) : Protects env p evm fun _ after => Stays before none after :=
  assures_mono p evm (fun _ _ last => stays_trans stays last) next

theorem refund_all_stays {evm : EVM} (sound : Sound evm)
    (hidden : Exposed evm → refunds = []) : Protects env (refundAll side refunds) evm fun _ after => Stays evm none after := by
  induction refunds generalizing evm with
  | nil => exact protects_done true (stays_refl sound none)
  | cons refund rest ih =>
    have covered : ¬ Exposed evm := fun exposed => nomatch hidden exposed
    have later : ∀ after, Stays evm none after → Protects env (refundAll side rest) after fun _ last => Stays evm none last := by
      intro after stays
      have still : ¬ Exposed after := fun exposed => covered ((exposed_stays stays).mp exposed)
      exact protects_after stays (ih stays.sound fun exposed => absurd exposed still)
    cases refund with
    | add gas => exact protects_bind _ _ _ (protects_hidden sound fun exposed => absurd exposed covered) fun _ => later
    | sub gas =>
      apply protects_bind _ _ _ (protects_hidden sound fun exposed => absurd exposed covered)
      intro ok after stays
      cases ok with
      | false => exact protects_done false stays
      | true => exact later after stays

theorem write_stays {evm : EVM} (sound : Sound evm) (covered : ¬ Exposed evm) :
    Protects env (write contract i) evm fun _ after => Stays evm none after := by
  have hidden : ∀ side op {after : EVM}, Stays evm none after →
      Protects env (apply side op) after fun _ last => Stays evm none last := by
    intro side op after stays
    have still : ¬ Exposed after := fun exposed => covered ((exposed_stays stays).mp exposed)
    exact protects_after stays (protects_hidden stays.sound fun exposed => absurd exposed still)
  have start : Stays evm none evm := stays_refl sound none
  cases i with
  | sstore key value refunds =>
    apply protects_look
    exact protects_bind _ _ _ (hidden _ _ start) fun _ after stays => protects_done () stays
  | log topics data =>
    apply protects_look
    exact protects_bind _ _ _ (hidden _ _ start) fun _ after stays => protects_done () stays
  | selfdestruct beneficiary refunds =>
    apply protects_look
    apply protects_bind _ _ _ (hidden _ _ start)
    intro _ after stays
    exact protects_bind _ _ _ (hidden _ _ stays) fun _ last still => protects_done () still
  | _ => exact protects_done () start

def Admitted (env : Environment) (evm : EVM) (caller : Address) (i : Instr) : Prop :=
  (Exposed evm → i.isMutating = false) ∧ (evm.depth ≤ callCreateDepth → i.Spares env evm caller)

def Guards (env : Environment) (invoke : Contract → Instr → Nat → Prog Outcome) : Prop :=
  ∀ contract i gas evm, Sound evm → Admitted env evm contract.address i →
    Protects env (invoke contract i gas) evm fun out after => Stays evm out.err after

variable (exact : env.rules.estimateGas = false) {invoke : Contract → Instr → Nat → Prog Outcome} (guards : Guards env invoke)

include exact in
theorem admitted_mutating {evm : EVM} (sound : Sound evm) (admitted : evm.refusal env.rules i = none)
    (exposed : Exposed evm) : i.isMutating = false := by
  unfold refusal at admitted
  rw [exact, sound_exposed sound exposed.2] at admitted
  cases mutating : i.isMutating with
  | false => rfl
  | true => simp [mutating] at admitted

def Performed.stays (before : EVM) (after : EVM) : Performed → Prop
  | .halted out => Stays before out.err after
  | .next _ _ => Stays before none after

theorem stays_calm {before after : EVM} {err : Option VMError} (stays : Stays before err after) (calm : err ≠ some .panic) :
    Stays before none after := { stays with snapshots := fun _ => stays.snapshots calm }

theorem metered_stays {short : Prop} [Decidable short] {tail : Prog Performed}
    {evm : EVM} (sound : Sound evm) (hidden : Exposed evm → refunds = [])
    (rest : ¬ short → ∀ after, Stays evm none after → (refunds = [] → after = evm) →
      Protects env tail after fun performed last => performed.stays evm last) : Protects env (refundAll side refunds >>= fun ok =>
      if !ok then pure (Performed.halted (failure gas .panic))
      else if short then pure (Performed.halted (failure left .outOfGas)) else tail) evm
      fun performed after => performed.stays evm after := by
  have metered : ∀ after, Stays evm none after → (refunds = [] → after = evm) →
      Protects env (if short then pure (Performed.halted (failure left .outOfGas)) else tail) after
        fun performed last => performed.stays evm last := by
    intro after stays same
    split
    · exact protects_done _ { stays with snapshots := fun _ => stays.snapshots nofun }
    · next covered => exact rest covered after stays same
  cases refunds with
  | nil => exact metered evm (stays_refl sound none) fun _ => rfl
  | cons refund others =>
    apply protects_bind _ _ _ (refund_all_stays sound hidden)
    intro ok after stays
    cases ok with
    | false => exact protects_done _ { stays with snapshots := fun calm => absurd rfl calm }
    | true => exact metered after stays nofun

include guards in
theorem invoke_stays {evm : EVM} (sound : Sound evm) (admitted : Admitted env evm contract.address i) :
    Protects env (invoke contract i gas >>= fun out =>
      if out.err = some .panic then pure (Performed.halted out) else pure (Performed.next out (left + out.gas))) evm
      fun performed after => performed.stays evm after := by
  apply protects_bind _ _ _ (guards contract i gas evm sound admitted)
  intro out after stays
  split
  · exact protects_done _ stays
  · next calm => exact protects_done _ (stays_calm stays calm)

include exact guards in
theorem perform_stays (contract : Contract) (i : Instr) (constantGas dynamicGas gas : Nat) {evm : EVM} (sound : Sound evm) :
    Protects env (perform env.rules invoke contract i constantGas dynamicGas gas) evm
      fun performed after => performed.stays evm after := by
  have start : ∀ err, Stays evm err evm := stays_refl sound
  rw [perform]
  apply protects_fetch
  intro safe
  cases passed : evm.refusal env.rules i with
  | some e => exact protects_done _ (start _)
  | none =>
    have spared := admitted_mutating exact sound passed
    -- An instruction that writes a state is one of isMutating.
    have written : i.isMutating = true → ∀ after, Stays evm none after → ∀ performed : Performed,
        (∀ last, Stays evm none last → performed.stays evm last) →
        Protects env (write contract i >>= fun _ => pure performed) after fun performed last => performed.stays evm last := by
      intro mutating after stays performed ends
      have covered : ¬ Exposed after := by
        intro exposed
        rw [spared ((exposed_stays stays).mp exposed)] at mutating
        contradiction
      exact protects_bind _ _ _ (write_stays stays.sound covered) fun _ last next =>
        protects_done _ (ends last (stays_trans stays next))
    dsimp only
    split
    · exact protects_done _ (start _)
    · next constant =>
        apply protects_look
        cases i with
        | sstore key value refunds =>
          apply metered_stays sound fun exposed => by cases spared exposed
          exact fun _ after stays _ => written rfl after stays _ fun _ last => last
        | log topics data =>
          apply metered_stays sound fun exposed => by cases spared exposed
          exact fun _ after stays _ => written rfl after stays _ fun _ last => last
        | selfdestruct beneficiary refunds =>
          apply metered_stays sound fun exposed => by cases spared exposed
          exact fun _ after stays _ => written rfl after stays _ fun _ last => last
        | _ =>
          apply metered_stays sound fun _ => rfl
          intro covered after _ same
          rw [same rfl]
          apply invoke_stays guards sound
          exact ⟨spared, safe passed (by simp only [decide_eq_true_eq]; omega)⟩

include exact guards in
theorem exec_stays (contract : Contract) (code : Code) (gas : Nat) {evm : EVM} (sound : Sound evm) :
    Protects env (exec env.rules invoke contract code gas) evm fun out after => Stays evm out.err after := by
  induction code generalizing gas evm with
  | stop ret => exact protects_done _ (stays_refl sound _)
  | revert ret => exact protects_done _ (stays_refl sound _)
  | fail => exact protects_done _ (stays_refl sound _)
  | use cost next ih =>
    unfold exec
    split
    · exact protects_done _ (stays_refl sound _)
    · exact ih _ sound
  | look next ih =>
    unfold exec
    apply protects_look
    exact ih _ _ _ sound
  | instr i constantGas dynamicGas next ih =>
    unfold exec
    apply protects_bind _ _ _ (perform_stays exact guards contract i constantGas dynamicGas gas sound)
    intro performed after stays
    cases performed with
    | halted out => exact protects_done _ stays
    | next result left =>
      exact assures_mono _ _ (fun _ _ last => stays_trans stays last) (ih result left stays.sound)

include exact guards in
theorem run_stays {readOnly : Bool} {evm : EVM} (sound : Sound evm) :
    Protects env (run env invoke contract readOnly) evm fun out after => Stays evm out.err after := by
  unfold run
  split
  · split
    · exact protects_done _ (stays_refl sound _)
    · split <;> exact protects_done _ (stays_refl sound _)
  · apply protects_look
    apply protects_enter
    have entered : Sound { evm with depth := evm.depth + 1, readOnly := evm.readOnly || readOnly } :=
      ⟨sound.apart, ⟨sound.guarded.up, sound.guarded.down⟩, sound.fresh⟩
    apply protects_bind _ _ _ (exec_stays exact guards contract _ contract.gas entered)
    intro out after stays
    apply protects_leave
    have depth : after.depth - 1 = evm.depth := by rw [stays.depth, Nat.add_sub_cancel]
    have frozen : Exposed evm → Frozen evm.publicState after.publicState := by
      intro exposed
      exact stays.frozen ⟨Nat.succ_pos _, exposed.2⟩
    exact protects_done out ⟨stays.states, depth, stays.snapshots, frozen,
      ⟨stays.sound.apart, ⟨stays.sound.guarded.up, stays.sound.guarded.down⟩, stays.sound.fresh⟩⟩

theorem settle_stays {before middle evm : EVM} (opened : Opened before middle)
    (stays : Stays middle out.err evm) : Protects env (settle side out) evm fun out after => Stays before out.err after := by
  unfold settle
  split
  · next none =>
      rw [none] at stays
      exact protects_discard (opened_stays opened stays) fun after last => protects_done out (none ▸ last)
  · next panic =>
      apply protects_done out
      rw [panic]
      exact ⟨stays.states.trans opened.states, stays.depth.trans opened.depth, fun calm => absurd rfl calm,
        opened_frozen opened stays, stays.sound⟩
  · next e calm failed =>
      rw [failed] at stays
      have calmer : some e ≠ some .panic := fun same => calm (Option.some.inj same)
      apply protects_revert (opened_stays opened (stays_calm stays calmer))
      intro ok after last
      cases ok with
      | false => exact protects_done _ { last with snapshots := fun _ => last.snapshots nofun }
      | true => exact protects_done _ { last with snapshots := fun _ => last.snapshots nofun }

include exact guards in
theorem run_code_stays {before evm : EVM} (opened : Opened before evm) :
    Protects env (runCode env invoke contract) evm fun out after => Stays before out.err after := by
  apply protects_look
  apply protects_bind _ _ _ (run_stays exact guards opened.sound)
  exact fun out after stays => settle_stays opened stays

theorem within_stays {body : Bool → Prog Outcome} {evm : EVM} (sound : Sound evm)
    (inner : ∀ pushed, pushed = evm.push (evm.view.getPrivateOrPublicStateDB addr).2 → Sound pushed →
      Protects env (body (evm.view.getPrivateOrPublicStateDB addr).1) pushed fun out after => Stays pushed out.err after) :
    Protects env (within addr body) evm fun out after => Stays evm out.err after := by
  apply protects_look
  apply protects_push
  apply protects_bind _ _ _ (inner _ rfl (sound_push sound))
  intro out after stays
  apply protects_pop
  have popped := sound_pop stays.sound
  obtain ⟨flag, low, pushed⟩ := push_eq evm (evm.view.getPrivateOrPublicStateDB addr).2
  obtain ⟨lowered, same⟩ := pop_eq after
  rw [pushed] at stays
  rw [same] at popped ⊢
  have frozen : Exposed evm → Frozen evm.publicState after.publicState := by
    intro exposed
    exact stays.frozen ⟨exposed.1, List.mem_cons_of_mem _ exposed.2⟩
  exact protects_done out ⟨congrArg List.tail stays.states, stays.depth, stays.snapshots, frozen, popped⟩

include exact guards in
theorem call_code_stays {evm : EVM} (sound : Sound evm) :
    Protects env (callCode env invoke caller addr input gas value) evm fun out after => Stays evm out.err after := by
  apply within_stays sound
  intro pushed _ sound
  apply protects_look
  split
  · exact protects_done _ (stays_refl sound _)
  · split
    · exact protects_done _ (stays_refl sound _)
    · exact protects_snapshot sound fun _ opened => run_code_stays exact guards opened

include exact guards in
theorem delegate_call_stays {parent : Contract} {evm : EVM} (sound : Sound evm) :
    Protects env (delegateCall env invoke parent addr input gas) evm fun out after => Stays evm out.err after := by
  apply within_stays sound
  intro pushed _ sound
  apply protects_look
  split
  · exact protects_done _ (stays_refl sound _)
  · exact protects_snapshot sound fun _ opened => run_code_stays exact guards opened

include exact guards in
theorem static_call_stays {evm : EVM} (sound : Sound evm)
    (spares : evm.depth ≤ callCreateDepth → (Instr.staticCall addr input gas).Spares env evm caller) :
    Protects env (staticCall env invoke caller addr input gas) evm fun out after => Stays evm out.err after := by
  apply protects_look
  split
  · exact protects_done _ (stays_refl sound _)
  · next shallow =>
      apply protects_snapshot sound
      intro middle opened
      -- A public callee is there, so that adding nothing to its balance touches it at most.
      have touched : Protects env (apply (evm.view.getPrivateOrPublicStateDB addr).2 (.addBalance addr 0)) middle
          fun _ after => Stays middle none after := by
        apply protects_apply opened.sound
        intro exposed side s applied
        have was : Exposed evm := (opened_exposed opened).mp exposed
        have there := spares (Nat.not_lt.mp shallow) side was.2
        rw [← Option.some.inj applied]
        exact frozen_touch env.pay _ addr env.blockNumber ((opened.frozen was).objects ▸ there)
      apply protects_bind _ _ _ touched
      intro _ after stays
      have opened := opened_stays opened stays
      apply protects_bind _ _ _ (run_stays exact guards opened.sound)
      exact fun out last stays => settle_stays opened stays

def CallSpares (env : Environment) (evm : EVM) (isVault : Bool) (addr : Address) (value : Nat) : Prop :=
  Exposed evm → (value = 0 ∨ isVault = true) ∧
    (evm.current = .publicState → (evm.view.accounts .publicState).exist addr = true ∨
      ((env.precompiles addr).isNone = true ∧ env.rules.isEIP158 = true ∧ value = 0))

theorem transfer_stays {sender recipient : Address} {amount : Nat} {evm : EVM} (sound : Sound evm)
    (hidden : Exposed evm → side = .vaultState) :
    Protects env (transfer side sender recipient amount) evm fun _ after => Stays evm none after := by
  apply protects_bind _ _ _ (protects_hidden sound hidden)
  intro _ after stays
  have still : Exposed after → side = .vaultState := fun exposed => hidden ((exposed_stays stays).mp exposed)
  apply protects_bind _ _ _ (protects_hidden stays.sound still)
  exact fun _ last next => protects_done () (stays_trans stays next)

variable (smilo : env.rules.isSmilo = true)

include smilo exact guards in
theorem call_checked_stays {isVault : Bool} {evm : EVM} (sound : Sound evm) (spares : CallSpares env evm isVault addr value) :
    Protects env (callChecked env invoke evm.view isVault caller addr input gas value) evm fun out after => Stays evm out.err after := by
  unfold callChecked
  rw [smilo]
  apply protects_snapshot sound
  intro middle opened
  split
  · exact protects_discard opened fun after stays => protects_done _ stays
  · next goesOn =>
      have created : (!(evm.view.accounts evm.current).exist addr) = true →
          Protects env (apply evm.current (.createAccount addr)) middle fun _ after => Stays middle none after := by
        intro absent
        apply protects_hidden opened.sound
        intro exposed
        cases current : evm.current with
        | vaultState => rfl
        | publicState =>
          rw [current] at absent
          rcases (spares ((opened_exposed opened).mp exposed)).2 current with there | ⟨none, forked, nothing⟩
          · rw [there] at absent
            contradiction
          · refine absurd ?_ goesOn
            have here : evm.view.current = .publicState := current
            rw [here, absent, none, forked, nothing]
            rfl
      apply protects_whenever opened.sound created
      intro after stays
      have opened := opened_stays opened stays
      split
      · exact protects_discard opened fun after stays => protects_done _ { stays with snapshots := fun _ => stays.snapshots nofun }
      · next allowed =>
          have moved : (!true || decide (value ≠ 0)) = true →
              Protects env (transfer .publicState caller addr value) after fun _ last => Stays after none last := by
            intro worth
            apply transfer_stays opened.sound
            intro exposed
            have was : Exposed evm := (opened_exposed opened).mp exposed
            have up : evm.view.smiloReadOnly = true := sound_exposed sound was.2
            rcases (spares was).1 with nothing | vault
            · simp [nothing] at worth
            · simp_all
          apply protects_whenever opened.sound moved
          intro last stays
          exact run_code_stays exact guards (opened_stays opened stays)

include smilo exact guards in
theorem call_stays (caller addr : Address) (input : Bytes) (gas value : Nat) {evm : EVM} (sound : Sound evm)
    (spares : 0 < evm.depth → evm.depth ≤ callCreateDepth → (Instr.call addr input gas value).Spares env evm caller) :
    Protects env (call env invoke caller addr input gas value) evm fun out after => Stays evm out.err after := by
  apply within_stays sound
  intro pushed same sound
  obtain ⟨flag, low, push⟩ := push_eq evm (evm.view.getPrivateOrPublicStateDB addr).2
  rw [push] at same
  have accounts : pushed.view.accounts = evm.view.accounts := by
    funext side
    rw [same]
    cases side <;> rfl
  apply protects_look
  split
  · exact protects_done _ (stays_refl sound _)
  · next shallow =>
      split
      · exact protects_done _ (stays_refl sound _)
      · next rich =>
          apply call_checked_stays exact guards smilo sound
          intro exposed
          have shallow : evm.depth ≤ callCreateDepth := by
            have depth : pushed.view.depth = evm.depth := by rw [same]; rfl
            rw [depth] at shallow
            exact Nat.not_lt.mp shallow
          have rich : evm.view.canTransfer .publicState caller value = true := by simpa [View.canTransfer, accounts] using rich
          rw [Exposed, same] at exposed
          obtain ⟨value, account⟩ := spares exposed.1 shallow exposed.2 rich
          rw [accounts, same]
          refine ⟨value.imp_right fun there => ?_, account⟩
          simp only [View.getPrivateOrPublicStateDB, there, if_true]

theorem store_code_stays {before middle evm : EVM} (opened : Opened before middle)
    (stays : Stays middle out.err evm) (away : Exposed before → before.current = .vaultState) :
    Protects env (storeCode env address out) evm fun out after => Stays before out.err after := by
  have current : evm.current = before.current := by rw [current, stays.states, opened.states, current]
  have hidden : Exposed evm → evm.view.current = .vaultState := by
    intro exposed
    exact current.trans (away ((opened_exposed opened).mp ((exposed_stays stays).mp exposed)))
  apply protects_look
  apply protects_whenever stays.sound fun _ => protects_hidden stays.sound hidden
  intro after stored
  apply protects_ite
  · intro panic
    apply protects_done out
    rw [panic] at stays ⊢
    exact ⟨stored.states.trans (stays.states.trans opened.states), stored.depth.trans (stays.depth.trans opened.depth),
      fun calm => absurd rfl calm, fun exposed => frozen_trans (opened_frozen opened stays exposed)
        (stored.frozen ((exposed_stays stays).mpr ((opened_exposed opened).mpr exposed))), stored.sound⟩
  · intro calm
    have opened := opened_stays opened (stays_trans (stays_calm stays calm) stored)
    apply protects_ite
    · intro _
      apply protects_revert opened
      intro ok last ends
      cases ok <;> exact protects_done _ { ends with snapshots := fun _ => ends.snapshots (by simp) }
    · exact fun _ => protects_discard opened fun last ends =>
        protects_done _ { ends with snapshots := fun _ => ends.snapshots (by simp) }

include smilo exact guards in
theorem create_checked_stays {evm : EVM} (sound : Sound evm) (spares : Exposed evm → evm.current = .publicState →
      (evm.view.accounts .publicState).getNonce address ≠ 0 ∨ (evm.view.accounts .publicState).getCode address ≠ []) :
    Protects env (createChecked env invoke evm.view caller code gas value address) evm fun out after => Stays evm out.err after := by
  unfold createChecked
  dsimp only
  split
  · exact protects_done _ (stays_refl sound _)
  · next free =>
      have away : Exposed evm → evm.current = .vaultState := by
        intro exposed
        cases current : evm.current with
        | vaultState => rfl
        | publicState =>
          have here : evm.view.current = .publicState := current
          rw [here] at free
          have taken := spares exposed current
          simp_all
      have hidden : ∀ {after : EVM}, Opened evm after → Exposed after → evm.view.current = .vaultState :=
        fun opened exposed => away ((opened_exposed opened).mp exposed)
      apply protects_snapshot sound
      intro middle opened
      apply protects_bind _ _ _ (protects_hidden opened.sound (hidden opened))
      intro _ after stays
      have opened := opened_stays opened stays
      apply protects_whenever opened.sound fun _ => protects_hidden opened.sound (hidden opened)
      intro after stays
      have opened := opened_stays opened stays
      split
      · exact protects_discard opened fun last ends => protects_done _ { ends with snapshots := fun _ => ends.snapshots nofun }
      · apply protects_whenever opened.sound fun _ => transfer_stays opened.sound (hidden opened)
        intro after stays
        have opened := opened_stays opened stays
        apply protects_bind _ _ _ (run_stays exact guards opened.sound)
        exact fun out last ends => store_code_stays opened ends away

include smilo exact guards in
theorem create_at_stays {evm : EVM} (sound : Sound evm)
    (spares : Exposed evm → evm.depth ≤ callCreateDepth → evm.current = .publicState →
      evm.view.canTransfer .publicState caller value = true →
      (evm.view.accounts .publicState).getNonce address ≠ 0 ∨ (evm.view.accounts .publicState).getCode address ≠ []) :
    Protects env (createAt env invoke caller code gas value address) evm fun out after => Stays evm out.err after := by
  apply protects_look
  split
  · exact protects_done _ (stays_refl sound _)
  · next shallow =>
      split
      · exact protects_done _ (stays_refl sound _)
      · next rich =>
          -- Code that creates bumps the nonce of its account in the vault state.
          apply protects_bind _ _ _ (protects_hidden sound fun exposed => if_pos exposed.1)
          intro _ after stays
          apply protects_look
          have current : after.current = evm.current := by rw [current, stays.states, current]
          apply assures_mono _ _ fun _ _ last => stays_trans stays last
          apply create_checked_stays exact guards smilo stays.sound
          intro exposed there
          have was : Exposed evm := (exposed_stays stays).mp exposed
          have accounts : after.view.accounts .publicState = evm.view.accounts .publicState := (stays.frozen was).objects
          have here : evm.view.current = .publicState := current.symm.trans there
          rw [accounts]
          rw [here] at rich
          exact spares was (Nat.not_lt.mp shallow) here (by simpa using rich)

include smilo exact in
theorem invoke_guards (fuel : Nat) : Guards env (Vm.invoke env fuel) := by
  induction fuel with
  | zero => exact fun contract i gas evm sound _ => protects_done _ (stays_refl sound _)
  | succ fuel ih =>
    intro contract i gas evm sound admitted
    cases i with
    | call addr input given value =>
      exact call_stays exact ih smilo contract.address addr input gas value sound fun _ => admitted.2
    | callCode addr input given value => exact call_code_stays exact ih sound
    | delegateCall addr input given => exact delegate_call_stays exact ih sound
    | staticCall addr input given => exact static_call_stays exact ih sound admitted.2
    | create value code =>
      apply protects_look
      apply create_at_stays exact ih smilo sound
      exact fun exposed => nomatch admitted.1 exposed
    | create2 value code salt =>
      apply create_at_stays exact ih smilo sound
      exact fun _ shallow => admitted.2 shallow
    | _ => exact protects_done _ (stays_refl sound _)

theorem sound_start (publicState vaultState : StateDB) (fresh : Fresh publicState) :
    Sound (newEVM publicState (some vaultState)) where
  apart := rfl
  guarded := (room_start publicState (some vaultState)).disciplined.guarded
  fresh := fresh

end Interpreter

-- Vault code leaves the public state while it is on the stack of states, in every run whose steps are safe.
theorem exposed_public_state_untouched (env : Environment) (smilo : env.rules.isSmilo = true) (exact : env.rules.estimateGas = false)
    (publicState vaultState : StateDB) (fresh : Fresh publicState) (caller : Address) (data : Bytes) (gas value : Nat) :
    (∀ addr, (env.call caller addr data gas value).Along (handle env.pay env.blockNumber env.rules) (Safe env)
        (newEVM publicState (some vaultState)) →
      (env.call caller addr data gas value).Along (handle env.pay env.blockNumber env.rules) (Untouched env)
        (newEVM publicState (some vaultState))) ∧
    ((env.create caller data gas value).Along (handle env.pay env.blockNumber env.rules) (Safe env)
        (newEVM publicState (some vaultState)) →
      (env.create caller data gas value).Along (handle env.pay env.blockNumber env.rules) (Untouched env)
        (newEVM publicState (some vaultState))) := by
  have sound := sound_start publicState vaultState fresh
  have guards := invoke_guards exact smilo (callCreateDepth + 1)
  constructor
  · intro addr safe
    have protects := call_stays exact guards smilo caller addr data gas value sound fun deep => nomatch deep
    exact (protects safe).1
  · intro safe
    have protects : Protects env (env.create caller data gas value) (newEVM publicState (some vaultState))
        fun out after => Stays (newEVM publicState (some vaultState)) out.err after := by
      apply protects_look
      exact create_at_stays exact guards smilo sound fun exposed => nomatch exposed.1
    exact (protects safe).1

def paying (value : Nat) (callee : Code) (contract : Contract) : Code :=
  if contract.address = 2 then .instr (.call 3 [] 100 value) 0 0 fun _ => .stop [] else callee

def storing : Code := .instr (.sstore 1 1 []) 0 0 fun _ => .stop []

theorem exposed_public_state_untouched_refused :
    ((vaultEnvironment (paying 0 storing)).call 1 2 [] 100000 0).Along (handle idleAccrual 10 (vaultEnvironment (paying 0 storing)).rules)
      (Untouched (vaultEnvironment (paying 0 storing)))
      (newEVM (new publicAccounts) (some (new vaultAccounts))) :=
  (exposed_public_state_untouched (vaultEnvironment (paying 0 storing)) rfl rfl (new publicAccounts) (new vaultAccounts)
    nofun 1 [] 100000 0).1 2 (by decide +kernel)

theorem vault_call_moves_public_value :
    ¬ ((vaultEnvironment (paying 1 (.stop []))).call 1 2 [] 100000 0).Along
      (handle idleAccrual 10 (vaultEnvironment (paying 1 (.stop []))).rules)
      (Untouched (vaultEnvironment (paying 1 (.stop []))))
      (newEVM (new publicAccounts) (some (new vaultAccounts))) := by
  let balance (evm : EVM) : Int := evm.publicState.objects.getBalance 3
  intro along
  have weaker := along_mono _ (Q := fun command evm => Exposed evm →
    balance (handle idleAccrual 10 (vaultEnvironment (paying 1 (.stop []))).rules command evm).2 = balance evm)
    (fun _ _ untouched exposed => congrArg (Accounts.getBalance · 3) (untouched exposed).1) _ _ along
  revert weaker
  decide +kernel

end Didux.Vm
