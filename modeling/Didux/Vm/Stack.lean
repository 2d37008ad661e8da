import Didux.Vm.Invariant

set_option autoImplicit false

namespace Didux.Vm

open Sport State Prog Program Nat EVM

def stateSlots : Nat := 1027

-- The flag is up while a state other than the vault state is on the stack, and readOnlyDepth is then how much of the
-- stack lies under the lowest one.
structure Guarded (evm : EVM) : Prop where
  up : evm.smiloReadOnly = true → evm.vaultState.isSome = true ∧
    ∃ upper lower, evm.states = upper ++ .publicState :: lower ∧ .publicState ∉ lower ∧ lower.length = evm.readOnlyDepth
  down : evm.smiloReadOnly = false → evm.vaultState.isSome = true → .publicState ∉ evm.states

theorem guarded_flag {evm : EVM} (guarded : Guarded evm) :
    evm.smiloReadOnly = true ↔ evm.vaultState.isSome = true ∧ .publicState ∈ evm.states := by
  constructor
  · intro flag
    obtain ⟨apart, upper, lower, states, -, -⟩ := guarded.up flag
    exact ⟨apart, states ▸ List.mem_append_right upper List.mem_cons_self⟩
  · rintro ⟨apart, member⟩
    cases flag : evm.smiloReadOnly with
    | true => rfl
    | false => exact absurd member (guarded.down flag apart)

structure SameStack (evm next : EVM) : Prop where
  apart : next.vaultState.isSome = evm.vaultState.isSome
  states : next.states = evm.states
  smiloReadOnly : next.smiloReadOnly = evm.smiloReadOnly
  readOnlyDepth : next.readOnlyDepth = evm.readOnlyDepth
  depth : next.depth = evm.depth
  readOnly : next.readOnly = evm.readOnly

theorem same_stack_set (evm : EVM) (side : Side) (s : StateDB) : SameStack evm (evm.set side s) := by
  unfold EVM.set
  split
  · next vault => exact ⟨by rw [vault]; rfl, rfl, rfl, rfl, rfl, rfl⟩
  · exact ⟨rfl, rfl, rfl, rfl, rfl, rfl⟩

theorem guarded_same {evm next : EVM} (guarded : Guarded evm) (same : SameStack evm next) : Guarded next where
  up := by
    rw [same.apart, same.states, same.smiloReadOnly, same.readOnlyDepth]
    exact guarded.up
  down := by
    rw [same.apart, same.states, same.smiloReadOnly]
    exact guarded.down

def Command.moves : Command → Bool
  | .push _ | .pop | .enter _ | .leave _ => true
  | _ => false

variable (pay : Accrual) (blockNumber : Nat) (rules : Rules) (command : Command)

theorem same_stack_handle (evm : EVM)
    (still : command.moves = false) : SameStack evm (handle pay blockNumber rules command evm).2 := by
  have same : SameStack evm evm := ⟨rfl, rfl, rfl, rfl, rfl, rfl⟩
  cases command with
  | look => exact same
  | fetch contract i covered => exact same
  | snapshot => exact { same_stack_set evm evm.current _ with }
  | discard => exact { same with }
  | revertToSnapshot side =>
    simp only [handle]
    split
    · exact { same with }
    · exact { same_stack_set evm.discard side _ with }
  | apply side op =>
    simp only [handle]
    split
    · exact same
    · exact same_stack_set evm side _
  | _ => contradiction

theorem push_eq (evm : EVM) (side : Side) : ∃ flag low,
    evm.push side = { evm with states := side :: evm.states, smiloReadOnly := flag, readOnlyDepth := low } := by
  unfold EVM.push
  split
  · exact ⟨_, _, rfl⟩
  · exact ⟨_, _, rfl⟩

theorem pop_eq (evm : EVM) : ∃ flag, evm.pop = { evm with states := evm.states.tail, smiloReadOnly := flag } := by
  unfold EVM.pop
  dsimp only
  split
  · exact ⟨_, rfl⟩
  · exact ⟨_, rfl⟩

theorem guarded_push {evm : EVM} (guarded : Guarded evm) (side : Side) : Guarded (evm.push side) := by
  by_cases raises : side = .publicState ∧ evm.vaultState.isSome ∧ !evm.smiloReadOnly
  · obtain ⟨rfl, apart, lowered⟩ := raises
    have flag : evm.smiloReadOnly = false := by simpa using lowered
    have raised : evm.push .publicState =
        { evm with states := .publicState :: evm.states, smiloReadOnly := true, readOnlyDepth := evm.states.length } := by
      simp [EVM.push, flag, apart]
    rw [raised]
    exact ⟨fun _ => ⟨apart, [], evm.states, rfl, guarded.down flag apart, rfl⟩, nofun⟩
  · have plain : evm.push side = { evm with states := side :: evm.states } := by
      unfold EVM.push
      rw [if_neg raises]
    rw [plain]
    constructor
    · intro flag
      obtain ⟨apart, upper, lower, states, absent, length⟩ := guarded.up flag
      exact ⟨apart, side :: upper, lower, by rw [states, List.cons_append], absent, length⟩
    · intro flag apart member
      rcases List.mem_cons.mp member with pushed | below
      · exact raises ⟨pushed.symm, apart, by simpa using flag⟩
      · exact guarded.down flag apart below

theorem guarded_pop {evm : EVM} (guarded : Guarded evm) : Guarded evm.pop := by
  cases flag : evm.smiloReadOnly with
  | false =>
    have plain : evm.pop = { evm with states := evm.states.tail } := by simp [EVM.pop, flag]
    rw [plain]
    exact ⟨fun up => (nomatch flag.symm.trans up), fun _ apart member => guarded.down flag apart (List.mem_of_mem_tail member)⟩
  | true =>
    obtain ⟨apart, upper, lower, states, absent, length⟩ := guarded.up flag
    cases upper with
    | nil =>
      have lowered : evm.pop = { evm with states := lower, smiloReadOnly := false } := by
        simp [EVM.pop, states, length]
      rw [lowered]
      exact ⟨nofun, fun _ _ => absent⟩
    | cons side rest =>
      have above : ¬ (rest ++ .publicState :: lower).length = evm.readOnlyDepth := by
        rw [List.length_append, List.length_cons]
        omega
      have plain : evm.pop = { evm with states := rest ++ .publicState :: lower } := by
        simp only [EVM.pop, states, List.cons_append, List.tail_cons, above, false_and, if_false]
      rw [plain]
      exact ⟨fun _ => ⟨apart, rest, lower, rfl, absent, length⟩, fun down => nomatch flag.symm.trans down⟩

theorem guarded_handle (evm : EVM) (guarded : Guarded evm) : Guarded (handle pay blockNumber rules command evm).2 := by
  cases command with
  | push side => exact guarded_push guarded side
  | pop => exact guarded_pop guarded
  | enter readOnly => exact ⟨guarded.up, guarded.down⟩
  | leave readOnly => exact ⟨guarded.up, guarded.down⟩
  | _ => exact guarded_same guarded (same_stack_handle pay blockNumber rules _ evm rfl)

structure Disciplined (evm : EVM) : Prop where
  low : 1 ≤ evm.states.length
  high : evm.states.length ≤ stateSlots
  flag : evm.smiloReadOnly = true ↔ evm.vaultState.isSome = true ∧ .publicState ∈ evm.states
  guarded : Guarded evm

structure Returns (before after : EVM) : Prop where
  apart : after.vaultState.isSome = before.vaultState.isSome
  states : after.states = before.states
  depth : after.depth = before.depth
  readOnly : after.readOnly = before.readOnly
  disciplined : Disciplined after

theorem disciplined_of_guarded {evm : EVM} (guarded : Guarded evm) (low : 1 ≤ evm.states.length) (high : evm.states.length ≤ stateSlots) :
    Disciplined evm := ⟨low, high, guarded_flag guarded, guarded⟩

theorem returns_refl {evm : EVM} (disciplined : Disciplined evm) : Returns evm evm := ⟨rfl, rfl, rfl, rfl, disciplined⟩

theorem returns_trans {before middle after : EVM} (first : Returns before middle) (second : Returns middle after) :
    Returns before after :=
  ⟨second.apart.trans first.apart, second.states.trans first.states, second.depth.trans first.depth,
    second.readOnly.trans first.readOnly, second.disciplined⟩

theorem returns_same {evm next : EVM} (disciplined : Disciplined evm) (same : SameStack evm next) : Returns evm next where
  apart := same.apart
  states := same.states
  depth := same.depth
  readOnly := same.readOnly
  disciplined := disciplined_of_guarded (guarded_same disciplined.guarded same) (same.states ▸ disciplined.low)
    (same.states ▸ disciplined.high)

theorem returns_flag {before after : EVM} (disciplined : Disciplined before) (returns : Returns before after) :
    after.smiloReadOnly = before.smiloReadOnly := by
  rw [Bool.eq_iff_iff, returns.disciplined.flag, disciplined.flag, returns.apart, returns.states]

structure Room (evm : EVM) : Prop where
  disciplined : Disciplined evm
  depth : evm.depth ≤ callCreateDepth + 1
  length : evm.states.length ≤ evm.depth + 1

theorem room_returns {before after : EVM} (room : Room before) (returns : Returns before after) : Room after :=
  ⟨returns.disciplined, returns.depth ▸ room.depth, by rw [returns.states, returns.depth]; exact room.length⟩

def Command.fetches : Command → Bool
  | .fetch _ _ _ => true
  | _ => false

def Orderly (env : Environment) (command : Command) (evm : EVM) : Prop :=
  Disciplined (handle env.pay env.blockNumber env.rules command evm).2 ∧ (command.fetches = true → Room evm)

def Side.other : Side → Side
  | .publicState => .vaultState
  | .vaultState => .publicState

-- What code that runs on one state does without the other. A call moves its value in the public state whatever state
-- holds the two accounts, and code that creates a contract bumps the nonce of its account in the vault state.
def Instr.Keeps (side : Side) (evm : EVM) (contract : Contract) : Instr → Prop
  | .log _ _ => True
  | .sstore _ _ _ | .selfdestruct _ _ => (evm.view.getPrivateOrPublicStateDB contract.address).2 = side
  | .call addr _ _ value => (evm.view.getPrivateOrPublicStateDB addr).2 = side ∧ (side = .vaultState → value = 0)
  | .callCode addr _ _ _ | .delegateCall addr _ _ | .staticCall addr _ _ => (evm.view.getPrivateOrPublicStateDB addr).2 = side
  | .create _ _ | .create2 _ _ _ => side = .vaultState

def Keeps (env : Environment) (kept : Option Side) : Command → EVM → Prop
  | .fetch contract i covered, evm => evm.refusal env.rules i = none → covered = true → ∀ side ∈ kept, i.Keeps side evm contract
  | _, _ => True

instance instrKeepsDecidable (side : Side) (evm : EVM) (contract : Contract) (i : Instr) : Decidable (i.Keeps side evm contract) :=
  match i with
  | .log _ _ => .isTrue trivial
  | .call _ _ _ _ => inferInstanceAs (Decidable (_ ∧ (_ → _)))
  | .sstore _ _ _ | .selfdestruct _ _ | .callCode _ _ _ _ | .delegateCall _ _ _ | .staticCall _ _ _ | .create _ _ | .create2 _ _ _ =>
    inferInstanceAs (Decidable (_ = _))

instance keepsDecidable (env : Environment) (kept : Option Side) (command : Command) (evm : EVM) :
    Decidable (Keeps env kept command evm) :=
  match command with
  | .fetch _ _ _ => inferInstanceAs (Decidable (_ → _ → ∀ side ∈ kept, _))
  | .look | .push _ | .pop | .enter _ | .leave _ | .snapshot | .discard | .revertToSnapshot _ | .apply _ _ => .isTrue trivial

def Command.Names (side : Side) (evm : EVM) : Command → Prop
  | .snapshot => evm.current = side
  | .revertToSnapshot named | .apply named _ => named = side
  | _ => True

theorem other_set {evm : EVM} (apart : evm.vaultState.isSome = true) (side : Side) (s : StateDB) :
    (evm.set side s).get side.other = evm.get side.other := by
  obtain ⟨v, vault⟩ := Option.isSome_iff_exists.mp apart
  cases side <;> simp [EVM.set, EVM.get, Side.other, vault]

theorem other_handle {evm : EVM} (apart : evm.vaultState.isSome = true) (side : Side) (names : command.Names side evm) :
    (handle pay blockNumber rules command evm).2.get side.other = evm.get side.other := by
  cases command with
  | push pushed =>
    obtain ⟨flag, low, same⟩ := push_eq evm pushed
    simp only [handle, same]
    rfl
  | pop =>
    obtain ⟨flag, same⟩ := pop_eq evm
    simp only [handle, same]
    rfl
  | snapshot =>
    simp only [handle, show evm.current = side from names]
    exact other_set apart side _
  | revertToSnapshot named =>
    obtain rfl : named = side := names
    simp only [handle]
    split
    · rfl
    · exact @other_set evm.discard apart named _
  | apply named op =>
    obtain rfl : named = side := names
    simp only [handle]
    split
    · rfl
    · exact other_set apart named _
  | _ => rfl

-- The state that code keeps to, where it is to keep to one, is evm.StateDB.
structure On (kept : Option Side) (evm : EVM) : Prop where
  apart : ∀ side ∈ kept, evm.vaultState.isSome = true
  current : ∀ side ∈ kept, evm.current = side

structure Confined (kept : Option Side) (before after : EVM) : Prop extends Returns before after where
  other : ∀ side ∈ kept, after.get side.other = before.get side.other

section Steps

variable (env : Environment) (kept : Option Side)

def Proper (command : Command) (evm : EVM) : Prop := Orderly env command evm ∧ command.Admitted env evm

def Stacks {α : Type} (p : Prog α) (evm : EVM) (post : α → EVM → Prop) : Prop :=
  Assures (handle env.pay env.blockNumber env.rules) (Keeps env kept) (Proper env) p evm post

variable {env kept} {evm before middle after : EVM} {α β : Type} {post : α → EVM → Prop}

theorem confined_refl (disciplined : Disciplined evm) : Confined kept evm evm := { returns_refl disciplined with other := fun _ _ => rfl }

theorem confined_trans (first : Confined kept before middle) (second : Confined kept middle after) : Confined kept before after :=
  { returns_trans first.toReturns second.toReturns with
    other := fun side member => (second.other side member).trans (first.other side member) }

theorem on_confined (on : On kept before) (confined : Confined kept before after) : On kept after where
  apart side member := confined.apart.trans (on.apart side member)
  current side member := by rw [EVM.current, confined.states, ← EVM.current, on.current side member]

theorem stacks_done {value : α} (holds : post value evm) : Stacks env kept (pure value) evm post := assures_done value evm holds

theorem stacks_bind {p : Prog β} {k : β → Prog α} {middle : β → EVM → Prop} (first : Stacks env kept p evm middle)
    (rest : ∀ value after, middle value after → Stacks env kept (k value) after post) : Stacks env kept (p >>= k) evm post :=
  assures_bind p k evm middle first rest

theorem stacks_step (command : Command) (next : command.Answer → Prog α)
    (disciplined : Disciplined (handle env.pay env.blockNumber env.rules command evm).2) (room : command.fetches = true → Room evm)
    (admitted : command.Admitted env evm)
    (rest : Keeps env kept command evm → Stacks env kept (next (handle env.pay env.blockNumber env.rules command evm).1)
      (handle env.pay env.blockNumber env.rules command evm).2 post) : Stacks env kept (.step command next) evm post :=
  assures_step command next evm (fun _ => ⟨⟨disciplined, room⟩, admitted⟩) rest

theorem stacks_look (k : View → Prog α) (disciplined : Disciplined evm) (rest : Stacks env kept (k evm.view) evm post) :
    Stacks env kept (look >>= k) evm post := stacks_step .look k disciplined nofun trivial fun _ => rest

theorem stacks_ite (c : Prop) [Decidable c] (p q : Prog α) (yes : c → Stacks env kept p evm post)
    (no : ¬ c → Stacks env kept q evm post) : Stacks env kept (if c then p else q) evm post := by
  split
  · exact yes ‹_›
  · exact no ‹_›

theorem stacks_after {p : Prog α} (confined : Confined kept before evm)
    (rest : Stacks env kept p evm fun _ => Confined kept evm) : Stacks env kept p evm fun _ => Confined kept before :=
  assures_mono p evm (fun _ _ last => confined_trans confined last) rest

theorem stacks_then (p : Prog β) (k : β → Prog α) (first : Stacks env kept p evm fun _ => Confined kept evm)
    (rest : ∀ value after, Confined kept evm after → Stacks env kept (k value) after fun _ => Confined kept after) :
    Stacks env kept (p >>= k) evm fun _ => Confined kept evm :=
  stacks_bind first fun value after confined => stacks_after confined (rest value after confined)

theorem stacks_stop (value : α) (disciplined : Disciplined evm) : Stacks env kept (pure value) evm fun _ => Confined kept evm :=
  stacks_done (confined_refl disciplined)

-- A step of a call that is under way: the state it names is the one that the code keeps to.
structure Ready (kept : Option Side) (evm : EVM) : Prop extends On kept evm where
  disciplined : Disciplined evm

theorem ready_confined (ready : Ready kept before) (confined : Confined kept before after) : Ready kept after :=
  { on_confined ready.toOn confined with disciplined := confined.disciplined }

variable (ready : Ready kept evm)

include ready

theorem stacks_command (command : Command) {next : command.Answer → Prog α} (still : command.moves = false)
    (fetches : command.fetches = false) (names : ∀ side ∈ kept, command.Names side evm) (admitted : command.Admitted env evm)
    (rest : ∀ answer after, after = (handle env.pay env.blockNumber env.rules command evm).2 → Ready kept after →
      Confined kept evm after → Stacks env kept (next answer) after fun _ => Confined kept after) :
    Stacks env kept (.step command next) evm fun _ => Confined kept evm := by
  have returns := returns_same ready.disciplined (same_stack_handle env.pay env.blockNumber env.rules command evm still)
  have confined : Confined kept evm (handle env.pay env.blockNumber env.rules command evm).2 :=
    { returns with other := fun side member => other_handle _ _ _ _ (ready.apart side member) side (names side member) }
  refine stacks_step command next returns.disciplined (fun fetched => nomatch fetches.symm.trans fetched) admitted fun _ => ?_
  exact stacks_after confined (rest _ _ rfl (ready_confined ready confined) confined)

theorem stacks_apply {side : Side} (op : Op) (named : ∀ other ∈ kept, side = other)
    (admitted : (Command.apply side op).Admitted env evm) :
    Stacks env kept (apply side op) evm fun _ => Confined kept evm :=
  stacks_command ready (.apply side op) rfl rfl named admitted fun answer _ _ ready _ => stacks_stop answer ready.disciplined

theorem stacks_whenever {c : Bool} {p : Prog β} {k : Unit → Prog α} (first : c = true → Stacks env kept p evm fun _ => Confined kept evm)
    (rest : ∀ after, Ready kept after → Confined kept evm after → Stacks env kept (k ()) after fun _ => Confined kept after) :
    Stacks env kept (whenever c p >>= k) evm fun _ => Confined kept evm := by
  cases c with
  | false => exact rest evm ready (confined_refl ready.disciplined)
  | true =>
    apply stacks_then _ _ (stacks_then _ _ (first rfl) fun _ _ confined => stacks_stop () confined.disciplined)
    exact fun _ after confined => rest after (ready_confined ready confined) confined

-- A step that leaves the balances, so that an account which can pay before it can pay after it.
theorem stacks_steady (command : Command) {next : command.Answer → Prog α} {side : Side} {a : Address} {amount : Nat}
    (steady : Steady env command) (still : command.moves = false) (fetches : command.fetches = false)
    (names : ∀ side ∈ kept, command.Names side evm) (funded : Funded side a amount evm)
    (rest : ∀ answer after, Ready kept after → Confined kept evm after → Funded side a amount after →
      Stacks env kept (next answer) after fun _ => Confined kept after) :
    Stacks env kept (.step command next) evm fun _ => Confined kept evm := by
  apply stacks_command ready command still fetches names (steady.admitted evm)
  rintro answer after rfl ready confined
  exact rest answer _ ready confined (le_of_le_of_eq funded (steady.balance evm side a).symm)

theorem stacks_steady_whenever {c : Bool} {named side : Side} {op : Op} {k : Unit → Prog α} {a : Address} {amount : Nat}
    (steady : Steady env (.apply named op)) (names : ∀ other ∈ kept, named = other) (funded : Funded side a amount evm)
    (rest : ∀ after, Ready kept after → Confined kept evm after → Funded side a amount after →
      Stacks env kept (k ()) after fun _ => Confined kept after) :
    Stacks env kept (whenever c (apply named op) >>= k) evm fun _ => Confined kept evm := by
  cases c with
  | false => exact rest evm ready (confined_refl ready.disciplined) funded
  | true => exact stacks_steady ready (.apply named op) steady rfl rfl names funded fun _ => rest

theorem close_confined (out : Outcome) : Stacks env kept (discard >>= fun _ => pure out) evm fun _ => Confined kept evm :=
  stacks_command ready .discard rfl rfl (fun _ _ => trivial) trivial fun _ _ _ ready _ => stacks_stop out ready.disciplined

theorem revert_confined {side : Side} (named : ∀ other ∈ kept, side = other) (yes no : Outcome) :
    Stacks env kept (revertToSnapshot side >>= fun ok => if ok then pure yes else pure no) evm fun _ => Confined kept evm := by
  apply stacks_command ready (.revertToSnapshot side) rfl rfl named trivial
  intro (ok : Bool) _ _ ready _
  cases ok <;> exact stacks_stop _ ready.disciplined

theorem transfer_confined {side : Side} {sender recipient : Address} {amount : Nat} (named : ∀ other ∈ kept, side = other)
    (funded : Funded side sender amount evm) :
    Stacks env kept (transfer side sender recipient amount) evm fun _ => Confined kept evm := by
  apply stacks_then _ _ (stacks_apply ready (.subBalance sender amount) named funded)
  intro _ _ confined
  apply stacks_then _ _ (stacks_apply (ready_confined ready confined) (.addBalance recipient amount) named
    (.inl (Int.natCast_nonneg amount)))
  exact fun _ _ confined => stacks_stop () confined.disciplined

-- The refunds leave the accounts, so that they resolve as they did when the instruction was fetched.
theorem refund_all_confined {side : Side} {refunds : List Refund} (named : ∀ other ∈ kept, side = other) :
    Stacks env kept (refundAll side refunds) evm fun _ after => Confined kept evm after ∧ after.view.accounts = evm.view.accounts := by
  induction refunds generalizing evm with
  | nil => exact stacks_done ⟨confined_refl ready.disciplined, rfl⟩
  | cons refund rest ih =>
    have once : ∀ op, (Command.apply side op).Admitted env evm →
        (∀ s t, op.apply env.pay env.blockNumber s = some t → t.objects = s.objects) →
        Stacks env kept (apply side op) evm fun _ after => Confined kept evm after ∧ after.view.accounts = evm.view.accounts := by
      intro op admitted same along
      obtain ⟨proper, confined⟩ := stacks_apply ready op named admitted along
      refine ⟨proper, confined, ?_⟩
      show (handle env.pay env.blockNumber env.rules (.apply side op) evm).2.view.accounts = _
      simp only [handle]
      split
      · rfl
      · next t applied =>
          funext other
          rcases EVM.get_set evm side other t with ⟨here, shared⟩ | kept
          · simp only [EVM.view, here, shared, same _ _ applied]
          · simp only [EVM.view, kept]
    have later : ∀ after, Confined kept evm after ∧ after.view.accounts = evm.view.accounts →
        Stacks env kept (refundAll side rest) after fun _ last => Confined kept evm last ∧ last.view.accounts = evm.view.accounts := by
      rintro after ⟨confined, accounts⟩
      exact assures_mono _ _ (fun _ _ last => ⟨confined_trans confined last.1, last.2.trans accounts⟩)
        (ih (ready_confined ready confined))
    cases refund with
    | add gas => exact stacks_bind (once (.addRefund gas) trivial fun s t applied => Option.some.inj applied ▸ rfl) fun _ => later
    | sub gas =>
      apply stacks_bind (once (.subRefund gas) trivial ?_)
      · intro (ok : Bool) after kept
        cases ok with
        | false => exact stacks_done kept
        | true => exact later after kept
      · intro s t applied
        simp only [Op.apply, StateDB.subRefund] at applied
        split at applied
        · contradiction
        · exact Option.some.inj applied ▸ rfl

theorem write_confined {contract : Contract} {i : Instr} (keeps : ∀ side ∈ kept, i.Keeps side evm contract)
    (passed : evm.refusal env.rules i = none) : Stacks env kept (write contract i) evm fun _ => Confined kept evm := by
  have applied : ∀ side op {evm : EVM}, Ready kept evm → (∀ other ∈ kept, side = other) → (Command.apply side op).Admitted env evm →
      Stacks env kept (apply side op >>= fun _ => pure ()) evm fun _ => Confined kept evm := by
    intro side op evm ready named admitted
    exact stacks_then _ _ (stacks_apply ready op named admitted) fun _ _ confined => stacks_stop () confined.disciplined
  cases i with
  | sstore key value refunds => exact stacks_look _ ready.disciplined (applied _ _ ready keeps trivial)
  | log topics data => exact stacks_look _ ready.disciplined (applied _ _ ready ready.current ⟨rfl, passed⟩)
  | selfdestruct beneficiary refunds =>
    apply stacks_look _ ready.disciplined
    apply stacks_then _ _ (stacks_apply ready (.addBalance beneficiary _) keeps (.inr ⟨contract.address, rfl⟩))
    exact fun _ _ confined => applied _ _ (ready_confined ready confined) keeps trivial
  | _ => exact stacks_stop () ready.disciplined

end Steps

section Interpreter

variable {env : Environment} {kept : Option Side} {evm : EVM}

variable {side : Side} {contract : Contract} {i : Instr} {out : Outcome} {addr caller address : Address} {gas value : Nat}
  {input code : Bytes}

theorem keeps_same {after : EVM} (accounts : after.view.accounts = evm.view.accounts) (current : after.current = evm.current)
    (keeps : i.Keeps side evm contract) : i.Keeps side after contract := by
  have same : ∀ a, after.view.getPrivateOrPublicStateDB a = evm.view.getPrivateOrPublicStateDB a := by
    intro a
    simp only [View.getPrivateOrPublicStateDB, accounts]
    rw [show after.view.current = evm.view.current from current]
  cases i <;> simp_all only [Instr.Keeps, implies_true, and_true]

structure Running (kept : Option Side) (evm : EVM) : Prop extends On kept evm where
  room : Room evm
  inside : 0 < evm.depth

theorem running_confined {before after : EVM} (running : Running kept before) (confined : Confined kept before after) :
    Running kept after :=
  { on_confined running.toOn confined with
    room := room_returns running.room confined.toReturns
    inside := confined.depth ▸ running.inside }

theorem running_ready (running : Running kept evm) : Ready kept evm := { running.toOn with disciplined := running.room.disciplined }

variable {invoke : Contract → Instr → Nat → Prog Outcome}

def Nested (env : Environment) (kept : Option Side) (invoke : Contract → Instr → Nat → Prog Outcome) : Prop :=
  ∀ contract i gas evm, Running kept evm → (∀ side ∈ kept, i.Keeps side evm contract) →
    Stacks env kept (invoke contract i gas) evm fun _ => Confined kept evm

variable (nested : Nested env kept invoke)

include nested

theorem perform_confined (contract : Contract) (i : Instr) (constantGas dynamicGas gas : Nat) (running : Running kept evm) :
    Stacks env kept (perform env.rules invoke contract i constantGas dynamicGas gas) evm fun _ => Confined kept evm := by
  have stop : ∀ performed : Performed, Stacks env kept (pure performed) evm fun _ => Confined kept evm :=
    fun performed => stacks_stop performed running.room.disciplined
  refine stacks_step (.fetch contract i _) _ running.room.disciplined (fun _ => running.room) trivial fun keeps => ?_
  dsimp only [handle]
  cases passed : evm.refusal env.rules i with
  | some e => exact stop _
  | none =>
    apply stacks_ite _ _ _ fun _ => stop _
    intro constant
    apply stacks_look _ running.room.disciplined
    apply stacks_bind (refund_all_confined (running_ready running) running.current)
    rintro ok after ⟨confined, accounts⟩
    have still := running_confined running confined
    apply stacks_after confined
    apply stacks_ite _ _ _ fun _ => stacks_stop _ confined.disciplined
    intro _
    apply stacks_ite _ _ _ fun _ => stacks_stop _ confined.disciplined
    intro dynamic
    have covered : constantGas + (dynamicGas + i.charged) ≤ gas := by omega
    have fits : ∀ side ∈ kept, i.Keeps side after contract := fun side member =>
      keeps_same accounts ((still.current side member).trans (running.current side member).symm)
        (keeps passed (decide_eq_true covered) side member)
    have admitted : after.refusal env.rules i = none := by
      unfold refusal at passed ⊢
      rw [returns_flag running.room.disciplined confined.toReturns, confined.readOnly]
      exact passed
    have written : ∀ performed : Performed,
        Stacks env kept (write contract i >>= fun _ => pure performed) after fun _ => Confined kept after :=
      fun performed => stacks_then _ _ (write_confined (running_ready still) fits admitted) fun _ _ confined =>
        stacks_stop performed confined.disciplined
    have invoked : ∀ gas left, Stacks env kept (invoke contract i gas >>= fun out =>
        if out.err = some .panic then pure (Performed.halted out) else pure (Performed.next out (left + out.gas))) after
        fun _ => Confined kept after :=
      fun gas left => stacks_then _ _ (nested contract i gas after still fits) fun _ _ confined =>
        stacks_ite _ _ _ (fun _ => stacks_stop _ confined.disciplined) fun _ => stacks_stop _ confined.disciplined
    cases i with
    | sstore key value refunds => exact written _
    | log topics data => exact written _
    | selfdestruct beneficiary refunds => exact written _
    | _ => exact invoked _ _

theorem exec_confined (contract : Contract) (code : Code) (gas : Nat) (running : Running kept evm) :
    Stacks env kept (exec env.rules invoke contract code gas) evm fun _ => Confined kept evm := by
  have disciplined := running.room.disciplined
  induction code generalizing gas evm with
  | use cost next ih => exact stacks_ite _ _ _ (fun _ => stacks_stop _ disciplined) fun _ => ih _ running disciplined
  | look next ih => exact stacks_look _ disciplined (ih _ _ _ running disciplined)
  | instr i constantGas dynamicGas next ih =>
    unfold exec
    apply stacks_then _ _ (perform_confined nested contract i constantGas dynamicGas gas running)
    intro performed after confined
    cases performed with
    | halted out => exact stacks_stop _ confined.disciplined
    | next result left => exact ih result left (running_confined running confined) confined.disciplined
  | _ => exact stacks_stop _ disciplined

omit nested

structure Checked (kept : Option Side) (evm : EVM) : Prop extends Ready kept evm where
  depth : evm.depth ≤ callCreateDepth
  length : evm.states.length ≤ evm.depth + 2

theorem checked_confined {before after : EVM} (checked : Checked kept before) (confined : Confined kept before after) :
    Checked kept after :=
  { ready_confined checked.toReady confined with
    depth := confined.depth ▸ checked.depth
    length := by rw [confined.states, confined.depth]; exact checked.length }

include nested

theorem run_confined {readOnly : Bool} (checked : Checked kept evm) :
    Stacks env kept (run env invoke contract readOnly) evm fun _ => Confined kept evm := by
  unfold run
  split
  · apply stacks_ite _ _ _ fun _ => stacks_stop _ checked.disciplined
    intro _
    split <;> exact stacks_stop _ checked.disciplined
  · apply stacks_look _ checked.disciplined
    have entered : Running kept { evm with depth := evm.depth + 1, readOnly := evm.readOnly || readOnly } :=
      ⟨⟨checked.apart, checked.current⟩, ⟨disciplined_of_guarded ⟨checked.disciplined.guarded.up, checked.disciplined.guarded.down⟩
        checked.disciplined.low checked.disciplined.high, succ_le_succ checked.depth, checked.length⟩, succ_pos _⟩
    refine stacks_step (.enter readOnly) _ entered.room.disciplined nofun trivial fun _ => ?_
    apply stacks_bind (exec_confined nested contract _ contract.gas entered)
    intro out after confined
    have left : Disciplined { after with depth := after.depth - 1, readOnly := evm.readOnly } :=
      disciplined_of_guarded ⟨confined.disciplined.guarded.up, confined.disciplined.guarded.down⟩ confined.disciplined.low
        confined.disciplined.high
    have depth : after.depth - 1 = evm.depth := by rw [confined.depth, Nat.add_sub_cancel]
    exact stacks_step (.leave evm.readOnly) _ left nofun trivial fun _ =>
      stacks_done ⟨⟨confined.apart, confined.states, depth, rfl, left⟩, confined.other⟩

omit nested in
theorem settle_confined (ready : Ready kept evm) (named : ∀ other ∈ kept, side = other) :
    Stacks env kept (settle side out) evm fun _ => Confined kept evm := by
  unfold settle
  split
  · exact close_confined ready out
  · exact stacks_stop _ ready.disciplined
  · exact revert_confined ready named _ _

theorem run_code_confined (checked : Checked kept evm) :
    Stacks env kept (runCode env invoke contract) evm fun _ => Confined kept evm := by
  apply stacks_look _ checked.disciplined
  apply stacks_then _ _ (run_confined nested checked)
  exact fun out _ confined => settle_confined (ready_confined checked.toReady confined) checked.current

theorem snapshot_run_confined (checked : Checked kept evm) :
    Stacks env kept (snapshot >>= fun _ => runCode env invoke contract) evm fun _ => Confined kept evm :=
  stacks_command checked.toReady .snapshot rfl rfl checked.current trivial fun _ _ _ _ confined =>
    run_code_confined nested (checked_confined checked confined)

omit nested in
theorem within_confined {body : Bool → Prog Outcome} (room : Room evm) (apart : ∀ side ∈ kept, evm.vaultState.isSome = true)
    (held : ∀ side ∈ kept, (evm.view.getPrivateOrPublicStateDB addr).2 = side)
    (inner : ∀ isVault pushed, Ready kept pushed → pushed.states.length ≤ pushed.depth + 2 →
      Stacks env kept (body isVault) pushed fun _ => Confined kept pushed) :
    Stacks env kept (within addr body) evm fun _ => Confined kept evm := by
  have small : evm.states.length + 1 ≤ stateSlots := by
    have depth := room.depth
    have length := room.length
    unfold callCreateDepth at depth
    unfold stateSlots
    omega
  apply stacks_look _ room.disciplined
  have guarded := guarded_push room.disciplined.guarded (evm.view.getPrivateOrPublicStateDB addr).2
  obtain ⟨flag, low, push⟩ := push_eq evm (evm.view.getPrivateOrPublicStateDB addr).2
  rw [push] at guarded
  have pushed := disciplined_of_guarded guarded (succ_pos _) small
  refine stacks_step (.push _) _ (by simpa only [handle, push] using pushed) (fun fetches => absurd fetches Bool.false_ne_true)
    trivial fun _ => ?_
  simp only [handle, push]
  have ready : ∀ inside, Disciplined inside → inside.vaultState = evm.vaultState → inside.current = _ → Ready kept inside :=
    fun _ pushed same current => ⟨⟨same ▸ apart, current ▸ held⟩, pushed⟩
  apply stacks_bind (inner _ _ (ready _ pushed rfl rfl) (succ_le_succ room.length))
  intro out after confined
  have below := guarded_pop confined.disciplined.guarded
  obtain ⟨lowered, pop⟩ := pop_eq after
  rw [pop] at below
  have states : after.states.tail = evm.states := congrArg List.tail confined.states
  have popped := disciplined_of_guarded below (states ▸ room.disciplined.low) (states ▸ room.disciplined.high)
  refine stacks_step .pop _ (by simpa only [handle, pop] using popped) (fun fetches => absurd fetches Bool.false_ne_true)
    trivial fun _ => ?_
  simp only [handle, pop]
  exact stacks_done ⟨⟨confined.apart, states, confined.depth, confined.readOnly, popped⟩, confined.other⟩

theorem call_checked_confined {isVault : Bool} (checked : Checked kept evm)
    (free : ∀ side ∈ kept, side = .vaultState → env.rules.isSmilo = true ∧ value = 0) (funded : Funded .publicState caller value evm) :
    Stacks env kept (callChecked env invoke evm.view isVault caller addr input gas value) evm fun _ => Confined kept evm := by
  apply stacks_steady checked.toReady .snapshot (snapshot_steady env) rfl rfl checked.current funded
  intro _ after ready confined funded
  have current : ∀ side ∈ kept, evm.view.current = side := checked.current
  have checked := checked_confined checked confined
  apply stacks_ite _ _ _ fun _ => close_confined ready _
  intro _
  apply stacks_steady_whenever ready (create_account_steady env) current funded
  intro after ready confined funded
  have checked := checked_confined checked confined
  apply stacks_ite _ _ _ fun _ => close_confined ready _
  intro _
  apply stacks_whenever ready
  · intro moves
    apply transfer_confined ready ?_ funded
    intro side member
    cases side with
    | publicState => rfl
    | vaultState => simp [free _ member rfl] at moves
  · exact fun after _ confined => run_code_confined nested (checked_confined checked confined)

omit nested in
theorem store_code_confined (ready : Ready kept evm) : Stacks env kept (storeCode env address out) evm fun _ => Confined kept evm := by
  have current : ∀ side ∈ kept, evm.view.current = side := ready.current
  apply stacks_look _ ready.disciplined
  apply stacks_whenever ready fun _ => stacks_apply ready (.setCode address out.ret) current trivial
  intro after ready _
  apply stacks_ite _ _ _ fun _ => stacks_stop _ ready.disciplined
  intro _
  exact stacks_ite _ _ _ (fun _ => revert_confined ready current _ _) fun _ => close_confined ready _

theorem create_checked_confined (checked : Checked kept evm) (funded : Funded evm.current caller value evm) :
    Stacks env kept (createChecked env invoke evm.view caller code gas value address) evm fun _ => Confined kept evm := by
  have current : ∀ side ∈ kept, evm.view.current = side := checked.current
  apply stacks_ite _ _ _ fun _ => stacks_stop _ checked.disciplined
  intro _
  apply stacks_steady checked.toReady .snapshot (snapshot_steady env) rfl rfl checked.current funded
  intro _ after ready confined funded
  have checked := checked_confined checked confined
  apply stacks_steady ready (.apply _ (.createAccount address)) (create_account_steady env) rfl rfl current funded
  intro _ after ready confined funded
  have checked := checked_confined checked confined
  apply stacks_steady_whenever ready (set_nonce_steady env) current funded
  intro after ready confined funded
  have checked := checked_confined checked confined
  apply stacks_ite _ _ _ fun _ => close_confined ready _
  intro _
  apply stacks_whenever ready fun _ => transfer_confined ready current funded
  intro after ready confined
  apply stacks_then _ _ (run_confined nested (checked_confined checked confined))
  exact fun out _ confined => store_code_confined (ready_confined ready confined)

section Calls

variable (addr)

variable (room : Room evm) (apart : ∀ side ∈ kept, evm.vaultState.isSome = true)
  (held : ∀ side ∈ kept, (evm.view.getPrivateOrPublicStateDB addr).2 = side)

include room apart held

theorem call_confined (caller : Address) (input : Bytes) (gas value : Nat)
    (free : ∀ side ∈ kept, side = .vaultState → env.rules.isSmilo = true ∧ value = 0) :
    Stacks env kept (call env invoke caller addr input gas value) evm fun _ => Confined kept evm := by
  apply within_confined room apart held
  intro isVault pushed ready length
  apply stacks_look _ ready.disciplined
  apply stacks_ite _ _ _ fun _ => stacks_stop _ ready.disciplined
  intro shallow
  apply stacks_ite _ _ _ fun _ => stacks_stop _ ready.disciplined
  exact fun enough => call_checked_confined nested { ready with depth := not_lt.mp shallow, length := length } free (can_transfer enough)

theorem call_code_confined (caller : Address) (input : Bytes) (gas value : Nat) :
    Stacks env kept (callCode env invoke caller addr input gas value) evm fun _ => Confined kept evm := by
  apply within_confined room apart held
  intro isVault pushed ready length
  apply stacks_look _ ready.disciplined
  apply stacks_ite _ _ _ fun _ => stacks_stop _ ready.disciplined
  intro shallow
  apply stacks_ite _ _ _ fun _ => stacks_stop _ ready.disciplined
  exact fun _ => snapshot_run_confined nested { ready with depth := not_lt.mp shallow, length := length }

theorem delegate_call_confined (parent : Contract) (input : Bytes) (gas : Nat) :
    Stacks env kept (delegateCall env invoke parent addr input gas) evm fun _ => Confined kept evm := by
  apply within_confined room apart held
  intro isVault pushed ready length
  apply stacks_look _ ready.disciplined
  apply stacks_ite _ _ _ fun _ => stacks_stop _ ready.disciplined
  exact fun shallow => snapshot_run_confined nested { ready with depth := not_lt.mp shallow, length := length }

end Calls

theorem static_call_confined (running : Running kept evm) (held : ∀ side ∈ kept, (evm.view.getPrivateOrPublicStateDB addr).2 = side)
    (caller : Address) (input : Bytes) (gas : Nat) :
    Stacks env kept (staticCall env invoke caller addr input gas) evm fun _ => Confined kept evm := by
  have ready := running_ready running
  apply stacks_look _ ready.disciplined
  apply stacks_ite _ _ _ fun _ => stacks_stop _ ready.disciplined
  intro shallow
  have checked : Checked kept evm := { ready with depth := not_lt.mp shallow, length := le_succ_of_le running.room.length }
  apply stacks_command ready .snapshot rfl rfl ready.current trivial
  intro _ after _ ready confined
  have checked := checked_confined checked confined
  apply stacks_then _ _ (stacks_apply ready (.addBalance addr 0) held (.inl (Int.le_refl 0)))
  intro _ after confined
  have checked := checked_confined checked confined
  apply stacks_then _ _ (run_confined nested checked)
  exact fun out _ confined => settle_confined (ready_confined checked.toReady confined) held

theorem create_at_confined (room : Room evm) (on : On kept evm) (inside : ∀ side ∈ kept, side = .vaultState ∧ 0 < evm.depth)
    (caller : Address) :
    Stacks env kept (createAt env invoke caller code gas value address) evm fun _ => Confined kept evm := by
  have ready : Ready kept evm := { on with disciplined := room.disciplined }
  apply stacks_look _ room.disciplined
  apply stacks_ite _ _ _ fun _ => stacks_stop _ room.disciplined
  intro shallow
  apply stacks_ite _ _ _ fun _ => stacks_stop _ room.disciplined
  intro enough
  have checked : Checked kept evm := { ready with depth := not_lt.mp shallow, length := le_succ_of_le room.length }
  have named : ∀ side ∈ kept, (if 0 < evm.depth then Side.vaultState else .publicState) = side := by
    intro side member
    rw [if_pos (inside side member).2, (inside side member).1]
  apply stacks_steady ready (.apply _ (.setNonce caller _)) (set_nonce_steady env) rfl rfl named (can_transfer enough)
  intro _ after ready confined funded
  have same : after.current = evm.current := by rw [EVM.current, confined.states, EVM.current]
  exact stacks_look _ ready.disciplined (create_checked_confined nested (checked_confined checked confined) (same.symm ▸ funded))

omit nested in
theorem invoke_nested (env : Environment) (kept : Option Side)
    (smilo : ∀ side ∈ kept, side = .vaultState → env.rules.isSmilo = true) (fuel : Nat) : Nested env kept (Vm.invoke env fuel) := by
  induction fuel with
  | zero => exact fun _ _ _ _ running _ => stacks_stop _ running.room.disciplined
  | succ fuel ih =>
    intro contract i gas evm running keeps
    have apart := running.apart
    cases i with
    | call addr input given value =>
      exact call_confined addr ih running.room apart (fun side member => (keeps side member).1) contract.address input gas value
        fun side member vault => ⟨smilo side member vault, (keeps side member).2 vault⟩
    | callCode addr input given value => exact call_code_confined addr ih running.room apart keeps contract.address input gas value
    | delegateCall addr input given => exact delegate_call_confined addr ih running.room apart keeps contract input gas
    | staticCall addr input given => exact static_call_confined ih running keeps contract.address input gas
    | create value code =>
      exact stacks_look _ running.room.disciplined
        (create_at_confined ih running.room running.toOn (fun side member => ⟨keeps side member, running.inside⟩) contract.address)
    | create2 value code salt =>
      exact create_at_confined ih running.room running.toOn (fun side member => ⟨keeps side member, running.inside⟩) contract.address
    | _ => exact stacks_stop _ running.room.disciplined

end Interpreter

theorem room_start (publicState : StateDB) (vaultState : Option StateDB) : Room (newEVM publicState vaultState) := by
  have plain : EVM.newEVM publicState vaultState = ⟨publicState, vaultState, [.vaultState], false, 0, 0, false, []⟩ := by
    simp [EVM.newEVM, EVM.push]
  rw [plain]
  exact ⟨disciplined_of_guarded ⟨nofun, fun _ _ member => nomatch List.mem_singleton.mp member⟩ (le_refl 1) (le_add_left 1 1026),
    zero_le _, le_refl 1⟩

-- What a call is entered with: evm.StateDB, the index of the stack, the call depth and the two flags.
def EVM.frame (evm : EVM) : Side × Nat × Nat × Bool × Bool :=
  (evm.current, evm.states.length, evm.depth, evm.smiloReadOnly, evm.readOnly)

theorem frame_returns {before after : EVM} (disciplined : Disciplined before) (returns : Returns before after) :
    after.frame = before.frame := by
  have flag := returns_flag disciplined returns
  simp only [frame, current, returns.states, returns.depth, returns.readOnly, flag]

theorem keeps_nothing {α : Type} (env : Environment) (p : Prog α) (evm : EVM) :
    p.Along (handle env.pay env.blockNumber env.rules) (Keeps env none) evm := by
  apply along_mono _ _ p evm (along_true _ p evm)
  intro command evm _
  cases command <;> first | trivial | exact fun _ _ _ => nofun

-- Every step of every run leaves the index in the array and the flag telling what is on the stack, and instructions run
-- where there is room for a call; every call made where there is room returns with what it was entered with.
theorem state_stack_discipline (env : Environment) : (∀ publicState vaultState caller addr data gas value,
      (env.call caller addr data gas value).Along (handle env.pay env.blockNumber env.rules) (Orderly env)
        (newEVM publicState vaultState) ∧
      (env.create caller data gas value).Along (handle env.pay env.blockNumber env.rules) (Orderly env)
        (newEVM publicState vaultState) ∧ Room (newEVM publicState vaultState)) ∧
    ∀ evm fuel parent caller addr data gas value, Room evm →
      ((call env (invoke env fuel) caller addr data gas value).run (handle env.pay env.blockNumber env.rules) evm).2.frame = evm.frame ∧
      ((callCode env (invoke env fuel) caller addr data gas value).run (handle env.pay env.blockNumber env.rules) evm).2.frame =
        evm.frame ∧
      ((delegateCall env (invoke env fuel) parent addr data gas).run (handle env.pay env.blockNumber env.rules) evm).2.frame =
        evm.frame := by
  constructor
  · intro publicState vaultState caller addr data gas value
    have room := room_start publicState vaultState
    have nested := invoke_nested env none nofun (callCreateDepth + 1)
    have creates : Stacks env none (env.create caller data gas value) (newEVM publicState vaultState)
        fun _ => Confined none (newEVM publicState vaultState) :=
      stacks_look _ room.disciplined (create_at_confined nested room ⟨nofun, nofun⟩ nofun caller)
    have called := (call_confined addr nested room nofun nofun caller data gas value nofun (keeps_nothing _ _ _)).1
    have orderly : ∀ command evm, Proper env command evm → Orderly env command evm := fun _ _ => And.left
    exact ⟨along_mono _ orderly _ _ called, along_mono _ orderly _ _ (creates (keeps_nothing _ _ _)).1, room⟩
  · intro evm fuel parent caller addr data gas value room
    have nested := invoke_nested env none nofun fuel
    have called := (call_confined addr nested room nofun nofun caller data gas value nofun (keeps_nothing _ _ _)).2
    have coded := (call_code_confined addr nested room nofun nofun caller data gas value (keeps_nothing _ _ _)).2
    have delegated := (delegate_call_confined addr nested room nofun nofun parent data gas (keeps_nothing _ _ _)).2
    exact ⟨frame_returns room.disciplined called.toReturns, frame_returns room.disciplined coded.toReturns,
      frame_returns room.disciplined delegated.toReturns⟩

def vaultEnvironment (machine : Contract → Code) : Environment where
  pay := idleAccrual
  blockNumber := 10
  rules := ⟨true, true, true, true, true, false⟩
  precompiles _ := none
  createAddress a nonce := a + nonce + 1
  createAddress2 a _ _ := a + 1
  machine := machine

def publicAccounts : Address → Option Account
  | 2 => some ⟨0, 5, 0, 10, [], fun _ => 0⟩
  | 3 => some ⟨0, 0, 0, 10, [0], fun _ => 0⟩
  | _ => none

def vaultAccounts : Address → Option Account
  | 2 => some ⟨0, 0, 0, 10, [0], fun _ => 0⟩
  | _ => none

theorem state_stack_discipline_public : let env := vaultEnvironment fun _ => .stop []
    ((call env (invoke env 1) 1 3 [] 100 0).run (handle env.pay env.blockNumber env.rules)
      (newEVM (StateDB.new publicAccounts) (some (StateDB.new vaultAccounts)))).2.frame = (.vaultState, 1, 0, false, false) :=
  ((state_stack_discipline (vaultEnvironment fun _ => .stop [])).2 _ 1 ⟨1, 1, 1, [], [], 0, 0⟩ 1 3 [] 100 0
    (room_start (StateDB.new publicAccounts) (some (StateDB.new vaultAccounts)))).1

end Didux.Vm
