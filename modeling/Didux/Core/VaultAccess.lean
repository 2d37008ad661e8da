import Didux.Core.Replay
import Didux.Vm.Stack

set_option autoImplicit false

namespace Didux.Core

open Sport State Vm Vm.Prog Program StateDB

def VaultAccess.data : VaultAccess → Option Bytes
  | .absent | .failed => none
  | .payload data => some data

section Message

variable (ctx : MessageContext) (msg : Message)

variable {gp : Nat} {evm : EVM} {data : Bytes}

theorem transition_without_payload {access : VaultAccess} (vault : (ctx.evm.rules.isSmilo && msg.isVault) = true)
    (none_there : access.data = none) (passed : Passes ctx msg evm gp) : runIn ctx (transitionDb ctx msg access gp) evm =
      (⟨gp - msg.gas, .ok ⟨[], 0, false⟩⟩, (runIn ctx (bumpNonce msg) (deposited ctx msg evm)).2) := by
  rcases pre_check_cases ctx msg gp evm with ⟨stopped, _⟩ | ⟨_, bought⟩
  · exact absurd passed stopped
  · unfold transitionDb
    rw [run_in_bind, bought]
    dsimp only
    rw [if_pos vault]
    cases access with
    | absent => rfl
    | failed => rfl
    | payload data => contradiction

theorem transition_payload (vault : (ctx.evm.rules.isSmilo && msg.isVault) = true) (passed : Passes ctx msg evm gp) :
    runIn ctx (transitionDb ctx msg (.payload data) gp) evm =
      runIn ctx (execute ctx msg true data (gp - msg.gas)) (entered ctx msg evm) := by
  rcases pre_check_cases ctx msg gp evm with ⟨stopped, _⟩ | ⟨_, bought⟩
  · exact absurd passed stopped
  · unfold transitionDb
    rw [run_in_bind, bought]
    dsimp only
    rw [if_pos vault, run_in_bind]
    rfl

section Alike

variable {evm twin : EVM} (alike : Alike id evm.publicState twin.publicState)

include alike

variable {gp gas : Nat}

theorem passes_alike : Passes ctx msg evm gp ↔ Passes ctx msg twin gp := by
  have affords : Affords ctx msg evm gp ↔ Affords ctx msg twin gp := by rw [Affords, Affords, alike.objects]
  constructor
  · exact fun passes => ⟨fun checked => alike.objects ▸ passes.nonce checked, affords.mp passes.affords⟩
  · exact fun passes => ⟨fun checked => alike.objects ▸ passes.nonce checked, affords.mpr passes.affords⟩

theorem pre_check_alike (gp : Nat) : (runIn ctx (preCheck ctx msg gp) evm).1 = (runIn ctx (preCheck ctx msg gp) twin).1 := by
  have objects : evm.view.accounts .publicState = twin.view.accounts .publicState := alike.objects
  unfold runIn preCheck buyGas
  simp only [run_ite, run_look, objects]
  split_ifs <;> rfl

theorem transition_refused_alike {first second : VaultAccess} (refused : ¬Passes ctx msg evm gp) :
    ∃ e, runIn ctx (transitionDb ctx msg first gp) evm = (⟨gp, .error e⟩, evm) ∧
      runIn ctx (transitionDb ctx msg second gp) twin = (⟨gp, .error e⟩, twin) := by
  have same := pre_check_alike ctx msg alike gp
  rcases pre_check_cases ctx msg gp evm with ⟨_, e, stopped⟩ | ⟨passed, _⟩
  · rcases pre_check_cases ctx msg gp twin with ⟨_, e', stoppedTwin⟩ | ⟨passed, _⟩
    · rw [stopped, stoppedTwin] at same
      obtain rfl : e = e' := Option.some.inj (congrArg Prod.snd same)
      refine ⟨e, ?_, ?_⟩
      · unfold transitionDb
        rw [run_in_bind, stopped]
        rfl
      · unfold transitionDb
        rw [run_in_bind, stoppedTwin]
        rfl
    · exact absurd ((passes_alike ctx msg alike).mpr passed) refused
  · exact absurd passed refused

theorem deposited_alike : Alike id (deposited ctx msg evm).publicState (deposited ctx msg twin).publicState :=
  alike_sub_balance _ (alike_sub_smilo_pay _ alike _ _ _) _ _ _

theorem bump_alike (c : Bool) :
    Alike id (runIn ctx (whenever c (bumpNonce msg)) evm).2.publicState (runIn ctx (whenever c (bumpNonce msg)) twin).2.publicState := by
  cases c with
  | false => exact alike
  | true =>
    have written := alike_set_nonce alike msg.sender (twin.publicState.objects.getNonce msg.sender + 1)
    have run : (runIn ctx (whenever true (bumpNonce msg)) evm).2.publicState =
        evm.publicState.setNonce msg.sender (evm.publicState.objects.getNonce msg.sender + 1) := rfl
    rw [run, alike.objects]
    exact written

theorem entered_alike : Alike id (entered ctx msg evm).publicState (entered ctx msg twin).publicState :=
  bump_alike ctx msg (deposited_alike ctx msg alike) _

theorem paid_alike (a : Address) (amount : Int) :
    Alike id (paid ctx a amount evm).publicState (paid ctx a amount twin).publicState :=
  alike_add_balance _ alike _ _ _

theorem refund_counter_alike : refundCounter msg evm.view gas = refundCounter msg twin.view gas := by
  show min _ evm.publicState.refund = min _ twin.publicState.refund
  rw [alike.refund]

theorem give_back_alike {whole : Bool} :
    (runIn ctx (giveBack ctx msg whole gp gas) evm).1 = (runIn ctx (giveBack ctx msg whole gp gas) twin).1 ∧
    Alike id (runIn ctx (giveBack ctx msg whole gp gas) evm).2.publicState
      (runIn ctx (giveBack ctx msg whole gp gas) twin).2.publicState := by
  cases whole with
  | true =>
    have after := paid_alike ctx alike msg.sender (gasUsed msg gas * msg.gasPrice)
    rw [give_back_whole]
    dsimp only
    rw [refund_counter_alike msg after]
    exact ⟨rfl, after⟩
  | false =>
    rw [give_back_plain, give_back_plain]
    dsimp only
    rw [refund_counter_alike msg alike]
    have refunded := paid_alike ctx alike msg.sender ((gas + refundCounter msg twin.view gas : Nat) * msg.gasPrice)
    cases addGas gp (gas + refundCounter msg twin.view gas) with
    | none => exact ⟨rfl, refunded⟩
    | some gp => exact ⟨rfl, paid_alike ctx refunded ctx.coinbase _⟩

end Alike

def Underpaid : Prop :=
  ∀ cost, intrinsicGas msg.data msg.recipient.isNone ctx.evm.rules.isHomestead = some cost → msg.gas < cost

theorem execute_vault_cases :
    (Underpaid ctx msg ∧ ∀ data gp evm, runIn ctx (execute ctx msg true data gp) evm = (⟨gp, .error .outOfGas⟩, evm)) ∨
    (intrinsicGas msg.data msg.recipient.isNone ctx.evm.rules.isHomestead = some (intrinsicCost ctx msg) ∧
      intrinsicCost ctx msg ≤ msg.gas ∧ ∀ data gp evm, runIn ctx (execute ctx msg true data gp) evm =
        runIn ctx (deliver ctx msg true data gp (msg.gas - intrinsicCost ctx msg)) evm) := by
  unfold execute intrinsicCost Underpaid
  cases intrinsicGas msg.data msg.recipient.isNone ctx.evm.rules.isHomestead with
  | none => exact .inl ⟨nofun, fun _ _ _ => rfl⟩
  | some cost =>
    dsimp only [Option.getD_some]
    by_cases enough : msg.gas < cost
    · simp only [if_pos enough]
      exact .inl ⟨fun _ same => Option.some.inj same ▸ enough, fun _ _ _ => rfl⟩
    · simp only [if_neg enough, Bool.not_true, Bool.and_false]
      exact .inr ⟨trivial, Nat.not_lt.mp enough, fun _ _ _ => rfl⟩

-- How a vault message with a payload ends: in an error, or with its gas given back, the whole of it or what is left.
def ending (data : Bytes) (evm : EVM) : Except TxError Bool :=
  let out := (evmRun ctx msg data evm).1
  if msg.recipient.isSome && data = [] then .ok (ctx.evm.rules.isSmilo && ctx.isGas)
  else if out.err = some .panic then .error .panic
  else if out.err = some .insufficientBalance then .error .insufficientBalance
  else .ok (wholeRefund ctx out)

def ended (data : Bytes) (evm : EVM) : EVM :=
  if msg.recipient.isSome && data = [] then entered ctx msg evm else (evmRun ctx msg data evm).2

-- What the rest of the chain sees of a vault message: the pool, the used gas or the error, and the public state.
def seen (ran : Transition × EVM) : Nat × Except TxError Nat × StateDB :=
  (ran.1.gp, ran.1.result.map (fun done => done.usedGas), ran.2.publicState)

def seenAfter (gp : Nat) (ending : Except TxError Bool) (after : EVM) : Nat × Except TxError Nat × StateDB :=
  match ending with
  | .error e => (gp, .error e, after.publicState)
  | .ok whole =>
    let back := runIn ctx (giveBack ctx msg whole gp (msg.gas - intrinsicCost ctx msg)) after
    match back.1 with
    | none => (gp, .error .panic, back.2.publicState)
    | some (_, gp) => (gp, .ok 0, back.2.publicState)

theorem give_back_seen {whole : Bool} {machine : EVM} {done : Nat → TransitionResult} (free : ∀ left, (done left).usedGas = 0) :
    seen (runIn ctx (do
      let back ← giveBack ctx msg whole gp (msg.gas - intrinsicCost ctx msg)
      match back with
      | none => pure ⟨gp, .error .panic⟩
      | some (left, gp) => pure ⟨gp, .ok (done left)⟩) machine) = seenAfter ctx msg gp (.ok whole) machine := by
  unfold seenAfter
  rw [run_in_bind]
  dsimp only
  generalize runIn ctx (giveBack ctx msg whole gp (msg.gas - intrinsicCost ctx msg)) machine = back
  rcases back with ⟨_ | ⟨left, pool⟩, after⟩
  · rfl
  · exact congrArg (fun used => (pool, Except.ok used, after.publicState)) (free left)

theorem deliver_seen : seen (runIn ctx (deliver ctx msg true data gp (msg.gas - intrinsicCost ctx msg)) (entered ctx msg evm)) =
      seenAfter ctx msg gp (ending ctx msg data evm) (ended ctx msg data evm) := by
  unfold deliver ending ended
  by_cases early : (msg.recipient.isSome && decide (data = [])) = true
  · simp only [early]
    exact give_back_seen ctx msg fun _ => rfl
  · simp only [early, Bool.false_and, Bool.false_eq_true, if_false]
    rw [run_in_bind]
    show seen (runIn ctx (conclude ctx msg true gp _ (evmRun ctx msg data evm).1) (evmRun ctx msg data evm).2) = _
    unfold conclude
    by_cases crashed : (evmRun ctx msg data evm).1.err = some .panic
    · simp only [if_pos crashed]
      rfl
    · by_cases poor : (evmRun ctx msg data evm).1.err = some .insufficientBalance
      · simp only [if_neg crashed, if_pos poor]
        rfl
      · simp only [if_neg crashed, if_neg poor]
        exact give_back_seen ctx msg fun _ => rfl

def SeenAlike (first second : Nat × Except TxError Nat × StateDB) : Prop :=
  first.1 = second.1 ∧ first.2.1 = second.2.1 ∧ Alike id first.2.2 second.2.2

theorem seen_after_alike {ending : Except TxError Bool} {after twin : EVM} (alike : Alike id after.publicState twin.publicState) :
    SeenAlike (seenAfter ctx msg gp ending after) (seenAfter ctx msg gp ending twin) := by
  unfold seenAfter
  cases ending with
  | error e => exact ⟨rfl, rfl, alike⟩
  | ok whole =>
    obtain ⟨back, given⟩ := give_back_alike ctx msg alike
    dsimp only
    rw [← back]
    cases (runIn ctx (giveBack ctx msg whole gp (msg.gas - intrinsicCost ctx msg)) after).1 with
    | none => exact ⟨rfl, rfl, given⟩
    | some left => exact ⟨rfl, rfl, given⟩

-- The code that a payload runs keeps to the vault state from its first step on: a call moves no value, and its callee is
-- not one that the public state alone holds.
def Sheltered (data : Bytes) (evm : EVM) : Prop :=
  let start := entered ctx msg evm
  (runEvm ctx msg data (msg.gas - intrinsicCost ctx msg)).Along (handle ctx.evm.pay ctx.evm.blockNumber ctx.evm.rules)
    (Keeps ctx.evm (some .vaultState)) start ∧
  match msg.recipient with
  | none => start.view.canTransfer .vaultState msg.sender msg.value = true
  | some addr => msg.value = 0 ∧ (start.view.getPrivateOrPublicStateDB addr).2 = .vaultState

section Sheltered

variable (smilo : ctx.evm.rules.isSmilo = true) (s v : StateDB)

include smilo

theorem call_sheltered (addr : Address) (gas : Nat) (held : ((EVM.newEVM s (some v)).view.getPrivateOrPublicStateDB addr).2 = .vaultState)
    (along : (ctx.evm.call msg.sender addr data gas 0).Along (handle ctx.evm.pay ctx.evm.blockNumber ctx.evm.rules)
      (Keeps ctx.evm (some .vaultState)) (EVM.newEVM s (some v))) :
    (runIn ctx (ctx.evm.call msg.sender addr data gas 0) (EVM.newEVM s (some v))).2.publicState = s := by
  have nested := invoke_nested ctx.evm (some .vaultState) (fun _ _ _ => smilo) (callCreateDepth + 1)
  have confined := (call_confined addr nested (room_start s (some v)) (fun _ _ => rfl)
    (fun _ member => held.trans (Option.some.inj member))
    msg.sender data gas 0 (fun _ _ _ => ⟨smilo, rfl⟩) along).2
  exact confined.other .vaultState rfl

theorem create_sheltered (gas : Nat) (enough : (EVM.newEVM s (some v)).view.canTransfer .vaultState msg.sender msg.value = true)
    (along : (ctx.evm.create msg.sender data gas msg.value).Along (handle ctx.evm.pay ctx.evm.blockNumber ctx.evm.rules)
      (Keeps ctx.evm (some .vaultState)) (EVM.newEVM s (some v))) :
    (runIn ctx (ctx.evm.create msg.sender data gas msg.value) (EVM.newEVM s (some v))).2.publicState =
      s.setNonce msg.sender (s.objects.getNonce msg.sender + 1) := by
  have nested := invoke_nested ctx.evm (some .vaultState) (fun _ _ _ => smilo) (callCreateDepth + 1)
  have start := (room_start s (some v)).disciplined
  have room := room_start (s.setNonce msg.sender (s.objects.getNonce msg.sender + 1)) (some v)
  have checked : Checked (some .vaultState) (EVM.newEVM (s.setNonce msg.sender (s.objects.getNonce msg.sender + 1)) (some v)) :=
    { apart := fun _ _ => rfl, current := fun _ member => Option.some.inj member, disciplined := room.disciplined,
      depth := Nat.zero_le _, length := Nat.le_succ_of_le room.length }
  have creates : Stacks ctx.evm (some .vaultState) (ctx.evm.create msg.sender data gas msg.value) (EVM.newEVM s (some v))
      fun _ after => after.publicState = s.setNonce msg.sender (s.objects.getNonce msg.sender + 1) := by
    apply stacks_look _ start
    apply stacks_look _ start
    refine stacks_ite _ _ _ (fun deep => absurd deep (Nat.not_lt_zero _)) fun _ => ?_
    refine stacks_ite _ _ _ (fun poor => ?_) fun _ => ?_
    · exact nomatch (congrArg not enough).symm.trans poor
    · refine stacks_step (.apply .publicState (.setNonce msg.sender _)) _ room.disciplined nofun trivial fun _ => ?_
      apply stacks_look _ room.disciplined
      exact assures_mono _ _ (fun _ _ confined => confined.other .vaultState rfl)
        (create_checked_confined nested checked (of_decide_eq_true (p := _ ≤ _) enough))
  exact (creates along).2

theorem run_evm_sheltered (sheltered : Sheltered ctx msg data (EVM.newEVM s (some v))) :
    (evmRun ctx msg data (EVM.newEVM s (some v))).2.publicState =
      (runIn ctx (bumpNonce msg) (deposited ctx msg (EVM.newEVM s (some v)))).2.publicState := by
  obtain ⟨along, fits⟩ := sheltered
  unfold evmRun
  unfold runEvm entered at *
  cases recipient : msg.recipient with
  | none =>
    rw [recipient] at along fits
    exact create_sheltered ctx msg smilo _ v _ fits along
  | some addr =>
    rw [recipient] at along fits
    rw [fits.1] at along ⊢
    exact call_sheltered ctx msg smilo _ v addr _ fits.2 along

theorem ended_sheltered
    (sheltered : (msg.recipient.isSome && data = []) = false → Sheltered ctx msg data (EVM.newEVM s (some v))) :
    (ended ctx msg data (EVM.newEVM s (some v))).publicState =
      (runIn ctx (bumpNonce msg) (deposited ctx msg (EVM.newEVM s (some v)))).2.publicState := by
  unfold ended
  split
  · next early =>
      unfold entered
      rw [(Bool.and_eq_true_iff.mp early).1]
      rfl
  · next late => exact run_evm_sheltered ctx msg smilo s v (sheltered (Bool.eq_false_of_not_eq_true late))

end Sheltered

-- Two payloads are told apart by no one if the gas does not pay for either, or if each is an empty one of a call or
-- sheltered and both end in the same way.
def Indifferent (first second : VaultAccess) (gp : Nat) (evm twin : EVM) : Prop :=
  ¬Passes ctx msg evm gp ∨
  match first.data, second.data with
  | none, none => True
  | some data, some other => Underpaid ctx msg ∨ (ending ctx msg data evm = ending ctx msg other twin ∧
      ((msg.recipient.isSome && data = []) = false → Sheltered ctx msg data evm) ∧
      ((msg.recipient.isSome && other = []) = false → Sheltered ctx msg other twin))
  | _, _ => False

variable (first second : VaultAccess) (gp : Nat) (evm : EVM) (vault : (ctx.evm.rules.isSmilo && msg.isVault) = true)

include vault

theorem transition_indifferent {s t v w : StateDB} (alike : Alike id s t)
    (indifferent : Indifferent ctx msg first second gp (EVM.newEVM s (some v)) (EVM.newEVM t (some w))) :
    SeenAlike (seen (runIn ctx (transitionDb ctx msg first gp) (EVM.newEVM s (some v))))
      (seen (runIn ctx (transitionDb ctx msg second gp) (EVM.newEVM t (some w)))) := by
  have alike : Alike id (EVM.newEVM s (some v)).publicState (EVM.newEVM t (some w)).publicState := alike
  by_cases passes : Passes ctx msg (EVM.newEVM s (some v)) gp
  · have also := (passes_alike ctx msg alike).mp passes
    have same := indifferent.resolve_left (not_not_intro passes)
    have bumped := bump_alike ctx msg (deposited_alike ctx msg alike) true
    cases first with
    | payload data =>
      cases second with
      | payload other =>
        rw [transition_payload ctx msg vault passes, transition_payload ctx msg vault also]
        rcases execute_vault_cases ctx msg with ⟨_, stops⟩ | ⟨price, enough, delivers⟩
        · rw [stops, stops]
          exact ⟨rfl, rfl, entered_alike ctx msg alike⟩
        · rw [delivers, delivers, deliver_seen, deliver_seen]
          rcases same with underpaid | ⟨alikeEnding, here, there⟩
          · exact absurd (underpaid _ price) (Nat.not_lt.mpr enough)
          · have smilo := (Bool.and_eq_true_iff.mp vault).1
            rw [alikeEnding]
            apply seen_after_alike
            rw [ended_sheltered ctx msg smilo s v here, ended_sheltered ctx msg smilo t w there]
            exact bumped
      | absent => exact same.elim
      | failed => exact same.elim
    | absent | failed =>
      cases second with
      | payload other => exact same.elim
      | absent | failed =>
        rw [transition_without_payload ctx msg vault rfl passes, transition_without_payload ctx msg vault rfl also]
        exact ⟨rfl, rfl, bumped⟩
  · obtain ⟨e, here, there⟩ := transition_refused_alike ctx msg alike passes
    rw [here, there]
    exact ⟨rfl, rfl, alike⟩

theorem payload_ends (data : Bytes) (passes : Passes ctx msg evm gp) (bound : gp ≤ maxUint64)
    (spare : intrinsicGas msg.data msg.recipient.isNone ctx.evm.rules.isHomestead ≠ some msg.gas) :
    (∃ e, (runIn ctx (transitionDb ctx msg (.payload data) gp) evm).1.result = .error e) ∨
    gp - msg.gas < (runIn ctx (transitionDb ctx msg (.payload data) gp) evm).1.gp := by
  have room : gp - msg.gas + msg.gas ≤ maxUint64 := by
    have := passes.affords.2.2
    omega
  rw [transition_payload ctx msg vault passes]
  rcases execute_vault_cases ctx msg with ⟨_, stops⟩ | ⟨price, enough, _⟩
  · rw [stops]
    exact .inl ⟨_, rfl⟩
  · have more : intrinsicCost ctx msg < msg.gas := Nat.lt_of_le_of_ne enough fun same => spare (same ▸ price)
    rcases execute_ends ctx msg true data (entered ctx msg evm) with ends | ⟨_, delivered⟩
    · rw [ends.ends _ room]
      exact .inl ⟨_, rfl⟩
    · cases delivered with
      | crashed after ends =>
        rw [ends.ends _ room]
        exact .inl ⟨_, rfl⟩
      | poor err ends =>
        rw [ends.ends _ room]
        exact .inl ⟨_, rfl⟩
      | done left result after least ends =>
        rw [ends.ends _ room]
        have kept := least rfl
        exact .inr (by dsimp only; omega)

end Message

def visible (result : Except TxError Receipts) : Except TxError (Receipt × Nat × Nat) :=
  result.map fun receipts => (receipts.receipt, receipts.gas, receipts.usedGas)

structure SamePublic (first second : Applied) : Prop where
  publicState : Alike id first.publicState second.publicState
  gp : first.gp = second.gp
  result : visible first.result = visible second.result

namespace Chain

variable (chain : Chain)

theorem receipts_seen (header : Header) (tx : Transaction) (origin : Address) (usedGas : Nat) (s t v w : StateDB)
    (first second : TransitionResult) (alike : Alike id s t) (used : first.usedGas = second.usedGas) :
    let here := chain.receiptsOf header tx origin true usedGas s v first
    let there := chain.receiptsOf header tx origin true usedGas t w second
    Alike id here.1 there.1 ∧ visible (.ok here.2.2) = visible (.ok there.2.2) := by
  obtain ⟨root, finished⟩ := finish_alike chain header header.hash header.author s t alike
  have logs : (chain.finish header s).2.logs tx.hash = (chain.finish header t).2.logs tx.hash :=
    (List.map_id _).symm.trans (finished.logs tx.hash)
  refine ⟨finished, ?_⟩
  have sealed_same : header.unsealed header.hash header.author = header := rfl
  rw [sealed_same] at root finished
  simp only [visible, Except.map, receiptsOf, if_true, used, root, getLogs, logs, finished.bhash.symm, finished.txIndex, id,
    Bool.not_true, Bool.false_and]

variable {header : Header} {v w : StateDB}

theorem after_message_seen {tx : Transaction} {origin : Address} {usedGas : Nat}
    {first second : Transition × EVM} (same : SeenAlike (seen first) (seen second)) :
    SamePublic (chain.afterMessage header tx origin true v usedGas first)
      (chain.afterMessage header tx origin true w usedGas second) := by
  obtain ⟨gp, result, alike⟩ := same
  rcases first with ⟨⟨gp₁, result₁⟩, evm⟩
  rcases second with ⟨⟨gp₂, result₂⟩, twin⟩
  cases result₁ with
  | error e =>
    cases result₂ with
    | error f =>
      obtain rfl : e = f := Except.error.inj result
      exact ⟨alike, gp, rfl⟩
    | ok done => contradiction
  | ok done =>
    cases result₂ with
    | error f => contradiction
    | ok other =>
      have used : done.usedGas = other.usedGas := Except.ok.inj result
      have finished := receipts_seen chain header tx origin usedGas _ _ (evm.vaultState.getD v) (twin.vaultState.getD w) done other
        alike used
      exact ⟨finished.1, gp, finished.2⟩

def IndifferentTo (header : Header) (coinbase : Address) (tx : Transaction) (first second : VaultAccess) (s t v w : StateDB) (gp : Nat) :
    Prop :=
  ∀ msg, chain.Runs tx msg →
    Indifferent (chain.context header coinbase msg) msg first second gp (EVM.newEVM s (some v)) (EVM.newEVM t (some w))

section Transactions

variable (header : Header) (coinbase : Address) (tx : Transaction) (first second : VaultAccess) (s t v w : StateDB) (gp usedGas : Nat)

theorem apply_indifferent (vault : (chain.isSmilo && tx.isVault) = true) (alike : Alike id s t)
    (indifferent : chain.IndifferentTo header coinbase tx first second s t v w gp) :
    SamePublic (chain.applyTransaction header coinbase tx first s v gp usedGas)
      (chain.applyTransaction header coinbase tx second t w gp usedGas) := by
  rcases apply_cases chain tx with ⟨e, refused⟩ | ⟨msg, runs⟩
  · rw [refused, refused]
    exact ⟨alike, rfl, rfl⟩
  · rw [apply_runs chain _ _ tx msg _ _ _ _ _ runs, apply_runs chain _ _ tx msg _ _ _ _ _ runs, vault]
    apply after_message_seen
    exact transition_indifferent _ msg first second gp (message_vault tx msg runs.2 ▸ vault) alike (indifferent msg runs)

theorem payload_differs (msg : Message) (data : Bytes) (vault : (chain.isSmilo && tx.isVault) = true) (runs : chain.Runs tx msg)
    (none_there : first.data = none) (passes : Passes (chain.context header coinbase msg) msg (EVM.newEVM s (some v)) gp)
    (bound : gp ≤ maxUint64)
    (spare : intrinsicGas msg.data msg.recipient.isNone (chain.rules header.number).isHomestead ≠ some msg.gas) :
    let without := chain.applyTransaction header coinbase tx first s v gp usedGas
    let participant := chain.applyTransaction header coinbase tx (.payload data) s w gp usedGas
    without.gp ≠ participant.gp ∨ visible without.result ≠ visible participant.result := by
  have isVault : (chain.isSmilo && msg.isVault) = true := message_vault tx msg runs.2 ▸ vault
  rw [apply_runs chain _ _ tx msg _ _ _ _ _ runs, apply_runs chain _ _ tx msg _ _ _ _ _ runs, vault, if_pos rfl, if_pos rfl,
    transition_without_payload _ msg isVault none_there passes]
  have alike : Alike id (EVM.newEVM s (some v)).publicState (EVM.newEVM s (some w)).publicState := alike_refl s
  have also := (passes_alike (chain.context header coinbase msg) msg alike).mp passes
  generalize ended : runIn (chain.context header coinbase msg) (transitionDb (chain.context header coinbase msg) msg (.payload data) gp)
    (EVM.newEVM s (some w)) = ran
  have ends := payload_ends (chain.context header coinbase msg) msg gp (EVM.newEVM s (some w)) isVault data also bound spare
  rw [ended] at ends
  rcases ran with ⟨⟨pool, result⟩, after⟩
  cases result with
  | error e => exact .inr nofun
  | ok done =>
    rcases ends with ⟨e, failed⟩ | more
    · contradiction
    · exact .inl (Nat.ne_of_lt more)

end Transactions

structure SameSoFar (p q : Processing) : Prop where
  publicState : Alike id p.publicState q.publicState
  fresh : Fresh p.publicState
  freshTwin : Fresh q.publicState
  gp : p.gp = q.gp
  usedGas : p.usedGas = q.usedGas
  receipts : p.receipts = q.receipts

section Block

variable (header : Header) (first second : Transaction → VaultAccess)

def IndifferentAlong : Nat → List Transaction → Processing → Processing → Prop
  | _, [], _, _ => True
  | index, tx :: rest, p, q =>
    ((chain.isSmilo && tx.isVault) = true → chain.IndifferentTo header header.author tx (first tx) (second tx)
      (p.publicState.prepare tx.hash header.hash index) (q.publicState.prepare tx.hash header.hash index)
      (p.vaultState.prepare tx.hash header.hash index) (q.vaultState.prepare tx.hash header.hash index) p.gp) ∧
    ∀ p' q', chain.processOne header header.hash first index tx p = .ok p' →
      chain.processOne header header.hash second index tx q = .ok q' → IndifferentAlong (index + 1) rest p' q'

theorem agrees_visible {here there : Except TxError Receipts} (agrees : Agrees id here there) : visible here = visible there := by
  cases agrees with
  | error e => rfl
  | ok receipt gas usedGas =>
    have same : receipt.stamped id = receipt := by
      simp only [Receipt.stamped, id]
      rw [show Log.stamped id = id from rfl, List.map_id]
    rw [same]

variable (index : Nat)

theorem apply_same (tx : Transaction) (p q : Processing) (so_far : SameSoFar p q)
    (indifferent : (chain.isSmilo && tx.isVault) = true → chain.IndifferentTo header header.author tx (first tx) (second tx)
      (p.publicState.prepare tx.hash header.hash index) (q.publicState.prepare tx.hash header.hash index)
      (p.vaultState.prepare tx.hash header.hash index) (q.vaultState.prepare tx.hash header.hash index) p.gp) :
    SamePublic
      (chain.applyTransaction header header.author tx (first tx) (p.publicState.prepare tx.hash header.hash index)
        (p.vaultState.prepare tx.hash header.hash index) p.gp p.usedGas)
      (chain.applyTransaction header header.author tx (second tx) (q.publicState.prepare tx.hash header.hash index)
        (q.vaultState.prepare tx.hash header.hash index) q.gp q.usedGas) := by
  have prepared := alike_prepare so_far.publicState tx.hash header.hash header.hash index rfl
  rw [← so_far.gp, ← so_far.usedGas]
  by_cases vault : (chain.isSmilo && tx.isVault) = true
  · exact apply_indifferent chain header header.author tx _ _ _ _ _ _ p.gp p.usedGas vault prepared (indifferent vault)
  · obtain ⟨gp, after, agrees⟩ := apply_alike chain header header.hash header.author header.author tx (first tx) (second tx) _ _
      (p.vaultState.prepare tx.hash header.hash index) (q.vaultState.prepare tx.hash header.hash index) p.gp p.usedGas
      (Bool.eq_false_of_not_eq_true vault) prepared so_far.fresh so_far.freshTwin
    exact ⟨after, gp, agrees_visible agrees⟩

theorem process_one_same (tx : Transaction) (p q : Processing) (so_far : SameSoFar p q)
    (same : SamePublic
      (chain.applyTransaction header header.author tx (first tx) (p.publicState.prepare tx.hash header.hash index)
        (p.vaultState.prepare tx.hash header.hash index) p.gp p.usedGas)
      (chain.applyTransaction header header.author tx (second tx) (q.publicState.prepare tx.hash header.hash index)
        (q.vaultState.prepare tx.hash header.hash index) q.gp q.usedGas)) :
    (∃ e, chain.processOne header header.hash first index tx p = .error e ∧
      chain.processOne header header.hash second index tx q = .error e) ∨
    ∃ p' q', chain.processOne header header.hash first index tx p = .ok p' ∧
      chain.processOne header header.hash second index tx q = .ok q' ∧ SameSoFar p' q' := by
  unfold processOne
  dsimp only
  generalize here : chain.applyTransaction header header.author tx (first tx) (p.publicState.prepare tx.hash header.hash index)
    (p.vaultState.prepare tx.hash header.hash index) p.gp p.usedGas = applied at same
  generalize there : chain.applyTransaction header header.author tx (second tx) (q.publicState.prepare tx.hash header.hash index)
    (q.vaultState.prepare tx.hash header.hash index) q.gp q.usedGas = other at same
  have result := same.result
  cases left : applied.result with
  | error e =>
    cases right : other.result with
    | error f =>
      rw [left, right] at result
      obtain rfl : e = f := Except.error.inj result
      exact .inl ⟨e, rfl, rfl⟩
    | ok receipts =>
      rw [left, right] at result
      contradiction
  | ok receipts =>
    cases right : other.result with
    | error f =>
      rw [left, right] at result
      contradiction
    | ok others =>
      rw [left, right] at result
      obtain ⟨receipt, rest⟩ := Prod.mk.inj (Except.ok.inj result)
      obtain ⟨_, usedGas⟩ := Prod.mk.inj rest
      have fresh : applied.publicState.validRevisions = [] := here ▸ apply_ok_revisions chain _ _ tx _ _ _ _ _ _ (here ▸ left)
      have freshTwin : other.publicState.validRevisions = [] := there ▸ apply_ok_revisions chain _ _ tx _ _ _ _ _ _ (there ▸ right)
      refine .inr ⟨_, _, rfl, rfl, same.publicState, ?_, ?_, same.gp, usedGas, ?_⟩
      · simp [Fresh, fresh]
      · simp [Fresh, freshTwin]
      · simp only [so_far.receipts, receipt]

theorem process_all_same (txs : List Transaction) (p q : Processing) (so_far : SameSoFar p q)
    (indifferent : chain.IndifferentAlong header first second index txs p q) :
    (∃ e, chain.processAll header first index txs p = .error e ∧ chain.processAll header second index txs q = .error e) ∨
    ∃ p' q', chain.processAll header first index txs p = .ok p' ∧ chain.processAll header second index txs q = .ok q' ∧
      SameSoFar p' q' := by
  induction txs generalizing index p q with
  | nil => exact .inr ⟨p, q, rfl, rfl, so_far⟩
  | cons tx rest ih =>
    obtain ⟨now, later⟩ := indifferent
    unfold processAll
    rcases process_one_same chain header first second index tx p q so_far
      (apply_same chain header first second index tx p q so_far now) with
      ⟨e, left, right⟩ | ⟨p', q', left, right, next⟩
    · rw [left, right]
      exact .inl ⟨e, rfl, rfl⟩
    · rw [left, right]
      exact ih (index + 1) p' q' next (later p' q' left right)

end Block

def Processed.visible (processed : Processed) : Hash × Nat × List Receipt := (processed.root, processed.usedGas, processed.receipts)

theorem process_same {first second : Transaction → VaultAccess} {txs : List Transaction} {publicTrie : Address → Option Account}
    (indifferent : chain.IndifferentAlong header first second 0 txs ⟨new publicTrie, v, header.gasLimit, 0, [], []⟩
      ⟨new publicTrie, w, header.gasLimit, 0, [], []⟩) :
    (chain.process header first txs (new publicTrie) v).map Processed.visible =
      (chain.process header second txs (new publicTrie) w).map Processed.visible := by
  have start : SameSoFar ⟨new publicTrie, v, header.gasLimit, 0, [], []⟩ ⟨new publicTrie, w, header.gasLimit, 0, [], []⟩ :=
    ⟨alike_refl _, nofun, nofun, rfl, rfl, rfl⟩
  unfold process
  rcases process_all_same chain header first second 0 txs _ _ start indifferent with ⟨e, left, right⟩ | ⟨p, q, left, right, same⟩
  · rw [left, right]
  · have root : (chain.finalize header txs p.publicState).1 = (chain.finalize header txs q.publicState).1 :=
      finalize_alike chain header header.hash header.author txs _ _ same.publicState
    rw [left, right]
    simp only [Except.map, Processed.visible, root, same.usedGas, same.receipts]

end Chain

def vaultTransaction : Transaction where
  hash := 1
  sender := some 1
  recipient := some 9
  nonce := 0
  gasPrice := 1
  gas := 30000
  value := 0
  data := []
  isVault := true
  isProtected := true

-- The callee stores the length of its input.
def storingChain : Chain :=
  idleChain true true true fun _ contract => .instr (.sstore 0 contract.input.length []) 0 5000 fun _ => .stop []

def storingAccounts : Address → Option Account := Function.update (fun _ => none) 9 (some ⟨0, 0, 0, 10, [0], fun _ => 0⟩)

end Didux.Core
