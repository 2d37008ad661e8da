import Didux.State.Logs
import Didux.State.Snapshot
import Didux.Vm.Invariant
import Didux.Vm.Stack

set_option autoImplicit false

namespace Didux.Vm

open Sport State Prog Program

def Command.logs : Command → Bool
  | .apply _ (.addLog _ _ _) => true
  | _ => false

theorem invariant_of_quiet {env : Environment} {J : EVM → Prop}
    (still : ∀ command evm, command.logs = false → J evm → J (handle env.pay env.blockNumber env.rules command evm).2)
    (log : ∀ evm address topics data, evm.refusal env.rules (.log topics data) = none → J evm →
      J (handle env.pay env.blockNumber env.rules (.apply evm.current (.addLog address topics data)) evm).2) : Invariant env J := by
  intro command evm admitted holds
  cases quiet : command.logs with
  | false => exact still command evm quiet holds
  | true =>
    unfold Command.logs at quiet
    split at quiet
    · obtain ⟨rfl, through⟩ := admitted
      exact log evm _ _ _ through holds
    · contradiction

def Moves (s t : StateDB) : Prop := t.logging = s.logging ∨ ∃ revid, s.revertToSnapshot revid = some t

theorem op_logging {pay : Accrual} {blockNumber : Nat} {s t : StateDB} {op : Op} {side : Side}
    (quiet : (Command.apply side op).logs = false) (applied : op.apply pay blockNumber s = some t) : t.logging = s.logging := by
  cases op with
  | addLog a topics data => contradiction
  | subRefund gas => exact StateDB.logging_sub_refund s gas t applied
  | _ =>
    obtain rfl := Option.some.inj applied
    simp

theorem quiet_moves (pay : Accrual) (blockNumber : Nat) (rules : Rules) (command : Command) (evm : EVM) (quiet : command.logs = false) :
    StatesMove Moves evm (handle pay blockNumber rules command evm).2 := by
  apply handle_moves (fun _ => .inl rfl)
  · exact fun _ => .inl rfl
  · exact fun _ _ revid reverted => .inr ⟨revid, reverted⟩
  · rintro side op t rfl applied
    exact .inl (op_logging quiet applied)

section Recorded

variable {place : Place} {base : Hash → List Log} {size : Nat} {s t : StateDB}

theorem recorded_moves {contents : List Content} (recorded : Recorded place base size contents s) (moves : Moves s t) :
    ∃ k, Recorded place base size (contents.take k) t := by
  rcases moves with same | ⟨revid, reverted⟩
  · exact ⟨contents.length, by rw [List.take_length]; exact recorded_logging recorded same⟩
  · exact recorded_revert recorded revid reverted

structure LogsAlone (place : Place) (base : Hash → List Log) (size : Nat) (evm : EVM) : Prop where
  alone : evm.vaultState = none
  recorded : ∃ contents, Recorded place base size contents evm.publicState

structure LogsApart (quiet place : Place) (quietBase base : Hash → List Log) (quietSize size : Nat) (evm : EVM) : Prop where
  guarded : Guarded evm
  publicState : Recorded quiet quietBase quietSize [] evm.publicState
  vaultState : ∃ v contents, evm.vaultState = some v ∧ Recorded place base size contents v

variable {env : Environment} (number : place.blockNumber = uint64 env.blockNumber)

include number

theorem logs_alone_invariant : Invariant env (LogsAlone place base size) := by
  apply invariant_of_quiet
  · intro command evm quiet holds
    have moves := quiet_moves env.pay env.blockNumber env.rules command evm quiet
    obtain ⟨contents, recorded⟩ := holds.recorded
    obtain ⟨k, after⟩ := recorded_moves recorded moves.publicState
    exact ⟨moves.alone holds.alone, _, after⟩
  · intro evm address topics data _ holds
    obtain ⟨contents, recorded⟩ := holds.recorded
    have one : evm.get evm.current = evm.publicState := by
      cases evm.current with
      | publicState => rfl
      | vaultState => rw [EVM.get, holds.alone]; rfl
    have set : ∀ s, evm.set evm.current s = { evm with publicState := s } := by
      intro s
      unfold EVM.set
      split
      · next v vault => cases vault.symm.trans holds.alone
      · rfl
    simp only [handle, one, set]
    exact ⟨holds.alone, _, number ▸ recorded_add_log recorded address topics data⟩

theorem logs_apart_invariant (exact : env.rules.estimateGas = false) {quiet : Place} {quietBase : Hash → List Log} {quietSize : Nat} :
    Invariant env (LogsApart quiet place quietBase base quietSize size) := by
  apply invariant_of_quiet
  · intro command evm silent holds
    have moves := quiet_moves env.pay env.blockNumber env.rules command evm silent
    obtain ⟨v, contents, apart, recorded⟩ := holds.vaultState
    obtain ⟨w, still, moved⟩ := moves.vaultState v apart
    obtain ⟨k, after⟩ := recorded_moves recorded moved
    obtain ⟨j, untouched⟩ := recorded_moves holds.publicState moves.publicState
    rw [List.take_nil] at untouched
    exact ⟨guarded_handle env.pay env.blockNumber env.rules command evm holds.guarded, untouched, w, _, still, after⟩
  · intro evm address topics data through holds
    obtain ⟨v, contents, apart, recorded⟩ := holds.vaultState
    have lowered : evm.smiloReadOnly = false := by
      unfold EVM.refusal at through
      cases flag : evm.smiloReadOnly with
      | false => rfl
      | true => simp [exact, flag, Instr.isMutating] at through
    have absent := holds.guarded.down lowered (apart ▸ rfl)
    have current : evm.current = .vaultState := by
      unfold EVM.current
      cases states : evm.states with
      | nil => rfl
      | cons side rest =>
        cases side with
        | vaultState => rfl
        | publicState => exact absurd (states ▸ List.mem_cons_self) absent
    have set : ∀ s, evm.set .vaultState s = { evm with vaultState := some s } := by
      intro s
      simp only [EVM.set, apart]
    have get : evm.get .vaultState = v := by rw [EVM.get, apart]; rfl
    have same : SameStack evm { evm with vaultState := some (v.addLog address topics data (uint64 env.blockNumber)) } :=
      ⟨apart ▸ rfl, rfl, rfl, rfl, rfl, rfl⟩
    simp only [handle, current, get, set]
    exact ⟨guarded_same holds.guarded same, holds.publicState, _, _, rfl, number ▸ recorded_add_log recorded address topics data⟩

end Recorded

theorem alone_invariant (env : Environment) : Invariant env fun evm => evm.vaultState = none := by
  have kept : ∀ command (evm : EVM), evm.vaultState = none →
      (handle env.pay env.blockNumber env.rules command evm).2.vaultState = none := by
    intro command evm
    have moves : StatesMove (fun _ _ => True) evm (handle env.pay env.blockNumber env.rules command evm).2 :=
      handle_moves (fun _ => trivial) (fun _ => trivial) (fun _ _ _ _ => trivial) fun _ _ _ _ _ => trivial
    exact moves.alone
  exact fun command evm _ => kept command evm

def Op.method (blockNumber : Nat) : Op → Method
  | .createAccount a => .createAccount a
  | .setNonce a nonce => .setNonce a nonce
  | .setCode a code => .setCode a code
  | .setState a key value => .setState a key value
  | .addBalance a amount => .addBalance a amount blockNumber
  | .subBalance a amount => .subBalance a amount blockNumber
  | .subSmiloPay a amount => .subSmiloPay a amount blockNumber
  | .suicide a => .suicide a
  | .addLog a topics data => .addLog a topics data (uint64 blockNumber)
  | .addRefund gas => .addRefund gas
  | .subRefund gas => .subRefund gas

structure HoldsBoth (s v : StateDB) (evm : EVM) : Prop where
  publicState : Held Set.univ s evm.publicState
  vaultState : ∀ w, evm.vaultState = some w → Held Set.univ v w

theorem holds_both_invariant (env : Environment) (s v : StateDB) : Invariant env (HoldsBoth s v) := by
  have kept : ∀ command evm, HoldsBoth s v evm → HoldsBoth s v (handle env.pay env.blockNumber env.rules command evm).2 := by
    intro command evm holds
    have moves : StatesMove (fun t u => ∀ base, Held Set.univ base t → Held Set.univ base u) evm
        (handle env.pay env.blockNumber env.rules command evm).2 := by
      apply handle_moves (fun _ _ held => held)
      · exact fun _ _ => held_snapshot
      · exact fun _ _ revid reverted _ => held_revert revid reverted
      · rintro side op u rfl applied base held
        have method : (op.method env.blockNumber).apply env.pay (evm.get side) = some u := by
          rw [← applied]
          cases op <;> rfl
        exact method_invariant env.pay (fun _ _ => held_edit) (fun _ => held_snapshot) (fun _ _ => held_revert) _ u _ method
          (fun _ => Set.mem_univ _) held
    refine ⟨moves.publicState s holds.publicState, ?_⟩
    intro w after
    cases before : evm.vaultState with
    | none => exact nomatch (moves.alone before).symm.trans after
    | some u =>
      obtain ⟨x, there, moved⟩ := moves.vaultState u before
      obtain rfl := Option.some.inj (there.symm.trans after)
      exact moved v (holds.vaultState u before)
  exact fun command evm _ => kept command evm

end Didux.Vm
