import Didux.Vm.Evm

set_option autoImplicit false

namespace Didux.Vm

open Sport State Prog Program Nat

def Bounded (gas : Nat) (p : Prog Outcome) : Prop := p.Yields fun out => out.gas ≤ gas

def Contained (gas : Nat) (p : Prog Outcome) : Prop := p.Yields fun out => out.gas ≤ gas ∧ out.err ≠ some .insufficientBalance

variable {gas left used : Nat}

theorem contained_pure {out : Outcome} (bound : out.gas ≤ gas) (fine : out.err ≠ some .insufficientBalance) :
    Contained gas (pure out) := ⟨bound, fine⟩

theorem contained_failure (gas left : Nat) (e : VMError) (bound : left ≤ gas) (other : e ≠ .insufficientBalance) :
    Contained gas (pure (failure left e)) :=
  ⟨bound, fun same => other (Option.some.inj same)⟩

theorem contained_after {α : Type} (gas : Nat) (p : Prog α) (k : α → Prog Outcome) (rest : ∀ value, Contained gas (k value)) :
    Contained gas (p >>= k) := yields_after _ p k rest

theorem contained_bind (gas : Nat) (p : Prog Outcome) (k : Outcome → Prog Outcome) (first : Contained gas p)
    (rest : ∀ out : Outcome, out.err ≠ some .insufficientBalance → Contained out.gas (k out)) : Contained gas (p >>= k) :=
  yields_bind _ _ p k first fun out kept => yields_mono _ _ _ (fun _ next => ⟨le_trans next.1 kept.1, next.2⟩) (rest out kept.2)

theorem contained_ite (gas : Nat) (c : Prop) [Decidable c] (p q : Prog Outcome) (yes : Contained gas p) (no : Contained gas q) :
    Contained gas (if c then p else q) := yields_ite _ c p q yes no

theorem contained_bounded {p : Prog Outcome} (contained : Contained gas p) : Bounded gas p :=
  yields_mono _ _ _ (fun _ kept => kept.1) contained

theorem bounded_failure (gas left : Nat) (e : VMError) (bound : left ≤ gas) : Bounded gas (pure (failure left e)) := bound

theorem bounded_after {α : Type} (gas : Nat) (p : Prog α) (k : α → Prog Outcome) (rest : ∀ value, Bounded gas (k value)) :
    Bounded gas (p >>= k) := yields_after _ p k rest

theorem bounded_bind (gas : Nat) (p : Prog Outcome) (k : Outcome → Prog Outcome) (first : Bounded gas p)
    (rest : ∀ out : Outcome, Bounded out.gas (k out)) : Bounded gas (p >>= k) :=
  yields_bind _ _ p k first fun out bound => yields_mono _ _ _ (fun _ kept => le_trans kept bound) (rest out)

theorem bounded_ite (gas : Nat) (c : Prop) [Decidable c] (p q : Prog Outcome) (yes : Bounded gas p) (no : Bounded gas q) :
    Bounded gas (if c then p else q) := yields_ite _ c p q yes no

def Performed.within (gas : Nat) : Performed → Prop
  | .halted out => out.gas ≤ gas ∧ out.err ≠ some .insufficientBalance
  | .next _ left => left ≤ gas

theorem stipend_charged {value : Nat} (kept : used ≤ gas + if value = 0 then 0 else callStipend) :
    left + used ≤ left + (gas + if value = 0 then 0 else callValueTransferGas) := by
  unfold callStipend at kept
  unfold callValueTransferGas
  split_ifs at kept ⊢ <;> omega

theorem handed_charged {rules : Rules} {i : Instr} (kept : used ≤ (i.handed rules left).2) :
    (i.handed rules left).1 + used ≤ left + i.charged := by
  have part := div_le_self left 64
  cases i with
  | create value code =>
    simp only [Instr.handed, Instr.charged] at kept ⊢
    split_ifs at kept ⊢ <;> dsimp only at kept ⊢ <;> omega
  | create2 value code salt =>
    simp only [Instr.handed, Instr.charged] at kept ⊢
    omega
  | call addr input gas value => exact stipend_charged kept
  | callCode addr input gas value => exact stipend_charged kept
  | delegateCall addr input gas => exact Nat.add_le_add_left kept left
  | staticCall addr input gas => exact Nat.add_le_add_left kept left
  | sstore key value refunds => exact Nat.add_le_add_left kept left
  | log topics data => exact Nat.add_le_add_left kept left
  | selfdestruct beneficiary refunds => exact Nat.add_le_add_left kept left

section Calls

variable (invoked : Contract → Instr → Nat → Prog Outcome) (calls : ∀ c i gas, Bounded gas (invoked c i gas))

include calls

theorem perform_bounded (rules : Rules) (contract : Contract) (i : Instr) (constantGas dynamicGas gas : Nat) :
    (perform rules invoked contract i constantGas dynamicGas gas).Yields (Performed.within gas) := by
  intro refused
  cases refused with
  | some e => exact ⟨le_refl gas, by simp [failure]⟩
  | none =>
    apply yields_ite
    · exact ⟨le_refl gas, by simp [failure]⟩
    · apply yields_after
      intro view
      apply yields_after
      intro ok
      apply yields_ite
      · exact ⟨le_refl gas, by simp [failure]⟩
      · split
        · exact ⟨sub_le gas constantGas, by simp [failure]⟩
        · rename_i enough
          let left := gas - constantGas - (dynamicGas + i.charged)
          have room : left + i.charged ≤ gas := by omega
          have below : left ≤ gas := le_trans (le_add_right _ _) room
          split
          · exact yields_after _ _ _ fun _ => below
          · exact yields_after _ _ _ fun _ => below
          · exact yields_after _ _ _ fun _ => ⟨below, by simp⟩
          · refine yields_bind _ _ _ _ (calls contract i (i.handed rules left).2) fun out kept => ?_
            have total := le_trans (handed_charged kept) room
            split
            · next crashed => exact ⟨le_trans (le_add_left _ _) total, by simp [crashed]⟩
            · exact total

theorem exec_contained (rules : Rules) (contract : Contract) (code : Code) (gas : Nat) :
    Contained gas (exec rules invoked contract code gas) := by
  induction code generalizing gas with
  | stop ret => exact ⟨le_refl gas, by simp⟩
  | revert ret => exact ⟨le_refl gas, by simp⟩
  | fail => exact contained_failure gas gas _ (le_refl gas) (by simp)
  | use cost next ih =>
    apply contained_ite _ _ _ _ (contained_failure gas gas _ (le_refl gas) (by simp))
    exact yields_mono _ _ _ (fun out kept => ⟨le_trans kept.1 (sub_le gas cost), kept.2⟩) (ih (gas - cost))
  | look next ih => exact contained_after _ _ _ fun view => ih view gas gas
  | instr i constantGas dynamicGas next ih =>
    rw [exec]
    apply yields_bind _ _ _ _ (perform_bounded invoked calls rules contract i constantGas dynamicGas gas)
    intro performed kept
    cases performed with
    | halted out => exact kept
    | next result left => exact yields_mono _ _ _ (fun out later => ⟨le_trans later.1 kept, later.2⟩) (ih result left)

variable (env : Environment)

theorem run_contained (contract : Contract) (readOnly : Bool) : Contained contract.gas (Vm.run env invoked contract readOnly) := by
  unfold Vm.run
  split
  · apply contained_ite _ _ _ _ (contained_failure _ _ _ (le_refl _) (by simp))
    split
    · exact ⟨sub_le _ _, by simp⟩
    · exact contained_failure _ _ _ (sub_le _ _) (by simp)
  · apply contained_after
    intro view
    intro _
    apply contained_bind _ _ _ (exec_contained invoked calls env.rules contract _ contract.gas)
    exact fun out fine => contained_after _ _ _ fun _ => ⟨le_refl _, fine⟩

omit calls in
theorem settle_contained (side : Side) (out : Outcome) (fine : out.err ≠ some .insufficientBalance) :
    Contained out.gas (settle side out) := by
  unfold settle
  split
  · exact contained_after _ _ _ fun _ => ⟨le_refl _, fine⟩
  · exact ⟨le_refl _, fine⟩
  · apply contained_after
    intro ok
    apply contained_ite _ _ _ _ _ (contained_failure _ _ _ (zero_le _) (by simp))
    refine contained_pure ?_ fine
    dsimp only
    split
    · exact le_refl _
    · exact zero_le _

variable {caller address codeAddr addr : Address} {input : Bytes} {value gas : Nat}

theorem run_code_contained : Contained gas (runCode env invoked ⟨caller, address, codeAddr, [], input, value, gas⟩) :=
  contained_after _ _ _ fun view =>
    contained_bind _ _ _ (run_contained invoked calls env ⟨caller, address, codeAddr, _, input, value, gas⟩ false)
      fun out fine => settle_contained view.current out fine

theorem call_checked_contained {view : View} {isVault : Bool} :
    Contained gas (callChecked env invoked view isVault caller addr input gas value) := by
  intro _
  apply contained_ite
  · exact contained_after _ _ _ fun _ => ⟨le_refl gas, by simp⟩
  · apply contained_after
    intro _
    apply contained_ite
    · exact contained_after _ _ _ fun _ => contained_failure _ _ _ (le_refl gas) (by simp)
    · exact contained_after _ _ _ fun _ => run_code_contained invoked calls env

theorem call_current_bounded {isVault : Bool} : Bounded gas (callCurrent env invoked isVault caller addr input gas value) := by
  intro view
  apply bounded_ite _ _ _ _ (bounded_failure _ _ _ (le_refl _))
  apply bounded_ite _ _ _ _ (bounded_failure _ _ _ (le_refl _))
  exact contained_bounded (call_checked_contained invoked calls env)

omit calls in
theorem within_bounded {body : Bool → Prog Outcome} (inner : ∀ isVault, Bounded gas (body isVault)) :
    Bounded gas (within addr body) :=
  bounded_after _ _ _ fun _ => bounded_after _ _ _ fun _ =>
    bounded_bind _ _ _ (inner _) fun _ => bounded_after _ _ _ fun _ => le_refl _

theorem call_bounded (caller addr : Address) (input : Bytes) (gas value : Nat) :
    Bounded gas (call env invoked caller addr input gas value) :=
  within_bounded fun _ => call_current_bounded invoked calls env

theorem snapshot_run_bounded : Bounded gas (do
      snapshot
      runCode env invoked ⟨caller, address, codeAddr, [], input, value, gas⟩) :=
  bounded_after _ _ _ fun _ => contained_bounded (run_code_contained invoked calls env)

theorem call_code_bounded (caller addr : Address) (input : Bytes) (gas value : Nat) :
    Bounded gas (callCode env invoked caller addr input gas value) := by
  apply within_bounded
  intro _
  intro view
  apply bounded_ite _ _ _ _ (bounded_failure _ _ _ (le_refl _))
  apply bounded_ite _ _ _ _ (bounded_failure _ _ _ (le_refl _))
  exact snapshot_run_bounded invoked calls env

theorem delegate_call_bounded (parent : Contract) (addr : Address) (input : Bytes) (gas : Nat) :
    Bounded gas (delegateCall env invoked parent addr input gas) := by
  apply within_bounded
  intro _
  intro view
  apply bounded_ite _ _ _ _ (bounded_failure _ _ _ (le_refl _))
  exact snapshot_run_bounded invoked calls env

theorem static_call_bounded (caller addr : Address) (input : Bytes) (gas : Nat) :
    Bounded gas (staticCall env invoked caller addr input gas) := by
  intro view
  apply bounded_ite _ _ _ _ (bounded_failure _ _ _ (le_refl _))
  intro _
  intro _
  exact contained_bounded (contained_bind _ _ _ (run_contained invoked calls env ⟨caller, addr, addr, _, input, 0, gas⟩ true)
    fun out fine => settle_contained _ out fine)

omit calls in
theorem store_code_contained {out : Outcome} (fine : out.err ≠ some .insufficientBalance) :
    Contained out.gas (storeCode env address out) := by
  apply contained_after
  intro view
  apply contained_after
  intro _
  apply contained_ite _ _ _ _ (contained_pure (le_refl _) fine)
  apply contained_ite
  · apply contained_after
    intro ok
    apply contained_ite _ _ _ _ (contained_pure ?_ ?_) (contained_failure _ _ _ (zero_le _) (by simp))
    · dsimp only
      split_ifs <;> omega
    · grind
  · apply contained_after
    intro _
    apply contained_pure
    · dsimp only
      split_ifs <;> omega
    · grind

theorem create_checked_contained {view : View} {code : Bytes} :
    Contained gas (createChecked env invoked view caller code gas value address) := by
  apply contained_ite _ _ _ _ (contained_failure _ _ _ (zero_le _) (by simp))
  apply contained_after
  intro _
  apply contained_after
  intro _
  apply contained_after
  intro _
  apply contained_ite
  · exact contained_after _ _ _ fun _ => contained_failure _ _ _ (le_refl gas) (by simp)
  · apply contained_after
    intro _
    exact contained_bind _ _ _ (run_contained invoked calls env ⟨caller, address, address, code, [], value, gas⟩ false) fun out fine =>
      store_code_contained env fine

theorem create_at_bounded (caller : Address) (code : Bytes) (gas value : Nat) (address : Address) :
    Bounded gas (createAt env invoked caller code gas value address) := by
  intro view
  apply bounded_ite _ _ _ _ (bounded_failure _ _ _ (le_refl _))
  apply bounded_ite _ _ _ _ (bounded_failure _ _ _ (le_refl _))
  exact bounded_after _ _ _ fun _ => bounded_after _ _ _ fun view => contained_bounded (create_checked_contained invoked calls env)

theorem create_bounded (caller : Address) (code : Bytes) (gas value : Nat) :
    Bounded gas (create env invoked caller code gas value) :=
  bounded_after _ _ _ fun _ => create_at_bounded invoked calls env caller code gas value _

end Calls

theorem invoke_bounded (env : Environment) (fuel : Nat) (parent : Contract) (i : Instr) (gas : Nat) :
    Bounded gas (invoke env fuel parent i gas) := by
  induction fuel generalizing parent i gas with
  | zero => exact le_refl gas
  | succ fuel calls =>
    cases i with
    | call addr input _ value => exact call_bounded _ calls env _ _ _ _ _
    | callCode addr input _ value => exact call_code_bounded _ calls env _ _ _ _ _
    | delegateCall addr input _ => exact delegate_call_bounded _ calls env _ _ _ _
    | staticCall addr input _ => exact static_call_bounded _ calls env _ _ _ _
    | create value code => exact create_bounded _ calls env _ _ _ _
    | create2 value code salt => exact create_at_bounded _ calls env _ _ _ _ _
    | sstore key value refunds => exact le_refl gas
    | log topics data => exact le_refl gas
    | selfdestruct beneficiary refunds => exact le_refl gas

namespace Environment

theorem call_gas (env : Environment) (caller addr : Address) (input : Bytes) (gas value : Nat) :
    Bounded gas (env.call caller addr input gas value) :=
  call_bounded (invoke env (callCreateDepth + 1)) (invoke_bounded env (callCreateDepth + 1)) env caller addr input gas value

theorem create_gas (env : Environment) (caller : Address) (code : Bytes) (gas value : Nat) :
    Bounded gas (env.create caller code gas value) :=
  create_bounded (invoke env (callCreateDepth + 1)) (invoke_bounded env (callCreateDepth + 1)) env caller code gas value

end Environment

end Didux.Vm
