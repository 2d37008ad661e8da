import Didux.Core.Invariant
import Didux.Core.Processor
import Didux.Vm.NonNegative

set_option autoImplicit false

namespace Didux.Core

open Sport State Vm Vm.Prog Program StateDB

namespace Chain

variable (chain : Chain)

variable {header : Header} {s publicState vaultState : StateDB} {tx : Transaction} {usedGas : Nat}

theorem finish_nonneg (holds : s.NonNegative) : (chain.finish header s).2.NonNegative := by
  unfold finish
  split <;> exact nonneg_finalise holds _

theorem receipts_nonneg {origin : Address} {isVault : Bool} {done : TransitionResult} (holds : publicState.NonNegative)
    (vault : vaultState.NonNegative) :
    let finished := chain.receiptsOf header tx origin isVault usedGas publicState vaultState done
    finished.1.NonNegative ∧ finished.2.1.NonNegative := by
  unfold receiptsOf
  split
  · exact ⟨finish_nonneg chain holds, finish_nonneg chain vault⟩
  · exact ⟨finish_nonneg chain holds, vault⟩

theorem apply_transaction_nonneg {coinbase : Address} {access : VaultAccess} {gp : Nat} (holds : publicState.NonNegative)
    (vault : vaultState.NonNegative) :
    let applied := chain.applyTransaction header coinbase tx access publicState vaultState gp usedGas
    applied.publicState.NonNegative ∧ applied.vaultState.NonNegative := by
  rcases apply_cases chain tx with ⟨e, refused⟩ | ⟨msg, runs⟩
  · rw [refused]
    exact ⟨holds, vault⟩
  · rw [apply_runs chain _ _ tx msg _ _ _ _ _ runs]
    let ctx := chain.context header coinbase msg
    let start := EVM.newEVM publicState (if chain.isSmilo && tx.isVault then some vaultState else none)
    have nonneg : start.NonNegative := EVM.nonneg_new_evm _ _ holds (by grind)
    have ends := transition_maintains msg (nonneg_invariant ctx.evm) access gp start ⟨nonneg, room_start _ _⟩
    have results := EVM.nonneg_results _ vaultState ends.1 vault
    unfold afterMessage
    dsimp only
    split
    · exact results
    · exact receipts_nonneg chain results.1 results.2

theorem rewards_nonneg (holds : s.NonNegative) : (chain.accumulateRewards header s).NonNegative := by
  unfold accumulateRewards
  split
  · exact holds
  · apply nonneg_add_balance _ _ _ _ _ (Int.natCast_nonneg _)
    split
    · exact holds
    · exact nonneg_add_balance _ holds _ _ _ (Int.natCast_nonneg _)

inductive Local : StateDB → StateDB → Prop where
  | prepare (s : StateDB) (thash bhash : Hash) (txIndex : Nat) : Local s (s.prepare thash bhash txIndex)
  | snapshot (s : StateDB) : Local s s.snapshot.2
  | revert (s t : StateDB) (revid : Nat) (done : s.revertToSnapshot revid = some t) : Local s t
  | finalise (s : StateDB) (deleteEmptyObjects : Bool) : Local s (s.finalise deleteEmptyObjects)
  | commit (s : StateDB) (deleteEmptyObjects : Bool) : Local s (s.commit deleteEmptyObjects)
  | reopen (s : StateDB) : Local s (new s.trie)

inductive Reached : StateDB → StateDB → Prop where
  | genesis (publicTrie vaultTrie : Address → Option Account) (publicBalances : Each Account.NonNegative publicTrie)
      (vaultBalances : Each Account.NonNegative vaultTrie) : Reached (new publicTrie) (new vaultTrie)
  | transaction (publicState vaultState : StateDB) (header : Header) (coinbase : Address) (tx : Transaction)
      (access : VaultAccess) (gp usedGas : Nat) (before : Reached publicState vaultState) :
      Reached (chain.applyTransaction header coinbase tx access publicState vaultState gp usedGas).publicState
        (chain.applyTransaction header coinbase tx access publicState vaultState gp usedGas).vaultState
  | rewards (publicState vaultState : StateDB) (header : Header) (before : Reached publicState vaultState) :
      Reached (chain.accumulateRewards header publicState) vaultState
  | onPublic (publicState next vaultState : StateDB) (before : Reached publicState vaultState) (step : Local publicState next) :
      Reached next vaultState
  | onVault (publicState vaultState next : StateDB) (before : Reached publicState vaultState) (step : Local vaultState next) :
      Reached publicState next

theorem local_nonneg {t : StateDB} (step : Local s t) (holds : s.NonNegative) : t.NonNegative := by
  cases step with
  | prepare thash bhash txIndex => exact nonneg_prepare holds thash bhash txIndex
  | snapshot => exact nonneg_snapshot holds
  | revert _ revid done => exact nonneg_revert holds revid done
  | finalise deleteEmptyObjects => exact nonneg_finalise holds deleteEmptyObjects
  | commit deleteEmptyObjects => exact nonneg_commit holds deleteEmptyObjects
  | reopen => exact nonneg_new s.trie holds.trie

theorem reached_nonneg (reached : Reached chain publicState vaultState) : publicState.NonNegative ∧ vaultState.NonNegative := by
  induction reached with
  | genesis publicTrie vaultTrie publicBalances vaultBalances =>
    exact ⟨nonneg_new publicTrie publicBalances, nonneg_new vaultTrie vaultBalances⟩
  | transaction publicState vaultState header coinbase tx access gp usedGas _ ih =>
    exact apply_transaction_nonneg chain ih.1 ih.2
  | rewards publicState vaultState header _ ih => exact ⟨rewards_nonneg chain ih.1, ih.2⟩
  | onPublic publicState next vaultState _ step ih => exact ⟨local_nonneg step ih.1, ih.2⟩
  | onVault publicState vaultState next _ step ih => exact ⟨ih.1, local_nonneg step ih.2⟩

theorem accounts_stay_nonnegative (publicState vaultState : StateDB) (reached : Reached chain publicState vaultState) :
    (∀ s, s = publicState ∨ s = vaultState →
      (∀ a o, s.objects a = some o → 0 ≤ o.balance ∧ 0 ≤ o.smiloPay ∧ o.toAccount.encodable = true) ∧
      (∀ a data, s.trie a = some data → 0 ≤ data.balance ∧ 0 ≤ data.smiloPay ∧ data.encodable = true)) ∧
    ∀ (ctx : MessageContext) (msg : Message) (gp : Nat) (vault : Option StateDB),
      ((buyGas ctx msg gp).run (handle ctx.evm.pay ctx.evm.blockNumber ctx.evm.rules)
        (EVM.newEVM publicState vault)).1.2 = none →
      let mgval : Int := msg.gas * msg.gasPrice
      let seen := publicState.objects.getSmiloPay ctx.evm.pay msg.sender ctx.evm.blockNumber
      mgval ≤ seen ∧ (mgval ≠ 0 →
        StateObject.smiloPay (publicState.subSmiloPay ctx.evm.pay msg.sender mgval ctx.evm.blockNumber) msg.sender =
          seen - mgval) := by
  have nonneg := reached_nonneg chain reached
  constructor
  · intro s which
    have holds : s.NonNegative := by
      rcases which with rfl | rfl
      · exact nonneg.1
      · exact nonneg.2
    constructor
    · intro a o live
      have account := holds.objects a o live
      exact ⟨account.1, account.2, nonnegative_encodable _ account⟩
    · intro a data stored
      have account := holds.trie a data stored
      exact ⟨account.1, account.2, nonnegative_encodable _ account⟩
  · intro ctx msg gp vault passed
    have enough : (msg.gas * msg.gasPrice : Int) ≤ publicState.objects.getSmiloPay ctx.evm.pay msg.sender ctx.evm.blockNumber := by
      rcases buy_gas_cases ctx msg gp (EVM.newEVM publicState vault) with ⟨_, e, refused⟩ | ⟨⟨smiloPay, _⟩, _⟩
      · unfold runIn at refused
        rw [refused] at passed
        contradiction
      · exact smiloPay
    refine ⟨enough, ?_⟩
    intro some_taken
    cases live : publicState.objects msg.sender with
    | some o => exact sub_smilo_pay_left ctx.evm.pay publicState msg.sender _ _ o live some_taken
    | none =>
      -- A sender without an account has no SmiloPay, so the deposit would have to be zero.
      have nothing : (msg.gas * msg.gasPrice : Int) ≤ 0 := by
        simpa [Accounts.getSmiloPay, live] using enough
      have positive : (0 : Int) ≤ msg.gas * msg.gasPrice := Int.mul_nonneg (Int.natCast_nonneg _) (Int.natCast_nonneg _)
      exact absurd (Int.le_antisymm nothing positive) some_taken

end Chain

-- A chain on which SmiloPay does not accrue.
def idleChain (isSmilo isGas isGasRefunded : Bool) (machine : Context → Contract → Code) : Chain where
  isSmilo := isSmilo
  isGas := isGas
  isGasRefunded := isGasRefunded
  forks _ := ⟨isSmilo, true, true, true, true, false⟩
  isEIP155 _ := true
  pay := idleAccrual
  precompiles _ _ := none
  createAddress a nonce := a + nonce + 1
  createAddress2 a _ _ := a + 1
  machine := machine
  trieHash _ := 0
  bloom _ := 0
  blockReward _ := 0
  communityAddress := none

def holder (a : Address) (balance smiloPay : Int) : Address → Option Account :=
  Function.update (fun _ => none) a (some ⟨0, balance, smiloPay, 10, [], fun _ => 0⟩)

def plainTransaction (hash : Hash) (sender : Address) (nonce : Nat) : Transaction where
  hash := hash
  sender := some sender
  recipient := some 9
  nonce := nonce
  gasPrice := 1
  gas := 30000
  value := 0
  data := []
  isVault := false
  isProtected := true

def plainMessage (sender : Address) (nonce : Nat) : Message := ⟨sender, some 9, nonce, true, 1, 30000, 0, [], false⟩

def rewardingChain : Chain := { idleChain true true true (fun _ _ => .stop []) with blockReward _ := 5 }

-- A transaction that buys its gas, the reward of the block, and a further purchase that passes.
theorem accounts_stay_nonnegative_rewarded :
    let header : Header := ⟨3, 0, 5, 0, 0, 100000, 7, 7⟩
    let applied := rewardingChain.applyTransaction header 7 (plainTransaction 2 1 0) .absent (new (holder 1 100000 100000))
      (new fun _ => none) 100000 0
    let rewarded := rewardingChain.accumulateRewards header applied.publicState
    let seen := rewarded.objects.getSmiloPay idleAccrual 1 5
    applied.result.isOk = true ∧ rewarded.objects.getBalance 7 = 5 ∧
      (∀ a o, rewarded.objects a = some o → 0 ≤ o.balance ∧ 0 ≤ o.smiloPay ∧ o.toAccount.encodable = true) ∧
      30000 ≤ seen ∧ StateObject.smiloPay (rewarded.subSmiloPay idleAccrual 1 30000 5) 1 = seen - 30000 := by
  intro header applied rewarded seen
  have start : rewardingChain.Reached (new (holder 1 100000 100000)) (new fun _ => none) :=
    .genesis (holder 1 100000 100000) _ (each_update _ _ _ _ nofun (by rintro x ⟨⟩; exact ⟨by decide, by decide⟩)) nofun
  have reached : rewardingChain.Reached rewarded applied.vaultState := .rewards _ _ _ (.transaction _ _ _ _ _ _ _ _ start)
  obtain ⟨accounts, bought⟩ := Chain.accounts_stay_nonnegative rewardingChain _ _ reached
  obtain ⟨enough, taken⟩ := bought (rewardingChain.context header 7 (plainMessage 1 1)) (plainMessage 1 1) 100000 none (by decide +kernel)
  exact ⟨by decide +kernel, by decide +kernel, (accounts _ (.inl rfl)).1, enough, taken (by decide)⟩

end Didux.Core
