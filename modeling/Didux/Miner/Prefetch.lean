import Didux.Core.VaultAccess
import Didux.Miner.Node

set_option autoImplicit false

namespace Didux.Miner

open Sport State Vm Vm.Prog Didux.Core StateDB

section Message

variable (ctx : MessageContext) (msg : Message)

-- The executions that leave the vault state as it is: those of a message that preCheck refuses or that does not pay for its
-- intrinsic gas, of a vault message without a payload or a vault call without input, and of a call of an account that the
-- public state alone holds, if its code keeps to that state.
def Bystands (access : VaultAccess) (gp : Nat) (evm : EVM) : Prop :=
  ¬Passes ctx msg evm gp ∨ Underpaid ctx msg ∨
  if ctx.evm.rules.isSmilo && msg.isVault then access.data = none ∨ (access.data = some [] ∧ msg.recipient.isSome = true)
  else ∃ addr ∈ msg.recipient, ((entered ctx msg evm).view.getPrivateOrPublicStateDB addr).2 = .publicState ∧
    (runEvm ctx msg msg.data (msg.gas - intrinsicCost ctx msg)).Along (handle ctx.evm.pay ctx.evm.blockNumber ctx.evm.rules)
      (Keeps ctx.evm (some .publicState)) (entered ctx msg evm)

variable {gp gas : Nat} {evm : EVM} {isVault : Bool} {data : Bytes}

theorem bump_vault (c : Bool) : (runIn ctx (whenever c (bumpNonce msg)) evm).2.vaultState = evm.vaultState := by
  cases c <;> rfl

theorem give_back_vault (whole : Bool) (gp gas : Nat) (evm : EVM) :
    (runIn ctx (giveBack ctx msg whole gp gas) evm).2.vaultState = evm.vaultState := by
  cases whole with
  | true => rfl
  | false =>
    rw [give_back_plain]
    dsimp only
    cases addGas gp (gas + refundCounter msg evm.view gas) <;> rfl

theorem deliver_vault (kept : (msg.recipient.isSome && data = [] && isVault) = false →
      (runIn ctx (runEvm ctx msg data gas) evm).2.vaultState = evm.vaultState) :
    (runIn ctx (deliver ctx msg isVault data gp gas) evm).2.vaultState = evm.vaultState := by
  unfold deliver
  split
  · rw [run_in_bind]
    split <;> exact give_back_vault ctx msg (ctx.evm.rules.isSmilo && ctx.isGas) gp gas evm
  · next late =>
      have kept := kept (Bool.eq_false_of_not_eq_true late)
      rw [run_in_bind]
      unfold conclude
      split
      · exact kept
      · split
        · exact kept
        · rw [run_in_bind]
          split <;> exact (give_back_vault ctx msg _ _ _ _).trans kept

theorem execute_vault (kept : ¬Underpaid ctx msg → (msg.recipient.isSome && data = [] && isVault) = false →
      let start := (runIn ctx (whenever (msg.recipient.isSome && !isVault) (bumpNonce msg)) evm).2
      (runIn ctx (runEvm ctx msg data (msg.gas - intrinsicCost ctx msg)) start).2.vaultState = start.vaultState) :
    (runIn ctx (execute ctx msg isVault data gp) evm).2.vaultState = evm.vaultState := by
  unfold Underpaid intrinsicCost at kept
  unfold execute
  cases price : intrinsicGas msg.data msg.recipient.isNone ctx.evm.rules.isHomestead with
  | none => rfl
  | some cost =>
    rw [price] at kept
    dsimp only
    split
    · rfl
    · next enough =>
        rw [run_in_bind]
        exact (deliver_vault ctx msg (kept fun underpaid => enough (underpaid cost rfl))).trans (bump_vault ctx msg _)

theorem vault_get {evm : EVM} {v : StateDB} (apart : evm.vaultState.isSome = true) (same : evm.get .vaultState = v) :
    evm.vaultState = some v := by
  obtain ⟨w, vault⟩ := Option.isSome_iff_exists.mp apart
  rw [EVM.get, vault] at same
  exact vault.trans (congrArg some same)

theorem call_bystands {s v : StateDB} {addr : Address} (called : msg.recipient = some addr)
    (held : ((EVM.newEVM s (some v)).view.getPrivateOrPublicStateDB addr).2 = .publicState)
    (along : (runEvm ctx msg data gas).Along (handle ctx.evm.pay ctx.evm.blockNumber ctx.evm.rules)
      (Keeps ctx.evm (some .publicState)) (EVM.newEVM s (some v))) :
    (runIn ctx (runEvm ctx msg data gas) (EVM.newEVM s (some v))).2.vaultState = some v := by
  unfold runEvm at along ⊢
  rw [called] at along ⊢
  have member : ∀ side ∈ some Side.publicState, Side.publicState = side := fun _ member => Option.some.inj member
  have nested := invoke_nested ctx.evm (some .publicState) (fun side there vault => nomatch (member side there).trans vault)
    (callCreateDepth + 1)
  have confined := (call_confined addr nested (room_start s (some v)) (fun _ _ => rfl) (fun side there => held.trans (member side there))
    msg.sender data gas msg.value (fun side there vault => nomatch (member side there).trans vault) along).2
  exact vault_get confined.apart (confined.other .publicState rfl)

theorem transition_bystands {access : VaultAccess} {s v : StateDB} (bystands : Bystands ctx msg access gp (EVM.newEVM s (some v))) :
    (runIn ctx (transitionDb ctx msg access gp) (EVM.newEVM s (some v))).2.vaultState = some v := by
  rcases pre_check_cases ctx msg gp (EVM.newEVM s (some v)) with ⟨refused, _⟩ | ⟨passed, bought⟩
  · obtain ⟨e, ran⟩ := transition_refused ctx msg access gp _ refused
    rw [ran]
    rfl
  · have bystands := bystands.resolve_left (not_not_intro passed)
    unfold transitionDb
    rw [run_in_bind, bought]
    dsimp only
    split
    · next vault =>
        rw [if_pos vault] at bystands
        cases access with
        | payload data =>
          rw [run_in_bind]
          refine (execute_vault ctx msg fun paid late => ?_).trans (bump_vault ctx msg _)
          rcases bystands.resolve_left paid with none_there | ⟨empty, called⟩
          · contradiction
          · obtain rfl : data = [] := Option.some.inj empty
            rw [called] at late
            contradiction
        | _ => rfl
    · next plain =>
        rw [if_neg plain] at bystands
        apply execute_vault ctx msg
        intro paid _
        obtain ⟨addr, called, held, along⟩ := bystands.resolve_left paid
        have called : msg.recipient = some addr := called
        unfold entered at held along
        rw [Bool.not_false, Bool.and_true]
        rw [called] at held along ⊢
        exact call_bystands ctx msg called held along

end Message

-- The prefetcher of the block after the one that is processed: what is left of its transactions, and the state it throws away.
structure Prefetching where
  header : Header
  index : Nat
  txs : List Transaction
  statedb : StateDB
  gaspool : Nat

namespace Node

variable (node : Node)

def prefetch (followup : Block) (statedb : StateDB) : Prefetching := ⟨followup.header, 0, followup.txs, statedb, followup.header.gasLimit⟩

-- precacheTransaction: the EVM gets the vault state that is passed in, whatever the transaction is, and nothing is finalised.
-- A crash of the node is none; the prefetcher stops at the first error.
def precacheTransaction (tx : Transaction) (vaultState : StateDB) (p : Prefetching) : Option (StateDB × Prefetching) :=
  match tx.asMessage with
  | none => some (vaultState, { p with txs := [] })
  | some msg =>
    let ctx := node.chain.context p.header p.header.author msg
    let ran := runIn ctx (transitionDb ctx msg (node.access tx) p.gaspool) (EVM.newEVM p.statedb (some vaultState))
    let vaultState := ran.2.vaultState.getD vaultState
    let p := { p with statedb := ran.2.publicState, gaspool := ran.1.gp }
    match ran.1.result with
    | .error .panic => none
    | .error _ => some (vaultState, { p with txs := [] })
    | .ok _ => some (vaultState, p)

def prefetchOne (vaultState : StateDB) (p : Prefetching) : Option (StateDB × Prefetching) :=
  match p.txs with
  | [] => some (vaultState, p)
  | tx :: rest =>
    node.precacheTransaction tx vaultState
      { p with statedb := p.statedb.prepare tx.hash p.header.hash p.index, index := p.index + 1, txs := rest }

def prefetchSteps : Nat → StateDB → Prefetching → Option (StateDB × Prefetching)
  | 0, vaultState, p => some (vaultState, p)
  | steps + 1, vaultState, p => match node.prefetchOne vaultState p with
    | none => none
    | some (vaultState, p) => prefetchSteps steps vaultState p

-- The loop of Process beside the prefetcher, which makes `pauses i` steps before the transaction `i`, and before the vault
-- state is committed for the number of transactions.
def processBeside (header : Header) (pauses : Nat → Nat) : Nat → List Transaction → Chain.Processing → Prefetching →
    Option (Except TxError Chain.Processing)
  | index, txs, p, beside => match node.prefetchSteps (pauses index) p.vaultState beside with
    | none => none
    | some (vaultState, beside) =>
      match txs with
      | [] => some (.ok { p with vaultState := vaultState })
      | tx :: rest =>
        match node.chain.processOne header header.hash node.access index tx { p with vaultState := vaultState } with
        | .error e => some (.error e)
        | .ok p => processBeside header pauses (index + 1) rest p beside

end Node

structure Inserted where
  vaultRoot : Hash
  receipts : List Receipt
  vaultReceipts : List Receipt
  usedGas : Nat
  root : Hash

structure Import where
  db : Database
  inserted : List Inserted
  stopped : Bool

namespace Node

variable (node : Node)

-- A block with its state opened: Process beside the prefetcher, Finalize of the engine, ValidateState and the writes.
def insertBeside (block : Block) (pauses : Nat → Nat) (tries : Trie × Trie) (beside : Prefetching) (db : Database) :
    Option (Option (Database × Inserted)) :=
  match node.processBeside block.header pauses 0 block.txs
      ⟨new tries.1, new tries.2, block.header.gasLimit, 0, [], []⟩ beside with
  | none => none
  | some (.error _) => some none
  | some (.ok p) =>
    let finalized := node.chain.finalize block.header block.txs p.publicState
    let processed : Chain.Processed := ⟨finalized.2, p.vaultState, p.usedGas, p.receipts, p.vaultReceipts, finalized.1⟩
    match node.validateState block processed with
    | none => some none
    | some states =>
      let db := db.write node.chain block states.1 states.2
      some (some (db, ⟨db.getVaultStateRoot block.root, p.receipts, p.vaultReceipts, p.usedGas, finalized.1⟩))

def besideOf (block : Block) (rest : List Block) (trie : Trie) : Prefetching :=
  match rest with
  | [] => ⟨block.header, 0, [], new trie, 0⟩
  | followup :: _ => prefetch followup (new trie)

-- insertChain on blocks whose headers verify. `pauses` says for each block how the prefetcher of the next one is scheduled.
def insertChain (pauses : Nat → Nat → Nat) : Nat → List Block → Import → Option Import
  | _, [], done => some done
  | number, block :: rest, done =>
    match (done.db.blocks block.header.parentHash).bind fun parent => done.db.stateAt parent.root with
    | none => some { done with stopped := true }
    | some tries =>
      match node.insertBeside block (pauses number) tries (besideOf block rest tries.1) done.db with
      | none => none
      | some none => some { done with stopped := true }
      | some (some (db, inserted)) => insertChain pauses (number + 1) rest ⟨db, done.inserted ++ [inserted], false⟩

-- The next transaction of the prefetcher leaves the vault state of the block that is processed, and the node does not crash.
def Idles (vaultState : StateDB) (p : Prefetching) : Prop :=
  match p.txs with
  | [] => True
  | tx :: _ => ∀ msg, tx.asMessage = some msg →
    let ctx := node.chain.context p.header p.header.author msg
    let evm := EVM.newEVM (p.statedb.prepare tx.hash p.header.hash p.index) (some vaultState)
    Bystands ctx msg (node.access tx) p.gaspool evm ∧
      (runIn ctx (transitionDb ctx msg (node.access tx) p.gaspool) evm).1.result ≠ .error .panic

def Quiet : Nat → StateDB → Prefetching → Prop
  | 0, _, _ => True
  | steps + 1, vaultState, p => node.Idles vaultState p ∧
    ∀ next, node.prefetchOne vaultState p = some (vaultState, next) → Quiet steps vaultState next

def QuietBeside (header : Header) (pauses : Nat → Nat) : Nat → List Transaction → Chain.Processing → Prefetching → Prop
  | index, txs, p, beside => node.Quiet (pauses index) p.vaultState beside ∧
    ∀ next, node.prefetchSteps (pauses index) p.vaultState beside = some (p.vaultState, next) →
      match txs with
      | [] => True
      | tx :: rest => ∀ after, node.chain.processOne header header.hash node.access index tx p = .ok after →
          QuietBeside header pauses (index + 1) rest after next

def QuietChain (pauses : Nat → Nat → Nat) : Nat → List Block → Import → Prop
  | _, [], _ => True
  | number, block :: rest, done =>
    ∀ tries, ((done.db.blocks block.header.parentHash).bind fun parent => done.db.stateAt parent.root) = some tries →
      node.QuietBeside block.header (pauses number) 0 block.txs
        ⟨new tries.1, new tries.2, block.header.gasLimit, 0, [], []⟩ (besideOf block rest tries.1) ∧
      ∀ db inserted, node.insertBeside block (pauses number) tries (besideOf block rest tries.1) done.db = some (some (db, inserted)) →
        QuietChain pauses (number + 1) rest ⟨db, done.inserted ++ [inserted], false⟩

variable {node}

theorem prefetch_one_idles {vaultState : StateDB} {p : Prefetching} (idles : node.Idles vaultState p) :
    ∃ next, node.prefetchOne vaultState p = some (vaultState, next) := by
  unfold prefetchOne
  unfold Idles at idles
  split
  · exact ⟨p, rfl⟩
  · next tx rest queued =>
      rw [queued] at idles
      unfold precacheTransaction
      cases sent : tx.asMessage with
      | none => exact ⟨_, rfl⟩
      | some msg =>
        obtain ⟨bystands, calm⟩ := idles msg sent
        have kept := transition_bystands _ msg bystands
        dsimp only at kept calm ⊢
        rw [kept]
        split
        · next crashed => exact absurd crashed calm
        · exact ⟨_, rfl⟩
        · exact ⟨_, rfl⟩

theorem quiet_steps (steps : Nat) (vaultState : StateDB) (p : Prefetching) (quiet : node.Quiet steps vaultState p) :
    ∃ next, node.prefetchSteps steps vaultState p = some (vaultState, next) := by
  induction steps generalizing p with
  | zero => exact ⟨p, rfl⟩
  | succ steps ih =>
    obtain ⟨next, one⟩ := prefetch_one_idles quiet.1
    obtain ⟨last, rest⟩ := ih next (quiet.2 next one)
    refine ⟨last, ?_⟩
    unfold prefetchSteps
    rw [one]
    exact rest

theorem process_beside {header : Header} {pauses : Nat → Nat} {index : Nat} {txs : List Transaction} {p : Chain.Processing}
    {beside : Prefetching} (quiet : node.QuietBeside header pauses index txs p beside) :
    node.processBeside header pauses index txs p beside = some (node.chain.processAll header node.access index txs p) := by
  induction txs generalizing index p beside with
  | nil =>
    obtain ⟨next, steps⟩ := quiet_steps _ _ _ quiet.1
    unfold processBeside
    rw [steps]
    rfl
  | cons tx rest ih =>
    obtain ⟨next, steps⟩ := quiet_steps _ _ _ quiet.1
    have later := quiet.2 next steps
    unfold processBeside Chain.processAll
    rw [steps]
    show (match node.chain.processOne header header.hash node.access index tx p with | .error e => _ | .ok after => _) = _
    cases one : node.chain.processOne header header.hash node.access index tx p with
    | error e => rfl
    | ok after => exact ih (later after one)

theorem quiet_disabled (header : Header) (index : Nat) (txs : List Transaction) (p : Chain.Processing) (beside : Prefetching) :
    node.QuietBeside header (fun _ => 0) index txs p beside := by
  induction txs generalizing index p beside with
  | nil => exact ⟨trivial, fun _ _ => trivial⟩
  | cons tx rest ih => exact ⟨trivial, fun next _ after _ => ih (index + 1) after next⟩

theorem insert_beside (block : Block) (pauses : Nat → Nat) (tries : Trie × Trie) (beside : Prefetching) (db : Database)
    (quiet : node.QuietBeside block.header pauses 0 block.txs
      ⟨new tries.1, new tries.2, block.header.gasLimit, 0, [], []⟩ beside) :
    node.insertBeside block pauses tries beside db = node.insertBeside block (fun _ => 0) tries beside db := by
  unfold insertBeside
  rw [process_beside quiet, process_beside (quiet_disabled _ _ _ _ _)]

theorem insert_chain_quiet {pauses : Nat → Nat → Nat} {number : Nat} {blocks : List Block} {done : Import}
    (quiet : node.QuietChain pauses number blocks done) :
    node.insertChain pauses number blocks done = node.insertChain (fun _ _ => 0) number blocks done := by
  induction blocks generalizing number done with
  | nil => rfl
  | cons block rest ih =>
    unfold insertChain
    cases opened : (done.db.blocks block.header.parentHash).bind fun parent => done.db.stateAt parent.root with
    | none => rfl
    | some tries =>
      obtain ⟨beside, later⟩ := quiet tries opened
      have same := insert_beside block (pauses number) tries (besideOf block rest tries.1) done.db beside
      dsimp only
      rw [← same]
      cases result : node.insertBeside block (pauses number) tries (besideOf block rest tries.1) done.db with
      | none => rfl
      | some outcome =>
        cases outcome with
        | none => rfl
        | some written => exact ih (later written.1 written.2 result)

end Node

-- A chain of blocks is inserted beside the prefetchers, however they are scheduled, as without them, if what they execute
-- keeps away from the vault state that they share with Process; and without them the loop is that of Process.
theorem prefetching_changes_nothing (node : Node) (pauses : Nat → Nat → Nat) (blocks : List Block) (done : Import)
    (quiet : node.QuietChain pauses 0 blocks done) :
    node.insertChain pauses 0 blocks done = node.insertChain (fun _ _ => 0) 0 blocks done ∧
    ∀ header index txs p beside, node.processBeside header (fun _ => 0) index txs p beside =
      some (node.chain.processAll header node.access index txs p) :=
  ⟨Node.insert_chain_quiet quiet, fun header index txs p beside =>
    Node.process_beside (Node.quiet_disabled header index txs p beside)⟩

def accountRoot (account : Account) : Hash :=
  1 + BitVec.ofNat 256 account.nonce + 2 ^ 8 * BitVec.ofNat 256 (account.code.headD 0).toNat + 2 ^ 16 * BitVec.ofInt 256 account.balance
    + 2 ^ 48 * BitVec.ofInt 256 account.smiloPay

def forkChain : Chain :=
  { idleChain true true true fun _ contract => .stop contract.code with
    trieHash := fun trie =>
      let root a := ((trie a).map accountRoot).getD 0
      2 * (root 1 + 2 ^ 80 * root 2 + 2 ^ 160 * root 7) + 1 }

def forkNode : Node where
  chain := forkChain
  createBloom _ := 0
  deriveSha _ := 0
  access tx := .payload [if tx.hash = 1 then 1 else 2]
  coinbase := 7
  heap := ⟨id, unsorted⟩

def forkGenesis : Genesis := ⟨⟨⟨1, 0, 4, 0, 0, 100000, 7, 7⟩, 56294995355238400003, 0, 0, 0, []⟩, holder 1 100000 100000⟩

def emptyBlock : Block := ⟨⟨2, 1, 5, 0, 0, 100000, 0, 7⟩, 56294995355238400003, 0, 0, 0, []⟩

def publicTransaction (recipient : Option Address) : Transaction where
  hash := 9
  sender := some 1
  recipient := recipient
  nonce := 0
  gasPrice := 1
  gas := 60000
  value := 0
  data := [5]
  isVault := false
  isProtected := true

def followupBlock (recipient : Option Address) : Block :=
  ⟨⟨3, 2, 6, 0, 0, 100000, 7, 7⟩, 3099685824009907353023938565, 53268, 0, 0, [publicTransaction recipient]⟩

def importStart : Import := ⟨(forkGenesis.system forkNode).db, [], false⟩

def oneStep (number _ : Nat) : Nat := if number = 0 then 1 else 0

theorem prefetching_changes_nothing_call : forkNode.insertChain oneStep 0 [emptyBlock, followupBlock (some 1)] importStart =
      forkNode.insertChain (fun _ _ => 0) 0 [emptyBlock, followupBlock (some 1)] importStart := by
  refine (prefetching_changes_nothing forkNode oneStep [emptyBlock, followupBlock (some 1)] importStart ?_).1
  intro tries opened
  have stored : importStart.db.blocks emptyBlock.header.parentHash = some forkGenesis.block := rfl
  have known := genesis_state_at forkNode forkGenesis (by decide +kernel) (by decide)
  rw [stored, Option.bind_some] at opened
  obtain rfl := Option.some.inj (opened.symm.trans known)
  refine ⟨⟨⟨?_, fun _ _ => trivial⟩, fun _ _ => trivial⟩, fun db inserted _ tries _ => ⟨?_, fun _ _ _ => trivial⟩⟩
  · intro msg sent
    obtain rfl := Option.some.inj sent
    refine ⟨.inr (.inr ?_), by decide +kernel⟩
    rw [if_neg (by decide)]
    exact ⟨1, rfl, by decide +kernel, by decide +kernel⟩
  · exact Node.quiet_disabled _ _ _ _ _

theorem prefetched_creation_changes_vault_root :
    (forkNode.insertChain (fun _ _ => 0) 0 [emptyBlock, followupBlock none] importStart).map
        (fun done => (done.inserted.map (·.vaultRoot), done.stopped)) = some ([1, 1], false) ∧
    (forkNode.insertChain oneStep 0 [emptyBlock, followupBlock none] importStart).map
        (fun done => (done.inserted.map (·.vaultRoot), done.stopped)) =
      some ([3099685801491909203946635265, 3099685801491909203946635265], false) := by
  decide +kernel

end Didux.Miner
