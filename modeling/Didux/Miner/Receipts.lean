import Didux.Core.Receipts
import Didux.Miner.Logs
import Didux.Miner.Node

set_option autoImplicit false

namespace Didux.Core

open Sport State

-- The worker fills in the hash of its block in the logs once it is known.
def Receipt.setBlockHash (hash : Hash) (r : Receipt) : Receipt := { r with logs := r.logs.map (Log.stamped fun _ => hash) }

namespace Chain

variable (chain : Chain)

def roundLogs (before after : Processing) : List Log :=
  (after.receipts.drop before.receipts.length ++ after.vaultReceipts.drop before.vaultReceipts.length).flatMap Receipt.logs

def processLogs (header : Header) (access : Transaction → VaultAccess) : Nat → List Transaction → Processing → List Log
  | _, [], _ => []
  | index, tx :: rest, p => match chain.processOne header header.hash access index tx p with
    | .error _ => []
    | .ok next => roundLogs p next ++ processLogs header access (index + 1) rest next

end Chain

end Didux.Core

namespace Didux.Miner

open Sport State Vm Didux.Core Core.Chain

structure Outcome where
  block : Block
  receipts : List Receipt
  vaultReceipts : List Receipt
  logs : Set Log

namespace Outcome

variable (o : Outcome)

def allReceipts : List Receipt := mergeReceipts o.receipts o.vaultReceipts

def stored : List StoredReceiptRLP := o.allReceipts.map Receipt.encodeForStorage

def read (chain : Chain) : Option (List Receipt) :=
  chain.readReceipts o.block.header.hash (uint64 o.block.header.number) o.block.txs o.stored

end Outcome

namespace System

variable (node : Node) (s : System)

-- The part of insertChain and of the worker's wait that has to do with receipts. Logs() goes through a map, so that the
-- order of what the worker announces is not determined.
def outcome : Event → Option Outcome
  | .insert block => do
      let parent ← s.db.blocks block.header.parentHash
      let tries ← s.db.stateAt parent.root
      match node.chain.process block.header node.access block.txs (StateDB.new tries.1) (StateDB.new tries.2) with
      | .error _ => none
      | .ok p =>
        let start : Processing := ⟨StateDB.new tries.1, StateDB.new tries.2, block.header.gasLimit, 0, [], []⟩
        (node.validateState block p).map fun _ =>
          ⟨block, p.receipts, p.vaultReceipts, {log | log ∈ node.chain.processLogs block.header node.access 0 block.txs start}⟩
  | .sealed index hash author =>
    s.tasks[index]?.map fun task =>
      ⟨task.sealed hash author, task.work.receipts.map (Receipt.setBlockHash hash),
        task.work.vaultReceipts.map (Receipt.setBlockHash hash),
        {log | ∃ thash old, (old ∈ task.work.state.logs thash ∨ old ∈ task.work.vaultState.logs thash) ∧
          log = old.stamped fun _ => hash}⟩
  | .begin _ _ _ => none

end System

-- handleMsg, for one hash of a GetReceiptsMsg: a block without receipts may be answered without reading any.
def serveReceipts (sha : List ReceiptRLP → Hash) (receiptHash : Hash) : Option (List Receipt) → Option (List ReceiptRLP)
  | some results => some (results.map Receipt.encodeRLP)
  | none => if receiptHash = sha [] then some [] else none

def acceptsReceipts (sha : List ReceiptRLP → Hash) (receiptHash : Hash) (answer : List ReceiptRLP) : Prop :=
  sha ((answer.map decodeReceiptRLP).map Receipt.encodeRLP) = receiptHash

structure Settled (node : Node) (o : Outcome) (rounds : List Round) : Prop where
  txs : o.block.txs = rounds.map Round.tx
  sound : ∀ round ∈ rounds, round.Sound node.chain
  receipts : o.receipts = rounds.map Round.receipt
  vaultReceipts : o.vaultReceipts = rounds.filterMap Round.vaultReceipt
  header : ∃ original, o.block.receiptHash = node.deriveSha original ∧ o.block.bloom = node.createBloom original ∧
    original.map Receipt.encodeRLP = o.receipts.map Receipt.encodeRLP
  logs : ∀ log, log ∈ o.logs ↔
    log ∈ numbered o.block.header.hash (uint64 o.block.header.number) (Round.on · false) 0 0 rounds ∨
    log ∈ numbered o.block.header.hash (uint64 o.block.header.number) (Round.on · true) 0 0 rounds

section Process

variable {chain : Chain}

theorem process_logs_ledger (header : Header) (access : Transaction → VaultAccess) (txs : List Transaction) (p last : Processing)
    (rounds : List Round)
    (ledger : Ledger chain header.hash (uint64 header.number) rounds p.publicState p.vaultState p.receipts p.vaultReceipts)
    (distinct : ((rounds.map Round.tx ++ txs).map Transaction.hash).Nodup)
    (ran : chain.processAll header access rounds.length txs p = .ok last) (log : Log) :
    (log ∈ p.receipts.flatMap Receipt.logs ∨ log ∈ p.vaultReceipts.flatMap Receipt.logs) ∨
      log ∈ chain.processLogs header access rounds.length txs p ↔
    log ∈ last.receipts.flatMap Receipt.logs ∨ log ∈ last.vaultReceipts.flatMap Receipt.logs := by
  induction txs generalizing p rounds with
  | nil =>
    obtain rfl := Except.ok.inj ran
    simp [processLogs]
  | cons tx rest ih =>
    cases one : chain.processOne header header.hash access rounds.length tx p with
    | error e => simp [processAll, one] at ran
    | ok next =>
      simp only [processAll, one] at ran
      simp only [processLogs, one]
      have new : tx.hash ∉ rounds.map fun round => round.tx.hash := by
        rw [List.map_append, List.map_map] at distinct
        exact fun member => (List.nodup_append.mp distinct).2.2 _ member _ List.mem_cons_self rfl
      obtain ⟨round, rfl, receipts, vaultReceipts, after⟩ := process_one_ledger header access tx p next ledger new one
      have shape : rounds.map Round.tx ++ round.tx :: rest = (rounds ++ [round]).map Round.tx ++ rest := by simp
      rw [shape] at distinct
      have length : rounds.length + 1 = (rounds ++ [round]).length := by simp
      rw [length] at ran ⊢
      rw [← ih next (rounds ++ [round]) after distinct ran]
      have added : roundLogs p next = round.receipt.logs ++ round.vaultReceipt.toList.flatMap Receipt.logs := by
        simp [roundLogs, receipts, vaultReceipts]
      simp only [added, receipts, vaultReceipts, List.mem_append, List.flatMap_append, List.flatMap_singleton]
      tauto

end Process

section Insert

variable {node : Node}

theorem settled_insert {s : System} {block : Block} {o : Outcome} (outcome : s.outcome node (.insert block) = some o)
    (distinct : (o.block.txs.map Transaction.hash).Nodup) : ∃ rounds, Settled node o rounds := by
  obtain ⟨parent, -, outcome⟩ := Option.bind_eq_some_iff.mp outcome
  obtain ⟨tries, -, outcome⟩ := Option.bind_eq_some_iff.mp outcome
  split at outcome
  · contradiction
  · next p processed =>
      obtain ⟨states, validated, rfl⟩ := Option.map_eq_some_iff.mp outcome
      unfold Node.validateState at validated
      dsimp only at validated
      split at validated
      · next valid =>
          unfold process at processed
          split at processed
          · contradiction
          · next last ran =>
              obtain rfl := Except.ok.inj processed
              have start : Ledger node.chain block.header.hash (uint64 block.header.number) [] (StateDB.new tries.1)
                  (StateDB.new tries.2) [] [] := ledger_new _ tries.1 tries.2
              obtain ⟨rounds, txs, ledger⟩ := process_all_ledger block.header node.access block.txs _ last [] start distinct ran
              have logs := process_logs_ledger block.header node.access block.txs _ last [] start distinct ran
              rw [List.nil_append] at ledger
              refine ⟨rounds, txs.symm, ledger.sound, ledger.listed, ledger.vaultListed,
                ⟨last.receipts, valid.2.2.1, valid.2.1, rfl⟩, ?_⟩
              intro log
              rw [← ledger.logs, ← ledger.vaultLogs, ← logs log]
              simp
      · contradiction

end Insert

section Sealed

variable {node : Node}

variable {hash : Hash} {r : Receipt} {round : Round}

theorem set_block_hash_contents : (r.setBlockHash hash).logs.map Log.content = r.logs.map Log.content := by
  simp only [Receipt.setBlockHash, List.map_map]
  rfl

theorem set_block_hash_encode : (r.setBlockHash hash).encodeRLP = r.encodeRLP := by
  unfold Receipt.encodeRLP
  rw [set_block_hash_contents]
  rfl

def relabel (hash : Hash) (round : Round) : Round :=
  { round with receipt := round.receipt.setBlockHash hash, vaultReceipt := round.vaultReceipt.map (Receipt.setBlockHash hash) }

theorem relabel_on {vault : Bool} : (relabel hash round).on vault = round.on vault := by
  simp [Round.on, relabel]

theorem relabel_sound (sound : round.Sound node.chain) : (relabel hash round).Sound node.chain where
  hash := sound.hash
  kind := by simpa [relabel] using sound.kind
  bloom := sound.bloom.trans (bloom_contents node.chain _ _ (set_block_hash_contents).symm)
  publicLogs := by rw [relabel_on, ← sound.publicLogs]; exact set_block_hash_contents
  vault := by
    intro r there
    obtain ⟨v, vault, rfl⟩ := Option.map_eq_some_iff.mp there
    obtain ⟨named, bloom, logs, gas, rooted, ok⟩ := sound.vault v vault
    refine ⟨named, ?_, ?_, gas, rooted, ok⟩
    · exact bloom.trans (bloom_contents node.chain _ _ (set_block_hash_contents).symm)
    · rw [relabel_on, ← logs]
      exact set_block_hash_contents

theorem stamp_stamped (place : Place) (hash : Hash) (start : Nat) (contents : List Content) :
    (place.stamp start contents).map (Log.stamped fun _ => hash) = Place.stamp { place with bhash := hash } start contents := by
  induction contents generalizing start with
  | nil => rfl
  | cons content rest ih => exact congrArg (_ :: ·) (ih (start + 1))

theorem numbered_stamped (hash bhash : Hash) (blockNumber : Nat) (vault : Bool) (index start : Nat) (rounds : List Round) :
    (numbered bhash blockNumber (Round.on · vault) index start rounds).map (Log.stamped fun _ => hash) =
      numbered hash blockNumber (Round.on · vault) index start (rounds.map (relabel hash)) := by
  induction rounds generalizing index start with
  | nil => rfl
  | cons round rest ih =>
    simp only [numbered, List.map_append, stamp_stamped, ih, List.map_cons, relabel_on]
    rfl

theorem finalize_logs (chain : Chain) (header : Header) (txs : List Transaction) (s : StateDB) :
    (chain.finalize header txs s).2.logs = s.logs := by
  have rewarded : (chain.accumulateRewards header s).logging = s.logging := by
    unfold accumulateRewards
    split
    · rfl
    · dsimp only
      rw [StateDB.logging_add_balance]
      split
      · rfl
      · exact StateDB.logging_add_balance _ _ _ _ _
  unfold finalize
  show (StateDB.finalise _ _).logs = s.logs
  split
  · exact congrArg Prod.fst rewarded
  · rfl

theorem settled_task {parent : Block} {header : Header} {pending : Pending} {publicTrie vaultTrie : Trie} {task : Task}
    (committed : node.commitNewWork parent header pending publicTrie vaultTrie = some task)
    (distinct : (task.block.txs.map Transaction.hash).Nodup) {author : Address} :
    ∃ rounds, Settled node ⟨task.sealed hash author, task.work.receipts.map (Receipt.setBlockHash hash),
      task.work.vaultReceipts.map (Receipt.setBlockHash hash),
      {log | ∃ thash old, (old ∈ task.work.state.logs thash ∨ old ∈ task.work.vaultState.logs thash) ∧
        log = old.stamped fun _ => hash}⟩ rounds := by
  obtain ⟨work, done, rest⟩ := Option.bind_eq_some_iff.mp committed
  obtain rfl := Option.some.inj rest
  obtain ⟨rounds, included⟩ := included_rounds node.heap _ pending _ work [] (included_start node.chain _ publicTrie vaultTrie)
    distinct done
  have ledger := included.ledger
  refine ⟨rounds.map (relabel hash), ?_, ?_, ?_, ?_, ⟨work.receipts, rfl, rfl, ?_⟩, ?_⟩
  · rw [List.map_map]
    exact included.txs
  · intro round member
    obtain ⟨old, there, rfl⟩ := List.mem_map.mp member
    exact relabel_sound (ledger.sound old there)
  · show work.receipts.map _ = _
    rw [ledger.listed, List.map_map, List.map_map]
    rfl
  · show work.vaultReceipts.map _ = _
    rw [ledger.vaultListed, List.map_filterMap, List.filterMap_map]
    rfl
  · rw [List.map_map]
    exact (List.map_congr_left fun r _ => set_block_hash_encode).symm
  · intro log
    show _ ↔ log ∈ numbered hash _ (Round.on · false) 0 0 (rounds.map (relabel hash)) ∨
      log ∈ numbered hash _ (Round.on · true) 0 0 (rounds.map (relabel hash))
    rw [← numbered_stamped hash 0, ← numbered_stamped hash 0, List.mem_map, List.mem_map]
    have publicLogs := ledger.publicState.logs
    have vaultLogs := ledger.vaultState.logs
    have same : ∀ thash, (node.chain.finalize _ work.txs work.state).2.logs thash = work.state.logs thash :=
      fun thash => congrFun (finalize_logs node.chain { header with parentHash := parent.header.hash } work.txs work.state) thash
    constructor
    · rintro ⟨thash, old, here | there, rfl⟩
      · exact .inl ⟨old, (publicLogs old).mp ⟨thash, (same thash) ▸ here⟩, rfl⟩
      · exact .inr ⟨old, (vaultLogs old).mp ⟨thash, there⟩, rfl⟩
    · rintro (⟨old, here, rfl⟩ | ⟨old, there, rfl⟩)
      · obtain ⟨thash, member⟩ := (publicLogs old).mpr here
        exact ⟨thash, old, .inl ((same thash).symm ▸ member), rfl⟩
      · obtain ⟨thash, member⟩ := (vaultLogs old).mpr there
        exact ⟨thash, old, .inr member, rfl⟩

end Sealed

section Run

variable {node : Node} {genesis : Genesis}

def Begun (node : Node) (task : Task) : Prop :=
  ∃ parent header pending publicTrie vaultTrie, node.commitNewWork parent header pending publicTrie vaultTrie = some task

def AnyStep (node : Node) (s next : System) : Prop := ∃ event, s.apply node event = some next

theorem begun_step {s next : System} (begun : ∀ task ∈ s.tasks, Begun node task) (step : AnyStep node s next) :
    ∀ task ∈ next.tasks, Begun node task := by
  obtain ⟨event, applied⟩ := step
  cases event with
  | begin hash header pending =>
    obtain ⟨parent, -, applied⟩ := Option.bind_eq_some_iff.mp applied
    obtain ⟨tries, -, applied⟩ := Option.bind_eq_some_iff.mp applied
    obtain ⟨task, committed, applied⟩ := Option.bind_eq_some_iff.mp applied
    obtain rfl := Option.some.inj applied
    intro other member
    rcases List.mem_append.mp member with old | new
    · exact begun other old
    · exact List.mem_singleton.mp new ▸ ⟨_, _, _, _, _, committed⟩
  | insert block =>
    obtain ⟨write, -, rfl⟩ := Option.map_eq_some_iff.mp applied
    exact begun
  | sealed index hash author =>
    obtain ⟨write, -, rfl⟩ := Option.map_eq_some_iff.mp applied
    exact begun

theorem settled_outcome {s : System} (run : Relation.ReflTransGen (AnyStep node) (genesis.system node) s) {event : Event} {o : Outcome}
    (outcome : s.outcome node event = some o) (distinct : (o.block.txs.map Transaction.hash).Nodup) :
    ∃ rounds, Settled node o rounds := by
  cases event with
  | insert block => exact settled_insert outcome distinct
  | begin hash header pending => contradiction
  | sealed index hash author =>
    have begun := Runs.run_invariant (AnyStep node) (fun s => ∀ task ∈ s.tasks, Begun node task) (fun _ _ => begun_step) _ _ run nofun
    obtain ⟨task, there, rfl⟩ := Option.map_eq_some_iff.mp outcome
    obtain ⟨parent, header, pending, publicTrie, vaultTrie, committed⟩ := begun task (List.mem_of_getElem? there)
    exact settled_task committed distinct

end Run

end Didux.Miner
