import Didux.Core.Invariant
import Didux.Core.Replay
import Didux.Vm.Logs

set_option autoImplicit false

namespace Didux.Core

open Sport State Vm Vm.Prog Program List
open Function (update update_self update_of_ne update_eq_self)

structure Ready (place : Place) (s : StateDB) : Prop where
  journal : s.entries = []
  thash : s.thash = place.thash
  bhash : s.bhash = place.bhash
  txIndex : s.txIndex = place.txIndex
  fresh : s.logs place.thash = []

theorem ready_recorded {place : Place} {s : StateDB} (ready : Ready place s) : Recorded place s.logs s.logSize [] s := by
  have start := recorded_start s place.blockNumber (by rw [ready.journal]; rfl)
  rwa [ready.thash, ready.bhash, ready.txIndex] at start

structure Logged (place : Place) (contents : List Content) (s t : StateDB) : Prop where
  logs : t.logs = update s.logs place.thash (place.stamp s.logSize contents)
  logSize : t.logSize = s.logSize + contents.length
  journal : t.entries = []

namespace Chain

variable (chain : Chain)

theorem finish_logged {place : Place} {contents : List Content} {s t : StateDB} (header : Header) (ready : Ready place s)
    (recorded : Recorded place s.logs s.logSize contents t) : Logged place contents s (chain.finish header t).2 := by
  have logs := recorded.logs
  rw [ready.fresh] at logs
  unfold finish
  split
  · exact ⟨logs, recorded.logSize, rfl⟩
  · exact ⟨logs, recorded.logSize, rfl⟩

structure Round where
  tx : Transaction
  receipt : Receipt
  vaultReceipt : Option Receipt
  contents : List Content

namespace Round

variable (round : Round)

def merged : Receipt := round.vaultReceipt.getD round.receipt

def on (vault : Bool) : List Content := if round.vaultReceipt.isSome = vault then round.contents else []

structure Sound : Prop where
  hash : round.receipt.txHash = round.tx.hash
  kind : round.vaultReceipt.isSome = (chain.isSmilo && round.tx.isVault)
  bloom : round.receipt.bloom = chain.bloomOf round.receipt.logs
  publicLogs : round.receipt.logs.map Log.content = round.on false
  vault : ∀ r, round.vaultReceipt = some r → r.txHash = round.tx.hash ∧ r.bloom = chain.bloomOf r.logs ∧
    r.logs.map Log.content = round.on true ∧ r.cumulativeGasUsed = round.receipt.cumulativeGasUsed ∧
    r.postState.isSome = round.receipt.postState.isSome ∧ round.receipt.failed = false

end Round

theorem merged_contents {round : Round} (sound : round.Sound chain) : round.merged.logs.map Log.content = round.contents := by
  unfold Round.merged
  cases vault : round.vaultReceipt with
  | none =>
    have logs := sound.publicLogs
    simpa [Round.on, vault] using logs
  | some r =>
    obtain ⟨_, _, logs, _⟩ := sound.vault r vault
    simpa [Round.on, vault] using logs

section Apply

variable (header : Header) (coinbase : Address) (tx : Transaction) (access : VaultAccess) (s v : StateDB) (gp usedGas : Nat)
  (place : Place) (here : place.thash = tx.hash) (number : place.blockNumber = uint64 header.number)
  (ready : Ready place s) (readyVault : Ready place v)

-- A public message adds its logs to the one state there is, a vault message to the vault state.
include number ready in
theorem public_message_recorded (msg : Message) :
    let evm := (runIn (chain.context header coinbase msg) (transitionDb (chain.context header coinbase msg) msg access gp)
      (EVM.newEVM s none)).2
    evm.vaultState = none ∧ ∃ contents, Recorded place s.logs s.logSize contents evm.publicState := by
  have inv : Invariant (chain.context header coinbase msg).evm (LogsAlone place s.logs s.logSize) := logs_alone_invariant number
  obtain ⟨⟨alone, recorded⟩, _⟩ := transition_maintains msg inv access gp (EVM.newEVM s none)
    ⟨⟨rfl, _, ready_recorded ready⟩, room_start s none⟩
  exact ⟨alone, recorded⟩

include number ready readyVault in
theorem vault_message_recorded (msg : Message) :
    let evm := (runIn (chain.context header coinbase msg) (transitionDb (chain.context header coinbase msg) msg access gp)
      (EVM.newEVM s (some v))).2
    Recorded place s.logs s.logSize [] evm.publicState ∧
    ∃ w contents, evm.vaultState = some w ∧ Recorded place v.logs v.logSize contents w := by
  have inv : Invariant (chain.context header coinbase msg).evm (LogsApart place place s.logs v.logs s.logSize v.logSize) :=
    logs_apart_invariant number rfl
  have room := room_start s (some v)
  obtain ⟨⟨_, quiet, recorded⟩, _⟩ := transition_maintains msg inv access gp (EVM.newEVM s (some v))
    ⟨⟨room.disciplined.guarded, ready_recorded ready, v, [], rfl, ready_recorded readyVault⟩, room⟩
  exact ⟨quiet, recorded⟩

include readyVault in
theorem untouched_logged : Logged place [] v v where
  logs := by rw [Place.stamp, ← readyVault.fresh, update_eq_self]
  logSize := rfl
  journal := readyVault.journal

include here ready in
theorem finish_get_logs {contents : List Content} {t : StateDB} (recorded : Recorded place s.logs s.logSize contents t) :
    (chain.finish header t).2.getLogs tx.hash = place.stamp s.logSize contents := by
  rw [StateDB.getLogs, (finish_logged chain header ready recorded).logs, here, update_self]

theorem finish_rooted (t : StateDB) : (chain.finish header s).1.isSome = (chain.finish header t).1.isSome := by
  unfold finish
  split <;> rfl

include here number ready readyVault in
theorem apply_round (receipts : Receipts)
    (ok : (chain.applyTransaction header coinbase tx access s v gp usedGas).result = .ok receipts) :
    let applied := chain.applyTransaction header coinbase tx access s v gp usedGas
    ∃ round : Round, round.tx = tx ∧ round.receipt = receipts.receipt ∧ round.vaultReceipt = receipts.vaultReceipt ∧
      round.Sound chain ∧ Logged place (round.on false) s applied.publicState ∧ Logged place (round.on true) v applied.vaultState ∧
      round.receipt.logs = place.stamp s.logSize (round.on false) ∧
      ∀ r, round.vaultReceipt = some r → r.logs = place.stamp v.logSize (round.on true) := by
  rcases apply_cases chain tx with ⟨_, refused⟩ | ⟨msg, runs⟩
  · rw [refused] at ok
    contradiction
  rw [apply_runs chain _ _ tx msg _ _ _ _ _ runs] at ok ⊢
  cases isVault : chain.isSmilo && tx.isVault with
  | false =>
    rw [isVault] at ok
    obtain ⟨alone, contents, recorded⟩ := public_message_recorded chain header coinbase access s gp place number ready msg
    simp only [Bool.false_eq_true, if_false] at ok ⊢
    generalize runIn _ _ _ = ran at ok alone recorded ⊢
    unfold afterMessage at ok ⊢
    cases result : ran.1.result with
    | error e =>
      rw [result] at ok
      contradiction
    | ok done =>
      rw [result] at ok
      obtain rfl := Except.ok.inj ok
      have logs := finish_get_logs chain header tx s place here ready recorded
      refine ⟨⟨tx, _, none, contents⟩, rfl, rfl, rfl, ⟨rfl, isVault.symm, rfl, ?_, nofun⟩, ?_, ?_, logs, nofun⟩
      · exact (congrArg (map Log.content) logs).trans (map_content_stamp place _ _)
      · exact finish_logged chain header ready recorded
      · rw [alone]
        exact untouched_logged v place readyVault
  | true =>
    rw [isVault] at ok
    obtain ⟨quiet, w, contents, apart, recorded⟩ :=
      vault_message_recorded chain header coinbase access s v gp place number ready readyVault msg
    simp only [if_true] at ok ⊢
    generalize runIn _ _ _ = ran at ok quiet apart ⊢
    unfold afterMessage at ok ⊢
    rw [apart] at ok ⊢
    cases result : ran.1.result with
    | error e =>
      rw [result] at ok
      contradiction
    | ok done =>
      rw [result] at ok
      obtain rfl := Except.ok.inj ok
      have logs := finish_get_logs chain header tx s place here ready quiet
      have vaultLogs := finish_get_logs chain header tx v place here readyVault recorded
      refine ⟨⟨tx, _, some _, contents⟩, rfl, rfl, rfl, ⟨rfl, isVault.symm, rfl, ?_, ?_⟩, ?_, ?_, logs, ?_⟩
      · exact congrArg (map Log.content) logs
      · intro r same
        obtain rfl := Option.some.inj same
        exact ⟨rfl, rfl, (congrArg (map Log.content) vaultLogs).trans (map_content_stamp place _ _), rfl,
          finish_rooted chain header _ _, rfl⟩
      · exact finish_logged chain header ready quiet
      · exact finish_logged chain header readyVault recorded
      · intro r same
        obtain rfl := Option.some.inj same
        exact vaultLogs

end Apply

section Held

variable (header : Header) (coinbase : Address) (tx : Transaction) (access : VaultAccess) (s v base vaultBase : StateDB)
  (gp usedGas : Nat)
  (held : Held Set.univ base s) (vaultHeld : Held Set.univ vaultBase v)

include held vaultHeld in
theorem apply_error_held (e : TxError) (failed : (chain.applyTransaction header coinbase tx access s v gp usedGas).result = .error e) :
    let applied := chain.applyTransaction header coinbase tx access s v gp usedGas
    Held Set.univ base applied.publicState ∧ Held Set.univ vaultBase applied.vaultState := by
  rcases apply_cases chain tx with ⟨_, refused⟩ | ⟨msg, runs⟩
  · rw [refused]
    exact ⟨held, vaultHeld⟩
  rw [apply_runs chain _ _ tx msg _ _ _ _ _ runs] at failed ⊢
  have start : HoldsBoth base vaultBase (EVM.newEVM s (if chain.isSmilo && tx.isVault then some v else none)) := by
    refine ⟨held, ?_⟩
    intro w vault
    cases isVault : chain.isSmilo && tx.isVault with
    | false =>
      rw [isVault] at vault
      contradiction
    | true =>
      rw [isVault] at vault
      exact Option.some.inj vault ▸ vaultHeld
  have ends : HoldsBoth base vaultBase (runIn (chain.context header coinbase msg)
      (transitionDb (chain.context header coinbase msg) msg access gp) _).2 :=
    (transition_maintains msg (holds_both_invariant (chain.context header coinbase msg).evm base vaultBase) access gp _
      ⟨start, room_start _ _⟩).1
  generalize runIn _ _ _ = ran at failed ends ⊢
  unfold afterMessage at failed ⊢
  cases result : ran.1.result with
  | ok done =>
    rw [result] at failed
    contradiction
  | error found =>
    refine ⟨ends.publicState, ?_⟩
    cases vault : ran.2.vaultState with
    | none => exact vaultHeld
    | some w => exact ends.vaultState w vault

omit held vaultHeld in
theorem apply_public_vault (plain : (chain.isSmilo && tx.isVault) = false) :
    (chain.applyTransaction header coinbase tx access s v gp usedGas).vaultState = v := by
  rcases apply_cases chain tx with ⟨_, refused⟩ | ⟨msg, runs⟩
  · rw [refused]
  rw [apply_runs chain _ _ tx msg _ _ _ _ _ runs, plain]
  have alone : (runIn (chain.context header coinbase msg) (transitionDb (chain.context header coinbase msg) msg access gp)
      (EVM.newEVM s none)).2.vaultState = none :=
    (transition_maintains msg (alone_invariant (chain.context header coinbase msg).evm) access gp _ ⟨rfl, room_start s none⟩).1
  simp only [Bool.false_eq_true, if_false]
  generalize runIn _ _ _ = ran at alone ⊢
  unfold afterMessage
  rw [alone]
  cases ran.1.result with
  | error e => rfl
  | ok done => rfl

theorem apply_ok_ranked (ranked : Ranked v) (receipts : Receipts)
    (ok : (chain.applyTransaction header coinbase tx access s v gp usedGas).result = .ok receipts) :
    let applied := chain.applyTransaction header coinbase tx access s v gp usedGas
    Ranked applied.publicState ∧ Ranked applied.vaultState := by
  have cleared : ∀ t : StateDB, Ranked (chain.finish header t).2 := by
    intro t
    apply ranked_cleared
    unfold finish
    split <;> rfl
  refine ⟨ranked_cleared (apply_ok_revisions chain header coinbase tx access s v gp usedGas receipts ok), ?_⟩
  cases isVault : chain.isSmilo && tx.isVault with
  | false =>
    rw [apply_public_vault chain header coinbase tx access s v gp usedGas isVault]
    exact ranked
  | true =>
    rcases apply_cases chain tx with ⟨_, refused⟩ | ⟨msg, runs⟩
    · rw [refused] at ok
      contradiction
    rw [apply_runs chain _ _ tx msg _ _ _ _ _ runs, isVault] at ok ⊢
    unfold afterMessage at ok ⊢
    generalize runIn _ _ _ = ran at ok ⊢
    cases result : ran.1.result with
    | error e =>
      rw [result] at ok
      contradiction
    | ok done => exact cleared _

end Held

-- The logs of a part of some rounds, numbered through from `start` on, for transactions from `index` on.
def numbered (bhash : Hash) (blockNumber : Nat) (part : Round → List Content) : Nat → Nat → List Round → List Log
  | _, _, [] => []
  | index, start, round :: rest => Place.stamp ⟨round.tx.hash, bhash, index, blockNumber⟩ start (part round) ++
      numbered bhash blockNumber part (index + 1) (start + (part round).length) rest

section

variable (bhash : Hash) (blockNumber : Nat) (part : Round → List Content) (index start : Nat) (rounds : List Round)

theorem numbered_append (more : List Round) : numbered bhash blockNumber part index start (rounds ++ more) =
      numbered bhash blockNumber part index start rounds ++
        numbered bhash blockNumber part (index + rounds.length) (start + (rounds.flatMap part).length) more := by
  induction rounds generalizing index start with
  | nil => rfl
  | cons round rest ih =>
    simp only [cons_append, numbered, ih, length_cons, flatMap_cons, length_append, append_assoc]
    congr 3 <;> omega

theorem numbered_indices :
    (numbered bhash blockNumber part index start rounds).map Log.index = range' start (rounds.flatMap part).length := by
  induction rounds generalizing index start with
  | nil => rfl
  | cons round rest ih =>
    rw [numbered, map_append, indices_stamp, ih, flatMap_cons, length_append, range'_append_1]

theorem numbered_silent (silent : ∀ round ∈ rounds, part round = [])
    : numbered bhash blockNumber part index start rounds = [] := by
  induction rounds generalizing index start with
  | nil => rfl
  | cons round rest ih =>
    rw [numbered, silent round mem_cons_self, ih _ _ fun other member => silent other (mem_cons_of_mem _ member)]
    rfl

theorem numbered_congr (other : Round → List Content) (index start : Nat) (rounds : List Round)
    (same : ∀ round ∈ rounds, part round = other round) :
    numbered bhash blockNumber part index start rounds = numbered bhash blockNumber other index start rounds := by
  induction rounds generalizing index start with
  | nil => rfl
  | cons round rest ih =>
    rw [numbered, numbered, same round mem_cons_self, ih _ _ fun next member => same next (mem_cons_of_mem _ member)]

theorem numbered_first (loud : ∃ round ∈ rounds, part round ≠ []) :
    ∃ log ∈ numbered bhash blockNumber part index start rounds, log.index = start ∧
      ∃ i round, rounds[i]? = some round ∧ part round ≠ [] ∧ log.txIndex = index + i := by
  induction rounds generalizing index with
  | nil => simp at loud
  | cons round rest ih =>
    cases own : part round with
    | nil =>
      obtain ⟨other, member, some⟩ := loud
      obtain rfl | member := mem_cons.mp member
      · contradiction
      · obtain ⟨log, there, first, i, round', found, some, place⟩ := ih (index + 1) ⟨other, member, some⟩
        refine ⟨log, ?_, first, i + 1, round', found, some, by omega⟩
        rw [numbered, own]
        exact there
    | cons content contents =>
      refine ⟨Place.log ⟨round.tx.hash, bhash, index, blockNumber⟩ start content, ?_, rfl, 0, round, rfl, by simp [own], rfl⟩
      rw [numbered, own]
      exact mem_append_left _ mem_cons_self

structure Tracks (bhash : Hash) (blockNumber : Nat) (part : Round → List Content) (rounds : List Round) (s : StateDB) : Prop where
  fresh : ∀ hash, hash ∉ rounds.map (fun round => round.tx.hash) → s.logs hash = []
  logs : ∀ log, (∃ hash, log ∈ s.logs hash) ↔ log ∈ numbered bhash blockNumber part 0 0 rounds
  logSize : s.logSize = (rounds.flatMap part).length
  journal : s.entries = []

end

section Tracks

variable {bhash : Hash} {blockNumber : Nat} {part : Round → List Content} {rounds : List Round} {s t : StateDB}

theorem tracks_new (trie : Address → Option Account) : Tracks bhash blockNumber part [] (StateDB.new trie) where
  fresh _ _ := rfl
  logs log := by simp [StateDB.new, numbered]
  logSize := rfl
  journal := rfl

variable (tracks : Tracks bhash blockNumber part rounds s)

include tracks

theorem tracks_prepare (hash : Hash) (new : hash ∉ rounds.map (fun round => round.tx.hash)) :
    Ready ⟨hash, bhash, rounds.length, blockNumber⟩ (s.prepare hash bhash rounds.length) where
  journal := tracks.journal
  thash := rfl
  bhash := rfl
  txIndex := rfl
  fresh := tracks.fresh hash new

theorem tracks_step (round : Round) (new : round.tx.hash ∉ rounds.map (fun round => round.tx.hash))
    (logged : Logged ⟨round.tx.hash, bhash, rounds.length, blockNumber⟩ (part round) s t) :
    Tracks bhash blockNumber part (rounds ++ [round]) t where
  fresh hash absent := by
    rw [map_append, mem_append, not_or, map_singleton, mem_singleton] at absent
    rw [logged.logs, update_of_ne absent.2]
    exact tracks.fresh hash absent.1
  logs log := by
    have here : s.logs round.tx.hash = [] := tracks.fresh _ new
    rw [numbered_append, mem_append, ← tracks.logs, numbered, numbered, append_nil, Nat.zero_add, Nat.zero_add,
      ← tracks.logSize]
    constructor
    · rintro ⟨hash, member⟩
      rw [logged.logs] at member
      by_cases same : hash = round.tx.hash
      · subst same
        exact .inr (by rwa [update_self] at member)
      · exact .inl ⟨hash, by rwa [update_of_ne same] at member⟩
    · rintro (⟨hash, member⟩ | member)
      · have other : hash ≠ round.tx.hash := by
          rintro rfl
          rw [here] at member
          exact nomatch member
        exact ⟨hash, by rwa [logged.logs, update_of_ne other]⟩
      · exact ⟨round.tx.hash, by rwa [logged.logs, update_self]⟩
  logSize := by rw [logged.logSize, tracks.logSize, flatMap_append, length_append, flatMap_singleton]
  journal := logged.journal

theorem tracks_logging (logs : t.logs = s.logs) (logSize : t.logSize = s.logSize) (journal : t.entries = []) :
    Tracks bhash blockNumber part rounds t :=
  ⟨logs ▸ tracks.fresh, logs ▸ tracks.logs, logSize.trans tracks.logSize, journal⟩

end Tracks

structure Ledger (bhash : Hash) (blockNumber : Nat) (rounds : List Round) (publicState vaultState : StateDB)
    (receipts vaultReceipts : List Receipt) : Prop where
  sound : ∀ round ∈ rounds, round.Sound chain
  publicState : Tracks bhash blockNumber (Round.on · false) rounds publicState
  vaultState : Tracks bhash blockNumber (Round.on · true) rounds vaultState
  listed : receipts = rounds.map Round.receipt
  vaultListed : vaultReceipts = rounds.filterMap Round.vaultReceipt
  logs : receipts.flatMap Receipt.logs = numbered bhash blockNumber (Round.on · false) 0 0 rounds
  vaultLogs : vaultReceipts.flatMap Receipt.logs = numbered bhash blockNumber (Round.on · true) 0 0 rounds

section Ledger

variable {chain} {bhash : Hash} {rounds : List Round} {publicState vaultState : StateDB} {receipts vaultReceipts : List Receipt}

theorem ledger_new (blockNumber : Nat) (publicTrie vaultTrie : Address → Option Account) :
    Ledger chain bhash blockNumber [] (StateDB.new publicTrie) (StateDB.new vaultTrie) [] [] :=
  ⟨nofun, tracks_new _, tracks_new _, rfl, rfl, rfl, rfl⟩

theorem vault_receipt_logs {round : Round} {place : Place} {v : StateDB}
    (logs : ∀ r, round.vaultReceipt = some r → r.logs = place.stamp v.logSize (round.on true)) :
    round.vaultReceipt.toList.flatMap Receipt.logs = place.stamp v.logSize (round.on true) := by
  cases vault : round.vaultReceipt with
  | none => simp [Round.on, vault, Place.stamp]
  | some r => simpa using logs r vault

theorem ledger_apply (header : Header) (coinbase : Address) (tx : Transaction) (access : VaultAccess) (gp usedGas : Nat)
    (ledger : Ledger chain bhash (uint64 header.number) rounds publicState vaultState receipts vaultReceipts)
    (new : tx.hash ∉ rounds.map fun round => round.tx.hash) (s v : StateDB)
    (ready : Ready ⟨tx.hash, bhash, rounds.length, uint64 header.number⟩ s) (logs : s.logs = publicState.logs)
    (logSize : s.logSize = publicState.logSize)
    (readyVault : Ready ⟨tx.hash, bhash, rounds.length, uint64 header.number⟩ v) (vaultLogs : v.logs = vaultState.logs)
    (vaultSize : v.logSize = vaultState.logSize) (done : Receipts)
    (ok : (chain.applyTransaction header coinbase tx access s v gp usedGas).result = .ok done) :
    let applied := chain.applyTransaction header coinbase tx access s v gp usedGas
    ∃ round : Round, round.tx = tx ∧ round.receipt = done.receipt ∧ round.vaultReceipt = done.vaultReceipt ∧
      Ledger chain bhash (uint64 header.number) (rounds ++ [round]) applied.publicState applied.vaultState
        (receipts ++ [done.receipt]) (vaultReceipts ++ done.vaultReceipt.toList) := by
  have tracks := tracks_logging ledger.publicState logs logSize ready.journal
  have vaultTracks := tracks_logging ledger.vaultState vaultLogs vaultSize readyVault.journal
  obtain ⟨round, rfl, first, second, sound, logged, vaultLogged, here, there⟩ :=
    apply_round chain header coinbase tx access s v gp usedGas _ rfl rfl ready readyVault done ok
  refine ⟨round, rfl, first, second, ?_⟩
  rw [← first, ← second]
  have added := vault_receipt_logs there
  rw [vaultTracks.logSize] at added
  rw [tracks.logSize] at here
  refine ⟨?_, tracks_step tracks round new logged, tracks_step vaultTracks round new vaultLogged, ?_, ?_, ?_, ?_⟩
  · intro other member
    rcases mem_append.mp member with old | last
    · exact ledger.sound other old
    · exact mem_singleton.mp last ▸ sound
  · rw [ledger.listed, map_append, map_singleton]
  · rw [ledger.vaultListed]
    cases vault : round.vaultReceipt <;> simp [vault]
  · rw [flatMap_append, ledger.logs, numbered_append, flatMap_singleton, here, numbered, numbered, append_nil,
      Nat.zero_add, Nat.zero_add]
  · rw [flatMap_append, ledger.vaultLogs, numbered_append, added, numbered, numbered, append_nil, Nat.zero_add,
      Nat.zero_add]

theorem process_one_ledger (header : Header) (access : Transaction → VaultAccess) (tx : Transaction) (p next : Processing)
    (ledger : Ledger chain bhash (uint64 header.number) rounds p.publicState p.vaultState p.receipts p.vaultReceipts)
    (new : tx.hash ∉ rounds.map fun round => round.tx.hash)
    (ran : chain.processOne header bhash access rounds.length tx p = .ok next) :
    ∃ round : Round, round.tx = tx ∧ next.receipts = p.receipts ++ [round.receipt] ∧
      next.vaultReceipts = p.vaultReceipts ++ round.vaultReceipt.toList ∧
      Ledger chain bhash (uint64 header.number) (rounds ++ [round]) next.publicState next.vaultState next.receipts
        next.vaultReceipts := by
  unfold processOne at ran
  dsimp only at ran
  split at ran
  · contradiction
  · next done ok =>
      obtain rfl := Except.ok.inj ran
      obtain ⟨round, same, first, second, after⟩ := ledger_apply header header.author tx (access tx) p.gp p.usedGas ledger new
        _ _ (tracks_prepare ledger.publicState tx.hash new) rfl rfl (tracks_prepare ledger.vaultState tx.hash new) rfl rfl done ok
      exact ⟨round, same, first ▸ rfl, second ▸ rfl, after⟩

theorem process_all_ledger (header : Header) (access : Transaction → VaultAccess) (txs : List Transaction) (p last : Processing)
    (rounds : List Round)
    (ledger : Ledger chain header.hash (uint64 header.number) rounds p.publicState p.vaultState p.receipts p.vaultReceipts)
    (distinct : ((rounds.map Round.tx ++ txs).map Transaction.hash).Nodup)
    (ran : chain.processAll header access rounds.length txs p = .ok last) : ∃ more : List Round, more.map Round.tx = txs ∧
      Ledger chain header.hash (uint64 header.number) (rounds ++ more) last.publicState last.vaultState last.receipts
        last.vaultReceipts := by
  induction txs generalizing p rounds with
  | nil =>
    obtain rfl := Except.ok.inj ran
    exact ⟨[], rfl, by rwa [append_nil]⟩
  | cons tx rest ih =>
    unfold processAll at ran
    split at ran
    · contradiction
    · next next one =>
        have new : tx.hash ∉ rounds.map fun round => round.tx.hash := by
          rw [map_append, map_map] at distinct
          exact fun member => (nodup_append.mp distinct).2.2 _ member _ mem_cons_self rfl
        obtain ⟨round, rfl, -, -, after⟩ := process_one_ledger header access tx p next ledger new one
        have shape : rounds.map Round.tx ++ round.tx :: rest = (rounds ++ [round]).map Round.tx ++ rest := by simp
        rw [shape] at distinct
        have length : rounds.length + 1 = (rounds ++ [round]).length := by simp
        rw [length] at ran
        obtain ⟨more, same, done⟩ := ih next (rounds ++ [round]) after distinct ran
        exact ⟨round :: more, congrArg (round.tx :: ·) same, by rwa [append_assoc] at done⟩

end Ledger

end Chain

end Didux.Core
