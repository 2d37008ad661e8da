import Didux.Miner.Receipts

set_option autoImplicit false

namespace Didux.Miner

open Sport State Vm Didux.Core Core.Chain List Option Receipt Round Transaction

section Served

variable {node : Node} {o : Outcome} {rounds : List Round}

theorem distinct_rounds (settled : Settled node o rounds) (distinct : (o.block.txs.map hash).Nodup) :
    (rounds.map fun round => round.tx.hash).Nodup := by
  rwa [settled.txs, List.map_map] at distinct

theorem all_receipts_rounds (settled : Settled node o rounds) (distinct : (o.block.txs.map hash).Nodup) :
    o.allReceipts = rounds.map merged := by
  unfold Outcome.allReceipts
  rw [settled.receipts, settled.vaultReceipts]
  exact merge_rounds node.chain rounds settled.sound (distinct_rounds settled distinct)

theorem merged_bloom {round : Round} (sound : round.Sound node.chain) : round.merged.bloom = node.chain.bloomOf round.merged.logs := by
  unfold merged
  cases vault : round.vaultReceipt with
  | none => exact sound.bloom
  | some r => exact (sound.vault r vault).2.1

theorem read_encode (settled : Settled node o rounds) (distinct : (o.block.txs.map hash).Nodup) :
    ∃ receipts, o.read node.chain = some receipts ∧
      receipts.map encodeRLP = o.allReceipts.map encodeRLP ∧
      receipts.flatMap logs =
        numbered o.block.header.hash (uint64 o.block.header.number) contents 0 0 rounds := by
  have all := all_receipts_rounds settled distinct
  have length : o.block.txs.length = (o.stored.map (decodeStoredReceiptRLP node.chain)).length := by
    rw [Outcome.stored, all, settled.txs]
    simp
  have decoded : (o.stored.map (decodeStoredReceiptRLP node.chain)).map encodeRLP = o.allReceipts.map encodeRLP := by
    rw [Outcome.stored, List.map_map, List.map_map, all, List.map_map, List.map_map]
    apply map_congr_left
    intro round member
    exact decode_stored_encode node.chain _ (merged_bloom (settled.sound round member))
  have contents : (o.stored.map (decodeStoredReceiptRLP node.chain)).map (fun r => r.logs.map Log.content) =
      rounds.map contents := by
    rw [Outcome.stored, List.map_map, List.map_map, all, List.map_map]
    apply map_congr_left
    intro round member
    exact (content_decode _).trans (merged_contents node.chain (settled.sound round member))
  refine ⟨_, ?_, (derive_encode node.chain o.block.header.hash (uint64 o.block.header.number) 0 0 0 _ _ length).trans decoded, ?_⟩
  · unfold Outcome.read readReceipts deriveFields
    rw [if_neg (not_not.mpr length)]
  · rw [settled.txs]
    exact derive_logs node.chain _ _ 0 0 0 rounds _ contents

theorem decode_receipt_encode (encoded : ReceiptRLP) : (decodeReceiptRLP encoded).encodeRLP = encoded := by
  obtain ⟨status, gas, bloom, logs⟩ := encoded
  unfold encodeRLP
  congr 1
  · cases status <;> rfl
  · exact content_decode logs

theorem accepts_iff (sha : List ReceiptRLP → Hash) (receiptHash : Hash) (answer : List ReceiptRLP) :
    acceptsReceipts sha receiptHash answer ↔ sha answer = receiptHash := by
  have same : (answer.map decodeReceiptRLP).map encodeRLP = answer := by
    rw [List.map_map]
    exact (map_congr_left fun encoded _ => decode_receipt_encode encoded).trans (map_id' answer)
  rw [acceptsReceipts, same]

end Served

def Outcome.Discreet (o : Outcome) : Prop :=
  ∀ v ∈ o.vaultReceipts, v.logs = [] ∧ ∀ r ∈ o.receipts, r.txHash = v.txHash → v.statusEncoding = r.statusEncoding

instance discreetDecidable (o : Outcome) : Decidable o.Discreet := inferInstanceAs (Decidable (∀ v ∈ o.vaultReceipts, _))

section Encodings

variable {node : Node} {o : Outcome} {rounds : List Round}

theorem merged_encode_iff {round : Round} (sound : round.Sound node.chain) : round.merged.encodeRLP = round.receipt.encodeRLP ↔
      ∀ v, round.vaultReceipt = some v → v.logs = [] ∧ v.statusEncoding = round.receipt.statusEncoding := by
  unfold merged
  cases vault : round.vaultReceipt with
  | none => simp
  | some v =>
    obtain ⟨-, bloom, -, gas, -, -⟩ := sound.vault v vault
    have silent : round.receipt.logs.map Log.content = [] := by
      rw [sound.publicLogs]
      simp [on, vault]
    have none : round.receipt.logs = [] := map_eq_nil_iff.mp silent
    simp only [getD_some, some.injEq, forall_eq', encodeRLP, ReceiptRLP.mk.injEq, silent, map_eq_nil_iff]
    constructor
    · rintro ⟨status, -, -, logs⟩
      exact ⟨logs, status⟩
    · rintro ⟨logs, status⟩
      exact ⟨status, gas, by rw [bloom, sound.bloom, logs, none], logs⟩

theorem encodings_iff (settled : Settled node o rounds) (distinct : (o.block.txs.map hash).Nodup) :
    o.allReceipts.map Receipt.encodeRLP = o.receipts.map Receipt.encodeRLP ↔ o.Discreet := by
  have same : ∀ first ∈ rounds, ∀ second ∈ rounds, first.tx.hash = second.tx.hash → first = second :=
    fun first one second two => inj_on_of_nodup_map (distinct_rounds settled distinct) one two
  rw [all_receipts_rounds settled distinct, settled.receipts, List.map_map, List.map_map, List.map_inj_left]
  unfold Outcome.Discreet
  rw [settled.vaultReceipts, settled.receipts]
  constructor
  · intro agree v listed
    obtain ⟨round, member, vault⟩ := mem_filterMap.mp listed
    obtain ⟨logs, status⟩ := (merged_encode_iff (settled.sound round member)).mp (agree round member) v vault
    refine ⟨logs, ?_⟩
    intro r among named
    obtain ⟨other, there, rfl⟩ := mem_map.mp among
    rw [(settled.sound other there).hash, ((settled.sound round member).vault v vault).1] at named
    rw [same other there round member named, status]
  · intro discreet round member
    refine (merged_encode_iff (settled.sound round member)).mpr ?_
    intro v vault
    obtain ⟨logs, status⟩ := discreet v (mem_filterMap.mpr ⟨round, member, vault⟩)
    have named : round.receipt.txHash = v.txHash := by
      rw [(settled.sound round member).hash, ((settled.sound round member).vault v vault).1]
    exact ⟨logs, status _ (mem_map_of_mem member) named⟩

end Encodings

-- DeriveSha is a hash of the encoded receipts, and the two lists at hand do not collide.
theorem stored_receipts_match_header (node : Node) (genesis : Genesis) (sha : List ReceiptRLP → Hash)
    (derives : ∀ receipts, node.deriveSha receipts = sha (receipts.map encodeRLP)) (s : System)
    (run : Relation.ReflTransGen (AnyStep node) (genesis.system node) s) (event : Event) (o : Outcome)
    (outcome : s.outcome node event = some o) (distinct : (o.block.txs.map hash).Nodup)
    (injective : Set.InjOn sha {o.allReceipts.map encodeRLP, o.receipts.map encodeRLP}) :
    (node.deriveSha o.allReceipts = o.block.receiptHash ∧
      ∃ answer, serveReceipts sha o.block.receiptHash (o.read node.chain) = some answer ∧
        acceptsReceipts sha o.block.receiptHash answer) ↔ o.Discreet := by
  obtain ⟨rounds, settled⟩ := settled_outcome run outcome distinct
  obtain ⟨original, root, -, encoded⟩ := settled.header
  obtain ⟨receipts, read, same, -⟩ := read_encode settled distinct
  rw [← encodings_iff settled distinct, root, derives, derives, encoded, read]
  constructor
  · rintro ⟨equal, -⟩
    exact injective (.inl rfl) (.inr rfl) equal
  · intro equal
    refine ⟨by rw [equal], _, rfl, ?_⟩
    rw [accepts_iff, same, equal]

def logMachine (_ : Context) (contract : Contract) : Code :=
  if contract.code = [1] then .fail
  else if contract.code = [2] then .instr (.log [] []) 0 0 fun _ => .stop []
  else .stop contract.code

def silentSha (encoded : List ReceiptRLP) : Hash :=
  if encoded.all fun r => r.postStateOrStatus = .successful ∧ r.logs = [] then 1 else 2

def logNode : Node where
  chain := { idleChain true true true logMachine with trieHash := fun _ => 1 }
  createBloom _ := 0
  deriveSha receipts := silentSha (receipts.map encodeRLP)
  access tx := .payload tx.data
  coinbase := 7
  heap := ⟨id, unsorted⟩

def logGenesis : Genesis := ⟨⟨⟨1, 0, 4, 0, 0, 200000, 7, 7⟩, 1, 0, 0, 0, []⟩, holder 1 200000 200000⟩

def payloadTransaction (nonce : Nat) (isVault : Bool) (payload : UInt8) : Transaction :=
  { forkTransaction (nonce + 1) with nonce := nonce, isVault := isVault, data := [payload] }

def payloadBlock (gasUsed : Nat) (receiptHash : Hash) (txs : List Transaction) : Block :=
  ⟨⟨2, 1, 5, 0, 0, 200000, 7, 7⟩, 1, gasUsed, 0, receiptHash, txs⟩

def failedBlock : Block := payloadBlock 0 1 [payloadTransaction 0 true 1]

def silentBlock : Block := payloadBlock 0 1 [payloadTransaction 0 true 3]

theorem inserted_block {node : Node} {s : System} {block : Block} {o : Outcome} (outcome : s.outcome node (.insert block) = some o) :
    o.block = block := by
  simp only [System.outcome, bind_eq_bind, bind_eq_some_iff] at outcome
  obtain ⟨parent, -, tries, -, outcome⟩ := outcome
  split at outcome
  · contradiction
  · obtain ⟨states, -, rfl⟩ := map_eq_some_iff.mp outcome
    rfl

theorem inserted_logs (block : Block) (o : Outcome) (child : block.header.parentHash = 1)
    (outcome : (logGenesis.system logNode).outcome logNode (.insert block) = some o) :
    o.logs = {log | log ∈ logNode.chain.processLogs block.header logNode.access 0 block.txs
      ⟨StateDB.new logGenesis.trie, StateDB.new fun _ => none, block.header.gasLimit, 0, [], []⟩} := by
  have stored : (logGenesis.system logNode).db.blocks block.header.parentHash = some logGenesis.block := by
    rw [child]
    rfl
  have opened := genesis_state_at logNode logGenesis rfl (by decide)
  simp only [System.outcome, bind_eq_bind, stored, opened, bind_some] at outcome
  split at outcome
  · contradiction
  · obtain ⟨states, -, rfl⟩ := map_eq_some_iff.mp outcome
    rfl

theorem failed_block_roots : ((logGenesis.system logNode).outcome logNode (.insert failedBlock)).map (fun o =>
      (logNode.deriveSha o.allReceipts, logNode.deriveSha o.receipts)) = some (2, 1) := by
  decide +kernel

theorem failed_vault_receipt_misses_header : ∃ o, (logGenesis.system logNode).outcome logNode (.insert failedBlock) = some o ∧
      (o.block.txs.map hash).Nodup ∧
      Set.InjOn silentSha {o.allReceipts.map encodeRLP, o.receipts.map encodeRLP} ∧
      logNode.deriveSha o.allReceipts ≠ o.block.receiptHash := by
  obtain ⟨o, outcome, roots⟩ := map_eq_some_iff.mp failed_block_roots
  obtain ⟨all, own⟩ := Prod.mk.inj roots
  have block := inserted_block outcome
  refine ⟨o, outcome, by rw [block]; decide, ?_, ?_⟩
  · have apart : silentSha (o.allReceipts.map encodeRLP) ≠ silentSha (o.receipts.map encodeRLP) := by
      rw [show silentSha (o.allReceipts.map encodeRLP) = 2 from all, show silentSha (o.receipts.map encodeRLP) = 1 from own]
      decide
    rintro first (rfl | rfl) second (rfl | rfl) same
    · rfl
    · exact absurd same apart
    · exact absurd same.symm apart
    · rfl
  · rw [all, block]
    decide

theorem silent_block_discreet : ((logGenesis.system logNode).outcome logNode (.insert silentBlock)).map (fun o =>
      decide (o.Discreet ∧ o.vaultReceipts ≠ [] ∧ o.allReceipts.map encodeRLP = o.receipts.map encodeRLP)) =
      some true := by
  decide +kernel

theorem stored_receipts_match_header_silent :
    ∃ o, (logGenesis.system logNode).outcome logNode (.insert silentBlock) = some o ∧ o.vaultReceipts ≠ [] ∧
      logNode.deriveSha o.allReceipts = o.block.receiptHash := by
  obtain ⟨o, outcome, facts⟩ := map_eq_some_iff.mp silent_block_discreet
  obtain ⟨discreet, vault, same⟩ := of_decide_eq_true facts
  have block := inserted_block outcome
  have injective : Set.InjOn silentSha {o.allReceipts.map encodeRLP, o.receipts.map encodeRLP} := by
    rw [same, Set.pair_eq_singleton]
    exact Set.injOn_singleton _ _
  exact ⟨o, outcome, vault, ((stored_receipts_match_header logNode logGenesis silentSha (fun _ => rfl) _ .refl _ o outcome
    (by rw [block]; decide) injective).mpr discreet).1⟩

section Announced

variable {node : Node} {o : Outcome} {rounds : List Round}

theorem public_silent_iff (settled : Settled node o rounds) :
    (∀ r ∈ o.receipts, r.logs = []) ↔ ∀ round ∈ rounds, round.on false = [] := by
  rw [settled.receipts, List.forall_mem_map]
  refine forall₂_congr fun round member => ?_
  rw [← (settled.sound round member).publicLogs, map_eq_nil_iff]

theorem vault_silent_iff (settled : Settled node o rounds) :
    (∀ v ∈ o.vaultReceipts, v.logs = []) ↔ ∀ round ∈ rounds, round.on true = [] := by
  rw [settled.vaultReceipts]
  constructor
  · intro silent round member
    cases vault : round.vaultReceipt with
    | none => simp [on, vault]
    | some v =>
      rw [← ((settled.sound round member).vault v vault).2.2.1, silent v (mem_filterMap.mpr ⟨round, member, vault⟩)]
      rfl
  · intro silent v listed
    obtain ⟨round, member, vault⟩ := mem_filterMap.mp listed
    rw [← map_eq_nil_iff, ((settled.sound round member).vault v vault).2.2.1, silent round member]

theorem contents_on {round : Round} {vault : Bool} (silent : round.on (!vault) = []) : round.contents = round.on vault := by
  unfold on at silent ⊢
  cases vault <;> cases kind : round.vaultReceipt.isSome <;> simp_all

theorem on_kind {round : Round} {vault : Bool} (loud : round.on vault ≠ []) : round.vaultReceipt.isSome = vault := by
  by_contra other
  exact loud (if_neg other)

-- Both states number their logs from 0 on. When both have logs, two of those announced have this number, and only one of
-- those that are read.
theorem announced_iff (settled : Settled node o rounds) : (∀ log, log ∈ o.logs ↔
      log ∈ numbered o.block.header.hash (uint64 o.block.header.number) contents 0 0 rounds) ↔
      (∀ round ∈ rounds, round.on false = []) ∨ ∀ round ∈ rounds, round.on true = [] := by
  constructor
  · intro same
    by_contra both
    simp only [not_or, not_forall] at both
    obtain ⟨⟨one, here, loud⟩, two, there, vaultLoud⟩ := both
    obtain ⟨first, announced, zero, i, round, found, some, place⟩ := numbered_first o.block.header.hash
      (uint64 o.block.header.number) (on · false) 0 0 rounds ⟨one, here, loud⟩
    obtain ⟨second, vaultAnnounced, vaultZero, j, vaultRound, vaultFound, vaultSome, vaultPlace⟩ := numbered_first
      o.block.header.hash (uint64 o.block.header.number) (on · true) 0 0 rounds ⟨two, there, vaultLoud⟩
    have readFirst := (same first).mp ((settled.logs first).mpr (.inl announced))
    have readSecond := (same second).mp ((settled.logs second).mpr (.inr vaultAnnounced))
    have unique : ((numbered o.block.header.hash (uint64 o.block.header.number) contents 0 0 rounds).map Log.index).Nodup := by
      rw [numbered_indices]
      exact nodup_range'
    obtain rfl := inj_on_of_nodup_map unique readFirst readSecond (zero.trans vaultZero.symm)
    obtain rfl : i = j := by omega
    obtain rfl := Option.some.inj (found.symm.trans vaultFound)
    exact absurd ((on_kind some).symm.trans (on_kind vaultSome)) (by decide)
  · rintro (silent | silent) log
    · rw [settled.logs, numbered_silent _ _ (on · false) _ _ _ silent,
        numbered_congr _ _ contents (on · true) 0 0 rounds fun round member => contents_on (silent round member)]
      simp
    · rw [settled.logs, numbered_silent _ _ (on · true) _ _ _ silent,
        numbered_congr _ _ contents (on · false) 0 0 rounds fun round member => contents_on (silent round member)]
      simp

end Announced

theorem announced_logs_read_back (node : Node) (genesis : Genesis) (s : System)
    (run : Relation.ReflTransGen (AnyStep node) (genesis.system node) s) (event : Event) (o : Outcome)
    (outcome : s.outcome node event = some o) (distinct : (o.block.txs.map hash).Nodup) :
    (∃ receipts, o.read node.chain = some receipts ∧ ∀ log, log ∈ o.logs ↔ log ∈ receipts.flatMap logs) ↔
      (∀ r ∈ o.receipts, r.logs = []) ∨ ∀ v ∈ o.vaultReceipts, v.logs = [] := by
  obtain ⟨rounds, settled⟩ := settled_outcome run outcome distinct
  obtain ⟨receipts, read, -, logs⟩ := read_encode settled distinct
  rw [public_silent_iff settled, vault_silent_iff settled, ← announced_iff settled, read]
  constructor
  · rintro ⟨receipts, ⟨⟩, same⟩
    rwa [← logs]
  · intro same
    exact ⟨receipts, rfl, by rwa [logs]⟩

def mixedBlock : Block := payloadBlock 53068 2 [payloadTransaction 0 true 2, payloadTransaction 1 false 2]

def publicLog : Log := ⟨3, [], [], 5, 2, 1, 2, 0⟩

theorem mixed_block_read :
    ((logGenesis.system logNode).outcome logNode (.insert mixedBlock)).bind (fun o => (o.read logNode.chain).map fun receipts =>
      decide (publicLog ∈ receipts.flatMap logs)) = some false := by
  decide +kernel

theorem mixed_logs_read_differently : ∃ o receipts, (logGenesis.system logNode).outcome logNode (.insert mixedBlock) = some o ∧
      (o.block.txs.map hash).Nodup ∧ o.read logNode.chain = some receipts ∧
      publicLog ∈ o.logs ∧ publicLog ∉ receipts.flatMap logs := by
  obtain ⟨o, outcome, reads⟩ := bind_eq_some_iff.mp mixed_block_read
  obtain ⟨receipts, read, absent⟩ := map_eq_some_iff.mp reads
  have block := inserted_block outcome
  refine ⟨o, receipts, outcome, by rw [block]; decide, read, ?_, of_decide_eq_false absent⟩
  rw [inserted_logs mixedBlock o rfl outcome]
  show publicLog ∈ Chain.processLogs _ _ _ _ _ _
  decide +kernel

def vaultLogBlock : Block := payloadBlock 0 1 [payloadTransaction 0 true 2]

theorem vault_log_block_silent : ((logGenesis.system logNode).outcome logNode (.insert vaultLogBlock)).map (fun o =>
      decide ((∀ r ∈ o.receipts, r.logs = []) ∧ ∃ v ∈ o.vaultReceipts, v.logs ≠ [])) = some true := by
  decide +kernel

theorem announced_logs_read_back_vault :
    ∃ o receipts, (logGenesis.system logNode).outcome logNode (.insert vaultLogBlock) = some o ∧
      (∃ v ∈ o.vaultReceipts, v.logs ≠ []) ∧ o.read logNode.chain = some receipts ∧
      ∀ log, log ∈ o.logs ↔ log ∈ receipts.flatMap logs := by
  obtain ⟨o, outcome, facts⟩ := map_eq_some_iff.mp vault_log_block_silent
  obtain ⟨silent, loud⟩ := of_decide_eq_true facts
  have block := inserted_block outcome
  obtain ⟨receipts, read, same⟩ := (announced_logs_read_back logNode logGenesis _ .refl _ o outcome (by rw [block]; decide)).mpr
    (.inl silent)
  exact ⟨o, receipts, outcome, loud, read, same⟩

end Didux.Miner
