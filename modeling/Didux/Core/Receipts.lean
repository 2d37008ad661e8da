import Didux.Core.Logs

set_option autoImplicit false

namespace Didux.Core

open Sport State List Receipt

-- statusEncoding: the root of the state, or one of the two status codes.
inductive StatusEncoding where
  | failed
  | successful
  | root (hash : Hash)
deriving DecidableEq

structure ReceiptRLP where
  postStateOrStatus : StatusEncoding
  cumulativeGasUsed : Nat
  bloom : Nat
  logs : List Content
deriving DecidableEq

structure StoredReceiptRLP where
  postStateOrStatus : StatusEncoding
  cumulativeGasUsed : Nat
  logs : List Content
deriving DecidableEq

namespace Receipt

variable (r : Receipt)

def statusEncoding : StatusEncoding :=
  match r.postState with
  | some root => .root root
  | none => if r.failed then .failed else .successful

def encodeRLP : ReceiptRLP := ⟨r.statusEncoding, r.cumulativeGasUsed, r.bloom, r.logs.map Log.content⟩

def encodeForStorage : StoredReceiptRLP := ⟨r.statusEncoding, r.cumulativeGasUsed, r.logs.map Log.content⟩

end Receipt

-- A log that was decoded has only what its contract gave it.
def decodeLog (content : Content) : Log := ⟨content.address, content.topics, content.data, 0, 0, 0, 0, 0⟩

def setStatus (r : Receipt) : StatusEncoding → Receipt
  | .failed => { r with failed := true }
  | .successful => { r with failed := false }
  | .root hash => { r with postState := some hash }

def emptyReceipt : Receipt := ⟨none, true, 0, 0, 0, 0, [], 0, 0, 0, 0⟩

def decodeStoredReceiptRLP (chain : Chain) (stored : StoredReceiptRLP) : Receipt :=
  let logs := stored.logs.map decodeLog
  { setStatus emptyReceipt stored.postStateOrStatus with
    cumulativeGasUsed := stored.cumulativeGasUsed, logs := logs, bloom := chain.bloomOf logs }

def decodeReceiptRLP (encoded : ReceiptRLP) : Receipt :=
  { setStatus emptyReceipt encoded.postStateOrStatus with
    cumulativeGasUsed := encoded.cumulativeGasUsed, bloom := encoded.bloom, logs := encoded.logs.map decodeLog }

-- The transaction hash keys the receipts: what stands last for a hash is what is found.
def byHash (receipts : List Receipt) : (Hash → Option Receipt) → Hash → Option Receipt :=
  fun m => receipts.foldl (fun m r => Function.update m r.txHash (some r)) m

-- Every public receipt has an entry.
def mergeReceipts (pub priv : List Receipt) : List Receipt :=
  let m := byHash priv (byHash pub fun _ => none)
  pub.map fun pubReceipt => (m pubReceipt.txHash).getD pubReceipt

section ByHash

variable (receipts : List Receipt) (m : Hash → Option Receipt) (hash : Hash)

theorem by_hash_absent (absent : ∀ r ∈ receipts, r.txHash ≠ hash) : byHash receipts m hash = m hash := by
  unfold byHash
  induction receipts generalizing m with
  | nil => rfl
  | cons r rest ih =>
    rw [foldl_cons, ih _ fun other member => absent other (mem_cons_of_mem _ member),
      Function.update_of_ne (absent r mem_cons_self).symm]

theorem by_hash_found (r : Receipt) (member : r ∈ receipts) (only : ∀ other ∈ receipts, other.txHash = r.txHash → other = r) :
    byHash receipts m r.txHash = some r := by
  unfold byHash
  induction receipts generalizing m with
  | nil => exact nomatch member
  | cons first rest ih =>
    rw [foldl_cons]
    by_cases later : r ∈ rest
    · exact ih _ later fun other among => only other (mem_cons_of_mem _ among)
    · obtain rfl : r = first := (mem_cons.mp member).resolve_right later
      have absent : ∀ other ∈ rest, other.txHash ≠ r.txHash := by
        intro other among same
        exact later (only other (mem_cons_of_mem _ among) same ▸ among)
      rw [← byHash, by_hash_absent rest _ r.txHash absent, Function.update_self]

end ByHash

namespace Chain

variable (chain : Chain)

-- The location that DeriveFields writes into the logs of a receipt.
def relocate (place : Place) : Nat → List Log → List Log
  | _, [] => []
  | logIndex, log :: rest => place.log logIndex log.content :: relocate place (logIndex + 1) rest

-- The loop of DeriveFields at index `i`, after a receipt with `previous` as its cumulative gas.
def deriveFrom (hash : Hash) (number : Nat) : Nat → Nat → Nat → List Transaction → List Receipt → List Receipt
  | i, logIndex, previous, tx :: txs, r :: rest => { r with
      txHash := tx.hash
      blockHash := hash
      blockNumber := number
      transactionIndex := i
      contractAddress := if tx.recipient.isNone then chain.createAddress (tx.sender.getD 0) tx.nonce else r.contractAddress
      gasUsed := if i = 0 then r.cumulativeGasUsed else uint64 (r.cumulativeGasUsed + 2 ^ 64 - previous)
      logs := relocate ⟨tx.hash, hash, i, number⟩ logIndex r.logs } ::
      deriveFrom hash number (i + 1) (logIndex + r.logs.length) r.cumulativeGasUsed txs rest
  | _, _, _, _, _ => []

variable (hash : Hash) (number : Nat) (txs : List Transaction)

def deriveFields (receipts : List Receipt) : Option (List Receipt) :=
  if txs.length ≠ receipts.length then none else some (deriveFrom chain hash number 0 0 0 txs receipts)

-- ReadReceipts, on the receipts and the transactions that are stored for a block.
def readReceipts (stored : List StoredReceiptRLP) : Option (List Receipt) :=
  deriveFields chain hash number txs (stored.map (decodeStoredReceiptRLP chain))

theorem relocate_eq (place : Place) (logIndex : Nat) (logs : List Log) :
    relocate place logIndex logs = place.stamp logIndex (logs.map Log.content) := by
  induction logs generalizing logIndex with
  | nil => rfl
  | cons log rest ih => exact congrArg (place.log logIndex log.content :: ·) (ih _)

theorem content_decode (contents : List Content) : (contents.map decodeLog).map Log.content = contents := by
  rw [map_map]
  exact map_id _

theorem bloom_contents (first second : List Log) (same : first.map Log.content = second.map Log.content) :
    chain.bloomOf first = chain.bloomOf second := by
  have criteria : ∀ logs : List Log, logs.map (fun log => (log.address, log.topics)) =
      (logs.map Log.content).map fun content => (content.address, content.topics) := by
    intro logs
    rw [map_map]
    rfl
  unfold bloomOf
  rw [criteria, criteria, same]

theorem decode_stored_encode (r : Receipt) (bloom : r.bloom = chain.bloomOf r.logs) :
    (decodeStoredReceiptRLP chain r.encodeForStorage).encodeRLP = r.encodeRLP := by
  have logs : (r.encodeForStorage.logs.map decodeLog).map Log.content = r.logs.map Log.content := content_decode _
  have blooms := bloom_contents chain _ _ logs
  unfold encodeRLP
  congr 1
  · unfold statusEncoding
    cases root : r.postState <;> cases failed : r.failed <;>
      simp [decodeStoredReceiptRLP, encodeForStorage, statusEncoding, setStatus, emptyReceipt, root, failed]
  · exact blooms.trans bloom.symm

theorem derive_encode (number i logIndex previous : Nat) (txs : List Transaction) (receipts : List Receipt)
    (length : txs.length = receipts.length) :
    (deriveFrom chain hash number i logIndex previous txs receipts).map encodeRLP = receipts.map encodeRLP := by
  induction receipts generalizing txs i logIndex previous with
  | nil =>
    obtain rfl := eq_nil_of_length_eq_zero length
    rfl
  | cons r rest ih =>
    cases txs with
    | nil => exact nomatch length
    | cons tx txs =>
      rw [deriveFrom, map_cons, ih _ _ _ txs (Nat.succ.inj length)]
      unfold encodeRLP
      rw [relocate_eq, map_content_stamp]
      rfl

theorem derive_logs (number i logIndex previous : Nat) (rounds : List Round) (receipts : List Receipt)
    (logs : receipts.map (fun r => r.logs.map Log.content) = rounds.map Round.contents) :
    (deriveFrom chain hash number i logIndex previous (rounds.map Round.tx) receipts).flatMap Receipt.logs =
      numbered hash number Round.contents i logIndex rounds := by
  induction rounds generalizing receipts i logIndex previous with
  | nil => rfl
  | cons round rest ih =>
    cases receipts with
    | nil => exact nomatch logs
    | cons r others =>
      obtain ⟨here, later⟩ := cons.inj logs
      have here : r.logs.map Log.content = round.contents := here
      have length : r.logs.length = round.contents.length := by rw [← here, length_map]
      rw [map_cons, deriveFrom, flatMap_cons, ih _ _ _ others later, numbered, relocate_eq, here, length]

theorem merge_rounds (rounds : List Round) (sound : ∀ round ∈ rounds, round.Sound chain)
    (distinct : (rounds.map fun round => round.tx.hash).Nodup) :
    mergeReceipts (rounds.map Round.receipt) (rounds.filterMap Round.vaultReceipt) = rounds.map Round.merged := by
  have same : ∀ first ∈ rounds, ∀ second ∈ rounds, first.tx.hash = second.tx.hash → first = second :=
    fun first one second two => inj_on_of_nodup_map distinct one two
  unfold mergeReceipts
  rw [map_map]
  apply map_congr_left
  intro round member
  have hash : round.receipt.txHash = round.tx.hash := (sound round member).hash
  -- The vault receipts found under the hash of this round are its own.
  have own : ∀ v ∈ rounds.filterMap Round.vaultReceipt, v.txHash = round.receipt.txHash → round.vaultReceipt = some v := by
    intro v among named
    obtain ⟨other, there, vault⟩ := mem_filterMap.mp among
    have equal : other.tx.hash = round.tx.hash := by rw [← ((sound other there).vault v vault).1, named, hash]
    exact same other there round member equal ▸ vault
  simp only [Function.comp_apply]
  cases vault : round.vaultReceipt with
  | none =>
    have absent : ∀ v ∈ rounds.filterMap Round.vaultReceipt, v.txHash ≠ round.receipt.txHash :=
      fun v among named => nomatch vault.symm.trans (own v among named)
    have only : ∀ other ∈ rounds.map Round.receipt, other.txHash = round.receipt.txHash → other = round.receipt := by
      intro other among named
      obtain ⟨found, there, rfl⟩ := mem_map.mp among
      rw [(sound found there).hash, hash] at named
      rw [same found there round member named]
    rw [by_hash_absent _ _ _ absent, by_hash_found _ _ _ (mem_map_of_mem member) only]
    simp only [Option.getD_some, Round.merged, vault, Option.getD_none]
  | some v =>
    have listed : v ∈ rounds.filterMap Round.vaultReceipt := mem_filterMap.mpr ⟨round, member, vault⟩
    have named : v.txHash = round.receipt.txHash := ((sound round member).vault v vault).1.trans hash.symm
    rw [← named, by_hash_found _ _ v listed]
    · simp only [Round.merged, vault]
    · intro other among alike
      exact Option.some.inj ((own other among (alike.trans named)).symm.trans vault)

end Chain

end Didux.Core
