import Didux.Miner.StoredReceipts

set_option autoImplicit false

namespace Didux.Filters

open Sport State Didux.Core Core.Chain Miner List

structure Bloom9 where
  address : Address → Nat
  topic : Hash → Nat

-- The addresses and topics that a filter asks for. An empty list of alternatives allows everything.
structure Criteria where
  addresses : List Address
  topics : List (List Hash)

section Bloom

variable (bits : Bloom9)

def addBloom (bin : Nat) (log : Log) : Nat :=
  log.topics.foldl (fun bin topic => bin ||| bits.topic topic) (bin ||| bits.address log.address)

def logsBloom (logs : List Log) : Nat := logs.foldl (addBloom bits) 0

def createBloom (receipts : List Receipt) : Nat := receipts.foldl (fun bin receipt => bin ||| logsBloom bits receipt.logs) 0

def bloomLookup (bloom cmp : Nat) : Bool := bloom &&& cmp == cmp

def bloomFilter (bloom : Nat) (criteria : Criteria) : Bool :=
  (criteria.addresses.isEmpty || criteria.addresses.any fun a => bloomLookup bloom (bits.address a)) &&
    criteria.topics.all fun sub => sub.isEmpty || sub.any fun topic => bloomLookup bloom (bits.topic topic)

end Bloom

namespace Criteria

variable (criteria : Criteria)

-- The loop over the rules. It is entered with at least as many topics as rules.
def topicsMatch : List (List Hash) → List Hash → Bool
  | [], _ => true
  | _ :: _, [] => false
  | sub :: rest, topic :: more => (sub.isEmpty || sub.contains topic) && topicsMatch rest more

def selects (fromBlock toBlock : Option Int) (log : Log) : Bool :=
  if fromBlock.any fun number : Int => 0 ≤ number ∧ log.blockNumber < number then false
  else if toBlock.any fun number : Int => 0 ≤ number ∧ number < log.blockNumber then false
  else if !criteria.addresses.isEmpty && !criteria.addresses.contains log.address then false
  else if log.topics.length < criteria.topics.length then false
  else topicsMatch criteria.topics log.topics

def filterLogs (logs : List Log) (fromBlock toBlock : Option Int) : List Log := logs.filter (criteria.selects fromBlock toBlock)

def Meets (log : Log) : Prop :=
  (criteria.addresses = [] ∨ log.address ∈ criteria.addresses) ∧ criteria.topics.length ≤ log.topics.length ∧
    ∀ rule ∈ criteria.topics.zip log.topics, rule.1 = [] ∨ rule.2 ∈ rule.1

instance decidableMeets (log : Log) : Decidable (criteria.Meets log) :=
  inferInstanceAs (Decidable (_ ∧ _ ∧ ∀ rule ∈ criteria.topics.zip log.topics, rule.1 = [] ∨ rule.2 ∈ rule.1))

end Criteria

-- What a filter asks its backend for. `indexed` are the blooms that the sections of the index were made of.
structure Backend where
  latest : Nat
  headerByNumber : Nat → Option Block
  headerByHash : Hash → Option Block
  getReceipts : Hash → Option (List Receipt)
  vaultBlockBloom : Nat → Nat
  size : Nat
  sections : Nat
  indexed : Nat → Nat

def numbers (first last : Int) : List Nat := range' first.toNat (last + 1 - first).toNat

namespace Backend

variable (bits : Bloom9) (b : Backend) (criteria : Criteria)

def getLogs (hash : Hash) : Option (List (List Log)) := (b.getReceipts hash).map fun receipts => receipts.map Receipt.logs

def checkMatches (block : Block) : List Log :=
  match criteria.filterLogs ((b.getLogs block.header.hash).getD []).flatten none none with
  | [] => []
  | first :: rest =>
    if first.txHash = 0 then
      criteria.filterLogs (((b.getReceipts block.header.hash).getD []).flatMap Receipt.logs) none none
    else first :: rest

def blockLogs (block : Block) : List Log :=
  if bloomFilter bits block.bloom criteria then b.checkMatches criteria block else []

def unindexedLogs : List Nat → List Log
  | [] => []
  | number :: rest => match b.headerByNumber number with
    | none => []
    | some block =>
      (if bloomFilter bits block.bloom criteria || bloomFilter bits (b.vaultBlockBloom number) criteria then
        b.blockLogs bits criteria block else []) ++ unindexedLogs rest

-- The loop of indexedLogs, over the matches that are left, with the number at which the search goes on.
def indexedLoop (last : Int) : List Nat → List Log × Int
  | [] => ([], last + 1)
  | number :: rest => match b.headerByNumber number with
    | none => ([], number + 1)
    | some block => ((b.checkMatches criteria block) ++ (indexedLoop last rest).1, (indexedLoop last rest).2)

def indexedLogs (first last : Int) : List Log × Int :=
  b.indexedLoop criteria last ((numbers first last).filter fun number => bloomFilter bits (b.indexed number) criteria)

def limit (number : Int) : Int := if number = -1 then b.latest else number

def rangeLogs (first last : Int) : List Log :=
  let begin := b.limit first
  let last := b.limit last
  let indexed : Int := b.sections * b.size
  let (logs, next) :=
    if begin < indexed then
      if last < indexed then b.indexedLogs bits criteria begin last else b.indexedLogs bits criteria begin (indexed - 1)
    else ([], begin)
  logs ++ b.unindexedLogs bits criteria (numbers next last)

-- Logs, of the block with this hash or, if it is zero, of a range. An unknown block is an error.
def logs (block : Hash) (first last : Int) : Option (List Log) :=
  if block ≠ 0 then (b.headerByHash block).map (b.blockLogs bits criteria) else some (b.rangeLogs bits criteria first last)

end Backend

section Blooms

variable (bits : Bloom9)

theorem lookup_iff (bloom cmp : Nat) : bloomLookup bloom cmp = true ↔ ∀ i, cmp.testBit i = true → bloom.testBit i = true := by
  rw [bloomLookup, beq_iff_eq]
  constructor
  · intro same i set
    rw [← same, Nat.testBit_and, Bool.and_eq_true] at set
    exact set.1
  · intro covered
    refine Nat.eq_of_testBit_eq fun i => ?_
    rw [Nat.testBit_and]
    cases set : cmp.testBit i with
    | false => rw [Bool.and_false]
    | true => rw [covered i set, Bool.and_true]

theorem lookup_or_left {bloom cmp : Nat} (other : Nat) (found : bloomLookup bloom cmp = true) :
    bloomLookup (bloom ||| other) cmp = true := by
  rw [lookup_iff] at found ⊢
  intro i set
  rw [Nat.testBit_or, found i set, Bool.true_or]

theorem lookup_or_right (bloom : Nat) {other cmp : Nat} (found : bloomLookup other cmp = true) :
    bloomLookup (bloom ||| other) cmp = true := by
  rw [Nat.or_comm]
  exact lookup_or_left bloom found

theorem lookup_self (cmp : Nat) : bloomLookup cmp cmp = true := (lookup_iff cmp cmp).mpr fun _ set => set

theorem filter_or {bloom : Nat} (other : Nat) {criteria : Criteria} (passes : bloomFilter bits bloom criteria = true) :
    bloomFilter bits (bloom ||| other) criteria = true := by
  simp only [bloomFilter, Bool.and_eq_true, Bool.or_eq_true, any_eq_true, all_eq_true] at passes ⊢
  refine ⟨passes.1.imp_right ?_, fun sub member => (passes.2 sub member).imp_right ?_⟩
  · rintro ⟨a, listed, found⟩
    exact ⟨a, listed, lookup_or_left other found⟩
  · rintro ⟨topic, listed, found⟩
    exact ⟨topic, listed, lookup_or_left other found⟩

def Covers (bloom : Nat) (log : Log) : Prop :=
  bloomLookup bloom (bits.address log.address) = true ∧ ∀ topic ∈ log.topics, bloomLookup bloom (bits.topic topic) = true

variable {bits}

theorem topics_kept (topics : List Hash) (bin cmp : Nat) (found : bloomLookup bin cmp = true) :
    bloomLookup (topics.foldl (fun bin topic => bin ||| bits.topic topic) bin) cmp = true := by
  induction topics generalizing bin with
  | nil => exact found
  | cons topic rest ih => exact ih _ (lookup_or_left _ found)

theorem topics_covered (topics : List Hash) (bin : Nat) (topic : Hash) (listed : topic ∈ topics) :
    bloomLookup (topics.foldl (fun bin topic => bin ||| bits.topic topic) bin) (bits.topic topic) = true := by
  induction topics generalizing bin with
  | nil => simp at listed
  | cons first rest ih =>
    obtain rfl | later := mem_cons.mp listed
    · exact topics_kept rest _ _ (lookup_or_right _ (lookup_self _))
    · exact ih _ later

theorem add_covers (bin : Nat) (log : Log) : Covers bits (addBloom bits bin log) log :=
  ⟨topics_kept _ _ _ (lookup_or_right _ (lookup_self _)), topics_covered _ _⟩

theorem covers_mono {bloom larger : Nat} {log : Log}
    (grows : ∀ cmp, bloomLookup bloom cmp = true → bloomLookup larger cmp = true) (covers : Covers bits bloom log) :
    Covers bits larger log :=
  ⟨grows _ covers.1, fun topic listed => grows _ (covers.2 topic listed)⟩

theorem logs_bloom_kept (logs : List Log) (bin cmp : Nat) (found : bloomLookup bin cmp = true) :
    bloomLookup (logs.foldl (addBloom bits) bin) cmp = true := by
  induction logs generalizing bin with
  | nil => exact found
  | cons log rest ih => exact ih _ (topics_kept _ _ _ (lookup_or_left _ found))

theorem logs_bloom_covers (logs : List Log) (bin : Nat) (log : Log) (listed : log ∈ logs) :
    Covers bits (logs.foldl (addBloom bits) bin) log := by
  induction logs generalizing bin with
  | nil => simp at listed
  | cons first rest ih =>
    obtain rfl | later := mem_cons.mp listed
    · exact covers_mono (fun cmp => logs_bloom_kept rest _ cmp) (add_covers bin log)
    · exact ih _ later

theorem create_bloom_covers (receipts : List Receipt) (r : Receipt) (listed : r ∈ receipts) (log : Log) (logged : log ∈ r.logs) :
    Covers bits (createBloom bits receipts) log := by
  have kept : ∀ (rest : List Receipt) bin cmp, bloomLookup bin cmp = true →
      bloomLookup (rest.foldl (fun bin receipt => bin ||| logsBloom bits receipt.logs) bin) cmp = true := by
    intro rest
    induction rest with
    | nil => exact fun _ _ found => found
    | cons first rest ih => exact fun _ _ found => ih _ _ (lookup_or_left _ found)
  have covers : ∀ bin, Covers bits (receipts.foldl (fun bin receipt => bin ||| logsBloom bits receipt.logs) bin) log := by
    induction receipts with
    | nil => simp at listed
    | cons first rest ih =>
      intro bin
      obtain rfl | later := mem_cons.mp listed
      · exact covers_mono (fun cmp found => kept rest _ cmp (lookup_or_right _ found)) (logs_bloom_covers r.logs 0 log logged)
      · exact ih later _
  exact covers 0

theorem covers_passes {bloom : Nat} {log : Log} {criteria : Criteria} (covers : Covers bits bloom log) (meets : criteria.Meets log) :
    bloomFilter bits bloom criteria = true := by
  obtain ⟨address, enough, rules⟩ := meets
  simp only [bloomFilter, Bool.and_eq_true, Bool.or_eq_true, List.any_eq_true, List.all_eq_true, List.isEmpty_iff]
  refine ⟨address.imp_right fun listed => ⟨_, listed, covers.1⟩, ?_⟩
  intro sub member
  obtain ⟨i, bound, rfl⟩ := getElem_of_mem member
  have rule := rules (criteria.topics[i], log.topics[i]) (mem_iff_getElem.mpr ⟨i, by simp; omega, by simp⟩)
  exact rule.imp_right fun listed => ⟨_, listed, covers.2 _ (List.getElem_mem _)⟩

end Blooms

section Matching

variable (criteria : Criteria)

theorem topics_match_iff (rules : List (List Hash)) (topics : List Hash) (enough : rules.length ≤ topics.length) :
    Criteria.topicsMatch rules topics = true ↔ ∀ rule ∈ rules.zip topics, rule.1 = [] ∨ rule.2 ∈ rule.1 := by
  induction rules generalizing topics with
  | nil => simp [Criteria.topicsMatch]
  | cons sub rest ih =>
    cases topics with
    | nil => simp at enough
    | cons topic more =>
      simp [Criteria.topicsMatch, ih more (by simpa using enough)]

theorem selects_iff (log : Log) : criteria.selects none none log = true ↔ criteria.Meets log := by
  simp only [Criteria.selects, Option.any_none, Bool.false_eq_true, if_false, Criteria.Meets]
  by_cases address : criteria.addresses = [] ∨ log.address ∈ criteria.addresses
  · have passed : ¬ (!criteria.addresses.isEmpty && !criteria.addresses.contains log.address) = true := by
      simpa [or_iff_not_imp_left] using address
    rw [if_neg passed]
    by_cases short : log.topics.length < criteria.topics.length
    · simp [Nat.not_le.mpr short]
    · rw [if_neg short, topics_match_iff _ _ (Nat.not_lt.mp short)]
      simp [address, Nat.not_lt.mp short]
  · have refused : (!criteria.addresses.isEmpty && !criteria.addresses.contains log.address) = true := by
      simpa using address
    simp [address]

theorem filter_logs_eq (logs : List Log) : criteria.filterLogs logs none none = logs.filter fun log => criteria.Meets log := by
  refine filter_congr fun log _ => ?_
  rw [Bool.eq_iff_iff, selects_iff, decide_eq_true_iff]

end Matching

namespace Backend

variable (bits : Bloom9) (b : Backend) (criteria : Criteria)

variable (block : Block)

def storedLogs : List Log := ((b.getReceipts block.header.hash).getD []).flatMap Receipt.logs

def wanted : List Log := (b.storedLogs block).filter fun log => criteria.Meets log

def wantedAt (number : Nat) : List Log := (b.headerByNumber number).elim [] (b.wanted criteria)

def Shown : Prop := b.wanted criteria block ≠ [] → bloomFilter bits block.bloom criteria = true

theorem check_matches_eq : b.checkMatches criteria block = b.wanted criteria block := by
  have flat : ((b.getLogs block.header.hash).getD []).flatten = b.storedLogs block := by
    unfold getLogs storedLogs
    cases b.getReceipts block.header.hash with
    | none => rfl
    | some receipts => simp [flatMap_def]
  unfold checkMatches
  rw [flat, filter_logs_eq]
  split
  · next none => exact none.symm
  · next first rest found =>
      split
      · exact filter_logs_eq criteria _
      · exact found.symm

theorem block_logs_iff : b.blockLogs bits criteria block = b.wanted criteria block ↔ b.Shown bits criteria block := by
  unfold blockLogs Shown
  rw [check_matches_eq]
  split
  · next passes => simp [passes]
  · next hidden =>
      constructor
      · exact fun same some => absurd same.symm some
      · exact fun shown => (not_not.mp fun some => hidden (shown some)).symm

theorem block_logs_cases : b.blockLogs bits criteria block = b.wanted criteria block ∨ b.blockLogs bits criteria block = [] := by
  unfold blockLogs
  rw [check_matches_eq]
  split
  · exact .inl rfl
  · exact .inr rfl

theorem unindexed_step (number : Nat) (block : Block) :
    (if bloomFilter bits block.bloom criteria || bloomFilter bits (b.vaultBlockBloom number) criteria then
      b.blockLogs bits criteria block else []) = b.blockLogs bits criteria block := by
  split
  · rfl
  · next neither =>
      rw [Bool.or_eq_true, not_or] at neither
      unfold blockLogs
      rw [if_neg neither.1]

theorem unindexed_length_le (ns : List Nat) : (b.unindexedLogs bits criteria ns).length ≤ (ns.flatMap (b.wantedAt criteria)).length := by
  induction ns with
  | nil => exact le_rfl
  | cons number rest ih =>
    unfold unindexedLogs
    rw [flatMap_cons, length_append]
    cases found : b.headerByNumber number with
    | none => exact Nat.zero_le _
    | some block =>
      dsimp only
      rw [unindexed_step, length_append, wantedAt, found]
      refine Nat.add_le_add ?_ ih
      obtain same | none := b.block_logs_cases bits criteria block
      · exact le_of_eq (congrArg length same)
      · rw [none]
        exact Nat.zero_le _

theorem unindexed_iff (ns : List Nat) (existing : ∀ number ∈ ns, (b.headerByNumber number).isSome) :
    b.unindexedLogs bits criteria ns = ns.flatMap (b.wantedAt criteria) ↔
      ∀ number ∈ ns, ∀ block, b.headerByNumber number = some block → b.Shown bits criteria block := by
  induction ns with
  | nil => simp [unindexedLogs]
  | cons number rest ih =>
    obtain ⟨block, found⟩ := Option.isSome_iff_exists.mp (existing number mem_cons_self)
    have later := ih fun other member => existing other (mem_cons_of_mem _ member)
    have step : b.unindexedLogs bits criteria (number :: rest) =
        b.blockLogs bits criteria block ++ b.unindexedLogs bits criteria rest := by
      rw [unindexedLogs, found]
      dsimp only
      rw [unindexed_step]
    have here : b.wantedAt criteria number = b.wanted criteria block := by rw [wantedAt, found]; rfl
    simp only [forall_mem_cons, found, Option.some.injEq, forall_eq', step, flatMap_cons, here, ← later]
    rw [← block_logs_iff]
    constructor
    · intro same
      -- neither part is longer than what is wanted of it
      have lengths := congrArg length same
      have most := b.unindexed_length_le bits criteria rest
      have part : (b.blockLogs bits criteria block).length ≤ (b.wanted criteria block).length := by
        obtain same | none := b.block_logs_cases bits criteria block
        · exact le_of_eq (congrArg length same)
        · rw [none]
          exact Nat.zero_le _
      rw [length_append, length_append] at lengths
      exact append_inj same (by omega)
    · rintro ⟨first, others⟩
      rw [first, others]

theorem indexed_loop_eq (last : Int) (ns : List Nat) (existing : ∀ number ∈ ns, (b.headerByNumber number).isSome)
    (fed : ∀ number ∈ ns, ∀ block, b.headerByNumber number = some block → ∃ vault, b.indexed number = block.bloom ||| vault)
    (shown : ∀ number ∈ ns, ∀ block, b.headerByNumber number = some block → b.Shown bits criteria block) :
    b.indexedLoop criteria last (ns.filter fun number => bloomFilter bits (b.indexed number) criteria) =
      (ns.flatMap (b.wantedAt criteria), last + 1) := by
  induction ns with
  | nil => rfl
  | cons number rest ih =>
    obtain ⟨block, found⟩ := Option.isSome_iff_exists.mp (existing number mem_cons_self)
    obtain ⟨vault, bloom⟩ := fed number mem_cons_self block found
    have later := ih (fun other member => existing other (mem_cons_of_mem _ member))
      (fun other member => fed other (mem_cons_of_mem _ member))
      (fun other member => shown other (mem_cons_of_mem _ member))
    have here : b.wantedAt criteria number = b.wanted criteria block := by rw [wantedAt, found]; rfl
    rw [flatMap_cons, here]
    by_cases passes : bloomFilter bits (b.indexed number) criteria = true
    · rw [filter_cons, if_pos passes, indexedLoop, found]
      dsimp only
      rw [later, check_matches_eq]
    · have none : b.wanted criteria block = [] := by
        by_contra some
        have own := shown number mem_cons_self block found some
        rw [bloom] at passes
        exact passes (filter_or bits vault own)
      rw [filter_cons, if_neg passes, later, none, nil_append]

end Backend

theorem numbers_append {first middle last : Int} (start : 0 ≤ first) (one : first ≤ middle + 1) (two : middle ≤ last) :
    numbers first middle ++ numbers (middle + 1) last = numbers first last := by
  unfold numbers
  have meet : (middle + 1).toNat = first.toNat + (middle + 1 - first).toNat := by omega
  have total : (last + 1 - first).toNat = (middle + 1 - first).toNat + (last + 1 - (middle + 1)).toNat := by omega
  rw [meet, total, range'_append_1]

theorem numbers_empty {first last : Int} (past : last < first) : numbers first last = [] := by
  unfold numbers
  rw [show (last + 1 - first).toNat = 0 by omega]
  rfl

namespace Backend

variable (bits : Bloom9) (b : Backend) (criteria : Criteria) (first last : Int)

def range : List Nat := numbers (b.limit first) (b.limit last)

structure Ranged : Prop where
  start : 0 ≤ b.limit first
  existing : ∀ number ∈ b.range first last, (b.headerByNumber number).isSome
  fed : ∀ number ∈ b.range first last, ∀ block, b.headerByNumber number = some block → ∃ vault, b.indexed number = block.bloom ||| vault

variable {b criteria first last}

theorem range_logs_unindexed (none : b.sections = 0) (start : 0 ≤ b.limit first) :
    b.rangeLogs bits criteria first last = b.unindexedLogs bits criteria (b.range first last) := by
  have past : ¬ b.limit first < (b.sections * b.size : Int) := by
    rw [none]
    simpa using start
  simp only [rangeLogs, if_neg past, nil_append, range]

theorem range_logs_shown (ranged : b.Ranged first last)
    (shown : ∀ number ∈ b.range first last, ∀ block, b.headerByNumber number = some block → b.Shown bits criteria block) :
    b.rangeLogs bits criteria first last = (b.range first last).flatMap (b.wantedAt criteria) := by
  have whole := (b.unindexed_iff bits criteria _ ranged.existing).mpr shown
  simp only [rangeLogs]
  by_cases early : b.limit first < (b.sections * b.size : Int)
  · rw [if_pos early]
    by_cases all : b.limit last < (b.sections * b.size : Int)
    · -- the whole range is indexed
      rw [if_pos all, indexedLogs]
      have loop := b.indexed_loop_eq bits criteria (b.limit last) _ ranged.existing ranged.fed shown
      unfold range at loop
      have rest : numbers (b.limit last + 1) (b.limit last) = [] := numbers_empty (by omega)
      rw [loop]
      rw [rest, unindexedLogs, append_nil, range]
    · -- the index ends within the range
      rw [if_neg all, indexedLogs]
      have split : numbers (b.limit first) (b.sections * b.size - 1) ++ numbers (b.sections * b.size - 1 + 1) (b.limit last) =
          b.range first last := numbers_append ranged.start (by omega) (by omega)
      have front : ∀ number ∈ numbers (b.limit first) (b.sections * b.size - 1), number ∈ b.range first last :=
        fun number member => split ▸ mem_append_left _ member
      have back : ∀ number ∈ numbers (b.sections * b.size - 1 + 1) (b.limit last), number ∈ b.range first last :=
        fun number member => split ▸ mem_append_right _ member
      rw [b.indexed_loop_eq bits criteria _ _ (fun number member => ranged.existing number (front number member))
        (fun number member => ranged.fed number (front number member)) (fun number member => shown number (front number member))]
      rw [(b.unindexed_iff bits criteria _ fun number member => ranged.existing number (back number member)).mpr
        fun number member => shown number (back number member), ← flatMap_append, split]
  · rw [if_neg early]
    exact whole

end Backend

end Didux.Filters
