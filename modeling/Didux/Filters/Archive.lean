import Didux.Filters.Filter

set_option autoImplicit false

namespace Didux.Filters

open Sport State Didux.Core Core.Chain Miner List Option

-- What a node has written: the last outcome of each block under its hash, the vault blooms under the numbers of blocks,
-- and which blocks are canonical.
structure Archive where
  system : System
  written : Hash → Option Outcome
  vaultBlooms : Nat → Nat
  canonical : Nat → Option Hash
  head : Nat

def imports : Event → Bool
  | .insert _ => true
  | _ => false

namespace Archive

def start (node : Node) (genesis : Genesis) : Archive where
  system := genesis.system node
  written := Function.update (fun _ => none) genesis.block.header.hash (some ⟨genesis.block, [], [], ∅⟩)
  vaultBlooms _ := 0
  canonical := Function.update (fun _ => none) genesis.block.header.number (some genesis.block.header.hash)
  head := genesis.block.header.number

-- Only insertChain calls WriteVaultBlockBloom.
def write (bits : Bloom9) (a : Archive) (imported : Bool) (o : Outcome) (canonical : Nat → Option Hash) (head : Nat) (system : System) :
    Archive where
  system := system
  written := Function.update a.written o.block.header.hash (some o)
  vaultBlooms :=
    if imported then Function.update a.vaultBlooms o.block.header.number (createBloom bits o.vaultReceipts) else a.vaultBlooms
  canonical := canonical
  head := head

def Numbered (a : Archive) : Prop :=
  ∀ number hash, a.canonical number = some hash → ∃ o, a.written hash = some o ∧ o.block.header.number = number

inductive Step (node : Node) (bits : Bloom9) (a : Archive) : Archive → Prop where
  | begin (event : Event) (next : System) (applied : a.system.apply node event = some next)
      (nothing : a.system.outcome node event = none) : Step node bits a { a with system := next }
  | write (event : Event) (next : System) (o : Outcome) (canonical : Nat → Option Hash) (head : Nat)
      (applied : a.system.apply node event = some next) (outcome : a.system.outcome node event = some o)
      (distinct : (o.block.txs.map Transaction.hash).Nodup)
      (numbered : (a.write bits (imports event) o canonical head next).Numbered) :
      Step node bits a (a.write bits (imports event) o canonical head next)

def outcomeAt (a : Archive) (number : Nat) : Option Outcome := (a.canonical number).bind a.written

-- `vault` are the vault blooms that the indexer found for the blocks at the time it processed them.
def backend (node : Node) (a : Archive) (size : Nat) (vault : Nat → Nat) (sections : Nat) : Backend where
  latest := a.head
  headerByNumber number := (a.outcomeAt number).map Outcome.block
  headerByHash hash := (a.written hash).map Outcome.block
  getReceipts hash := (a.written hash).bind fun o => o.read node.chain
  vaultBlockBloom := a.vaultBlooms
  size := size
  sections := sections
  indexed number := ((a.outcomeAt number).map fun o => o.block.bloom).getD 0 ||| vault number

end Archive

section Contents

variable {bits : Bloom9} {criteria : Criteria} {log other : Log}

theorem meets_content (same : log.content = other.content) : criteria.Meets log ↔ criteria.Meets other := by
  obtain ⟨address, topics, -⟩ := Content.mk.inj same
  rw [Criteria.Meets, Criteria.Meets, address, topics]

theorem covers_content {bloom : Nat} (same : log.content = other.content) (covers : Covers bits bloom log) : Covers bits bloom other := by
  obtain ⟨address, topics, -⟩ := Content.mk.inj same
  rwa [Covers, address, topics] at covers

theorem numbered_contents (bhash : Hash) (blockNumber : Nat) (part : Round → List Content) (index first : Nat) (rounds : List Round) :
    (numbered bhash blockNumber part index first rounds).map Log.content = rounds.flatMap part := by
  induction rounds generalizing index first with
  | nil => rfl
  | cons round rest ih => rw [numbered, map_append, map_content_stamp, ih, flatMap_cons]

end Contents

def Kept (node : Node) (o : Outcome) : Prop :=
  (o.receipts = [] ∧ o.vaultReceipts = []) ∨ ((o.block.txs.map Transaction.hash).Nodup ∧ ∃ rounds, Settled node o rounds)

def readLogs (node : Node) (o : Outcome) : List Log := ((o.read node.chain).getD []).flatMap Receipt.logs

section Kept

variable {node : Node} {bits : Bloom9} {o : Outcome} {rounds : List Round}

variable (blooms : ∀ receipts, node.createBloom receipts = createBloom bits receipts)

include blooms

theorem public_covered (settled : Settled node o rounds) {round : Round} (member : round ∈ rounds) {log : Log}
    (logged : log ∈ round.receipt.logs) : Covers bits o.block.bloom log := by
  obtain ⟨original, -, bloom, same⟩ := settled.header
  have encoded : round.receipt.encodeRLP ∈ original.map Receipt.encodeRLP := by
    rw [same, settled.receipts, List.map_map]
    exact mem_map_of_mem member
  obtain ⟨r, listed, equal⟩ := mem_map.mp encoded
  have contents : r.logs.map Log.content = round.receipt.logs.map Log.content := congrArg ReceiptRLP.logs equal
  have there : log.content ∈ r.logs.map Log.content := contents ▸ mem_map_of_mem logged
  obtain ⟨own, owned, content⟩ := mem_map.mp there
  rw [bloom, blooms]
  exact covers_content content (create_bloom_covers original r listed own owned)

theorem read_log_cases (kept : Kept node o) {log : Log} (read : log ∈ readLogs node o) :
    Covers bits o.block.bloom log ∨ ∃ v ∈ o.vaultReceipts, ∃ own ∈ v.logs, own.content = log.content := by
  obtain ⟨none, vaultNone⟩ | ⟨distinct, rounds, settled⟩ := kept
  · have nothing : o.stored = [] := by simp [Outcome.stored, Outcome.allReceipts, mergeReceipts, none]
    unfold readLogs Outcome.read at read
    rw [nothing] at read
    unfold readReceipts deriveFields at read
    split at read
    · simp at read
    · next length =>
        have empty : o.block.txs = [] := length_eq_zero_iff.mp (not_not.mp length)
        rw [empty] at read
        simp [deriveFrom] at read
  · obtain ⟨receipts, found, -, logs⟩ := read_encode settled distinct
    unfold readLogs at read
    rw [found, getD_some, logs] at read
    have content : log.content ∈ rounds.flatMap Round.contents := by
      rw [← numbered_contents]
      exact mem_map_of_mem read
    obtain ⟨round, member, inside⟩ := mem_flatMap.mp content
    have sound := settled.sound round member
    cases vault : round.vaultReceipt with
    | none =>
      have own : round.receipt.logs.map Log.content = round.contents := by simpa [Round.on, vault] using sound.publicLogs
      obtain ⟨first, logged, same⟩ := mem_map.mp (own ▸ inside)
      exact .inl (covers_content same (public_covered blooms settled member logged))
    | some v =>
      have own : v.logs.map Log.content = round.contents := by simpa [Round.on, vault] using (sound.vault v vault).2.2.1
      obtain ⟨first, logged, same⟩ := mem_map.mp (own ▸ inside)
      refine .inr ⟨v, ?_, first, logged, same⟩
      rw [settled.vaultReceipts]
      exact mem_filterMap.mpr ⟨round, member, vault⟩

omit blooms

theorem vault_log_read (kept : Kept node o) {v : Receipt} (listed : v ∈ o.vaultReceipts) {own : Log} (logged : own ∈ v.logs) :
    ∃ log ∈ readLogs node o, log.content = own.content := by
  obtain ⟨-, none⟩ | ⟨distinct, rounds, settled⟩ := kept
  · simp [none] at listed
  · obtain ⟨receipts, found, -, logs⟩ := read_encode settled distinct
    rw [settled.vaultReceipts] at listed
    obtain ⟨round, member, vault⟩ := mem_filterMap.mp listed
    have contents : v.logs.map Log.content = round.contents := by
      simpa [Round.on, vault] using ((settled.sound round member).vault v vault).2.2.1
    have content : own.content ∈
        (numbered o.block.header.hash (uint64 o.block.header.number) Round.contents 0 0 rounds).map Log.content := by
      rw [numbered_contents]
      exact mem_flatMap.mpr ⟨round, member, contents ▸ mem_map_of_mem logged⟩
    obtain ⟨log, there, same⟩ := mem_map.mp content
    refine ⟨log, ?_, same⟩
    unfold readLogs
    rw [found, getD_some, logs]
    exact there

end Kept

structure Sound (node : Node) (genesis : Genesis) (a : Archive) : Prop where
  run : Relation.ReflTransGen (AnyStep node) (genesis.system node) a.system
  hash : ∀ hash o, a.written hash = some o → o.block.header.hash = hash
  kept : ∀ hash o, a.written hash = some o → Kept node o
  numbered : a.Numbered

section Run

variable {node : Node} {genesis : Genesis} {bits : Bloom9} {a next : Archive}

theorem updated_cases {α β : Type} [DecidableEq α] {table : α → Option β} {key x : α} {new found : β}
    (updated : Function.update table key (some new) x = some found) : (x = key ∧ found = new) ∨ table x = some found := by
  by_cases same : x = key
  · subst same
    rw [Function.update_self] at updated
    exact .inl ⟨rfl, (some.inj updated).symm⟩
  · rw [Function.update_of_ne same] at updated
    exact .inr updated

theorem start_written {hash : Hash} {o : Outcome} (written : (Archive.start node genesis).written hash = some o) :
    hash = genesis.block.header.hash ∧ o = ⟨genesis.block, [], [], ∅⟩ := by
  have updated : Function.update (fun _ => none) genesis.block.header.hash (some ⟨genesis.block, [], [], ∅⟩) hash = some o := written
  exact (updated_cases updated).resolve_right nofun

theorem sound_start : Sound node genesis (.start node genesis) where
  run := .refl
  hash := by
    intro hash o written
    obtain ⟨rfl, rfl⟩ := start_written written
    rfl
  kept := by
    intro hash o written
    obtain ⟨rfl, rfl⟩ := start_written written
    exact .inl ⟨rfl, rfl⟩
  numbered := by
    intro number hash canonical
    have updated : Function.update (fun _ => none) genesis.block.header.number (some genesis.block.header.hash) number = some hash :=
      canonical
    obtain ⟨rfl, rfl⟩ := (updated_cases updated).resolve_right nofun
    have written : (Archive.start node genesis).written genesis.block.header.hash = some ⟨genesis.block, [], [], ∅⟩ := by
      simp [Archive.start]
    exact ⟨_, written, rfl⟩

theorem sound_step (sound : Sound node genesis a) (step : a.Step node bits next) : Sound node genesis next := by
  cases step with
  | begin event system applied nothing => exact ⟨sound.run.tail ⟨event, applied⟩, sound.hash, sound.kept, sound.numbered⟩
  | write event system o canonical head applied outcome distinct numbered =>
    refine ⟨sound.run.tail ⟨event, applied⟩, ?_, ?_, numbered⟩
    · intro hash found written
      obtain ⟨rfl, rfl⟩ | before := updated_cases written
      · rfl
      · exact sound.hash hash found before
    · intro hash found written
      obtain ⟨rfl, rfl⟩ | before := updated_cases written
      · exact .inr ⟨distinct, settled_outcome sound.run outcome distinct⟩
      · exact sound.kept hash found before

theorem sound_run (run : Relation.ReflTransGen (Archive.Step node bits) (.start node genesis) a) : Sound node genesis a := by
  induction run with
  | refl => exact sound_start
  | tail _ step ih => exact sound_step ih step

end Run

def Unhidden (bits : Bloom9) (criteria : Criteria) (o : Outcome) : Prop :=
  ∀ v ∈ o.vaultReceipts, ∀ log ∈ v.logs, criteria.Meets log → bloomFilter bits o.block.bloom criteria = true

section Backend

variable {node : Node} {genesis : Genesis} {bits : Bloom9} {a : Archive} {criteria : Criteria} {size sections : Nat} {vault : Nat → Nat}

variable {hash : Hash}

theorem stored_logs_eq (sound : Sound node genesis a) {o : Outcome} (written : a.written hash = some o) :
    (a.backend node size vault sections).storedLogs o.block = readLogs node o := by
  have read : (a.backend node size vault sections).getReceipts hash = o.read node.chain := by simp [Archive.backend, written]
  unfold Backend.storedLogs readLogs
  rw [sound.hash hash o written, read]

theorem shown_iff (blooms : ∀ receipts, node.createBloom receipts = createBloom bits receipts) (sound : Sound node genesis a)
    {o : Outcome} (written : a.written hash = some o) :
    (a.backend node size vault sections).Shown bits criteria o.block ↔ Unhidden bits criteria o := by
  have kept := sound.kept hash o written
  unfold Backend.Shown Backend.wanted
  rw [stored_logs_eq sound written]
  constructor
  · intro shown v listed own logged meets
    obtain ⟨log, read, same⟩ := vault_log_read kept listed logged
    refine shown (ne_nil_of_mem (mem_filter.mpr ⟨read, ?_⟩))
    exact decide_eq_true ((meets_content same).mpr meets)
  · intro unhidden some
    obtain ⟨log, member⟩ := exists_mem_of_ne_nil _ some
    obtain ⟨read, decided⟩ := mem_filter.mp member
    have meets := of_decide_eq_true decided
    obtain covers | ⟨v, listed, own, logged, same⟩ := read_log_cases blooms kept read
    · exact covers_passes covers meets
    · exact unhidden v listed own logged ((meets_content same).mpr meets)

theorem wanted_eq (sound : Sound node genesis a) {o : Outcome} (written : a.written hash = some o) :
    (a.backend node size vault sections).wanted criteria o.block = (readLogs node o).filter fun log => criteria.Meets log := by
  rw [Backend.wanted, stored_logs_eq sound written]

theorem wanted_at_eq (sound : Sound node genesis a) : (a.backend node size vault sections).wantedAt criteria = fun number =>
    (a.outcomeAt number).elim [] fun o => (readLogs node o).filter fun log => criteria.Meets log := by
  funext number
  cases here : a.outcomeAt number with
  | none => simp [Backend.wantedAt, Archive.backend, here]
  | some o =>
    obtain ⟨hash, -, written⟩ := bind_eq_some_iff.mp here
    have header : (a.backend node size vault sections).headerByNumber number = some o.block := by simp [Archive.backend, here]
    rw [Backend.wantedAt, header]
    exact wanted_eq sound written

theorem range_shown_iff (blooms : ∀ receipts, node.createBloom receipts = createBloom bits receipts) (sound : Sound node genesis a)
    (ns : List Nat) : (∀ number ∈ ns, ∀ block, (a.backend node size vault sections).headerByNumber number = some block →
      (a.backend node size vault sections).Shown bits criteria block) ↔
      ∀ number ∈ ns, ∀ o, a.outcomeAt number = some o → Unhidden bits criteria o := by
  refine forall₂_congr fun number _ => ?_
  constructor
  · intro shown o here
    obtain ⟨hash, -, written⟩ := bind_eq_some_iff.mp here
    exact (shown_iff blooms sound written).mp (shown o.block (by simp [Archive.backend, here]))
  · intro unhidden block found
    obtain ⟨o, here, rfl⟩ := map_eq_some_iff.mp found
    obtain ⟨hash, -, written⟩ := bind_eq_some_iff.mp here
    exact (shown_iff blooms sound written).mpr (unhidden o here)

end Backend

structure Archive.Existing (a : Archive) (first last : Int) : Prop where
  start : first = -1 ∨ 0 ≤ first
  stop : last = -1 ∨ 0 ≤ last
  canonical : ∀ number : Nat, (if first = -1 then (a.head : Int) else first) ≤ number →
    number ≤ (if last = -1 then (a.head : Int) else last) → (a.canonical number).isSome

section Ranged

variable {node : Node} {a : Archive} {size sections : Nat} {vault : Nat → Nat} {first last : Int}

theorem mem_numbers_iff {first last : Int} (start : 0 ≤ first) (number : Nat) :
    number ∈ numbers first last ↔ first ≤ number ∧ (number : Int) ≤ last := by
  unfold numbers
  rw [mem_range'_1]
  omega

theorem limit_nonneg (existing : a.Existing first last) : 0 ≤ (a.backend node size vault sections).limit first := by
  unfold Backend.limit
  split
  · exact Int.natCast_nonneg _
  · next other => exact existing.start.resolve_left other

theorem ranged_existing (numbered : a.Numbered) (existing : a.Existing first last) :
    (a.backend node size vault sections).Ranged first last where
  start := limit_nonneg existing
  existing := by
    intro number member
    obtain ⟨low, high⟩ := (mem_numbers_iff (limit_nonneg existing) number).mp member
    obtain ⟨hash, canonical⟩ := isSome_iff_exists.mp (existing.canonical number low high)
    obtain ⟨o, written, -⟩ := numbered number hash canonical
    simp [Archive.backend, Archive.outcomeAt, canonical, written]
  fed := by
    intro number _ block found
    obtain ⟨o, here, rfl⟩ := map_eq_some_iff.mp found
    exact ⟨vault number, by simp [Archive.backend, here]⟩

end Ranged

-- The blooms of headers are made by CreateBloom. A filter of a range returns all it should, for every number of indexed
-- sections, and a filter of one block does, if and only if the header's bloom hides no log of a vault transaction.
theorem filter_complete_iff (node : Node) (genesis : Genesis) (bits : Bloom9)
    (blooms : ∀ receipts, node.createBloom receipts = createBloom bits receipts) (a : Archive)
    (run : Relation.ReflTransGen (Archive.Step node bits) (.start node genesis) a) (criteria : Criteria) (size : Nat)
    (vault : Nat → Nat) :
    (∀ first last, a.Existing first last →
      ((∀ sections, (a.backend node size vault sections).logs bits criteria 0 first last =
        some (((a.backend node size vault sections).range first last).flatMap fun number =>
          (a.outcomeAt number).elim [] fun o => (readLogs node o).filter fun log => criteria.Meets log)) ↔
        ∀ number ∈ (a.backend node size vault 0).range first last, ∀ o, a.outcomeAt number = some o →
          Unhidden bits criteria o)) ∧ ∀ hash o first last sections, hash ≠ 0 → a.written hash = some o →
      ((a.backend node size vault sections).logs bits criteria hash first last =
        some ((readLogs node o).filter fun log => criteria.Meets log) ↔ Unhidden bits criteria o) := by
  have sound := sound_run run
  constructor
  · intro first last existing
    have ranged : ∀ sections, (a.backend node size vault sections).Ranged first last :=
      fun sections => ranged_existing sound.numbered existing
    have answer : ∀ sections, (a.backend node size vault sections).logs bits criteria 0 first last =
        some ((a.backend node size vault sections).rangeLogs bits criteria first last) := fun sections => if_neg (not_not.mpr rfl)
    simp only [answer, some.injEq]
    constructor
    · intro complete
      have unindexed := complete 0
      rw [Backend.range_logs_unindexed bits rfl (ranged 0).start, ← wanted_at_eq sound] at unindexed
      exact (range_shown_iff blooms sound _).mp ((Backend.unindexed_iff _ _ _ _ (ranged 0).existing).mp unindexed)
    · intro unhidden sections
      rw [← wanted_at_eq sound]
      exact Backend.range_logs_shown bits (ranged sections) ((range_shown_iff blooms sound _).mpr unhidden)
  · intro hash o first last sections nonzero written
    have found : (a.backend node size vault sections).headerByHash hash = some o.block := by simp [Archive.backend, written]
    unfold Backend.logs
    rw [if_pos nonzero, found, map_some, some.injEq, ← wanted_eq sound written, Backend.block_logs_iff,
      shown_iff blooms sound written]

def filterBits : Bloom9 := ⟨fun _ => 1, fun _ => 2⟩

def filterNode : Node := { logNode with createBloom := createBloom filterBits }

def childCanonical (number : Nat) : Option Hash := if number = 4 then some 1 else if number = 5 then some 2 else none

def childArchive (o : Outcome) (next : System) : Archive :=
  (Archive.start filterNode logGenesis).write filterBits true o childCanonical 5 next

theorem child_step {block : Block} {o : Outcome} {next : System} (hash : block.header.hash = 2) (number : block.header.number = 5)
    (outcome : (logGenesis.system filterNode).outcome filterNode (.insert block) = some o)
    (applied : (logGenesis.system filterNode).apply filterNode (.insert block) = some next)
    (distinct : (block.txs.map Transaction.hash).Nodup) :
    Archive.Step filterNode filterBits (.start filterNode logGenesis) (childArchive o next) := by
  have same := inserted_block outcome
  have own : (childArchive o next).written 2 = some o := by simp [childArchive, Archive.write, same, hash]
  have first : (childArchive o next).written 1 = some ⟨logGenesis.block, [], [], ∅⟩ := by
    simp [childArchive, Archive.write, same, hash, Archive.start, logGenesis]
  have numbered : (childArchive o next).Numbered := by
    intro n canonical there
    change childCanonical n = some canonical at there
    unfold childCanonical at there
    split at there
    · next four =>
        obtain rfl := some.inj there
        exact ⟨_, first, four.symm⟩
    · split at there
      · next five =>
          obtain rfl := some.inj there
          exact ⟨o, own, by rw [same, number, five]⟩
      · contradiction
  rw [← same] at distinct
  exact Archive.Step.write (a := Archive.start filterNode logGenesis) (.insert block) next o childCanonical 5 applied outcome distinct
    numbered

theorem child_at {block : Block} {o : Outcome} {next : System} (hash : block.header.hash = 2)
    (outcome : (logGenesis.system filterNode).outcome filterNode (.insert block) = some o) :
    (childArchive o next).outcomeAt 5 = some o := by
  simp [Archive.outcomeAt, childArchive, Archive.write, inserted_block outcome, hash, childCanonical]

theorem child_existing (o : Outcome) (next : System) : (childArchive o next).Existing 5 5 where
  start := .inr (by decide)
  stop := .inr (by decide)
  canonical := by
    intro number low high
    have five : number = 5 := by
      omega
    rw [five]
    rfl

def vaultLog : Log := ⟨2, [], [], 5, 1, 0, 2, 0⟩

theorem vault_log_answers : ((logGenesis.system filterNode).outcome filterNode (.insert vaultLogBlock)).bind (fun o =>
      ((logGenesis.system filterNode).apply filterNode (.insert vaultLogBlock)).map fun next =>
        let answer sections := ((childArchive o next).backend filterNode 4
          (childArchive o next).vaultBlooms sections).logs filterBits ⟨[2], []⟩ 0 5 5
        (answer 0, answer 2, readLogs filterNode o)) = some (some [], some [vaultLog], [vaultLog]) := by
  decide +kernel

theorem unindexed_vault_log_missed :
    ∃ a o, Archive.Step filterNode filterBits (.start filterNode logGenesis) a ∧ a.Existing 5 5 ∧ a.outcomeAt 5 = some o ∧
      readLogs filterNode o = [vaultLog] ∧ Criteria.Meets ⟨[2], []⟩ vaultLog ∧
      (a.backend filterNode 4 a.vaultBlooms 0).logs filterBits ⟨[2], []⟩ 0 5 5 = some [] ∧
      (a.backend filterNode 4 a.vaultBlooms 2).logs filterBits ⟨[2], []⟩ 0 5 5 = some [vaultLog] := by
  obtain ⟨o, outcome, rest⟩ := bind_eq_some_iff.mp vault_log_answers
  obtain ⟨next, applied, answers⟩ := map_eq_some_iff.mp rest
  obtain ⟨none, rest⟩ := Prod.mk.inj answers
  obtain ⟨some, read⟩ := Prod.mk.inj rest
  exact ⟨childArchive o next, o, child_step rfl rfl outcome applied (by decide), child_existing o next, child_at rfl outcome, read,
    by decide, none, some⟩

-- A public and a vault transaction with a log each.
def bothLogsBlock : Block := { payloadBlock 53068 2 [payloadTransaction 0 false 2, payloadTransaction 1 true 2] with bloom := 1 }

def bothLogs : List Log := [vaultLog, ⟨3, [], [], 5, 2, 1, 2, 1⟩]

theorem both_logs_outcome : ((logGenesis.system filterNode).outcome filterNode (.insert bothLogsBlock)).bind (fun o =>
      ((logGenesis.system filterNode).apply filterNode (.insert bothLogsBlock)).map fun _ =>
        decide ((∃ v ∈ o.vaultReceipts, v.logs ≠ []) ∧ readLogs filterNode o = bothLogs)) = some true := by
  decide +kernel

theorem filter_complete_iff_vault : ∃ a, Archive.Step filterNode filterBits (.start filterNode logGenesis) a ∧
      ∀ sections, (a.backend filterNode 4 a.vaultBlooms sections).logs filterBits ⟨[2, 3], []⟩ 0 5 5 = some bothLogs := by
  obtain ⟨o, outcome, rest⟩ := bind_eq_some_iff.mp both_logs_outcome
  obtain ⟨next, applied, facts⟩ := map_eq_some_iff.mp rest
  obtain ⟨_, read⟩ := of_decide_eq_true facts
  have step := child_step rfl rfl outcome applied (by decide)
  have here : (childArchive o next).outcomeAt 5 = some o := child_at rfl outcome
  have only : ∀ sections, ((childArchive o next).backend filterNode 4 (childArchive o next).vaultBlooms sections).range 5 5 = [5] :=
    fun _ => rfl
  have complete := (filter_complete_iff filterNode logGenesis filterBits (fun _ => rfl) (childArchive o next)
    (.single step) ⟨[2, 3], []⟩ 4
    (childArchive o next).vaultBlooms).1 5 5 (child_existing o next)
  simp only [only, flatMap_singleton, here, elim_some, read, mem_singleton, forall_eq, some.injEq, forall_eq'] at complete
  refine ⟨childArchive o next, step, complete.mpr fun _ _ _ _ _ => ?_⟩
  rw [inserted_block outcome]
  rfl

end Didux.Filters
