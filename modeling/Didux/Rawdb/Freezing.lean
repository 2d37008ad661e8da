import Didux.Rawdb.Accessors

set_option autoImplicit false

namespace Didux.Rawdb

open Sport Didux.Core Function List Nat Reader Disk Program

def immutabilityThreshold : Nat := 90000

def freezerBatchLimit : Nat := 30000

def ancientRecord (hash header body receipts td : Bytes) : Record
  | .hashes => hash
  | .headers => header
  | .bodies => body
  | .receipts => receipts
  | .diffs => td

namespace Disk

def nofreeze (d : Disk) : Disk := { d with tables := fun _ => [] }

def load (c : Codec) (d : Disk) (number : Nat) : Option (Hash × Record) :=
  let hash := (readCanonicalHash c number).alone answer d.nofreeze
  let header := (readHeaderRLP hash number).alone answer d.nofreeze
  let body := (readBodyRLP hash number).alone answer d.nofreeze
  let receipts := (readReceiptsRLP hash number).alone answer d.nofreeze
  let td := (readTdRLP hash number).alone answer d.nofreeze
  if hash = 0 ∨ header = [] ∨ body = [] ∨ receipts = [] ∨ td = [] then none
  else some (hash, ancientRecord (c.hashBytes hash) header body receipts td)

-- The first batch: the blocks that were frozen from `number` on. The genesis block is kept.
def wipe : Nat → List Hash → Disk → Disk
  | _, [], d => d
  | number, hash :: rest, d =>
    wipe (number + 1) rest (if number ≠ 0 then (d.deleteBlock hash number).delete (.canonical number) else d)

-- The second batch: all blocks of these numbers that have a header, which is where ReadAllHashes finds them.
def wipeSides (first last : Nat) (d : Disk) : Disk :=
  { d with
    active := fun
      | .canonical number => d.active (.canonical number)
      | .part kind number hash =>
        if number ≠ 0 ∧ first ≤ number ∧ number < last ∧ (d.active (.part .headers number hash)).isSome then none
        else d.active (.part kind number hash) }

end Disk

inductive Phase where
  | append
  | sync
  | wipe
  | sides
deriving DecidableEq

-- The disk with the variables of the freezer's loop. `loaded` is the block that is being appended.
structure Freezing where
  disk : Disk
  frozen : Nat
  first : Nat
  ancients : List Hash
  loaded : Option (Hash × Record)
  phase : Phase

namespace Freezing

def limit (head : Nat) (s : Freezing) : Nat := min (head - immutabilityThreshold) (s.first + freezerBatchLimit)

def filled (s : Freezing) (kind : Kind) : Prop := (s.disk.tables kind).length = s.frozen + 1

inductive Step (c : Codec) (head : Nat) (s : Freezing) : Freezing → Prop where
  | load (block : Hash × Record) (phase : s.phase = .append) (idle : s.loaded = none) (within : s.frozen < s.limit head)
      (read : s.disk.load c s.frozen = some block) : Step c head s { s with loaded := some block }
  | part (block : Hash × Record) (kind : Kind) (before after : List Kind) (loaded : s.loaded = some block)
      (order : Kind.all = before ++ kind :: after) (filled : ∀ earlier ∈ before, s.filled earlier)
      (next : (s.disk.tables kind).length = s.frozen) :
      Step c head s { s with disk := { s.disk with
        tables := update s.disk.tables kind (s.disk.tables kind ++ [block.2 kind]) } }
  | finish (block : Hash × Record) (loaded : s.loaded = some block) (filled : ∀ kind, s.filled kind) :
      Step c head s { s with frozen := s.frozen + 1, ancients := s.ancients ++ [block.1], loaded := none }
  -- an append failed: the tables are cut back
  | fail (block : Hash × Record) (loaded : s.loaded = some block) :
      Step c head s { s with
        disk := { s.disk with tables := fun kind => (s.disk.tables kind).take s.frozen }
        loaded := none
        phase := .sync }
  | stop (phase : s.phase = .append) (idle : s.loaded = none) : Step c head s { s with phase := .sync }
  | sync (phase : s.phase = .sync) : Step c head s { s with phase := .wipe }
  | wipe (phase : s.phase = .wipe) : Step c head s { s with disk := s.disk.wipe s.first s.ancients, phase := .sides }
  | sides (phase : s.phase = .sides) :
      Step c head s { s with
        disk := s.disk.wipeSides s.first s.frozen
        first := s.frozen
        ancients := []
        phase := .append }

end Freezing

namespace Disk

variable {d : Disk}

variable {key : Key}

@[simp] theorem delete_tables : (d.delete key).tables = d.tables := rfl

theorem delete_other {other : Key} (apart : other ≠ key) : (d.delete key).active other = d.active other :=
  update_of_ne apart _ _

theorem delete_le {other : Key} {data : Bytes} (found : (d.delete key).active other = some data) : d.active other = some data := by
  by_cases same : other = key
  · subst same
    have gone : (d.delete other).active other = none := update_self ..
    rw [gone] at found
    contradiction
  · rwa [delete_other same] at found

theorem delete_block_le {hash : Hash} {number : Nat} {data : Bytes} (found : (d.deleteBlock hash number).active key = some data) :
    d.active key = some data := delete_le (delete_le (delete_le (delete_le found)))

theorem delete_block_other {hash : Hash} {number : Nat} (apart : key.number ≠ number) :
    (d.deleteBlock hash number).active key = d.active key := by
  have other : ∀ kind, key ≠ .part kind number hash := by
    rintro kind rfl
    exact apart rfl
  unfold deleteBlock
  rw [delete_other (other _), delete_other (other _), delete_other (other _), delete_other (other _)]

variable (number : Nat) (hashes : List Hash)

theorem wipe_tables : (d.wipe number hashes).tables = d.tables := by
  induction hashes generalizing number d with
  | nil => rfl
  | cons hash rest ih =>
    unfold wipe
    rw [ih]
    split <;> rfl

theorem wipe_other {key : Key} (apart : key.number = 0 ∨ key.number < number ∨ number + hashes.length ≤ key.number) :
    (d.wipe number hashes).active key = d.active key := by
  induction hashes generalizing number d with
  | nil => rfl
  | cons hash rest ih =>
    rw [length_cons] at apart
    unfold wipe
    rw [ih (number + 1) (by omega)]
    split
    · next positive =>
        have away : key.number ≠ number := by omega
        have other : key ≠ .canonical number := by
          rintro rfl
          exact away rfl
        rw [delete_other other, delete_block_other away]
    · rfl

theorem wipe_le {key : Key} {data : Bytes} (found : (d.wipe number hashes).active key = some data) :
    d.active key = some data := by
  induction hashes generalizing number d with
  | nil => exact found
  | cons hash rest ih =>
    have before := ih (number + 1) found
    split at before
    · exact delete_block_le (delete_le before)
    · exact before

theorem wipe_sides_le (first last : Nat) {key : Key} {data : Bytes} (found : (d.wipeSides first last).active key = some data) :
    d.active key = some data := by
  cases key with
  | canonical number => exact found
  | part kind number hash =>
    unfold wipeSides at found
    dsimp only at found
    split at found
    · contradiction
    · exact found

theorem wipe_sides_other {first last : Nat} {key : Key} (apart : key.number = 0 ∨ key.number < first ∨ last ≤ key.number) :
    (d.wipeSides first last).active key = d.active key := by
  cases key with
  | canonical number => rfl
  | part kind number hash =>
    change number = 0 ∨ number < first ∨ last ≤ number at apart
    exact if_neg fun inside => by omega

end Disk

structure Canonical (c : Codec) where
  hash : Nat → Hash
  parts : Nat → Record
  hashes : ∀ number, parts number .hashes = c.hashBytes (hash number)
  nonempty : ∀ number kind, parts number kind ≠ []

namespace Canonical

variable {c : Codec} (chain : Canonical c)

def key (kind : Kind) (number : Nat) : Key :=
  match kind with
  | .hashes => .canonical number
  | kind => .part kind number (chain.hash number)

def Present (d : Disk) (number : Nat) : Prop := ∀ kind, d.active (chain.key kind number) = some (chain.parts number kind)

structure Holds (head : Nat) (s : Freezing) : Prop where
  below : s.frozen ≤ head
  within : s.first + s.ancients.length ≤ s.frozen
  loaded : ∀ block, s.loaded = some block → block = (chain.hash s.frozen, chain.parts s.frozen) ∧ s.frozen < head
  tables : ∀ kind, ∃ length, s.disk.tables kind = (range length).map (chain.parts · kind) ∧
    (length = s.frozen ∨ (length = s.frozen + 1 ∧ s.loaded.isSome))
  stored : ∀ number ≤ head, ∀ kind data, s.disk.active (chain.key kind number) = some data → data = chain.parts number kind
  present : ∀ number ≤ head, chain.Present s.disk number ∨ (0 < number ∧ number < s.frozen)

end Canonical

section Holds

variable {c : Codec} {chain : Canonical c} {head : Nat} {s t : Freezing}

theorem number_key (kind : Kind) (number : Nat) : (chain.key kind number).number = number := by cases kind <;> rfl

theorem read_nofreeze (d : Disk) (kind : Kind) (number : Nat) (key : Key) :
    (readRLP kind number key).alone answer d.nofreeze = (d.active key).getD [] := by
  rw [read_rlp_alone]
  rfl

theorem load_present (lawful : c.Lawful) {d : Disk} {number : Nat} (present : chain.Present d number) :
    d.load c number = if chain.hash number = 0 then none else some (chain.hash number, chain.parts number) := by
  have found : ∀ kind, (readRLP kind number (chain.key kind number)).alone answer d.nofreeze = chain.parts number kind := by
    intro kind
    rw [read_nofreeze, present kind, Option.getD_some]
  have canonical : (readCanonicalHash c number).alone answer d.nofreeze = chain.hash number := by
    have data := found .hashes
    change (readRLP .hashes number (.canonical number)).alone answer d.nofreeze = _ at data
    rw [readCanonicalHash, alone_bind, data, chain.hashes, if_neg (lawful.hashSome _), lawful.hash]
    rfl
  have header : (readHeaderRLP (chain.hash number) number).alone answer d.nofreeze = chain.parts number .headers := found .headers
  have body : (readBodyRLP (chain.hash number) number).alone answer d.nofreeze = chain.parts number .bodies := found .bodies
  have receipts : (readReceiptsRLP (chain.hash number) number).alone answer d.nofreeze = chain.parts number .receipts :=
    found .receipts
  have td : (readTdRLP (chain.hash number) number).alone answer d.nofreeze = chain.parts number .diffs := found .diffs
  have parts : ancientRecord (c.hashBytes (chain.hash number)) (chain.parts number .headers) (chain.parts number .bodies)
      (chain.parts number .receipts) (chain.parts number .diffs) = chain.parts number := by
    funext kind
    cases kind with
    | hashes => exact (chain.hashes number).symm
    | _ => rfl
  simp only [load, canonical, header, body, receipts, td, parts, chain.nonempty, or_false]

theorem holds_step (lawful : c.Lawful) (holds : chain.Holds head s) (step : s.Step c head t) : chain.Holds head t := by
  cases step with
  | load block phase idle within read =>
    have low : s.frozen < head := lt_of_lt_of_le within (le_trans (min_le_left _ _) (sub_le _ _))
    have next : chain.Present s.disk s.frozen := (holds.present s.frozen holds.below).resolve_right fun past => by omega
    refine ⟨holds.below, holds.within, ?_, ?_, holds.stored, holds.present⟩
    · rintro _ ⟨⟩
      rw [load_present lawful next] at read
      split at read
      · nomatch read
      · exact ⟨(Option.some.inj read).symm, low⟩
    · intro kind
      obtain ⟨length, same, lengths⟩ := holds.tables kind
      refine ⟨length, same, .inl (lengths.resolve_right fun more => ?_)⟩
      rw [idle] at more
      exact absurd more.2 (by decide)
  | part block kind before after loaded order filled next =>
    obtain ⟨rfl, low⟩ := holds.loaded block loaded
    refine ⟨holds.below, holds.within, holds.loaded, ?_, holds.stored, holds.present⟩
    intro other
    by_cases same : other = kind
    · subst same
      obtain ⟨length, table, -⟩ := holds.tables other
      have exact : length = s.frozen := by simpa [table] using next
      refine ⟨s.frozen + 1, ?_, .inr ⟨rfl, by rw [loaded]; rfl⟩⟩
      show update _ other _ other = _
      rw [update_self, table, exact, range_succ, map_append]
      rfl
    · show ∃ length, update _ kind _ other = _ ∧ _
      rw [update_of_ne same]
      exact holds.tables other
  | finish block loaded filled =>
    obtain ⟨rfl, low⟩ := holds.loaded block loaded
    refine ⟨low, ?_, nofun, ?_, holds.stored, ?_⟩
    · have within := holds.within
      simp only [length_append, length_singleton]
      omega
    · intro kind
      obtain ⟨length, table, -⟩ := holds.tables kind
      have full : length = s.frozen + 1 := by
        have all : (s.disk.tables kind).length = s.frozen + 1 := filled kind
        simpa [table] using all
      exact ⟨length, table, .inl full⟩
    · intro number low
      exact (holds.present number low).imp_right fun past => ⟨past.1, lt_succ_of_lt past.2⟩
  | fail block loaded =>
    refine ⟨holds.below, holds.within, nofun, ?_, holds.stored, holds.present⟩
    intro kind
    obtain ⟨length, table, lengths⟩ := holds.tables kind
    refine ⟨s.frozen, ?_, .inl rfl⟩
    show (s.disk.tables kind).take s.frozen = _
    rw [table, ← map_take, take_range, min_eq_left (by omega)]
  | stop phase idle => exact ⟨holds.below, holds.within, holds.loaded, holds.tables, holds.stored, holds.present⟩
  | sync phase => exact ⟨holds.below, holds.within, holds.loaded, holds.tables, holds.stored, holds.present⟩
  | wipe phase =>
    refine ⟨holds.below, holds.within, holds.loaded, ?_, ?_, ?_⟩
    · rw [wipe_tables]
      exact holds.tables
    · exact fun number low kind data found => holds.stored number low kind data (wipe_le _ _ found)
    · intro number low
      by_cases inside : 0 < number ∧ number < s.frozen
      · exact .inr inside
      · have within := holds.within
        have present := (holds.present number low).resolve_right inside
        refine .inl fun kind => ?_
        rw [wipe_other _ _ (by rw [number_key]; omega)]
        exact present kind
  | sides phase =>
    refine ⟨holds.below, by simp, holds.loaded, holds.tables, ?_, ?_⟩
    · exact fun number low kind data found => holds.stored number low kind data (wipe_sides_le _ _ found)
    · intro number low
      by_cases inside : 0 < number ∧ number < s.frozen
      · exact .inr inside
      · have present := (holds.present number low).resolve_right inside
        refine .inl fun kind => ?_
        rw [wipe_sides_other (by rw [number_key]; omega)]
        exact present kind

theorem frozen_step (step : s.Step c head t) : s.frozen ≤ t.frozen := by
  cases step <;> simp

theorem holds_stable (lawful : c.Lawful) : Program.Stable (Freezing.Step c head) (chain.Holds head) :=
  fun _ _ holds step => holds_step lawful holds step

theorem frozen_stable {number : Nat} : Program.Stable (Freezing.Step c head) fun s => number < s.frozen :=
  fun _ _ past step => lt_of_lt_of_le past (frozen_step step)

theorem table_get (holds : chain.Holds head s) {kind : Kind} {number : Nat} {data : Bytes}
    (found : (s.disk.tables kind)[number]? = some data) : data = chain.parts number kind := by
  obtain ⟨length, table, -⟩ := holds.tables kind
  rw [table, getElem?_map] at found
  obtain ⟨n, there, rfl⟩ := Option.map_eq_some_iff.mp found
  obtain ⟨-, rfl⟩ := List.getElem?_eq_some_iff.mp there
  simp

theorem table_frozen (holds : chain.Holds head s) {kind : Kind} {number : Nat} (past : number < s.frozen) :
    (s.disk.tables kind)[number]? = some (chain.parts number kind) := by
  obtain ⟨length, table, lengths⟩ := holds.tables kind
  rw [table, getElem?_map, getElem?_range (by omega)]
  rfl

def Freezing.answer (lookup : Lookup) (s : Freezing) : lookup.Answer := s.disk.answer lookup

section Reads

variable (lawful : c.Lawful) (kind : Kind) {number : Nat} (low : number ≤ head)

include lawful

theorem third_access_ensures :
    Program.Ensures Freezing.answer (Freezing.Step c head) (fun s => chain.Holds head s ∧ number < s.frozen)
      (do let data ← ancient kind number; pure (data.getD [])) (· = chain.parts number kind) := by
  refine ensures_step (stable_and (holds_stable lawful) frozen_stable) ?_
  rintro met (data : Option Bytes) ⟨holds, past⟩ (found : data = (met.disk.tables kind)[number]?)
  rw [table_frozen holds past] at found
  subst found
  exact ⟨chain.Holds head, holds, ensures_done rfl⟩

include low

theorem second_access_ensures : Program.Ensures Freezing.answer (Freezing.Step c head) (chain.Holds head)
      (do
        let data ← get (chain.key kind number)
        if data.getD [] ≠ [] then pure (data.getD [])
        else do
          let data ← ancient kind number
          pure (data.getD [])) (· = chain.parts number kind) := by
  refine ensures_step (holds_stable lawful) ?_
  rintro met (data : Option Bytes) holds (found : data = met.disk.active (chain.key kind number))
  cases data with
  | some data =>
    obtain rfl := holds.stored number low kind data found.symm
    refine ⟨chain.Holds head, holds, ?_⟩
    show Program.Ensures _ _ _ (if chain.parts number kind ≠ [] then done (chain.parts number kind) else _) _
    rw [if_pos (chain.nonempty number kind)]
    exact ensures_done rfl
  | none =>
    -- the block was wiped, and so it is frozen
    obtain present | ⟨-, past⟩ := holds.present number low
    · rw [present kind] at found
      contradiction
    · exact ⟨_, ⟨holds, past⟩, third_access_ensures lawful kind⟩

theorem read_rlp_ensures :
    Program.Ensures Freezing.answer (Freezing.Step c head) (chain.Holds head) (readRLP kind number (chain.key kind number))
      (· = chain.parts number kind) := by
  refine ensures_step (holds_stable lawful) ?_
  rintro met (data : Option Bytes) holds (found : data = (met.disk.tables kind)[number]?)
  refine ⟨chain.Holds head, holds, ?_⟩
  cases data with
  | some data =>
    obtain rfl := table_get holds found.symm
    show Program.Ensures _ _ _ (if chain.parts number kind ≠ [] then done (chain.parts number kind) else _) _
    rw [if_pos (chain.nonempty number kind)]
    exact ensures_done rfl
  | none => exact second_access_ensures lawful kind low

end Reads

end Holds

inductive Query where
  | canonicalHash
  | header
  | body
  | td
  | receipts
  | hasHeader
  | hasBody
  | hasReceipts

namespace Query

def Result (c : Codec) : Query → Type
  | canonicalHash => Hash
  | header => Option c.Header
  | body => Option c.Body
  | td => Option Nat
  | receipts => Option (List Receipt)
  | hasHeader => Bool
  | hasBody => Bool
  | hasReceipts => Bool

def reader (c : Codec) (config : Chain) (hash : Hash) (number : Nat) : (q : Query) → Reader (q.Result c)
  | canonicalHash => readCanonicalHash c number
  | header => readHeader c hash number
  | body => readBody c hash number
  | td => readTd c hash number
  | receipts => readReceipts c config hash number
  | hasHeader => Reader.hasHeader c hash number
  | hasBody => Reader.hasBody c hash number
  | hasReceipts => Reader.hasReceipts c hash number

def checks : Query → Option Kind
  | hasHeader => some .headers
  | hasBody => some .bodies
  | hasReceipts => some .receipts
  | _ => none

end Query

namespace Canonical

variable {c : Codec} (chain : Canonical c)

-- The chain up to the head is on the disk, the first `frozen` blocks of it in the tables.
structure Stored (head frozen : Nat) (d : Disk) : Prop where
  below : frozen ≤ head
  tables : ∀ kind, d.tables kind = (range frozen).map (chain.parts · kind)
  stored : ∀ number ≤ head, ∀ kind data, d.active (chain.key kind number) = some data → data = chain.parts number kind
  present : ∀ number ≤ head, chain.Present d number ∨ (0 < number ∧ number < frozen)

end Canonical

def Freezing.start (d : Disk) (frozen : Nat) : Freezing := ⟨d, frozen, frozen, [], none, .append⟩

section Queries

variable {c : Codec} {chain : Canonical c} {head : Nat} {s : Freezing}

theorem holds_start {frozen : Nat} {d : Disk} (stored : chain.Stored head frozen d) : chain.Holds head (.start d frozen) where
  below := stored.below
  within := le_rfl
  loaded := nofun
  tables kind := ⟨frozen, stored.tables kind, .inl rfl⟩
  stored := stored.stored
  present := stored.present

def Sure {α : Type} (chain : Canonical c) (head : Nat) (p : Reader α) : Prop :=
  ∃ value, Program.Ensures Freezing.answer (Freezing.Step c head) (chain.Holds head) p (· = value)

variable {α : Type} {p : Reader α}

theorem sure_bind {β : Type} (lawful : c.Lawful) {k : α → Reader β} (first : Sure chain head p)
    (rest : ∀ value, Sure chain head (k value)) : Sure chain head (p >>= k) := by
  obtain ⟨value, ensures⟩ := first
  obtain ⟨result, later⟩ := rest value
  refine ⟨result, ensures_bind (holds_stable lawful) ensures ?_⟩
  rintro _ rfl
  exact later

theorem sure_pure {value : α} : Sure chain head (pure value : Reader α) := ⟨value, ensures_done rfl⟩

variable {kind : Kind} {number : Nat}

theorem sure_read (lawful : c.Lawful) {number : Nat} (low : number ≤ head) :
    Sure chain head (readRLP kind number (chain.key kind number)) := ⟨_, read_rlp_ensures lawful kind low⟩

variable {trace : List Freezing}

theorem sure_alone (sure : Sure chain head p) (holds : chain.Holds head s) {value : α}
    (run : Program.Interleaved Freezing.answer (Freezing.Step c head) s p trace value) : value = p.alone Freezing.answer s := by
  obtain ⟨result, ensures⟩ := sure
  rw [ensures s trace value holds run, ensures_alone ensures holds]

theorem sure_query (lawful : c.Lawful) {config : Chain} {number : Nat} (low : number ≤ head) {q : Query} (unchecked : q.checks = none) :
    Sure chain head (q.reader c config (chain.hash number) number) := by
  have body : Sure chain head (readBody c (chain.hash number) number) :=
    sure_bind lawful (sure_read lawful low) fun _ => sure_pure
  have receipts : Sure chain head (readRawReceipts c (chain.hash number) number) :=
    sure_bind lawful (sure_read lawful low) fun _ => sure_pure
  cases q with
  | canonicalHash => exact sure_bind lawful (sure_read lawful low) fun _ => sure_pure
  | header => exact sure_bind lawful (sure_read lawful low) fun _ => sure_pure
  | body => exact body
  | td => exact sure_bind lawful (sure_read lawful low) fun _ => sure_pure
  | receipts =>
    refine sure_bind lawful receipts fun found => ?_
    cases found with
    | none => exact sure_pure
    | some found =>
      refine sure_bind lawful body fun other => ?_
      cases other with
      | none => exact sure_pure
      | some other => exact sure_pure
  | hasHeader => contradiction
  | hasBody => contradiction
  | hasReceipts => contradiction

def Canonical.Missed (chain : Canonical c) (kind : Kind) (number : Nat) (trace : List Freezing) : Prop :=
  ∃ first second, trace = [first, second] ∧ (first.disk.tables .hashes).length ≤ number ∧
    second.disk.active (.part kind number (chain.hash number)) = none

theorem alone_disk (p : Reader α) (s : Freezing) : p.alone Freezing.answer s = p.alone answer s.disk := by
  induction p with
  | done value => rfl
  | step lookup next ih => exact ih _

theorem hash_found (lawful : c.Lawful) : (some (chain.parts number .hashes)).map c.bytesToHash = some (chain.hash number) := by
  rw [chain.hashes, Option.map_some, lawful.hash]

theorem has_part_interleaved (lawful : c.Lawful) (holds : chain.Holds head s) {value : Bool}
    (run : Program.Interleaved Freezing.answer (Freezing.Step c head) s (hasPart c kind (chain.hash number) number) trace value) :
    value = true ↔ ¬ chain.Missed kind number trace := by
  cases run with
  | step _ met _ _ trace _ moved run =>
    have here := stable_moved (holds_stable lawful) holds moved
    change Program.Interleaved _ _ met (if (met.disk.tables .hashes)[number]?.map c.bytesToHash = some (chain.hash number) then
      done true else has (.part kind number (chain.hash number))) trace value at run
    cases found : (met.disk.tables .hashes)[number]? with
    | some data =>
      obtain rfl := table_get here found
      rw [found, if_pos (hash_found lawful)] at run
      cases run
      refine iff_of_true rfl ?_
      rintro ⟨first, second, two, -⟩
      exact absurd (congrArg length two) (by simp)
    | none =>
      rw [found] at run
      cases run with
      | step _ later _ _ _ _ _ run =>
        cases run
        show (later.disk.active (.part kind number (chain.hash number))).isSome = true ↔ _
        have short := getElem?_eq_none_iff.mp found
        constructor
        · rintro some ⟨first, second, two, -, gone⟩
          obtain ⟨-, rfl⟩ : met = first ∧ later = second := by simpa using two
          rw [gone] at some
          contradiction
        · intro kept
          by_contra lost
          exact kept ⟨met, later, rfl, short, Option.not_isSome_iff_eq_none.mp lost⟩

theorem has_part_stored (lawful : c.Lawful) (holds : chain.Holds head s) {kind : Kind} (block : kind ≠ .hashes) {number : Nat}
    (low : number ≤ head) : (hasPart c kind (chain.hash number) number).alone Freezing.answer s = true := by
  rw [alone_disk, has_part_alone]
  obtain present | ⟨-, past⟩ := holds.present number low
  · have there := present kind
    rw [show chain.key kind number = .part kind number (chain.hash number) by cases kind <;> trivial] at there
    exact .inr (by rw [there]; rfl)
  · exact .inl (by rw [table_frozen holds past, hash_found lawful])

end Queries

-- The freezer may take any number of steps before each access of a reader.
theorem freezing_invisible_iff (c : Codec) (lawful : c.Lawful) (config : Chain) (chain : Canonical c) (head frozen : Nat) (d : Disk)
    (stored : chain.Stored head frozen d) (number : Nat) (low : number ≤ head) (q : Query) (trace : List Freezing) (value : q.Result c)
    (run : Program.Interleaved Freezing.answer (Freezing.Step c head) (.start d frozen) (q.reader c config (chain.hash number) number)
      trace value) : value = (q.reader c config (chain.hash number) number).alone answer d ↔
      ∀ kind, q.checks = some kind → ¬ chain.Missed kind number trace := by
  have holds := holds_start stored
  have same := alone_disk (q.reader c config (chain.hash number) number) (.start d frozen)
  have checked : ∀ kind, kind ≠ .hashes → ∀ value : Bool, Program.Interleaved Freezing.answer (Freezing.Step c head) (.start d frozen)
      (hasPart c kind (chain.hash number) number) trace value →
      (value = (hasPart c kind (chain.hash number) number).alone answer d ↔ ¬ chain.Missed kind number trace) := by
    intro kind block value run
    rw [← has_part_interleaved lawful holds run, ← has_part_stored lawful holds block low]
    rw [alone_disk]
    rfl
  cases q with
  | hasHeader => exact (checked .headers (by decide) value run).trans (by simp [Query.checks])
  | hasBody => exact (checked .bodies (by decide) value run).trans (by simp [Query.checks])
  | hasReceipts => exact (checked .receipts (by decide) value run).trans (by simp [Query.checks])
  | _ =>
    refine iff_of_true ?_ nofun
    rw [sure_alone (sure_query lawful low rfl) holds run, same]
    rfl


def sampleCodec : Codec where
  Header := Hash × Nat
  Body := Unit
  Receipts := Unit
  hash h := h.1
  number h := h.2
  transactions _ := []
  storedReceipts _ := []
  hashBytes h := replicate (h.toNat + 1) 0
  bytesToHash data := BitVec.ofNat 256 (data.length - 1)
  encodeHeader h := replicate (pair h.1.toNat h.2 + 1) 0
  decodeHeader data := some (BitVec.ofNat 256 (unpair (data.length - 1)).1, (unpair (data.length - 1)).2)
  encodeBody _ := [0]
  decodeBody _ := some ()
  encodeTd d := replicate (d + 1) 0
  decodeTd data := some (data.length - 1)
  encodeReceipts _ := [0]
  decodeReceipts _ := some ()

theorem sample_lawful : sampleCodec.Lawful where
  hash h := by simp [sampleCodec]
  header h := by
    obtain ⟨hash, number⟩ := h
    simp [sampleCodec]
  body _ := rfl
  td d := by simp [sampleCodec]
  receipts _ := rfl
  hashSome h := by simp [sampleCodec]
  headerSome h := by simp [sampleCodec]
  bodySome _ := by simp [sampleCodec]
  tdSome d := by simp [sampleCodec]
  receiptsSome _ := by simp [sampleCodec]

def sampleHash (number : Nat) : Hash := BitVec.ofNat 256 (number + 1)

def sampleParts (number : Nat) : Record :=
  ancientRecord (sampleCodec.hashBytes (sampleHash number)) (sampleCodec.encodeHeader (sampleHash number, number)) [0] [0]
    (sampleCodec.encodeTd number)

def sampleChain : Canonical sampleCodec where
  hash := sampleHash
  parts := sampleParts
  hashes _ := rfl
  nonempty number kind := by cases kind <;> simp [sampleParts, ancientRecord, sampleCodec]

def sampleDisk : Disk where
  active
    | .canonical number => some (sampleParts number .hashes)
    | .part kind number hash => if hash = sampleHash number then some (sampleParts number kind) else none
  tables kind := [sampleParts 0 kind]

theorem sample_present {number : Nat} : sampleChain.Present sampleDisk number := by
  intro kind
  cases kind <;> simp [Canonical.key, sampleDisk, sampleChain]

variable {head : Nat}

theorem sample_stored (some : 0 < head) : sampleChain.Stored head 1 sampleDisk where
  below := some
  tables kind := rfl
  stored number _ kind data found := by
    rw [sample_present kind] at found
    exact (Option.some.inj found).symm
  present number _ := .inl sample_present

def frozenBlock : Freezing where
  disk := { sampleDisk with tables := fun kind => [sampleParts 0 kind, sampleParts 1 kind] }
  frozen := 2
  first := 1
  ancients := [sampleHash 1]
  loaded := none
  phase := .append

def wipedBlock : Freezing := { frozenBlock with disk := frozenBlock.disk.wipe 1 [sampleHash 1], phase := .sides }

section Appending

variable {c : Codec} {head : Nat} {s : Freezing} {block : Hash × Record}

def Freezing.appended (s : Freezing) (block : Hash × Record) (done : List Kind) : Freezing :=
  { s with
    loaded := some block
    disk := { s.disk with tables := fun kind => if kind ∈ done then s.disk.tables kind ++ [block.2 kind] else s.disk.tables kind } }

variable (lengths : ∀ kind, (s.disk.tables kind).length = s.frozen)

include lengths

theorem appended_step {done rest : List Kind} {kind : Kind} (order : Kind.all = done ++ kind :: rest) :
    (s.appended block done).Step c head (s.appended block (done ++ [kind])) := by
  have nodup := Kind.nodup_all
  rw [order] at nodup
  have fresh : kind ∉ done := fun member => (nodup_append.mp nodup).2.2 kind member kind mem_cons_self rfl
  have tables : (fun other => if other ∈ done ++ [kind] then s.disk.tables other ++ [block.2 other] else s.disk.tables other) =
      update (s.appended block done).disk.tables kind ((s.appended block done).disk.tables kind ++ [block.2 kind]) := by
    funext other
    by_cases same : other = kind
    · subst same
      simp [Freezing.appended, fresh]
    · rw [update_of_ne same]
      simp [Freezing.appended, same]
  have next : s.appended block (done ++ [kind]) = { s.appended block done with disk := { (s.appended block done).disk with
      tables := update (s.appended block done).disk.tables kind ((s.appended block done).disk.tables kind ++ [block.2 kind]) } } := by
    rw [← tables]
    rfl
  rw [next]
  refine .part block kind done rest rfl order ?_ ?_
  · intro earlier member
    simp [Freezing.filled, Freezing.appended, member, lengths]
  · simp [Freezing.appended, fresh, lengths]

theorem appends (done rest : List Kind) (order : Kind.all = done ++ rest) :
    Relation.ReflTransGen (Freezing.Step c head) (s.appended block []) (s.appended block done) := by
  induction done using reverseRecOn generalizing rest with
  | nil => exact .refl
  | append_singleton done kind ih =>
    rw [append_assoc] at order
    exact (ih _ order).tail (appended_step lengths order)

end Appending

theorem freezes_block (enough : immutabilityThreshold + 1 < head) :
    Relation.ReflTransGen (Freezing.Step sampleCodec head) (.start sampleDisk 1) frozenBlock := by
  let start : Freezing := .start sampleDisk 1
  let block : Hash × Record := (sampleHash 1, sampleParts 1)
  have within : start.frozen < start.limit head :=
    Nat.lt_min.mpr ⟨Nat.lt_sub_of_add_lt (by rwa [Nat.add_comm]), by decide⟩
  have read : sampleDisk.load sampleCodec 1 = some block :=
    (load_present sample_lawful sample_present).trans (if_neg (by decide))
  have loads : start.Step sampleCodec head (start.appended block []) := .load block rfl rfl within read
  have fills : Relation.ReflTransGen (Freezing.Step sampleCodec head) (start.appended block []) (start.appended block Kind.all) :=
    appends (fun _ => rfl) Kind.all [] (append_nil _).symm
  have full : ∀ kind, (start.appended block Kind.all).disk.tables kind = [sampleParts 0 kind, sampleParts 1 kind] :=
    fun kind => if_pos kind.mem_all
  have finishes : (start.appended block Kind.all).Step sampleCodec head frozenBlock := by
    have last : frozenBlock = { start.appended block Kind.all with
        frozen := 2, ancients := [] ++ [block.1], loaded := none } := by
      unfold frozenBlock
      rw [← funext full]
      rfl
    rw [last]
    exact .finish block rfl fun kind => congrArg length (full kind)
  exact ((Relation.ReflTransGen.single loads).trans fills).tail finishes

theorem wipes_block (enough : immutabilityThreshold + 1 < head) :
    Relation.ReflTransGen (Freezing.Step sampleCodec head) (.start sampleDisk 1) wipedBlock :=
  (((freezes_block enough).tail (.stop rfl rfl)).tail (.sync rfl)).tail (.wipe rfl)

theorem wiped_header : wipedBlock.disk.active (.part .headers 1 (sampleHash 1)) = none := by
  simp [wipedBlock, wipe, deleteBlock, delete]

-- HasHeader for block 1 looks into the table of hashes before the block is appended, and into the active store after it
-- is wiped.
theorem has_header_misses_frozen_block : ∃ trace, ∀ config : Chain,
      Program.Interleaved Freezing.answer (Freezing.Step sampleCodec 100000) (.start sampleDisk 1)
        (Query.hasHeader.reader sampleCodec config (sampleChain.hash 1) 1) trace false ∧
      (Query.hasHeader.reader sampleCodec config (sampleChain.hash 1) 1).alone answer sampleDisk = true := by
  have second : Program.Interleaved Freezing.answer (Freezing.Step sampleCodec 100000) (.start sampleDisk 1)
      (has (.part .headers 1 (sampleHash 1))) [wipedBlock] false := by
    have answer : wipedBlock.answer (.has (.part .headers 1 (sampleHash 1))) = false := by
      show (wipedBlock.disk.active (.part .headers 1 (sampleHash 1))).isSome = false
      rw [wiped_header]
      rfl
    refine .step _ wipedBlock _ _ [] false (wipes_block (by decide)) ?_
    rw [answer]
    exact .done _ false
  refine ⟨[.start sampleDisk 1, wipedBlock], fun config => ⟨.step _ _ _ _ _ _ .refl second, ?_⟩⟩
  exact (has_part_alone sampleCodec sampleDisk .headers (sampleHash 1) 1).mpr (.inr (by simp [sampleDisk]))

theorem freezing_invisible_iff_moved : ∃ trace value, wipedBlock ∈ trace ∧ ∀ config : Chain,
      Program.Interleaved Freezing.answer (Freezing.Step sampleCodec 100000) (.start sampleDisk 1)
        (Query.header.reader sampleCodec config (sampleChain.hash 1) 1) trace value ∧
      value = (Query.header.reader sampleCodec config (sampleChain.hash 1) 1).alone answer sampleDisk := by
  let value : Option sampleCodec.Header := decoded sampleCodec.decodeHeader (sampleParts 1 .headers)
  have third : Program.Interleaved Freezing.answer (Freezing.Step sampleCodec 100000) wipedBlock
      (do let data ← ancient .headers 1; pure (decoded sampleCodec.decodeHeader (data.getD []))) [wipedBlock] value :=
    .step _ wipedBlock _ _ [] _ .refl (.done _ _)
  have second : Program.Interleaved Freezing.answer (Freezing.Step sampleCodec 100000) (.start sampleDisk 1)
      ((do
        let data ← get (.part .headers 1 (sampleHash 1))
        if data.getD [] ≠ [] then pure (data.getD [])
        else do
          let data ← ancient .headers 1
          pure (data.getD [])) >>= fun data => pure (decoded sampleCodec.decodeHeader data)) [wipedBlock, wipedBlock] value := by
    refine .step _ wipedBlock _ _ [wipedBlock] _ (wipes_block (by decide)) ?_
    rw [show wipedBlock.answer (.get (.part .headers 1 (sampleHash 1))) = none from wiped_header]
    exact third
  have run (config : Chain) : Program.Interleaved Freezing.answer (Freezing.Step sampleCodec 100000) (.start sampleDisk 1)
      (Query.header.reader sampleCodec config (sampleChain.hash 1) 1) [.start sampleDisk 1, wipedBlock, wipedBlock] value :=
    .step _ _ _ _ _ _ .refl second
  exact ⟨_, value, by simp, fun config => ⟨run config,
    (freezing_invisible_iff sampleCodec sample_lawful config sampleChain 100000 1 sampleDisk
      (sample_stored (by decide)) 1 (by decide) .header _ _ (run config)).mpr nofun⟩⟩

end Didux.Rawdb
