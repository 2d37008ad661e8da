import Didux.Rawdb.Freezing

set_option autoImplicit false

namespace Didux.Rawdb

open Sport Didux.Core Function List Option Reader Disk

-- What one call stores of a block. WriteBlockWithoutState stores no receipts.
structure Writing (c : Codec) where
  header : c.Header
  body : c.Body
  td : Nat
  receipts : Option c.Receipts

namespace Writing

variable {c : Codec} (w : Writing c)

def hash : Hash := c.hash w.header

def number : Nat := c.number w.header

def part : Kind → Option Bytes
  | .headers => some (c.encodeHeader w.header)
  | .bodies => some (c.encodeBody w.body)
  | .diffs => some (c.encodeTd w.td)
  | .receipts => w.receipts.map c.encodeReceipts
  | .hashes => none

end Writing

-- The stores, with the number of the head block. `log` are the writes so far, which no function reads.
structure BlockStore (c : Codec) where
  disk : Disk
  frozen : Nat
  head : Nat
  log : List (Writing c)

namespace BlockStore

variable {c : Codec} (s : BlockStore c)

def writeBlock (w : Writing c) : BlockStore c :=
  let block := ((s.disk.put (.part .diffs w.number w.hash) (c.encodeTd w.td)).put
    (.part .bodies w.number w.hash) (c.encodeBody w.body)).put (.part .headers w.number w.hash) (c.encodeHeader w.header)
  { s with
    disk := match w.receipts with
      | none => block
      | some receipts => block.put (.part .receipts w.number w.hash) (c.encodeReceipts receipts)
    log := w :: s.log }

def appendAncient (record : Record) : BlockStore c :=
  { s with disk := { s.disk with tables := fun kind => s.disk.tables kind ++ [record kind] }, frozen := s.frozen + 1 }

-- The loop of freeze, for at most `count` blocks, with the hashes of those that were appended.
def freezeBlocks : Nat → BlockStore c → BlockStore c × List Hash
  | 0, s => (s, [])
  | count + 1, s => match s.disk.load c s.frozen with
    | none => (s, [])
    | some (hash, record) => ((freezeBlocks count (s.appendAncient record)).1, hash :: (freezeBlocks count (s.appendAncient record)).2)

def freeze (count : Nat) : BlockStore c :=
  let (t, ancients) := freezeBlocks count s
  { t with disk := (t.disk.wipe s.frozen ancients).wipeSides s.frozen t.frozen }

def truncateAncients (items : Nat) : BlockStore c :=
  if s.frozen ≤ items then s
  else { s with disk := { s.disk with tables := fun kind => (s.disk.tables kind).take items }, frozen := items }

def rewindHeader (hash : Hash) (number : Nat) : BlockStore c :=
  let t :=
    if number + 1 ≤ s.frozen then s.truncateAncients (number + 1)
    else { s with disk := (s.disk.delete (.part .bodies number hash)).delete (.part .receipts number hash) }
  { t with disk := ((t.disk.delete (.part .headers number hash)).delete (.part .diffs number hash)).delete (.canonical number) }

-- A block is written, the canonical hash of a number is written or deleted, the head moves, freeze runs, which an error may
-- end early, or a header is rewound.
inductive Step : BlockStore c → BlockStore c → Prop where
  | write (s : BlockStore c) (w : Writing c)
      (matching : ∀ receipts, w.receipts = some receipts → (c.transactions w.body).length = (c.storedReceipts receipts).length)
      -- a hash stands for one block
      (same : ∀ earlier ∈ s.log, earlier.hash = w.hash → earlier.header = w.header ∧ earlier.body = w.body) :
      Step s (s.writeBlock w)
  | canonical (s : BlockStore c) (number : Nat) (hash : Hash) :
      Step s { s with disk := s.disk.put (.canonical number) (c.hashBytes hash) }
  | uncanonical (s : BlockStore c) (number : Nat) : Step s { s with disk := s.disk.delete (.canonical number) }
  | head (s : BlockStore c) (w : Writing c) (written : w ∈ s.log) : Step s { s with head := w.number }
  | freeze (s : BlockStore c) (count : Nat)
      (limit : s.frozen + count ≤ min (s.head - immutabilityThreshold) (s.frozen + freezerBatchLimit)) :
      Step s (s.freeze count)
  | rewind (s : BlockStore c) (hash : Hash) (number : Nat) (positive : 0 < number) : Step s (s.rewindHeader hash number)

def empty (c : Codec) : BlockStore c := ⟨⟨fun _ => none, fun _ => []⟩, 0, 0, []⟩

end BlockStore

namespace Disk

variable {d : Disk}

theorem put_cases {key other : Key} {data found : Bytes} (put : (d.put key data).active other = some found) :
    (other = key ∧ found = data) ∨ d.active other = some found := by
  by_cases same : other = key
  · subst same
    have here : (d.put other data).active other = some data := update_self ..
    exact .inl ⟨rfl, (some.inj (here.symm.trans put)).symm⟩
  · have away : (d.put key data).active other = d.active other := update_of_ne same _ _
    exact .inr (away ▸ put)

theorem put_isSome {key other : Key} {data : Bytes} (there : (d.active other).isSome = true) :
    ((d.put key data).active other).isSome = true := by
  by_cases same : other = key
  · subst same
    have here : (d.put other data).active other = some data := update_self ..
    rw [here]
    rfl
  · have away : (d.put key data).active other = d.active other := update_of_ne same _ _
    rwa [away]

def Paired (d : Disk) : Prop :=
  ∀ number hash, (d.active (.part .receipts number hash)).isSome = true → (d.active (.part .bodies number hash)).isSome = true

theorem paired_less {after : Disk} (paired : d.Paired) (less : ∀ key data, after.active key = some data → d.active key = some data)
    (kept : ∀ number hash, after.active (.part .bodies number hash) = d.active (.part .bodies number hash) ∨
      after.active (.part .receipts number hash) = none) : after.Paired := by
  intro number hash some
  obtain ⟨data, found⟩ := isSome_iff_exists.mp some
  obtain same | gone := kept number hash
  · rw [same]
    exact paired number hash (by rw [less _ _ found]; rfl)
  · rw [gone] at found
    contradiction

theorem delete_self (key : Key) : (d.delete key).active key = none := update_self ..

theorem delete_none {key other : Key} (absent : d.active other = none) : (d.delete key).active other = none :=
  eq_none_iff_forall_ne_some.mpr fun data found => by
    rw [delete_le found] at absent
    contradiction

variable (paired : d.Paired)

include paired

theorem paired_delete_block (hash : Hash) (number : Nat) : (d.deleteBlock hash number).Paired := by
  refine paired_less paired (fun key data found => delete_block_le found) fun n h => ?_
  by_cases same : n = number ∧ h = hash
  · obtain ⟨rfl, rfl⟩ := same
    exact .inr (delete_none (delete_none (delete_none (delete_self _))))
  · refine .inl ?_
    have apart : Key.part .bodies n h ≠ .part .bodies number hash := by simpa using same
    unfold deleteBlock
    rw [delete_other (by simp), delete_other apart, delete_other (by simp), delete_other (by simp)]

theorem paired_delete_canonical (number : Nat) : (d.delete (.canonical number)).Paired :=
  paired_less paired (fun _ _ found => delete_le found) fun _ _ => .inl (delete_other (by simp))

theorem paired_wipe (number : Nat) (hashes : List Hash) : (d.wipe number hashes).Paired := by
  induction hashes generalizing number d with
  | nil => exact paired
  | cons hash rest ih =>
    refine ih ?_ (number + 1)
    split
    · exact paired_delete_canonical (paired_delete_block paired hash number) number
    · exact paired

theorem paired_wipe_sides (first last : Nat) : (d.wipeSides first last).Paired := by
  refine paired_less paired (fun key data found => wipe_sides_le first last found) fun number hash => ?_
  by_cases inside : number ≠ 0 ∧ first ≤ number ∧ number < last ∧ (d.active (.part .headers number hash)).isSome
  · exact .inr (if_pos inside)
  · exact .inl (if_neg inside)

omit paired

theorem load_some {c : Codec} {number : Nat} {hash : Hash} {record : Record} (read : d.load c number = some (hash, record)) :
    record .hashes = c.hashBytes hash ∧ ∀ kind, kind ≠ .hashes → d.active (.part kind number hash) = some (record kind) := by
  simp only [load, readHeaderRLP, readBodyRLP, readReceiptsRLP, readTdRLP, read_nofreeze] at read
  split at read
  · cases read
  · next present =>
      simp only [not_or] at present
      obtain ⟨rfl, rfl⟩ := Prod.mk.inj (some.inj read)
      refine ⟨rfl, ?_⟩
      have full : ∀ key, (d.active key).getD [] ≠ [] → d.active key = some ((d.active key).getD []) := by
        intro key nonempty
        cases found : d.active key with
        | none =>
          rw [found] at nonempty
          contradiction
        | some data => rfl
      intro kind block
      cases kind with
      | hashes => contradiction
      | headers => exact full _ present.2.1
      | bodies => exact full _ present.2.2.1
      | receipts => exact full _ present.2.2.2.1
      | diffs => exact full _ present.2.2.2.2

end Disk

namespace BlockStore

variable {c : Codec} {s t : BlockStore c}

def Wrote (s : BlockStore c) (kind : Kind) (number : Nat) (hash : Hash) (data : Bytes) : Prop :=
  ∃ w ∈ s.log, w.hash = hash ∧ w.number = number ∧ w.part kind = some data

structure Sound (s : BlockStore c) : Prop where
  active : ∀ kind number hash data, s.disk.active (.part kind number hash) = some data → s.Wrote kind number hash data
  paired : s.disk.Paired
  lengths : ∀ kind, (s.disk.tables kind).length = s.frozen
  ancient : ∀ number < s.frozen, ∃ hash, (s.disk.tables .hashes)[number]? = some (c.hashBytes hash) ∧
    ∀ kind, kind ≠ .hashes → ∃ data, (s.disk.tables kind)[number]? = some data ∧ s.Wrote kind number hash data
  one : ∀ w ∈ s.log, ∀ other ∈ s.log, w.hash = other.hash → w.header = other.header ∧ w.body = other.body
  matching : ∀ w ∈ s.log, ∀ receipts, w.receipts = some receipts →
    (c.transactions w.body).length = (c.storedReceipts receipts).length

theorem sound_empty : (empty c).Sound where
  active := nofun
  paired := nofun
  lengths _ := rfl
  ancient := nofun
  one := nofun
  matching := nofun

theorem sound_less (sound : s.Sound) {disk : Disk} (less : ∀ key data, disk.active key = some data → s.disk.active key = some data)
    (tables : disk.tables = s.disk.tables) (paired : disk.Paired) : { s with disk := disk }.Sound where
  active kind number hash data found := sound.active kind number hash data (less _ _ found)
  paired := paired
  lengths kind := by
    rw [tables]
    exact sound.lengths kind
  ancient number past := by
    rw [tables]
    exact sound.ancient number past
  one := sound.one
  matching := sound.matching

theorem sound_append (sound : s.Sound) {hash : Hash} {record : Record} (read : s.disk.load c s.frozen = some (hash, record)) :
    (s.appendAncient record).Sound where
  active := sound.active
  paired := sound.paired
  lengths kind := by simp [appendAncient, sound.lengths]
  ancient := by
    obtain ⟨own, parts⟩ := load_some read
    have last : ∀ kind, ((s.appendAncient record).disk.tables kind)[s.frozen]? = some (record kind) := by
      simp [appendAncient, sound.lengths]
    have before : ∀ kind (number : Nat), number < s.frozen →
        ((s.appendAncient record).disk.tables kind)[number]? = (s.disk.tables kind)[number]? := by
      intro kind number past
      exact getElem?_append_left (by rwa [sound.lengths])
    intro number past
    obtain past | rfl := Nat.lt_succ_iff_lt_or_eq.mp past
    · obtain ⟨h, named, rest⟩ := sound.ancient number past
      refine ⟨h, by rw [before _ _ past, named], ?_⟩
      intro kind block
      obtain ⟨data, found, wrote⟩ := rest kind block
      exact ⟨data, by rw [before _ _ past, found], wrote⟩
    · refine ⟨hash, by rw [last, own], ?_⟩
      intro kind block
      exact ⟨record kind, last kind, sound.active _ _ _ _ (parts kind block)⟩
  one := sound.one
  matching := sound.matching

theorem sound_freeze_blocks (count : Nat) (s : BlockStore c) (sound : s.Sound) : (freezeBlocks count s).1.Sound := by
  induction count generalizing s with
  | zero => exact sound
  | succ count ih =>
    unfold freezeBlocks
    split
    · exact sound
    · next hash record read => exact ih _ (sound_append sound read)

theorem sound_freeze (sound : s.Sound) (count : Nat) : (s.freeze count).Sound := by
  have frozen := sound_freeze_blocks count s sound
  refine sound_less frozen (fun key data found => wipe_le _ _ (wipe_sides_le _ _ found)) ?_ ?_
  · exact wipe_tables _ _
  · exact paired_wipe_sides (paired_wipe frozen.paired _ _) _ _

theorem sound_truncate (sound : s.Sound) (items : Nat) : (s.truncateAncients items).Sound := by
  unfold truncateAncients
  split
  · exact sound
  · next more =>
      refine ⟨sound.active, sound.paired, ?_, ?_, sound.one, sound.matching⟩
      · intro kind
        simp only [length_take, sound.lengths]
        omega
      · intro number past
        have kept : ∀ kind, ((s.disk.tables kind).take items)[number]? = (s.disk.tables kind)[number]? :=
          fun kind => getElem?_take_of_lt past
        simp only [kept]
        exact sound.ancient number (Nat.lt_trans past (Nat.not_le.mp more))

theorem sound_rewind (sound : s.Sound) (hash : Hash) (number : Nat) : (s.rewindHeader hash number).Sound := by
  have rest : ∀ t : BlockStore c, t.Sound →
      { t with
        disk := ((t.disk.delete (.part .headers number hash)).delete (.part .diffs number hash)).delete (.canonical number)
      }.Sound := by
    intro t sound
    refine sound_less sound (fun key data found => delete_le (delete_le (delete_le found))) rfl ?_
    refine paired_less sound.paired (fun key data found => delete_le (delete_le (delete_le found))) fun n h => .inl ?_
    rw [delete_other (by simp), delete_other (by simp), delete_other (by simp)]
  unfold rewindHeader
  split
  · exact rest _ (sound_truncate sound (number + 1))
  · refine rest _ (sound_less sound (fun key data found => delete_le (delete_le found)) rfl ?_)
    refine paired_less sound.paired (fun key data found => delete_le (delete_le found)) fun n h => ?_
    by_cases same : n = number ∧ h = hash
    · obtain ⟨rfl, rfl⟩ := same
      exact .inr (delete_self _)
    · have apart : Key.part .bodies n h ≠ .part .bodies number hash := by simpa using same
      exact .inl ((delete_other (by simp)).trans (delete_other apart))

def putBlock (d : Disk) (w : Writing c) : Disk :=
  ((d.put (.part .diffs w.number w.hash) (c.encodeTd w.td)).put (.part .bodies w.number w.hash) (c.encodeBody w.body)).put
    (.part .headers w.number w.hash) (c.encodeHeader w.header)

theorem put_block_cases {d : Disk} {w : Writing c} {kind : Kind} {number : Nat} {hash : Hash} {data : Bytes}
    (found : (putBlock d w).active (.part kind number hash) = some data) :
    (w.hash = hash ∧ w.number = number ∧ w.part kind = some data) ∨ d.active (.part kind number hash) = some data := by
  obtain ⟨same, rfl⟩ | before := put_cases found
  · obtain ⟨rfl, rfl, rfl⟩ := Key.part.inj same
    exact .inl ⟨rfl, rfl, rfl⟩
  · obtain ⟨same, rfl⟩ | before := put_cases before
    · obtain ⟨rfl, rfl, rfl⟩ := Key.part.inj same
      exact .inl ⟨rfl, rfl, rfl⟩
    · obtain ⟨same, rfl⟩ | before := put_cases before
      · obtain ⟨rfl, rfl, rfl⟩ := Key.part.inj same
        exact .inl ⟨rfl, rfl, rfl⟩
      · exact .inr before

theorem write_cases {w : Writing c} {kind : Kind} {number : Nat} {hash : Hash} {data : Bytes}
    (found : (s.writeBlock w).disk.active (.part kind number hash) = some data) :
    (w.hash = hash ∧ w.number = number ∧ w.part kind = some data) ∨ s.disk.active (.part kind number hash) = some data := by
  cases receipts : w.receipts with
  | none =>
    simp only [writeBlock, receipts] at found
    exact put_block_cases found
  | some written =>
    simp only [writeBlock, receipts] at found
    obtain ⟨same, rfl⟩ | before := put_cases found
    · obtain ⟨rfl, rfl, rfl⟩ := Key.part.inj same
      exact .inl ⟨rfl, rfl, by rw [Writing.part, receipts]; rfl⟩
    · exact put_block_cases before

theorem put_block_body (d : Disk) (w : Writing c) {number : Nat} {hash : Hash}
    (some : (w.number = number ∧ w.hash = hash) ∨ (d.active (.part .bodies number hash)).isSome = true) :
    ((putBlock d w).active (.part .bodies number hash)).isSome = true := by
  refine put_isSome ?_
  obtain ⟨rfl, rfl⟩ | there := some
  · have here : ∀ e : Disk, (e.put (.part .bodies w.number w.hash) (c.encodeBody w.body)).active (.part .bodies w.number w.hash) =
        some (c.encodeBody w.body) := fun e => update_self ..
    rw [here]
    rfl
  · exact put_isSome (put_isSome there)

theorem write_paired (sound : s.Sound) (w : Writing c) : (s.writeBlock w).disk.Paired := by
  intro number hash some
  obtain ⟨data, found⟩ := isSome_iff_exists.mp some
  have body : (w.number = number ∧ w.hash = hash) ∨ (s.disk.active (.part .bodies number hash)).isSome = true :=
    (write_cases found).imp (fun new => ⟨new.2.1, new.1⟩) fun before => sound.paired number hash (by rw [before]; rfl)
  cases receipts : w.receipts with
  | none =>
    simp only [writeBlock, receipts]
    exact put_block_body s.disk w body
  | some written =>
    simp only [writeBlock, receipts]
    exact put_isSome (put_block_body s.disk w body)

theorem write_tables (w : Writing c) : (s.writeBlock w).disk.tables = s.disk.tables := by
  cases receipts : w.receipts with
  | none => simp only [writeBlock, receipts]; rfl
  | some written => simp only [writeBlock, receipts]; rfl

theorem sound_write (sound : s.Sound) (w : Writing c)
    (matching : ∀ receipts, w.receipts = some receipts → (c.transactions w.body).length = (c.storedReceipts receipts).length)
    (same : ∀ earlier ∈ s.log, earlier.hash = w.hash → earlier.header = w.header ∧ earlier.body = w.body) : (s.writeBlock w).Sound := by
  have more : ∀ {kind number hash data}, s.Wrote kind number hash data → (s.writeBlock w).Wrote kind number hash data := by
    rintro kind number hash data ⟨earlier, member, rest⟩
    exact ⟨earlier, mem_cons_of_mem _ member, rest⟩
  refine ⟨?_, write_paired sound w, ?_, ?_, ?_, ?_⟩
  · intro kind number hash data found
    obtain new | before := write_cases found
    · exact ⟨w, mem_cons_self, new⟩
    · exact more (sound.active kind number hash data before)
  · rw [write_tables]
    exact sound.lengths
  · rw [write_tables]
    intro number past
    obtain ⟨hash, named, rest⟩ := sound.ancient number past
    refine ⟨hash, named, fun kind block => ?_⟩
    obtain ⟨data, found, wrote⟩ := rest kind block
    exact ⟨data, found, more wrote⟩
  · intro first one second two equal
    obtain rfl | early := mem_cons.mp one
    · obtain rfl | late := mem_cons.mp two
      · exact ⟨rfl, rfl⟩
      · obtain ⟨header, body⟩ := same second late equal.symm
        exact ⟨header.symm, body.symm⟩
    · obtain rfl | late := mem_cons.mp two
      · exact same first early equal
      · exact sound.one first early second late equal
  · intro other member
    obtain rfl | member := mem_cons.mp member
    · exact matching
    · exact sound.matching other member

theorem sound_step (sound : s.Sound) (step : Step s t) : t.Sound := by
  cases step with
  | write w matching same => exact sound_write sound w matching same
  | canonical number hash =>
    have away : ∀ kind n h data, (s.disk.put (.canonical number) (c.hashBytes hash)).active (.part kind n h) = some data →
        s.disk.active (.part kind n h) = some data :=
      fun kind n h data found => (put_cases found).resolve_left fun same => nomatch same.1
    refine ⟨fun kind n h data found => sound.active kind n h data (away kind n h data found), ?_, sound.lengths, sound.ancient, sound.one,
      sound.matching⟩
    intro n h some
    obtain ⟨data, found⟩ := isSome_iff_exists.mp some
    exact put_isSome (sound.paired n h (by rw [away _ _ _ _ found]; rfl))
  | uncanonical number =>
    exact sound_less sound (fun _ _ found => delete_le found) rfl (paired_delete_canonical sound.paired number)
  | head w written => exact ⟨sound.active, sound.paired, sound.lengths, sound.ancient, sound.one, sound.matching⟩
  | freeze count limit => exact sound_freeze sound count
  | rewind hash number positive => exact sound_rewind sound hash number

theorem sound_run (run : Relation.ReflTransGen Step (empty c) s) : s.Sound := by
  induction run with
  | refl => exact sound_empty
  | tail _ step ih => exact sound_step ih step

structure Faithful (config : Chain) (s : BlockStore c) (hash : Hash) (number : Nat) : Prop where
  header : ∀ header, (readHeader c hash number).alone answer s.disk = some header →
    ∃ w ∈ s.log, w.hash = hash ∧ w.number = number ∧ w.header = header
  body : ∀ body, (readBody c hash number).alone answer s.disk = some body →
    ∃ w ∈ s.log, w.hash = hash ∧ w.number = number ∧ w.body = body
  td : ∀ td, (readTd c hash number).alone answer s.disk = some td →
    ∃ w ∈ s.log, w.hash = hash ∧ w.number = number ∧ w.td = td
  receipts : ∀ receipts, (readReceipts c config hash number).alone answer s.disk = some receipts →
    ∃ w ∈ s.log, w.hash = hash ∧ w.number = number ∧ ∃ stored, w.receipts = some stored ∧
      config.readReceipts hash number (c.transactions w.body) (c.storedReceipts stored) = some receipts
  hasHeader : (hasHeader c hash number).alone answer s.disk = true →
    ((readHeader c hash number).alone answer s.disk).isSome = true
  hasBody : (hasBody c hash number).alone answer s.disk = true →
    ((readBody c hash number).alone answer s.disk).isSome = true
  hasReceipts : (hasReceipts c hash number).alone answer s.disk = true →
    ((readReceipts c config hash number).alone answer s.disk).isSome = true

def source (s : BlockStore c) (kind : Kind) (hash : Hash) (number : Nat) : Option Bytes :=
  if number < s.frozen then (s.disk.tables kind)[number]? else s.disk.active (.part kind number hash)

def Asked (s : BlockStore c) (hash : Hash) (number : Nat) : Prop :=
  ∀ data, (s.disk.tables .hashes)[number]? = some data → c.bytesToHash data = hash

section Reads

variable {hash : Hash} {number : Nat} {kind : Kind}

theorem wrote_nonempty (lawful : c.Lawful) {data : Bytes} (wrote : s.Wrote kind number hash data) : data ≠ [] := by
  obtain ⟨w, -, -, -, part⟩ := wrote
  cases kind with
  | hashes => nomatch part
  | headers => exact some.inj part ▸ lawful.headerSome _
  | bodies => exact some.inj part ▸ lawful.bodySome _
  | diffs => exact some.inj part ▸ lawful.tdSome _
  | receipts =>
    obtain ⟨receipts, -, rfl⟩ := map_eq_some_iff.mp part
    exact lawful.receiptsSome _

theorem not_frozen (sound : s.Sound) (later : ¬ number < s.frozen) (kind : Kind) : (s.disk.tables kind)[number]? = none :=
  getElem?_eq_none (by rw [sound.lengths]; exact Nat.not_lt.mp later)

theorem read_source (lawful : c.Lawful) (sound : s.Sound) (block : kind ≠ .hashes) :
    (readRLP kind number (.part kind number hash)).alone answer s.disk = (s.source kind hash number).getD [] := by
  rw [read_rlp_alone, source]
  by_cases past : number < s.frozen
  · obtain ⟨own, -, rest⟩ := sound.ancient number past
    obtain ⟨data, found, wrote⟩ := rest kind block
    rw [if_pos past, found, getD_some, if_neg (wrote_nonempty lawful wrote)]
  · rw [if_neg past, not_frozen sound past]
    rfl

theorem source_wrote (lawful : c.Lawful) (sound : s.Sound) (block : kind ≠ .hashes) (asked : s.Asked hash number) {data : Bytes}
    (found : s.source kind hash number = some data) : s.Wrote kind number hash data := by
  unfold source at found
  split at found
  · next past =>
      obtain ⟨own, named, rest⟩ := sound.ancient number past
      obtain ⟨stored, there, wrote⟩ := rest kind block
      obtain rfl := some.inj (there.symm.trans found)
      have same := asked _ named
      rw [lawful.hash] at same
      exact same ▸ wrote
  · exact sound.active _ _ _ _ found

theorem has_source (sound : s.Sound) (block : kind ≠ .hashes) (has : (hasPart c kind hash number).alone answer s.disk = true) :
    (s.source kind hash number).isSome = true := by
  unfold source
  split
  · next past =>
      obtain ⟨own, -, rest⟩ := sound.ancient number past
      obtain ⟨data, found, -⟩ := rest kind block
      rw [found]
      rfl
  · next later =>
      obtain frozen | stored := (has_part_alone c s.disk kind hash number).mp has
      · rw [not_frozen sound later] at frozen
        nomatch frozen
      · exact stored

theorem decoded_source {α : Type} (lawful : c.Lawful) (sound : s.Sound) (block : kind ≠ .hashes) (asked : s.Asked hash number)
    (decode : Bytes → Option α) (field : Writing c → Option α)
    (reads : ∀ w data, w.part kind = some data → ∃ x, field w = some x ∧ decode data = some x) :
    (∀ result, decoded decode ((s.source kind hash number).getD []) = some result →
      ∃ w ∈ s.log, w.hash = hash ∧ w.number = number ∧ field w = some result) ∧
    ((s.source kind hash number).isSome = true → (decoded decode ((s.source kind hash number).getD [])).isSome = true) := by
  cases found : s.source kind hash number with
  | none => exact ⟨fun result read => (nomatch read), nofun⟩
  | some data =>
    have wrote := source_wrote lawful sound block asked found
    obtain ⟨w, member, own, placed, part⟩ := wrote
    obtain ⟨x, there, decodes⟩ := reads w data part
    rw [getD_some, decoded, if_neg (wrote_nonempty lawful ⟨w, member, own, placed, part⟩), decodes]
    exact ⟨fun result read => ⟨w, member, own, placed, there.trans read⟩, fun _ => rfl⟩

theorem header_part (lawful : c.Lawful) (w : Writing c) (data : Bytes) (part : w.part .headers = some data) :
    ∃ x, some w.header = some x ∧ c.decodeHeader data = some x := ⟨_, rfl, some.inj part ▸ lawful.header _⟩

theorem body_part (lawful : c.Lawful) (w : Writing c) (data : Bytes) (part : w.part .bodies = some data) :
    ∃ x, some w.body = some x ∧ c.decodeBody data = some x := ⟨_, rfl, some.inj part ▸ lawful.body _⟩

theorem td_part (lawful : c.Lawful) (w : Writing c) (data : Bytes) (part : w.part .diffs = some data) :
    ∃ x, some w.td = some x ∧ c.decodeTd data = some x := ⟨_, rfl, some.inj part ▸ lawful.td _⟩

theorem receipts_part (lawful : c.Lawful) (w : Writing c) (data : Bytes) (part : w.part .receipts = some data) :
    ∃ x, w.receipts = some x ∧ c.decodeReceipts data = some x := by
  obtain ⟨receipts, own, rfl⟩ := map_eq_some_iff.mp part
  exact ⟨receipts, own, lawful.receipts receipts⟩

variable (lawful : c.Lawful) (sound : s.Sound)

include lawful sound

theorem read_header_source : (readHeader c hash number).alone answer s.disk =
    decoded c.decodeHeader ((s.source .headers hash number).getD []) := by
  rw [readHeader, Program.alone_bind, readHeaderRLP, read_source lawful sound (by decide)]
  rfl

theorem read_body_source : (readBody c hash number).alone answer s.disk =
    decoded c.decodeBody ((s.source .bodies hash number).getD []) := by
  rw [readBody, Program.alone_bind, readBodyRLP, read_source lawful sound (by decide)]
  rfl

theorem read_td_source : (readTd c hash number).alone answer s.disk =
    decoded c.decodeTd ((s.source .diffs hash number).getD []) := by
  rw [readTd, Program.alone_bind, readTdRLP, read_source lawful sound (by decide)]
  rfl

theorem read_raw_receipts_source : (readRawReceipts c hash number).alone answer s.disk =
    decoded c.decodeReceipts ((s.source .receipts hash number).getD []) := by
  rw [readRawReceipts, Program.alone_bind, readReceiptsRLP, read_source lawful sound (by decide)]
  rfl

omit lawful in
theorem receipts_source_body (some : (s.source .receipts hash number).isSome = true) : (s.source .bodies hash number).isSome = true := by
  unfold source at some ⊢
  split at some
  · next past =>
      obtain ⟨own, -, rest⟩ := sound.ancient number past
      obtain ⟨data, found, -⟩ := rest .bodies (by decide)
      rw [if_pos past, found]
      rfl
  · next later =>
      rw [if_neg later]
      exact sound.paired number hash some

theorem read_receipts_source (config : Chain) (asked : s.Asked hash number) :
    (∀ receipts, (readReceipts c config hash number).alone answer s.disk = some receipts →
      ∃ w ∈ s.log, w.hash = hash ∧ w.number = number ∧ ∃ stored, w.receipts = some stored ∧
        config.readReceipts hash number (c.transactions w.body) (c.storedReceipts stored) = some receipts) ∧
    ((s.source .receipts hash number).isSome = true → ((readReceipts c config hash number).alone answer s.disk).isSome = true) := by
  obtain ⟨rawOf, rawSome⟩ := decoded_source lawful sound (by decide) asked c.decodeReceipts Writing.receipts (receipts_part lawful)
  obtain ⟨bodyOf, bodySome⟩ := decoded_source lawful sound (by decide) asked c.decodeBody (fun w => some w.body) (body_part lawful)
  rw [read_receipts_alone, read_raw_receipts_source lawful sound, read_body_source lawful sound]
  have one {w : Writing c} {body : c.Body} (member : w ∈ s.log) (own : w.hash = hash)
      (there : decoded c.decodeBody ((s.source .bodies hash number).getD []) = some body) : w.body = body := by
    obtain ⟨other, listed, same, -, sameBody⟩ := bodyOf body there
    exact (sound.one w member other listed (own.trans same.symm)).2.trans (some.inj sameBody)
  constructor
  · intro receipts read
    obtain ⟨stored, raw, read⟩ := bind_eq_some_iff.mp read
    obtain ⟨body, there, read⟩ := bind_eq_some_iff.mp read
    obtain ⟨w, member, own, placed, written⟩ := rawOf stored raw
    exact ⟨w, member, own, placed, stored, written, one member own there ▸ read⟩
  · intro some
    obtain ⟨stored, raw⟩ := isSome_iff_exists.mp (rawSome some)
    obtain ⟨body, there⟩ := isSome_iff_exists.mp (bodySome (receipts_source_body sound some))
    obtain ⟨w, member, own, placed, written⟩ := rawOf stored raw
    have lengths := sound.matching w member stored written
    rw [raw, there, bind_some, bind_some, ← one member own there]
    unfold Chain.readReceipts Chain.deriveFields
    rw [if_neg (by simpa using lengths)]
    rfl

end Reads

end BlockStore

-- For every content of the stores that writes, reorganisations, runs of the freezer and rewinds lead to.
theorem reads_faithful_iff (c : Codec) (lawful : c.Lawful) (config : Chain) (s : BlockStore c)
    (run : Relation.ReflTransGen BlockStore.Step (BlockStore.empty c) s) (hash : Hash) (number : Nat) :
    s.Faithful config hash number ↔ s.Asked hash number := by
  have sound := BlockStore.sound_run run
  constructor
  · intro faithful data found
    have past : number < s.frozen := by
      rw [← sound.lengths .hashes]
      exact (List.getElem?_eq_some_iff.mp found).1
    obtain ⟨own, named, rest⟩ := sound.ancient number past
    obtain ⟨header, there, w, member, placed, -, part⟩ := rest .headers (by decide)
    obtain rfl := some.inj (named.symm.trans found)
    obtain rfl := some.inj part
    -- the header that is read is that of the frozen block
    have read : (readHeader c hash number).alone answer s.disk = some w.header := by
      rw [BlockStore.read_header_source lawful sound, BlockStore.source, if_pos past, there, getD_some, decoded,
        if_neg (lawful.headerSome _), lawful.header]
    obtain ⟨other, -, asked, -, same⟩ := faithful.header w.header read
    rw [lawful.hash, ← placed, ← asked]
    exact congrArg c.hash same.symm
  · intro asked
    have header := BlockStore.decoded_source lawful sound (by decide) asked c.decodeHeader (fun w => some w.header)
      (BlockStore.header_part lawful)
    have body := BlockStore.decoded_source lawful sound (by decide) asked c.decodeBody (fun w => some w.body)
      (BlockStore.body_part lawful)
    have td := BlockStore.decoded_source lawful sound (by decide) asked c.decodeTd (fun w => some w.td) (BlockStore.td_part lawful)
    have receipts := BlockStore.read_receipts_source lawful sound config asked
    simp only [some.injEq] at header body td
    rw [← BlockStore.read_header_source lawful sound] at header
    rw [← BlockStore.read_body_source lawful sound] at body
    rw [← BlockStore.read_td_source lawful sound] at td
    exact ⟨header.1, body.1, td.1, receipts.1, fun has => header.2 (BlockStore.has_source sound (by decide) has),
      fun has => body.2 (BlockStore.has_source sound (by decide) has),
      fun has => receipts.2 (BlockStore.has_source sound (by decide) has)⟩

def sampleWriting (number : Nat) : Writing sampleCodec := ⟨(sampleHash number, number), (), number, some ()⟩

def sideHash : Hash := BitVec.ofNat 256 1000000

def sideWriting : Writing sampleCodec := ⟨(sideHash, 1), (), 1, some ()⟩

theorem sample_hash_inj {first second : Nat} (one : first < 1000000) (two : second < 1000000)
    (same : sampleHash first = sampleHash second) : first = second := by
  have values := congrArg BitVec.toNat same
  simp only [sampleHash, BitVec.toNat_ofNat] at values
  omega

theorem side_hash_apart {number : Nat} (small : number < 999998) : sampleHash number ≠ sideHash := by
  intro same
  have values := congrArg BitVec.toNat same
  simp only [sampleHash, sideHash, BitVec.toNat_ofNat] at values
  omega

theorem write_other {c : Codec} {s : BlockStore c} {w : Writing c} {key : Key} (apart : key.number ≠ w.number) :
    (s.writeBlock w).disk.active key = s.disk.active key := by
  have other : ∀ kind, key ≠ .part kind w.number w.hash := by
    rintro kind rfl
    exact apart rfl
  cases receipts : w.receipts <;>
    simp only [BlockStore.writeBlock, receipts, put, update_of_ne (other _)]

structure Grown (top : Nat) (s : BlockStore sampleCodec) : Prop where
  run : Relation.ReflTransGen BlockStore.Step (BlockStore.empty sampleCodec) s
  frozen : s.frozen = 0
  tables : ∀ kind, s.disk.tables kind = []
  present : ∀ number ≤ 1, sampleChain.Present s.disk number
  log : ∀ w ∈ s.log, w = sideWriting ∨ ∃ number ≤ top, w = sampleWriting number
  side : sideWriting ∈ s.log
  top : sampleWriting top ∈ s.log

theorem grown_first : ∃ s, Grown 1 s := by
  let s0 := (BlockStore.empty sampleCodec).writeBlock (sampleWriting 0)
  let s1 : BlockStore sampleCodec := { s0 with disk := s0.disk.put (.canonical 0) (sampleCodec.hashBytes (sampleHash 0)) }
  let s2 := s1.writeBlock sideWriting
  let s3 := s2.writeBlock (sampleWriting 1)
  let s4 : BlockStore sampleCodec := { s3 with disk := s3.disk.put (.canonical 1) (sampleCodec.hashBytes (sampleHash 1)) }
  refine ⟨s4, ?_, rfl, fun _ => rfl, ?_, ?_, ?_, ?_⟩
  · have write0 : BlockStore.Step (BlockStore.empty sampleCodec) s0 := .write _ _ (fun _ _ => rfl) nofun
    have write2 : BlockStore.Step s1 s2 := by
      refine .write _ _ (fun _ _ => rfl) ?_
      intro earlier member same
      obtain rfl : earlier = sampleWriting 0 := by simpa [s1, s0, BlockStore.writeBlock, BlockStore.empty] using member
      exact absurd same (side_hash_apart (by decide))
    have write3 : BlockStore.Step s2 s3 := by
      refine .write _ _ (fun _ _ => rfl) ?_
      intro earlier member same
      have cases : earlier = sideWriting ∨ earlier = sampleWriting 0 := by
        simpa [s2, s1, s0, BlockStore.writeBlock, BlockStore.empty] using member
      obtain rfl | rfl := cases
      · exact absurd same.symm (side_hash_apart (by decide))
      · exact absurd (sample_hash_inj (by decide) (by decide) same) (by decide)
    exact ((((Relation.ReflTransGen.single write0).tail (.canonical _ 0 _)).tail write2).tail write3).tail (.canonical _ 1 _)
  · have genesis : sampleChain.Present s1.disk 0 := by
      intro kind
      cases kind <;> simp [Canonical.key, sampleChain, s1, s0, BlockStore.writeBlock, sampleWriting, put, sampleParts, ancientRecord,
        Writing.number, Writing.hash, sampleCodec]
    have child : sampleChain.Present s4.disk 1 := by
      intro kind
      cases kind <;> simp [Canonical.key, sampleChain, s4, s3, BlockStore.writeBlock, sampleWriting, put, sampleParts, ancientRecord,
        Writing.number, Writing.hash, sampleCodec]
    intro number low kind
    obtain rfl | rfl : number = 0 ∨ number = 1 := by omega
    · have away : (sampleChain.key kind 0).number = 0 := number_key kind 0
      have put : s4.disk.active (sampleChain.key kind 0) = s3.disk.active (sampleChain.key kind 0) :=
        update_of_ne (by intro same; rw [same] at away; exact absurd away (by decide)) _ _
      rw [put, write_other (by rw [away]; decide), write_other (by rw [away]; decide)]
      exact genesis kind
    · exact child kind
  · intro w member
    have cases : w = sampleWriting 1 ∨ w = sideWriting ∨ w = sampleWriting 0 := by
      simpa [s4, s3, s2, s1, s0, BlockStore.writeBlock, BlockStore.empty] using member
    obtain rfl | rfl | rfl := cases
    · exact .inr ⟨1, le_rfl, rfl⟩
    · exact .inl rfl
    · exact .inr ⟨0, by decide, rfl⟩
  · simp [s4, s3, s2, BlockStore.writeBlock]
  · simp [s4, s3, BlockStore.writeBlock]

variable {top : Nat}

theorem grown_next (positive : 0 < top) (small : top < 900000) {s : BlockStore sampleCodec} (grown : Grown top s) :
    Grown (top + 1) (s.writeBlock (sampleWriting (top + 1))) where
  run := by
    refine grown.run.tail (.write _ _ (fun _ _ => rfl) ?_)
    intro earlier member same
    obtain rfl | ⟨number, low, rfl⟩ := grown.log earlier member
    · exact absurd same.symm (side_hash_apart (by omega))
    · have equal := sample_hash_inj (by omega) (by omega) same
      omega
  frozen := grown.frozen
  tables kind := by
    exact grown.tables kind
  present number low kind := by
    have apart : (sampleChain.key kind number).number ≠ (sampleWriting (top + 1)).number := by
      rw [number_key]
      show number ≠ top + 1
      omega
    rw [write_other apart]
    exact grown.present number low kind
  log w member := by
    obtain rfl | earlier := mem_cons.mp member
    · exact .inr ⟨top + 1, le_rfl, rfl⟩
    · exact (grown.log w earlier).imp_right fun ⟨number, low, same⟩ => ⟨number, by omega, same⟩
  side := mem_cons_of_mem _ grown.side
  top := mem_cons_self

theorem grown_to (count : Nat) (small : count < 900000) : ∃ s, Grown (count + 1) s := by
  induction count with
  | zero => exact grown_first
  | succ count ih =>
    obtain ⟨s, grown⟩ := ih (by omega)
    exact ⟨_, grown_next (by omega) (by omega) grown⟩

theorem grown_head {s : BlockStore sampleCodec} (grown : Grown top s) : Grown top { s with head := top } :=
  ⟨grown.run.tail (.head s (sampleWriting top) grown.top), grown.frozen, grown.tables, grown.present, grown.log, grown.side, grown.top⟩

theorem grown_freeze {s : BlockStore sampleCodec} (grown : Grown top s) (kind : Kind) :
    (s.freeze 2).disk.tables kind = [sampleParts 0 kind, sampleParts 1 kind] ∧ (s.freeze 2).log = s.log := by
  have present : sampleChain.Present (s.appendAncient (sampleParts 0)).disk 1 := grown.present 1 le_rfl
  have first : s.disk.load sampleCodec s.frozen = some (sampleHash 0, sampleParts 0) := by
    rw [grown.frozen]
    exact (load_present sample_lawful (grown.present 0 (by decide))).trans (if_neg (by decide))
  have second : (s.appendAncient (sampleParts 0)).disk.load sampleCodec (s.appendAncient (sampleParts 0)).frozen =
      some (sampleHash 1, sampleParts 1) := by
    rw [show (s.appendAncient (sampleParts 0)).frozen = 1 from congrArg (· + 1) grown.frozen]
    exact (load_present sample_lawful present).trans (if_neg (by decide))
  have frozen : (BlockStore.freezeBlocks 2 s).1 = (s.appendAncient (sampleParts 0)).appendAncient (sampleParts 1) := by
    simp only [BlockStore.freezeBlocks, first, second]
  have tables : (s.freeze 2).disk.tables = (BlockStore.freezeBlocks 2 s).1.disk.tables := wipe_tables _ _
  have log : (s.freeze 2).log = (BlockStore.freezeBlocks 2 s).1.log := rfl
  rw [tables, log, frozen]
  simp [BlockStore.appendAncient, grown.tables]

theorem frozen_two : ∃ s : BlockStore sampleCodec, Relation.ReflTransGen BlockStore.Step (BlockStore.empty sampleCodec) s ∧
    sideWriting ∈ s.log ∧ ∀ kind, s.disk.tables kind = [sampleParts 0 kind, sampleParts 1 kind] := by
  obtain ⟨s, ungrown⟩ := grown_to 100000 (by decide)
  have grown := grown_head ungrown
  have limit : s.frozen + 2 ≤ min (100000 + 1 - immutabilityThreshold) (s.frozen + freezerBatchLimit) := by
    rw [ungrown.frozen]
    decide
  refine ⟨_, grown.run.tail (.freeze _ 2 limit), ?_, fun kind => (grown_freeze grown kind).1⟩
  rw [(grown_freeze grown .headers).2]
  exact grown.side

theorem side_block_reads_frozen_header :
    ∃ s : BlockStore sampleCodec, Relation.ReflTransGen BlockStore.Step (BlockStore.empty sampleCodec) s ∧
      sideWriting ∈ s.log ∧ sideWriting.number = 1 ∧ sideWriting.hash ≠ sampleHash 1 ∧
      (readHeader sampleCodec sideWriting.hash 1).alone answer s.disk = some (sampleHash 1, 1) := by
  obtain ⟨s, run, side, frozen⟩ := frozen_two
  refine ⟨s, run, side, rfl, (side_hash_apart (by decide)).symm, ?_⟩
  have nonempty := sample_lawful.headerSome (sampleHash 1, 1)
  have read : (readHeaderRLP sideWriting.hash 1).alone answer s.disk = sampleCodec.encodeHeader (sampleHash 1, 1) := by
    rw [readHeaderRLP, read_rlp_alone, frozen]
    exact if_neg nonempty
  have decodes : decoded sampleCodec.decodeHeader (sampleCodec.encodeHeader (sampleHash 1, 1)) = some (sampleHash 1, 1) := by
    rw [decoded, if_neg nonempty]
    exact sample_lawful.header (sampleHash 1, 1)
  rw [readHeader, Program.alone_bind, read, decodes]
  rfl

theorem reads_faithful_iff_frozen :
    ∃ s : BlockStore sampleCodec, Relation.ReflTransGen BlockStore.Step (BlockStore.empty sampleCodec) s ∧
      (s.disk.tables .hashes).length = 2 ∧ ∀ config : Chain, s.Faithful config (sampleHash 1) 1 := by
  obtain ⟨s, run, -, frozen⟩ := frozen_two
  refine ⟨s, run, by rw [frozen]; rfl, fun config => ?_⟩
  refine (reads_faithful_iff sampleCodec sample_lawful config s run (sampleHash 1) 1).mpr ?_
  intro data found
  rw [frozen] at found
  obtain rfl := some.inj found
  exact sample_lawful.hash _

end Didux.Rawdb
