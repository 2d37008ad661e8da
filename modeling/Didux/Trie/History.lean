import Didux.Trie.Hasher

set_option autoImplicit false

namespace Didux.Trie

open Sport Radix Function List Except

def Codec.emptyRoot (x : Codec) : Bytes := x.keccak (x.encode .string [])

def zeroHash : Bytes := replicate 32 0

-- A trie on its database. `hashed` is not in the source: it lists every string whose hash was taken.
structure State where
  root : Node
  db : Database
  hashed : List Bytes

inductive Call where
  | tryGet (key : Bytes)
  | tryUpdate (key value : Bytes)
  | tryDelete (key : Bytes)
  | hash
  | commit
  | flush (hash : Bytes)
  | new (root : Bytes)

inductive Answer where
  | done
  | value (value : Option Bytes)
  | root (hash : Bytes)

namespace State

variable (x : Codec)

def start : State := ⟨.nil, .new, [x.encode .string []]⟩

def fuel (key : Hex) : Nat := 2 * key.length + 2

variable (s : State) (key : Bytes)

def tryGet : Except TrieError (Answer × State) := do
  let key := keybytesToHex key
  let (found, newroot, didResolve) ← s.root.tryGet x s.db (fuel key) [] key
  return (.value found, if didResolve then { s with root := newroot } else s)

def tryDelete : Except TrieError (Answer × State) := do
  let k := keybytesToHex key
  let (_, n) ← s.root.delete x s.db (fuel k) [] k
  return (.done, { s with root := n })

def tryUpdate (key value : Bytes) : Except TrieError (Answer × State) :=
  if value = [] then s.tryDelete x key
  else do
    let k := keybytesToHex key
    let (_, n) ← s.root.insert x s.db (fuel k) [] k value
    return (.done, { s with root := n })

def hashRoot (commit : Bool) : Hashed :=
  if s.root.isNil then ⟨.hash x.emptyRoot, .nil, []⟩ else Trie.hash x commit true s.root

def rooted (r : Hashed) (db : Database) : Except TrieError (Answer × State) :=
  match r.hashed with
  | .hash h => .ok (.root h, ⟨r.cached, db, s.hashed ++ r.blobs.map fun b => x.encodeNode b.2⟩)
  | _ => .error .panic

def hash : Except TrieError (Answer × State) := s.rooted x (s.hashRoot x false) s.db

def commit : Except TrieError (Answer × State) :=
  s.rooted x (s.hashRoot x true) ((s.hashRoot x true).blobs.foldl (fun db b => db.insert b.1 b.2) s.db)

def new (root : Bytes) : Except TrieError (Answer × State) :=
  if root = zeroHash ∨ root = x.emptyRoot then .ok (.done, { s with root := .nil })
  else do
    let n ← resolveHash x s.db root []
    return (.done, { s with root := n })

def step : Call → Except TrieError (Answer × State)
  | .tryGet key => s.tryGet x key
  | .tryUpdate key value => s.tryUpdate x key value
  | .tryDelete key => s.tryDelete x key
  | .hash => s.hash x
  | .commit => s.commit x
  | .flush h => .ok (.done, { s with db := s.db.flush x h })
  | .new root => s.new x root

def ground : Ground := ⟨s.db, { b | b ∈ s.hashed }⟩

end State

-- What the calls of a history leave: the map, and the map under each root that was committed.
structure Ledger where
  map : Bytes → Option Bytes
  commits : List (Bytes × (Bytes → Option Bytes))

namespace Ledger

def start : Ledger := ⟨fun _ => none, []⟩

def write (l : Ledger) (key : Bytes) (value : Option Bytes) : Ledger := { l with map := update l.map key value }

def next (l : Ledger) : Call → Answer → Ledger
  | .tryUpdate key value, _ => l.write key (if value = [] then none else some value)
  | .tryDelete key, _ => l.write key none
  | .commit, .root h => { l with commits := (h, l.map) :: l.commits }
  | .new root, _ => { l with map := ((l.commits.find? fun c => c.1 = root).map Prod.snd).getD l.map }
  | _, _ => l

def Allows (l : Ledger) : Call → Prop
  | .new root => root ∈ l.commits.map Prod.fst
  | _ => True

end Ledger

inductive History (x : Codec) : State → Ledger → Prop where
  | start : History x (.start x) .start
  | call {s next : State} {l : Ledger} {call : Call} {answer : Answer} (before : History x s l) (allowed : l.Allows call)
      (done : s.step x call = .ok (answer, next)) : History x next (l.next call answer)

structure Codec.NoCollision (x : Codec) (strings : List Bytes) : Prop where
  apart : Set.InjOn x.keccak { b | b ∈ strings }
  some : ∀ b ∈ strings, x.keccak b ≠ zeroHash

structure Holds (t : Patricia) (m : Bytes → Option Bytes) : Prop where
  shape : t = .nil ∨ t.Normal
  values : ∀ k, (t.get (keybytesToHex k)).map (·.1) = m k
  keys : ∀ q, Terminated q → t.get q ≠ none → ∃ k, q = keybytesToHex k

def Codec.rootHash (x : Codec) (t : Patricia) : Bytes := if t.isNil then x.emptyRoot else x.digest t

theorem root_hash_normal {x : Codec} {t : Patricia} (normal : t.Normal) : x.rootHash t = x.digest t := by
  cases normal <;> rfl

section

variable {t : Patricia} {m : Bytes → Option Bytes}

theorem holds_fits (holds : Holds t m) (k : Bytes) : t.Fits (keybytesToHex k) := by
  intro present
  have normal := holds.shape.resolve_left present
  simpa [Tree.key_ne_nil (keybytes_terminated k)] using normal

theorem holds_unique {u : Patricia} {m : Bytes → Option Bytes} (left : Holds t m) (right : Holds u m) : t = u := by
  have same (q : Hex) (key : Terminated q) : t.get q = u.get q := by
    have agree (k : Bytes) : t.get (keybytesToHex k) = u.get (keybytesToHex k) :=
      Option.map_injective Subtype.val_injective ((left.values k).trans (right.values k).symm)
    by_cases here : t.get q = none
    · by_cases there : u.get q = none
      · rw [here, there]
      · obtain ⟨k, rfl⟩ := right.keys q key there
        exact agree k
    · obtain ⟨k, rfl⟩ := left.keys q key here
      exact agree k
  rcases left.shape with rfl | normal
  · rcases right.shape with rfl | other
    · rfl
    · obtain ⟨q, key, found⟩ := Tree.normal_key u other
      exact absurd (same q key).symm found
  · rcases right.shape with rfl | other
    · obtain ⟨q, key, found⟩ := Tree.normal_key t normal
      exact absurd (same q key) found
    · exact Tree.normal_unique t u normal other same

theorem holds_map {w : Bytes → Option Bytes} (left : Holds t m) (right : Holds t w) : m = w := by
  funext k
  rw [← left.values k, right.values k]

theorem holds_start : Holds .nil Ledger.start.map := ⟨.inl rfl, fun _ => rfl, fun _ _ found => absurd rfl found⟩

theorem key_iff (k j : Bytes) : keybytesToHex k = keybytesToHex j ↔ k = j := ⟨keybytes_injective k j, congrArg keybytesToHex⟩

theorem holds_write {u : Patricia} {m : Bytes → Option Bytes} (holds : Holds t m) (k : Bytes) (v : Option Value)
    (shape : u = .nil ∨ u.Normal) (get : ∀ q, Terminated q → u.get q = if q = keybytesToHex k then v else t.get q) :
    Holds u (update m k (v.map (·.1))) := by
  refine ⟨shape, fun j => ?_, fun q key found => ?_⟩
  · by_cases same : j = k
    · simp [same, get _ (keybytes_terminated k)]
    · simp [same, get _ (keybytes_terminated j), key_iff, holds.values j]
  · by_cases same : q = keybytesToHex k
    · exact ⟨k, same⟩
    · exact holds.keys q key (by simpa [get q key, same] using found)

theorem holds_insert (holds : Holds t m) (k : Bytes) (v : Value) :
    Holds (t.insert (keybytesToHex k) v) (update m k (some v.1)) := by
  have key := keybytes_terminated k
  have more := Tree.key_ne_nil key
  obtain ⟨fits, present⟩ := Tree.insert_fits t (keybytesToHex k) v (.inr key) (holds_fits holds k)
  exact holds_write holds k (some v) (.inr (Tree.fits_more more fits present)) fun q other =>
    Tree.get_insert t _ q v (.inr key) (.inr other) (by simp [more, Tree.key_ne_nil other]) (holds_fits holds k)

theorem holds_delete (holds : Holds t m) (k : Bytes) : Holds (t.delete (keybytesToHex k)) (update m k none) := by
  have key := keybytes_terminated k
  have more := Tree.key_ne_nil key
  have fits := Tree.delete_fits t (keybytesToHex k) (.inr key) (holds_fits holds k)
  have shape : t.delete (keybytesToHex k) = .nil ∨ (t.delete (keybytesToHex k)).Normal := by
    by_cases absent : t.delete (keybytesToHex k) = .nil
    · exact .inl absent
    · exact .inr (Tree.fits_more more fits absent)
  exact holds_write holds k none shape fun q other =>
    Tree.get_delete t _ q (.inr key) (.inr other) (by simp [more, Tree.key_ne_nil other]) (holds_fits holds k)

structure Inv (x : Codec) (s : State) (l : Ledger) : Prop where
  ground : GroundOk x s.ground
  empty : x.encode .string [] ∈ s.hashed
  trie : ∃ t, Holds t l.map ∧ Rep x s.ground true t s.root
  commits : ∀ c ∈ l.commits, ∃ t, Holds t c.2 ∧ c.1 = x.rootHash t ∧
    (t ≠ .nil → Present x s.ground t ∧ x.Below (Present x s.ground) t)

end

section Steps

variable {x : Codec} {s : State} {l : Ledger}

theorem inv_start : Inv x (.start x) .start where
  ground := ⟨nofun, nofun⟩
  empty := by simp [State.start]
  trie := ⟨.nil, holds_start, .nil⟩
  commits := nofun

theorem inv_root (inv : Inv x s l) (root : Node) (m : Bytes → Option Bytes)
    (trie : ∃ t, Holds t m ∧ Rep x s.ground true t root) : Inv x { s with root := root } { l with map := m } :=
  ⟨inv.ground, inv.empty, trie, inv.commits⟩

theorem ground_mono {g next : Ground} (ok : GroundOk x g) (db : next.db = g.db) (known : g.known ⊆ next.known) : GroundOk x next where
  dirties h r found := by
    obtain ⟨t, normal, raw, digest, member⟩ := ok.dirties h r (db ▸ found)
    exact ⟨t, normal, raw, digest, known member⟩
  disk h b found := by
    obtain ⟨t, normal, raw, digest, member⟩ := ok.disk h b (db ▸ found)
    exact ⟨t, normal, raw, digest, known member⟩

variable (blobs : List (Bytes × Raw)) (db : Database) (h : Bytes)

theorem insert_has (r : Raw) : (db.insert h r).has h := by
  rw [Database.insert]
  split
  next present => exact .inl present
  next => exact .inl (by simp)

variable (j : Bytes)

theorem insert_keeps (r : Raw) (present : db.has j) : (db.insert h r).has j := by
  rw [Database.insert]
  split
  next => exact present
  next =>
    by_cases same : j = h
    · exact .inl (by simp [same])
    · simpa [Database.has, same] using present

theorem insert_all_keeps (present : db.has j) : (blobs.foldl (fun db b => db.insert b.1 b.2) db).has j := by
  induction blobs generalizing db with
  | nil => exact present
  | cons b blobs ih => exact ih _ (insert_keeps db b.1 j b.2 present)

theorem insert_all_has (b : Bytes × Raw) (member : b ∈ blobs) : (blobs.foldl (fun db b => db.insert b.1 b.2) db).has b.1 := by
  induction blobs generalizing db with
  | nil => cases member
  | cons c blobs ih =>
    rcases mem_cons.mp member with rfl | later
    · exact insert_all_keeps blobs _ _ (insert_has db b.1 b.2)
    · exact ih _ later

theorem insert_all_disk : (blobs.foldl (fun db b => db.insert b.1 b.2) db).disk = db.disk := by
  induction blobs generalizing db with
  | nil => rfl
  | cons b blobs ih =>
    rw [foldl_cons, ih, Database.insert]
    split <;> rfl

theorem insert_all_dirties (r : Raw) (found : (blobs.foldl (fun db b => db.insert b.1 b.2) db).dirties h = some r)
    : db.dirties h = some r ∨ (h, r) ∈ blobs := by
  induction blobs generalizing db with
  | nil => exact .inl found
  | cons b blobs ih =>
    rcases ih _ found with before | later
    · simp only [Database.insert] at before
      split at before
      next => exact .inl before
      next =>
        by_cases same : h = b.1
        · have here : b.2 = r := by simpa [same] using before
          exact .inr (by simp [same, ← here])
        · exact .inl (by simpa [same] using before)
    · exact .inr (by simp [later])

theorem rep_is_nil {t : Patricia} {n : Node} {g : Ground} (rep : Rep x g true t n) (shape : t = .nil ∨ t.Normal) :
    (t = .nil ∧ n.isNil = true) ∨ (t.Normal ∧ n.isNil = false) := by
  rcases shape with rfl | normal
  · exact .inl ⟨rfl, by rw [rep_nil_iff rep]; rfl⟩
  · refine .inr ⟨normal, ?_⟩
    rw [rep_nil_iff rep]
    cases normal <;> rfl

def State.after (x : Codec) (s : State) (commit : Bool) (db : Database) : Ground :=
  ⟨db, { b | b ∈ s.hashed ++ (s.hashRoot x commit).blobs.map fun b => x.encodeNode b.2 }⟩

theorem root_ok (commit : Bool) {t : Patricia} (shape : t = .nil ∨ t.Normal) (rep : Rep x s.ground true t s.root) (db : Database)
    (keeps : ∀ h, s.db.has h → db.has h) (written : commit = true → ∀ b ∈ (s.hashRoot x commit).blobs, db.has b.1) :
    (s.hashRoot x commit).hashed = .hash (x.rootHash t) ∧ Rep x (s.after x commit db) true t (s.hashRoot x commit).cached ∧
      (t ≠ .nil → x.encoding t ∈ (s.after x commit db).known ∧ x.Below (fun u => x.encoding u ∈ (s.after x commit db).known) t) ∧
      (commit = true → t ≠ .nil → Present x (s.after x commit db) t ∧ x.Below (Present x (s.after x commit db)) t) ∧
      ∀ b ∈ (s.hashRoot x commit).blobs, ∃ u : Patricia, u.Normal ∧ b = (x.digest u, x.collapse u) := by
  rcases rep_is_nil rep shape with ⟨rfl, empty⟩ | ⟨normal, some⟩
  · have root : s.hashRoot x commit = ⟨.hash x.emptyRoot, .nil, []⟩ := by rw [State.hashRoot, if_pos empty]
    rw [root]
    exact ⟨rfl, .nil, fun absent => absurd rfl absent, fun _ absent => absurd rfl absent, nofun⟩
  · have root : s.hashRoot x commit = hash x commit true s.root := by rw [State.hashRoot, some, if_neg Bool.false_ne_true]
    have more : s.ground.Extends (s.after x commit db) := ⟨keeps, fun b member => mem_append_left _ member⟩
    have taken : Taken x (s.after x commit db) commit (hash x commit true s.root).blobs := by
      rw [← root]
      exact fun b member => ⟨mem_append_right _ (mem_map.mpr ⟨b, member, rfl⟩), fun committed => written committed b member⟩
    have done := hash_ok more t s.root normal rep taken
    have present := Tree.normal_ne_nil normal
    rw [root_hash_normal normal]
    refine ⟨?_, ?_, fun _ => ⟨done.known.1 (.inl rfl), done.known.2⟩,
      fun committed _ => ⟨(done.stored committed).1 (.inl rfl), (done.stored committed).2⟩, ?_⟩
    · rw [root, done.hashed]
      exact stands_sized (.inl rfl)
    · rw [root]
      exact done.cached
    · rw [root]
      exact done.blobs

theorem fuel_enough (n : Node) (key : Hex) : 2 * key.length + n.steps < State.fuel key := by
  have bound := steps_le n
  rw [State.fuel]
  omega

theorem get_step (lawful : x.Lawful) (inv : Inv x s l) (apart : x.NoCollision s.hashed) (key : Bytes) :
    ∃ next, s.tryGet x key = .ok (.value (l.map key), next) ∧ Inv x next l ∧ next.hashed = s.hashed := by
  obtain ⟨t, holds, rep⟩ := inv.trie
  obtain ⟨found, didResolve, got, kept⟩ := try_get_rep lawful inv.ground apart.apart _ true t s.root [] _ rep
    (.inr (keybytes_terminated key)) (holds_fits holds key) (fuel_enough s.root _)
  rw [holds.values key] at got
  refine ⟨if didResolve then { s with root := found } else s, ?_, ?_, ?_⟩
  · rw [State.tryGet]
    have got : s.root.tryGet x s.db (State.fuel (keybytesToHex key)) [] (keybytesToHex key) = .ok (l.map key, found, didResolve) := got
    simp only [got]
    rfl
  · cases didResolve with
    | true => exact inv_root inv found l.map ⟨t, holds, kept⟩
    | false => exact inv
  · cases didResolve <;> rfl

theorem delete_step (lawful : x.Lawful) (inv : Inv x s l) (apart : x.NoCollision s.hashed) (key : Bytes) :
    ∃ next, s.tryDelete x key = .ok (.done, next) ∧ Inv x next (l.write key none) ∧ next.hashed = s.hashed := by
  obtain ⟨t, holds, rep⟩ := inv.trie
  obtain ⟨dirty, found, done, kept, _, _⟩ := delete_rep lawful inv.ground apart.apart _ true t s.root [] _ rep
    (.inr (keybytes_terminated key)) (holds_fits holds key) (fuel_enough s.root _)
  refine ⟨{ s with root := found }, ?_, inv_root inv found _ ⟨_, holds_delete holds key, kept⟩, rfl⟩
  rw [State.tryDelete]
  have done : s.root.delete x s.db (State.fuel (keybytesToHex key)) [] (keybytesToHex key) = .ok (dirty, found) := done
  simp only [done]
  rfl

theorem update_step (lawful : x.Lawful) (inv : Inv x s l) (apart : x.NoCollision s.hashed) (key value : Bytes) :
    ∃ next, s.tryUpdate x key value = .ok (.done, next) ∧ Inv x next (l.write key (if value = [] then none else some value)) ∧
      next.hashed = s.hashed := by
  by_cases empty : value = []
  · rw [State.tryUpdate, if_pos empty, if_pos empty]
    exact delete_step lawful inv apart key
  obtain ⟨t, holds, rep⟩ := inv.trie
  obtain ⟨dirty, found, done, kept, _⟩ := insert_rep lawful inv.ground apart.apart _ true t s.root [] _ ⟨value, empty⟩ rep
    (.inr (keybytes_terminated key)) (holds_fits holds key) (fuel_enough s.root _)
  rw [State.tryUpdate, if_neg empty, if_neg empty]
  refine ⟨{ s with root := found }, ?_, inv_root inv found _ ⟨_, holds_insert holds key ⟨value, empty⟩, kept⟩, rfl⟩
  have done : s.root.insert x s.db (State.fuel (keybytesToHex key)) [] (keybytesToHex key) value = .ok (dirty, found) := done
  simp only [done]
  rfl

theorem commits_mono {g next : Ground} (more : g.Extends next) {commits : List (Bytes × (Bytes → Option Bytes))}
    (kept : ∀ c ∈ commits, ∃ t, Holds t c.2 ∧ c.1 = x.rootHash t ∧ (t ≠ .nil → Present x g t ∧ x.Below (Present x g) t)) :
    ∀ c ∈ commits, ∃ t, Holds t c.2 ∧ c.1 = x.rootHash t ∧ (t ≠ .nil → Present x next t ∧ x.Below (Present x next) t) := by
  intro c member
  obtain ⟨t, holds, root, present⟩ := kept c member
  exact ⟨t, holds, root, fun some => ⟨present_mono more t (present some).1, below_mono (present_mono more) t (present some).2⟩⟩

theorem hash_step (inv : Inv x s l) :
    ∃ t next, Holds t l.map ∧ s.hash x = .ok (.root (x.rootHash t), next) ∧ Inv x next l ∧ s.hashed ⊆ next.hashed ∧
      (t ≠ .nil → x.encoding t ∈ next.hashed ∧ x.Below (fun u => x.encoding u ∈ next.hashed) t) := by
  obtain ⟨t, holds, rep⟩ := inv.trie
  obtain ⟨hashed, cached, known, _, _⟩ := root_ok false holds.shape rep s.db (fun _ has => has) nofun
  have grown : s.hashed ⊆ s.hashed ++ (s.hashRoot x false).blobs.map fun b => x.encodeNode b.2 := subset_append_left _ _
  refine ⟨t, ⟨(s.hashRoot x false).cached, s.db, _⟩, holds, ?_, ⟨?_, grown inv.empty, ⟨t, holds, cached⟩, ?_⟩, grown, known⟩
  · rw [State.hash, State.rooted, hashed]
  · exact ground_mono inv.ground rfl fun b member => grown member
  · have more : s.ground.Extends (s.after x false s.db) := ⟨fun _ has => has, fun b member => grown member⟩
    exact commits_mono more inv.commits

theorem commit_step (inv : Inv x s l) :
    ∃ h next, s.commit x = .ok (.root h, next) ∧ Inv x next { l with commits := (h, l.map) :: l.commits } ∧ s.hashed ⊆ next.hashed := by
  obtain ⟨t, holds, rep⟩ := inv.trie
  have keeps (h : Bytes) (has : s.db.has h) := insert_all_keeps (s.hashRoot x true).blobs s.db h has
  obtain ⟨hashed, cached, _, stored, blobs⟩ := root_ok true holds.shape rep _ keeps
    fun _ b member => insert_all_has (s.hashRoot x true).blobs s.db b member
  have grown : s.hashed ⊆ s.hashed ++ (s.hashRoot x true).blobs.map fun b => x.encodeNode b.2 := subset_append_left _ _
  refine ⟨x.rootHash t, ⟨(s.hashRoot x true).cached, _, _⟩, by rw [State.commit, State.rooted, hashed],
    ⟨⟨fun h r found => ?_, fun h b found => ?_⟩, grown inv.empty, ⟨t, holds, cached⟩, ?_⟩, grown⟩
  · rcases insert_all_dirties _ _ h r found with before | member
    · obtain ⟨u, normal, raw, digest, known⟩ := inv.ground.dirties h r before
      exact ⟨u, normal, raw, digest, grown known⟩
    · obtain ⟨u, normal, eq⟩ := blobs _ member
      obtain ⟨rfl, rfl⟩ := Prod.mk.inj eq
      exact ⟨u, normal, rfl, rfl, mem_append_right _ (mem_map.mpr ⟨_, member, rfl⟩)⟩
  · have before : s.db.disk h = some b := by
      rw [← insert_all_disk (s.hashRoot x true).blobs s.db]
      exact found
    obtain ⟨u, normal, raw, digest, known⟩ := inv.ground.disk h b before
    exact ⟨u, normal, raw, digest, grown known⟩
  · intro c member
    rcases mem_cons.mp member with rfl | older
    · exact ⟨t, holds, rfl, stored rfl⟩
    · have more : s.ground.Extends (s.after x true _) := ⟨keeps, fun b member => grown member⟩
      exact commits_mono more inv.commits c older

theorem flush_has (present : db.has j) : (db.flush x h).has j := by
  rw [Database.flush]
  cases found : db.dirties h with
  | none => exact present
  | some r =>
    by_cases same : j = h
    · exact .inr (by simp [same])
    · simpa [Database.has, same] using present

theorem flush_step (inv : Inv x s l) (h : Bytes) : Inv x { s with db := s.db.flush x h } l := by
  have more : s.ground.Extends ⟨s.db.flush x h, s.ground.known⟩ := ⟨fun j => flush_has s.db h j, fun _ member => member⟩
  obtain ⟨t, holds, rep⟩ := inv.trie
  refine ⟨⟨fun j r found => ?_, fun j b found => ?_⟩, inv.empty, ⟨t, holds, rep_mono more rep⟩, commits_mono more inv.commits⟩
  · simp only [State.ground, Database.flush] at found
    split at found
    next => exact inv.ground.dirties j r found
    next node memory =>
      by_cases same : j = h
      · simp [same] at found
      · have before : s.db.dirties j = some r := by simpa [same] using found
        exact inv.ground.dirties j r before
  · simp only [State.ground, Database.flush] at found
    split at found
    next => exact inv.ground.disk j b found
    next node memory =>
      by_cases same : j = h
      · obtain ⟨u, normal, rfl, digest, known⟩ := inv.ground.dirties h node memory
        have written : x.encodeNode (x.collapse u) = b := by simpa [same] using found
        exact ⟨u, normal, written.symm, same.trans digest, known⟩
      · have before : s.db.disk j = some b := by simpa [same] using found
        exact inv.ground.disk j b before

theorem encoding_ne_empty (lawful : x.Lawful) {t : Patricia} (normal : t.Normal) : x.encoding t ≠ x.encode .string [] := by
  intro same
  have list : ∃ content, x.encoding t = x.encode .list content := by
    cases normal <;> exact ⟨_, rfl⟩
  obtain ⟨content, eq⟩ := list
  have first := lawful.reads .list content []
  rw [← eq, same, lawful.reads] at first
  cases first

theorem new_step (lawful : x.Lawful) (inv : Inv x s l) (apart : x.NoCollision s.hashed) (root : Bytes)
    (allowed : root ∈ l.commits.map Prod.fst) :
    ∃ next, s.new x root = .ok (.done, next) ∧ Inv x next (l.next (.new root) .done) ∧ next.hashed = s.hashed := by
  obtain ⟨c, member, rfl⟩ := mem_map.mp allowed
  have some : (l.commits.find? fun d => d.1 = c.1).isSome = true := find?_isSome.mpr ⟨c, member, by simp⟩
  obtain ⟨d, found⟩ := Option.isSome_iff_exists.mp some
  have same : d.1 = c.1 := by simpa using find?_some found
  obtain ⟨t, holds, hash, stored⟩ := inv.commits d (mem_of_find?_eq_some found)
  have map : (l.next (.new c.1) .done).map = d.2 := by simp [Ledger.next, found]
  have reopened : s.new x c.1 = s.new x (x.rootHash t) := by rw [← same, hash]
  rw [reopened, State.new]
  rcases holds.shape with rfl | normal
  · refine ⟨{ s with root := .nil }, by simp [Codec.rootHash, Tree.isNil],
      ⟨inv.ground, inv.empty, ⟨.nil, map ▸ holds, .nil⟩, inv.commits⟩, rfl⟩
  · have present := Tree.normal_ne_nil normal
    obtain ⟨here, below⟩ := stored present
    have other : ¬ (x.digest t = zeroHash ∨ x.digest t = x.emptyRoot) := by
      rintro (zero | empty)
      · exact apart.some _ here.2 zero
      · exact encoding_ne_empty lawful normal (apart.apart here.2 inv.empty empty)
    obtain ⟨n, loaded, rep, _⟩ := resolve_rep lawful inv.ground apart.apart (.inl rfl) here below normal []
    have loaded : resolveHash x s.db (x.digest t) [] = .ok n := loaded
    rw [root_hash_normal normal, if_neg other, loaded]
    exact ⟨{ s with root := n }, rfl, ⟨inv.ground, inv.empty, ⟨t, map ▸ holds, rep⟩, inv.commits⟩, rfl⟩

theorem step_ok (lawful : x.Lawful) (inv : Inv x s l) (apart : x.NoCollision s.hashed) (call : Call) (allowed : l.Allows call) :
    ∃ answer next, s.step x call = .ok (answer, next) ∧ Inv x next (l.next call answer) ∧ s.hashed ⊆ next.hashed := by
  cases call with
  | tryGet key =>
    obtain ⟨next, done, kept, same⟩ := get_step lawful inv apart key
    exact ⟨_, next, done, kept, same ▸ List.Subset.refl _⟩
  | tryUpdate key value =>
    obtain ⟨next, done, kept, same⟩ := update_step lawful inv apart key value
    exact ⟨_, next, done, kept, same ▸ List.Subset.refl _⟩
  | tryDelete key =>
    obtain ⟨next, done, kept, same⟩ := delete_step lawful inv apart key
    exact ⟨_, next, done, kept, same ▸ List.Subset.refl _⟩
  | hash =>
    obtain ⟨t, next, _, done, kept, grown, _⟩ := hash_step inv
    exact ⟨_, next, done, kept, grown⟩
  | commit =>
    obtain ⟨h, next, done, kept, grown⟩ := commit_step inv
    exact ⟨_, next, done, kept, grown⟩
  | flush h => exact ⟨_, _, rfl, flush_step inv h, List.Subset.refl _⟩
  | new root =>
    obtain ⟨next, done, kept, same⟩ := new_step lawful inv apart root allowed
    exact ⟨_, next, done, kept, same ▸ List.Subset.refl _⟩

theorem no_collision_mono {few many : List Bytes} (apart : x.NoCollision many) (sub : few ⊆ many) : x.NoCollision few where
  apart := apart.apart.mono fun _ member => sub member
  some b member := apart.some b (sub member)

theorem step_hashed {call : Call} {answer : Answer} {next : State} (done : s.step x call = .ok (answer, next)) :
    s.hashed ⊆ next.hashed := by
  have kept {α : Type} {e : Except TrieError α} {f : α → Except TrieError (Answer × State)}
      (all : ∀ a, ∀ r, f a = .ok r → r.2.hashed = s.hashed) (result : e >>= f = .ok (answer, next)) : s.hashed ⊆ next.hashed := by
    cases e with
    | error err => cases result
    | ok a => exact (all a _ result) ▸ List.Subset.refl _
  have rooted (r : Hashed) (db : Database) (result : s.rooted x r db = .ok (answer, next)) : s.hashed ⊆ next.hashed := by
    rw [State.rooted] at result
    split at result
    next =>
      obtain ⟨_, rfl⟩ := Prod.mk.inj (ok.inj result)
      exact subset_append_left _ _
    next => cases result
  have deleted (key : Bytes) (result : s.tryDelete x key = .ok (answer, next)) : s.hashed ⊆ next.hashed :=
    kept (fun a r eq => by cases ok.inj eq; rfl) result
  cases call with
  | tryGet key => exact kept (fun a r eq => by cases ok.inj eq; dsimp only; split <;> rfl) done
  | tryUpdate key value =>
    simp only [State.step, State.tryUpdate] at done
    split at done
    next => exact deleted key done
    next => exact kept (fun a r eq => by cases ok.inj eq; rfl) done
  | tryDelete key => exact deleted key done
  | hash => exact rooted _ _ done
  | commit => exact rooted _ _ done
  | flush h =>
    obtain ⟨_, rfl⟩ := Prod.mk.inj (ok.inj done)
    exact List.Subset.refl _
  | new root =>
    simp only [State.step, State.new] at done
    split at done
    next =>
      obtain ⟨_, rfl⟩ := Prod.mk.inj (ok.inj done)
      exact List.Subset.refl _
    next => exact kept (fun a r eq => by cases ok.inj eq; rfl) done

theorem history_inv (lawful : x.Lawful) (history : History x s l) (apart : x.NoCollision s.hashed) : Inv x s l := by
  induction history with
  | start => exact inv_start
  | @call s next l call answer before allowed done ih =>
    have earlier := no_collision_mono apart (step_hashed done)
    obtain ⟨other, after, same, kept, _⟩ := step_ok lawful (ih earlier) earlier call allowed
    obtain ⟨rfl, rfl⟩ := Prod.mk.inj (ok.inj (same.symm.trans done))
    exact kept

end Steps

def State.strings (x : Codec) (s : State) : List Bytes := s.hashed ++ (s.hashRoot x false).blobs.map fun b => x.encodeNode b.2

theorem hash_strings {x : Codec} {s next : State} {h : Bytes} (done : s.hash x = .ok (.root h, next)) : next.hashed = s.strings x := by
  rw [State.hash, State.rooted] at done
  split at done
  next =>
    obtain ⟨_, rfl⟩ := Prod.mk.inj (ok.inj done)
    rfl
  next => cases done

theorem root_hash_injective {x : Codec} (lawful : x.Lawful) {strings : List Bytes} (apart : x.NoCollision strings) {t u : Patricia}
    (empty : x.encode .string [] ∈ strings) (left : t = .nil ∨ t.Normal) (right : u = .nil ∨ u.Normal)
    (first : t ≠ .nil → x.encoding t ∈ strings ∧ x.Below (fun w => x.encoding w ∈ strings) t)
    (second : u ≠ .nil → x.encoding u ∈ strings ∧ x.Below (fun w => x.encoding w ∈ strings) u)
    (same : x.rootHash t = x.rootHash u) : t = u := by
  have distinct (w : Patricia) (normal : w.Normal) (known : x.encoding w ∈ strings) : x.rootHash w ≠ x.emptyRoot := by
    rw [root_hash_normal normal]
    exact fun equal => encoding_ne_empty lawful normal (apart.apart known empty equal)
  rcases left with rfl | normal
  · rcases right with rfl | other
    · rfl
    · exact absurd same.symm (distinct u other (second (Tree.normal_ne_nil other)).1)
  · obtain ⟨here, below⟩ := first (Tree.normal_ne_nil normal)
    rcases right with rfl | other
    · exact absurd same (distinct t normal here)
    · obtain ⟨there, under⟩ := second (Tree.normal_ne_nil other)
      rw [root_hash_normal normal, root_hash_normal other] at same
      have encodings := apart.apart here there same
      exact expand_injective lawful apart.apart t u normal other below under (expand_of_encoding lawful normal other encodings none)

-- A trie is the map of its history, every call succeeds, and the root hash is a name of the map.
theorem trie_is_canonical_map {x : Codec} (lawful : x.Lawful) {s t : State} {l m : Ledger} (history : History x s l)
    (other : History x t m) (apart : x.NoCollision (s.strings x ++ t.strings x)) :
    (∀ key, ∃ next, s.step x (.tryGet key) = .ok (.value (l.map key), next) ∧ History x next l) ∧
      (∀ call, l.Allows call → ∃ answer next, s.step x call = .ok (answer, next)) ∧
      ∃ root next root' next', s.step x .hash = .ok (.root root, next) ∧ t.step x .hash = .ok (.root root', next') ∧
        (root = root' ↔ l.map = m.map) := by
  have mine := no_collision_mono apart (subset_append_left _ _)
  have yours := no_collision_mono apart (subset_append_right _ _)
  have before := no_collision_mono mine (subset_append_left s.hashed _)
  have inv := history_inv lawful history before
  have also := history_inv lawful other (no_collision_mono yours (subset_append_left t.hashed _))
  refine ⟨fun key => ?_, fun call allowed => ?_, ?_⟩
  · obtain ⟨next, done, _, _⟩ := get_step lawful inv before key
    have allowed : l.Allows (.tryGet key) := trivial
    exact ⟨next, done, .call history allowed done⟩
  · obtain ⟨answer, next, done, _, _⟩ := step_ok lawful inv before call allowed
    exact ⟨answer, next, done⟩
  · obtain ⟨u, next, holds, done, _, grown, known⟩ := hash_step inv
    obtain ⟨w, next', holds', done', _, _, known'⟩ := hash_step also
    refine ⟨_, next, _, next', done, done', fun same => ?_, fun same => ?_⟩
    · have left : next.hashed ⊆ s.strings x ++ t.strings x := hash_strings done ▸ subset_append_left _ _
      have right : next'.hashed ⊆ s.strings x ++ t.strings x := hash_strings done' ▸ subset_append_right _ _
      have equal := root_hash_injective lawful apart (left (grown inv.empty)) holds.shape holds'.shape
        (fun some => ⟨left (known some).1, below_mono (fun _ member => left member) u (known some).2⟩)
        (fun some => ⟨right (known' some).1, below_mono (fun _ member => right member) w (known' some).2⟩) same
      rw [equal] at holds
      exact holds_map holds holds'
    · rw [same] at holds
      rw [holds_unique holds holds']

-- A codec with a tag for the kind and the length in unary, and a hash that pads and cuts.
namespace Unary

def tag : Kind → UInt8
  | .string => 2
  | .list => 3

def kind (b : UInt8) : Option Kind := if b = 2 then some .string else if b = 3 then some .list else none

def split : Bytes → Option (Kind × Bytes × Bytes)
  | [] => none
  | b :: rest => match kind b, rest.dropWhile (· = 1) with
    | some k, 0 :: tail =>
      let size := (rest.takeWhile (· = 1)).length
      if size ≤ tail.length then some (k, tail.take size, tail.drop size) else none
    | _, _ => none

def codec : Codec where
  encode k content := tag k :: (replicate content.length 1 ++ 0 :: content)
  split := split
  keccak data := (data ++ replicate 32 7).take 32

theorem kind_tag (k : Kind) : kind (tag k) = some k := by
  cases k <;> rfl

theorem tag_kind (b : UInt8) (k : Kind) (found : kind b = some k) : b = tag k := by
  rw [kind] at found
  split_ifs at found with string list
  · rw [string, ← Option.some.inj found]
    rfl
  · rw [list, ← Option.some.inj found]
    rfl

theorem take_ones (n : Nat) (tail : Bytes) : (replicate n 1 ++ (0 : UInt8) :: tail).takeWhile (· = 1) = replicate n 1 := by
  induction n with
  | zero => rfl
  | succ n ih => simp

theorem drop_ones (n : Nat) (tail : Bytes) : (replicate n 1 ++ (0 : UInt8) :: tail).dropWhile (· = 1) = 0 :: tail := by
  induction n with
  | zero => rfl
  | succ n ih => simp

theorem ones_of_take (bytes : Bytes) : bytes.takeWhile (· = 1) = replicate (bytes.takeWhile (· = 1)).length 1 := by
  refine eq_replicate_iff.mpr ⟨rfl, fun b member => ?_⟩
  simpa using mem_takeWhile_imp member

theorem lawful : codec.Lawful where
  reads k content rest := by
    have whole : codec.encode k content ++ rest = tag k :: (replicate content.length 1 ++ 0 :: (content ++ rest)) := by simp [codec]
    have long : content.length ≤ (content ++ rest).length := by simp
    rw [whole]
    simp only [codec, split, kind_tag, drop_ones, take_ones, length_replicate, if_pos long, take_left, drop_left]
  canonical buf k content rest found := by
    cases buf with
    | nil => cases found
    | cons b tail =>
      simp only [codec, split] at found
      split at found
      next kind_ tail_ named dropped =>
        split at found
        next long =>
          obtain ⟨rfl, rfl, rfl⟩ : kind_ = k ∧ tail_.take _ = content ∧ tail_.drop _ = rest := by simpa using found
          have parts := takeWhile_append_dropWhile (p := (· = 1)) (l := tail)
          rw [dropped, ones_of_take] at parts
          rw [tag_kind b kind_ named]
          generalize (tail.takeWhile (· = 1)).length = size at parts long ⊢
          subst parts
          simp [codec, Nat.min_eq_left long]
        next => cases found
      next => cases found
  starts := by simp [codec]
  grows content := by
    simp only [codec, length_cons, length_append]
    omega
  size data := by simp [codec]

end Unary

def leaf : State := ⟨.short ([1, 2, 16] : List (Fin 17)) (.value [7]) newFlag, .new, [Unary.codec.encode .string []]⟩

def leafLedger : Ledger := Ledger.start.next (.tryUpdate [0x12] [7]) .done

theorem leaf_history : History Unary.codec leaf leafLedger :=
  .call .start trivial (by rfl)

def branched : State :=
  ⟨.short ([1] : List (Fin 17)) (.full (update (update (fun _ => .nil) 2 (.short ([16] : List (Fin 17)) (.value [7]) newFlag)) 3
    (.short ([4, 0, 16] : List (Fin 17)) (.value [8]) newFlag)) newFlag) newFlag, .new, [Unary.codec.encode .string []]⟩

theorem regrown_history :
    History Unary.codec leaf ((leafLedger.next (.tryUpdate [0x13, 0x40] [8]) .done).next (.tryDelete [0x13, 0x40]) .done) := by
  have added : leaf.step Unary.codec (.tryUpdate [0x13, 0x40] [8]) = .ok (.done, branched) := by rfl
  have removed : branched.step Unary.codec (.tryDelete [0x13, 0x40]) = .ok (.done, leaf) := by rfl
  exact .call (.call leaf_history trivial added) trivial removed

theorem trie_is_canonical_map_leaf :
    ∃ root next root' next', leaf.step Unary.codec .hash = .ok (.root root, next) ∧
      leaf.step Unary.codec .hash = .ok (.root root', next') ∧
      (root = root' ↔ leafLedger.map =
        ((leafLedger.next (.tryUpdate [0x13, 0x40] [8]) .done).next (.tryDelete [0x13, 0x40]) .done).map) := by
  have apart : ∀ a ∈ leaf.strings Unary.codec ++ leaf.strings Unary.codec, ∀ b ∈ leaf.strings Unary.codec ++ leaf.strings Unary.codec,
      Unary.codec.keccak a = Unary.codec.keccak b → a = b := by decide +kernel
  have some : ∀ b ∈ leaf.strings Unary.codec ++ leaf.strings Unary.codec, Unary.codec.keccak b ≠ zeroHash := by decide +kernel
  exact (trie_is_canonical_map Unary.lawful leaf_history regrown_history ⟨fun a one b two => apart a one b two, some⟩).2.2

end Didux.Trie
