import Didux.Trie.Digest

set_option autoImplicit false

namespace Didux.Trie

open Sport Radix Function List Tree Node

def Database.has (db : Database) (h : Bytes) : Prop := (db.dirties h).isSome = true ∨ (db.disk h).isSome = true

structure Ground where
  db : Database
  known : Set Bytes

structure Ground.Extends (g next : Ground) : Prop where
  nodes : ∀ h, g.db.has h → next.db.has h
  known : g.known ⊆ next.known

section Represent

variable (x : Codec) (g : Ground)

def Present (t : Patricia) : Prop := g.db.has (x.digest t) ∧ x.encoding t ∈ g.known

def Sized (force : Bool) (t : Patricia) : Prop := force = true ∨ x.Large t

structure FlagsOk (force : Bool) (t : Patricia) (flags : NodeFlag) : Prop where
  clean : flags.dirty = false → (Sized x force t → Present x g t) ∧ x.Below (Present x g) t
  cached : ∀ h, flags.hash = some h →
    h = x.digest t ∧ Sized x force t ∧ x.encoding t ∈ g.known ∧ x.Below (fun s => x.encoding s ∈ g.known) t

inductive Rep : Bool → Patricia → Node → Prop where
  | nil {force : Bool} : Rep force .nil .nil
  | value {force : Bool} {v : Value} : Rep force (.value v) (.value v.1)
  | short {force : Bool} {k : Hex} {t : Patricia} {n : Node} {flags : NodeFlag} (below : Rep false t n)
      (ok : FlagsOk x g force (.short k t) flags) : Rep force (.short k t) (.short k n flags)
  | full {force : Bool} {c : Fin 17 → Patricia} {d : Fin 17 → Node} {flags : NodeFlag} (below : ∀ i, Rep false (c i) (d i))
      (ok : FlagsOk x g force (.full c) flags) : Rep force (.full c) (.full d flags)
  | hash {force : Bool} {t : Patricia} (sized : Sized x force t) (present : Present x g t) (below : x.Below (Present x g) t)
      (normal : t.Normal) : Rep force t (.hash (x.digest t))

structure GroundOk : Prop where
  dirties : ∀ h r, g.db.dirties h = some r → ∃ t : Patricia, t.Normal ∧ r = x.collapse t ∧ h = x.digest t ∧ x.encoding t ∈ g.known
  disk : ∀ h b, g.db.disk h = some b → ∃ t : Patricia, t.Normal ∧ b = x.encoding t ∧ h = x.digest t ∧ x.encoding t ∈ g.known

end Represent

section Lemmas

variable {x : Codec} {g : Ground}

theorem flags_new (force : Bool) (t : Patricia) : FlagsOk x g force t newFlag := ⟨nofun, nofun⟩

theorem present_mono {next : Ground} (more : g.Extends next) (t : Patricia) (present : Present x g t) : Present x next t :=
  ⟨more.nodes _ present.1, more.known present.2⟩

variable {t : Patricia} {force : Bool}

theorem flags_mono {next : Ground} (more : g.Extends next) {flags : NodeFlag} (ok : FlagsOk x g force t flags) :
    FlagsOk x next force t flags where
  clean undirty := by
    obtain ⟨here, below⟩ := ok.clean undirty
    exact ⟨fun sized => present_mono more t (here sized), below_mono (present_mono more) t below⟩
  cached h eq := by
    obtain ⟨digest, sized, known, below⟩ := ok.cached h eq
    exact ⟨digest, sized, more.known known, below_mono (fun _ member => more.known member) t below⟩

variable {n : Node}

theorem rep_mono {next : Ground} (more : g.Extends next) (rep : Rep x g force t n) :
    Rep x next force t n := by
  induction rep with
  | nil => exact .nil
  | value => exact .value
  | short _ ok ih => exact .short ih (flags_mono more ok)
  | full _ ok ih => exact .full ih (flags_mono more ok)
  | hash sized present below normal => exact .hash sized (present_mono more _ present) (below_mono (present_mono more) _ below) normal

theorem rep_nil_iff (rep : Rep x g force t n) : n.isNil = t.isNil := by
  cases rep with
  | hash _ _ _ normal => cases normal <;> rfl
  | _ => rfl

theorem rep_attach (force : Bool) {k : Hex} (rep : Rep x g false t n) (root : k = [] → Rep x g force t n) :
    Rep x g force (Tree.attach k t) (Node.attach k n) := by
  rw [Tree.attach, Node.attach]
  split
  next empty => exact root empty
  next => exact .short rep (flags_new force _)

theorem rep_update {c : Fin 17 → Patricia} {d : Fin 17 → Node} (below : ∀ i, Rep x g false (c i) (d i)) (s : Fin 17)
    (rep : Rep x g false t n) (i : Fin 17) : Rep x g false (update c s t i) (update d s n i) := by
  by_cases here : i = s
  · subst here
    simpa using rep
  · simpa [here] using below i

variable {hash : Option Bytes}

theorem expand_flags (here : Sized x force t → Present x g t) (below : x.Below (Present x g) t)
    (named : ∀ h, hash = some h → h = x.digest t ∧ Sized x force t) :
    FlagsOk x g force t ⟨hash, false⟩ where
  clean _ := ⟨here, below⟩
  cached h eq := by
    obtain ⟨digest, sized⟩ := named h eq
    exact ⟨digest, sized, (here sized).2, below_mono (fun _ present => present.2) t below⟩

theorem rep_refer {i : Fin 17} (child : Tree.Child i t) (here : x.Large t → Present x g t) (below : x.Below (Present x g) t)
    (embedded : t.Normal → ¬ x.Large t → Rep x g false t (expandNode none (x.collapse t))) :
    Rep x g false t (expandNode none (x.refer (x.collapse t))) := by
  by_cases absent : t = .nil
  · subst absent
    exact .nil
  by_cases last : i = Fin.last 16
  · subst last
    obtain ⟨v, rfl⟩ := child_value child absent
    simpa [Codec.refer, Codec.collapse, Raw.isBranch, expandNode] using Rep.value
  have normal := child_normal child last absent
  by_cases large : x.Large t
  · rw [refer_large large]
    exact .hash (.inr large) (here large) below normal
  · rw [refer_small large]
    exact embedded normal large

theorem rep_expand (t : Patricia) (normal : t.Normal) (force : Bool) (hash : Option Bytes) (here : Sized x force t → Present x g t)
    (below : x.Below (Present x g) t) (named : ∀ h, hash = some h → h = x.digest t ∧ Sized x force t) :
    Rep x g force t (expandNode hash (x.collapse t)) := by
  have ok := expand_flags here below named
  induction t generalizing force hash with
  | nil => cases normal
  | value => cases normal
  | short k t ih =>
    rw [Codec.collapse, expandNode]
    cases normal with
    | leaf key =>
      rw [(compact_terminated key).1]
      exact .short (by simpa [Codec.refer, Codec.collapse, Raw.isBranch, expandNode] using Rep.value) ok
    | @extension _ c _ plain normal =>
      rw [(compact_plain plain).1]
      have zero : (0 : Fin 17) ≠ Fin.last 16 := by decide
      refine .short (rep_refer (normal_child zero normal) below.1 below.2 fun normal small => ?_) ok
      have absent : Sized x false (.full c) → Present x g (.full c) := fun sized => absurd (sized.resolve_left (by simp)) small
      exact ih normal false none absent below.2 (by simp) (expand_flags absent below.2 (by simp))
  | full c ih =>
    have children := ((normal_full_iff c).mp normal).1
    refine .full (fun i => rep_refer (children i) (below i).1 (below i).2 fun normal small => ?_) ok
    have absent : Sized x false (c i) → Present x g (c i) := fun sized => absurd (sized.resolve_left (by simp)) small
    exact ih i normal false none absent (below i).2 (by simp) (expand_flags absent (below i).2 (by simp))

theorem resolve_digest (lawful : x.Lawful) (ok : GroundOk x g) (apart : Set.InjOn x.keccak g.known) (normal : t.Normal)
    (present : Present x g t) (path : Hex) :
    resolveHash x g.db (x.digest t) path = .ok (expandNode (some (x.digest t)) (x.collapse t)) := by
  obtain ⟨there, known⟩ := present
  have found (u : Patricia) (other : u.Normal) (digest : x.digest t = x.digest u) (also : x.encoding u ∈ g.known) :
      expandNode (some (x.digest t)) (x.collapse u) = expandNode (some (x.digest t)) (x.collapse t) :=
    expand_of_encoding lawful other normal (apart also known digest.symm) _
  rw [resolveHash, Database.node]
  cases memory : g.db.dirties (x.digest t) with
  | some r =>
    obtain ⟨u, other, rfl, digest, also⟩ := ok.dirties _ _ memory
    simp only [found u other digest also]
  | none =>
    cases disk : g.db.disk (x.digest t) with
    | none => simp [Database.has, memory, disk] at there
    | some b =>
      obtain ⟨u, other, rfl, digest, also⟩ := ok.disk _ _ disk
      simp only [Option.map_some, decode_encoding lawful u other _ _ (Nat.lt_succ_self _), found u other digest also]

theorem short_key_ne_nil {k : Hex} (normal : (short k t).Normal) : k ≠ [] := by
  cases normal with
  | leaf key => exact key_ne_nil key
  | extension some _ _ => exact some

def Node.steps : Node → Nat
  | .hash _ => 1
  | _ => 0

theorem steps_le (n : Node) : n.steps ≤ 1 := by
  cases n <;> simp [steps]

theorem steps_expand (normal : t.Normal) : (expandNode hash (x.collapse t)).steps = 0 := by
  cases normal <;> rfl

section Walk

variable (lawful : x.Lawful) (ok : GroundOk x g) (apart : Set.InjOn x.keccak g.known)

include lawful ok apart

theorem resolve_rep {force : Bool} {t : Patricia} (sized : Sized x force t) (present : Present x g t) (below : x.Below (Present x g) t)
    (normal : t.Normal) (path : Hex) : ∃ n, resolveHash x g.db (x.digest t) path = .ok n ∧ Rep x g force t n ∧ n.steps = 0 := by
  refine ⟨_, resolve_digest lawful ok apart normal present path, ?_, steps_expand normal⟩
  exact rep_expand t normal force _ (fun _ => present) below fun h eq => ⟨(Option.some.inj eq).symm, sized⟩

variable (fuel : Nat)

theorem try_get_rep (force : Bool) (t : Patricia) (n : Node) (path key : Hex) (rep : Rep x g force t n)
    (full : key = [] ∨ Terminated key) (fits : t.Fits key) (enough : 2 * key.length + n.steps < fuel) :
    ∃ found didResolve, n.tryGet x g.db fuel path key = .ok ((t.get key).map (·.1), found, didResolve) ∧ Rep x g force t found := by
  induction fuel generalizing force t n path key with
  | zero => omega
  | succ fuel ih =>
    cases rep with
    | nil => exact ⟨.nil, false, rfl, .nil⟩
    | value => exact ⟨.value _, false, rfl, .value⟩
    | @short _ k t n flags below flagged =>
      have whole : Rep x g force (.short k t) (.short k n flags) := .short below flagged
      by_cases inside : k <+: key
      · obtain ⟨rest, rfl⟩ := inside
        obtain ⟨full, normal⟩ := short_key full fits
        have some := length_pos_of_ne_nil (short_key_ne_nil normal)
        obtain ⟨tail, under, _⟩ := short_rests normal full
        have bound := steps_le n
        rw [length_append] at enough
        obtain ⟨found, didResolve, got, kept⟩ := ih false t n (path ++ k) rest below tail under (by omega)
        refine ⟨if didResolve then .short k found flags else .short k n flags, didResolve, ?_, ?_⟩
        · rw [tryGet, get_short_append]
          simp only [prefix_append, drop_left, got]
          rfl
        · cases didResolve with
          | true => exact .short kept flagged
          | false => exact whole
      · refine ⟨.short k n flags, false, ?_, whole⟩
        rw [tryGet, get_short_outside k key t inside]
        simp only [if_neg inside]
        rfl
    | @full _ c d flags below flagged =>
      have whole : Rep x g force (.full c) (.full d flags) := .full below flagged
      obtain ⟨s, rest, rfl, -, -, tail, under⟩ := full_key full fits
      have bound := steps_le (d s)
      rw [length_cons] at enough
      obtain ⟨found, didResolve, got, kept⟩ := ih false (c s) (d s) (path ++ [s]) rest (below s) tail under (by omega)
      refine ⟨if didResolve then .full (update d s found) flags else .full d flags, didResolve, ?_, ?_⟩
      · rw [tryGet]
        simp only [got]
        rfl
      · cases didResolve with
        | true =>
          have same : c = update c s (c s) := by simp
          refine .full (fun i => ?_) flagged
          rw [same]
          exact rep_update below s kept i
        | false => exact whole
    | hash sized present below normal =>
      obtain ⟨child, loaded, rep, quiet⟩ := resolve_rep lawful ok apart sized present below normal path
      rw [steps] at enough
      obtain ⟨found, _, got, kept⟩ := ih force t child path key rep full fits (by omega)
      refine ⟨found, true, ?_, kept⟩
      rw [tryGet]
      simp only [loaded, bind, Except.bind, got]
      rfl

omit lawful ok apart in
theorem rep_fork (force : Bool) (a b : Fin 17) {s t : Patricia} {m n : Node} (first : Rep x g false s m) (second : Rep x g false t n) :
    Rep x g force (fork a s b t) (.full (update (update (fun _ => .nil) a m) b n) newFlag) :=
  .full (rep_update (rep_update (fun _ => .nil) a first) b second) (flags_new force _)

omit lawful ok apart in
theorem insert_parted_node {fuel : Nat} {db : Database} {path p u w : Hex} {a b : Fin 17} {n : Node} {flags : NodeFlag} {v : Bytes}
    (different : a ≠ b) : (short (p ++ a :: u) n flags).insert x db (fuel + 1) path (p ++ b :: w) v =
      .ok (true, attach p
        (.full (update (update (fun _ => .nil) a (Node.attach u n)) b (Node.attach w (.value v))) newFlag)) := by
  have length := prefix_len_parted p w u b a (Ne.symm different)
  have short : ¬ p.length = (p ++ a :: u).length := by simp
  rw [Node.insert, if_neg (by simp)]
  simp only [length, if_neg short, drop_left, take_left]

theorem insert_rep (force : Bool) (t : Patricia) (n : Node) (path key : Hex) (v : Value) (rep : Rep x g force t n)
    (full : key = [] ∨ Terminated key) (fits : t.Fits key) (enough : 2 * key.length + n.steps < fuel) :
    ∃ dirty found, n.insert x g.db fuel path key v.1 = .ok (dirty, found) ∧ Rep x g force (t.insert key v) found ∧
      (dirty = false → t.insert key v = t) := by
  induction fuel generalizing force t n path key with
  | zero => omega
  | succ fuel ih =>
    rcases full with rfl | full
    · rcases fits_end fits with rfl | ⟨w, rfl⟩
      · cases rep with
        | nil => exact ⟨true, .value v.1, rfl, .value, (by simp)⟩
        | hash _ _ _ normal => cases normal
      · cases rep with
        | value =>
          refine ⟨decide (w.1 ≠ v.1), .value v.1, rfl, .value, fun same => ?_⟩
          have equal : w.1 = v.1 := by simpa using same
          rw [Subtype.ext equal]
          rfl
        | hash _ _ _ normal => cases normal
    have some := key_ne_nil full
    cases rep with
    | nil => exact ⟨true, .short key (.value v.1) newFlag, by rw [Node.insert, if_neg some],
        by simpa [Tree.insert, Tree.attach, some] using Rep.short Rep.value (flags_new force _),
        (by simp)⟩
    | value => exact absurd (fits_more some fits (by simp)) (by rintro ⟨⟩)
    | @short _ k t n flags below flagged =>
      have whole : Rep x g force (.short k t) (.short k n flags) := .short below flagged
      have normal := fits_more some fits (by simp)
      rcases insert_cases normal full with ⟨rest, rfl⟩ | ⟨p, a, u, b, w, different, rfl, rfl⟩
      · have positive := length_pos_of_ne_nil (short_key_ne_nil normal)
        obtain ⟨tail, under, _⟩ := short_rests normal full
        have bound := steps_le n
        rw [length_append] at enough
        obtain ⟨dirty, found, done, kept, same⟩ := ih false t n (path ++ k) rest below tail under (by omega)
        have length : prefixLen (k ++ rest) k = k.length := (prefix_len_eq_iff _ _).mpr (prefix_append k rest)
        refine ⟨dirty, if dirty then .short k found newFlag else .short k n flags, ?_, ?_, fun unchanged => ?_⟩
        · rw [Node.insert, if_neg some]
          simp only [length, take_left, drop_left, done]
          cases dirty <;> rfl
        · rw [insert_inside]
          cases dirty with
          | true => exact .short kept (flags_new force _)
          | false =>
            rw [same rfl]
            exact whole
        · rw [insert_inside, same unchanged]
      · refine ⟨true, _, insert_parted_node different, ?_, (by simp)⟩
        rw [insert_parted p u w a b t v different]
        have children (force : Bool) := rep_fork force a b (rep_attach (k := u) false below fun _ => below)
          (rep_attach (k := w) false (Rep.value (v := v)) fun _ => .value)
        exact rep_attach force (children false) fun _ => children force
    | @full _ c d flags below flagged =>
      have whole : Rep x g force (.full c) (.full d flags) := .full below flagged
      obtain ⟨s, rest, rfl, -, -, tail, under⟩ := full_key (.inr full) fits
      have bound := steps_le (d s)
      rw [length_cons] at enough
      obtain ⟨dirty, found, done, kept, same⟩ := ih false (c s) (d s) (path ++ [s]) rest (below s) tail under (by omega)
      refine ⟨dirty, if dirty then .full (update d s found) newFlag else .full d flags, ?_, ?_, fun unchanged => ?_⟩
      · rw [Node.insert]
        simp only [done]
        cases dirty <;> rfl
      · rw [Tree.insert]
        cases dirty with
        | true => exact .full (rep_update below s kept) (flags_new force _)
        | false =>
          rw [same rfl, update_eq_self]
          exact whole
      · rw [Tree.insert, same unchanged, update_eq_self]
    | hash sized present below normal =>
      obtain ⟨child, loaded, rep, quiet⟩ := resolve_rep lawful ok apart sized present below normal path
      rw [steps] at enough
      obtain ⟨dirty, found, done, kept, same⟩ := ih force t child path key rep (.inr full) fits (by omega)
      refine ⟨dirty, if dirty then found else child, ?_, ?_, same⟩
      · rw [Node.insert, if_neg some]
        simp only [loaded, bind, Except.bind, done]
        cases dirty <;> rfl
      · cases dirty with
        | true => exact kept
        | false =>
          rw [same rfl]
          exact rep

omit lawful ok apart in
theorem only_rep {c : Fin 17 → Patricia} {d : Fin 17 → Node} (below : ∀ i, Rep x g false (c i) (d i)) : Node.only d = Tree.only c := by
  have same : (fun i => !(d i).isNil) = fun i => !(c i).isNil := by
    funext i
    rw [rep_nil_iff (below i)]
  rw [Node.only, Tree.only, same]

omit lawful ok apart in
theorem merge_rep (force : Bool) (k : Hex) {t : Patricia} {n : Node} (rep : Rep x g false t n) (loaded : n.steps = 0) :
    Rep x g force (merge k t) (n.merge k) := by
  cases rep with
  | nil => exact .short .nil (flags_new force _)
  | value => exact .short .value (flags_new force _)
  | short below _ => exact .short below (flags_new force _)
  | full below flagged => exact .short (.full below flagged) (flags_new force _)
  | hash => simp [steps] at loaded

omit lawful ok apart in
theorem merge_steps (k : Hex) (n : Node) : (n.merge k).steps = 0 := by
  cases n <;> rfl

theorem resolve_merge (force : Bool) {i : Fin 17} {t : Patricia} {n : Node} (rep : Rep x g false t n) (path : Hex) :
    ∃ cnode, n.resolve x g.db path = .ok cnode ∧
      Rep x g force (merge [i] t) (match cnode with | .short k val _ => .short (i :: k) val newFlag | _ => .short [i] n newFlag) := by
  cases rep with
  | nil => exact ⟨.nil, rfl, .short .nil (flags_new force _)⟩
  | value => exact ⟨_, rfl, .short .value (flags_new force _)⟩
  | short below flagged => exact ⟨_, rfl, .short below (flags_new force _)⟩
  | full below flagged => exact ⟨_, rfl, .short (.full below flagged) (flags_new force _)⟩
  | hash sized present below normal =>
    obtain ⟨child, loaded, rep, quiet⟩ := resolve_rep lawful ok apart sized present below normal path
    refine ⟨child, loaded, ?_⟩
    cases rep with
    | nil => cases normal
    | value => cases normal
    | short under _ => exact .short under (flags_new force _)
    | full => exact .short (.hash sized present below normal) (flags_new force _)
    | hash => simp [steps] at quiet

theorem reduce_rep (force : Bool) {c : Fin 17 → Patricia} {d : Fin 17 → Node} (below : ∀ i, Rep x g false (c i) (d i))
    (children : ∀ i, Tree.Child i (c i)) (path : Hex) :
    ∃ found, Node.reduce x g.db d path = .ok found ∧ Rep x g force (Tree.reduce c) found ∧ found.steps = 0 := by
  rw [Node.reduce, Tree.reduce, only_rep below]
  cases single : only c with
  | none => exact ⟨.full d newFlag, rfl, .full below (flags_new force _), rfl⟩
  | some pos =>
    by_cases last : pos = Fin.last 16
    · subst last
      obtain ⟨v, value⟩ := child_value (children _) (only_some single).1
      have rep := below (Fin.last 16)
      refine ⟨.short [Fin.last 16] (d (Fin.last 16)) newFlag, rfl, ?_, rfl⟩
      rw [value] at rep
      simp only [value]
      exact .short rep (flags_new force _)
    · have there : pos ≠ 16 := last
      obtain ⟨cnode, resolved, rep⟩ := resolve_merge lawful ok apart force (i := pos) (below pos) path
      refine ⟨_, ?_, rep, ?_⟩
      · simp only [if_neg there, resolved]
        cases cnode <;> rfl
      · cases cnode <;> rfl

theorem delete_rep (force : Bool) (t : Patricia) (n : Node) (path key : Hex) (rep : Rep x g force t n)
    (full : key = [] ∨ Terminated key) (fits : t.Fits key) (enough : 2 * key.length + n.steps < fuel) :
    ∃ dirty found, n.delete x g.db fuel path key = .ok (dirty, found) ∧ Rep x g force (t.delete key) found ∧
      (dirty = false → t.delete key = t) ∧ (dirty = true → found.steps = 0) := by
  induction fuel generalizing force t n path key with
  | zero => omega
  | succ fuel ih =>
    cases rep with
    | nil => exact ⟨false, .nil, rfl, .nil, fun _ => rfl, nofun⟩
    | value => exact ⟨true, .nil, rfl, .nil, nofun, fun _ => rfl⟩
    | @short _ k t n flags below flagged =>
      have whole : Rep x g force (.short k t) (.short k n flags) := .short below flagged
      by_cases inside : k <+: key
      · obtain ⟨rest, rfl⟩ := inside
        obtain ⟨full, normal⟩ := short_key full fits
        have length : prefixLen (k ++ rest) k = k.length := (prefix_len_eq_iff _ _).mpr (prefix_append k rest)
        have reached : ¬ k.length < k.length := Nat.lt_irrefl _
        by_cases ended : rest = []
        · refine ⟨true, .nil, ?_, ?_, nofun, fun _ => rfl⟩
          · rw [ended, append_nil] at length ⊢
            rw [Node.delete]
            simp [length]
          · simpa [Tree.delete, ended] using Rep.nil
        · have positive := length_pos_of_ne_nil (short_key_ne_nil normal)
          have more : ¬ k.length = (k ++ rest).length := by simp [ended]
          obtain ⟨tail, under, stops⟩ := short_rests normal full
          have bound := steps_le n
          rw [length_append] at enough
          obtain ⟨dirty, found, done, kept, same, loaded⟩ := ih false t n (path ++ k) rest below tail under (by omega)
          rw [delete_inside ended]
          have unmerged : merge k t = .short k t := by
            cases normal with
            | leaf => rfl
            | extension => rfl
          refine ⟨dirty, if dirty then found.merge k else .short k n flags, ?_, ?_, fun unchanged => ?_, fun changed => ?_⟩
          · rw [Node.delete]
            simp only [length, if_neg reached, if_neg more, take_left, drop_left, done]
            cases dirty <;> rfl
          · cases dirty with
            | true => exact merge_rep force k kept (loaded rfl)
            | false =>
              rw [same rfl, unmerged]
              exact whole
          · rw [same unchanged, unmerged]
          · rw [if_pos changed]
            exact merge_steps k found
      · have shorter : prefixLen key k < k.length :=
          lt_of_le_of_ne (prefix_len_le key k) fun equal => inside ((prefix_len_eq_iff key k).mp equal)
        have same : (Tree.short k t).delete key = .short k t := by simp [Tree.delete, inside]
        refine ⟨false, .short k n flags, ?_, same.symm ▸ whole, fun _ => same, nofun⟩
        rw [Node.delete]
        simp only [if_pos shorter]
    | @full _ c d flags below flagged =>
      have whole : Rep x g force (.full c) (.full d flags) := .full below flagged
      obtain ⟨s, rest, rfl, full, normal, tail, under⟩ := full_key full fits
      have children := ((normal_full_iff c).mp normal).1
      have bound := steps_le (d s)
      rw [length_cons] at enough
      obtain ⟨dirty, found, done, kept, same, _⟩ := ih false (c s) (d s) (path ++ [s]) rest (below s) tail under (by omega)
      have fitted := (fits_iff_child full _).mp (delete_fits (c s) rest tail under)
      obtain ⟨reduced, fine, rep, quiet⟩ :=
        reduce_rep lawful ok apart force (rep_update below s kept) (child_update children fitted) path
      refine ⟨dirty, if dirty then reduced else .full d flags, ?_, ?_, fun unchanged => ?_, fun changed => ?_⟩
      · rw [Node.delete]
        simp only [done, bind, Except.bind]
        cases dirty with
        | true =>
          simp only [fine]
          rfl
        | false => rfl
      · rw [Tree.delete]
        cases dirty with
        | true => exact rep
        | false =>
          rw [same rfl, update_eq_self, reduce_full normal]
          exact whole
      · rw [Tree.delete, same unchanged, update_eq_self, Tree.reduce_full normal]
      · rw [if_pos changed]
        exact quiet
    | hash sized present below normal =>
      obtain ⟨child, loaded, rep, quiet⟩ := resolve_rep lawful ok apart sized present below normal path
      rw [steps] at enough
      obtain ⟨dirty, found, done, kept, same, still⟩ := ih force t child path key rep full fits (by omega)
      refine ⟨dirty, if dirty then found else child, ?_, ?_, same, fun changed => ?_⟩
      · rw [Node.delete]
        simp only [loaded, bind, Except.bind, done]
        cases dirty <;> rfl
      · cases dirty with
        | true => exact kept
        | false =>
          rw [same rfl]
          exact rep
      · rw [if_pos changed]
        exact still changed

end Walk

end Lemmas

end Didux.Trie
