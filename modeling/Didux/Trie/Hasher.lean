import Didux.Trie.Refine

set_option autoImplicit false

namespace Didux.Trie

open Sport Radix

section Hasher

variable (x : Codec) (next : Ground)

def stands (force : Bool) (r : Raw) : Raw := if force = true then .hash (x.keccak (x.encodeNode r)) else x.refer r

def Taken (commit : Bool) (blobs : List (Bytes × Raw)) : Prop :=
  ∀ b ∈ blobs, x.encodeNode b.2 ∈ next.known ∧ (commit = true → next.db.has b.1)

structure HashedOk (commit force : Bool) (t : Patricia) (r : Hashed) : Prop where
  hashed : r.hashed = stands x force (x.collapse t)
  cached : Rep x next force t r.cached
  known : (Sized x force t → x.encoding t ∈ next.known) ∧ x.Below (fun s => x.encoding s ∈ next.known) t
  stored : commit = true → (Sized x force t → Present x next t) ∧ x.Below (Present x next) t
  blobs : ∀ b ∈ r.blobs, ∃ u : Patricia, u.Normal ∧ b = (x.digest u, x.collapse u)

end Hasher

section Lemmas

variable {x : Codec} {g next : Ground} {commit force : Bool}

theorem taken_left {first second : List (Bytes × Raw)} (taken : Taken x next commit (first ++ second)) : Taken x next commit first :=
  fun b member => taken b (List.mem_append_left second member)

theorem taken_right {first second : List (Bytes × Raw)} (taken : Taken x next commit (first ++ second)) : Taken x next commit second :=
  fun b member => taken b (List.mem_append_right first member)

variable {t : Patricia}

theorem stands_sized (sized : Sized x force t) : stands x force (x.collapse t) = .hash (x.digest t) := by
  rw [stands]
  split
  next => rfl
  next other => exact refer_large (sized.resolve_left other)

theorem stands_small (small : ¬ Sized x force t) : stands x force (x.collapse t) = x.collapse t := by
  have unforced : ¬ force = true := fun forced => small (.inl forced)
  rw [stands, if_neg unforced]
  exact refer_small fun large => small (.inr large)

theorem store_collapse (force : Bool) (normal : t.Normal) (cached : Option Bytes) (named : ∀ h, cached = some h → h = x.digest t) :
    (store x cached force (x.collapse t)).1 = stands x force (x.collapse t) ∧
      (Sized x force t → (store x cached force (x.collapse t)).2 = [(x.digest t, x.collapse t)]) ∧
      (¬ Sized x force t → (store x cached force (x.collapse t)).2 = []) := by
  have branch := branch_of_normal x normal
  have hash : cached.getD (x.keccak (x.encodeNode (x.collapse t))) = x.digest t := by
    cases cached with
    | none => rfl
    | some h => exact named h rfl
  have shape : store x cached force (x.collapse t) =
      if (x.encodeNode (x.collapse t)).length < 32 ∧ force = false then (x.collapse t, [])
      else (.hash (x.digest t), [(x.digest t, x.collapse t)]) := by
    rw [← hash]
    cases normal <;> rfl
  have size : (x.encodeNode (x.collapse t)).length < 32 ∧ force = false ↔ ¬ Sized x force t := by
    simp [Sized, Codec.Large, branch, Codec.encoding, and_comm]
  rw [shape]
  by_cases sized : Sized x force t
  · rw [if_neg (fun small => size.mp small sized), stands_sized sized]
    exact ⟨rfl, fun _ => rfl, fun small => absurd sized small⟩
  · rw [if_pos (size.mpr sized), stands_small sized]
    exact ⟨rfl, fun large => absurd large sized, fun _ => rfl⟩

variable {flags : NodeFlag}

theorem stored_ok (normal : t.Normal) (more : g.Extends next) (ok : FlagsOk x g force t flags)
    (known : x.Below (fun s => x.encoding s ∈ next.known) t) (present : commit = true → x.Below (Present x next) t)
    (taken : Taken x next commit (store x flags.hash force (x.collapse t)).2) :
    FlagsOk x next force t ⟨(store x flags.hash force (x.collapse t)).1.hash?, flags.dirty && !commit⟩ ∧
      (Sized x force t → x.encoding t ∈ next.known) ∧ (commit = true → Sized x force t → Present x next t) ∧
      ∀ b ∈ (store x flags.hash force (x.collapse t)).2, ∃ u : Patricia, u.Normal ∧ b = (x.digest u, x.collapse u) := by
  obtain ⟨hashed, large, small⟩ := store_collapse force normal flags.hash fun h eq => (ok.cached h eq).1
  have here (sized : Sized x force t) : x.encoding t ∈ next.known ∧ (commit = true → next.db.has (x.digest t)) :=
    taken (x.digest t, x.collapse t) (by rw [large sized]; simp)
  refine ⟨⟨fun clean => ?_, fun h eq => ?_⟩, fun sized => (here sized).1,
    fun committed sized => ⟨(here sized).2 committed, (here sized).1⟩, fun b member => ?_⟩
  · by_cases committed : commit = true
    · exact ⟨fun sized => ⟨(here sized).2 committed, (here sized).1⟩, present committed⟩
    · have undirty : flags.dirty = false := by simpa [committed] using clean
      exact (flags_mono more ok).clean undirty
  · rw [hashed] at eq
    by_cases sized : Sized x force t
    · rw [stands_sized sized] at eq
      exact ⟨(Option.some.inj eq).symm, sized, (here sized).1, known⟩
    · rw [stands_small sized] at eq
      cases normal <;> cases eq
  · by_cases sized : Sized x force t
    · rw [large sized, List.mem_singleton] at member
      exact ⟨t, normal, member⟩
    · simp [small sized] at member

theorem cached_ok {n : Node} (normal : t.Normal) (more : g.Extends next) (rep : Rep x g force t n) (ok : FlagsOk x g force t flags)
    (walk : Hashed) (walked : Taken x next commit walk.blobs → HashedOk x next commit force t walk)
    (taken : Taken x next commit (cachedHash commit n flags walk).blobs) :
    HashedOk x next commit force t (cachedHash commit n flags walk) := by
  rw [cachedHash] at taken ⊢
  have later := flags_mono more ok
  split at taken
  next => exact walked taken
  next h named =>
    obtain ⟨rfl, sized, known, below⟩ := later.cached h named
    by_cases hashing : commit = false
    · simp only [if_pos hashing]
      exact ⟨(stands_sized sized).symm, rep_mono more rep, ⟨fun _ => known, below⟩,
        fun committed => by simp [hashing] at committed, nofun⟩
    · simp only [if_neg hashing] at taken ⊢
      by_cases clean : flags.dirty = false
      · simp only [if_pos clean]
        obtain ⟨here, under⟩ := later.clean clean
        exact ⟨(stands_sized sized).symm, .hash sized (here sized) under normal, ⟨fun _ => known, below⟩, fun _ => ⟨here, under⟩, nofun⟩
      · simp only [if_neg clean] at taken ⊢
        exact walked taken

theorem as_were_ok {n : Node} (rep : Rep x next false t n) (leaf : t = .nil ∨ ∃ v, t = .value v) :
    HashedOk x next commit false t (asWere n) := by
  have small : ¬ Sized x false t := by
    rcases leaf with rfl | ⟨v, rfl⟩ <;> simp [Sized, Codec.Large, Codec.collapse, Raw.isBranch]
  have absent {P : Prop} (sized : Sized x false t) : P := absurd sized small
  rcases leaf with rfl | ⟨v, rfl⟩
  · cases rep with
    | nil => exact ⟨rfl, .nil, ⟨absent, trivial⟩, fun _ => ⟨absent, trivial⟩, by simp [asWere]⟩
    | hash _ _ _ normal => cases normal
  · cases rep with
    | value => exact ⟨rfl, .value, ⟨absent, trivial⟩, fun _ => ⟨absent, trivial⟩, by simp [asWere]⟩
    | hash _ _ _ normal => cases normal

theorem below_short {P : Patricia → Prop} {k : Hex} (child : (Sized x false t → P t) ∧ x.Below P t) :
    x.Below P (.short k t) := ⟨fun large => child.1 (.inr large), child.2⟩

variable {c : Fin 17 → Patricia}

theorem below_full {P : Patricia → Prop} (children : ∀ i, (Sized x false (c i) → P (c i)) ∧ x.Below P (c i)) :
    x.Below P (.full c) := fun i => ⟨fun large => (children i).1 (.inr large), (children i).2⟩

theorem hash_short_ok {k : Hex} {child : Hashed} (normal : (Tree.short k t).Normal) (more : g.Extends next)
    (ok : FlagsOk x g force (.short k t) flags) (taken : Taken x next commit (hashShort x commit force k child flags).blobs)
    (below : HashedOk x next commit false t child) :
    HashedOk x next commit force (.short k t) (hashShort x commit force k child flags) := by
  have raw : Raw.short (hexToCompact k) child.hashed = x.collapse (.short k t) := by
    rw [below.hashed]
    rfl
  rw [hashShort, raw] at taken ⊢
  have known : x.Below (fun s => x.encoding s ∈ next.known) (.short k t) := below_short below.known
  have present (committed : commit = true) : x.Below (Present x next) (.short k t) := below_short (below.stored committed)
  obtain ⟨flagged, here, there, blobs⟩ := stored_ok normal more ok known present (taken_right taken)
  refine ⟨(store_collapse force normal flags.hash fun h eq => (ok.cached h eq).1).1, .short below.cached flagged, ⟨here, known⟩,
    fun committed => ⟨there committed, present committed⟩, fun b member => ?_⟩
  rcases List.mem_append.mp member with inner | own
  · exact below.blobs b inner
  · exact blobs b own

theorem hash_full_ok {children : Fin 17 → Hashed} (normal : (Tree.full c).Normal) (more : g.Extends next)
    (ok : FlagsOk x g force (.full c) flags) (taken : Taken x next commit (hashFull x commit force children flags).blobs)
    (below : ∀ i, HashedOk x next commit false (c i) (children i)) :
    HashedOk x next commit force (.full c) (hashFull x commit force children flags) := by
  have raw : Raw.full (fun i => (children i).hashed) = x.collapse (.full c) := by
    congr 1
    funext i
    rw [(below i).hashed]
    rfl
  rw [hashFull, raw] at taken ⊢
  have known : x.Below (fun s => x.encoding s ∈ next.known) (.full c) := below_full fun i => (below i).known
  have present (committed : commit = true) : x.Below (Present x next) (.full c) := below_full fun i => (below i).stored committed
  obtain ⟨flagged, here, there, blobs⟩ := stored_ok normal more ok known present (taken_right taken)
  refine ⟨(store_collapse force normal flags.hash fun h eq => (ok.cached h eq).1).1, .full (fun i => (below i).cached) flagged,
    ⟨here, known⟩,
    fun committed => ⟨there committed, present committed⟩, fun b member => ?_⟩
  rcases List.mem_append.mp member with inner | own
  · obtain ⟨i, _, member⟩ := List.mem_flatMap.mp inner
    exact (below i).blobs b member
  · exact blobs b own

theorem short_child {k : Hex} {n : Node} (normal : (Tree.short k t).Normal) (rep : Rep x g false t n) :
    (n.isValue = true → t = .nil ∨ ∃ v, t = .value v) ∧ (¬ n.isValue = true → t.Normal) := by
  cases normal with
  | leaf =>
    refine ⟨fun _ => .inr ⟨_, rfl⟩, fun other => absurd ?_ other⟩
    cases rep with
    | value => rfl
    | hash _ _ _ normal => cases normal
  | extension _ _ normal =>
    refine ⟨fun value => absurd value ?_, fun _ => normal⟩
    cases rep <;> simp [Node.isValue]

theorem full_child {i : Fin 17} {n : Node} (normal : (Tree.full c).Normal) (rep : Rep x g false (c i) n) :
    (i = 16 ∨ n.isNil = true → c i = .nil ∨ ∃ v, c i = .value v) ∧ (¬ (i = 16 ∨ n.isNil = true) → (c i).Normal) := by
  have child := ((Tree.normal_full_iff c).mp normal).1 i
  rw [rep_nil_iff rep, Tree.is_nil_iff]
  by_cases absent : c i = .nil
  · exact ⟨fun _ => .inl absent, fun other => absurd (.inr absent) other⟩
  by_cases last : i = Fin.last 16
  · refine ⟨fun _ => .inr ?_, fun other => absurd (.inl last) other⟩
    subst last
    exact Tree.child_value child absent
  · exact ⟨fun either => (either.elim last absent).elim, fun _ => Tree.child_normal child last absent⟩

theorem child_ok (commit : Bool) {skipped : Prop} [Decidable skipped] (more : g.Extends next) {t : Patricia} {n : Node}
    (rep : Rep x g false t n)
    (kind : (skipped → t = .nil ∨ ∃ v, t = .value v) ∧ (¬ skipped → t.Normal))
    (walked : t.Normal → Taken x next commit (hash x commit false n).blobs → HashedOk x next commit false t (hash x commit false n))
    (taken : Taken x next commit (if skipped then asWere n else hash x commit false n).blobs) :
    HashedOk x next commit false t (if skipped then asWere n else hash x commit false n) := by
  by_cases skip : skipped
  · rw [if_pos skip]
    exact as_were_ok (rep_mono more rep) (kind.1 skip)
  · rw [if_neg skip] at taken ⊢
    exact walked (kind.2 skip) taken

theorem unloaded_ok (more : g.Extends next) (sized : Sized x force t) (present : Present x g t) (below : x.Below (Present x g) t)
    (normal : t.Normal) :
    HashedOk x next commit force t ⟨.hash (x.digest t), .hash (x.digest t), []⟩ where
  hashed := (stands_sized sized).symm
  cached := rep_mono more (.hash sized present below normal)
  known := ⟨fun _ => more.known present.2, below_mono (fun _ member => more.known member.2) _ below⟩
  stored _ := ⟨fun _ => present_mono more _ present, below_mono (present_mono more) _ below⟩
  blobs := nofun

theorem hash_ok (more : g.Extends next) (t : Patricia) (n : Node) (normal : t.Normal) (rep : Rep x g force t n)
    (taken : Taken x next commit (hash x commit force n).blobs) : HashedOk x next commit force t (hash x commit force n) := by
  induction t generalizing force n with
  | nil => cases normal
  | value => cases normal
  | short k t ih =>
    cases rep with
    | @short _ _ _ n flags below ok =>
      refine cached_ok normal more (.short below ok) ok _ (fun inner => hash_short_ok normal more ok inner ?_) taken
      exact child_ok commit more below (short_child normal below) (fun tail => ih n tail below) (taken_left inner)
    | hash sized present below normal => exact unloaded_ok more sized present below normal
  | full c ih =>
    cases rep with
    | @full _ _ d flags below ok =>
      refine cached_ok normal more (.full below ok) ok _ (fun inner => hash_full_ok normal more ok inner fun i => ?_) taken
      refine child_ok commit more (below i) (full_child normal (below i)) (fun tail => ih i (d i) tail (below i)) fun b member => ?_
      exact taken_left inner b (List.mem_flatMap.mpr ⟨i, List.mem_finRange i, member⟩)
    | hash sized present below normal => exact unloaded_ok more sized present below normal

end Lemmas

end Didux.Trie
