import Didux.Trie.Operations

set_option autoImplicit false

namespace Didux.Trie

open Sport Radix Tree Codec

abbrev Value := { v : Bytes // v ≠ [] }

abbrev Patricia := Tree 16 Value

namespace Codec

variable (x : Codec)

def refer (r : Raw) : Raw :=
  if r.isBranch = true ∧ 32 ≤ (x.encodeNode r).length then .hash (x.keccak (x.encodeNode r)) else r

def collapse : Patricia → Raw
  | .nil => .nil
  | .value v => .value v.1
  | .short k t => .short (hexToCompact k) (x.refer (collapse t))
  | .full c => .full fun i => x.refer (collapse (c i))

def encoding (t : Patricia) : Bytes := x.encodeNode (x.collapse t)

def digest (t : Patricia) : Bytes := x.keccak (x.encoding t)

def Large (t : Patricia) : Prop := (x.collapse t).isBranch = true ∧ 32 ≤ (x.encoding t).length

def Below (P : Patricia → Prop) : Patricia → Prop
  | .short _ t => (x.Large t → P t) ∧ Below P t
  | .full c => ∀ i, (x.Large (c i) → P (c i)) ∧ Below P (c i)
  | _ => True

end Codec

theorem branch_of_normal (x : Codec) {t : Patricia} (normal : t.Normal) : (x.collapse t).isBranch = true := by
  cases normal <;> rfl

section Encoding

variable {x : Codec}

theorem below_mono {P Q : Patricia → Prop} (weaker : ∀ t, P t → Q t) (t : Patricia) (below : x.Below P t) : x.Below Q t := by
  induction t with
  | nil => trivial
  | value => trivial
  | short k t ih => exact ⟨fun large => weaker t (below.1 large), ih below.2⟩
  | full c ih => exact fun i => ⟨fun large => weaker (c i) ((below i).1 large), ih i (below i).2⟩

theorem refer_large {t : Patricia} (large : x.Large t) : x.refer (x.collapse t) = .hash (x.digest t) := by
  exact if_pos large

theorem refer_small {t : Patricia} (small : ¬ x.Large t) : x.refer (x.collapse t) = x.collapse t := by
  exact if_neg small

section Lawful

variable (lawful : x.Lawful)

include lawful

theorem refer_sound {r : Raw} (sound : x.Sound r) : x.Sound (x.refer r) ∧ x.Small (x.refer r) := by
  rw [refer]
  split
  next => exact ⟨lawful.size _, nofun⟩
  next small => exact ⟨sound, fun branch => by simpa [branch] using small⟩

theorem collapse_sound (t : Patricia) (normal : t.Normal) : x.Sound (x.collapse t) := by
  induction t with
  | nil => trivial
  | value => cases normal
  | short k t ih =>
    rw [collapse, Codec.Sound]
    cases normal with
    | leaf key =>
      obtain ⟨same, term⟩ := compact_terminated key
      rw [same, if_pos term]
      exact ⟨_, rfl⟩
    | extension _ plain below =>
      obtain ⟨same, term⟩ := compact_plain plain
      rw [same, term]
      exact refer_sound lawful (ih below)
  | full c ih =>
    have children := ((normal_full_iff c).mp normal).1
    refine ⟨fun i plain => refer_sound lawful ?_, ?_⟩
    · by_cases absent : c i = .nil
      · rw [absent]
        trivial
      · exact ih i (child_normal (children i) plain absent)
    · by_cases absent : c (Fin.last 16) = .nil
      · exact .inl (congrArg (fun t => x.refer (x.collapse t)) absent)
      · obtain ⟨v, present⟩ := child_value (children (Fin.last 16)) absent
        exact .inr ⟨v.1, v.2, congrArg (fun t => x.refer (x.collapse t)) present⟩

theorem decode_encoding (t : Patricia) (normal : t.Normal) (hash : Option Bytes) (fuel : Nat) (enough : (x.encoding t).length < fuel) :
    x.decodeNode fuel hash (x.encoding t) = .ok (expandNode hash (x.collapse t)) := by
  have whole := decode_node_sound lawful (x.collapse t) (collapse_sound lawful t normal) (branch_of_normal x normal) fuel hash []
    (by rwa [List.append_nil])
  rwa [List.append_nil] at whole

theorem expand_of_encoding {t u : Patricia} (left : t.Normal) (right : u.Normal) (same : x.encoding t = x.encoding u)
    (hash : Option Bytes) : expandNode hash (x.collapse t) = expandNode hash (x.collapse u) := by
  have first := decode_encoding lawful t left hash _ (Nat.lt_succ_self _)
  rw [same, decode_encoding lawful u right hash _ (by rw [← same]; exact Nat.lt_succ_self _)] at first
  exact (Except.ok.inj first).symm

omit lawful in
theorem expand_refer_ne_nil (i : Fin 17) (t : Patricia) (child : Tree.Child i t) (present : t ≠ .nil) :
    expandNode none (x.refer (x.collapse t)) ≠ .nil := by
  by_cases large : x.Large t
  · simp [refer_large large, expandNode]
  · rw [refer_small large]
    cases t with
    | nil => exact absurd rfl present
    | _ => simp [collapse, expandNode]

theorem refer_injective {known : Set Bytes} (apart : Set.InjOn x.keccak known) {i : Fin 17} {t u : Patricia}
    (left : Tree.Child i t) (right : Tree.Child i u) (first : x.Large t → x.encoding t ∈ known)
    (second : x.Large u → x.encoding u ∈ known)
    (unique : t.Normal → u.Normal → expandNode none (x.collapse t) = expandNode none (x.collapse u) → t = u)
    (same : expandNode none (x.refer (x.collapse t)) = expandNode none (x.refer (x.collapse u))) : t = u := by
  by_cases absent : t = .nil
  · subst absent
    by_contra different
    exact expand_refer_ne_nil i u right (Ne.symm different) same.symm
  by_cases gone : u = .nil
  · subst gone
    exact absurd same (expand_refer_ne_nil i t left absent)
  by_cases last : i = Fin.last 16
  · subst last
    obtain ⟨v, rfl⟩ := child_value left absent
    obtain ⟨w, rfl⟩ := child_value right gone
    have values : v.1 = w.1 := by simpa [refer, collapse, Raw.isBranch, expandNode] using same
    rw [Subtype.ext values]
  have one := child_normal left last absent
  have other := child_normal right last gone
  have shape (r : Patricia) (normal : r.Normal) (h : Bytes) : expandNode none (x.collapse r) ≠ .hash h := by
    cases normal <;> simp [collapse, expandNode]
  by_cases large : x.Large t
  · by_cases big : x.Large u
    · rw [refer_large large, refer_large big] at same
      have digests : x.digest t = x.digest u := by simpa [expandNode] using same
      exact unique one other (expand_of_encoding lawful one other (apart (first large) (second big) digests) none)
    · rw [refer_large large, refer_small big] at same
      exact absurd same.symm (shape u other _)
  · by_cases big : x.Large u
    · rw [refer_small large, refer_large big] at same
      exact absurd same (shape t one _)
    · rw [refer_small large, refer_small big] at same
      exact unique one other same

theorem expand_injective {known : Set Bytes} (apart : Set.InjOn x.keccak known) (t u : Patricia) (left : t.Normal) (right : u.Normal)
    (first : x.Below (fun s => x.encoding s ∈ known) t) (second : x.Below (fun s => x.encoding s ∈ known) u)
    (same : expandNode none (x.collapse t) = expandNode none (x.collapse u)) : t = u := by
  induction t generalizing u with
  | nil => cases left
  | value => cases left
  | short k t ih =>
    cases u with
    | nil => cases right
    | value => cases right
    | full d => simp [collapse, expandNode] at same
    | short j u =>
      simp only [collapse, expandNode, Node.short.injEq, and_true] at same
      obtain ⟨keys, below⟩ := same
      cases left with
      | @leaf _ v key =>
        cases right with
        | @leaf _ w other =>
          rw [(compact_terminated key).1, (compact_terminated other).1] at keys
          have values : v.1 = w.1 := by simpa [refer, collapse, Raw.isBranch, expandNode] using below
          rw [keys, Subtype.ext values]
        | extension _ plain _ =>
          rw [(compact_terminated key).1, (compact_plain plain).1] at keys
          exact absurd plain (terminated_not_plain (keys ▸ key))
      | @extension _ c _ plain normal =>
        cases right with
        | leaf other =>
          rw [(compact_plain plain).1, (compact_terminated other).1] at keys
          exact absurd plain (terminated_not_plain (keys ▸ other))
        | @extension _ d _ tail other =>
          rw [(compact_plain plain).1, (compact_plain tail).1] at keys
          have zero : (0 : Fin 17) ≠ Fin.last 16 := by decide
          rw [keys, refer_injective lawful apart (normal_child zero normal) (normal_child zero other) first.1 second.1
            (fun one two => ih (.full d) one two first.2 second.2) below]
  | full c ih =>
    cases u with
    | nil => cases right
    | value => cases right
    | short j u => simp [collapse, expandNode] at same
    | full d =>
      simp only [collapse, expandNode, Node.full.injEq, and_true] at same
      congr 1
      funext i
      exact refer_injective lawful apart (((normal_full_iff c).mp left).1 i) (((normal_full_iff d).mp right).1 i)
        (first i).1 (second i).1 (fun one two => ih i (d i) one two (first i).2 (second i).2) (congrFun same i)

end Lawful

end Encoding

end Didux.Trie
