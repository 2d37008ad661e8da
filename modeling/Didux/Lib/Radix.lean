import Mathlib.Data.List.FinRange
import Mathlib.Data.List.Infix
import Mathlib.Logic.Function.Basic
import Mathlib.Tactic

set_option autoImplicit false

namespace Didux.Radix

open Function List

variable {n : Nat} {V : Type}

abbrev Word (n : Nat) := List (Fin (n + 1))

def Plain (w : Word n) : Prop := ∀ s ∈ w, s ≠ Fin.last n

inductive Terminated : Word n → Prop where
  | stop : Terminated [Fin.last n]
  | cons {s : Fin (n + 1)} {w : Word n} (plain : s ≠ Fin.last n) (rest : Terminated w) : Terminated (s :: w)

theorem terminated_cons_iff (s : Fin (n + 1)) (w : Word n) :
    Terminated (s :: w) ↔ (s = Fin.last n ∧ w = []) ∨ (s ≠ Fin.last n ∧ Terminated w) := by
  constructor
  · rintro (_ | ⟨plain, rest⟩)
    · exact .inl ⟨rfl, rfl⟩
    · exact .inr ⟨plain, rest⟩
  · rintro (⟨rfl, rfl⟩ | ⟨plain, rest⟩)
    · exact .stop
    · exact .cons plain rest

theorem not_terminated_nil : ¬ Terminated ([] : Word n) := nofun

theorem terminated_append (p w : Word n) (plain : Plain p) : Terminated (p ++ w) ↔ Terminated w := by
  induction p with
  | nil => rfl
  | cons s p ih =>
    have head : s ≠ Fin.last n := plain s (by simp)
    rw [cons_append, terminated_cons_iff, ih (fun x member => plain x (by simp [member]))]
    simp [head]

theorem terminated_split {p w : Word n} (key : Terminated (p ++ w)) (more : w ≠ []) : Plain p ∧ Terminated w := by
  induction p with
  | nil => exact ⟨nofun, key⟩
  | cons s p ih =>
    rcases (terminated_cons_iff s (p ++ w)).mp key with ⟨_, ended⟩ | ⟨plain, rest⟩
    · exact absurd (append_eq_nil_iff.mp ended).2 more
    · obtain ⟨before, after⟩ := ih rest
      exact ⟨forall_mem_cons.mpr ⟨plain, before⟩, after⟩

theorem terminated_not_plain {w : Word n} (key : Terminated w) : ¬ Plain w := by
  intro plain
  have rest := (terminated_append w [] plain).mp (by simpa using key)
  exact not_terminated_nil rest

theorem words_part (k q : Word n) (first : ¬ k <+: q) (second : ¬ q <+: k) :
    ∃ p a x b y, a ≠ b ∧ k = p ++ a :: x ∧ q = p ++ b :: y := by
  induction k generalizing q with
  | nil => exact absurd nil_prefix first
  | cons a x ih =>
    cases q with
    | nil => exact absurd nil_prefix second
    | cons b y =>
      by_cases same : a = b
      · subst same
        obtain ⟨p, c, u, d, w, different, rfl, rfl⟩ :=
          ih y (fun h => first (cons_prefix_cons.mpr ⟨rfl, h⟩)) (fun h => second (cons_prefix_cons.mpr ⟨rfl, h⟩))
        exact ⟨a :: p, c, u, d, w, different, rfl, rfl⟩
      · exact ⟨[], a, x, b, y, same, rfl, rfl⟩

theorem prefix_of_both (k p x y : Word n) (a b : Fin (n + 1)) (different : a ≠ b) (first : k <+: p ++ a :: x)
    (second : k <+: p ++ b :: y) : k <+: p := by
  induction p generalizing k with
  | nil =>
    cases k with
    | nil => exact nil_prefix
    | cons s k =>
      have left := (cons_prefix_cons.mp first).1
      have right := (cons_prefix_cons.mp second).1
      exact absurd (left.symm.trans right) different
  | cons s p ih =>
    cases k with
    | nil => exact nil_prefix
    | cons t k =>
      obtain ⟨same, left⟩ := cons_prefix_cons.mp first
      exact cons_prefix_cons.mpr ⟨same, ih k left (cons_prefix_cons.mp second).2⟩

theorem terminated_of_prefix_eq (k q : Word n) (short : Terminated k) (long : Terminated q) (before : k <+: q) : k = q := by
  obtain ⟨rest, rfl⟩ := before
  cases rest with
  | nil => simp
  | cons s rest => exact absurd (terminated_split long (cons_ne_nil s rest)).1 (terminated_not_plain short)

def prefixLen : Word n → Word n → Nat
  | a :: x, b :: y => if a = b then prefixLen x y + 1 else 0
  | _, _ => 0

theorem prefix_len_parted (p x y : Word n) (a b : Fin (n + 1)) (different : a ≠ b) :
    prefixLen (p ++ a :: x) (p ++ b :: y) = p.length := by
  induction p with
  | nil => simp [prefixLen, different]
  | cons s p ih => simp [prefixLen, ih]

theorem prefix_len_eq_iff (q k : Word n) : prefixLen q k = k.length ↔ k <+: q := by
  induction k generalizing q with
  | nil => cases q <;> simp [prefixLen]
  | cons b y ih =>
    cases q with
    | nil => simp [prefixLen]
    | cons a x =>
      by_cases same : a = b
      · simp [prefixLen, same, ih]
      · simp [prefixLen, same, Ne.symm same]

theorem prefix_len_le (q k : Word n) : prefixLen q k ≤ k.length := by
  induction k generalizing q with
  | nil => cases q <;> simp [prefixLen]
  | cons b y ih =>
    cases q with
    | nil => simp [prefixLen]
    | cons a x =>
      rw [prefixLen]
      split
      · simpa using ih x
      · simp

def single (p : Fin (n + 1) → Bool) : Option (Fin (n + 1)) :=
  match (finRange (n + 1)).filter p with
  | [s] => some s
  | _ => none

theorem single_some {p : Fin (n + 1) → Bool} {s : Fin (n + 1)} (found : single p = some s) : p s = true ∧ ∀ r, r ≠ s → p r = false := by
  have members (r : Fin (n + 1)) : r ∈ (finRange (n + 1)).filter p ↔ p r = true := by simp
  rw [single] at found
  split at found
  next u alone =>
    obtain rfl := Option.some.inj found
    simp only [alone, mem_singleton] at members
    exact ⟨(members u).mp rfl, fun r other => by simpa using mt (members r).mpr other⟩
  next => cases found

theorem single_none {p : Fin (n + 1) → Bool} (none : single p = none) {s : Fin (n + 1)} (holds : p s = true) :
    ∃ r, r ≠ s ∧ p r = true := by
  by_contra alone
  push Not at alone
  have members (r : Fin (n + 1)) : r ∈ (finRange (n + 1)).filter p ↔ r ∈ [s] := by
    rw [mem_filter, mem_singleton]
    exact ⟨fun found => by_contra fun other => alone r other found.2, fun same => by simp [same, holds]⟩
  have one : (finRange (n + 1)).filter p = [s] :=
    perm_singleton.mp
      ((perm_ext_iff_of_nodup ((nodup_finRange (n + 1)).filter _) (nodup_singleton s)).mpr members)
  simp [single, one] at none

-- A short node shares the beginning of its keys, a full node has one child for each symbol.
inductive Tree (n : Nat) (V : Type) where
  | nil
  | value (v : V)
  | short (key : Word n) (val : Tree n V)
  | full (children : Fin (n + 1) → Tree n V)

namespace Tree

def get : Tree n V → Word n → Option V
  | .nil, _ => none
  | .value v, _ => some v
  | .short k t, q => if k <+: q then t.get (q.drop k.length) else none
  | .full c, s :: q => (c s).get q
  | .full _, [] => none

def isNil : Tree n V → Bool
  | .nil => true
  | _ => false

def attach (rest : Word n) (t : Tree n V) : Tree n V := if rest = [] then t else .short rest t

def fork (a : Fin (n + 1)) (s : Tree n V) (b : Fin (n + 1)) (t : Tree n V) : Tree n V :=
  .full (update (update (fun _ => .nil) a s) b t)

def insert : Tree n V → Word n → V → Tree n V
  | .short k t, q, v => if k <+: q then .short k (t.insert (q.drop k.length) v) else
      match k.drop (prefixLen q k), q.drop (prefixLen q k) with
      | a :: x, b :: y => attach (q.take (prefixLen q k)) (fork a (attach x t) b (attach y (.value v)))
      | _, _ => .short k t
  | .full c, s :: q, v => .full (update c s ((c s).insert q v))
  | .nil, q, v => attach q (.value v)
  | _, _, v => .value v

def only (c : Fin (n + 1) → Tree n V) : Option (Fin (n + 1)) := single fun s => !(c s).isNil

def merge (k : Word n) : Tree n V → Tree n V
  | .short j t => .short (k ++ j) t
  | t => .short k t

def reduce (c : Fin (n + 1) → Tree n V) : Tree n V :=
  match only c with
  | some s => merge [s] (c s)
  | none => .full c

def delete : Tree n V → Word n → Tree n V
  | .short k t, q => if k <+: q then if q.length = k.length then .nil else merge k (t.delete (q.drop k.length)) else .short k t
  | .full c, s :: q => reduce (update c s ((c s).delete q))
  | t@(.full _), [] => t
  | .value _, _ => .nil
  | .nil, _ => .nil

inductive Normal : Tree n V → Prop where
  | leaf {k : Word n} {v : V} (key : Terminated k) : Normal (.short k (.value v))
  | extension {k : Word n} {c : Fin (n + 1) → Tree n V} (some : k ≠ []) (plain : Plain k) (below : Normal (.full c)) :
      Normal (.short k (.full c))
  | branch {c : Fin (n + 1) → Tree n V} {a b : Fin (n + 1)} (below : ∀ s, s ≠ Fin.last n → c s ≠ .nil → Normal (c s))
      (here : c (Fin.last n) ≠ .nil → ∃ v, c (Fin.last n) = .value v) (different : a ≠ b) (left : c a ≠ .nil)
      (right : c b ≠ .nil) : Normal (.full c)

def Child (s : Fin (n + 1)) (t : Tree n V) : Prop :=
  t ≠ .nil → if s = Fin.last n then ∃ v, t = .value v else Normal t

def Fits (q : Word n) (t : Tree n V) : Prop :=
  t ≠ .nil → if q = [] then ∃ v, t = .value v else Normal t

@[simp] theorem get_nil (q : Word n) : (nil : Tree n V).get q = none := rfl

@[simp] theorem get_value (v : V) (q : Word n) : (value v : Tree n V).get q = some v := rfl

@[simp] theorem get_full (c : Fin (n + 1) → Tree n V) (s : Fin (n + 1)) (q : Word n) : (full c).get (s :: q) = (c s).get q := rfl

@[simp] theorem get_short_append (k q : Word n) (t : Tree n V) : (short k t).get (k ++ q) = t.get q := by
  simp [get]

theorem get_short_outside (k q : Word n) (t : Tree n V) (outside : ¬ k <+: q) : (short k t).get q = none := by
  simp [get, outside]

variable {k p : Word n} {c : Fin (n + 1) → Tree n V} {s : Fin (n + 1)} {q : Word n} {t : Tree n V}

theorem get_short_some (found : (short k t).get q ≠ none) : ∃ r, q = k ++ r := by
  by_cases inside : k <+: q
  · obtain ⟨r, rfl⟩ := inside
    exact ⟨r, rfl⟩
  · exact absurd (get_short_outside k q t inside) found

theorem normal_ne_nil (normal : Normal t) : t ≠ .nil := by
  cases normal <;> simp

theorem fits_end (fits : Fits [] t) : t = .nil ∨ ∃ v, t = .value v := by
  by_cases absent : t = .nil
  · exact .inl absent
  · exact .inr (by simpa using fits absent)

theorem fits_more (more : q ≠ []) (fits : Fits q t) (present : t ≠ .nil) : Normal t := by
  simpa [more] using fits present

theorem normal_fits (more : q ≠ []) (normal : Normal t) : Fits q t :=
  fun _ => by simpa [more] using normal

theorem key_ne_nil (key : Terminated q) : q ≠ [] := fun ended => not_terminated_nil (ended ▸ key)

theorem fits_iff_child (key : Terminated (s :: q)) (t : Tree n V) : Fits q t ↔ Child s t := by
  rcases (terminated_cons_iff s q).mp key with ⟨rfl, rfl⟩ | ⟨plain, rest⟩
  · simp [Fits, Child]
  · simp [Fits, Child, plain, key_ne_nil rest]

theorem child_normal (child : Child s t) (plain : s ≠ Fin.last n) (present : t ≠ .nil) : Normal t := by
  simpa [plain] using child present

theorem child_value (child : Child (Fin.last n) t) (present : t ≠ .nil) : ∃ v, t = .value v := by
  simpa using child present

theorem normal_child (plain : s ≠ Fin.last n) (normal : Normal t) : Child s t :=
  fun _ => by simpa [plain] using normal

theorem normal_full_iff (c : Fin (n + 1) → Tree n V) :
    Normal (.full c) ↔ (∀ s, Child s (c s)) ∧ ∃ a b, a ≠ b ∧ c a ≠ .nil ∧ c b ≠ .nil := by
  constructor
  · rintro (_ | _ | ⟨below, here, different, left, right⟩)
    refine ⟨fun s present => ?_, _, _, different, left, right⟩
    split
    next last =>
      subst last
      exact here present
    next plain => exact below s plain present
  · rintro ⟨children, a, b, different, left, right⟩
    refine .branch (fun s plain present => ?_) (fun present => ?_) different left right
    · exact child_normal (children s) plain present
    · exact child_value (children (Fin.last n)) present

theorem rest_cases (key : Terminated (s :: q)) : q = [] ∨ Terminated q := by
  rcases (terminated_cons_iff s q).mp key with ⟨_, ended⟩ | ⟨_, rest⟩
  · exact .inl ended
  · exact .inr rest

theorem ends_iff (key : Terminated (s :: q)) : q = [] ↔ s = Fin.last n := by
  rcases (terminated_cons_iff s q).mp key with ⟨rfl, rfl⟩ | ⟨plain, rest⟩
  · simp
  · simp [plain, key_ne_nil rest]

theorem get_attach (p q : Word n) (t : Tree n V) : (attach p t).get (p ++ q) = t.get q := by
  by_cases empty : p = []
  · simp [attach, empty]
  · simp [attach, empty]

theorem get_attach_outside (p q : Word n) (t : Tree n V) (outside : ¬ p <+: q) : (attach p t).get q = none := by
  have some : p ≠ [] := fun empty => outside (empty ▸ nil_prefix)
  simp [attach, some, get_short_outside p q t outside]

theorem insert_inside (k q : Word n) (t : Tree n V) (v : V) : (short k t).insert (k ++ q) v = .short k (t.insert q v) := by
  simp [insert]

theorem insert_parted (p x y : Word n) (a b : Fin (n + 1)) (t : Tree n V) (v : V) (different : a ≠ b) :
    (short (p ++ a :: x) t).insert (p ++ b :: y) v = attach p (fork a (attach x t) b (attach y (.value v))) := by
  have outside : ¬ p ++ a :: x <+: p ++ b :: y := by
    rw [prefix_append_right_inj, cons_prefix_cons]
    exact fun h => different h.1
  rw [insert, if_neg outside, prefix_len_parted p y x b a (Ne.symm different)]
  simp

theorem insert_cases (normal : Normal (.short k t)) (key : Terminated q) :
    (∃ r, q = k ++ r) ∨ ∃ p a x b y, a ≠ b ∧ k = p ++ a :: x ∧ q = p ++ b :: y := by
  by_cases inside : k <+: q
  · obtain ⟨r, rfl⟩ := inside
    exact .inl ⟨r, rfl⟩
  refine .inr (words_part k q inside fun before => ?_)
  cases normal with
  | leaf end_ => exact inside (terminated_of_prefix_eq q k key end_ before ▸ prefix_rfl)
  | extension _ plain _ => exact terminated_not_plain key fun s member => plain s (before.subset member)

theorem child_attach {x : Word n} {a : Fin (n + 1)} {t : Tree n V} (normal : Normal (.short (p ++ a :: x) t)) :
    Plain p ∧ Child a (attach x t) ∧ attach x t ≠ .nil := by
  cases normal with
  | leaf key =>
    obtain ⟨before, after⟩ := terminated_split key (cons_ne_nil a x)
    rcases (terminated_cons_iff a x).mp after with ⟨rfl, rfl⟩ | ⟨plain, rest⟩
    · exact ⟨before, fun _ => by simp [attach], by simp [attach]⟩
    · refine ⟨before, fun _ => ?_, by simp [attach, key_ne_nil rest]⟩
      simpa [attach, key_ne_nil rest, plain] using Normal.leaf rest
  | extension some plain below =>
    have last : a ≠ Fin.last n := plain a (by simp)
    refine ⟨fun s member => plain s (by simp [member]), fun _ => ?_, ?_⟩
    · rw [if_neg last, attach]
      split
      next => exact below
      next more => exact .extension more (fun s member => plain s (by simp [member])) below
    · rw [attach]
      split <;> simp

theorem normal_fork {a b : Fin (n + 1)} {s t : Tree n V} (different : a ≠ b) (left : Child a s) (right : Child b t)
    (first : s ≠ .nil) (second : t ≠ .nil) : Normal (fork a s b t) := by
  rw [fork, normal_full_iff]
  refine ⟨fun r => ?_, a, b, different, by simpa [different] using first, by simpa using second⟩
  by_cases there : r = b
  · subst there
    simpa using right
  by_cases here : r = a
  · subst here
    simpa [there] using left
  · simp [Child, there, here]

theorem normal_attach (plain : Plain p) (normal : Normal (.full c)) : Normal (attach p (.full c)) := by
  rw [attach]
  split
  next => exact normal
  next more => exact .extension more plain normal

theorem normal_parted {x y : Word n} {a b : Fin (n + 1)} {t : Tree n V} (v : V) (different : a ≠ b)
    (normal : Normal (.short (p ++ a :: x) t)) (key : Terminated (p ++ b :: y)) :
    Normal (attach p (fork a (attach x t) b (attach y (.value v)))) := by
  obtain ⟨plain, old, present⟩ := child_attach normal
  obtain ⟨_, new, added⟩ := child_attach (Normal.leaf (v := v) key)
  exact normal_attach plain (normal_fork different old new present added)

theorem normal_update (normal : Normal (.full c)) (child : Child s t) (present : t ≠ .nil) : Normal (.full (update c s t)) := by
  rw [normal_full_iff] at normal ⊢
  obtain ⟨children, a, b, different, left, right⟩ := normal
  have kept (r : Fin (n + 1)) (old : c r ≠ .nil) : update c s t r ≠ .nil := by
    by_cases here : r = s
    · simpa [here] using present
    · simpa [here] using old
  refine ⟨fun r => ?_, a, b, different, kept a left, kept b right⟩
  by_cases here : r = s
  · subst here
    simpa using child
  · simpa [here] using children r

theorem normal_insert_full {v : V} (normal : Normal ((full c).insert q v)) {k : Word n} (some : k ≠ [])
    (plain : Plain k) : Normal (.short k ((full c).insert q v)) := by
  cases q with
  | nil => exact absurd normal nofun
  | cons s q => exact .extension some plain normal

theorem short_key (key : q = [] ∨ Terminated q) (fits : Fits q (.short k t)) : Terminated q ∧ Normal (.short k t) := by
  rcases key with rfl | key
  · simpa using fits nofun
  · exact ⟨key, fits_more (key_ne_nil key) fits nofun⟩

theorem full_key (key : q = [] ∨ Terminated q) (fits : Fits q (.full c)) :
    ∃ s r, q = s :: r ∧ Terminated (s :: r) ∧ Normal (.full c) ∧ (r = [] ∨ Terminated r) ∧ Fits r (c s) := by
  rcases key with rfl | key
  · simpa using fits nofun
  have normal := fits_more (key_ne_nil key) fits nofun
  cases q with
  | nil => exact absurd key not_terminated_nil
  | cons s r => exact ⟨s, r, rfl, key, normal, rest_cases key, (fits_iff_child key (c s)).mpr (((normal_full_iff c).mp normal).1 s)⟩

theorem insert_fits (t : Tree n V) (q : Word n) (v : V) (key : q = [] ∨ Terminated q) (fits : Fits q t) :
    Fits q (t.insert q v) ∧ t.insert q v ≠ .nil := by
  induction t generalizing q with
  | nil =>
    rcases key with rfl | key
    · exact ⟨fun _ => ⟨v, rfl⟩, nofun⟩
    · have more := key_ne_nil key
      exact ⟨by simpa [insert, attach, more] using normal_fits more (Normal.leaf key), by simp [insert, attach, more]⟩
  | value w =>
    rcases key with rfl | key
    · exact ⟨fun _ => ⟨v, rfl⟩, nofun⟩
    · exact absurd (fits_more (key_ne_nil key) fits nofun) nofun
  | short k t ih =>
    obtain ⟨key, normal⟩ := short_key key fits
    have more := key_ne_nil key
    suffices done : Normal ((short k t).insert q v) from ⟨normal_fits more done, normal_ne_nil done⟩
    rcases insert_cases normal key with ⟨r, rfl⟩ | ⟨p, a, x, b, y, different, rfl, rfl⟩
    · rw [insert_inside]
      cases normal with
      | leaf end_ =>
        have ended : r = [] := by simpa using terminated_of_prefix_eq _ _ end_ key (prefix_append k r)
        subst ended
        exact .leaf end_
      | extension some plain below =>
        have rest : Terminated r := (terminated_append k r plain).mp key
        obtain ⟨inserted, present⟩ := ih r (.inr rest) (normal_fits (key_ne_nil rest) below)
        exact normal_insert_full (fits_more (key_ne_nil rest) inserted present) some plain
    · rw [insert_parted p x y a b t v different]
      exact normal_parted v different normal key
  | full c ih =>
    obtain ⟨s, q, rfl, key, normal, rest, below⟩ := full_key key fits
    obtain ⟨inserted, present⟩ := ih s q rest below
    exact ⟨normal_fits nofun (normal_update normal ((fits_iff_child key _).mp inserted) present), nofun⟩

theorem short_rests {r : Word n} {t : Tree n V} (normal : Normal (.short k t)) (key : Terminated (k ++ r)) :
    (r = [] ∨ Terminated r) ∧ Fits r t ∧ (r = [] ↔ ∃ v, t = .value v) := by
  cases normal with
  | leaf end_ =>
    have ended : r = [] := by simpa using terminated_of_prefix_eq _ _ end_ key (prefix_append k r)
    subst ended
    exact ⟨.inl rfl, fun _ => by simp, by simp⟩
  | extension some plain below =>
    have rest : Terminated r := (terminated_append k r plain).mp key
    exact ⟨.inr rest, normal_fits (key_ne_nil rest) below, by simp [key_ne_nil rest]⟩

theorem get_leaf (k q : Word n) (v : V) (key : Terminated k) (other : Terminated q) :
    (attach k (.value v)).get q = if q = k then some v else none := by
  by_cases same : q = k
  · subst same
    simpa using get_attach q [] (.value v)
  · rw [if_neg same, get_attach_outside k q _ fun before => same (terminated_of_prefix_eq k q key other before).symm]

theorem get_fork (a b s : Fin (n + 1)) (q : Word n) (x y : Tree n V) :
    (fork a x b y).get (s :: q) = if s = b then y.get q else if s = a then x.get q else none := by
  by_cases there : s = b
  · simp [fork, there]
  · by_cases here : s = a
    · subst here
      simp [fork, there]
    · simp [fork, there, here]

theorem get_parted {x y q : Word n} {a b : Fin (n + 1)} {t : Tree n V} (v : V) (different : a ≠ b)
    (normal : Normal (.short (p ++ a :: x) t)) (key : Terminated (p ++ b :: y)) (other : Terminated q) :
    (attach p (fork a (attach x t) b (attach y (.value v)))).get q =
      if q = p ++ b :: y then some v else (short (p ++ a :: x) t).get q := by
  have plain := (child_attach normal).1
  by_cases inside : p <+: q
  · obtain ⟨r, rfl⟩ := inside
    have rest := (terminated_append p r plain).mp other
    have after := (terminated_append p (b :: y) plain).mp key
    cases r with
    | nil => exact absurd rest not_terminated_nil
    | cons s r =>
      rw [get_attach, get_fork]
      by_cases there : s = b
      · subst there
        have old : (short (p ++ a :: x) t).get (p ++ s :: r) = none :=
          get_short_outside _ _ _ (by simp [different])
        have leaf : (attach y (.value v) : Tree n V).get r = if r = y then some v else none := by
          rcases (terminated_cons_iff s r).mp rest with ⟨rfl, rfl⟩ | ⟨head, tail⟩
          · have ended : y = [] := by simpa [terminated_cons_iff] using after
            simp [ended, attach]
          · have ended : Terminated y := by simpa [terminated_cons_iff, head] using after
            exact get_leaf y r v ended tail
        rw [leaf, old]
        simp
      · have unequal : p ++ s :: r ≠ p ++ b :: y := by simp [there]
        rw [if_neg there, if_neg unequal]
        by_cases here : s = a
        · subst here
          by_cases below : x <+: r
          · obtain ⟨w, rfl⟩ := below
            have whole := get_short_append (p ++ s :: x) w t
            rw [append_assoc, cons_append] at whole
            rw [if_pos rfl, get_attach, whole]
          · rw [if_pos rfl, get_attach_outside x r t below, get_short_outside]
            simpa using below
        · rw [if_neg here, get_short_outside]
          simp [Ne.symm here]
  · have unequal : q ≠ p ++ b :: y := fun same => inside (same ▸ prefix_append p _)
    rw [get_attach_outside p q _ inside, if_neg unequal, get_short_outside]
    exact fun before => inside ((prefix_append p _).trans before)

theorem get_insert (t : Tree n V) (q r : Word n) (v : V) (key : q = [] ∨ Terminated q) (other : r = [] ∨ Terminated r)
    (ends : q = [] ↔ r = []) (fits : Fits q t) : (t.insert q v).get r = if r = q then some v else t.get r := by
  induction t generalizing q r with
  | nil =>
    rcases key with rfl | key
    · simp [insert, attach, ends.mp rfl]
    · have tail : Terminated r := other.resolve_left fun ended => key_ne_nil key (ends.mpr ended)
      exact get_leaf q r v key tail
  | value w =>
    rcases key with rfl | key
    · simp [insert, ends.mp rfl]
    · exact absurd (fits_more (key_ne_nil key) fits nofun) nofun
  | short k t ih =>
    obtain ⟨key, normal⟩ := short_key key fits
    have tail : Terminated r := other.resolve_left fun ended => key_ne_nil key (ends.mpr ended)
    rcases insert_cases normal key with ⟨q, rfl⟩ | ⟨p, a, x, b, y, different, rfl, rfl⟩
    · rw [insert_inside]
      by_cases inside : k <+: r
      · obtain ⟨r, rfl⟩ := inside
        obtain ⟨first, below, stops⟩ := short_rests normal key
        obtain ⟨second, _, halts⟩ := short_rests normal tail
        rw [get_short_append, ih q r first second (stops.trans halts.symm) below]
        simp
      · have unequal : r ≠ k ++ q := fun same => inside (same ▸ prefix_append k q)
        rw [get_short_outside k r _ inside, get_short_outside k r _ inside, if_neg unequal]
    · rw [insert_parted p x y a b t v different]
      exact get_parted v different normal key tail
  | full c ih =>
    obtain ⟨s, q, rfl, key, -, rest, below⟩ := full_key key fits
    have tail : Terminated r := other.resolve_left fun ended => key_ne_nil key (ends.mpr ended)
    cases r with
    | nil => exact absurd tail not_terminated_nil
    | cons u r =>
      rw [insert]
      by_cases here : u = s
      · subst here
        simp [ih u q r rest (rest_cases tail) ((ends_iff key).trans (ends_iff tail).symm) below]
      · simp [here]

theorem is_nil_iff (t : Tree n V) : t.isNil = true ↔ t = .nil := by
  cases t <;> simp [isNil]

theorem only_some (found : only c = some s) : c s ≠ .nil ∧ ∀ r, r ≠ s → c r = .nil := by
  obtain ⟨here, others⟩ := single_some found
  exact ⟨by simpa [← is_nil_iff] using here, fun r other => by simpa [← is_nil_iff] using others r other⟩

theorem only_none (none : only c = none) {s : Fin (n + 1)} (present : c s ≠ .nil) : ∃ r, r ≠ s ∧ c r ≠ .nil := by
  obtain ⟨r, other, holds⟩ := single_none none (s := s) (by simpa [← is_nil_iff] using present)
  exact ⟨r, other, by simpa [← is_nil_iff] using holds⟩

theorem normal_merge (some : k ≠ []) (plain : Plain k) (normal : Normal t) : Normal (merge k t) := by
  cases normal with
  | leaf key => exact .leaf ((terminated_append k _ plain).mpr key)
  | extension _ tail below =>
    exact .extension (by simp [some]) (fun s member => (mem_append.mp member).elim (plain s) (tail s)) below
  | branch below here different left right => exact .extension some plain (.branch below here different left right)

theorem get_merge (k q : Word n) (t : Tree n V) : (merge k t).get q = (short k t).get q := by
  cases t with
  | short j t =>
    by_cases inside : k <+: q
    · obtain ⟨r, rfl⟩ := inside
      rw [merge, get_short_append]
      by_cases below : j <+: r
      · obtain ⟨w, rfl⟩ := below
        rw [← append_assoc, get_short_append, get_short_append]
      · rw [get_short_outside j r t below, get_short_outside]
        simpa using below
    · rw [merge, get_short_outside k q _ inside, get_short_outside]
      exact fun before => inside ((prefix_append k j).trans before)
  | _ => rfl

theorem merge_ne_nil (k : Word n) (t : Tree n V) : merge k t ≠ .nil := by
  cases t <;> simp [merge]

theorem reduce_ne_nil (c : Fin (n + 1) → Tree n V) : reduce c ≠ .nil := by
  rw [reduce]
  split
  next s _ => exact merge_ne_nil [s] (c s)
  next => simp

theorem normal_reduce (children : ∀ s, Child s (c s)) {s : Fin (n + 1)} (present : c s ≠ .nil) : Normal (reduce c) := by
  rw [reduce]
  split
  next u single =>
    have here := (only_some single).1
    have child := children u here
    by_cases last : u = Fin.last n
    · obtain ⟨v, eq⟩ : ∃ v, c u = .value v := by simpa [last] using child
      rw [eq, last]
      exact .leaf .stop
    · have below : Normal (c u) := by simpa [last] using child
      exact normal_merge nofun (by simpa [Plain] using last) below
  next none =>
    obtain ⟨r, different, other⟩ := only_none none present
    exact (normal_full_iff c).mpr ⟨children, r, s, different, other, present⟩

theorem reduce_full (normal : Normal (.full c)) : reduce c = .full c := by
  obtain ⟨_, a, b, different, left, right⟩ := (normal_full_iff c).mp normal
  cases single : only c with
  | none => rw [reduce, single]
  | some s =>
    have others := (only_some single).2
    have first : a = s := by_contra fun other => left (others a other)
    have second : b = s := by_contra fun other => right (others b other)
    exact absurd (first.trans second.symm) different

theorem get_reduce (c : Fin (n + 1) → Tree n V) (q : Word n) (some : q ≠ []) : (reduce c).get q = (full c).get q := by
  rw [reduce]
  split
  next u single =>
    cases q with
    | nil => exact absurd rfl some
    | cons s q =>
      rw [get_merge, get_full]
      by_cases here : s = u
      · subst here
        exact get_short_append [s] q (c s)
      · rw [get_short_outside _ _ _ (by simp [Ne.symm here]), (only_some single).2 s here, get_nil]
  next => rfl

theorem child_update (children : ∀ r, Child r (c r)) (child : Child s t) (r : Fin (n + 1)) : Child r (update c s t r) := by
  by_cases here : r = s
  · subst here
    simpa using child
  · simpa [here] using children r

theorem delete_inside (more : q ≠ []) : (short k t).delete (k ++ q) = merge k (t.delete q) := by
  simp [delete, more]

theorem delete_fits (t : Tree n V) (q : Word n) (key : q = [] ∨ Terminated q) (fits : Fits q t) : Fits q (t.delete q) := by
  induction t generalizing q with
  | nil => exact fits
  | value w => exact fun present => absurd rfl present
  | short k t ih =>
    obtain ⟨key, normal⟩ := short_key key fits
    have more := key_ne_nil key
    by_cases inside : k <+: q
    · obtain ⟨r, rfl⟩ := inside
      obtain ⟨rest, below, stops⟩ := short_rests normal key
      by_cases ended : r = []
      · simp [delete, ended, Fits]
      · rw [delete_inside ended]
        cases normal with
        | leaf => exact absurd (stops.mpr ⟨_, rfl⟩) ended
        | @extension _ c some plain _ =>
          cases r with
          | nil => exact absurd rfl ended
          | cons s r =>
            have deleted := fits_more ended (ih (s :: r) rest below) (reduce_ne_nil _)
            exact normal_fits more (normal_merge some plain deleted)
    · simpa [delete, inside] using fits
  | full c ih =>
    obtain ⟨s, q, rfl, key, normal, rest, below⟩ := full_key key fits
    obtain ⟨children, a, b, different, left, right⟩ := (normal_full_iff c).mp normal
    have deleted := (fits_iff_child key _).mp (ih s q rest below)
    -- One of two children is not the one below `s`.
    obtain ⟨r, other, present⟩ : ∃ r, r ≠ s ∧ c r ≠ .nil := by
      by_cases here : a = s
      · exact ⟨b, fun same => different (here.trans same.symm), right⟩
      · exact ⟨a, here, left⟩
    have kept : update c s ((c s).delete q) r ≠ .nil := by simpa [other] using present
    exact normal_fits nofun (normal_reduce (child_update children deleted) kept)

theorem get_delete (t : Tree n V) (q r : Word n) (key : q = [] ∨ Terminated q) (other : r = [] ∨ Terminated r)
    (ends : q = [] ↔ r = []) (fits : Fits q t) : (t.delete q).get r = if r = q then none else t.get r := by
  induction t generalizing q r with
  | nil => simp [delete]
  | value w =>
    rcases key with rfl | key
    · simp [delete, ends.mp rfl]
    · exact absurd (fits_more (key_ne_nil key) fits nofun) nofun
  | short k t ih =>
    obtain ⟨key, normal⟩ := short_key key fits
    have tail : Terminated r := other.resolve_left fun ended => key_ne_nil key (ends.mpr ended)
    by_cases inside : k <+: q
    · obtain ⟨q, rfl⟩ := inside
      obtain ⟨first, below, stops⟩ := short_rests normal key
      by_cases within : k <+: r
      · obtain ⟨r, rfl⟩ := within
        obtain ⟨second, _, halts⟩ := short_rests normal tail
        have together := stops.trans halts.symm
        by_cases ended : q = []
        · simp [delete, ended, together.mp ended]
        · rw [delete_inside ended, get_merge, get_short_append, ih q r first second together below]
          simp
      · have unequal : r ≠ k ++ q := fun same => within (same ▸ prefix_append k q)
        rw [if_neg unequal, get_short_outside k r t within]
        by_cases ended : q = []
        · simp [delete, ended]
        · rw [delete_inside ended, get_merge, get_short_outside k r _ within]
    · by_cases same : r = q
      · simp [delete, same, inside, get_short_outside k q t inside]
      · simp [delete, inside, same]
  | full c ih =>
    obtain ⟨s, q, rfl, key, -, rest, below⟩ := full_key key fits
    have tail : Terminated r := other.resolve_left fun ended => key_ne_nil key (ends.mpr ended)
    cases r with
    | nil => exact absurd tail not_terminated_nil
    | cons u r =>
      rw [delete, get_reduce _ _ (cons_ne_nil u r)]
      by_cases here : u = s
      · subst here
        simp [ih u q r rest (rest_cases tail) ((ends_iff key).trans (ends_iff tail).symm) below]
      · simp [here]

theorem child_key (child : Child s t) (present : t ≠ .nil) (inhabited : Normal t → ∃ q, Terminated q ∧ t.get q ≠ none)
    : ∃ q, Terminated (s :: q) ∧ t.get q ≠ none := by
  have what := child present
  split at what
  next last =>
    obtain ⟨v, rfl⟩ := what
    exact ⟨[], last ▸ .stop, by simp⟩
  next plain =>
    obtain ⟨q, key, found⟩ := inhabited what
    exact ⟨q, .cons plain key, found⟩

theorem normal_key (t : Tree n V) (normal : Normal t) : ∃ q, Terminated q ∧ t.get q ≠ none := by
  induction t with
  | nil => exact absurd normal nofun
  | value => exact absurd normal nofun
  | short k t ih =>
    cases normal with
    | @leaf _ v key =>
      have found : (short k (.value v)).get k = some v := by simpa using get_short_append k [] (.value v)
      exact ⟨k, key, by simp [found]⟩
    | extension some plain below =>
      obtain ⟨q, key, found⟩ := ih below
      exact ⟨k ++ q, (terminated_append k q plain).mpr key, by simpa using found⟩
  | full c ih =>
    obtain ⟨children, a, _, _, present, _⟩ := (normal_full_iff c).mp normal
    obtain ⟨q, key, found⟩ := child_key (children a) present (ih a)
    exact ⟨a :: q, key, by simpa using found⟩

theorem full_keys (normal : Normal (.full c)) :
    ∃ a x b y, a ≠ b ∧ Terminated (a :: x) ∧ Terminated (b :: y) ∧ (full c).get (a :: x) ≠ none ∧ (full c).get (b :: y) ≠ none := by
  obtain ⟨children, a, b, different, left, right⟩ := (normal_full_iff c).mp normal
  obtain ⟨x, first, found⟩ := child_key (children a) left (normal_key (c a))
  obtain ⟨y, second, also⟩ := child_key (children b) right (normal_key (c b))
  exact ⟨a, x, b, y, different, first, second, by simpa using found, by simpa using also⟩

theorem normal_cases (normal : Normal t) : (∃ k v, t = .short k (.value v) ∧ Terminated k) ∨
      ∃ p c, Plain p ∧ Normal (.full c) ∧ t = attach p (.full c) := by
  cases normal with
  | leaf key => exact .inl ⟨_, _, rfl, key⟩
  | extension some plain below => exact .inr ⟨_, _, plain, below, by simp [attach, some]⟩
  | branch below here different left right => exact .inr ⟨[], _, nofun, .branch below here different left right, by simp [attach]⟩

theorem attach_keys (plain : Plain p) (normal : Normal (.full c)) :
    ∃ a x b y, a ≠ b ∧ Terminated (p ++ a :: x) ∧ Terminated (p ++ b :: y) ∧
      (attach p (.full c)).get (p ++ a :: x) ≠ none ∧ (attach p (.full c)).get (p ++ b :: y) ≠ none := by
  obtain ⟨a, x, b, y, different, first, second, found, also⟩ := full_keys normal
  refine ⟨a, x, b, y, different, (terminated_append p _ plain).mpr first, (terminated_append p _ plain).mpr second, ?_, ?_⟩
  · rwa [get_attach]
  · rwa [get_attach]

theorem attach_inside (found : (attach p t).get q ≠ none) : p <+: q := by
  by_contra outside
  exact found (get_attach_outside p q t outside)

theorem leaf_key {v : V} (key : Terminated k) (other : Terminated q) (found : (short k (.value v)).get q ≠ none) : k = q := by
  obtain ⟨r, rfl⟩ := get_short_some found
  exact terminated_of_prefix_eq _ _ key other (prefix_append k r)

theorem leaf_not_attach {v : V} {c : Fin (n + 1) → Tree n V} (key : Terminated k) (plain : Plain p)
    (normal : Normal (.full c)) (same : ∀ q, Terminated q → (short k (.value v)).get q = (attach p (.full c)).get q) : False := by
  obtain ⟨a, x, b, y, different, first, second, found, also⟩ := attach_keys plain normal
  have left := leaf_key key first ((same _ first).trans_ne found)
  have right := leaf_key key second ((same _ second).trans_ne also)
  have equal := append_cancel_left (left.symm.trans right)
  exact different (cons.inj equal).1

theorem attach_begins {r : Word n} {c d : Fin (n + 1) → Tree n V} (plain : Plain p) (normal : Normal (.full c))
    (same : ∀ q, Terminated q → (attach p (.full c)).get q = (attach r (.full d)).get q) : r <+: p := by
  obtain ⟨a, x, b, y, different, first, second, found, also⟩ := attach_keys plain normal
  exact prefix_of_both r p x y a b different (attach_inside ((same _ first).symm.trans_ne found))
    (attach_inside ((same _ second).symm.trans_ne also))

theorem child_unique {u : Tree n V} (left : Child s t) (right : Child s u)
    (unique : Normal t → Normal u → (∀ q, Terminated q → t.get q = u.get q) → t = u)
    (same : ∀ q, Terminated (s :: q) → t.get q = u.get q) : t = u := by
  by_cases absent : t = .nil
  · by_contra different
    have present : u ≠ .nil := fun gone => different (absent.trans gone.symm)
    obtain ⟨q, key, found⟩ := child_key right present (normal_key u)
    exact found (by rw [← same q key, absent, get_nil])
  by_cases gone : u = .nil
  · obtain ⟨q, key, found⟩ := child_key left absent (normal_key t)
    exact absurd (by rw [same q key, gone, get_nil]) found
  have first := left absent
  have second := right gone
  by_cases last : s = Fin.last n
  · obtain ⟨v, rfl⟩ : ∃ v, t = .value v := by simpa [last] using first
    obtain ⟨w, rfl⟩ : ∃ v, u = .value v := by simpa [last] using second
    have equal : v = w := by simpa using same [] (last ▸ .stop)
    rw [equal]
  · rw [if_neg last] at first second
    exact unique first second fun q key => same q (.cons last key)

theorem attach_unique {u : Tree n V} (plain : Plain p) (below : Normal (.full c)) (right : Normal u)
    (same : ∀ q, Terminated q → (attach p (.full c)).get q = u.get q)
    (unique : ∀ d, Normal (.full d) → (∀ q, Terminated q → (full c).get q = (full d).get q) → full c = full d) :
    attach p (.full c) = u := by
  rcases normal_cases right with ⟨j, w, rfl, other⟩ | ⟨r, d, tail, above, rfl⟩
  · exact (leaf_not_attach other plain below fun q key => (same q key).symm).elim
  · have front := attach_begins plain below same
    have back := attach_begins tail above fun q key => (same q key).symm
    obtain rfl := front.eq_of_length_le back.length_le
    rw [unique d above fun q key => ?_]
    have whole := same (r ++ q) ((terminated_append r q plain).mpr key)
    rwa [get_attach, get_attach] at whole

theorem normal_unique (t u : Tree n V) (left : Normal t) (right : Normal u)
    (same : ∀ q, Terminated q → t.get q = u.get q) : t = u := by
  induction t generalizing u with
  | nil => exact absurd left nofun
  | value => exact absurd left nofun
  | short k t ih =>
    cases left with
    | @leaf _ v key =>
      rcases normal_cases right with ⟨j, w, rfl, other⟩ | ⟨r, d, plain, below, rfl⟩
      · have found : (short k (.value v)).get k = some v := by simpa using get_short_append k [] (.value v)
        have there : (short j (.value w)).get k = some v := (same k key).symm.trans found
        have equal : j = k := leaf_key other key (there.trans_ne nofun)
        subst equal
        have value : (short j (.value w)).get j = some w := by simpa using get_short_append j [] (.value w)
        rw [Option.some.inj (there.symm.trans value)]
      · exact (leaf_not_attach key plain below same).elim
    | @extension _ c some plain below =>
      have shape : short k (.full c) = attach k (.full c) := by simp [attach, some]
      rw [shape] at same ⊢
      exact attach_unique plain below right same fun d normal => ih (.full d) below normal
  | full c ih =>
    have shape : full c = attach [] (.full c) := by simp [attach]
    rw [shape]
    refine attach_unique nofun left right same fun d normal alike => ?_
    have children := ((normal_full_iff c).mp left).1
    have others := ((normal_full_iff d).mp normal).1
    congr 1
    funext s
    exact child_unique (children s) (others s) (ih s (d s)) fun q key => by simpa using alike (s :: q) key

end Tree

end Didux.Radix
