import Didux.Trie.Encoding

set_option autoImplicit false

namespace Didux.Trie

open Sport Radix Function List

inductive Kind where
  | string
  | list
deriving DecidableEq, Repr

-- The RLP library reads a value off the front of a byte string; `encode` is the header and the content of one value.
-- A single byte below 128 is a string here, and nothing in the trie tells the two apart.
structure Codec where
  encode : Kind → Bytes → Bytes
  split : Bytes → Option (Kind × Bytes × Bytes)
  keccak : Bytes → Bytes

structure Codec.Lawful (x : Codec) : Prop where
  reads : ∀ kind content rest, x.split (x.encode kind content ++ rest) = some (kind, content, rest)
  canonical : ∀ buf kind content rest, x.split buf = some (kind, content, rest) → buf = x.encode kind content ++ rest
  starts : ∀ kind content, x.encode kind content ≠ []
  grows : ∀ content, content.length < (x.encode .list content).length
  size : ∀ data, (x.keccak data).length = 32

-- The flags of a node: its cached hash, and whether it has changes that must be written to the database.
structure NodeFlag where
  hash : Option Bytes
  dirty : Bool
deriving DecidableEq, Repr

inductive Node where
  | nil
  | value (v : Bytes)
  | hash (h : Bytes)
  | short (key : Hex) (val : Node) (flags : NodeFlag)
  | full (children : Fin 17 → Node) (flags : NodeFlag)

def newFlag : NodeFlag := ⟨none, true⟩

-- A collapsed node: keys are compact, large children are replaced by their hashes and there are no flags.
inductive Raw where
  | nil
  | value (v : Bytes)
  | hash (h : Bytes)
  | short (key : Bytes) (val : Raw)
  | full (children : Fin 17 → Raw)

def Raw.isBranch : Raw → Bool
  | .short _ _ | .full _ => true
  | _ => false

def expandNode (hash : Option Bytes) : Raw → Node
  | .nil => .nil
  | .value v => .value v
  | .hash h => .hash h
  | .short key val => .short (compactToHex key) (expandNode none val) ⟨hash, false⟩
  | .full children => .full (fun i => expandNode none (children i)) ⟨hash, false⟩

inductive Fault where
  | unexpectedEOF
  | splitList
  | elements (count : Nat)
  | splitString
  | invalidValue
  | split
  | oversized (size : Nat)
  | stringSize (size : Nat)
  | loop
deriving DecidableEq, Repr

-- `stack` names the way from the fault up to the node that was decoded.
structure DecodeError where
  what : Fault
  stack : List String
deriving DecidableEq, Repr

def wrapError {α : Type} (ctx : String) : Except DecodeError α → Except DecodeError α
  | .ok a => .ok a
  | .error err => .error { err with stack := err.stack ++ [ctx] }

namespace Codec

variable (x : Codec)

def encodeNode : Raw → Bytes
  | .nil => x.encode .string []
  | .value v => x.encode .string v
  | .hash h => x.encode .string h
  | .short key val => x.encode .list (x.encode .string key ++ encodeNode val)
  | .full children => x.encode .list ((finRange 17).flatMap fun i => encodeNode (children i))

def splitString (buf : Bytes) : Option (Bytes × Bytes) :=
  match x.split buf with
  | some (.string, content, rest) => some (content, rest)
  | _ => none

def splitList (buf : Bytes) : Option (Bytes × Bytes) :=
  match x.split buf with
  | some (.list, content, rest) => some (content, rest)
  | _ => none

-- The number of values, which is 0 where one of them cannot be read. Each takes at least one byte.
def countValues : Nat → Bytes → Option Nat
  | _, [] => some 0
  | 0, _ :: _ => none
  | fuel + 1, b :: buf => match x.split (b :: buf) with
    | some (_, _, rest) => (countValues fuel rest).map (· + 1)
    | none => none

def decodeRef (decodeNode : Bytes → Except DecodeError Node) (buf : Bytes) : Except DecodeError (Node × Bytes) :=
  match x.split buf with
  | none => .error ⟨.split, []⟩
  | some (.list, _, rest) =>
    if 32 < buf.length - rest.length then .error ⟨.oversized (buf.length - rest.length), []⟩
    else (decodeNode buf).map fun n => (n, rest)
  | some (.string, val, rest) =>
    if val.length = 0 then .ok (.nil, rest)
    else if val.length = 32 then .ok (.hash val, rest)
    else .error ⟨.stringSize val.length, []⟩

def decodeShort (decodeRef : Bytes → Except DecodeError (Node × Bytes)) (hash : Option Bytes) (elems : Bytes) :
    Except DecodeError Node :=
  match x.splitString elems with
  | none => .error ⟨.splitString, []⟩
  | some (kbuf, rest) =>
    let key := compactToHex kbuf
    if hasTerm key then
      match x.splitString rest with
      | none => .error ⟨.invalidValue, []⟩
      | some (val, _) => .ok (.short key (.value val) ⟨hash, false⟩)
    else (wrapError "val" (decodeRef rest)).map fun r => .short key r.1 ⟨hash, false⟩

def decodeChildren (decodeRef : Bytes → Except DecodeError (Node × Bytes)) :
    List (Fin 17) → (Fin 17 → Node) → Bytes → Except DecodeError ((Fin 17 → Node) × Bytes)
  | [], children, elems => .ok (children, elems)
  | i :: indices, children, elems => match wrapError ("[" ++ toString i.val ++ "]") (decodeRef elems) with
    | .error err => .error err
    | .ok (cld, rest) => decodeChildren decodeRef indices (update children i cld) rest

def decodeFull (decodeRef : Bytes → Except DecodeError (Node × Bytes)) (hash : Option Bytes) (elems : Bytes) :
    Except DecodeError Node :=
  match decodeChildren decodeRef ((finRange 16).map Fin.castSucc) (fun _ => .nil) elems with
  | .error err => .error err
  | .ok (children, rest) =>
    match x.splitString rest with
    | none => .error ⟨.splitString, []⟩
    | some (val, _) => .ok (.full (if val = [] then children else update children 16 (.value val)) ⟨hash, false⟩)

-- The fuel bounds the depth of embedded nodes; it never runs out where it exceeds the length of the string.
def decodeNode : Nat → Option Bytes → Bytes → Except DecodeError Node
  | 0, _, _ => .error ⟨.loop, []⟩
  | fuel + 1, hash, buf => if buf = [] then .error ⟨.unexpectedEOF, []⟩ else
      match x.splitList buf with
      | none => .error ⟨.splitList, []⟩
      | some (elems, _) =>
        match (x.countValues elems.length elems).getD 0 with
        | 2 => wrapError "short" (x.decodeShort (x.decodeRef (decodeNode fuel none)) hash elems)
        | 17 => wrapError "full" (x.decodeFull (x.decodeRef (decodeNode fuel none)) hash elems)
        | count => .error ⟨.elements count, []⟩

def Small (r : Raw) : Prop := r.isBranch = true → (x.encodeNode r).length < 32

def Sound : Raw → Prop
  | .nil => True
  | .value _ => False
  | .hash h => h.length = 32
  | .short key val => if hasTerm (compactToHex key) then ∃ v, val = .value v else Sound val ∧ x.Small val
  | .full children => (∀ i, i ≠ Fin.last 16 → Sound (children i) ∧ x.Small (children i)) ∧
      (children (Fin.last 16) = .nil ∨ ∃ v, v ≠ [] ∧ children (Fin.last 16) = .value v)

end Codec

section Decode

variable {x : Codec} (lawful : x.Lawful)

include lawful

theorem split_string (content rest : Bytes) : x.splitString (x.encode .string content ++ rest) = some (content, rest) := by
  rw [Codec.splitString, lawful.reads]

theorem split_list (content rest : Bytes) : x.splitList (x.encode .list content ++ rest) = some (content, rest) := by
  rw [Codec.splitList, lawful.reads]

theorem encode_node_split (r : Raw) (rest : Bytes) :
    ∃ kind content, x.split (x.encodeNode r ++ rest) = some (kind, content, rest) ∧ x.encodeNode r = x.encode kind content := by
  cases r with
  | nil => exact ⟨_, _, lawful.reads _ _ _, rfl⟩
  | value v => exact ⟨_, _, lawful.reads _ _ _, rfl⟩
  | hash h => exact ⟨_, _, lawful.reads _ _ _, rfl⟩
  | short key val => exact ⟨_, _, lawful.reads _ _ _, rfl⟩
  | full children => exact ⟨_, _, lawful.reads _ _ _, rfl⟩

theorem count_values_cons (fuel : Nat) (kind : Kind) (content rest : Bytes) :
    x.countValues (fuel + 1) (x.encode kind content ++ rest) = (x.countValues fuel rest).map (· + 1) := by
  obtain ⟨b, tail, eq⟩ := exists_cons_of_ne_nil (append_ne_nil_of_left_ne_nil (lawful.starts kind content) rest)
  have read := lawful.reads kind content rest
  rw [eq] at read ⊢
  rw [Codec.countValues, read]

theorem encode_length_pos (kind : Kind) (content : Bytes) : 0 < (x.encode kind content).length :=
  length_pos_of_ne_nil (lawful.starts kind content)

theorem count_values_nodes (raws : List Raw) (fuel : Nat) (enough : (raws.flatMap x.encodeNode).length ≤ fuel) :
    x.countValues fuel (raws.flatMap x.encodeNode) = some raws.length := by
  induction raws generalizing fuel with
  | nil => cases fuel <;> rfl
  | cons r raws ih =>
    obtain ⟨kind, content, _, eq⟩ := encode_node_split lawful r []
    have positive := encode_length_pos lawful kind content
    rw [flatMap_cons, length_append, eq] at enough
    cases fuel with
    | zero => omega
    | succ fuel =>
      rw [flatMap_cons, eq, count_values_cons lawful, ih fuel (by omega)]
      simp

def Codec.Reads (x : Codec) (fuel : Nat) (r : Raw) : Prop :=
  r.isBranch = true → ∀ rest, (x.encodeNode r ++ rest).length < fuel →
    x.decodeNode fuel none (x.encodeNode r ++ rest) = .ok (expandNode none r)

variable {fuel : Nat}

theorem decode_ref_sound {r : Raw} (sound : x.Sound r) (small : x.Small r) (node : x.Reads fuel r) (rest : Bytes)
    (enough : (x.encodeNode r ++ rest).length < fuel) :
    x.decodeRef (x.decodeNode fuel none) (x.encodeNode r ++ rest) = .ok (expandNode none r, rest) := by
  have embedded (branch : r.isBranch = true) (content : Bytes) (eq : x.encodeNode r = x.encode .list content) :
      x.decodeRef (x.decodeNode fuel none) (x.encodeNode r ++ rest) = .ok (expandNode none r, rest) := by
    have fits := small branch
    have read : x.split (x.encodeNode r ++ rest) = some (.list, content, rest) := by rw [eq, lawful.reads]
    have size : ¬ 32 < (x.encodeNode r ++ rest).length - rest.length := by
      rw [length_append]
      omega
    rw [Codec.decodeRef, read, node branch rest enough]
    simp only [if_neg size]
    rfl
  cases r with
  | nil => simp [Codec.decodeRef, Codec.encodeNode, lawful.reads, expandNode]
  | value v => exact sound.elim
  | hash h =>
    have length : h.length = 32 := sound
    simp [Codec.decodeRef, Codec.encodeNode, lawful.reads, expandNode, length]
  | short key val => exact embedded rfl _ rfl
  | full children => exact embedded rfl _ rfl

omit lawful in
theorem decode_children_sound {children : Fin 17 → Raw} {ref : Bytes → Except DecodeError (Node × Bytes)} {bound : Nat}
    (indices : List (Fin 17)) (rest : Bytes) (node : ∀ i ∈ indices, ∀ rest, (x.encodeNode (children i) ++ rest).length < bound →
      ref (x.encodeNode (children i) ++ rest) = .ok (expandNode none (children i), rest))
    (before : Fin 17 → Node) (enough : (indices.flatMap (fun i => x.encodeNode (children i)) ++ rest).length < bound) :
    ∃ after, Codec.decodeChildren ref indices before (indices.flatMap (fun i => x.encodeNode (children i)) ++ rest) = .ok (after, rest) ∧
      ∀ i, after i = if i ∈ indices then expandNode none (children i) else before i := by
  induction indices generalizing before with
  | nil => exact ⟨before, rfl, by simp⟩
  | cons i indices ih =>
    rw [flatMap_cons, append_assoc] at enough ⊢
    have here := node i (by simp) _ enough
    rw [length_append] at enough
    obtain ⟨after, decoded, all⟩ :=
      ih (fun j member => node j (by simp [member])) (update before i (expandNode none (children i))) (by omega)
    refine ⟨after, ?_, fun j => ?_⟩
    · rw [Codec.decodeChildren, here]
      exact decoded
    · rw [all j]
      by_cases later : j ∈ indices
      · simp [later]
      · by_cases same : j = i
        · simp [same]
        · simp [later, same]

variable (hash : Option Bytes)

theorem decode_short_sound {key : Bytes} {val : Raw} (sound : x.Sound (.short key val)) (node : x.Reads fuel val)
    (enough : (x.encode .string key ++ x.encodeNode val).length < fuel) :
    x.decodeShort (x.decodeRef (x.decodeNode fuel none)) hash (x.encode .string key ++ x.encodeNode val) =
      .ok (expandNode hash (.short key val)) := by
  rw [Codec.decodeShort, split_string lawful]
  rw [Codec.Sound] at sound
  by_cases term : hasTerm (compactToHex key) = true
  · rw [if_pos term] at sound
    obtain ⟨v, rfl⟩ := sound
    have read : x.splitString (x.encode .string v) = some (v, []) := by simpa using split_string lawful v []
    simp only [if_pos term, Codec.encodeNode, read, expandNode]
  · rw [if_neg term] at sound
    rw [length_append] at enough
    have ref := decode_ref_sound lawful sound.1 sound.2 node [] (by rw [append_nil]; omega)
    rw [append_nil] at ref
    simp only [if_neg term, ref]
    rfl

theorem decode_full_sound {children : Fin 17 → Raw} (sound : x.Sound (.full children)) (node : ∀ i, x.Reads fuel (children i))
    (enough : ((finRange 17).flatMap fun i => x.encodeNode (children i)).length < fuel) :
    x.decodeFull (x.decodeRef (x.decodeNode fuel none)) hash ((finRange 17).flatMap fun i => x.encodeNode (children i)) =
      .ok (expandNode hash (.full children)) := by
  obtain ⟨below, last⟩ := sound
  have parts : ((finRange 17).flatMap fun i => x.encodeNode (children i)) =
      ((finRange 16).map Fin.castSucc).flatMap (fun i => x.encodeNode (children i)) ++ x.encodeNode (children (Fin.last 16)) := by
    rw [finRange_succ_last, flatMap_append, flatMap_singleton]
  have plain (i : Fin 17) (member : i ∈ (finRange 16).map Fin.castSucc) : i ≠ Fin.last 16 := by
    obtain ⟨j, _, rfl⟩ := mem_map.mp member
    exact Fin.castSucc_ne_last j
  have listed (i : Fin 17) (other : i ≠ Fin.last 16) : i ∈ (finRange 16).map Fin.castSucc :=
    mem_map.mpr ⟨i.castPred other, mem_finRange _, Fin.castSucc_castPred i other⟩
  rw [parts] at enough ⊢
  obtain ⟨after, decoded, all⟩ := decode_children_sound _ _
    (fun i member rest => decode_ref_sound lawful (below i (plain i member)).1 (below i (plain i member)).2 (node i) rest)
    (fun _ => .nil) enough
  rw [Codec.decodeFull, decoded]
  have value (v : Bytes) : x.splitString (x.encode .string v) = some (v, []) := by simpa using split_string lawful v []
  rcases last with absent | ⟨v, some, present⟩
  · have same : after = fun i => expandNode none (children i) := by
      funext i
      rw [all i]
      by_cases here : i = Fin.last 16
      · rw [here, absent]
        rfl
      · rw [if_pos (listed i here)]
    simp only [absent, Codec.encodeNode, value, same]
    rfl
  · have same : update after 16 (.value v) = fun i => expandNode none (children i) := by
      funext i
      by_cases here : i = Fin.last 16
      · rw [here, present]
        exact update_self _ _ _
      · have there : i ≠ 16 := here
        rw [update_of_ne there, all i, if_pos (listed i here)]
    simp only [present, Codec.encodeNode, value, if_neg some, same, expandNode]

theorem decode_node_sound (r : Raw) (sound : x.Sound r) (branch : r.isBranch = true) (fuel : Nat) (hash : Option Bytes)
    (rest : Bytes) (enough : (x.encodeNode r ++ rest).length < fuel) :
    x.decodeNode fuel hash (x.encodeNode r ++ rest) = .ok (expandNode hash r) := by
  induction r generalizing fuel hash rest with
  | nil => cases branch
  | value => cases branch
  | hash => cases branch
  | short key val ih =>
    cases fuel with
    | zero => omega
    | succ fuel =>
      rw [Codec.encodeNode] at enough ⊢
      have grows := lawful.grows (x.encode .string key ++ x.encodeNode val)
      have some := append_ne_nil_of_left_ne_nil (lawful.starts .list (x.encode .string key ++ x.encodeNode val)) rest
      have count : x.countValues (x.encode .string key ++ x.encodeNode val).length (x.encode .string key ++ x.encodeNode val) =
          Option.some 2 := by
        have two := count_values_nodes lawful [.value key, val] _ le_rfl
        simpa [Codec.encodeNode] using two
      rw [length_append] at enough
      rw [Codec.decodeNode, if_neg some, split_list lawful]
      simp only [count]
      rw [decode_short_sound lawful hash sound]
      · rfl
      · intro below tail short
        have inner := sound
        rw [Codec.Sound] at inner
        by_cases term : hasTerm (compactToHex key) = true
        · rw [if_pos term] at inner
          obtain ⟨v, rfl⟩ := inner
          cases below
        · rw [if_neg term] at inner
          exact ih inner.1 below fuel none tail short
      · omega
  | full children ih =>
    cases fuel with
    | zero => omega
    | succ fuel =>
      rw [Codec.encodeNode] at enough ⊢
      have grows := lawful.grows ((finRange 17).flatMap fun i => x.encodeNode (children i))
      have some := append_ne_nil_of_left_ne_nil
        (lawful.starts .list ((finRange 17).flatMap fun i => x.encodeNode (children i))) rest
      have count := count_values_nodes lawful ((finRange 17).map children) _ le_rfl
      rw [flatMap_map] at count
      rw [length_append] at enough
      rw [Codec.decodeNode, if_neg some, split_list lawful]
      simp only [count]
      rw [decode_full_sound lawful hash sound]
      · rfl
      · intro i below tail short
        by_cases last : i = Fin.last 16
        · rcases sound.2 with absent | ⟨v, _, present⟩
          · rw [last, absent] at below
            cases below
          · rw [last, present] at below
            cases below
        · exact ih i (sound.1 i last).1 below fuel none tail short
      · omega

end Decode

end Didux.Trie
