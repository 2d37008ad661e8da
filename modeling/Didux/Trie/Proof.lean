import Didux.Trie.History

set_option autoImplicit false

namespace Didux.Trie

open Sport Radix List Option Except Codec

inductive ProofError where
  | missing (i : Nat) (hash : Bytes)
  | bad (i : Nat) (err : DecodeError)
  | panic
  | loop
deriving DecidableEq, Repr

namespace Node

def path (x : Codec) (db : Database) : Nat → Node → Hex → Except TrieError (List Node)
  | 0, _, _ => .error .loop
  | fuel + 1, tn, key => if key = [] ∨ tn.isNil then .ok [] else
      match tn with
      | .short k val _ =>
        if k <+: key then do
          let nodes ← path x db fuel val (key.drop k.length)
          return tn :: nodes
        else .ok [tn]
      | .full children _ =>
        match key with
        | [] => .ok []
        | s :: rest => do
            let nodes ← path x db fuel (children s) rest
            return tn :: nodes
      | .hash h => do
          let tn ← resolveHash x db h []
          path x db fuel tn key
      | _ => .error .panic

def collapsed (x : Codec) : Node → Raw
  | .short key val _ => .short (hexToCompact key) (if val.isValue then asWere val else Trie.hash x false false val).hashed
  | .full children _ =>
    .full fun i => (if i = 16 ∨ (children i).isNil then asWere (children i) else Trie.hash x false false (children i)).hashed
  | _ => .nil

def flagHash : Node → Option Bytes
  | .short _ _ flags | .full _ flags => flags.hash
  | _ => none

-- A node becomes an element of the proof when it has a hash or is the root.
def element (x : Codec) (first : Bool) (n : Node) : Option (Bytes × Bytes) :=
  let raw := n.collapsed x
  let enc := x.encodeNode raw
  match (store x n.flagHash false raw).1, first with
  | .hash h, _ => some (h, enc)
  | _, true => some (x.keccak enc, enc)
  | _, false => none

def elements (x : Codec) : List Node → List (Bytes × Bytes)
  | [] => []
  | root :: nodes => (root.element x true).toList ++ nodes.filterMap (element x false)

-- What the walk of VerifyProof finds in one node: the rest of the key and a hash, a value or nothing.
def get : Node → Hex → Except ProofError (Hex × Node)
  | .short k val _, key => if k <+: key then get val (key.drop k.length) else .ok ([], .nil)
  | .full children _, s :: key => get (children s) key
  | .full _ _, [] => .error .panic
  | .hash h, key => .ok (key, .hash h)
  | .nil, key => .ok (key, .nil)
  | .value v, _ => .ok ([], .value v)

def skips : Node → Option Bytes
  | .hash h => some h
  | .short k val _ => if k = [] then skips val else none
  | _ => none

end Node

def State.prove (x : Codec) (s : State) (key : Bytes) (fromLevel : Nat) : Except TrieError (List (Bytes × Bytes)) := do
  let key := keybytesToHex key
  let nodes ← s.root.path x s.db (State.fuel key) key
  return (Node.elements x nodes).drop fromLevel

def proofDb (elements : List (Bytes × Bytes)) (h : Bytes) : Option Bytes := (elements.reverse.find? fun e => e.1 = h).map Prod.snd

-- One round of VerifyProof is the end, with the value and the number of nodes that were read, or goes on below.
inductive Round where
  | done (value : Option Bytes) (nodes : Nat)
  | again (wantHash : Bytes) (key : Hex)

-- A switch without a case goes round again.
def verifyRound (x : Codec) (proofDb : Bytes → Option Bytes) (i : Nat) (wantHash : Bytes) (key : Hex) : Except ProofError Round :=
  match proofDb wantHash with
  | none => .error (.missing i wantHash)
  | some buf =>
    match x.decodeNode (buf.length + 1) (some wantHash) buf with
    | .error err => .error (.bad i err)
    | .ok n =>
      match n.get key with
      | .error err => .error err
      | .ok (_, .nil) => .ok (.done none i)
      | .ok (keyrest, .hash h) => .ok (.again h keyrest)
      | .ok (_, .value v) => .ok (.done (some v) (i + 1))
      | .ok _ => .ok (.again wantHash key)

def verifyProof (x : Codec) (proofDb : Bytes → Option Bytes) : Nat → Nat → Bytes → Hex → Except ProofError (Option Bytes × Nat)
  | 0, _, _, _ => .error .loop
  | fuel + 1, i, wantHash, key => match verifyRound x proofDb i wantHash key with
    | .error err => .error err
    | .ok (.done value nodes) => .ok (value, nodes)
    | .ok (.again wantHash key) => verifyProof x proofDb fuel (i + 1) wantHash key

inductive Decoded : Node → Prop where
  | nil : Decoded .nil
  | value {v : Bytes} : Decoded (.value v)
  | hash {h : Bytes} : Decoded (.hash h)
  | short {k : Hex} {val : Node} {flags : NodeFlag} (below : Decoded val) (leaf : hasTerm k = true → ∃ v, val = .value v) :
      Decoded (.short k val flags)
  | full {children : Fin 17 → Node} {flags : NodeFlag} (below : ∀ i, Decoded (children i))
      (last : children (Fin.last 16) = .nil ∨ ∃ v, children (Fin.last 16) = .value v) : Decoded (.full children flags)

section Decoder

variable {x : Codec}

theorem wrap_ok {α : Type} {ctx : String} {e : Except DecodeError α} {a : α} (ok : wrapError ctx e = .ok a) : e = .ok a := by
  cases e with
  | ok b => exact ok
  | error err => cases ok

theorem decode_ref_decoded {decode : Bytes → Except DecodeError Node} (sound : ∀ buf n, decode buf = .ok n → Decoded n)
    {buf rest : Bytes} {n : Node} (ok : x.decodeRef decode buf = .ok (n, rest)) : Decoded n := by
  rw [decodeRef] at ok
  split at ok
  next => cases ok
  next =>
    split at ok
    next => cases ok
    next =>
      cases inner : decode buf with
      | error err => simp [inner, Except.map] at ok
      | ok m =>
        obtain ⟨rfl, _⟩ : m = n ∧ _ = rest := by simpa [inner, Except.map] using ok
        exact sound buf m inner
  next =>
    split at ok
    next =>
      obtain ⟨rfl, _⟩ := Prod.mk.inj (Except.ok.inj ok)
      exact .nil
    next =>
      split at ok
      next =>
        obtain ⟨rfl, _⟩ := Prod.mk.inj (Except.ok.inj ok)
        exact .hash
      next => cases ok

variable {ref : Bytes → Except DecodeError (Node × Bytes)}

variable (sound : ∀ buf n rest, ref buf = .ok (n, rest) → Decoded n) {hash : Option Bytes} {elems : Bytes}

include sound

theorem decode_short_decoded {n : Node} (ok : x.decodeShort ref hash elems = .ok n) : Decoded n := by
  rw [decodeShort] at ok
  split at ok
  next => cases ok
  next kbuf rest _ =>
    by_cases term : hasTerm (compactToHex kbuf) = true
    · simp only [if_pos term] at ok
      split at ok
      next => cases ok
      next =>
        obtain rfl := Except.ok.inj ok
        exact .short .value fun _ => ⟨_, rfl⟩
    · simp only [if_neg term] at ok
      cases inner : wrapError "val" (ref rest) with
      | error err => simp [inner, Except.map] at ok
      | ok r =>
        obtain rfl : Node.short (compactToHex kbuf) r.1 ⟨hash, false⟩ = n := by simpa [inner, Except.map] using ok
        exact .short (sound rest r.1 r.2 (wrap_ok inner)) fun has => absurd has term

theorem decode_children_decoded (indices : List (Fin 17)) (before after : Fin 17 → Node) (elems rest : Bytes)
    (fine : ∀ i, Decoded (before i)) (ok : decodeChildren ref indices before elems = .ok (after, rest)) :
    (∀ i, Decoded (after i)) ∧ ∀ i, i ∉ indices → after i = before i := by
  induction indices generalizing before elems with
  | nil =>
    obtain ⟨rfl, _⟩ := Prod.mk.inj (Except.ok.inj ok)
    exact ⟨fine, fun _ _ => rfl⟩
  | cons j indices ih =>
    rw [decodeChildren] at ok
    split at ok
    next => cases ok
    next cld tail inner =>
      have updated (i : Fin 17) : Decoded (Function.update before j cld i) := by
        by_cases here : i = j
        · subst here
          simpa using sound elems cld tail (wrap_ok inner)
        · simpa [here] using fine i
      obtain ⟨all, others⟩ := ih _ _ updated ok
      refine ⟨all, fun i absent => ?_⟩
      obtain ⟨other, later⟩ := not_or.mp (mt mem_cons.mpr absent)
      rw [others i later, Function.update_of_ne other]

theorem decode_full_decoded {n : Node} (ok : x.decodeFull ref hash elems = .ok n) : Decoded n := by
  rw [decodeFull] at ok
  split at ok
  next => cases ok
  next children rest inner =>
    obtain ⟨all, others⟩ := decode_children_decoded sound _ _ _ _ _ (fun _ => .nil) inner
    have last : children (Fin.last 16) = .nil := by
      refine others _ fun member => ?_
      obtain ⟨j, _, eq⟩ := mem_map.mp member
      exact Fin.castSucc_ne_last j eq
    split at ok
    next => cases ok
    next val _ _ =>
      obtain rfl := Except.ok.inj ok
      split
      next => exact .full all (.inl last)
      next =>
        refine .full (fun i => ?_) (.inr ⟨val, Function.update_self _ _ _⟩)
        by_cases here : i = 16
        · subst here
          simpa using Decoded.value
        · simpa [here] using all i

omit sound

theorem decode_node_decoded (fuel : Nat) (hash : Option Bytes) (buf : Bytes) (n : Node) (ok : x.decodeNode fuel hash buf = .ok n) :
    Decoded n := by
  induction fuel generalizing hash buf n with
  | zero => cases ok
  | succ fuel ih =>
    have ref (buf : Bytes) (n : Node) (rest : Bytes) (ok : x.decodeRef (x.decodeNode fuel none) buf = .ok (n, rest)) : Decoded n :=
      decode_ref_decoded (fun buf n => ih none buf n) ok
    rw [decodeNode] at ok
    split at ok
    next => cases ok
    next =>
      split at ok
      next => cases ok
      next =>
        split at ok
        next => exact decode_short_decoded ref (wrap_ok ok)
        next => exact decode_full_decoded ref (wrap_ok ok)
        next => cases ok

section Loops

variable (lawful : x.Lawful)

include lawful

theorem split_shorter {buf content rest : Bytes} {kind : Kind} (found : x.split buf = some (kind, content, rest)) :
    rest.length < buf.length := by
  have parts := lawful.canonical buf kind content rest found
  have positive := encode_length_pos lawful kind content
  rw [parts, length_append]
  omega

theorem split_list_shorter {buf content rest : Bytes} (found : x.splitList buf = some (content, rest)) : content.length < buf.length := by
  rw [splitList] at found
  split at found
  next inner tail whole =>
    obtain ⟨rfl, _⟩ := Prod.mk.inj (some.inj found)
    have parts := lawful.canonical buf _ _ _ whole
    have grows := lawful.grows inner
    rw [parts, length_append]
    omega
  next => cases found

theorem split_string_shorter {buf content rest : Bytes} (found : x.splitString buf = some (content, rest)) :
    rest.length < buf.length := by
  rw [splitString] at found
  split at found
  next whole =>
    obtain ⟨_, rfl⟩ := Prod.mk.inj (some.inj found)
    exact split_shorter lawful whole
  next => cases found

omit lawful in
theorem wrap_error {α : Type} {ctx : String} {e : Except DecodeError α} {err : DecodeError} (failed : wrapError ctx e = .error err) :
    ∃ inner, e = .error inner ∧ err.what = inner.what := by
  cases e with
  | ok a => cases failed
  | error inner =>
    obtain rfl := error.inj failed
    exact ⟨inner, rfl, rfl⟩

omit lawful in
theorem decode_ref_loop {decode : Bytes → Except DecodeError Node} {buf : Bytes}
    (fine : ∀ err, decode buf = .error err → err.what ≠ .loop)
    (err : DecodeError) (failed : x.decodeRef decode buf = .error err) : err.what ≠ .loop := by
  rw [decodeRef] at failed
  split at failed
  next => exact error.inj failed ▸ (by simp)
  next =>
    split at failed
    next => exact error.inj failed ▸ (by simp)
    next =>
      cases inner : decode buf with
      | error other =>
        obtain rfl : other = err := by simpa [inner, Except.map] using failed
        exact fine other inner
      | ok n => simp [inner, Except.map] at failed
  next =>
    split at failed
    next => cases failed
    next =>
      split at failed
      next => cases failed
      next => exact error.inj failed ▸ (by simp)

theorem decode_ref_rest {decode : Bytes → Except DecodeError Node} {buf rest : Bytes} {n : Node}
    (ok : x.decodeRef decode buf = .ok (n, rest)) : rest.length < buf.length := by
  rw [decodeRef] at ok
  split at ok
  next => cases ok
  next found =>
    split at ok
    next => cases ok
    next =>
      cases inner : decode buf with
      | error err => simp [inner, Except.map] at ok
      | ok m =>
        obtain ⟨_, rfl⟩ : m = n ∧ _ = rest := by simpa [inner, Except.map] using ok
        exact split_shorter lawful found
  next found =>
    split at ok
    next =>
      obtain ⟨_, rfl⟩ := Prod.mk.inj (Except.ok.inj ok)
      exact split_shorter lawful found
    next =>
      split at ok
      next =>
        obtain ⟨_, rfl⟩ := Prod.mk.inj (Except.ok.inj ok)
        exact split_shorter lawful found
      next => cases ok

variable {err : DecodeError}

theorem decode_short_loop {ref : Bytes → Except DecodeError (Node × Bytes)} {bound : Nat}
    (fine : ∀ buf err, buf.length < bound → ref buf = .error err → err.what ≠ .loop) {hash : Option Bytes} {elems : Bytes}
    (short : elems.length < bound) (failed : x.decodeShort ref hash elems = .error err) : err.what ≠ .loop := by
  rw [decodeShort] at failed
  split at failed
  next => exact error.inj failed ▸ (by simp)
  next kbuf rest found =>
    have less := split_string_shorter lawful found
    by_cases term : hasTerm (compactToHex kbuf) = true
    · simp only [if_pos term] at failed
      split at failed
      next => exact error.inj failed ▸ (by simp)
      next => cases failed
    · simp only [if_neg term] at failed
      cases inner : wrapError "val" (ref rest) with
      | error other =>
        obtain rfl : other = err := by simpa [inner, Except.map] using failed
        obtain ⟨cause, thrown, same⟩ := wrap_error inner
        exact same ▸ fine rest cause (by omega) thrown
      | ok r => simp [inner, Except.map] at failed

omit lawful in
theorem decode_children_loop {ref : Bytes → Except DecodeError (Node × Bytes)} {bound : Nat}
    (fine : ∀ buf err, buf.length < bound → ref buf = .error err → err.what ≠ .loop)
    (shrinks : ∀ buf n rest, ref buf = .ok (n, rest) → rest.length < buf.length) (indices : List (Fin 17)) (before : Fin 17 → Node)
    (elems : Bytes) (short : elems.length < bound) (err : DecodeError) (failed : decodeChildren ref indices before elems = .error err) :
    err.what ≠ .loop := by
  induction indices generalizing before elems with
  | nil => cases failed
  | cons i indices ih =>
    rw [decodeChildren] at failed
    split at failed
    next other inner =>
      obtain rfl := error.inj failed
      obtain ⟨cause, thrown, same⟩ := wrap_error inner
      exact same ▸ fine elems cause short thrown
    next cld rest inner =>
      have less := shrinks elems cld rest (wrap_ok inner)
      exact ih _ rest (by omega) failed

omit lawful in
theorem decode_full_loop {ref : Bytes → Except DecodeError (Node × Bytes)} {bound : Nat}
    (fine : ∀ buf err, buf.length < bound → ref buf = .error err → err.what ≠ .loop)
    (shrinks : ∀ buf n rest, ref buf = .ok (n, rest) → rest.length < buf.length) {hash : Option Bytes} {elems : Bytes}
    (short : elems.length < bound) (failed : x.decodeFull ref hash elems = .error err) : err.what ≠ .loop := by
  rw [decodeFull] at failed
  split at failed
  next other inner =>
    obtain rfl := error.inj failed
    exact decode_children_loop fine shrinks _ _ elems short other inner
  next =>
    split at failed
    next => exact error.inj failed ▸ (by simp)
    next => cases failed

theorem decode_node_loop (fuel : Nat) (hash : Option Bytes) (buf : Bytes) (enough : buf.length < fuel) (err : DecodeError)
    (failed : x.decodeNode fuel hash buf = .error err) : err.what ≠ .loop := by
  induction fuel generalizing hash buf err with
  | zero => omega
  | succ fuel ih =>
    have fine (buf : Bytes) (err : DecodeError) (short : buf.length < fuel)
        (failed : x.decodeRef (x.decodeNode fuel none) buf = .error err) : err.what ≠ .loop :=
      decode_ref_loop (ih none buf short) err failed
    have shrinks (buf : Bytes) (n : Node) (rest : Bytes) (ok : x.decodeRef (x.decodeNode fuel none) buf = .ok (n, rest)) :
        rest.length < buf.length := decode_ref_rest lawful ok
    rw [decodeNode] at failed
    split at failed
    next => exact error.inj failed ▸ (by simp)
    next =>
      split at failed
      next => exact error.inj failed ▸ (by simp)
      next elems _ found =>
        have less := split_list_shorter lawful found
        split at failed
        next =>
          obtain ⟨cause, thrown, same⟩ := wrap_error failed
          exact same ▸ decode_short_loop lawful fine (by omega) thrown
        next =>
          obtain ⟨cause, thrown, same⟩ := wrap_error failed
          exact same ▸ decode_full_loop fine shrinks (by omega) thrown
        next => exact error.inj failed ▸ (by simp)

end Loops

inductive Found (n : Node) (key : Hex) : Except ProofError (Hex × Node) → Prop where
  | nil (rest : Hex) : Found n key (.ok (rest, .nil))
  | value (rest : Hex) (v : Bytes) : Found n key (.ok (rest, .value v))
  | hash (rest : Hex) (h : Bytes) (full : Terminated rest)
      (read : rest.length < key.length ∨ rest = key ∧ n.skips = some h) : Found n key (.ok (rest, .hash h))

theorem get_found (n : Node) (decoded : Decoded n) (key : Hex) (full : Terminated key) : Found n key (n.get key) := by
  induction n generalizing key with
  | nil => exact .nil key
  | value v => exact .value [] v
  | hash h => exact .hash key h full (.inr ⟨rfl, rfl⟩)
  | short k val flags ih =>
    cases decoded with
    | short below leaf =>
      rw [Node.get]
      split
      next inside =>
        obtain ⟨rest, rfl⟩ := inside
        rw [drop_left]
        by_cases ended : rest = []
        · subst ended
          rw [append_nil] at full ⊢
          obtain ⟨v, rfl⟩ := leaf (compact_terminated full).2
          exact .value [] v
        · have tail := (terminated_split full ended).2
          have found := ih below rest tail
          generalize val.get rest = result at found ⊢
          cases found with
          | nil rest => exact .nil rest
          | value rest v => exact .value rest v
          | hash after h more read =>
            refine .hash after h more ?_
            rw [length_append]
            by_cases empty : k = []
            · subst empty
              rcases read with less | ⟨same, skipped⟩
              · exact .inl (by simpa using less)
              · exact .inr ⟨by simpa using same, by simpa [Node.skips] using skipped⟩
            · have positive := length_pos_of_ne_nil empty
              rcases read with less | ⟨same, _⟩
              · omega
              · rw [same]
                omega
      next => exact .nil []
  | full children flags ih =>
    cases decoded with
    | full below last =>
      cases key with
      | nil => exact absurd full not_terminated_nil
      | cons i key =>
        rw [Node.get]
        rcases (terminated_cons_iff i key).mp full with ⟨rfl, rfl⟩ | ⟨_, tail⟩
        · rcases last with absent | ⟨v, present⟩
          · rw [absent]
            exact .nil []
          · rw [present]
            exact .value [] v
        · have found := ih i (below i) key tail
          generalize (children i).get key = result at found ⊢
          cases found with
          | nil rest => exact .nil rest
          | value rest v => exact .value rest v
          | hash after h more read =>
            refine .hash after h more (.inl ?_)
            rw [length_cons]
            rcases read with less | ⟨same, _⟩
            · omega
            · rw [same]
              omega

def Keyless (x : Codec) (proofDb : Bytes → Option Bytes) (next h : Bytes) : Prop :=
  ∃ buf n, proofDb h = some buf ∧ x.decodeNode (buf.length + 1) (some h) buf = .ok n ∧ n.skips = some next

-- An error is about the proof: the code does not crash, and decoding does not go round for ever.
def ProofError.Clean : ProofError → Prop
  | .missing _ _ => True
  | .bad _ err => err.what ≠ .loop
  | .panic | .loop => False

section Verify

variable (lawful : x.Lawful)

include lawful

variable (proofDb : Bytes → Option Bytes)

theorem round_cases (h : Bytes) (key : Hex) (full : Terminated key) :
    (∀ i, ∃ err, verifyRound x proofDb i h key = .error err ∧ err.Clean) ∨
      (∀ i, ∃ value nodes, verifyRound x proofDb i h key = .ok (.done value nodes)) ∨
      ∃ next rest, (∀ i, verifyRound x proofDb i h key = .ok (.again next rest)) ∧ Terminated rest ∧
        (rest.length < key.length ∨ rest = key ∧ Keyless x proofDb next h) := by
  simp only [verifyRound]
  cases stored : proofDb h with
  | none => exact .inl fun i => ⟨_, rfl, trivial⟩
  | some buf =>
    cases decoded : x.decodeNode (buf.length + 1) (some h) buf with
    | error err =>
      refine .inl fun i => ⟨.bad i err, ?_, decode_node_loop lawful _ _ _ (Nat.lt_succ_self _) err decoded⟩
      simp only [decoded]
    | ok n =>
      have found := get_found n (decode_node_decoded _ _ _ n decoded) key full
      simp only [decoded]
      generalize n.get key = result at found
      cases found with
      | nil rest => exact .inr (.inl fun i => ⟨_, _, rfl⟩)
      | value rest v => exact .inr (.inl fun i => ⟨_, _, rfl⟩)
      | hash rest next more read =>
        refine .inr (.inr ⟨next, rest, fun i => rfl, more, ?_⟩)
        rcases read with less | ⟨same, skipped⟩
        · exact .inl less
        · exact .inr ⟨same, buf, n, stored, decoded, skipped⟩

theorem verify_clean (fuel i : Nat) (h : Bytes) (key : Hex) (full : Terminated key) (err : ProofError)
    (failed : verifyProof x proofDb fuel i h key = .error err) : err = .loop ∨ err.Clean := by
  induction fuel generalizing i h key with
  | zero => exact .inl (error.inj failed).symm
  | succ fuel ih =>
    rw [verifyProof] at failed
    rcases round_cases lawful proofDb h key full with ends | ends | ⟨next, rest, goes, more, _⟩
    · obtain ⟨other, eq, fine⟩ := ends i
      rw [eq] at failed
      exact .inr (error.inj failed ▸ fine)
    · obtain ⟨value, nodes, eq⟩ := ends i
      rw [eq] at failed
      cases failed
    · rw [goes i] at failed
      exact ih (i + 1) next rest more failed

theorem verify_ends {proofDb : Bytes → Option Bytes} (acyclic : WellFounded (Keyless x proofDb)) (h : Bytes) (key : Hex)
    (full : Terminated key) :
    ∃ fuel, ∀ i, verifyProof x proofDb fuel i h key ≠ .error .loop := by
  induction size : key.length using Nat.strong_induction_on generalizing h key with
  | _ size shorter =>
    induction h using acyclic.induction with
    | _ h linked =>
      rcases round_cases lawful proofDb h key full with ends | ends | ⟨next, rest, goes, more, read⟩
      · refine ⟨1, fun i failed => ?_⟩
        obtain ⟨err, eq, fine⟩ := ends i
        rw [verifyProof, eq] at failed
        obtain rfl := error.inj failed
        exact fine
      · refine ⟨1, fun i failed => ?_⟩
        obtain ⟨value, nodes, eq⟩ := ends i
        rw [verifyProof, eq] at failed
        cases failed
      · have later : ∃ fuel, ∀ i, verifyProof x proofDb fuel i next rest ≠ .error .loop := by
          rcases read with less | ⟨same, link⟩
          · exact shorter rest.length (size ▸ less) next rest more rfl
          · rw [same]
            exact linked next link
        obtain ⟨fuel, fine⟩ := later
        refine ⟨fuel + 1, fun i => ?_⟩
        rw [verifyProof, goes i]
        exact fine (i + 1)

end Verify

end Decoder

inductive Reaches : Patricia → Hex → Patricia → Hex → Prop where
  | here {t : Patricia} {key : Hex} : Reaches t key t key
  | short {k r rest : Hex} {t w : Patricia} (below : Reaches t r w rest) : Reaches (.short k t) (k ++ r) w rest
  | full {c : Fin 17 → Patricia} {s : Fin 17} {r rest : Hex} {w : Patricia} (below : Reaches (c s) r w rest) :
      Reaches (.full c) (s :: r) w rest

theorem reaches_trans {t u w : Patricia} {key mid rest : Hex} (first : Reaches t key u mid) (second : Reaches u mid w rest) :
    Reaches t key w rest := by
  induction first with
  | here => exact second
  | short _ ih => exact .short (ih second)
  | full _ ih => exact .full (ih second)

section Walk

variable {x : Codec}

theorem reaches_below {P : Patricia → Prop} {t w : Patricia} {key rest : Hex} (reach : Reaches t key w rest)
    (here : x.Large t → P t) (below : x.Below P t) : (x.Large w → P w) ∧ x.Below P w := by
  induction reach with
  | here => exact ⟨here, below⟩
  | short _ ih => exact ih below.1 below.2
  | @full c s r rest w _ ih => exact ih (below s).1 (below s).2

inductive Walked (x : Codec) (u : Patricia) (key : Hex) (bound : Nat) : Except ProofError (Hex × Node) → Prop where
  | nil (rest : Hex) (absent : u.get key = none) : Walked x u key bound (.ok (rest, .nil))
  | value (rest : Hex) (v : Value) (there : u.get key = some v) : Walked x u key bound (.ok (rest, .value v.1))
  | hash (w : Patricia) (rest : Hex) (normal : w.Normal) (large : x.Large w) (full : Terminated rest) (same : w.get rest = u.get key)
      (reach : Reaches u key w rest) (less : rest.length < bound) : Walked x u key bound (.ok (rest, .hash (x.digest w)))

theorem walked_up {t u : Patricia} {r key : Hex} {low high : Nat} {result : Except ProofError (Hex × Node)}
    (walked : Walked x t r low result) (same : u.get key = t.get r) (up : ∀ w rest, Reaches t r w rest → Reaches u key w rest)
    (more : low ≤ high) : Walked x u key high result := by
  cases walked with
  | nil rest absent => exact .nil rest (same.trans absent)
  | value rest v there => exact .value rest v (same.trans there)
  | hash w rest normal large full equal reach less =>
    exact .hash w rest normal large full (equal.trans same.symm) (up w rest reach) (by omega)

theorem walk_refer {t : Patricia} {r : Hex} (normal : t.Normal) (full : Terminated r)
    (embedded : Walked x t r r.length ((expandNode none (x.collapse t)).get r)) :
    Walked x t r (r.length + 1) ((expandNode none (x.refer (x.collapse t))).get r) := by
  by_cases large : x.Large t
  · rw [refer_large large]
    exact .hash t r normal large full rfl .here (Nat.lt_succ_self _)
  · rw [refer_small large]
    exact walked_up embedded rfl (fun _ _ reach => reach) (by omega)

theorem walk_collapse (u : Patricia) (normal : u.Normal) (key : Hex) (full : Terminated key) (hash : Option Bytes) :
    Walked x u key key.length ((expandNode hash (x.collapse u)).get key) := by
  induction u generalizing key hash with
  | nil => cases normal
  | value => cases normal
  | short k t ih =>
    have compact : compactToHex (hexToCompact k) = k := by
      cases normal with
      | leaf key => exact (compact_terminated key).1
      | extension _ plain _ => exact (compact_plain plain).1
    rw [collapse, expandNode, compact, Node.get]
    by_cases inside : k <+: key
    · obtain ⟨r, rfl⟩ := inside
      have positive := length_pos_of_ne_nil (short_key_ne_nil normal)
      obtain ⟨tail, _, stops⟩ := Tree.short_rests normal full
      rw [if_pos (prefix_append k r), drop_left]
      cases normal with
      | @leaf _ v _ =>
        obtain rfl := stops.mpr ⟨v, rfl⟩
        exact .value [] v (Tree.get_short_append k [] (.value v))
      | @extension _ c _ plain below =>
        have rest : Terminated r := (terminated_append k r plain).mp full
        refine walked_up (walk_refer below rest (ih below r rest none)) (Tree.get_short_append k r _) (fun _ _ => .short) ?_
        rw [length_append]
        omega
    · rw [if_neg inside]
      exact .nil [] (Tree.get_short_outside k key t inside)
  | full c ih =>
    have children := ((Tree.normal_full_iff c).mp normal).1
    cases key with
    | nil => exact absurd full not_terminated_nil
    | cons s r =>
      rw [collapse, expandNode, Node.get]
      by_cases absent : c s = .nil
      · rw [absent]
        exact .nil r (by rw [Tree.get_full, absent, Tree.get_nil])
      rcases (terminated_cons_iff s r).mp full with ⟨rfl, rfl⟩ | ⟨plain, rest⟩
      · obtain ⟨v, present⟩ := Tree.child_value (children _) absent
        rw [present]
        exact .value [] v (by rw [Tree.get_full, present, Tree.get_value])
      · have below := Tree.child_normal (children s) plain absent
        exact walked_up (walk_refer below rest (ih s below r rest none)) rfl (fun _ _ => .full) (by simp)

theorem round_tree (lawful : x.Lawful) {proofDb : Bytes → Option Bytes} {u : Patricia} (normal : u.Normal)
    (stored : proofDb (x.digest u) = some (x.encoding u)) {key : Hex} (full : Terminated key) (i : Nat) :
    (∃ nodes, verifyRound x proofDb i (x.digest u) key = .ok (.done ((u.get key).map (·.1)) nodes)) ∨
      ∃ w rest, verifyRound x proofDb i (x.digest u) key = .ok (.again (x.digest w) rest) ∧ w.Normal ∧ x.Large w ∧ Terminated rest ∧
        w.get rest = u.get key ∧ Reaches u key w rest ∧ rest.length < key.length := by
  have decoded := decode_encoding lawful u normal (some (x.digest u)) _ (Nat.lt_succ_self _)
  have walked := walk_collapse (x := x) u normal key full (some (x.digest u))
  rw [verifyRound, stored]
  simp only [decoded]
  generalize (expandNode (some (x.digest u)) (x.collapse u)).get key = result at walked
  cases walked with
  | nil rest absent => exact .inl ⟨i, by simp [absent]⟩
  | value rest v there => exact .inl ⟨i + 1, by simp [there]⟩
  | hash w rest normal large tail same reach less => exact .inr ⟨w, rest, rfl, normal, large, tail, same, reach, less⟩

theorem verify_sound (lawful : x.Lawful) {known : Set Bytes} (apart : Set.InjOn x.keccak known) {proofDb : Bytes → Option Bytes}
    (own : ∀ h b, proofDb h = some b → x.keccak b = h ∧ b ∈ known) (fuel i : Nat) (u : Patricia) (normal : u.Normal)
    (here : x.encoding u ∈ known) (below : x.Below (fun w => x.encoding w ∈ known) u) (key : Hex) (full : Terminated key)
    (v : Option Bytes) (nodes : Nat) (ok : verifyProof x proofDb fuel i (x.digest u) key = .ok (v, nodes)) :
    v = (u.get key).map (·.1) := by
  induction fuel generalizing i u key with
  | zero => cases ok
  | succ fuel ih =>
    rw [verifyProof] at ok
    cases stored : proofDb (x.digest u) with
    | none =>
      rw [verifyRound, stored] at ok
      cases ok
    | some buf =>
      -- The string under the digest is the encoding: no other has its hash.
      obtain ⟨hash, member⟩ := own _ _ stored
      have genuine : buf = x.encoding u := apart member here hash
      rw [genuine] at stored
      rcases round_tree lawful normal stored full i with ⟨count, round⟩ | ⟨w, rest, round, tail, large, more, same, reach, _⟩
      · rw [round] at ok
        exact (Prod.mk.inj (Except.ok.inj ok)).1.symm
      · rw [round] at ok
        obtain ⟨there, under⟩ := reaches_below reach (fun _ => here) below
        rw [← same]
        exact ih (i + 1) w tail (there large) under rest more ok

theorem verify_complete (lawful : x.Lawful) {proofDb : Bytes → Option Bytes} (fuel i : Nat) (u : Patricia) (normal : u.Normal) (key : Hex)
    (full : Terminated key) (enough : key.length < fuel)
    (has : ∀ w rest, Reaches u key w rest → w = u ∨ x.Large w → proofDb (x.digest w) = some (x.encoding w)) :
    ∃ nodes, verifyProof x proofDb fuel i (x.digest u) key = .ok ((u.get key).map (·.1), nodes) := by
  induction fuel generalizing i u key with
  | zero => omega
  | succ fuel ih =>
    rw [verifyProof]
    rcases round_tree lawful normal (has u key .here (.inl rfl)) full i with
      ⟨count, round⟩ | ⟨w, rest, round, tail, large, more, same, reach, less⟩
    · exact ⟨count, by rw [round]⟩
    · rw [round, ← same]
      refine ih (i + 1) w tail rest more (by omega) fun v left further which => ?_
      refine has v left (reaches_trans reach further) (.inr ?_)
      rcases which with rfl | big
      · exact large
      · exact big

end Walk

section Prove

variable {x : Codec} {g : Ground}

inductive PathOk (x : Codec) (g : Ground) : Bool → Patricia → Hex → List Node → Prop where
  | none {force : Bool} {t : Patricia} {key : Hex} (leaf : t = .nil ∨ ∃ v, t = .value v) : PathOk x g force t key []
  | outside {force : Bool} {k key : Hex} {t : Patricia} {n : Node} (normal : (Tree.short k t).Normal) (rep : Rep x g force (.short k t) n)
      (loaded : n.steps = 0) (other : ¬ k <+: key) : PathOk x g force (.short k t) key [n]
  | short {force : Bool} {k r : Hex} {t : Patricia} {n : Node} {nodes : List Node} (normal : (Tree.short k t).Normal)
      (rep : Rep x g force (.short k t) n) (loaded : n.steps = 0) (below : PathOk x g false t r nodes) :
      PathOk x g force (.short k t) (k ++ r) (n :: nodes)
  | full {force : Bool} {c : Fin 17 → Patricia} {s : Fin 17} {r : Hex} {n : Node} {nodes : List Node} (normal : (Tree.full c).Normal)
      (rep : Rep x g force (.full c) n) (loaded : n.steps = 0) (below : PathOk x g false (c s) r nodes) :
      PathOk x g force (.full c) (s :: r) (n :: nodes)

theorem path_ok (lawful : x.Lawful) (ok : GroundOk x g) (apart : Set.InjOn x.keccak g.known) (fuel : Nat) (force : Bool) (t : Patricia)
    (n : Node) (key : Hex) (rep : Rep x g force t n) (full : key = [] ∨ Terminated key) (fits : t.Fits key)
    (enough : 2 * key.length + n.steps < fuel) : ∃ nodes, n.path x g.db fuel key = .ok nodes ∧ PathOk x g force t key nodes := by
  induction fuel generalizing force t n key with
  | zero => omega
  | succ fuel ih =>
    rcases full with rfl | full
    · exact ⟨[], by cases n <;> simp [Node.path], .none (Tree.fits_end fits)⟩
    have more := Tree.key_ne_nil full
    by_cases absent : t = .nil
    · have gone : n.isNil = true := by rw [rep_nil_iff rep, absent]; rfl
      exact ⟨[], by cases n <;> simp [Node.path, gone], .none (.inl absent)⟩
    have present : ¬ (key = [] ∨ n.isNil = true) := by
      rw [rep_nil_iff rep, Tree.is_nil_iff]
      exact fun either => either.elim more absent
    have normal := Tree.fits_more more fits absent
    cases rep with
    | nil => exact absurd rfl absent
    | value => cases normal
    | @short _ k t n flags below flagged =>
      have whole : Rep x g force (.short k t) (.short k n flags) := .short below flagged
      by_cases inside : k <+: key
      · obtain ⟨rest, rfl⟩ := inside
        have some := length_pos_of_ne_nil (short_key_ne_nil normal)
        obtain ⟨tail, under, _⟩ := Tree.short_rests normal full
        have bound := steps_le n
        rw [length_append] at enough
        obtain ⟨nodes, done, path⟩ := ih false t n rest below tail under (by omega)
        refine ⟨.short k n flags :: nodes, ?_, .short normal whole rfl path⟩
        rw [Node.path, if_neg present, if_pos (prefix_append k rest), drop_left, done]
        rfl
      · exact ⟨[.short k n flags], by rw [Node.path, if_neg present, if_neg inside], .outside normal whole rfl inside⟩
    | @full _ c d flags below flagged =>
      have whole : Rep x g force (.full c) (.full d flags) := .full below flagged
      obtain ⟨s, rest, rfl, -, -, tail, under⟩ := Tree.full_key (.inr full) fits
      have bound := steps_le (d s)
      rw [length_cons] at enough
      obtain ⟨nodes, done, path⟩ := ih false (c s) (d s) rest (below s) tail under (by omega)
      refine ⟨.full d flags :: nodes, ?_, .full normal whole rfl path⟩
      rw [Node.path, done]
      rfl
    | hash sized there below _ =>
      obtain ⟨child, loaded, rep, quiet⟩ := resolve_rep lawful ok apart sized there below normal []
      rw [Node.steps] at enough
      obtain ⟨nodes, done, path⟩ := ih force t child key rep (.inr full) fits (by omega)
      refine ⟨nodes, ?_, path⟩
      rw [Node.path, if_neg present, loaded]
      exact done

variable {force : Bool} {t : Patricia} {key : Hex}

theorem collapsed_rep {n : Node} (normal : t.Normal) (rep : Rep x g force t n) (loaded : n.steps = 0) :
    n.collapsed x = x.collapse t ∧ ∀ h, n.flagHash = some h → h = x.digest t := by
  have more : g.Extends ⟨g.db, Set.univ⟩ := ⟨fun _ has => has, fun _ _ => trivial⟩
  have free (blobs : List (Bytes × Raw)) : Taken x ⟨g.db, Set.univ⟩ false blobs := fun _ _ => ⟨trivial, nofun⟩
  cases rep with
  | nil => cases normal
  | value => cases normal
  | @short _ k t n flags below ok =>
    have child := child_ok false more below (short_child normal below) (fun tail taken => hash_ok more t n tail below taken) (free _)
    refine ⟨?_, fun h eq => (ok.cached h eq).1⟩
    rw [Node.collapsed, child.hashed]
    rfl
  | @full _ c d flags below ok =>
    refine ⟨?_, fun h eq => (ok.cached h eq).1⟩
    rw [Node.collapsed]
    congr 1
    funext i
    have child := child_ok false more (below i) (full_child normal (below i))
      (fun tail taken => hash_ok more (c i) (d i) tail (below i) taken) (free _)
    rw [child.hashed]
    rfl
  | hash => simp [Node.steps] at loaded

theorem element_rep {n : Node} {first : Bool} (normal : t.Normal) (rep : Rep x g force t n) (loaded : n.steps = 0) :
    (first = true ∨ x.Large t → n.element x first = some (x.digest t, x.encoding t)) ∧
      (¬ (first = true ∨ x.Large t) → n.element x first = none) := by
  obtain ⟨raw, named⟩ := collapsed_rep normal rep loaded
  obtain ⟨stored, _, _⟩ := store_collapse false normal n.flagHash named
  simp only [Node.element, raw, stored]
  by_cases large : x.Large t
  · rw [stands_sized (.inr large)]
    exact ⟨fun _ => rfl, fun neither => absurd (.inr large) neither⟩
  · have small : ¬ Sized x false t := fun sized => large (sized.resolve_left Bool.false_ne_true)
    rw [stands_small small]
    cases first with
    | true => exact ⟨fun _ => by cases normal <;> rfl, fun neither => absurd (.inl rfl) neither⟩
    | false => exact ⟨fun either => absurd (either.resolve_left Bool.false_ne_true) large, fun _ => by cases normal <;> rfl⟩

theorem reaches_short {k key rest : Hex} {t w : Patricia} (reach : Reaches (.short k t) key w rest) :
    w = .short k t ∨ ∃ r, key = k ++ r ∧ Reaches t r w rest := by
  cases reach with
  | here => exact .inl rfl
  | short below => exact .inr ⟨_, rfl, below⟩

theorem reaches_full {c : Fin 17 → Patricia} {s : Fin 17} {r rest : Hex} {w : Patricia} (reach : Reaches (.full c) (s :: r) w rest) :
    w = .full c ∨ Reaches (c s) r w rest := by
  cases reach with
  | here => exact .inl rfl
  | full below => exact .inr below

theorem not_large_leaf (leaf : t = .nil ∨ ∃ v, t = .value v) : ¬ x.Large t := by
  rcases leaf with rfl | ⟨v, rfl⟩ <;> simp [Codec.Large, collapse, Raw.isBranch]

theorem reaches_leaf {w : Patricia} {key rest : Hex} (leaf : t = .nil ∨ ∃ v, t = .value v)
    (reach : Reaches t key w rest) : w = t := by
  rcases leaf with rfl | ⟨v, rfl⟩ <;> cases reach <;> rfl

variable {nodes : List Node} (path : PathOk x g force t key nodes)

include path

theorem mem_elements_iff (e : Bytes × Bytes) :
    e ∈ nodes.filterMap (Node.element x false) ↔ ∃ w rest, Reaches t key w rest ∧ x.Large w ∧ e = (x.digest w, x.encoding w) := by
  have own {force : Bool} {u : Patricia} {n : Node} (normal : u.Normal) (rep : Rep x g force u n) (loaded : n.steps = 0) :
      n.element x false = some e ↔ x.Large u ∧ e = (x.digest u, x.encoding u) := by
    obtain ⟨large, small⟩ := element_rep normal rep loaded
    by_cases big : x.Large u
    · rw [large (.inr big), some.injEq]
      exact ⟨fun eq => ⟨big, eq.symm⟩, fun eq => eq.2.symm⟩
    · rw [small fun either => big (either.resolve_left Bool.false_ne_true)]
      exact ⟨nofun, fun eq => absurd eq.1 big⟩
  -- Below its first node a path goes on in one subtree.
  have step {force : Bool} {u v : Patricia} {key r : Hex} {n : Node} {nodes : List Node} (normal : u.Normal) (rep : Rep x g force u n)
      (loaded : n.steps = 0) (up : ∀ w rest, Reaches v r w rest → Reaches u key w rest)
      (down : ∀ w rest, Reaches u key w rest → w = u ∨ Reaches v r w rest)
      (ih : e ∈ nodes.filterMap (Node.element x false) ↔ ∃ w rest, Reaches v r w rest ∧ x.Large w ∧ e = (x.digest w, x.encoding w)) :
      e ∈ (n :: nodes).filterMap (Node.element x false) ↔
        ∃ w rest, Reaches u key w rest ∧ x.Large w ∧ e = (x.digest w, x.encoding w) := by
    rw [mem_filterMap] at ih ⊢
    rw [exists_mem_cons_iff, own normal rep loaded, ih]
    constructor
    · rintro (⟨large, eq⟩ | ⟨w, rest, reach, large, eq⟩)
      · exact ⟨u, key, .here, large, eq⟩
      · exact ⟨w, rest, up w rest reach, large, eq⟩
    · rintro ⟨w, rest, reach, large, eq⟩
      rcases down w rest reach with rfl | deeper
      · exact .inl ⟨large, eq⟩
      · exact .inr ⟨w, rest, deeper, large, eq⟩
  induction path with
  | none leaf =>
    refine ⟨nofun, ?_⟩
    rintro ⟨w, rest, reach, large, _⟩
    rw [reaches_leaf leaf reach] at large
    exact absurd large (not_large_leaf leaf)
  | @outside force k key t n normal rep loaded other =>
    rw [mem_filterMap]
    constructor
    · rintro ⟨m, member, eq⟩
      rw [mem_singleton] at member
      subst member
      exact ⟨_, key, .here, (own normal rep loaded).mp eq⟩
    · rintro ⟨w, rest, reach, large, eq⟩
      rcases reaches_short reach with rfl | ⟨r, rfl, _⟩
      · exact ⟨n, by simp, (own normal rep loaded).mpr ⟨large, eq⟩⟩
      · exact absurd (prefix_append k r) other
  | @short force k r t n nodes normal rep loaded below ih =>
    refine step normal rep loaded (fun _ _ => .short) (fun w rest reach => ?_) ih
    rcases reaches_short reach with rfl | ⟨q, same, deeper⟩
    · exact .inl rfl
    · exact .inr (append_cancel_left same ▸ deeper)
  | @full force c s r n nodes normal rep loaded below ih =>
    exact step normal rep loaded (fun _ _ => .full) (fun _ _ => reaches_full) ih

theorem path_head (normal : t.Normal) :
    ∃ n tail, nodes = n :: tail ∧ Rep x g force t n ∧ n.steps = 0 := by
  cases path with
  | none leaf => rcases leaf with rfl | ⟨v, rfl⟩ <;> cases normal
  | outside _ rep loaded _ => exact ⟨_, _, rfl, rep, loaded⟩
  | short _ rep loaded _ => exact ⟨_, _, rfl, rep, loaded⟩
  | full _ rep loaded _ => exact ⟨_, _, rfl, rep, loaded⟩

theorem mem_proof_iff (normal : t.Normal) (e : Bytes × Bytes) :
    e ∈ Node.elements x nodes ↔ ∃ w rest, Reaches t key w rest ∧ (w = t ∨ x.Large w) ∧ e = (x.digest w, x.encoding w) := by
  have others := mem_elements_iff path e
  obtain ⟨n, tail, rfl, rep, loaded⟩ := path_head path normal
  have root := (element_rep normal rep loaded).1 (.inl rfl)
  rw [Node.elements, root, toList_some, mem_append, mem_singleton]
  constructor
  · rintro (rfl | later)
    · exact ⟨t, key, .here, .inl rfl, rfl⟩
    · obtain ⟨m, member, eq⟩ := mem_filterMap.mp later
      obtain ⟨w, rest, reach, large, same⟩ := others.mp (mem_filterMap.mpr ⟨m, by simp [member], eq⟩)
      exact ⟨w, rest, reach, .inr large, same⟩
  · rintro ⟨w, rest, reach, rfl | large, rfl⟩
    · exact .inl rfl
    · obtain ⟨m, member, eq⟩ := mem_filterMap.mp (others.mpr ⟨w, rest, reach, large, rfl⟩)
      rcases mem_cons.mp member with rfl | later
      · obtain ⟨big, small⟩ := element_rep normal rep loaded
        by_cases sized : x.Large t
        · rw [big (.inr sized)] at eq
          exact .inl (some.inj eq).symm
        · rw [small fun either => sized (either.resolve_left Bool.false_ne_true)] at eq
          cases eq
      · exact .inr (mem_filterMap.mpr ⟨m, later, eq⟩)

omit path

theorem proof_db_found {elements : List (Bytes × Bytes)} {known : Set Bytes} (apart : Set.InjOn x.keccak known)
    (own : ∀ e ∈ elements, e.1 = x.keccak e.2 ∧ e.2 ∈ known) {e : Bytes × Bytes} (member : e ∈ elements) :
    proofDb elements e.1 = some e.2 := by
  have some : (elements.reverse.find? fun d => d.1 = e.1).isSome = true := find?_isSome.mpr ⟨e, by simpa using member, by simp⟩
  obtain ⟨d, found⟩ := isSome_iff_exists.mp some
  have same : d.1 = e.1 := by simpa using find?_some found
  have there : d ∈ elements := by simpa using mem_of_find?_eq_some found
  have equal : d.2 = e.2 := by
    refine apart (own d there).2 (own e member).2 ?_
    rw [← (own d there).1, ← (own e member).1, same]
  rw [proofDb, found, map_some, equal]

end Prove

theorem prove_complete {x : Codec} (lawful : x.Lawful) {s : State} {l : Ledger} (inv : Inv x s l) (apart : x.NoCollision s.hashed)
    {t : Patricia}
    (holds : Holds t l.map) (rep : Rep x s.ground true t s.root) (normal : t.Normal) {known : Set Bytes}
    (collide : Set.InjOn x.keccak known)
    (here : x.encoding t ∈ known) (below : x.Below (fun w => x.encoding w ∈ known) t) {key : Bytes} :
    ∃ elements fuel nodes, s.prove x key 0 = .ok elements ∧
      verifyProof x (proofDb elements) fuel 0 (x.digest t) (keybytesToHex key) = .ok (l.map key, nodes) := by
  have full := keybytes_terminated key
  obtain ⟨path, done, ok⟩ := path_ok lawful inv.ground apart.apart _ true t s.root _ rep (.inr full) (holds_fits holds key)
    (fuel_enough s.root _)
  have own (e : Bytes × Bytes) (member : e ∈ Node.elements x path) : e.1 = x.keccak e.2 ∧ e.2 ∈ known := by
    obtain ⟨w, rest, reach, which, rfl⟩ := (mem_proof_iff ok normal e).mp member
    refine ⟨rfl, ?_⟩
    rcases which with rfl | large
    · exact here
    · exact (reaches_below reach (fun _ => here) below).1 large
  have has (w : Patricia) (rest : Hex) (reach : Reaches t (keybytesToHex key) w rest) (which : w = t ∨ x.Large w) :
      proofDb (Node.elements x path) (x.digest w) = some (x.encoding w) :=
    proof_db_found collide own ((mem_proof_iff ok normal (x.digest w, x.encoding w)).mpr ⟨w, rest, reach, which, rfl⟩)
  obtain ⟨nodes, verified⟩ := verify_complete lawful _ 0 t normal _ full (Nat.lt_succ_self _) has
  rw [holds.values key] at verified
  refine ⟨Node.elements x path, _, nodes, ?_, verified⟩
  have done : s.root.path x s.db (State.fuel (keybytesToHex key)) (keybytesToHex key) = .ok path := done
  rw [State.prove]
  simp only [done]
  rfl

variable {i : Nat} {key : Hex}

theorem empty_root_fails {x : Codec} (lawful : x.Lawful) {proofDb : Bytes → Option Bytes} {known : Set Bytes}
    (apart : Set.InjOn x.keccak known)
    (own : ∀ h b, proofDb h = some b → x.keccak b = h ∧ b ∈ known) (empty : x.encode .string [] ∈ known) {fuel : Nat}
    {r : Option Bytes × Nat} : verifyProof x proofDb fuel i x.emptyRoot key ≠ .ok r := by
  cases fuel with
  | zero => rintro ⟨⟩
  | succ fuel =>
    rw [verifyProof, verifyRound]
    cases stored : proofDb x.emptyRoot with
    | none => rintro ⟨⟩
    | some buf =>
      obtain ⟨hash, member⟩ := own _ _ stored
      obtain rfl : buf = x.encode .string [] := apart member empty hash
      have unread : x.splitList (x.encode .string []) = none := by
        rw [splitList]
        have read := lawful.reads .string [] []
        rw [append_nil] at read
        rw [read]
      simp only [decodeNode, if_neg (lawful.starts .string []), unread]
      rintro ⟨⟩

-- Proofs of what the trie holds verify, nothing else does, and verification ends without a crash wherever no chain of
-- key-less nodes comes back to itself.
theorem proofs_complete_and_sound {x : Codec} (lawful : x.Lawful) :
    (∀ s l, History x s l → x.NoCollision (s.strings x) → ∃ root next, s.step x .hash = .ok (.root root, next) ∧
      ((∃ k, l.map k ≠ none) → ∀ key, ∃ elements fuel nodes, s.prove x key 0 = .ok elements ∧
        verifyProof x (proofDb elements) fuel 0 root (keybytesToHex key) = .ok (l.map key, nodes)) ∧
      ∀ db : Bytes → Option Bytes, (∀ h b, db h = some b → x.keccak b = h) →
        Set.InjOn x.keccak ({ b | b ∈ s.strings x } ∪ { b | ∃ h, db h = some b }) →
        ∀ fuel key v nodes, verifyProof x db fuel 0 root (keybytesToHex key) = .ok (v, nodes) → v = l.map key) ∧
      ∀ (db : Bytes → Option Bytes) root key,
        (∀ fuel err, verifyProof x db fuel 0 root (keybytesToHex key) = .error err → err = .loop ∨ err.Clean) ∧
        (WellFounded (Keyless x db) → ∃ fuel, verifyProof x db fuel 0 root (keybytesToHex key) ≠ .error .loop) := by
  refine ⟨fun s l history apart => ?_, fun db root key => ⟨fun fuel err => ?_, fun acyclic => ?_⟩⟩
  · have before := no_collision_mono apart (subset_append_left s.hashed _)
    have inv := history_inv lawful history before
    obtain ⟨t, next, holds, done, _, grown, known⟩ := hash_step inv
    rw [hash_strings done] at known
    obtain ⟨u, also, rep⟩ := inv.trie
    obtain rfl := holds_unique holds also
    refine ⟨_, next, done, fun present key => ?_, fun db own collide fuel key v nodes verified => ?_⟩
    · obtain ⟨k, some⟩ := present
      have shape : t ≠ .nil := by
        rintro rfl
        exact some (holds.values k).symm
      have normal := holds.shape.resolve_left shape
      rw [root_hash_normal normal]
      exact prove_complete lawful inv before holds rep normal apart.apart (known shape).1 (known shape).2
    · have owned (h b : Bytes) (found : db h = some b) :
          x.keccak b = h ∧ b ∈ { b | b ∈ s.strings x } ∪ { b | ∃ h, db h = some b } := ⟨own h b found, .inr ⟨h, found⟩⟩
      rcases holds.shape with rfl | normal
      · have empty : x.encode .string [] ∈ s.strings x := mem_append_left _ inv.empty
        exact absurd verified (empty_root_fails lawful collide owned (Set.mem_union_left _ empty))
      · obtain ⟨here, below⟩ := known (Tree.normal_ne_nil normal)
        rw [root_hash_normal normal] at verified
        rw [← holds.values key]
        exact verify_sound lawful collide owned fuel 0 t normal (Set.mem_union_left _ here)
          (below_mono (fun _ member => Set.mem_union_left _ member) t below) _ (keybytes_terminated key) v nodes verified
  · exact verify_clean lawful db fuel 0 root _ (keybytes_terminated key) err
  · obtain ⟨fuel, fine⟩ := verify_ends lawful acyclic root _ (keybytes_terminated key)
    exact ⟨fuel, fine 0⟩

theorem rehashed_lawful {keccak : Bytes → Bytes} (size : ∀ data, (keccak data).length = 32) :
    Codec.Lawful { Unary.codec with keccak := keccak } :=
  ⟨Unary.lawful.reads, Unary.lawful.canonical, Unary.lawful.starts, Unary.lawful.grows, size⟩

-- A hash that keeps the two nodes of the branched trie apart.
def summed : Codec := { Unary.codec with keccak := fun data => data.sum :: (replicate 31 7 ++ data).drop data.length }

theorem summed_lawful : summed.Lawful := by
  apply rehashed_lawful
  intro data
  simp only [length_cons, length_drop, length_append, length_replicate]
  omega

def branchedLedger : Ledger := leafLedger.next (.tryUpdate [0x13, 0x40] [8]) .done

theorem branched_history : History summed branched branchedLedger := by
  have first : History summed leaf leafLedger := .call .start trivial (by rfl)
  exact .call first trivial (by rfl)

def collection (x : Codec) (items : List Bytes) (h : Bytes) : Option Bytes := items.find? fun b => x.keccak b = h

def skipped (x : Codec) (b : Bytes) : Option Bytes :=
  match x.decodeNode (b.length + 1) (some (x.keccak b)) b with
  | .ok n => n.skips
  | .error _ => none

theorem collection_ends {x : Codec} {items : List Bytes} (rank : Bytes → Nat)
    (falls : ∀ b ∈ items, ∀ next ∈ skipped x b, rank next < rank (x.keccak b)) : WellFounded (Keyless x (collection x items)) := by
  refine Subrelation.wf (r := InvImage (· < ·) rank) ?_ (InvImage.wf rank wellFounded_lt)
  rintro next h ⟨b, n, found, decoded, skips⟩
  obtain rfl : x.keccak b = h := by simpa using find?_some found
  exact falls b (mem_of_find?_eq_some found) next (by simp [skipped, decoded, skips])

-- The nodes of the trie, and for each of them one with an empty key that leads to it.
def offered : List Bytes :=
  let nodes := branched.strings summed
  nodes ++ nodes.map fun b => summed.encodeNode (.short [0] (.hash (summed.keccak b)))

theorem proofs_complete_and_sound_branch : ∃ root next, branched.step summed .hash = .ok (.root root, next) ∧
    (∃ elements fuel nodes, branched.prove summed [0x12] 0 = .ok elements ∧
      verifyProof summed (proofDb elements) fuel 0 root (keybytesToHex [0x12]) = .ok (some [7], nodes)) ∧
    (∃ elements fuel nodes, branched.prove summed [0x14] 0 = .ok elements ∧
      verifyProof summed (proofDb elements) fuel 0 root (keybytesToHex [0x14]) = .ok (none, nodes)) ∧
    (∀ fuel v nodes, verifyProof summed (collection summed offered) fuel 0 root (keybytesToHex [0x13, 0x40]) = .ok (v, nodes) →
      v = some [8]) ∧
    ∃ fuel, verifyProof summed (collection summed offered) fuel 0 root (keybytesToHex [0x13, 0x40]) ≠ .error .loop := by
  have apart : ∀ a ∈ offered, ∀ b ∈ offered, summed.keccak a = summed.keccak b → a = b := by decide +kernel
  have inside : ∀ b ∈ branched.strings summed, b ∈ offered := fun b member => mem_append_left _ member
  have nonzero : ∀ b ∈ branched.strings summed, summed.keccak b ≠ zeroHash := by decide +kernel
  obtain ⟨whole, always⟩ := proofs_complete_and_sound summed_lawful
  obtain ⟨root, next, done, complete, sound⟩ := whole branched branchedLedger branched_history
    ⟨fun a one b two => apart a (inside a one) b (inside b two), nonzero⟩
  have complete := complete ⟨[0x12], nofun⟩
  have owned : ∀ h b, collection summed offered h = some b → summed.keccak b = h := fun h b found => by simpa using find?_some found
  have listed : ∀ b, (b ∈ branched.strings summed ∨ ∃ h, collection summed offered h = some b) → b ∈ offered := by
    rintro b (member | ⟨h, found⟩)
    · exact inside b member
    · exact mem_of_find?_eq_some found
  refine ⟨root, next, done, complete [0x12], complete [0x14], fun fuel v nodes => ?_, ?_⟩
  · exact sound (collection summed offered) owned (fun a one b two => apart a (listed a one) b (listed b two)) fuel [0x13, 0x40] v nodes
  · exact (always (collection summed offered) root [0x13, 0x40]).2 
      (collection_ends (fun h => if h ∈ (branched.strings summed).map summed.keccak then 0 else 1) (by decide +kernel))

def knot : Bytes := Unary.codec.encodeNode (.short [0] (.hash (replicate 32 9)))

def knotted : Codec := { Unary.codec with keccak := fun data => if data = knot then replicate 32 9 else Unary.codec.keccak data }

def knotDb (h : Bytes) : Option Bytes := if h = replicate 32 9 then some knot else none

theorem knotted_lawful : knotted.Lawful := by
  apply rehashed_lawful
  intro data
  split
  · simp
  · exact Unary.lawful.size data

theorem knot_round : verifyRound knotted knotDb i (replicate 32 9) key = .ok (.again (replicate 32 9) key) := by
  have stored : knotDb (replicate 32 9) = some knot := if_pos rfl
  have decoded : knotted.decodeNode (knot.length + 1) (some (replicate 32 9)) knot =
      .ok (.short [] (.hash (replicate 32 9)) ⟨some (replicate 32 9), false⟩) := by rfl
  rw [verifyRound, stored]
  simp only [decoded, Node.get, nil_prefix, if_true, length_nil, drop_zero]

theorem knot_verifies_forever :
    knotted.Lawful ∧ (∀ h b, knotDb h = some b → knotted.keccak b = h) ∧ Set.InjOn knotted.keccak { b | ∃ h, knotDb h = some b } ∧
      ∀ key fuel, verifyProof knotted knotDb fuel 0 (replicate 32 9) (keybytesToHex key) = .error .loop := by
  have only (h b : Bytes) (found : knotDb h = some b) : h = replicate 32 9 ∧ b = knot := by
    rw [knotDb] at found
    split at found
    next same => exact ⟨same, (some.inj found).symm⟩
    next => cases found
  refine ⟨knotted_lawful, fun h b found => ?_, ?_, fun key fuel => ?_⟩
  · obtain ⟨rfl, rfl⟩ := only h b found
    simp only [knotted, if_true]
  · rintro a ⟨h, first⟩ b ⟨j, second⟩ _
    rw [(only h a first).2, (only j b second).2]
  · suffices all : ∀ i, verifyProof knotted knotDb fuel i (replicate 32 9) (keybytesToHex key) = .error .loop from all 0
    induction fuel with
    | zero => exact fun i => rfl
    | succ fuel ih =>
      intro i
      rw [verifyProof, knot_round]
      exact ih (i + 1)

end Didux.Trie
