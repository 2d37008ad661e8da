import Didux.Trie.Node

set_option autoImplicit false

namespace Didux.Trie

open Sport Radix Function

-- `panic` is a crash of the node, `loop` a recursion that the fuel does not cover.
inductive TrieError where
  | missingNode (hash : Bytes) (path : Hex)
  | decode (err : DecodeError)
  | panic
  | loop
deriving DecidableEq, Repr

structure Database where
  dirties : Bytes → Option Raw
  disk : Bytes → Option Bytes

namespace Database

def new : Database := ⟨fun _ => none, fun _ => none⟩

def insert (db : Database) (hash : Bytes) (node : Raw) : Database :=
  if (db.dirties hash).isSome then db else { db with dirties := update db.dirties hash (some node) }

def flush (x : Codec) (db : Database) (hash : Bytes) : Database :=
  match db.dirties hash with
  | none => db
  | some node =>
    { dirties := update db.dirties hash none
      disk := update db.disk hash (some (x.encodeNode node)) }

def node (x : Codec) (db : Database) (hash : Bytes) : Option (Except DecodeError Node) :=
  match db.dirties hash with
  | some node => some (.ok (expandNode (some hash) node))
  | none => (db.disk hash).map fun enc => x.decodeNode (enc.length + 1) (some hash) enc

end Database

def resolveHash (x : Codec) (db : Database) (hash : Bytes) (path : Hex) : Except TrieError Node :=
  match db.node x hash with
  | some (.ok node) => .ok node
  | some (.error err) => .error (.decode err)
  | none => .error (.missingNode hash path)

namespace Node

def isNil : Node → Bool
  | .nil => true
  | _ => false

def attach (key : Hex) (n : Node) : Node := if key = [] then n else .short key n newFlag

def only (children : Fin 17 → Node) : Option (Fin 17) := single fun i => !(children i).isNil

section Walk

variable (x : Codec) (db : Database)

def resolve (n : Node) (path : Hex) : Except TrieError Node :=
  match n with
  | .hash h => resolveHash x db h path
  | n => .ok n

def tryGet : Nat → Node → Hex → Hex → Except TrieError (Option Bytes × Node × Bool)
  | 0, _, _, _ => .error .loop
  | fuel + 1, n, path, key => match n with
    | .nil => .ok (none, .nil, false)
    | .value v => .ok (some v, .value v, false)
    | .short k val flags =>
      if k <+: key then do
        let (found, newnode, didResolve) ← tryGet fuel val (path ++ k) (key.drop k.length)
        return (found, if didResolve then .short k newnode flags else n, didResolve)
      else .ok (none, n, false)
    | .full children flags =>
      match key with
      | [] => .error .panic
      | s :: rest => do
          let (found, newnode, didResolve) ← tryGet fuel (children s) (path ++ [s]) rest
          return (found, if didResolve then .full (update children s newnode) flags else n, didResolve)
    | .hash h => do
        let child ← resolveHash x db h path
        let (found, newnode, _) ← tryGet fuel child path key
        return (found, newnode, true)

def insert : Nat → Node → Hex → Hex → Bytes → Except TrieError (Bool × Node)
  | 0, _, _, _, _ => .error .loop
  | fuel + 1, n, path, key, v => if key = [] then
      match n with
      | .value old => .ok (decide (old ≠ v), .value v)
      | _ => .ok (true, .value v) else
      match n with
      | .short k val _ =>
        let matchlen := prefixLen key k
        if matchlen = k.length then do
          let (dirty, nn) ← insert fuel val (path ++ key.take matchlen) (key.drop matchlen) v
          return if dirty then (true, .short k nn newFlag) else (false, n)
        else
          match k.drop matchlen, key.drop matchlen with
          | a :: u, b :: w =>
            let children := update (update (fun _ => .nil) a (attach u val)) b (attach w (.value v))
            .ok (true, attach (key.take matchlen) (.full children newFlag))
          | _, _ => .error .panic
      | .full children _ =>
        match key with
        | [] => .error .panic
        | s :: rest => do
            let (dirty, nn) ← insert fuel (children s) (path ++ [s]) rest v
            return if dirty then (true, .full (update children s nn) newFlag) else (false, n)
      | .nil => .ok (true, .short key (.value v) newFlag)
      | .hash h => do
          let rn ← resolveHash x db h path
          let (dirty, nn) ← insert fuel rn path key v
          return if dirty then (true, nn) else (false, rn)
      | .value _ => .error .panic

-- The full node that lost a child: with a single child left it becomes a short node, and the child is loaded just to
-- see whether the two are to be merged.
def reduce (children : Fin 17 → Node) (path : Hex) : Except TrieError Node :=
  match only children with
  | none => .ok (.full children newFlag)
  | some pos =>
    if pos = 16 then .ok (.short [pos] (children pos) newFlag)
    else do
      let cnode ← resolve x db (children pos) path
      match cnode with
      | .short k val _ => return .short (pos :: k) val newFlag
      | _ => return .short [pos] (children pos) newFlag

def merge (key : Hex) : Node → Node
  | .short k val _ => .short (key ++ k) val newFlag
  | child => .short key child newFlag

def delete : Nat → Node → Hex → Hex → Except TrieError (Bool × Node)
  | 0, _, _, _ => .error .loop
  | fuel + 1, n, path, key => match n with
    | .short k val _ =>
      let matchlen := prefixLen key k
      if matchlen < k.length then .ok (false, n)
      else if matchlen = key.length then .ok (true, .nil)
      else do
        let (dirty, child) ← delete fuel val (path ++ key.take k.length) (key.drop k.length)
        return if dirty then (true, merge k child) else (false, n)
    | .full children _ =>
      match key with
      | [] => .error .panic
      | s :: rest => do
          let (dirty, nn) ← delete fuel (children s) (path ++ [s]) rest
          if dirty then
            let reduced ← reduce x db (update children s nn) path
            return (true, reduced)
          else return (false, n)
    | .value _ => .ok (true, .nil)
    | .nil => .ok (false, .nil)
    | .hash h => do
        let rn ← resolveHash x db h path
        let (dirty, nn) ← delete fuel rn path key
        return if dirty then (true, nn) else (false, rn)

end Walk

end Node

-- The node with its large children replaced by hashes, or its own hash; the node with the hashes cached in; and the
-- nodes that got a hash, which are written to the database in commit mode.
structure Hashed where
  hashed : Raw
  cached : Node
  blobs : List (Bytes × Raw)

section Hasher

variable (x : Codec)

def store (hash : Option Bytes) (force : Bool) (n : Raw) : Raw × List (Bytes × Raw) :=
  match n with
  | .nil => (.nil, [])
  | .hash h => (.hash h, [])
  | n =>
    if (x.encodeNode n).length < 32 ∧ force = false then (n, [])
    else
      let h := hash.getD (x.keccak (x.encodeNode n))
      (.hash h, [(h, n)])

def Raw.hash? : Raw → Option Bytes
  | .hash h => some h
  | _ => none

-- Children that hashChildren leaves as they were: the missing ones and the values.
def asWere : Node → Hashed
  | .value v => ⟨.value v, .value v, []⟩
  | .hash h => ⟨.hash h, .hash h, []⟩
  | n => ⟨.nil, n, []⟩

def Node.isValue : Node → Bool
  | .value _ => true
  | _ => false

def hashShort (commit force : Bool) (key : Hex) (child : Hashed) (flags : NodeFlag) : Hashed :=
  let stored := store x flags.hash force (.short (hexToCompact key) child.hashed)
  ⟨stored.1, .short key child.cached ⟨stored.1.hash?, flags.dirty && !commit⟩, child.blobs ++ stored.2⟩

def hashFull (commit force : Bool) (children : Fin 17 → Hashed) (flags : NodeFlag) : Hashed :=
  let stored := store x flags.hash force (.full fun i => (children i).hashed)
  ⟨stored.1, .full (fun i => (children i).cached) ⟨stored.1.hash?, flags.dirty && !commit⟩,
    (List.finRange 17).flatMap (fun i => (children i).blobs) ++ stored.2⟩

-- A cached hash is used as it is; in commit mode a clean node is replaced by it and a dirty one walked again.
def cachedHash (commit : Bool) (n : Node) (flags : NodeFlag) (walk : Hashed) : Hashed :=
  match flags.hash with
  | none => walk
  | some h => if commit = false then ⟨.hash h, n, []⟩ else if flags.dirty = false then ⟨.hash h, .hash h, []⟩ else walk

def hash (commit : Bool) : Bool → Node → Hashed
  | _, .nil => ⟨.nil, .nil, []⟩
  | force, .value v => let stored := store x none force (.value v)
    ⟨stored.1, .value v, stored.2⟩
  | _, .hash h => ⟨.hash h, .hash h, []⟩
  | force, .short key val flags =>
    cachedHash commit (.short key val flags) flags
      (hashShort x commit force key (if val.isValue then asWere val else hash commit false val) flags)
  | force, .full children flags =>
    cachedHash commit (.full children flags) flags
      (hashFull x commit force
        (fun i => if i = 16 ∨ (children i).isNil then asWere (children i) else hash commit false (children i)) flags)

end Hasher

end Didux.Trie
