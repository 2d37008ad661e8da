import Mathlib

set_option autoImplicit false

namespace Didux.Sport

abbrev Address := BitVec 160
abbrev Hash := BitVec 256
abbrev Bytes := List UInt8

instance memberDecidable (address : Address) (members : List Address) : Decidable (address ∈ members) :=
  List.instDecidableMemOfLawfulBEq address members

-- big.Int values that come off the wire or out of a header are never negative.
-- Uint64() keeps their low 64 bits, Int64() reads those as a signed word.
def uint64 (n : Nat) : Nat := n % 2 ^ 64
def int64 (n : Int) : Int := Int.bmod n (2 ^ 64)

-- An unsigned 64-bit n as a floating-point number of so many significant bits, ties to even.
def toFloat (precision n : Nat) : Nat :=
  let unit := 2 ^ (Nat.log2 n + 1 - precision)
  let down := n / unit * unit
  let rest := n - down
  if 2 * rest < unit then down
  else if unit < 2 * rest then down + unit
  else if n / unit % 2 = 0 then down
  else down + unit

def float32 : Nat → Nat := toFloat 24
def float64 : Nat → Nat := toFloat 53

class BlockProposal (B : Type) where
  number : B → Nat
  hash : B → Hash

structure View where
  round : Nat
  sequence : Nat
deriving DecidableEq, Repr

def View.cmp (v y : View) : Ordering :=
  if v.sequence ≠ y.sequence then compare v.sequence y.sequence
  else if v.round ≠ y.round then compare v.round y.round
  else .eq

theorem view_cmp_eq_iff (v y : View) : v.cmp y = .eq ↔ v = y := by
  cases v with
  | mk round sequence =>
    cases y with
    | mk otherRound otherSequence =>
      by_cases sameSequence : sequence = otherSequence
      · by_cases sameRound : round = otherRound <;> simp [View.cmp, sameSequence]
      · simp [View.cmp, sameSequence]

structure Subject where
  view : View
  digest : Hash
deriving DecidableEq, Repr

structure Preprepare (B : Type) where
  view : View
  blockProposal : B
deriving DecidableEq, Repr

structure Request (B : Type) where
  blockProposal : B
deriving DecidableEq, Repr

-- Message.Msg is a byte string that the handlers decode as a Subject or as a
-- Preprepare. The two encodings exclude each other (a digest is a string, a
-- block is a list), so a byte string is represented by what it decodes to.
inductive Content (B : Type) where
  | subject (subject : Subject)
  | preprepare (preprepare : Preprepare B)
  | malformed (bytes : Bytes)
deriving DecidableEq, Repr

structure Message (B : Type) where
  code : Nat
  msg : Content B
  address : Address
  signature : Bytes
  committedSeal : Bytes
deriving DecidableEq, Repr

-- The codes continue the iota of the four states.
def msgPreprepare : Nat := 4
def msgPrepare : Nat := 5
def msgCommit : Nat := 6
def msgRoundChange : Nat := 7

def Message.decodeSubject {B : Type} (m : Message B) : Option Subject :=
  match m.msg with
  | .subject subject => some subject
  | _ => none

def Message.decodePreprepare {B : Type} (m : Message B) : Option (Preprepare B) :=
  match m.msg with
  | .preprepare preprepare => some preprepare
  | _ => none

theorem decode_subject_some_iff {B : Type} (m : Message B) (subject : Subject) :
    m.decodeSubject = some subject ↔ m.msg = .subject subject := by
  cases content : m.msg <;> simp [Message.decodeSubject, content]

inductive State where
  | acceptRequest
  | preprepared
  | prepared
  | committed
deriving DecidableEq, Repr

def State.toNat : State → Nat
  | .acceptRequest => 0
  | .preprepared => 1
  | .prepared => 2
  | .committed => 3

def State.cmp (s y : State) : Ordering := compare s.toNat y.toNat

inductive VerifyError where
  | futureBlock
  | invalid
deriving DecidableEq, Repr

inductive CoreError where
  | inconsistentSubject
  | notFromSpeaker
  | ignored
  | futureMessage
  | oldMessage
  | invalidMessage
  | failedDecodePreprepare
  | failedDecodePrepare
  | failedDecodeCommit
  | unauthorizedAddress
  | malformedPayload
  | invalidSignature
  | verification (reason : VerifyError)
deriving DecidableEq, Repr

-- What the core takes from outside this repository: the RLP form of a message,
-- the recovery of a signer, and the text of an address that Fullnodes.Less compares.
structure Wire (B : Type) where
  payload : Message B → Bytes
  fromPayload : Bytes → Option (Message B)
  getSignatureAddress : Bytes → Bytes → Option Address
  text : Address → List Char

def Message.payloadNoSig {B : Type} (wire : Wire B) (m : Message B) : Bytes :=
  wire.payload { m with signature := [] }

def hashBytes (hash : Hash) : Bytes :=
  (List.range 32).map fun i => UInt8.ofNat (hash.toNat >>> (8 * (31 - i)))

def prepareCommittedSeal (hash : Hash) : Bytes := hashBytes hash ++ [UInt8.ofNat msgCommit]

structure BlockId where
  number : Nat
  hash : Hash
deriving DecidableEq, Repr

instance : BlockProposal BlockId := ⟨BlockId.number, BlockId.hash⟩

-- A wire for finitely many messages: a payload is the place of the message in a
-- table, a signature is the signer followed by what it signed.
def signedBy (signer : UInt8) (data : Bytes) : Bytes := signer :: data

def tableWire {B : Type} [DecidableEq B] (table : List (Message B)) : Wire B where
  payload m := UInt8.ofNat (table.idxOf { m with signature := [] }) :: m.signature
  fromPayload payload :=
    match payload with
    | [] => none
    | i :: signature => table[i.toNat]?.map fun m => { m with signature := signature }
  getSignatureAddress data signature :=
    match signature with
    | [] => none
    | signer :: signed => if data.isPrefixOf signed then some (BitVec.ofNat 160 signer.toNat) else none
  text a := Nat.toDigits 16 a.toNat

end Didux.Sport
