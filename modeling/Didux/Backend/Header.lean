import Didux.Sport.Types

set_option autoImplicit false

namespace Didux.Backend

open Sport List

-- Number and Difficulty are never nil in a header that came off the wire or out of the chain.
structure Header where
  parentHash : Hash
  uncleHash : Hash
  coinbase : Address
  root : Hash
  txHash : Hash
  receiptHash : Hash
  bloom : BitVec 2048
  difficulty : Nat
  number : Nat
  gasLimit : Nat
  gasUsed : Nat
  time : Nat
  extra : Bytes
  mixDigest : Hash
  nonce : BitVec 64
deriving DecidableEq, Repr

structure SportExtra where
  fullnodes : List Address
  speakerSeal : Bytes
  committedSeal : List Bytes
deriving DecidableEq, Repr

def sportDigest : Hash := 0x636861696e20706c6174666f726d2077697468206120636f6e736369656e6365

def sportExtraVanity : Nat := 32
def sportExtraSeal : Nat := 65

def emptyNonce : BitVec 64 := 0
def nonceAuthVote : BitVec 64 := 0xffffffffffffffff
def nonceDropVote : BitVec 64 := 0x0000000000000000

-- RLP, Keccak and signature recovery, which lie outside this repository.
structure Codec where
  rlpHash : Header → Hash
  nilHeaderHash : Hash
  calcUncleHash : List Header → Hash
  deriveSha : List Bytes → Hash
  encodeExtra : SportExtra → Bytes
  decodeExtra : Bytes → Option SportExtra
  getSignatureAddress : Bytes → Bytes → Option Address
  text : Address → List Char

inductive EngineError where
  | unknownBlock
  | futureBlock
  | invalidExtraDataFormat
  | invalidNonce
  | invalidMixDigest
  | invalidUncleHash
  | invalidDifficulty
  | unknownAncestor
  | invalidTimestamp
  | unauthorized
  | invalidSignature
  | emptyCommittedSeals
  | invalidCommittedSeals
  | invalidVotingChain
  | invalidVote
  | blacklistedHash
  | mismatchTxhashes
  | missingState
  | panic
deriving DecidableEq, Repr

def extractSportExtra (codec : Codec) (h : Header) : Option SportExtra :=
  if h.extra.length < sportExtraVanity then none else codec.decodeExtra (h.extra.drop sportExtraVanity)

def withExtra (codec : Codec) (h : Header) (extra : SportExtra) : Header :=
  { h with extra := h.extra.take sportExtraVanity ++ codec.encodeExtra extra }

def sportFilteredHeader (codec : Codec) (h : Header) (keepSeal : Bool) : Option Header :=
  (extractSportExtra codec h).map fun extra =>
    withExtra codec h { extra with speakerSeal := if keepSeal then extra.speakerSeal else [], committedSeal := [] }

def Header.hash (codec : Codec) (h : Header) : Hash :=
  if h.mixDigest = sportDigest then
    match sportFilteredHeader codec h true with
    | some filtered => codec.rlpHash filtered
    | none => codec.rlpHash h
  else codec.rlpHash h

def sigHash (codec : Codec) (h : Header) : Hash :=
  match sportFilteredHeader codec h false with
  | some filtered => codec.rlpHash filtered
  | none => codec.nilHeaderHash

-- The cache of recent addresses is keyed by the hash of the header, which fixes the seal and what it is over.
def ecrecover (codec : Codec) (h : Header) : Except EngineError Address :=
  match extractSportExtra codec h with
  | none => .error .invalidExtraDataFormat
  | some extra =>
    match codec.getSignatureAddress (hashBytes (sigHash codec h)) extra.speakerSeal with
    | none => .error .invalidSignature
    | some addr => .ok addr

def prepareExtra (codec : Codec) (h : Header) (vals : List Address) : Bytes :=
  let extra := h.extra ++ replicate (sportExtraVanity - h.extra.length) 0
  extra.take sportExtraVanity ++ codec.encodeExtra ⟨vals, [], []⟩

def writeSeal (codec : Codec) (h : Header) (sig : Bytes) : Except EngineError Header :=
  if sig.length % sportExtraSeal ≠ 0 then .error .invalidSignature
  else
    match extractSportExtra codec h with
    | none => .error .invalidExtraDataFormat
    | some extra => .ok (withExtra codec h { extra with speakerSeal := sig })

def writeCommittedSeals (codec : Codec) (h : Header) (committedSeals : List Bytes) : Except EngineError Header :=
  if committedSeals.length = 0 then .error .invalidCommittedSeals
  else if committedSeals.any fun committedSeal => committedSeal.length != sportExtraSeal then
    .error .invalidCommittedSeals
  else
    match extractSportExtra codec h with
    | none => .error .invalidExtraDataFormat
    | some extra => .ok (withExtra codec h { extra with committedSeal := committedSeals })

def Codec.RoundTrips (codec : Codec) : Prop := ∀ extra, codec.decodeExtra (codec.encodeExtra extra) = some extra

theorem extract_vanity (codec : Codec) (h : Header) (extra : SportExtra) (found : extractSportExtra codec h = some extra) :
    sportExtraVanity ≤ h.extra.length := by
  by_cases short : h.extra.length < sportExtraVanity
  · rw [extractSportExtra, if_pos short] at found
    cases found
  · exact Nat.le_of_not_lt short

theorem extract_with_extra (codec : Codec) (lawful : codec.RoundTrips) (h : Header) (extra : SportExtra)
    (long : sportExtraVanity ≤ h.extra.length) : extractSportExtra codec (withExtra codec h extra) = some extra := by
  have vanity := length_take_of_le long
  have payload : (withExtra codec h extra).extra.drop sportExtraVanity = codec.encodeExtra extra :=
    drop_left' vanity
  have enough : ¬ (withExtra codec h extra).extra.length < sportExtraVanity := by
    rw [withExtra, length_append]
    omega
  rw [extractSportExtra, if_neg enough, payload]
  exact lawful extra

theorem with_extra_twice (codec : Codec) (h : Header) (first second : SportExtra) (long : sportExtraVanity ≤ h.extra.length) :
    withExtra codec (withExtra codec h first) second = withExtra codec h second := by
  have vanity := length_take_of_le long
  have kept : (withExtra codec h first).extra.take sportExtraVanity = h.extra.take sportExtraVanity :=
    take_left' vanity
  rw [withExtra, kept]
  rfl

theorem hash_committed_seals (codec : Codec) (lawful : codec.RoundTrips) (h : Header) (extra : SportExtra)
    (committedSeals : List Bytes) (digest : h.mixDigest = sportDigest) (found : extractSportExtra codec h = some extra) :
    (withExtra codec h { extra with committedSeal := committedSeals }).hash codec = h.hash codec := by
  have long := extract_vanity codec h extra found
  have written := extract_with_extra codec lawful h { extra with committedSeal := committedSeals } long
  have sameDigest : (withExtra codec h { extra with committedSeal := committedSeals }).mixDigest = sportDigest := digest
  rw [Header.hash, Header.hash, if_pos sameDigest, if_pos digest, sportFilteredHeader, sportFilteredHeader, written, found]
  simp only [Option.map_some, with_extra_twice codec h _ _ long]

-- Transactions enter by their RLP forms only.
structure Block (codec : Codec) where
  header : Header
  transactions : List Bytes
  uncles : List Header
deriving DecidableEq

namespace Block

variable {codec : Codec}

def hash (block : Block codec) : Hash := block.header.hash codec

def withSeal (block : Block codec) (header : Header) : Block codec := { block with header := header }

instance : BlockProposal (Block codec) := ⟨fun block => block.header.number, hash⟩

end Block

-- A codec that satisfies the laws of RLP: every part is written with an end
-- mark, and a signature is the signer followed by what it signed.
namespace Plain

def putBytes (bytes : Bytes) : Bytes := bytes.flatMap (fun b => [1, b]) ++ [0]

def getBytes : Bytes → Option (Bytes × Bytes)
  | 0 :: rest => some ([], rest)
  | 1 :: b :: rest => (getBytes rest).map fun found => (b :: found.1, found.2)
  | _ => none

theorem get_put_bytes (bytes rest : Bytes) : getBytes (putBytes bytes ++ rest) = some (bytes, rest) := by
  induction bytes with
  | nil => rfl
  | cons b bytes ih =>
    have shape : putBytes (b :: bytes) ++ rest = 1 :: b :: (putBytes bytes ++ rest) := by simp [putBytes]
    rw [shape, getBytes, ih]
    rfl

def putList (parts : List Bytes) : Bytes := parts.flatMap (fun part => 1 :: putBytes part) ++ [0]

def getList : Nat → Bytes → Option (List Bytes × Bytes)
  | _, 0 :: rest => some ([], rest)
  | fuel + 1, 1 :: rest => (getBytes rest).bind fun first => (getList fuel first.2).map fun found => (first.1 :: found.1, found.2)
  | _, _ => none

theorem get_put_list (parts : List Bytes) (rest : Bytes) (fuel : Nat) (enough : parts.length ≤ fuel) :
    getList fuel (putList parts ++ rest) = some (parts, rest) := by
  induction parts generalizing fuel with
  | nil => cases fuel <;> rfl
  | cons part parts ih =>
    cases fuel with
    | zero => simp at enough
    | succ fuel =>
      have shape : putList (part :: parts) ++ rest = 1 :: (putBytes part ++ (putList parts ++ rest)) := by
        simp [putList]
      have shorter : parts.length ≤ fuel := by simpa using enough
      rw [shape, getList, get_put_bytes, Option.bind_some, ih fuel shorter]
      rfl

theorem put_list_length (parts : List Bytes) : parts.length ≤ (putList parts).length := by
  induction parts with
  | nil => simp
  | cons part parts ih =>
    have shape : putList (part :: parts) = 1 :: (putBytes part ++ putList parts) := by simp [putList]
    rw [shape, length_cons, length_cons, length_append]
    omega

def putAddress (address : Address) : Bytes := (Nat.digits 256 address.toNat).map UInt8.ofNat

def getAddress (bytes : Bytes) : Address := BitVec.ofNat 160 (Nat.ofDigits 256 (bytes.map UInt8.toNat))

theorem get_put_address (address : Address) : getAddress (putAddress address) = address := by
  have digits : ((Nat.digits 256 address.toNat).map UInt8.ofNat).map UInt8.toNat = Nat.digits 256 address.toNat := by
    rw [map_map]
    refine (map_congr_left ?_).trans (map_id _)
    intro digit member
    have small : digit < 256 := Nat.digits_lt_base (by norm_num) member
    exact UInt8.toNat_ofNat_of_lt' small
  rw [getAddress, putAddress, digits, Nat.ofDigits_digits, BitVec.ofNat_toNat, BitVec.setWidth_eq]

def encodeExtra (extra : SportExtra) : Bytes :=
  putList (extra.fullnodes.map putAddress) ++ (putBytes extra.speakerSeal ++ putList extra.committedSeal)

def decodeExtra (bytes : Bytes) : Option SportExtra :=
  (getList bytes.length bytes).bind fun fullnodes =>
    (getBytes fullnodes.2).bind fun speakerSeal =>
      (getList bytes.length speakerSeal.2).map fun committedSeal =>
        ⟨fullnodes.1.map getAddress, speakerSeal.1, committedSeal.1⟩

theorem decode_encode_extra (extra : SportExtra) : decodeExtra (encodeExtra extra) = some extra := by
  have first := put_list_length (extra.fullnodes.map putAddress)
  have last := put_list_length extra.committedSeal
  have total : (encodeExtra extra).length = (putList (extra.fullnodes.map putAddress)).length +
      ((putBytes extra.speakerSeal).length + (putList extra.committedSeal).length) := by
    rw [encodeExtra, length_append, length_append]
  generalize size : (encodeExtra extra).length = fuel at total
  have ending := get_put_list extra.committedSeal [] fuel (by omega)
  rw [append_nil] at ending
  have addresses : (extra.fullnodes.map putAddress).map getAddress = extra.fullnodes := by
    rw [map_map]
    exact (map_congr_left fun address _ => get_put_address address).trans (map_id _)
  rw [decodeExtra, size, encodeExtra, get_put_list _ _ fuel (by omega), Option.bind_some, get_put_bytes, Option.bind_some,
    ending, Option.map_some, addresses]

def codec : Codec where
  rlpHash h := BitVec.ofNat 256 (256 * h.number + h.gasUsed + 1)
  nilHeaderHash := 0
  calcUncleHash uncles := BitVec.ofNat 256 uncles.length
  deriveSha transactions := BitVec.ofNat 256 transactions.length
  encodeExtra := encodeExtra
  decodeExtra := decodeExtra
  getSignatureAddress data signature :=
    match signature with
    | [] => none
    | signer :: signed => if data.isPrefixOf signed then some (BitVec.ofNat 160 signer.toNat) else none
  text a := Nat.toDigits 16 a.toNat

theorem round_trips : codec.RoundTrips := decode_encode_extra

def header (parent : Hash) (number gasUsed : Nat) (signer : UInt8) (coinbase : Address) (nonce : BitVec 64) : Header where
  parentHash := parent
  uncleHash := 0
  coinbase := coinbase
  root := 0
  txHash := 0
  receiptHash := 0
  bloom := 0
  difficulty := 1
  number := number
  gasLimit := 0
  gasUsed := gasUsed
  time := number
  extra := replicate 32 0 ++ encodeExtra ⟨[], signedBy signer (hashBytes (BitVec.ofNat 256 (256 * number + gasUsed + 1))), []⟩
  mixDigest := sportDigest
  nonce := nonce

end Plain

end Didux.Backend
