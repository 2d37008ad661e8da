import Didux.Backend.Snapshot
import Didux.Sport.Core

set_option autoImplicit false

namespace Didux.Backend

open Sport

def checkpointInterval : Nat := 1024
def defaultDifficulty : Nat := 1

structure Config where
  blockPeriod : Nat
  epoch : Nat
  speakerPolicy : Nat

-- consensus.ChainReader. The header cache of a chain is keyed by hash alone, so a
-- header found under a number need not have it; the genesis block has number zero.
structure Chain where
  getHeader : Hash → Nat → Option Header
  getHeaderByNumber : Nat → Option Header
  sixtySixPercentBlock : Option Nat
  genesis_number : ∀ genesis, getHeaderByNumber 0 = some genesis → genesis.number = 0

structure Caches where
  recents : Assoc Hash Snapshot
  stored : Assoc Hash Snapshot

structure Node (codec : Codec) where
  config : Config
  chain : Chain
  caches : Caches
  now : Nat
  currentBlock : Block codec
  hasBadBlock : Hash → Bool
  sign : Bytes → Option Bytes

def Snapshot.fullnodes (s : Snapshot) : List Address := s.members.insertionSort fun a b => a ≤ b

def Caches.loadSnapshot (codec : Codec) (caches : Caches) (epoch : Nat) (hash : Hash) : Option Snapshot :=
  (caches.stored.lookup hash).map fun s =>
    { s with epoch := epoch, fullnodeSet := newFullnodeSet codec.text s.fullnodes s.fullnodeSet.policy }

def Caches.store (caches : Caches) (s : Snapshot) : Caches := { caches with stored := caches.stored.insert s.hash s }

def countValidSeals (codec : Codec) (proposalSeal : Bytes) : FullnodeSet → Nat → List Bytes → Except EngineError Nat
  | _, validSeal, [] => .ok validSeal
  | fullnodes, validSeal, committedSeal :: rest => match codec.getSignatureAddress proposalSeal committedSeal with
    | none => .error .invalidSignature
    | some addr =>
      if (fullnodes.removeFullnode addr).2 then
        countValidSeals codec proposalSeal (fullnodes.removeFullnode addr).1 (validSeal + 1) rest
      else .error .invalidCommittedSeals

-- validSeal < minApprovers-1 is a comparison of signed integers.
def checkCommittedSeals (codec : Codec) (sixtySixPercentBlock : Option Nat) (snap : Snapshot) (header : Header)
    (committedSeal : List Bytes) : Except EngineError Unit :=
  if committedSeal.length = 0 then .error .emptyCommittedSeals
  else
    match countValidSeals codec (prepareCommittedSeal (header.hash codec)) (snap.fullnodeSet.copy codec.text) 0
      committedSeal with
    | .error e => .error e
    | .ok validSeal =>
      let minApprovers := snap.fullnodeSet.minApprovers
      if validSeal < minApprovers then
        match sixtySixPercentBlock with
        | none => .error .panic
        | some planned =>
          if planned < header.number ∨ validSeal + 1 < minApprovers then .error .invalidCommittedSeals else .ok ()
      else .ok ()

-- A proposal has no committed seals yet, so their absence is no error.
def ignoreEmptySeals : Except EngineError Caches → Except EngineError Unit
  | .ok _ => .ok ()
  | .error .emptyCommittedSeals => .ok ()
  | .error e => .error e

def author (codec : Codec) (header : Header) : Address :=
  match ecrecover codec header with
  | .error _ => 0
  | .ok signer => signer

namespace Node

variable {codec : Codec}

variable (node : Node codec) (header : Header)

-- The part of verifyHeader that does not look at other headers. Time is a uint64 that is read as an int64, so from 2^63 on
-- it is never in the future.
def verifyStandalone : Except EngineError Unit :=
  if node.now < header.time ∧ header.time < 2 ^ 63 then .error .futureBlock
  else if (extractSportExtra codec header).isNone then .error .invalidExtraDataFormat
  else if header.nonce ≠ emptyNonce ∧ header.nonce ≠ nonceAuthVote ∧ header.nonce ≠ nonceDropVote then .error .invalidNonce
  else if header.mixDigest ≠ sportDigest then .error .invalidMixDigest
  else if header.uncleHash ≠ codec.calcUncleHash [] then .error .invalidUncleHash
  else if header.difficulty ≠ defaultDifficulty then .error .invalidDifficulty
  else .ok ()

-- VerifyHeader of the genesis block ends after the checks above, since its number is zero.
def genesisSnapshot : Except EngineError Snapshot :=
  match node.chain.getHeaderByNumber 0 with
  | none => .error .panic
  | some genesis =>
    match node.verifyStandalone genesis with
    | .error e => .error e
    | .ok () =>
      match extractSportExtra codec genesis with
      | none => .error .invalidExtraDataFormat
      | some sportExtra =>
        .ok (newSnapshot node.config.epoch 0 (genesis.hash codec)
          (newFullnodeSet codec.text sportExtra.fullnodes node.config.speakerPolicy))

def knownSnapshot (caches : Caches) (number : Nat) (hash : Hash) : Option Snapshot :=
  match caches.recents.lookup hash with
  | some s => some s
  | none => if number % checkpointInterval = 0 then caches.loadSnapshot codec node.config.epoch hash else none

def nextHeader (number : Nat) (hash : Hash) (parents : List Header) : Option (Header × List Header) :=
  match parents.getLast? with
  | some header =>
    if header.hash codec ≠ hash ∨ uint64 header.number ≠ number then none else some (header, parents.dropLast)
  | none => (node.chain.getHeader hash number).map fun header => (header, parents)

-- The search of snapshot, from a block back to one whose snapshot is known. The
-- headers it passes are returned in ascending order.
def gather (node : Node codec) (caches : Caches) :
    Nat → Hash → List Header → List Header → Except EngineError (Snapshot × List Header × Caches)
  | 0, hash, _, headers => match node.knownSnapshot caches 0 hash with
    | some s => .ok (s, headers, caches)
    | none =>
      match node.genesisSnapshot with
      | .error e => .error e
      | .ok snap => .ok (snap, headers, caches.store snap)
  | number + 1, hash, parents, headers => match node.knownSnapshot caches (number + 1) hash with
    | some s => .ok (s, headers, caches)
    | none =>
      match node.nextHeader (number + 1) hash parents with
      | none => .error .unknownAncestor
      | some (header, parents) => gather node caches number header.parentHash parents (header :: headers)

def snapshot (caches : Caches) (number : Nat) (hash : Hash) (parents : List Header) : Except EngineError (Snapshot × Caches) :=
  match node.gather caches number hash parents [] with
  | .error e => .error e
  | .ok (found, headers, caches) =>
    match found.apply codec headers with
    | .error e => .error e
    | .ok snap =>
      let caches := { caches with recents := caches.recents.insert snap.hash snap }
      if snap.number % checkpointInterval = 0 ∧ headers ≠ [] then .ok (snap, caches.store snap) else .ok (snap, caches)

def verifySigner (caches : Caches) (header : Header) (parents : List Header) : Except EngineError Caches :=
  let number := uint64 header.number
  if number = 0 then .error .unknownBlock
  else
    match node.snapshot caches (number - 1) header.parentHash parents with
    | .error e => .error e
    | .ok (snap, caches) =>
      match ecrecover codec header with
      | .error e => .error e
      | .ok signer =>
        match (snap.fullnodeSet.getByAddress signer).2 with
        | none => .error .unauthorized
        | some _ => .ok caches

def verifyCommittedSeals (caches : Caches) (header : Header) (parents : List Header) : Except EngineError Caches :=
  let number := uint64 header.number
  if number = 0 then .ok caches
  else
    match node.snapshot caches (number - 1) header.parentHash parents with
    | .error e => .error e
    | .ok (snap, caches) =>
      match extractSportExtra codec header with
      | none => .error .invalidExtraDataFormat
      | some extra =>
        match checkCommittedSeals codec node.chain.sixtySixPercentBlock snap header extra.committedSeal with
        | .error e => .error e
        | .ok () => .ok caches

def parentOf (parents : List Header) : Option Header :=
  match parents.getLast? with
  | some parent => some parent
  | none => node.chain.getHeader header.parentHash (uint64 header.number - 1)

def verifyCascadingFields (caches : Caches) (header : Header) (parents : List Header) : Except EngineError Caches :=
  let number := uint64 header.number
  if number = 0 then .ok caches
  else
    match node.parentOf header parents with
    | none => .error .unknownAncestor
    | some parent =>
      if uint64 parent.number ≠ number - 1 ∨ parent.hash codec ≠ header.parentHash then .error .unknownAncestor
      else if header.time < uint64 (parent.time + node.config.blockPeriod) then .error .invalidTimestamp
      else
        match node.snapshot caches (number - 1) header.parentHash parents with
        | .error e => .error e
        | .ok (_, caches) =>
          match node.verifySigner caches header parents with
          | .error e => .error e
          | .ok caches => node.verifyCommittedSeals caches header parents

def verifyHeader (caches : Caches) (header : Header) (parents : List Header) : Except EngineError Caches :=
  match node.verifyStandalone header with
  | .error e => .error e
  | .ok () => node.verifyCascadingFields caches header parents

def verify (block : Block codec) : Except EngineError Unit :=
  if node.hasBadBlock block.hash then .error .blacklistedHash
  else if codec.deriveSha block.transactions ≠ block.header.txHash then .error .mismatchTxhashes
  else if codec.calcUncleHash block.uncles ≠ codec.calcUncleHash [] then .error .invalidUncleHash
  else ignoreEmptySeals (node.verifyHeader node.caches block.header [])

def getFullnodes (number : Nat) (hash : Hash) : FullnodeSet :=
  match node.snapshot node.caches number hash [] with
  | .error _ => newFullnodeSet codec.text [] node.config.speakerPolicy
  | .ok (snap, _) => snap.fullnodeSet

def lastBlockProposal : Option (Block codec × Address) :=
  if 0 < node.currentBlock.header.number then
    match ecrecover codec node.currentBlock.header with
    | .error _ => none
    | .ok speaker => some (node.currentBlock, speaker)
  else some (node.currentBlock, 0)

def sealedBlock (block : Block codec) (seals : List Bytes) : Except EngineError (Block codec) :=
  match writeCommittedSeals codec block.header seals with
  | .error e => .error e
  | .ok header => .ok (block.withSeal header)

def backend : Sport.Backend (Block codec) where
  lastBlockProposal := node.lastBlockProposal
  fullnodes block := node.getFullnodes (uint64 block.header.number) block.hash
  parentFullnodes block := node.getFullnodes (uint64 (uint64 block.header.number + 2 ^ 64 - 1)) block.header.parentHash
  getSpeaker number :=
    match node.chain.getHeaderByNumber number with
    | some header => author codec header
    | none => 0
  hasBlockProposal hash number := (node.chain.getHeader hash (uint64 number)).isSome
  hasBadBlockProposal := node.hasBadBlock
  verify block :=
    match node.verify block with
    | .ok () => .ok ()
    | .error .futureBlock => .error .futureBlock
    | .error _ => .error .invalid
  commit block seals := (sealedBlock block seals).isOk
  sign := node.sign

theorem verify_standalone_ok (passed : node.verifyStandalone header = .ok ()) :
    (extractSportExtra codec header).isSome ∧ header.mixDigest = sportDigest := by
  simp only [verifyStandalone] at passed
  split_ifs at passed with future format nonce digest
  exact ⟨by simpa [Option.isSome_iff_ne_none] using format, by simpa using digest⟩

theorem verify_standalone_not_empty : node.verifyStandalone header ≠ .error .emptyCommittedSeals := by
  intro failed
  simp only [verifyStandalone] at failed
  split_ifs at failed <;> cases failed

theorem ignore_empty_seals_ok (verdict : Except EngineError Caches) (accepted : ignoreEmptySeals verdict = .ok ()) :
    (∃ caches, verdict = .ok caches) ∨ verdict = .error .emptyCommittedSeals := by
  cases verdict with
  | ok caches => exact .inl ⟨caches, rfl⟩
  | error e =>
    cases e with
    | emptyCommittedSeals => exact .inr rfl
    | _ => cases accepted

variable (block : Block codec)

theorem verify_header_ok (verified : node.verify block = .ok ()) :
    node.verifyStandalone block.header = .ok () ∧
      ((∃ caches, node.verifyCascadingFields node.caches block.header [] = .ok caches) ∨
        node.verifyCascadingFields node.caches block.header [] = .error .emptyCommittedSeals) := by
  unfold verify at verified
  split_ifs at verified
  have passed := ignore_empty_seals_ok _ verified
  rw [verifyHeader] at passed
  cases standalone : node.verifyStandalone block.header with
  | error e =>
    have notEmpty := verify_standalone_not_empty node block.header
    rw [standalone] at passed notEmpty
    obtain ⟨_, impossible⟩ | empty := passed
    · cases impossible
    · cases empty
      exact absurd rfl notEmpty
  | ok passedAlone =>
    simp only [standalone] at passed
    exact ⟨rfl, passed⟩

theorem cascading_parent (caches : Caches) (header : Header)
    (passed : (∃ caches', node.verifyCascadingFields caches header [] = .ok caches') ∨
      node.verifyCascadingFields caches header [] = .error .emptyCommittedSeals) : uint64 header.number = 0 ∨
      ∃ parent, node.chain.getHeader header.parentHash (uint64 header.number - 1) = some parent ∧
        uint64 parent.number = uint64 header.number - 1 ∧ parent.hash codec = header.parentHash := by
  by_cases zero : uint64 header.number = 0
  · exact .inl zero
  · refine .inr ?_
    cases known : node.chain.getHeader header.parentHash (uint64 header.number - 1) with
    | none => simp [verifyCascadingFields, zero, parentOf, known] at passed
    | some parent =>
      by_cases unlinked : uint64 parent.number ≠ uint64 header.number - 1 ∨ parent.hash codec ≠ header.parentHash
      · simp [verifyCascadingFields, zero, parentOf, known, unlinked] at passed
      · obtain ⟨number, hash⟩ := not_or.mp unlinked
        exact ⟨parent, rfl, not_not.mp number, not_not.mp hash⟩

theorem verified_parent (verified : node.verify block = .ok ()) : uint64 block.header.number = 0 ∨
      ∃ parent, node.chain.getHeader block.header.parentHash (uint64 block.header.number - 1) = some parent ∧
        uint64 parent.number = uint64 block.header.number - 1 ∧ parent.hash codec = block.header.parentHash :=
  cascading_parent node node.caches block.header (verify_header_ok node block verified).2

theorem backend_verify_ok (verified : node.backend.verify block = .ok ()) : node.verify block = .ok () := by
  simp only [backend] at verified
  split at verified
  · assumption
  · cases verified
  · cases verified

end Node

namespace Plain

def genesis (members : List UInt8) : Header :=
  { header 0 0 0 0 0 0 with
    extra := List.replicate 32 0 ++ (putList (members.map fun member => [member]) ++ (putBytes [] ++ putList [])) }

def node (members : List UInt8) (signer : UInt8) : Node codec where
  config := ⟨1, 30000, 0⟩
  chain :=
    { getHeader := fun hash number => if hash = (genesis members).hash codec ∧ number = 0 then some (genesis members) else none
      getHeaderByNumber := fun number => if number = 0 then some (genesis members) else none
      sixtySixPercentBlock := some 0
      genesis_number := by
        intro found known
        cases known
        rfl }
  caches := ⟨∅, ∅⟩
  now := 100
  currentBlock := ⟨genesis members, [], []⟩
  hasBadBlock _ := false
  sign data := some (signedBy signer data)

end Plain

end Didux.Backend
