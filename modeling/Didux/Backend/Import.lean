import Didux.Backend.CommittedSeals
import Didux.Backend.Height

set_option autoImplicit false

namespace Didux.Backend

open Sport List Core FullnodeSet

variable {codec : Codec}

variable {seals : List Bytes} {node : Node codec} {wire : Wire (Block codec)}

theorem distinct_signers {proposalSeal : Bytes} {members : List Address}
    (distinct : (seals.map (codec.getSignatureAddress proposalSeal)).Nodup)
    (signed : ∀ s ∈ seals, ∃ a ∈ members, codec.getSignatureAddress proposalSeal s = some a) :
    ∃ signers, Matched codec proposalSeal members seals signers := by
  have all : seals.map (codec.getSignatureAddress proposalSeal) ∈ Set.range (map some) := by
    rw [Set.range_list_map]
    intro o there
    obtain ⟨s, listed, rfl⟩ := mem_map.mp there
    obtain ⟨a, -, recovered⟩ := signed s listed
    exact ⟨a, recovered.symm⟩
  obtain ⟨signers, same⟩ := all
  have inside : ∀ a ∈ signers, a ∈ members := by
    intro a there
    obtain ⟨s, listed, recovered⟩ := mem_map.mp (same ▸ mem_map_of_mem there)
    obtain ⟨b, member, other⟩ := signed s listed
    exact Option.some.inj (recovered.symm.trans other) ▸ member
  rw [← same] at distinct
  exact ⟨signers, same.symm, distinct.of_map.subperm inside⟩

theorem check_committed_seals_ok (sixtySixPercentBlock : Option Nat) (snap : Snapshot) (header : Header) (seals : List Bytes)
    (some_ : seals ≠ []) (enough : snap.fullnodeSet.minApprovers ≤ seals.length)
    (distinct : (seals.map (codec.getSignatureAddress (prepareCommittedSeal (header.hash codec)))).Nodup)
    (members : ∀ s ∈ seals, ∃ a ∈ snap.members,
      codec.getSignatureAddress (prepareCommittedSeal (header.hash codec)) s = some a) :
    checkCommittedSeals codec sixtySixPercentBlock snap header seals = .ok () := by
  obtain ⟨signers, matched⟩ := distinct_signers distinct members
  rw [checkCommittedSeals, if_neg (by simpa using some_),
    count_valid_seals_matched _ _ 0 seals signers (matched_perm (copy_perm codec.text _).symm matched), Nat.zero_add]
  exact if_neg (Nat.not_lt.mpr enough)

theorem write_committed_seals_ok (header : Header) (seals : List Bytes) (extra : SportExtra) (some_ : seals ≠ [])
    (lengths : ∀ s ∈ seals, s.length = sportExtraSeal) (found : extractSportExtra codec header = some extra) :
    writeCommittedSeals codec header seals = .ok (withExtra codec header { extra with committedSeal := seals }) := by
  have nonzero : ¬ seals.length = 0 := by simpa using some_
  have sized : (seals.any fun s => s.length != sportExtraSeal) = false := by
    rw [any_eq_false]
    intro s listed
    simp [lengths s listed]
  rw [writeCommittedSeals, if_neg nonzero, if_neg (by simp [sized]), found]

theorem sealed_header_accepted (lawful : codec.RoundTrips) {caches after : Caches} {header : Header} {extra : SportExtra}
    {snap : Snapshot} (digest : header.mixDigest = sportDigest)
    (found : extractSportExtra codec header = some extra)
    (parent : node.snapshot caches (uint64 header.number - 1) header.parentHash [] = .ok (snap, after))
    (some_ : seals ≠ []) (enough : snap.fullnodeSet.minApprovers ≤ seals.length)
    (distinct : (seals.map (codec.getSignatureAddress (prepareCommittedSeal (header.hash codec)))).Nodup)
    (members : ∀ s ∈ seals, ∃ a ∈ snap.members,
      codec.getSignatureAddress (prepareCommittedSeal (header.hash codec)) s = some a) :
    ∃ done, node.verifyCommittedSeals caches (withExtra codec header { extra with committedSeal := seals }) [] = .ok done := by
  have hash := hash_committed_seals codec lawful header extra seals digest found
  have written := extract_with_extra codec lawful header { extra with committedSeal := seals }
    (extract_vanity codec header extra found)
  have checked := check_committed_seals_ok node.chain.sixtySixPercentBlock snap
    (withExtra codec header { extra with committedSeal := seals }) seals some_ enough (hash ▸ distinct) (hash ▸ members)
  by_cases zero : uint64 header.number = 0
  · exact ⟨caches, if_pos zero⟩
  · refine ⟨after, ?_⟩
    rw [Node.verifyCommittedSeals]
    simp only [written]
    rw [show (withExtra codec header { extra with committedSeal := seals }).number = header.number from rfl,
      show (withExtra codec header { extra with committedSeal := seals }).parentHash = header.parentHash from rfl,
      if_neg zero, parent]
    simp only [checked]

def Sealed (honest : Address → Bool) (wire : Wire (Block codec)) (be : Sport.Backend (Block codec)) (c : Core (Block codec))
    (event : Event (Block codec)) : Prop :=
  Served be ∧
    ∀ msg src block, c.input wire event = .message msg src → msg.code = msgCommit → c.current.blockProposal = some block →
      msg.decodeSubject = some ⟨c.currentView, block.hash⟩ → honest msg.address = true →
        codec.getSignatureAddress (prepareCommittedSeal block.hash) (copySeal msg.committedSeal) = some msg.address

def SealRecovers (m : Message (Block codec)) : Prop :=
  ∀ subject, m.decodeSubject = some subject →
    codec.getSignatureAddress (prepareCommittedSeal subject.digest) (copySeal m.committedSeal) = some m.address

structure Importable (b : Ballot (Block codec)) : Prop where
  regular : b.Regular
  formed : ∀ block, b.proposal = some block →
    block.header.mixDigest = sportDigest ∧ (extractSportExtra codec block.header).isSome
  sealed : ∀ a m, b.commits.lookup a = some m → SealRecovers m

theorem move_importable {b next : Ballot (Block codec)}
    {input : Input (Block codec)} {proposed : List (Block codec)} {voted : List (Message (Block codec))}
    {decided : List (Block codec × List Bytes)} (move : Move wire node.backend b input proposed voted decided next)
    (seals : ∀ msg src block, input = .message msg src → msg.code = msgCommit → b.proposal = some block →
      msg.decodeSubject = some ⟨b.view, block.hash⟩ →
        codec.getSignatureAddress (prepareCommittedSeal block.hash) (copySeal msg.committedSeal) = some msg.address)
    (importable : Importable b) : Importable next := by
  refine ⟨move_regular wire _ _ _ _ _ _ _ move importable.regular, ?_, ?_⟩
  · refine move_proposal wire _ _ _ _ _ _ _
      (fun _ block => block.header.mixDigest = sportDigest ∧ (extractSportExtra codec block.header).isSome) move ?_
      importable.formed
    intro msg src pp _ _ _ _ verified
    have accepted := node.backend_verify_ok pp.blockProposal verified
    exact (node.verify_standalone_ok _ (node.verify_header_ok _ accepted).1).symm
  · refine move_delivered wire _ _ _ _ _ _ _ SealRecovers move ?_ importable.sealed
    intro msg src block given code accepted named subject known
    cases named.symm.trans known
    exact seals msg src block given code accepted named

theorem running_importable {address : Address} {c : Core (Block codec)}
    (running : Running wire Served (Sealed (fun _ => true) wire) address c) : Importable c.ballot := by
  refine running_invariant wire Served (Sealed (fun _ => true) wire) address Importable ?_ ?_ c running
  · intro be last lastSpeaker speaker _ _
    exact ⟨Ballot.fresh_regular _ _ _ _, (fun _ accepted => by cases accepted), (fun _ _ found => by cases found)⟩
  · rintro be state event next proposed voted decided ⟨⟨node, rfl⟩, seals⟩ importable move
    exact move_importable move
      (fun msg src block given code accepted named => seals msg src block given code accepted named rfl) importable

theorem copy_seal_length {committedSeal : Bytes} : (copySeal committedSeal).length = sportExtraSeal := by
  rw [copySeal, length_append, length_take, length_replicate, sportExtraSeal]
  omega

namespace Importable

variable {b : Ballot (Block codec)} {block : Block codec}

variable (importable : Importable b) (accepted : b.proposal = some block)

include importable accepted

theorem seal_member (s : Bytes) (listed : s ∈ b.seals) :
    ∃ a ∈ b.fullnodes, codec.getSignatureAddress (prepareCommittedSeal block.hash) s = some a := by
  obtain ⟨m, counted, rfl⟩ := mem_map.mp listed
  obtain ⟨a, found⟩ := Assoc.mem_values_lookup b.commits m counted
  obtain ⟨sender, member, _, p, proposal, subject⟩ := importable.regular.counted a m found
  cases accepted.symm.trans proposal
  have recovered := importable.sealed a m found _ subject
  rw [sender] at recovered
  exact ⟨a, member, recovered⟩

theorem seals_recovered :
    b.seals.map (codec.getSignatureAddress (prepareCommittedSeal block.hash)) = b.commits.keys.map some := by
  simp only [Ballot.seals, Assoc.values, AList.keys, keys, map_map]
  refine map_congr_left ?_
  rintro ⟨a, m⟩ entry
  have found : b.commits.lookup a = some m := AList.mem_lookup_iff.mpr entry
  obtain ⟨sender, _, _, p, proposal, subject⟩ := importable.regular.counted a m found
  cases accepted.symm.trans proposal
  exact (importable.sealed a m found _ subject).trans (congrArg some sender)

theorem seals_distinct :
    (b.seals.map (codec.getSignatureAddress (prepareCommittedSeal block.hash))).Nodup := by
  rw [importable.seals_recovered accepted]
  exact b.commits.keys_nodup.map (Option.some_injective _)

omit accepted

theorem header_accepted (lawful : codec.RoundTrips) (accepted : b.proposal = some block) (enough : b.quorum ≤ Assoc.size b.commits)
    (voters : b.fullnodes ≠ []) (order : List Bytes) (listed : order.Perm b.seals) (node : Node codec) (caches after : Caches)
    (snap : Snapshot)
    (parent : node.snapshot caches (uint64 block.header.number - 1) block.header.parentHash [] = .ok (snap, after))
    (same : snap.members.Perm b.fullnodes) : ∃ header done, writeCommittedSeals codec block.header order = .ok header ∧
      node.verifyCommittedSeals caches header [] = .ok done := by
  obtain ⟨digest, wellFormed⟩ := importable.formed block accepted
  obtain ⟨extra, found⟩ := Option.isSome_iff_exists.mp wellFormed
  have length : order.length = Assoc.size b.commits := by
    rw [listed.length_eq, Ballot.seals, length_map, Assoc.values_length]
  have required : snap.fullnodeSet.minApprovers = b.quorum := by
    rw [Ballot.quorum, ← same.length_eq]
    rfl
  have positive : 0 < b.quorum := by
    have size := length_pos_iff.mpr voters
    rw [Ballot.quorum, Nat.ceilDiv_eq_add_pred_div]
    omega
  have nonempty : order ≠ [] := by
    rw [← length_pos_iff, length]
    exact positive.trans_le enough
  have lengths : ∀ s ∈ order, s.length = sportExtraSeal := by
    intro s present
    obtain ⟨m, _, rfl⟩ := mem_map.mp (listed.mem_iff.mp present)
    exact copy_seal_length
  have distinct := (listed.map (codec.getSignatureAddress (prepareCommittedSeal block.hash))).nodup_iff.mpr
    (importable.seals_distinct accepted)
  have sealers : ∀ s ∈ order, ∃ a ∈ snap.members, codec.getSignatureAddress (prepareCommittedSeal block.hash) s = some a := by
    intro s present
    obtain ⟨a, member, recovered⟩ := importable.seal_member accepted s (listed.mem_iff.mp present)
    exact ⟨a, same.mem_iff.mpr member, recovered⟩
  have written := write_committed_seals_ok block.header order extra nonempty lengths found
  obtain ⟨done, verified⟩ := sealed_header_accepted lawful digest found parent
    nonempty (by rw [required, length]; exact enough) distinct sealers
  exact ⟨_, done, written, verified⟩

end Importable

theorem decided_block_importable (lawful : codec.RoundTrips) (wire : Wire (Block codec)) (address : Address)
    (c next : Core (Block codec)) (be : Sport.Backend (Block codec)) (event : Event (Block codec))
    (effects : List (Effect (Block codec))) (running : Running wire Served (Sealed (fun _ => true) wire) address c)
    (last : Sealed (fun _ => true) wire be c event) (stepped : step wire be c event = some (next, effects))
    (block : Block codec) (seals order : List Bytes) (decided : (block, seals) ∈ decisions effects)
    (listed : order.Perm seals) (node : Node codec) (caches after : Caches) (snap : Snapshot)
    (parent : node.snapshot caches (uint64 block.header.number - 1) block.header.parentHash [] = .ok (snap, after))
    (same : snap.members.Perm c.fullnodeSet.fullnodes) (members : c.fullnodeSet.fullnodes ≠ []) :
    ∃ header done, writeCommittedSeals codec block.header order = .ok header ∧
      node.verifyCommittedSeals caches header [] = .ok done := by
  obtain ⟨⟨owner, rfl⟩, sealed⟩ := last
  have move := step_moves wire owner.backend c event _ stepped
  obtain ⟨msg, src, given, accepted, rfl, enough, counting⟩ := move_decided wire _ _ _ _ _ _ _ move (block, seals) decided
  have counted := move_importable counting
    (fun msg src block same code accepted named =>
      sealed msg src block (given.trans same) code accepted named rfl)
    (running_importable running)
  obtain ⟨commits, frame⟩ := c.ballot.count_frame msg
  rw [frame] at counted enough listed
  exact counted.header_accepted lawful accepted enough members order listed node caches after snap parent same

def voteNode : Node Plain.codec := Plain.node [1, 2, 3, 4] 2

def votedBlock : Block Plain.codec :=
  ⟨Plain.header ((Plain.genesis [1, 2, 3, 4]).hash Plain.codec) 1 5 1 1 0, [], []⟩

def genuineSeal (signer : UInt8) : Bytes := signedBy signer (prepareCommittedSeal votedBlock.hash)

def voteCommit (address : Address) (committedSeal : Bytes) : Message (Block Plain.codec) :=
  ⟨msgCommit, .subject ⟨⟨0, 1⟩, votedBlock.hash⟩, address, [], committedSeal⟩

def voteWire : Wire (Block Plain.codec) :=
  tableWire [⟨msgPreprepare, .preprepare ⟨⟨0, 1⟩, votedBlock⟩, 1, [], []⟩, voteCommit 1 (genuineSeal 1),
    voteCommit 3 (genuineSeal 3), voteCommit 4 (genuineSeal 4), voteCommit 4 []]

def votedSeals (last : Bytes) : List Bytes := [last, genuineSeal 3, genuineSeal 1].map copySeal

variable (honest : Address → Bool) (c : Core (Block Plain.codec)) (event : Event (Block Plain.codec))

def genuine : Bool :=
  match c.input voteWire event with
  | .message msg _ =>
    !honest msg.address || msg.code != msgCommit || msg.decodeSubject.all fun subject =>
      Plain.codec.getSignatureAddress (prepareCommittedSeal subject.digest) (copySeal msg.committedSeal) ==
        some msg.address
  | _ => true

theorem genuine_sealed (checked : genuine honest c event = true) : Sealed honest voteWire voteNode.backend c event := by
  refine ⟨⟨voteNode, rfl⟩, ?_⟩
  intro msg src block given code _ named trusted
  simpa [genuine, given, code, named, trusted] using checked

def voteRun : Option (Core (Block Plain.codec)) :=
  boot voteWire voteNode.backend 2 (genuine honest)
    [.message (tablePayload 0 1), .message (tablePayload 1 1), .message (tablePayload 2 3)]

def decides (event : Event (Block Plain.codec)) (seals : List Bytes) (c : Core (Block Plain.codec)) : Bool :=
  genuine honest c event && c.fullnodeSet.fullnodes == [1, 2, 3, 4] &&
    (step voteWire voteNode.backend c event).any fun done => decisions done.2 == [(votedBlock, seals)]

theorem decides_facts (event : Event (Block Plain.codec)) (seals : List Bytes)
    (ran : (voteRun honest).any (decides honest event seals) = true) :
    ∃ c next effects, Running voteWire Served (Sealed honest voteWire) 2 c ∧
      Sealed honest voteWire voteNode.backend c event ∧ c.fullnodeSet.fullnodes = [1, 2, 3, 4] ∧
      step voteWire voteNode.backend c event = some (next, effects) ∧ (votedBlock, seals) ∈ decisions effects := by
  obtain ⟨c, booted, held⟩ := (Option.any_eq_true _ _).mp ran
  simp only [decides, Bool.and_eq_true, beq_iff_eq] at held
  obtain ⟨⟨checked, set⟩, stepped⟩ := held
  obtain ⟨⟨next, effects⟩, stepped, decided⟩ := (Option.any_eq_true _ _).mp stepped
  refine ⟨c, next, effects, ?_, genuine_sealed honest c event checked, set, stepped, ?_⟩
  · exact boot_running voteWire Served _ voteNode.backend 2 (genuine honest) ⟨voteNode, rfl⟩ (genuine_sealed honest) _ c booted
  · rw [beq_iff_eq.mp decided]
    exact mem_singleton_self _

def parentMembers : Option (List Address) :=
  match voteNode.snapshot voteNode.caches (uint64 votedBlock.header.number - 1) votedBlock.header.parentHash [] with
  | .ok (snap, _) => some snap.members
  | .error _ => none

theorem parent_snapshot :
    ∃ snap after, voteNode.snapshot voteNode.caches (uint64 votedBlock.header.number - 1) votedBlock.header.parentHash [] =
      .ok (snap, after) ∧ snap.members = [1, 2, 3, 4] := by
  have read : parentMembers = some [1, 2, 3, 4] := by decide +kernel
  rw [parentMembers] at read
  split at read
  · next snap after found => exact ⟨snap, after, found, Option.some.inj read⟩
  · cases read

def imports (seals : List Bytes) : Bool :=
  match writeCommittedSeals Plain.codec votedBlock.header seals with
  | .error _ => false
  | .ok header => (voteNode.verifyCommittedSeals voteNode.caches header []).isOk

-- The core counts the COMMIT of member 4 without a look at its seal, and the block it decides cannot be imported.
theorem junk_seal_not_importable : ∃ c next effects snap after,
      Running voteWire Served (Sealed (fun a => a != 4) voteWire) 2 c ∧
      Sealed (fun a => a != 4) voteWire voteNode.backend c (.message (tablePayload 4 4)) ∧
      c.fullnodeSet.maxFaulty = 1 ∧
      step voteWire voteNode.backend c (.message (tablePayload 4 4)) = some (next, effects) ∧
      (votedBlock, votedSeals []) ∈ decisions effects ∧
      voteNode.snapshot voteNode.caches (uint64 votedBlock.header.number - 1) votedBlock.header.parentHash [] =
        .ok (snap, after) ∧ snap.members = c.fullnodeSet.fullnodes ∧
      ∀ header done, writeCommittedSeals Plain.codec votedBlock.header (votedSeals []) = .ok header →
        voteNode.verifyCommittedSeals voteNode.caches header [] ≠ .ok done := by
  obtain ⟨c, next, effects, running, last, set, stepped, decided⟩ :=
    decides_facts (fun a => a != 4) (.message (tablePayload 4 4)) (votedSeals []) (by decide +kernel)
  obtain ⟨snap, after, parent, members⟩ := parent_snapshot
  have fails : imports (votedSeals []) = false := by decide +kernel
  refine ⟨c, next, effects, snap, after, running, last, ?_, stepped, decided, parent, members.trans set.symm, ?_⟩
  · rw [maxFaulty, size, set]
    rfl
  · intro header done written verified
    simp only [imports, written, verified, Except.isOk] at fails
    cases fails

theorem genuine_seals_importable :
    ∃ header done, writeCommittedSeals Plain.codec votedBlock.header (votedSeals (genuineSeal 4)) = .ok header ∧
      voteNode.verifyCommittedSeals voteNode.caches header [] = .ok done := by
  obtain ⟨c, next, effects, running, last, set, stepped, decided⟩ :=
    decides_facts (fun _ => true) (.message (tablePayload 3 4)) (votedSeals (genuineSeal 4)) (by decide +kernel)
  obtain ⟨snap, after, parent, members⟩ := parent_snapshot
  exact decided_block_importable Plain.round_trips voteWire 2 c next voteNode.backend _ effects running last stepped
    votedBlock _ _ decided (List.Perm.refl _) voteNode voteNode.caches after snap parent
    (by rw [members, set]) (by rw [set]; decide)

end Didux.Backend
