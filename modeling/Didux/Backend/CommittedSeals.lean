import Didux.Backend.Engine

set_option autoImplicit false

namespace Didux.Backend

open Sport List Plain

section Seals

variable {codec : Codec}

-- The committed seals of a header, none where its extra data does not decode.
def Header.committedSeals (codec : Codec) (header : Header) : List Bytes :=
  match extractSportExtra codec header with
  | none => []
  | some extra => extra.committedSeal

-- The approvals a block needs: one less up to the fork block, and always where there is no fork.
def requiredApprovals (sixtySixPercentBlock : Option Nat) (number minApprovers : Nat) : Nat :=
  match sixtySixPercentBlock with
  | none => minApprovers - 1
  | some planned => if planned < number then minApprovers else minApprovers - 1

section Signers

variable (codec : Codec) (proposalSeal : Bytes) (members : List Address) (seals : List Bytes) (signers : List Address)

structure Signers : Prop where
  recovered : seals.map (codec.getSignatureAddress proposalSeal) = signers.map some
  inside : ∀ a ∈ signers, a ∈ members
  once : signers.Nodup

-- Each seal takes one entry out of the set, so a fullnode that is listed twice may seal twice.
structure Matched : Prop where
  recovered : seals.map (codec.getSignatureAddress proposalSeal) = signers.map some
  taken : signers.Subperm members

end Signers

section Header

variable (codec : Codec) (sixtySixPercentBlock : Option Nat) (set : FullnodeSet) (header : Header)

def MatchedBy (signers : List Address) : Prop :=
  header.committedSeals codec ≠ [] ∧
    Matched codec (prepareCommittedSeal (header.hash codec)) set.fullnodes (header.committedSeals codec) signers

def Approved : Prop :=
  header.committedSeals codec ≠ [] ∧
    (∃ signers, Signers codec (prepareCommittedSeal (header.hash codec)) set.fullnodes (header.committedSeals codec) signers) ∧
    requiredApprovals sixtySixPercentBlock header.number set.minApprovers ≤ (header.committedSeals codec).length

def Stranded : Prop :=
  sixtySixPercentBlock = none ∧ (∃ signers, MatchedBy codec set header signers) ∧
    (header.committedSeals codec).length < set.minApprovers

def Doubled : Prop :=
  (∃ signers, MatchedBy codec set header signers ∧ ¬ signers.Nodup) ∧
    requiredApprovals sixtySixPercentBlock header.number set.minApprovers ≤ (header.committedSeals codec).length

end Header

theorem matched_cons (proposalSeal : Bytes) (members signers : List Address) (first : Bytes) (seals : List Bytes) (a : Address)
    (recovered : codec.getSignatureAddress proposalSeal first = some a) (member : a ∈ members) :
    Matched codec proposalSeal members (first :: seals) (a :: signers) ↔
      Matched codec proposalSeal (members.erase a) seals signers := by
  have shorter : (a :: signers).Subperm members ↔ signers.Subperm (members.erase a) :=
    (perm_cons_erase member).subperm_left.trans (subperm_cons a)
  constructor
  · rintro ⟨all, taken⟩
    exact ⟨tail_eq_of_cons_eq all, shorter.mp taken⟩
  · rintro ⟨all, taken⟩
    exact ⟨by rw [map_cons, map_cons, recovered, all], shorter.mpr taken⟩

theorem remove_member (set : FullnodeSet) (a : Address) (member : a ∈ set.fullnodes) :
    set.removeFullnode a = ({ set with fullnodes := set.fullnodes.erase a }, true) := if_pos member

variable (proposalSeal : Bytes) (fullnodes : FullnodeSet) (validSeal : Nat)

theorem count_valid_seals_matched (seals : List Bytes)
    (signers : List Address) (matched : Matched codec proposalSeal fullnodes.fullnodes seals signers) :
    countValidSeals codec proposalSeal fullnodes validSeal seals = .ok (validSeal + seals.length) := by
  induction seals generalizing fullnodes validSeal signers with
  | nil => rfl
  | cons first rest ih =>
    cases signers with
    | nil => exact nomatch matched.recovered
    | cons a signers =>
      have recovered := head_eq_of_cons_eq matched.recovered
      have member := matched.taken.subset mem_cons_self
      rw [countValidSeals, recovered]
      simp only [remove_member _ a member, if_true]
      rw [ih _ (validSeal + 1) signers ((matched_cons proposalSeal _ signers first rest a recovered member).mp matched), length_cons]
      congr 1
      omega

theorem count_valid_seals_unmatched (seals : List Bytes)
    (unmatched : ∀ signers, ¬ Matched codec proposalSeal fullnodes.fullnodes seals signers) :
    ∃ e, countValidSeals codec proposalSeal fullnodes validSeal seals = .error e ∧ e ≠ .panic := by
  induction seals generalizing fullnodes validSeal with
  | nil => exact absurd ⟨rfl, nil_subperm⟩ (unmatched [])
  | cons first rest ih =>
    rw [countValidSeals]
    cases recovered : codec.getSignatureAddress proposalSeal first with
    | none => exact ⟨_, rfl, nofun⟩
    | some a =>
      by_cases member : a ∈ fullnodes.fullnodes
      · simp only [remove_member _ a member]
        exact ih _ (validSeal + 1) fun signers matched =>
          unmatched (a :: signers) ((matched_cons proposalSeal _ signers first rest a recovered member).mpr matched)
      · have removed : fullnodes.removeFullnode a = (fullnodes, false) := if_neg member
        simp only [removed]
        exact ⟨_, rfl, nofun⟩

theorem matched_perm {proposalSeal : Bytes} {members others : List Address} {seals : List Bytes} {signers : List Address}
    (same : members.Perm others) (matched : Matched codec proposalSeal members seals signers) :
    Matched codec proposalSeal others seals signers :=
  ⟨matched.recovered, same.subperm_left.mp matched.taken⟩

def judgeSeals (sixtySixPercentBlock : Option Nat) (number minApprovers validSeal : Nat) : Except EngineError Unit :=
  if validSeal < minApprovers then
    match sixtySixPercentBlock with
    | none => .error .panic
    | some planned => if planned < number ∨ validSeal + 1 < minApprovers then .error .invalidCommittedSeals else .ok ()
  else .ok ()

section Verdict

variable (sixtySixPercentBlock : Option Nat)

theorem judge_seals_ok_iff (number minApprovers validSeal : Nat) (planned : sixtySixPercentBlock = none → minApprovers ≤ validSeal) :
    judgeSeals sixtySixPercentBlock number minApprovers validSeal ≠ .error .panic ∧
      (judgeSeals sixtySixPercentBlock number minApprovers validSeal = .ok () ↔
        requiredApprovals sixtySixPercentBlock number minApprovers ≤ validSeal) := by
  unfold judgeSeals requiredApprovals
  split_ifs with short
  · cases sixtySixPercentBlock with
    | none => exact absurd (planned rfl) (Nat.not_le.mpr short)
    | some fork =>
      dsimp only
      split_ifs with after late
      · exact ⟨nofun, nofun, fun enough => absurd enough (Nat.not_le.mpr short)⟩
      · exact ⟨nofun, nofun, fun enough => by omega⟩
      · exact ⟨nofun, fun _ => by omega, fun _ => rfl⟩
      · exact ⟨nofun, fun _ => by omega, fun _ => rfl⟩
  · refine ⟨nofun, fun _ => ?_, fun _ => rfl⟩
    split
    · omega
    · split_ifs <;> omega

variable (snap : Snapshot) (header : Header)

theorem check_matched_seals {signers : List Address} (matched : MatchedBy codec snap.fullnodeSet header signers) :
    checkCommittedSeals codec sixtySixPercentBlock snap header (header.committedSeals codec) =
      judgeSeals sixtySixPercentBlock header.number snap.fullnodeSet.minApprovers (header.committedSeals codec).length := by
  have counted := count_valid_seals_matched _ (snap.fullnodeSet.copy codec.text) 0 _ signers
    (matched_perm (FullnodeSet.copy_perm codec.text _).symm matched.2)
  rw [checkCommittedSeals, if_neg (by simpa using matched.1), counted, Nat.zero_add]
  rfl

theorem check_unmatched_seals (unmatched : ∀ signers, ¬ MatchedBy codec snap.fullnodeSet header signers) :
    ∃ e, checkCommittedSeals codec sixtySixPercentBlock snap header (header.committedSeals codec) = .error e ∧ e ≠ .panic := by
  by_cases empty : header.committedSeals codec = []
  · exact ⟨_, if_pos (by rw [empty]; rfl), nofun⟩
  · obtain ⟨e, failed, other⟩ := count_valid_seals_unmatched (prepareCommittedSeal (header.hash codec))
      (snap.fullnodeSet.copy codec.text) 0 (header.committedSeals codec)
      fun signers matched => unmatched signers ⟨empty, matched_perm (FullnodeSet.copy_perm codec.text _) matched⟩
    refine ⟨e, ?_, other⟩
    rw [checkCommittedSeals, if_neg (by simpa using empty), failed]

end Verdict

theorem verify_committed_seals_eq (node : Node codec) (caches after : Caches) (header : Header) (parents : List Header)
    (snap : Snapshot) (counted : uint64 header.number ≠ 0)
    (found : node.snapshot caches (uint64 header.number - 1) header.parentHash parents = .ok (snap, after)) :
    ((∃ signers, MatchedBy codec snap.fullnodeSet header signers) ∧ node.verifyCommittedSeals caches header parents =
      (judgeSeals node.chain.sixtySixPercentBlock header.number snap.fullnodeSet.minApprovers
        (header.committedSeals codec).length).map fun _ => after) ∨
    ((∀ signers, ¬ MatchedBy codec snap.fullnodeSet header signers) ∧
      ∃ e, node.verifyCommittedSeals caches header parents = .error e ∧ e ≠ .panic) := by
  rw [Node.verifyCommittedSeals, if_neg counted, found]
  cases decoded : extractSportExtra codec header with
  | none =>
    have none_ : header.committedSeals codec = [] := by rw [Header.committedSeals, decoded]
    exact .inr ⟨fun _ matched => matched.1 none_, _, rfl, nofun⟩
  | some extra =>
    have seals : extra.committedSeal = header.committedSeals codec := by rw [Header.committedSeals, decoded]
    dsimp only
    rw [seals]
    by_cases matched : ∃ signers, MatchedBy codec snap.fullnodeSet header signers
    · refine .inl ⟨matched, ?_⟩
      rw [check_matched_seals node.chain.sixtySixPercentBlock snap header matched.choose_spec]
      cases judgeSeals _ _ _ _ <;> rfl
    · have unmatched := not_exists.mp matched
      obtain ⟨e, failed, other⟩ := check_unmatched_seals node.chain.sixtySixPercentBlock snap header unmatched
      exact .inr ⟨unmatched, e, by rw [failed], other⟩

theorem parent_number_low (number : Nat) (counted : uint64 number ≠ 0) : uint64 (number - 1) = uint64 number - 1 := by
  unfold uint64 at counted ⊢
  omega

-- The seals recover to one list of signers, and enough of them are approvals exactly if it has no signer twice.
theorem approved_iff_once {sixtySixPercentBlock : Option Nat} {set : FullnodeSet} {header : Header} {signers : List Address}
    (matched : MatchedBy codec set header signers) :
    (requiredApprovals sixtySixPercentBlock header.number set.minApprovers ≤ (header.committedSeals codec).length ↔
      Approved codec sixtySixPercentBlock set header) ↔ ¬ Doubled codec sixtySixPercentBlock set header := by
  have one : ∀ {others}, (header.committedSeals codec).map (codec.getSignatureAddress (prepareCommittedSeal (header.hash codec))) =
      others.map some → others = signers :=
    fun same => map_injective_iff.mpr (Option.some_injective _) (same.symm.trans matched.2.recovered)
  constructor
  · rintro approves ⟨⟨others, again, twice⟩, enough⟩
    obtain ⟨_, ⟨single, signed⟩, _⟩ := approves.mp enough
    exact twice (one again.2.recovered ▸ one signed.recovered ▸ signed.once)
  · intro single
    refine ⟨fun enough => ⟨matched.1, ⟨signers, matched.2.recovered, matched.2.taken.subset, ?_⟩, enough⟩, fun approved => approved.2.2⟩
    by_contra twice
    exact single ⟨⟨signers, matched, twice⟩, enough⟩

-- A number of which the low 64 bits are zero passes for the one of the genesis block.
theorem committed_seals_checked_iff (node : Node codec) (caches after : Caches) (header : Header) (parents : List Header)
    (snap : Snapshot) (found : node.snapshot caches (uint64 (header.number - 1)) header.parentHash parents = .ok (snap, after)) :
    (node.verifyCommittedSeals caches header parents ≠ .error .panic ∧
      ((∃ done, node.verifyCommittedSeals caches header parents = .ok done) ↔
        Approved codec node.chain.sixtySixPercentBlock snap.fullnodeSet header)) ↔
      (uint64 header.number = 0 → Approved codec node.chain.sixtySixPercentBlock snap.fullnodeSet header) ∧
        (uint64 header.number ≠ 0 → ¬ Stranded codec node.chain.sixtySixPercentBlock snap.fullnodeSet header ∧
          ¬ Doubled codec node.chain.sixtySixPercentBlock snap.fullnodeSet header) := by
  by_cases zero : uint64 header.number = 0
  · have passed : node.verifyCommittedSeals caches header parents = .ok caches := by rw [Node.verifyCommittedSeals, if_pos zero]
    rw [passed]
    constructor
    · rintro ⟨_, accepts⟩
      exact ⟨fun _ => accepts.mp ⟨caches, rfl⟩, fun counted => absurd zero counted⟩
    · rintro ⟨approved, _⟩
      exact ⟨nofun, fun _ => approved zero, fun _ => ⟨caches, rfl⟩⟩
  · rw [parent_number_low header.number zero] at found
    simp only [zero, false_implies, true_and, ne_eq, not_false_eq_true, true_implies]
    obtain ⟨⟨signers, matched⟩, verdict⟩ | ⟨unmatched, e, verdict, other⟩ :=
      verify_committed_seals_eq node caches after header parents snap zero found
    · by_cases stranded : Stranded codec node.chain.sixtySixPercentBlock snap.fullnodeSet header
      · have crashed : node.verifyCommittedSeals caches header parents = .error .panic := by
          rw [verdict, stranded.1, judgeSeals, if_pos stranded.2.2]
          rfl
        simp [crashed, stranded]
      · have judged := judge_seals_ok_iff node.chain.sixtySixPercentBlock header.number snap.fullnodeSet.minApprovers
          (header.committedSeals codec).length fun unset => Nat.not_lt.mp fun short =>
            stranded ⟨unset, ⟨signers, matched⟩, short⟩
        rw [← approved_iff_once matched, ← judged.2, verdict]
        generalize judgeSeals _ _ _ _ = outcome at judged
        cases outcome with
        | error e => simpa [Except.map, stranded] using fun _ same => judged.1 (congrArg Except.error same)
        | ok => simp [Except.map, stranded]
    · have refused : ¬ Approved codec node.chain.sixtySixPercentBlock snap.fullnodeSet header := by
        rintro ⟨filled, ⟨signers, signed⟩, _⟩
        exact unmatched signers ⟨filled, signed.recovered, signed.once.subperm signed.inside⟩
      simp [verdict, other, refused, Stranded, Doubled, unmatched]

end Seals

namespace Plain

def approvedBy (signers : List UInt8) (time : Nat) : Header :=
  { header 1 1 0 1 0 0 with
    time := time
    extra := replicate 32 0 ++ encodeExtra ⟨[], signedBy 1 (hashBytes 257),
      signers.map fun signer => signedBy signer (prepareCommittedSeal 257)⟩ }

def forkless (members : List UInt8) : Node codec :=
  { node members 1 with chain := { (node members 1).chain with sixtySixPercentBlock := none } }

def snapshotIn (node : Node codec) (header : Header) : Except EngineError (Snapshot × Caches) :=
  node.snapshot node.caches (uint64 (header.number - 1)) header.parentHash []

end Plain

theorem three_seals_checked : ∃ snap after, snapshotIn (node [1, 2, 3, 4] 1) (approvedBy [2, 3, 4] 1) = .ok (snap, after) ∧
    ((node [1, 2, 3, 4] 1).verifyCommittedSeals ⟨∅, ∅⟩ (approvedBy [2, 3, 4] 1) [] ≠ .error .panic ∧
      ((∃ done, (node [1, 2, 3, 4] 1).verifyCommittedSeals ⟨∅, ∅⟩ (approvedBy [2, 3, 4] 1) [] = .ok done) ↔
        Approved codec (some 0) snap.fullnodeSet (approvedBy [2, 3, 4] 1))) := by
  have known : (snapshotIn (node [1, 2, 3, 4] 1) (approvedBy [2, 3, 4] 1)).isOk = true := by decide +kernel
  cases found : snapshotIn (node [1, 2, 3, 4] 1) (approvedBy [2, 3, 4] 1) with
  | error e => rw [found] at known; cases known
  | ok held =>
    refine ⟨held.1, held.2, rfl, (committed_seals_checked_iff (node [1, 2, 3, 4] 1) ⟨∅, ∅⟩ held.2
      (approvedBy [2, 3, 4] 1) [] held.1 found).mpr ⟨fun zero => ?_, fun _ => ⟨?_, ?_⟩⟩⟩
    · exact absurd zero (by decide)
    · exact fun stranded => nomatch stranded.1
    · rintro ⟨⟨signers, matched, twice⟩, -⟩
      have recovered : [2, 3, 4].map some = signers.map some := (by decide +kernel : _ = _).trans matched.2.recovered
      rw [← map_injective_iff.mpr (Option.some_injective Address) recovered] at twice
      exact twice (by decide)

-- Two of four seals without a fork block.
theorem unset_fork_block_crashes :
    ((forkless [1, 2, 3, 4]).verifyCommittedSeals ⟨∅, ∅⟩ (approvedBy [2, 3] 1) []).map (fun _ => ()) = .error .panic := by
  decide +kernel

end Didux.Backend
