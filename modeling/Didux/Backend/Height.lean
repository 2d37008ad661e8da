import Didux.Backend.Engine
import Didux.Sport.Run

set_option autoImplicit false

namespace Didux.Backend

open Sport

variable {codec : Codec}

variable (node : Node codec) (sequence : Nat)

def Extends (header : Header) : Prop :=
  header.number ≠ 0 ∧ header.number < 2 ^ 64 ∧
    ∀ parent, node.chain.getHeader header.parentHash (uint64 header.number - 1) = some parent →
      parent.number < 2 ^ 64 ∧ parent.number + 1 = sequence

theorem verified_height (block : Block codec)
    (verified : node.verify block = .ok ()) (placed : Extends node sequence block.header) : block.header.number = sequence := by
  obtain ⟨positive, small, below⟩ := placed
  have whole : uint64 block.header.number = block.header.number := Nat.mod_eq_of_lt small
  have link := node.verified_parent block verified
  rw [whole] at link below
  obtain zero | ⟨parent, known, number, _⟩ := link
  · exact absurd zero positive
  · obtain ⟨parentSmall, next⟩ := below parent known
    rw [uint64] at number
    omega

def Served (be : Sport.Backend (Block codec)) : Prop := ∃ node : Node codec, be = node.backend

def ServedInOrder (wire : Wire (Block codec)) (be : Sport.Backend (Block codec)) (c : Core (Block codec))
    (event : Event (Block codec)) : Prop :=
  ∃ node : Node codec, be = node.backend ∧
    ∀ msg src pp, c.input wire event = .message msg src → msg.code = msgPreprepare → msg.decodePreprepare = some pp →
      pp.view = c.currentView → node.verify pp.blockProposal = .ok () →
        Extends node c.current.sequence pp.blockProposal.header

theorem ballot_height (wire : Wire (Block codec)) (address : Address) (c : Core (Block codec))
    (running : Running wire Served (ServedInOrder wire) address c) :
    ∀ block, c.ballot.proposal = some block → BlockProposal.number block = c.ballot.sequence := by
  refine running_invariant wire Served (ServedInOrder wire) address
    (fun b => ∀ block, b.proposal = some block → BlockProposal.number block = b.sequence) ?_ ?_ c running
  · intro be last lastSpeaker speaker _ _ block accepted
    cases accepted
  · rintro be state event next proposed voted decided ⟨node, rfl, inOrder⟩ height move
    refine move_proposal wire node.backend _ _ _ _ _ _ (fun sequence block => BlockProposal.number block = sequence) move ?_
      height
    intro msg src pp given code decoded view verified
    have accepted := node.backend_verify_ok pp.blockProposal verified
    exact verified_height node _ _ accepted (inOrder msg src pp given code decoded view accepted)

theorem accepted_at_sequence (wire : Wire (Block codec)) (address : Address) (c : Core (Block codec))
    (running : Running wire Served (ServedInOrder wire) address c) :
    (∀ pp, c.current.preprepare = some pp → pp.blockProposal.header.number = c.current.sequence) ∧
      ∀ be event next effects, Core.step wire be c event = some (next, effects) →
        ∀ decision ∈ decisions effects, decision.1.header.number = c.current.sequence := by
  have height := ballot_height wire address c running
  refine ⟨?_, ?_⟩
  · intro pp accepted
    exact height pp.blockProposal (congrArg (Option.map Preprepare.blockProposal) accepted)
  · intro be event next effects stepped decision made
    have move := Core.step_moves wire be c event _ stepped
    obtain ⟨_, _, _, accepted, _⟩ := move_decided wire be _ _ _ _ _ _ move decision made
    exact height decision.1 accepted

def offered (number : Nat) : Block Plain.codec :=
  ⟨Plain.header ((Plain.genesis [1, 2]).hash Plain.codec) number 5 1 1 0, [], []⟩

def offerWire (number : Nat) : Wire (Block Plain.codec) :=
  tableWire [⟨msgPreprepare, .preprepare ⟨⟨0, 1⟩, offered number⟩, 1, [], []⟩]

def offerRun (number : Nat) (admits : Core (Block Plain.codec) → Event (Block Plain.codec) → Bool) :
    Option (Core (Block Plain.codec)) :=
  Core.boot (offerWire number) (Plain.node [1, 2] 2).backend 2 admits [.message (tablePayload 0 1)]

def accepts (number sequence : Nat) (c : Core (Block Plain.codec)) : Bool :=
  c.current.sequence == sequence && c.current.preprepare.any fun pp => pp.blockProposal.header.number == number

-- The genesis block has no parent to compare with, so a block of number zero is accepted in every sequence.
theorem number_zero_accepted : ∃ c, Running (offerWire 0) Served (fun be _ _ => Served be) 2 c ∧
      ∃ pp, c.current.preprepare = some pp ∧ pp.blockProposal.header.number ≠ c.current.sequence := by
  have ran : (offerRun 0 fun _ _ => true).any (accepts 0 1) = true := by decide +kernel
  obtain ⟨c, booted, held⟩ := (Option.any_eq_true _ _).mp ran
  obtain ⟨sequence, accepted⟩ := (Bool.and_eq_true _ _).mp held
  obtain ⟨pp, known, number⟩ := (Option.any_eq_true _ _).mp accepted
  refine ⟨c, boot_running _ _ _ _ 2 _ ⟨_, rfl⟩ (fun _ _ _ => ⟨_, rfl⟩) _ c booted, pp, known, ?_⟩
  rw [beq_iff_eq.mp sequence, beq_iff_eq.mp number]
  decide

def extendsGenesis (c : Core (Block Plain.codec)) (event : Event (Block Plain.codec)) : Bool :=
  c.current.sequence == 1 &&
    match c.input (offerWire 1) event with
    | .message msg _ => msg.decodePreprepare.all fun pp => pp.blockProposal.header.number == 1
    | _ => true

theorem extends_genesis_in_order (c : Core (Block Plain.codec)) (event : Event (Block Plain.codec))
    (admitted : extendsGenesis c event = true) : ServedInOrder (offerWire 1) (Plain.node [1, 2] 2).backend c event := by
  obtain ⟨sequence, first⟩ := (Bool.and_eq_true _ _).mp admitted
  refine ⟨Plain.node [1, 2] 2, rfl, ?_⟩
  intro msg src pp given _ decoded _ _
  simp only [given, decoded, Option.all_some, beq_iff_eq] at first
  rw [beq_iff_eq.mp sequence, Extends, first]
  refine ⟨by decide, by decide, ?_⟩
  intro parent known
  simp only [Plain.node] at known
  split_ifs at known
  cases known
  exact ⟨by decide, rfl⟩

theorem accepted_at_sequence_one : ∃ c pp, offerRun 1 extendsGenesis = some c ∧ c.current.preprepare = some pp ∧
      pp.blockProposal.header.number = c.current.sequence := by
  have ran : (offerRun 1 extendsGenesis).any (accepts 1 1) = true := by decide +kernel
  obtain ⟨c, booted, held⟩ := (Option.any_eq_true _ _).mp ran
  obtain ⟨_, accepted⟩ := (Bool.and_eq_true _ _).mp held
  obtain ⟨pp, known, _⟩ := (Option.any_eq_true _ _).mp accepted
  have running := boot_running (offerWire 1) Served (ServedInOrder (offerWire 1)) (Plain.node [1, 2] 2).backend 2
    extendsGenesis ⟨_, rfl⟩ extends_genesis_in_order _ c booted
  exact ⟨c, pp, booted, known, (accepted_at_sequence (offerWire 1) 2 c running).1 pp known⟩

end Didux.Backend
