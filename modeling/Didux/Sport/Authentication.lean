import Didux.Sport.Handlers

set_option autoImplicit false

namespace Didux.Sport

variable {B : Type}

def Handled (code : Nat) : Prop :=
  code = msgPreprepare ∨ code = msgPrepare ∨ code = msgCommit ∨ code = msgRoundChange

instance (code : Nat) : Decidable (Handled code) :=
  inferInstanceAs (Decidable (code = msgPreprepare ∨ code = msgPrepare ∨ code = msgCommit ∨ code = msgRoundChange))

variable (wire : Wire B) (c : Core B) (payload : Bytes) (msg : Message B) (src : Address)

def Dispatched : Prop :=
  c.receive wire payload = .ok (msg, src) ∧ Handled msg.code

def Authentic : Prop :=
  ∀ msg src, Dispatched wire c payload msg src →
    wire.getSignatureAddress (msg.payloadNoSig wire) msg.signature = some src

def Impersonates : Prop :=
  ∃ msg signer, wire.fromPayload payload = some msg ∧ Handled msg.code ∧
    wire.getSignatureAddress (msg.payloadNoSig wire) msg.signature = some signer ∧
    signer ∈ c.fullnodeSet.fullnodes ∧ msg.address ∈ c.fullnodeSet.fullnodes ∧ msg.address ≠ signer

theorem check_fullnode_signature_ok (set : FullnodeSet) (data sig : Bytes) (signer : Address) :
    Core.checkFullnodeSignature wire set data sig = .ok signer ↔
      wire.getSignatureAddress data sig = some signer ∧ signer ∈ set.fullnodes := by
  cases recovered : wire.getSignatureAddress data sig with
  | none => simp [Core.checkFullnodeSignature, recovered]
  | some found =>
    by_cases member : found ∈ set.fullnodes
    · have known := (FullnodeSet.get_by_address_some_iff set found found).mpr ⟨rfl, member⟩
      simp only [Core.checkFullnodeSignature, recovered, known, Except.ok.injEq, Option.some.injEq]
      exact ⟨fun same => ⟨same, same ▸ member⟩, fun both => both.1⟩
    · have unknown := (FullnodeSet.get_by_address_none_iff set found).mpr member
      simp only [Core.checkFullnodeSignature, recovered, unknown, Option.some.injEq, reduceCtorEq, false_iff]
      exact fun both => member (both.1 ▸ both.2)

-- What receive checks of a payload: the signer is a member, the Address is a
-- member, and the sender that the handlers see is the Address.
theorem receive_ok_iff : c.receive wire payload = .ok (msg, src) ↔
      wire.fromPayload payload = some msg ∧ src = msg.address ∧ msg.address ∈ c.fullnodeSet.fullnodes ∧
        ∃ signer, wire.getSignatureAddress (msg.payloadNoSig wire) msg.signature = some signer ∧
          signer ∈ c.fullnodeSet.fullnodes := by
  cases decoded : wire.fromPayload payload with
  | none => simp [Core.receive, Core.fromPayload, decoded, bind, Except.bind]
  | some m =>
    cases checked : Core.checkFullnodeSignature wire c.fullnodeSet (m.payloadNoSig wire) m.signature with
    | error e =>
      simp only [Core.receive, Core.fromPayload, decoded, checked, bind, Except.bind, reduceCtorEq, false_iff,
        Option.some.injEq]
      rintro ⟨same, _, _, signer, recovered⟩
      subst same
      rw [(check_fullnode_signature_ok wire c.fullnodeSet _ _ signer).mpr recovered] at checked
      cases checked
    | ok signer =>
      have recovered := (check_fullnode_signature_ok wire c.fullnodeSet _ _ signer).mp checked
      by_cases member : m.address ∈ c.fullnodeSet.fullnodes
      · have known := (FullnodeSet.get_by_address_some_iff c.fullnodeSet m.address m.address).mpr ⟨rfl, member⟩
        simp only [Core.receive, Core.fromPayload, decoded, checked, known, bind, Except.bind, pure, Except.pure,
          Except.ok.injEq, Prod.mk.injEq, Option.some.injEq]
        constructor
        · rintro ⟨same, address⟩
          subst same
          exact ⟨rfl, address.symm, member, signer, recovered⟩
        · rintro ⟨same, address, _⟩
          subst same
          exact ⟨rfl, address.symm⟩
      · have unknown := (FullnodeSet.get_by_address_none_iff c.fullnodeSet m.address).mpr member
        simp only [Core.receive, Core.fromPayload, decoded, checked, unknown, bind, Except.bind, pure, Except.pure,
          reduceCtorEq, false_iff, Option.some.injEq]
        rintro ⟨same, _, present, _⟩
        subst same
        exact member present

theorem authentic_iff (wire : Wire B) (c : Core B) (payload : Bytes) :
    Authentic wire c payload ↔ ¬ Impersonates wire c payload := by
  constructor
  · rintro authentic ⟨msg, signer, decoded, handled, recovered, signerIn, addressIn, different⟩
    have received : c.receive wire payload = .ok (msg, msg.address) :=
      (receive_ok_iff wire c payload msg msg.address).mpr ⟨decoded, rfl, addressIn, signer, recovered, signerIn⟩
    have same := authentic msg msg.address ⟨received, handled⟩
    rw [recovered] at same
    exact different (Option.some.inj same).symm
  · intro honest msg src dispatched
    obtain ⟨decoded, sender, addressIn, signer, recovered, signerIn⟩ :=
      (receive_ok_iff wire c payload msg src).mp dispatched.1
    by_contra other
    refine honest ⟨msg, signer, decoded, dispatched.2, recovered, signerIn, addressIn, ?_⟩
    intro same
    exact other (by rw [recovered, sender, same])

def forgedRoundChange : Message BlockId :=
  { code := msgRoundChange, msg := .subject ⟨⟨1, 1⟩, 0⟩, address := 2, signature := [], committedSeal := [] }

def pairCore : Core BlockId :=
  let set : FullnodeSet := ⟨[1, 2], 0, some 1⟩
  { address := 1, state := .acceptRequest, fullnodeSet := set, waitingForRoundChange := false, backlogs := ∅
    current := newRoundState ⟨0, 1⟩ set 0 none none, roundChangeSet := newRoundChangeSet set, pendingRequests := [] }

theorem forged_round_change_counted : let wire := tableWire [forgedRoundChange]
    let payload : Bytes := 0 :: signedBy 1 [0]
    wire.getSignatureAddress [0] (signedBy 1 [0]) = some 1 ∧ ¬ Authentic wire pairCore payload ∧
      ∀ be, (pairCore.handleMsg wire be payload).map
        (fun out => (out.core.roundChangeSet.roundChanges.lookup 1).map fun ms => ms.messages.keys) = some (some [2]) := by
  refine ⟨by decide, ?_, fun be => rfl⟩
  intro authentic
  have recovered := authentic { forgedRoundChange with signature := signedBy 1 [0] } 2 ⟨rfl, by decide⟩
  exact absurd recovered (by decide)

end Didux.Sport
