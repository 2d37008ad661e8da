import Didux.Sport.Lock

set_option autoImplicit false

namespace Didux.Sport

open BlockProposal

variable {B : Type}

structure Decision (B : Type) where
  who : Address
  sequence : Nat
  proposal : B
deriving DecidableEq, Repr

structure World (B : Type) where
  cores : Address → Option (Core B)
  sent : List (Message B)
  decided : List (Decision B)

def World.empty : World B := ⟨fun _ => none, [], []⟩

def Effect.broadcasted : Effect B → Option (Message B)
  | .broadcast m => some m
  | _ => none

def broadcasts (effects : List (Effect B)) : List (Message B) := effects.filterMap Effect.broadcasted

theorem mem_votes_iff (effects : List (Effect B)) (m : Message B) :
    m ∈ votes effects ↔ m ∈ broadcasts effects ∧ m.code = msgCommit := by
  simp only [votes, broadcasts, List.mem_filterMap]
  constructor
  · rintro ⟨effect, member, voted⟩
    cases effect with
    | broadcast sent =>
      by_cases commit : sent.code = msgCommit
      · simp only [Effect.vote, if_pos commit, Option.some.injEq] at voted
        exact ⟨⟨_, member, congrArg some voted⟩, voted ▸ commit⟩
      · simp [Effect.vote, commit] at voted
    | gossip payload => cases voted
    | commit p seals => cases voted
    | post event => cases voted
    | postAfterDelay event => cases voted
  · rintro ⟨⟨effect, member, sent⟩, commit⟩
    cases effect with
    | broadcast other =>
      cases sent
      exact ⟨_, member, by simp only [Effect.vote, if_pos commit]⟩
    | gossip payload => cases sent
    | commit p seals => cases sent
    | post event => cases sent
    | postAfterDelay event => cases sent

def World.record (w : World B) (a : Address) (c : Core B) (done : Core B × List (Effect B)) : World B where
  cores := Function.update w.cores a (some done.1)
  sent := broadcasts done.2 ++ w.sent
  decided := (decisions done.2).map (fun decision => ⟨a, c.current.sequence, decision.1⟩) ++ w.decided

def World.install (w : World B) (a : Address) (done : Core B × List (Effect B)) : World B :=
  { w with cores := Function.update w.cores a (some done.1), sent := broadcasts done.2 ++ w.sent }

def World.Sent (w : World B) (faulty : Finset Address) (msg : Message B) : Prop :=
  msg.address ∈ faulty ∨ ∃ m ∈ w.sent, m.address = msg.address ∧ m.code = msg.code ∧ m.msg = msg.msg

variable [BlockProposal B]

structure Faithful (sets : Nat → FullnodeSet) (w : World B) (be : Backend B) : Prop where
  known : ∀ hash number, be.hasBlockProposal hash number = true → number = 0 ∨
    ∃ d ∈ w.decided, BlockProposal.hash d.proposal = hash ∧ BlockProposal.number d.proposal = number
  commits : ∀ p seals, be.commit p seals = true
  good : ∀ hash, be.hasBadBlockProposal hash = false
  members : ∀ p, (be.fullnodes p).fullnodes = (sets (number p + 1)).fullnodes

-- Any node takes any next event. Messages may be lost, repeated and reordered, and
-- faulty nodes may send anything under their own name. A node that starts again
-- starts in a sequence it has not been in.
inductive World.Step (wire : Wire B) (faulty : Finset Address) (sets : Nat → FullnodeSet) : World B → World B → Prop where
  | handle (w : World B) (a : Address) (c : Core B) (be : Backend B) (event : Event B) (done : Core B × List (Effect B))
      (honest : a ∉ faulty) (present : w.cores a = some c) (faithful : Faithful sets w be)
      (verifies : ∀ p, be.verify p = .ok () → number p = c.current.sequence)
      (authentic : ∀ msg src, c.input wire event = .message msg src → w.Sent faulty msg)
      (stepped : Core.step wire be c event = some done) : World.Step wire faulty sets w (w.record a c done)
  | boot (w : World B) (a : Address) (be : Backend B) (done : Core B × List (Effect B)) (honest : a ∉ faulty)
      (faithful : Faithful sets w be)
      (later : ∀ c, w.cores a = some c → c.current.sequence < done.1.current.sequence)
      (started : Core.start wire be a = some done) : World.Step wire faulty sets w (w.install a done)

def World.Reachable (wire : Wire B) (faulty : Finset Address) (sets : Nat → FullnodeSet) : World B → Prop :=
  Runs.Reached (fun w => w = World.empty) (World.Step wire faulty sets)

def World.act (wire : Wire B) [DecidableEq B] (faulty : Finset Address) (backend : Address → Backend B) (admits : Core B → Bool)
    (w : World B) : Address × Option (Event B) → Option (World B)
  | (a, none) => if a ∉ faulty ∧ (w.cores a).isNone then (Core.start wire (backend a) a).map (w.install a) else none
  | (a, some event) => (w.cores a).bind fun c => let authentic := match c.input wire event with
      | .message msg _ => decide (msg.address ∈ faulty) ||
          w.sent.any fun m => m.address == msg.address && m.code == msg.code && decide (m.msg = msg.msg)
      | _ => true
    if a ∉ faulty ∧ (admits c && authentic) then (Core.step wire (backend a) c event).map (w.record a c) else none

theorem act_step (wire : Wire B) [DecidableEq B] (faulty : Finset Address) (backend : Address → Backend B) (admits : Core B → Bool)
    (sets : Nat → FullnodeSet) (faithful : ∀ w a, Faithful sets w (backend a))
    (verifies : ∀ a c p, admits c = true → (backend a).verify p = .ok () → number p = c.current.sequence)
    (w next : World B) (action : Address × Option (Event B)) (acted : w.act wire faulty backend admits action = some next) :
    World.Step wire faulty sets w next := by
  obtain ⟨a, taken⟩ := action
  cases taken with
  | none =>
    simp only [World.act] at acted
    split_ifs at acted with absent
    obtain ⟨done, started, same⟩ := Option.map_eq_some_iff.mp acted
    rw [← same]
    refine .boot w a (backend a) done absent.1 (faithful w a) ?_ started
    intro c present
    rw [present] at absent
    cases absent.2
  | some event =>
    obtain ⟨c, present, ran⟩ := Option.bind_eq_some_iff.mp acted
    dsimp only at ran
    split_ifs at ran with checked
    obtain ⟨honest, checked⟩ := checked
    rw [Bool.and_eq_true] at checked
    obtain ⟨done, stepped, same⟩ := Option.map_eq_some_iff.mp ran
    rw [← same]
    refine .handle w a c (backend a) event done honest present (faithful w a)
      (fun p => verifies a c p checked.1) ?_ stepped
    intro msg src given
    have found := checked.2
    rw [given] at found
    rcases (Bool.or_eq_true _ _).mp found with byFaulty | found
    · exact .inl (of_decide_eq_true byFaulty)
    obtain ⟨m, member, matches_⟩ := List.any_eq_true.mp found
    simp only [Bool.and_eq_true, beq_iff_eq, decide_eq_true_eq] at matches_
    exact .inr ⟨m, member, matches_.1.1, matches_.1.2, matches_.2⟩

def World.run (wire : Wire B) [DecidableEq B] (faulty : Finset Address) (backend : Address → Backend B) (admits : Core B → Bool) :
    List (Address × Option (Event B)) → World B → Option (World B)
  | [], w => some w
  | action :: actions, w => (w.act wire faulty backend admits action).bind (World.run wire faulty backend admits actions)

theorem run_reachable (wire : Wire B) [DecidableEq B] (faulty : Finset Address) (backend : Address → Backend B)
    (admits : Core B → Bool) (sets : Nat → FullnodeSet) (faithful : ∀ w a, Faithful sets w (backend a))
    (verifies : ∀ a c p, admits c = true → (backend a).verify p = .ok () → number p = c.current.sequence)
    (actions : List (Address × Option (Event B))) (w last : World B) (reachable : World.Reachable wire faulty sets w)
    (ran : World.run wire faulty backend admits actions w = some last) : World.Reachable wire faulty sets last := by
  induction actions generalizing w with
  | nil =>
    cases ran
    exact reachable
  | cons action actions ih =>
    obtain ⟨next, acted, rest⟩ := Option.bind_eq_some_iff.mp ran
    exact ih next (Runs.reached_step _ _ w next reachable
      (act_step wire faulty backend admits sets faithful verifies w next action acted)) rest

end Didux.Sport
