import Didux.Sport.Run

set_option autoImplicit false

namespace Didux.Sport

open BlockProposal

variable {B : Type}

variable {b : Ballot B} {H : Hash}

theorem carry_keeps {bad : Hash → Bool} (round : Nat) (real : H ≠ 0)
    (good : bad H = false) (held : b.lock = H) : (b.carry bad round).lock = H := by
  rw [Ballot.carry_locked bad b round ⟨held ▸ real, held ▸ good⟩]
  exact held

variable [BlockProposal B]

def Ballot.Backs (b : Ballot B) (H : Hash) : Prop :=
  b.lock = H → ∃ p, b.proposal = some p ∧ hash p = H

theorem carry_backs (bad : Hash → Bool) (round : Nat) (real : H ≠ 0) (backs : b.Backs H) : (b.carry bad round).Backs H := by
  intro held
  by_cases locked : b.Locked bad
  · rw [Ballot.carry_locked bad b round locked] at held ⊢
    exact backs held
  · rw [Ballot.carry_unlocked bad b round locked] at held
    exact absurd held.symm real

variable (wire : Wire B) (H : Hash) (be : Backend B) (c : Core B)

theorem move_backs (b next : Ballot B) (input : Input B) (proposed : List B) (voted : List (Message B))
    (decided : List (B × List Bytes)) (H : Hash) (real : H ≠ 0) (good : be.hasBadBlockProposal H = false)
    (move : Move wire be b input proposed voted decided next) (backs : b.Backs H) : next.Backs H := by
  cases move with
  | keep => exact backs
  | propose => exact backs
  | answerOld => exact backs
  | catchUp _ round => exact carry_backs be.hasBadBlockProposal round real backs
  | newRound _ round => exact carry_backs be.hasBadBlockProposal round real backs
  | newSequence => exact fun held => absurd held.symm real
  | accept msg src pp _ _ _ _ _ _ unlocked =>
    intro held
    have same : b.lock = H := held
    exact absurd ⟨same ▸ real, same ▸ good⟩ unlocked
  | acceptLocked msg src pp _ _ _ _ _ _ _ _ same => exact fun held => ⟨pp.blockProposal, rfl, same.trans held⟩
  | lockIn msg src p _ accepted => exact fun held => ⟨p, accepted, held⟩
  | count msg =>
    obtain ⟨commits, counted⟩ := b.count_frame msg
    rw [counted]
    exact backs
  | decide msg src p _ accepted =>
    obtain ⟨commits, counted⟩ := b.count_frame msg
    rw [counted]
    exact fun held => ⟨p, accepted, held⟩
  | decideFailed msg =>
    have dropped : ({ b.count msg with lock := 0, state := .committed } : Ballot B).Backs H :=
      fun held => absurd held.symm real
    exact carry_backs be.hasBadBlockProposal (b.round + 1) real dropped

def KeepsLock (H : Hash) (be : Backend B) : Prop :=
  be.hasBadBlockProposal H = false ∧ ∀ p seals, be.commit p seals = true

theorem move_keeps_lock (b next : Ballot B) (input : Input B) (proposed : List B) (voted : List (Message B))
    (decided : List (B × List Bytes)) (H : Hash) (real : H ≠ 0) (keeps : KeepsLock H be)
    (move : Move wire be b input proposed voted decided next) (held : b.lock = H) (backs : b.Backs H)
    (stays : next.sequence = b.sequence) : next.lock = H := by
  cases move with
  | keep => exact held
  | propose => exact held
  | answerOld => exact held
  | catchUp _ round => exact carry_keeps round real keeps.1 held
  | newRound _ round => exact carry_keeps round real keeps.1 held
  | newSequence _ last speaker later =>
    have same : number last + 1 = b.sequence := stays
    omega
  | accept => exact held
  | acceptLocked => exact held
  | lockIn msg src p _ accepted =>
    obtain ⟨q, found, hash⟩ := backs held
    rw [accepted] at found
    cases found
    exact hash
  | count msg =>
    obtain ⟨commits, counted⟩ := b.count_frame msg
    rw [counted]
    exact held
  | decide msg src p _ accepted =>
    obtain ⟨q, found, hash⟩ := backs held
    rw [accepted] at found
    cases found
    exact hash
  | decideFailed msg src p _ _ _ _ _ _ failed =>
    rw [keeps.2] at failed
    cases failed

theorem move_votes_locked {next : Ballot B} {input : Input B} {proposed : List B} {voted : List (Message B)}
    {decided : List (B × List Bytes)} {H : Hash} (move : Move wire be b input proposed voted decided next)
    (held : b.lock = H) (backs : b.Backs H) {m : Message B} (sent : m ∈ voted) {digest : Hash}
    (subject : m.decodeSubject = some ⟨b.view, digest⟩) : digest = H := by
  have named (b' : Ballot B) (sub : Subject) (signs : b'.Signs be sub m) : sub = ⟨b.view, digest⟩ := by
    rw [Message.decodeSubject, signs.2.1] at subject
    exact Option.some.inj subject
  cases move with
  | answerOld msg src pp _ _ _ old _ signed =>
    have view : pp.view = b.view := congrArg Subject.view (named b _ (signed m sent))
    rw [(view_cmp_eq_iff pp.view b.view).mpr view] at old
    cases old
  | acceptLocked msg src pp _ _ _ _ _ _ _ _ _ signed =>
    have same : b.lock = digest := congrArg Subject.digest (named _ _ (signed m sent))
    exact same.symm.trans held
  | lockIn msg src p _ accepted _ _ signed =>
    have same : hash p = digest := congrArg Subject.digest (named b _ (signed m sent))
    obtain ⟨q, found, hash⟩ := backs held
    rw [accepted] at found
    cases found
    exact same.symm.trans hash
  | keep => cases sent
  | propose => cases sent
  | catchUp => cases sent
  | newRound => cases sent
  | newSequence => cases sent
  | accept => cases sent
  | count => cases sent
  | decide => cases sent
  | decideFailed => cases sent

def ProposesAnew (wire : Wire B) (be : Backend B) (c : Core B) (event : Event B) (H : Hash) : Prop :=
  ∃ p, event = .request p ∧ number p = c.current.sequence ∧ hash p ≠ H ∧
    c.state = .acceptRequest ∧ c.isSpeaker = true ∧
    (c.finalizeMessage wire be msgPreprepare (.preprepare ⟨c.currentView, p⟩)).isSome

theorem move_proposals_locked (b next : Ballot B) (input : Input B) (proposed : List B) (voted : List (Message B))
    (decided : List (B × List Bytes)) (H : Hash) (real : H ≠ 0) (good : be.hasBadBlockProposal H = false)
    (move : Move wire be b input proposed voted decided next) (held : b.lock = H) (backs : b.Backs H)
    (other : ∀ p, input ≠ .request p) (p : B) (sent : p ∈ proposed) : hash p = H := by
  cases move with
  | propose q => exact absurd rfl (other q)
  | newRound _ round speaker _ _ _ kept =>
    have same := kept p sent ⟨held ▸ real, held ▸ good⟩
    obtain ⟨q, found, hash⟩ := backs held
    rw [same] at found
    cases found
    exact hash
  | keep => cases sent
  | answerOld => cases sent
  | catchUp => cases sent
  | newSequence => cases sent
  | accept => cases sent
  | acceptLocked => cases sent
  | lockIn => cases sent
  | count => cases sent
  | decide => cases sent
  | decideFailed => cases sent

theorem send_preprepare_mem_iff (p q : B) : q ∈ proposals (c.sendPreprepare wire be ⟨p⟩) ↔ q = p ∧ number p = c.current.sequence ∧
      c.isSpeaker = true ∧ (c.finalizeMessage wire be msgPreprepare (.preprepare ⟨c.currentView, p⟩)).isSome := by
  by_cases sends : c.current.sequence = number p ∧ c.isSpeaker
  · simp only [Core.sendPreprepare]
    rcases Core.broadcast_cases wire be c msgPreprepare (.preprepare ⟨c.currentView, p⟩) with none | ⟨m, sent, code, msg, _⟩
    · have unsigned : (c.finalizeMessage wire be msgPreprepare (.preprepare ⟨c.currentView, p⟩)).isSome = false := by
        cases finalized : c.finalizeMessage wire be msgPreprepare (.preprepare ⟨c.currentView, p⟩) with
        | none => rfl
        | some m => simp [Core.broadcast, finalized] at none
      simp [none, unsigned, proposals]
    · have signed : (c.finalizeMessage wire be msgPreprepare (.preprepare ⟨c.currentView, p⟩)).isSome = true := by
        cases finalized : c.finalizeMessage wire be msgPreprepare (.preprepare ⟨c.currentView, p⟩) with
        | none => simp [Core.broadcast, finalized] at sent
        | some m => rfl
      simp [sent, signed, sends.1, sends.2, proposals, Effect.proposal, code, Message.decodePreprepare, msg]
  · simp only [Core.sendPreprepare, if_neg sends]
    constructor
    · intro member
      cases member
    · rintro ⟨_, height, speaks, _⟩
      exact absurd ⟨height.symm, speaks⟩ sends

theorem request_proposals_mem_iff (next : Core B) (p q : B) (effects : List (Effect B))
    (stepped : Core.step wire be c (.request p) = some (next, effects)) :
    q ∈ proposals effects ↔ q = p ∧ number p = c.current.sequence ∧ c.state = .acceptRequest ∧
      c.isSpeaker = true ∧ (c.finalizeMessage wire be msgPreprepare (.preprepare ⟨c.currentView, p⟩)).isSome := by
  have same : effects = (Core.handleRequest wire be c ⟨p⟩).effects := by
    simp only [Core.step] at stepped
    split_ifs at stepped
    · exact (congrArg Prod.snd (Option.some.inj stepped)).symm
    · exact (congrArg Prod.snd (Option.some.inj stepped)).symm
  by_cases height : number p = c.current.sequence
  · have checked : c.checkRequestMsg ⟨p⟩ = .ok () := by simp [Core.checkRequestMsg, height]
    by_cases accepting : c.state = .acceptRequest
    · have sent := send_preprepare_mem_iff wire be { c with current := { c.current with pendingRequest := some ⟨p⟩ } } p q
      rw [same]
      simp only [Core.handleRequest, checked, if_pos accepting]
      rw [sent]
      simp only [accepting, true_and]
      rfl
    · rw [same]
      simp [Core.handleRequest, checked, accepting, proposals]
  · have refused : (Core.handleRequest wire be c ⟨p⟩).effects = [] := by
      cases checked : c.checkRequestMsg ⟨p⟩ with
      | error e => simp only [Core.handleRequest, checked]
      | ok _ =>
        simp only [Core.checkRequestMsg] at checked
        split at checked
        · cases checked
        · cases checked
        · next order => exact absurd (Nat.compare_eq_eq.mp order).symm height
    rw [same, refused]
    simp [proposals, height]

theorem proposals_locked_iff {next : Core B} {event : Event B} {effects : List (Effect B)} {H : Hash} (real : H ≠ 0)
    (good : be.hasBadBlockProposal H = false) (stepped : Core.step wire be c event = some (next, effects))
    (held : c.ballot.lock = H) (backs : c.ballot.Backs H) :
    (∀ p ∈ proposals effects, hash p = H) ↔ ¬ ProposesAnew wire be c event H := by
  have move := Core.step_moves wire be c event _ stepped
  have others (notRequest : ∀ p, c.input wire event ≠ .request p) : ∀ p ∈ proposals effects, hash p = H :=
    move_proposals_locked wire be c.ballot next.ballot _ _ _ _ H real good move held backs notRequest
  cases event with
  | request p =>
    have sent (q : B) := request_proposals_mem_iff wire be c next p q effects stepped
    constructor
    · rintro locked ⟨q, same, height, different, accepting, speaks, signed⟩
      cases same
      exact different (locked p ((sent p).mpr ⟨rfl, height, accepting, speaks, signed⟩))
    · intro quiet q member
      obtain ⟨same, height, accepting, speaks, signed⟩ := (sent q).mp member
      subst same
      by_contra different
      exact quiet ⟨q, rfl, height, different, accepting, speaks, signed⟩
  | message payload =>
    refine iff_of_true (others ?_) ?_
    · intro p
      cases received : c.receive wire payload <;> simp [Core.input, received]
    · rintro ⟨p, impossible, _⟩
      cases impossible
  | backlog src msg =>
    refine iff_of_true (others fun p impossible => by cases impossible) ?_
    rintro ⟨p, impossible, _⟩
    cases impossible
  | timeout =>
    refine iff_of_true (others fun p impossible => by cases impossible) ?_
    rintro ⟨p, impossible, _⟩
    cases impossible
  | finalCommitted =>
    refine iff_of_true (others fun p impossible => by cases impossible) ?_
    rintro ⟨p, impossible, _⟩
    cases impossible

def HoldsLock (H : Hash) (c : Core B) : Prop :=
  c.current.lockedHash = H ∧ ∃ preprepare, c.current.preprepare = some preprepare ∧
    hash preprepare.blockProposal = H

theorem holds_lock_iff : HoldsLock H c ↔ c.ballot.lock = H ∧ c.ballot.Backs H := by
  constructor
  · rintro ⟨held, preprepare, found, hash⟩
    refine ⟨held, fun _ => ⟨preprepare.blockProposal, ?_, hash⟩⟩
    simp only [Core.ballot, RoundState.blockProposal, found, Option.map_some]
  · rintro ⟨held, backs⟩
    obtain ⟨p, accepted, hash⟩ := backs held
    obtain ⟨preprepare, found, same⟩ := Option.map_eq_some_iff.mp accepted
    exact ⟨held, preprepare, found, same ▸ hash⟩

theorem running_backs {address : Address} {H : Hash} (real : H ≠ 0) {c : Core B}
    (running : Running wire (fun _ => True) (fun be _ _ => be.hasBadBlockProposal H = false) address c) : c.ballot.Backs H := by
  refine running_invariant wire _ _ address (fun b => b.Backs H) ?_ ?_ c running
  · exact fun _ _ _ _ _ _ held => absurd held.symm real
  · intro be state event next proposed voted decided good backs move
    exact move_backs wire be _ _ _ _ _ _ H real good move backs

theorem run_holds_lock (real : H ≠ 0) {c later : Core B} (held : HoldsLock H c)
    (run : Relation.ReflTransGen (Steps wire fun be _ _ => KeepsLock H be) c later) :
    c.currentView.cmp later.currentView ≠ .gt ∧ (later.current.sequence = c.current.sequence → HoldsLock H later) := by
  refine Runs.run_invariant _ (fun state : Core B => c.currentView.cmp state.currentView ≠ .gt ∧
    (state.current.sequence = c.current.sequence → HoldsLock H state)) ?_ c later run ?_
  · rintro state next ⟨advanced, holds⟩ ⟨be, event, effects, keeps, stepped⟩
    have move := Core.step_moves wire be state event _ stepped
    have before := (view_cmp_ne_gt_iff _ _).mp advanced
    have after := (move_view wire be _ _ _ _ _ _ move).2
    simp only [Core.ballot] at after
    simp only [Core.currentView, RoundState.view] at before
    refine ⟨(view_cmp_ne_gt_iff _ _).mpr ?_, ?_⟩
    · simp only [Core.currentView, RoundState.view]
      omega
    · intro stays
      have same : state.current.sequence = c.current.sequence := by omega
      obtain ⟨lock, backs⟩ := (holds_lock_iff H state).mp (holds same)
      refine (holds_lock_iff H next).mpr ⟨?_, move_backs wire be _ _ _ _ _ _ H real keeps.1 move backs⟩
      exact move_keeps_lock wire be _ _ _ _ _ _ H real keeps move lock backs (stays.trans same.symm)
  · exact ⟨(view_cmp_ne_gt_iff _ _).mpr (.inr ⟨rfl, Nat.le_refl _⟩), fun _ => held⟩

-- Lock law. A locked core keeps its lock and the proposal under it while it
-- stays in the sequence, its view only advances, and in every step the COMMITs
-- for its view are for the lock. The PREPREPAREs it sends are for the lock
-- unless the step takes a request that proposes anew.
theorem lock_law (wire : Wire B) (address : Address) (H : Hash) (real : H ≠ 0) (c later : Core B)
    (running : Running wire (fun _ => True) (fun be _ _ => be.hasBadBlockProposal H = false) address c)
    (locked : c.current.lockedHash = H) (run : Relation.ReflTransGen (Steps wire fun be _ _ => KeepsLock H be) c later)
    (stays : later.current.sequence = c.current.sequence) : HoldsLock H later ∧ c.currentView.cmp later.currentView ≠ .gt ∧
      ∀ be event next effects, KeepsLock H be → Core.step wire be later event = some (next, effects) →
        later.currentView.cmp next.currentView ≠ .gt ∧
        (∀ m ∈ votes effects, ∀ digest, m.decodeSubject = some ⟨later.currentView, digest⟩ → digest = H) ∧
        ((∀ p ∈ proposals effects, hash p = H) ↔ ¬ ProposesAnew wire be later event H) := by
  have begun : HoldsLock H c := (holds_lock_iff H c).mpr ⟨locked, running_backs wire real running⟩
  obtain ⟨advanced, holds⟩ := run_holds_lock wire H real begun run
  obtain ⟨lock, backs⟩ := (holds_lock_iff H later).mp (holds stays)
  refine ⟨holds stays, advanced, ?_⟩
  intro be event next effects keeps stepped
  have move := Core.step_moves wire be later event _ stepped
  refine ⟨?_, ?_, ?_⟩
  · exact (view_cmp_ne_gt_iff _ _).mpr (move_view wire be _ _ _ _ _ _ move).2
  · exact fun m sent digest subject =>
      move_votes_locked wire be move lock backs sent subject
  · exact proposals_locked_iff wire be later real keeps.1 stepped lock backs

def lockTable : List (Message BlockId) :=
  [⟨msgPreprepare, .preprepare ⟨⟨0, 1⟩, ⟨1, 10⟩⟩, 1, [], []⟩, ⟨msgPrepare, .subject ⟨⟨0, 1⟩, 10⟩, 1, [], []⟩,
   ⟨msgPrepare, .subject ⟨⟨0, 1⟩, 10⟩, 2, [], []⟩, ⟨msgRoundChange, .subject ⟨⟨1, 1⟩, 0⟩, 1, [], []⟩,
   ⟨msgRoundChange, .subject ⟨⟨1, 1⟩, 0⟩, 2, [], []⟩]

def lockBackend : Backend BlockId := steadyBackend 2 ⟨[1, 2], 0, some 1⟩ ⟨0, 1⟩ []

def lockEvents : List (Event BlockId) :=
  [.message (tablePayload 0 1), .message (tablePayload 1 1), .message (tablePayload 2 2)]

def roundEvents : List (Event BlockId) := [.timeout, .message (tablePayload 3 1), .message (tablePayload 4 2)]

def lockedRun : Option (Core BlockId) :=
  Core.boot (tableWire lockTable) lockBackend 2 (fun _ _ => true) lockEvents

theorem locked_run_facts : ∃ c later next effects, lockedRun = some c ∧ c.current.lockedHash = 10 ∧
    Core.run (tableWire lockTable) lockBackend (fun _ _ => true) roundEvents c = some later ∧
    later.current.round = 1 ∧ later.current.sequence = c.current.sequence ∧
    Core.step (tableWire lockTable) lockBackend later (.request ⟨1, 11⟩) = some (next, effects) ∧ proposals effects = [⟨1, 11⟩] :=
  ⟨_, _, _, _, rfl, rfl, rfl, rfl, rfl, rfl, rfl⟩

theorem locked_run_running {c : Core BlockId} (ran : lockedRun = some c) :
    Running (tableWire lockTable) (fun _ => True) (fun be _ _ => be.hasBadBlockProposal 10 = false) 2 c :=
  boot_running _ _ _ lockBackend 2 _ trivial (fun _ _ _ => rfl) lockEvents c ran

theorem round_run_steps {c later : Core BlockId}
    (ran : Core.run (tableWire lockTable) lockBackend (fun _ _ => true) roundEvents c = some later) :
    Relation.ReflTransGen (Steps (tableWire lockTable) fun be _ _ => KeepsLock 10 be) c later :=
  run_steps _ _ lockBackend _ (fun _ _ _ => ⟨rfl, fun _ _ => rfl⟩) roundEvents c later ran

-- In round 1 member 2 speaks. It is locked on block 10 and sends a PREPREPARE for block 11 when that is requested.
theorem request_overrides_lock : ∃ c later next effects,
      Running (tableWire lockTable) (fun _ => True) (fun be _ _ => be.hasBadBlockProposal 10 = false) 2 c ∧
      c.current.lockedHash = 10 ∧
      Relation.ReflTransGen (Steps (tableWire lockTable) fun be _ _ => KeepsLock 10 be) c later ∧
      later.current.sequence = c.current.sequence ∧ KeepsLock 10 lockBackend ∧
      Core.step (tableWire lockTable) lockBackend later (.request ⟨1, 11⟩) = some (next, effects) ∧
      ∃ p ∈ proposals effects, hash p ≠ 10 := by
  obtain ⟨c, later, next, effects, ran, locked, changed, _, stays, stepped, sent⟩ := locked_run_facts
  refine ⟨c, later, next, effects, locked_run_running ran, locked, round_run_steps changed, stays,
    ⟨rfl, fun _ _ => rfl⟩, stepped, ⟨1, 11⟩, ?_, by decide⟩
  rw [sent]
  exact List.mem_singleton_self _

theorem lock_law_round_one : ∃ c later : Core BlockId, lockedRun = some c ∧ later.current.round = 1 ∧ HoldsLock 10 later ∧
      c.currentView.cmp later.currentView ≠ .gt := by
  obtain ⟨c, later, _, _, ran, locked, changed, round, stays, _, _⟩ := locked_run_facts
  have law := lock_law (tableWire lockTable) 2 10 (by decide) c later (locked_run_running ran) locked
    (round_run_steps changed) stays
  exact ⟨c, later, ran, round, law.1, law.2.1⟩

end Didux.Sport
