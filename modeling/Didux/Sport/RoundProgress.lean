import Didux.Sport.Certificates

set_option autoImplicit false

namespace Didux.Sport

variable {B : Type}

structure Poll.Short (p : Poll B) : Prop where
  waits : p.waiting = true → 0 < p.round
  below : ∀ key ms, p.changes.roundChanges.lookup key = some ms →
    p.round < key ∨ p.waiting = true ∧ p.round ≤ key → ms.size < p.quorum

namespace Poll

variable {round : Nat}

theorem fresh_short {set : FullnodeSet} {sequence : Nat} : (freshPoll set sequence round : Poll B).Short where
  waits waiting := by cases waiting
  below key ms found := by cases found

variable {p : Poll B}

theorem catch_up_short (short : p.Short) (later : p.round < round) : (p.catchUp round).Short where
  waits _ := Nat.zero_lt_of_lt later
  below key ms found reach := by
    have beyond : p.round < key := by
      rcases reach with above | ⟨_, above⟩
      · exact Nat.lt_trans later above
      · exact Nat.lt_of_lt_of_le later above
    exact short.below key ms (RoundChangeSet.clear_lookup p.changes round key ms found) (.inl beyond)

theorem note_short (short : p.Short) {msg : Message B} (positive : 0 < p.quorum) (bounded : round < 2 ^ 64)
    (unfilled : (p.changes.add round msg).2 = .ok p.quorum → ¬ (p.waiting = true ∨ p.round < round))
    (reached : p.round ≤ round) : (p.note round msg).Short := by
  have key : uint64 round = round := Nat.mod_eq_of_lt bounded
  -- The bucket before the message, if it could still start a round.
  have known (reach : p.round < round ∨ p.waiting = true ∧ p.round ≤ round) :
      (p.changes.bucket round).size < p.quorum := by
    simp only [RoundChangeSet.bucket]
    cases found : p.changes.roundChanges.lookup (uint64 round) with
    | some ms => exact short.below _ ms found (key.symm ▸ reach)
    | none => exact positive
  refine ⟨short.waits, fun k ms found reach => ?_⟩
  rcases p.changes.add_cases round msg with ⟨_, added⟩ | ⟨e, refused⟩
  · simp only [note, added] at found
    rcases Assoc.lookup_insert_cases _ _ k _ ms found with ⟨atRound, same⟩ | before
    · rw [key] at atRound
      subst same atRound
      have room := known reach
      have grown : ((p.changes.bucket k).addVerifiedMessage msg).size ≤ (p.changes.bucket k).size + 1 :=
        Assoc.size_insert_le _ _ _
      have open_ : p.waiting = true ∨ p.round < k := by
        rcases reach with above | ⟨waits, _⟩
        · exact .inr above
        · exact .inl waits
      have other : ((p.changes.bucket k).addVerifiedMessage msg).size ≠ p.quorum := fun full =>
        unfilled (by rw [added, full]) open_
      change _ < p.quorum
      omega
    · exact short.below k ms before reach
  · simp only [note, refused] at found
    rcases Assoc.lookup_insert_cases _ _ k _ ms found with ⟨atRound, same⟩ | before
    · rw [key] at atRound
      subst same atRound
      exact known reach
    · exact short.below k ms before reach

end Poll

def RoundChangeSet.Has (rcs : RoundChangeSet B) (view : View) (a : Address) : Prop :=
  ∃ ms m digest, rcs.roundChanges.lookup (uint64 view.round) = some ms ∧ ms.messages.lookup a = some m ∧
    m.decodeSubject = some ⟨view, digest⟩

def Core.Recorded (c : Core B) (rcs : RoundChangeSet B) (round : Nat) : Prop :=
  Certified c.fullnodeSet.minApprovers c.fullnodeSet.fullnodes (rcs.Has ⟨round, c.current.sequence⟩)

variable {rcs : RoundChangeSet B}

theorem has_card {view : View} {voters : Finset Address} {ms : MessageSet B}
    (found : rcs.roundChanges.lookup (uint64 view.round) = some ms) (all : ∀ a ∈ voters, rcs.Has view a) :
    voters.card ≤ ms.size := by
  rw [MessageSet.size, ← Assoc.keys_card]
  refine Finset.card_le_card fun a present => List.mem_toFinset.mpr ?_
  obtain ⟨other, m, digest, same, inside, _⟩ := all a present
  cases Option.some.inj (found.symm.trans same)
  exact AList.mem_keys.mp (AList.lookup_isSome.mp (Option.isSome_iff_exists.mpr ⟨m, inside⟩))

theorem Poll.Short.not_recorded {c : Core B} {round : Nat} (short : { c.poll with changes := rcs }.Short)
    (positive : 0 < c.poll.quorum) (waiting : c.waitingForRoundChange = true) (reached : c.current.round ≤ round)
    (key : uint64 round = round) : ¬ c.Recorded rcs round := by
  rintro ⟨voters, enough, all⟩
  obtain ⟨a, present⟩ := Finset.card_pos.mp (Nat.lt_of_lt_of_le positive enough)
  obtain ⟨ms, m, digest, found, _⟩ := (all a present).2
  have room := short.below _ ms found (.inr ⟨waiting, key.symm ▸ reached⟩)
  exact absurd (Nat.le_trans enough (has_card found fun a present => (all a present).2))
    (Nat.not_le.mpr room)

theorem short_not_recorded (c : Core B) (heard : Message B → Prop) (kept : c.poll.Kept heard) (short : c.poll.Short)
    (positive : 0 < c.poll.quorum) (waiting : c.waitingForRoundChange = true) (round : Nat)
    (reached : c.current.round ≤ round) : ¬ c.Recorded c.roundChangeSet round := by
  rintro ⟨voters, enough, all⟩
  obtain ⟨a, present⟩ := Finset.card_pos.mp (Nat.lt_of_lt_of_le positive enough)
  obtain ⟨ms, m, digest, found, inside, decoded⟩ := (all a present).2
  obtain ⟨other, same⟩ := (kept.stored _ ms a m found inside).view
  have key : uint64 round = round :=
    (congrArg (fun sub => sub.view.round) (Option.some.inj (decoded.symm.trans same))).symm
  exact short.not_recorded positive waiting reached key ⟨voters, enough, all⟩

variable {c : Core B} {round : Nat} {msg : Message B} {input : Input B} {event : Event B}

theorem recorded_counts (short : c.poll.Short) (positive : 0 < c.poll.quorum)
    (waiting : c.waitingForRoundChange = true) (bounded : round < 2 ^ 64) (reached : c.current.round ≤ round)
    (recorded : c.Recorded (c.roundChangeSet.add round msg).1 round) :
    (c.roundChangeSet.add round msg).2 = .ok c.poll.quorum := by
  by_contra unfilled
  have noted := Poll.note_short short positive bounded (fun full => absurd full unfilled) reached
  exact noted.not_recorded positive waiting reached (Nat.mod_eq_of_lt bounded) recorded

variable [BlockProposal B] (wire : Wire B) (be : Backend B) (c : Core B)

theorem shift_short {p next : Poll B} (shift : p.Shift be input next) (short : p.Short)
    (bounded : ∀ cast ∈ input.change, cast.2.view.round < 2 ^ 64) (positive : 0 < p.quorum)
    (apart : p.quorum ≠ p.weak) (ready : ∀ round, be.Stalls p round → round = 0) : next.Short := by
  cases shift with
  | keep => exact short
  | catchUp round later => exact Poll.catch_up_short short later
  | newSequence set sequence => exact Poll.fresh_short
  | note msg rc casts idle =>
    refine Poll.note_short short positive (bounded _ casts.change) ?_ casts.round
    intro full open_
    rcases idle full open_ with ⟨_, same⟩ | stalls
    · exact apart same
    · -- Round 0 is stalled on, but a core that waits is past it.
      have first := ready _ stalls
      have waits := short.waits
      have reached := casts.round
      rcases open_ with waiting | later
      · have := waits waiting
        omega
      · omega
  | follow msg rc casts later counted =>
    refine Poll.catch_up_short (Poll.note_short short positive (bounded _ casts.change) ?_ casts.round) later
    intro full _
    exact apart (Except.ok.inj (full.symm.trans counted))
  | start msg rc _ set => exact Poll.fresh_short

structure Core.Settles (wire : Wire B) (be : Backend B) (c : Core B) (event : Event B) : Prop where
  bounded : c.Bounded wire event
  ready : be.Ready c
  sized : c.fullnodeSet.size ≠ 0 ∧ c.fullnodeSet.size ≠ 1 ∧ c.fullnodeSet.size ≠ 3

theorem settles_apart (settles : c.Settles wire be event) : 0 < c.poll.quorum ∧ c.poll.quorum ≠ c.poll.weak := by
  have quorum : c.poll.quorum = (2 * c.fullnodeSet.size + 2) / 3 := c.fullnodeSet.min_approvers_eq
  have weak : c.poll.weak = c.fullnodeSet.size / 3 + 1 := congrArg (· + 1) c.fullnodeSet.max_faulty_eq
  have sized := settles.sized
  omega

theorem ready_stalls (ready : be.Ready c) (round : Nat) (stalls : be.Stalls c.poll round) : round = 0 := by
  obtain ⟨last, lastSpeaker, known, below, reason⟩ := stalls
  obtain ⟨found, same, fits⟩ := ready
  cases Option.some.inj (known.symm.trans same)
  rcases reason with other | first
  · rcases fits with behind | follows
    · exact absurd below (Nat.not_lt.mpr behind)
    · exact absurd follows other
  · exact first

theorem heard_short {address : Address} {c : Core B} {seen : List (Message B)}
    (heard : Heard wire (fun be c event => c.Settles wire be event) address c seen) : c.poll.Short := by
  induction heard with
  | start c started =>
    obtain ⟨set, sequence, same⟩ := started_poll wire address c started
    exact same ▸ Poll.fresh_short
  | step be c next seen event effects _ settles stepped ih =>
    obtain ⟨positive, apart⟩ := settles_apart wire be c settles
    exact shift_short be (Core.step_shift wire be c event _ stepped) ih settles.bounded positive apart
      (ready_stalls be c settles.ready)

theorem move_backed {b next : Ballot B} {proposed : List B} {voted : List (Message B)}
    {decided : List (B × List Bytes)} (move : Move wire be b input proposed voted decided next)
    (backed : b.lock ≠ 0 → b.proposal ≠ none) : next.lock ≠ 0 → next.proposal ≠ none := by
  have carried (other : Ballot B) (holds : other.lock ≠ 0 → other.proposal ≠ none) (round : Nat)
      (held : (other.carry be.hasBadBlockProposal round).lock ≠ 0) :
      (other.carry be.hasBadBlockProposal round).proposal ≠ none := by
    by_cases locked : other.Locked be.hasBadBlockProposal
    · rw [Ballot.carry_locked _ other round locked] at held ⊢
      exact holds held
    · rw [Ballot.carry_unlocked _ other round locked] at held
      exact absurd rfl held
  intro held
  cases move with
  | catchUp _ round => exact carried b backed round held
  | newRound _ round => exact carried b backed round held
  | newSequence => exact absurd rfl held
  | accept => exact nofun
  | acceptLocked => exact nofun
  | lockIn msg src p _ accepted => exact accepted.symm ▸ nofun
  | count msg =>
    obtain ⟨commits, counted⟩ := b.count_frame msg
    rw [counted] at held ⊢
    exact backed held
  | decide msg src p _ accepted =>
    obtain ⟨commits, counted⟩ := b.count_frame msg
    simp only [counted, accepted]
    exact nofun
  | decideFailed msg =>
    exact carried { b.count msg with lock := 0, state := .committed } (fun never => absurd rfl never)
      (b.round + 1) held
  | _ => exact backed held

theorem enter_round_some {lastSpeaker : Address} (backed : c.ballot.lock ≠ 0 → c.ballot.proposal ≠ none) :
    ∃ done, Core.enterRound wire be c lastSpeaker ⟨round, c.current.sequence⟩ true = some done := by
  obtain ⟨speaker, prepared⟩ := Core.prepare_round_ballot be c lastSpeaker round
  simp only [Core.enterRound]
  generalize Core.prepareRound be c lastSpeaker ⟨round, c.current.sequence⟩ true = next at prepared
  have ballot := Core.set_state_ballot next .acceptRequest
  rw [prepared] at ballot
  split
  · split
    · next locked =>
        rw [Core.hash_locked_iff, ballot] at locked
        have held := (Ballot.carry_locked_iff be.hasBadBlockProposal c.ballot round).mp locked
        have read := congrArg Ballot.proposal ballot
        rw [Ballot.carry_locked be.hasBadBlockProposal c.ballot round held] at read
        have known : (next.setState .acceptRequest).1.current.blockProposal ≠ none :=
          fun lost => backed held.1 (read.symm.trans lost)
        split
        · next lost => exact absurd lost known
        · exact ⟨_, rfl⟩
    · split <;> exact ⟨_, rfl⟩
  · exact ⟨_, rfl⟩

theorem start_new_round_some (ready : be.Ready c) (backed : c.ballot.lock ≠ 0 → c.ballot.proposal ≠ none) :
    ∃ done, Core.startNewRound wire be c round = some done := by
  obtain ⟨last, known, _⟩ := ready
  simp only [Core.startNewRound, Option.mem_def.mp known]
  split_ifs
  · exact ⟨_, by simp only [Core.enterRound]; rfl⟩
  · exact ⟨_, rfl⟩
  · exact ⟨_, rfl⟩
  · exact enter_round_some wire be c backed
  · exact ⟨_, rfl⟩

theorem full_round_change_starts {rc : Subject} (decoded : msg.decodeSubject = some rc)
    (sequence : rc.view.sequence = c.current.sequence) (reached : c.current.round ≤ rc.view.round)
    (waiting : c.waitingForRoundChange = true)
    (counted : (c.roundChangeSet.add rc.view.round msg).2 = .ok c.poll.quorum) (apart : c.poll.quorum ≠ c.poll.weak)
    (positive : 0 < rc.view.round) (ready : be.Ready c) (backed : c.ballot.lock ≠ 0 → c.ballot.proposal ≠ none) :
    ∃ out, Core.handleRoundChange wire be c msg = some out ∧ out.result = .ok () ∧
      out.core.waitingForRoundChange = false ∧ (c.current.sequence < out.core.current.sequence ∨
        out.core.current.sequence = c.current.sequence ∧ rc.view.round = out.core.current.round) := by
  have checked := (Core.check_round_change_ok_iff c rc.view).mpr ⟨sequence, reached⟩
  obtain ⟨started, ran⟩ := start_new_round_some wire be
    { c with roundChangeSet := (c.roundChangeSet.add rc.view.round msg).1 } ready backed
  have notWeak : ¬ (c.waitingForRoundChange = true ∧ c.poll.quorum = c.fullnodeSet.maxFaulty + c.fullnodeSet.E) :=
    fun both => apart both.2
  have isQuorum : c.poll.quorum = c.fullnodeSet.minApprovers ∧
      (c.waitingForRoundChange = true ∨ c.currentView.round < rc.view.round) := ⟨rfl, .inl waiting⟩
  refine ⟨⟨started.1, started.2, .ok ()⟩, ?_, rfl, ?_⟩
  · simp only [Core.handleRoundChange, decoded, checked, counted]
    rw [if_neg notWeak, if_pos isQuorum, ran]
    rfl
  · rcases Core.start_new_round_poll wire be _ _ started ran (.inr reached) with
      ⟨_, stalls⟩ | ⟨set, next, later, same⟩ | ⟨_, same⟩
    · exact absurd (ready_stalls be c ready rc.view.round stalls) positive.ne'
    · have sequenced : started.1.current.sequence = next := congrArg Poll.sequence same
      exact ⟨congrArg Poll.waiting same, .inl (sequenced.symm ▸ later)⟩
    · exact ⟨congrArg Poll.waiting same, .inr ⟨congrArg Poll.sequence same, (congrArg Poll.round same).symm⟩⟩

theorem round_change_step {src : Address} {out : Outcome B}
    (arrived : c.input wire event = .message msg src) (code : msg.code = msgRoundChange)
    (handled : Core.handleRoundChange wire be c msg = some out) (fine : out.result = .ok ())
    : ∃ effects, Core.step wire be c event = some (out.core, effects) := by
  have dispatched : Core.dispatch wire be c msg src = some out := by
    rw [← handled]
    simp [Core.dispatch, code, msgRoundChange, msgPreprepare, msgPrepare, msgCommit]
  have checked : Core.handleCheckedMsg wire be c msg src = some out := by
    simp only [Core.handleCheckedMsg, dispatched, Option.map_some, fine]
  cases event with
  | message payload =>
    simp only [Core.input] at arrived
    split at arrived
    · next received =>
        cases arrived
        simp only [Core.step, Core.handleMsg, received, checked, Option.map_some, Core.gossipIfOk, fine]
        exact ⟨_, rfl⟩
    · cases arrived
  | backlog sender stored =>
    cases arrived
    simp only [Core.step, checked, Option.map_some, Core.gossipIfOk, fine]
    exact ⟨_, rfl⟩
  | _ => cases arrived

-- A core that waits never has a full bucket ahead of it, because the message that fills one starts its round.
theorem waiting_core_starts (wire : Wire B) (address : Address) (be : Backend B) (c : Core B)
    (seen : List (Message B)) (event : Event B) (heard : Heard wire (fun be c event => c.Settles wire be event) address c seen)
    (settles : c.Settles wire be event) (waiting : c.waitingForRoundChange = true) :
    (∀ round, c.current.round ≤ round → ¬ c.Recorded c.roundChangeSet round) ∧
    ∀ msg rc, (c.input wire event).change = some (msg, rc) → rc.view.sequence = c.current.sequence →
      c.current.round ≤ rc.view.round → c.Recorded (c.roundChangeSet.add rc.view.round msg).1 rc.view.round →
      ∃ next effects, Core.step wire be c event = some (next, effects) ∧ next.waitingForRoundChange = false ∧
        (c.current.sequence < next.current.sequence ∨
          next.current.sequence = c.current.sequence ∧ rc.view.round ≤ next.current.round) := by
  have kept := heard_kept wire _ address (fun _ _ _ settles => settles.bounded) c seen heard
  have short := heard_short wire heard
  obtain ⟨positive, apart⟩ := settles_apart wire be c settles
  have backed := running_invariant wire _ _ address (fun b => b.lock ≠ 0 → b.proposal ≠ none)
    (fun _ _ _ _ _ _ held => absurd rfl held)
    (fun be c event next proposed voted decided _ backed move =>
      move_backed wire be move backed)
    c (heard_running wire _ address c seen heard)
  refine ⟨short_not_recorded c _ kept short positive waiting, ?_⟩
  intro msg rc change sequence reached recorded
  obtain ⟨⟨src, arrived⟩, code, decoded⟩ := (change_iff _ msg rc).mp change
  have counted := recorded_counts short positive waiting (settles.bounded _ change) reached recorded
  obtain ⟨out, handled, fine, settled, moved⟩ := full_round_change_starts wire be c decoded sequence reached
    waiting counted apart (Nat.lt_of_lt_of_le (short.waits waiting) reached) settles.ready backed
  obtain ⟨effects, stepped⟩ := round_change_step wire be c arrived code handled fine
  refine ⟨out.core, effects, stepped, settled, ?_⟩
  rcases moved with later | ⟨same, atRound⟩
  · exact .inl later
  · exact .inr ⟨same, atRound.le⟩

instance (wire : Wire B) (be : Backend B) (c : Core B) (event : Event B) : Decidable (c.Settles wire be event) :=
  decidable_of_iff (c.Bounded wire event ∧ be.Ready c ∧
      c.fullnodeSet.size ≠ 0 ∧ c.fullnodeSet.size ≠ 1 ∧ c.fullnodeSet.size ≠ 3)
    ⟨fun all => ⟨all.1, all.2.1, all.2.2⟩, fun all => ⟨all.bounded, all.ready, all.sized⟩⟩

def waitingEvents : List (Event BlockId) := .timeout :: changeEvents

def waitingRun : Option (Core BlockId × List (Message BlockId)) :=
  Core.attend honestWire (changeBackend [1, 2, 3, 4]) 1
    (fun c event => decide (c.Settles honestWire (changeBackend [1, 2, 3, 4]) event)) waitingEvents

theorem waiting_run_facts : ∃ c seen msg rc, waitingRun = some (c, seen) ∧ c.waitingForRoundChange = true ∧
    c.Settles honestWire (changeBackend [1, 2, 3, 4]) lastChange ∧
    (c.input honestWire lastChange).change = some (msg, rc) ∧ rc.view = c.current.view ∧
    c.Recorded (c.roundChangeSet.add rc.view.round msg).1 rc.view.round := by
  refine ⟨_, _, _, _, rfl, rfl, by decide +kernel, rfl, rfl, {2, 3, 4}, by decide +kernel, ?_⟩
  intro a present
  fin_cases present <;> exact ⟨by decide +kernel, _, _, _, rfl, rfl, rfl⟩

theorem third_change_starts : ∃ c seen, ∃ rc : Subject, ∃ next effects,
    Heard honestWire (fun be c event => c.Settles honestWire be event) 1 c seen ∧ c.waitingForRoundChange = true ∧
    Core.step honestWire (changeBackend [1, 2, 3, 4]) c lastChange = some (next, effects) ∧
    next.waitingForRoundChange = false ∧ rc.view = c.current.view ∧ (c.current.sequence < next.current.sequence ∨
      next.current.sequence = c.current.sequence ∧ rc.view.round ≤ next.current.round) := by
  obtain ⟨c, seen, msg, rc, ran, waiting, settles, change, view, recorded⟩ := waiting_run_facts
  have heard := attend_heard honestWire (fun be c event => c.Settles honestWire be event) 1
    (changeBackend [1, 2, 3, 4]) _ (fun _ _ => of_decide_eq_true) waitingEvents c seen ran
  obtain ⟨next, effects, stepped, settled, moved⟩ := (waiting_core_starts honestWire 1 (changeBackend [1, 2, 3, 4]) c seen lastChange
    heard settles waiting).2 msg rc change (congrArg View.sequence view) (congrArg View.round view).ge recorded
  exact ⟨c, seen, rc, next, effects, heard, waiting, stepped, settled, view, moved⟩

def smallRun : Option (Core BlockId × List (Message BlockId)) :=
  Core.attend honestWire (changeBackend [1, 2, 3]) 1
    (fun c event => decide (c.Bounded honestWire event ∧ (changeBackend [1, 2, 3]).Ready c)) waitingEvents

-- With three members two messages are a weak certificate and a quorum at once. The core
-- takes the first branch, which has nothing to do in its own round, and goes on waiting.
theorem small_set_waits : ∃ c seen, Heard honestWire (fun be c event => c.Bounded honestWire event ∧ be.Ready c) 1 c seen ∧
    c.fullnodeSet.size = 3 ∧ c.waitingForRoundChange = true ∧ c.current.round = 1 ∧ c.Recorded c.roundChangeSet 1 := by
  have facts : ∃ c seen, smallRun = some (c, seen) ∧ c.fullnodeSet.size = 3 ∧ c.waitingForRoundChange = true ∧
      c.current.round = 1 ∧ c.Recorded c.roundChangeSet 1 := by
    refine ⟨_, _, rfl, rfl, rfl, rfl, {2, 3}, by decide +kernel, ?_⟩
    intro a present
    fin_cases present <;> exact ⟨by decide +kernel, _, _, _, rfl, rfl, rfl⟩
  obtain ⟨c, seen, ran, three, waiting, round, recorded⟩ := facts
  exact ⟨c, seen, attend_heard honestWire (fun be c event => c.Bounded honestWire event ∧ be.Ready c) 1
    (changeBackend [1, 2, 3]) _ (fun _ _ => of_decide_eq_true) waitingEvents c seen ran, three, waiting, round, recorded⟩

end Didux.Sport
