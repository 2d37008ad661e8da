import Didux.Sport.RoundChanges

set_option autoImplicit false

namespace Didux.Sport

variable {B : Type}

namespace RoundChangeSet

def bucket (rcs : RoundChangeSet B) (round : Nat) : MessageSet B :=
  (rcs.roundChanges.lookup (uint64 round)).getD (newMessageSet rcs.fullnodeSet)

variable (rcs : RoundChangeSet B)

theorem add_cases (round : Nat) (msg : Message B) :
    (msg.address ∈ (rcs.bucket round).fullnodeSet.fullnodes ∧
      rcs.add round msg =
        ({ rcs with
            roundChanges := rcs.roundChanges.insert (uint64 round) ((rcs.bucket round).addVerifiedMessage msg) },
          .ok ((rcs.bucket round).addVerifiedMessage msg).size)) ∨
    ∃ e, rcs.add round msg =
      ({ rcs with roundChanges := rcs.roundChanges.insert (uint64 round) (rcs.bucket round) }, .error e) := by
  by_cases member : msg.address ∈ (rcs.bucket round).fullnodeSet.fullnodes
  · have found := (FullnodeSet.get_by_address_some_iff _ msg.address msg.address).mpr ⟨rfl, member⟩
    have added : (rcs.bucket round).add msg = .ok ((rcs.bucket round).addVerifiedMessage msg) := by
      simp only [MessageSet.add, MessageSet.verify, found]
      rfl
    refine .inl ⟨member, ?_⟩
    simp only [bucket] at added
    simp only [RoundChangeSet.add, added, bucket]
  · have absent := (FullnodeSet.get_by_address_none_iff _ msg.address).mpr member
    have refused : (rcs.bucket round).add msg = .error .unauthorizedAddress := by
      simp only [MessageSet.add, MessageSet.verify, absent]
      rfl
    refine .inr ⟨.unauthorizedAddress, ?_⟩
    simp only [bucket] at refused
    simp only [RoundChangeSet.add, refused, bucket]

theorem clear_lookup (round key : Nat) (ms : MessageSet B) (found : (rcs.clear round).roundChanges.lookup key = some ms) :
    rcs.roundChanges.lookup key = some ms := by
  simp only [clear] at found
  generalize rcs.roundChanges.entries.filter (stale round) = dropped at found
  -- Erasing entry after entry: what is still found was there before.
  induction dropped generalizing rcs with
  | nil => exact found
  | cons entry dropped ih =>
    have before := ih { rcs with roundChanges := rcs.roundChanges.erase entry.1 } found
    by_cases same : key = entry.1
    · subst same
      simp at before
    · rwa [show _ = _ from AList.lookup_erase_ne same] at before

end RoundChangeSet

structure Message.Votes (heard : Message B → Prop) (fullnodes : List Address) (view : View) (a : Address)
    (m : Message B) : Prop where
  address : m.address = a
  member : a ∈ fullnodes
  code : m.code = msgRoundChange
  heard : heard m
  view : ∃ digest, m.decodeSubject = some ⟨view, digest⟩

structure Poll.Kept (heard : Message B → Prop) (p : Poll B) : Prop where
  set : p.changes.fullnodeSet.fullnodes = p.fullnodes
  members : ∀ key ms, p.changes.roundChanges.lookup key = some ms → ms.fullnodeSet.fullnodes = p.fullnodes
  stored : ∀ key ms a m, p.changes.roundChanges.lookup key = some ms → ms.messages.lookup a = some m →
    m.Votes heard p.fullnodes ⟨key, p.sequence⟩ a

namespace Poll

variable {round : Nat}

theorem fresh_kept {heard : Message B → Prop} {set : FullnodeSet} {sequence : Nat} :
    (freshPoll set sequence round).Kept heard where
  set := rfl
  members key ms found := by cases found
  stored key ms a m found := by cases found

variable {heard more : Message B → Prop} {p : Poll B}

theorem kept_mono (kept : p.Kept heard) (grows : ∀ m, heard m → more m) : p.Kept more where
  set := kept.set
  members := kept.members
  stored key ms a m found inside := by
    have old := kept.stored key ms a m found inside
    exact ⟨old.address, old.member, old.code, grows m old.heard, old.view⟩

theorem catch_up_kept (kept : p.Kept heard) : (p.catchUp round).Kept heard where
  set := kept.set
  members key ms found := kept.members key ms (RoundChangeSet.clear_lookup p.changes round key ms found)
  stored key ms a m found := kept.stored key ms a m (RoundChangeSet.clear_lookup p.changes round key ms found)

theorem bucket_lookup {a : Address} {m : Message B} (inside : (p.changes.bucket round).messages.lookup a = some m) :
    p.changes.roundChanges.lookup (uint64 round) = some (p.changes.bucket round) := by
  simp only [RoundChangeSet.bucket] at inside ⊢
  cases found : p.changes.roundChanges.lookup (uint64 round) with
  | some ms => rfl
  | none =>
    rw [found] at inside
    cases inside

theorem bucket_members (kept : p.Kept heard) (round : Nat) : (p.changes.bucket round).fullnodeSet.fullnodes = p.fullnodes := by
  simp only [RoundChangeSet.bucket]
  cases found : p.changes.roundChanges.lookup (uint64 round) with
  | some ms => exact kept.members _ ms found
  | none => exact kept.set

theorem insert_kept (kept : p.Kept heard) {key : Nat} {new : MessageSet B} (members : new.fullnodeSet.fullnodes = p.fullnodes)
    (stored : ∀ a m, new.messages.lookup a = some m → m.Votes heard p.fullnodes ⟨key, p.sequence⟩ a) :
    { p with changes := { p.changes with roundChanges := p.changes.roundChanges.insert key new } }.Kept heard where
  set := kept.set
  members k ms found := by
    rcases Assoc.lookup_insert_cases _ key k new ms found with ⟨_, same⟩ | before
    · rw [same]
      exact members
    · exact kept.members k ms before
  stored k ms a m found inside := by
    rcases Assoc.lookup_insert_cases _ key k new ms found with ⟨atKey, same⟩ | before
    · subst same atKey
      exact stored a m inside
    · exact kept.stored k ms a m before inside

theorem note_kept (kept : p.Kept heard) {input : Input B} {msg : Message B} {rc : Subject}
    (casts : p.Casts input msg rc) (bounded : rc.view.round < 2 ^ 64) (new : heard msg) :
    (p.note rc.view.round msg).Kept heard := by
  have members := bucket_members kept rc.view.round
  have old (a : Address) (m : Message B) (inside : (p.changes.bucket rc.view.round).messages.lookup a = some m) :=
    kept.stored _ _ a m (bucket_lookup inside) inside
  rcases p.changes.add_cases rc.view.round msg with ⟨member, added⟩ | ⟨e, refused⟩
  · simp only [note, added]
    refine insert_kept kept members fun a m inside => ?_
    rcases Assoc.lookup_insert_cases _ _ a _ m inside with ⟨sender, same⟩ | before
    · obtain ⟨_, code, decoded⟩ := (change_iff input msg rc).mp casts.change
      subst same sender
      refine ⟨rfl, members ▸ member, code, new, rc.digest, ?_⟩
      rw [decoded, show uint64 rc.view.round = rc.view.round from Nat.mod_eq_of_lt bounded, ← casts.sequence]
    · exact old a m before
  · simp only [note, refused]
    exact insert_kept kept members old

end Poll

def Certified (quorum : Nat) (fullnodes : List Address) (voted : Address → Prop) : Prop :=
  ∃ voters : Finset Address, quorum ≤ voters.card ∧ ∀ a ∈ voters, a ∈ fullnodes ∧ voted a

variable {heard : Message B → Prop} {p next : Poll B} {quorum round : Nat} {be : Backend B} {input : Input B}

theorem bucket_certified (kept : p.Kept heard) {key : Nat}
    {ms : MessageSet B} (found : p.changes.roundChanges.lookup key = some ms) (full : quorum ≤ ms.size) :
    Certified quorum p.fullnodes fun a => ∃ m : Message B, m.Votes heard p.fullnodes ⟨key, p.sequence⟩ a := by
  refine ⟨ms.messages.keys.toFinset, (Assoc.keys_card ms.messages).symm ▸ full, ?_⟩
  intro a present
  obtain ⟨m, inside⟩ := Assoc.mem_keys_lookup ms.messages a (List.mem_toFinset.mp present)
  have votes := kept.stored key ms a m found inside
  exact ⟨votes.member, m, votes⟩

theorem add_full {rcs : RoundChangeSet B} {msg : Message B} (counted : (rcs.add round msg).2 = .ok quorum) :
    ∃ ms, (rcs.add round msg).1.roundChanges.lookup (uint64 round) = some ms ∧ ms.size = quorum := by
  rcases rcs.add_cases round msg with ⟨_, added⟩ | ⟨e, refused⟩
  · rw [added] at counted ⊢
    exact ⟨_, AList.lookup_insert _, Except.ok.inj counted⟩
  · rw [refused] at counted
    cases counted

structure Core.Starts (c next : Core B) (round : Nat) : Prop where
  sequence : next.current.sequence = c.current.sequence
  reached : next.current.round = round
  working : next.waitingForRoundChange = false
  before : c.waitingForRoundChange = true ∨ c.current.round < round

theorem starts_of_views {c next : Core B} {sequence before : Nat} (view : c.current.view = ⟨before, sequence⟩)
    (reached : next.current.view = ⟨round, sequence⟩) (working : next.waitingForRoundChange = false)
    (later : before < round) : c.Starts next round where
  sequence := (congrArg View.sequence reached).trans (congrArg View.sequence view).symm
  reached := congrArg View.round reached
  working := working
  before := .inr (Nat.lt_of_le_of_lt (congrArg View.round view).le later)

variable [BlockProposal B]

def Core.Bounded (wire : Wire B) (c : Core B) (event : Event B) : Prop :=
  ∀ cast ∈ (c.input wire event).change, cast.2.view.round < 2 ^ 64

def Core.Genuine (wire : Wire B) (c : Core B) (event : Event B) : Prop :=
  ∀ cast ∈ (c.input wire event).change,
    wire.getSignatureAddress (cast.1.payloadNoSig wire) cast.1.signature = some cast.1.address

def Backend.Ready (be : Backend B) (c : Core B) : Prop :=
  ∃ last ∈ be.lastBlockProposal, c.current.sequence ≤ BlockProposal.number last.1 ∨
    (BlockProposal.number last.1 : Int) = int64 (int64 c.current.sequence - 1)

inductive Heard (wire : Wire B) (allowed : Backend B → Core B → Event B → Prop) (address : Address) :
    Core B → List (Message B) → Prop where
  | start (c : Core B) (started : Started wire (fun _ => True) address c) : Heard wire allowed address c []
  | step (be : Backend B) (c next : Core B) (seen : List (Message B)) (event : Event B) (effects : List (Effect B))
      (before : Heard wire allowed address c seen) (meets : allowed be c event)
      (stepped : Core.step wire be c event = some (next, effects)) :
      Heard wire allowed address next (((c.input wire event).change.map Prod.fst).toList ++ seen)

theorem shift_kept (shift : p.Shift be input next) (kept : p.Kept heard)
    (bounded : ∀ cast ∈ input.change, cast.2.view.round < 2 ^ 64) (new : ∀ cast ∈ input.change, heard cast.1) :
    next.Kept heard := by
  cases shift with
  | keep => exact kept
  | catchUp round => exact Poll.catch_up_kept kept
  | newSequence set sequence => exact Poll.fresh_kept
  | note msg rc casts =>
    exact Poll.note_kept kept casts (bounded _ casts.change) (new _ casts.change)
  | follow msg rc casts =>
    exact Poll.catch_up_kept
      (Poll.note_kept kept casts (bounded _ casts.change) (new _ casts.change))
  | start msg rc _ set => exact Poll.fresh_kept

section Runs

variable (wire : Wire B) (allowed : Backend B → Core B → Event B → Prop) (address : Address)

theorem started_poll (c : Core B) (started : Started wire (fun _ => True) address c) :
    ∃ set sequence, c.poll = freshPoll set sequence 0 := by
  obtain ⟨be, effects, _, ran⟩ := started
  simp only [Core.start] at ran
  split at ran
  · cases ran
  · exact ⟨_, _, Core.enter_round_poll wire be _ _ _ _ _ ran⟩

theorem heard_kept (bounded : ∀ be c event, allowed be c event → c.Bounded wire event) (c : Core B)
    (seen : List (Message B)) (heard : Heard wire allowed address c seen) : c.poll.Kept (fun m => m ∈ seen) := by
  induction heard with
  | start c started =>
    obtain ⟨set, sequence, same⟩ := started_poll wire address c started
    exact same ▸ Poll.fresh_kept
  | step be c next seen event effects _ meets stepped ih =>
    refine shift_kept (Core.step_shift wire be c event _ stepped)
      (Poll.kept_mono ih fun m old => List.mem_append_right _ old) (bounded be c event meets) ?_
    intro cast found
    simp [Option.mem_def.mp found]

theorem heard_signed (genuine : ∀ be c event, allowed be c event → c.Genuine wire event) {c : Core B}
    {seen : List (Message B)} (heard : Heard wire allowed address c seen) :
    ∀ m ∈ seen, wire.getSignatureAddress (m.payloadNoSig wire) m.signature = some m.address := by
  induction heard with
  | start => simp
  | step be c next seen event effects _ meets _ ih =>
    intro m old
    rcases List.mem_append.mp old with new | old
    · obtain ⟨cast, found, same⟩ := Option.map_eq_some_iff.mp (Option.mem_toList.mp new)
      exact same ▸ genuine be c event meets cast found
    · exact ih m old

theorem heard_running (c : Core B) (seen : List (Message B)) (heard : Heard wire allowed address c seen) :
    Running wire (fun _ => True) allowed address c := by
  induction heard with
  | start c started => exact Runs.reached_start _ _ c started
  | step be c next seen event effects _ meets stepped ih =>
    exact Runs.reached_step _ _ c next ih ⟨be, event, effects, meets, stepped⟩

end Runs

theorem shift_start (shift : p.Shift be input next) (same : next.sequence = p.sequence) (working : next.waiting = false)
    (before : p.waiting = true ∨ p.round < next.round) : ∃ msg rc, p.Casts input msg rc ∧ next.round = rc.view.round ∧
      (p.changes.add rc.view.round msg).2 = .ok p.quorum := by
  have still (settled : p.waiting = false) (stays : next.round = p.round) : False := by
    rcases before with waiting | later
    · rw [settled] at waiting
      cases waiting
    · omega
  cases shift with
  | keep => exact (still working rfl).elim
  | catchUp => cases working
  | newSequence set sequence later => exact absurd same (Nat.ne_of_gt later)
  | note msg rc => exact (still working rfl).elim
  | follow => cases working
  | start msg rc casts set _ counted => exact ⟨msg, rc, casts, rfl, counted⟩

def Core.hear (wire : Wire B) (be : Backend B) (admits : Core B → Event B → Bool) :
    List (Event B) → Core B × List (Message B) → Option (Core B × List (Message B))
  | [], done => some done
  | event :: events, (c, seen) => if admits c event then (Core.step wire be c event).bind fun done =>
      Core.hear wire be admits events (done.1, ((c.input wire event).change.map Prod.fst).toList ++ seen) else none

def Core.attend (wire : Wire B) (be : Backend B) (address : Address) (admits : Core B → Event B → Bool)
    (events : List (Event B)) : Option (Core B × List (Message B)) :=
  (Core.start wire be address).bind fun done => Core.hear wire be admits events (done.1, [])

section Concrete

variable (wire : Wire B) (allowed : Backend B → Core B → Event B → Prop) (address : Address) (be : Backend B)
  (admits : Core B → Event B → Bool) (sound : ∀ c event, admits c event = true → allowed be c event)

include sound

variable (events : List (Event B))

theorem hear_heard (c last : Core B) (seen all : List (Message B)) (heard : Heard wire allowed address c seen)
    (ran : Core.hear wire be admits events (c, seen) = some (last, all)) :
    Heard wire allowed address last all := by
  induction events generalizing c seen with
  | nil =>
    cases ran
    exact heard
  | cons event events ih =>
    simp only [Core.hear] at ran
    split_ifs at ran with admitted
    obtain ⟨done, stepped, rest⟩ := Option.bind_eq_some_iff.mp ran
    exact ih done.1 _ (.step be c done.1 seen event done.2 heard (sound c event admitted) stepped) rest

theorem attend_heard (c : Core B) (seen : List (Message B)) (ran : Core.attend wire be address admits events = some (c, seen)) :
    Heard wire allowed address c seen := by
  obtain ⟨done, started, rest⟩ := Option.bind_eq_some_iff.mp ran
  exact hear_heard wire allowed address be admits sound events done.1 c [] seen
    (.start done.1 ⟨be, done.2, trivial, started⟩) rest

end Concrete

instance (wire : Wire B) (c : Core B) (event : Event B) : Decidable (c.Bounded wire event) :=
  inferInstanceAs (Decidable (∀ cast ∈ (c.input wire event).change, cast.2.view.round < 2 ^ 64))

instance (wire : Wire B) (c : Core B) (event : Event B) : Decidable (c.Genuine wire event) :=
  inferInstanceAs (Decidable (∀ cast ∈ (c.input wire event).change,
    wire.getSignatureAddress (cast.1.payloadNoSig wire) cast.1.signature = some cast.1.address))

instance (be : Backend B) (c : Core B) : Decidable (be.Ready c) :=
  inferInstanceAs (Decidable (∃ last ∈ be.lastBlockProposal, c.current.sequence ≤ BlockProposal.number last.1 ∨
    (BlockProposal.number last.1 : Int) = int64 (int64 c.current.sequence - 1)))

def changeTable (second third fourth : Nat) : List (Message BlockId) :=
  [⟨msgRoundChange, .subject ⟨⟨second, 1⟩, 0⟩, 2, [], []⟩, ⟨msgRoundChange, .subject ⟨⟨third, 1⟩, 0⟩, 3, [], []⟩,
   ⟨msgRoundChange, .subject ⟨⟨fourth, 1⟩, 0⟩, 4, [], []⟩]

def changeBackend (fullnodes : List Address) : Backend BlockId :=
  steadyBackend 1 ⟨fullnodes, 0, fullnodes.head?⟩ ⟨0, 1⟩ []

def changeEvents : List (Event BlockId) := [.message (tablePayload 0 2), .message (tablePayload 1 3)]

def lastChange : Event BlockId := .message (tablePayload 2 4)

theorem round_start_certified (wire : Wire B) (address : Address) (be : Backend B) (c next : Core B)
    (seen : List (Message B)) (event : Event B) (effects : List (Effect B)) (msg : Message B) (rc : Subject)
    (round : Nat) (heard : Heard wire (fun _ c event => c.Bounded wire event ∧ c.Genuine wire event) address c seen)
    (bounded : c.Bounded wire event) (genuine : c.Genuine wire event) (arrived : (c.input wire event).change = some (msg, rc))
    (stepped : Core.step wire be c event = some (next, effects)) (starts : c.Starts next round) :
    Certified c.fullnodeSet.minApprovers c.fullnodeSet.fullnodes fun a =>
      ∃ m ∈ msg :: seen, m.code = msgRoundChange ∧ m.address = a ∧
        wire.getSignatureAddress (m.payloadNoSig wire) m.signature = some a ∧
        ∃ digest, m.decodeSubject = some ⟨⟨round, c.current.sequence⟩, digest⟩ := by
  have kept := heard_kept wire _ address (fun _ _ _ meets => meets.1) c seen heard
  have signed := heard_signed wire _ address (fun _ _ _ meets => meets.2) heard
  have before : c.poll.waiting = true ∨ c.poll.round < next.poll.round := by
    rw [show next.poll.round = round from starts.reached]
    exact starts.before
  obtain ⟨cast, view, casts, atRound, counted⟩ := shift_start
    (Core.step_shift wire be c event _ stepped) starts.sequence starts.working before
  cases Option.some.inj (casts.change.symm.trans arrived)
  have within := bounded _ arrived
  have noted := Poll.note_kept (Poll.kept_mono kept fun m old => List.mem_cons_of_mem msg old) casts within
    List.mem_cons_self
  obtain ⟨ms, found, size⟩ := add_full counted
  obtain ⟨voters, enough, all⟩ := bucket_certified noted found size.ge
  refine ⟨voters, enough, fun a present => ?_⟩
  obtain ⟨member, m, votes⟩ := all a present
  have exact_ : uint64 rc.view.round = round :=
    (Nat.mod_eq_of_lt within).trans (atRound.symm.trans starts.reached)
  refine ⟨member, m, votes.heard, votes.code, votes.address, ?_, exact_ ▸ votes.view⟩
  rcases List.mem_cons.mp votes.heard with new | old
  · rw [← votes.address, new]
    exact genuine _ arrived
  · rw [← votes.address]
    exact signed m old

def honestWire : Wire BlockId := tableWire (changeTable 1 1 1)

def honestRun : Option (Core BlockId × List (Message BlockId)) :=
  Core.attend honestWire (changeBackend [1, 2, 3, 4]) 1
    (fun c event => decide (c.Bounded honestWire event ∧ c.Genuine honestWire event)) changeEvents

theorem honest_run_facts : ∃ c seen next effects msg rc, honestRun = some (c, seen) ∧
    (c.input honestWire lastChange).change = some (msg, rc) ∧ c.Bounded honestWire lastChange ∧
    c.Genuine honestWire lastChange ∧ Core.step honestWire (changeBackend [1, 2, 3, 4]) c lastChange = some (next, effects) ∧
    c.current.view = ⟨0, 1⟩ ∧ next.current.view = ⟨1, 1⟩ ∧ next.waitingForRoundChange = false :=
  ⟨_, _, _, _, _, _, rfl, rfl, by decide +kernel, by decide +kernel, rfl, rfl, rfl, rfl⟩

theorem honest_round_certified : ∃ c seen msg, Heard honestWire
      (fun _ c event => c.Bounded honestWire event ∧ c.Genuine honestWire event) 1 c seen ∧
    Certified c.fullnodeSet.minApprovers c.fullnodeSet.fullnodes fun a =>
      ∃ m ∈ msg :: seen, m.code = msgRoundChange ∧ m.address = a ∧
        honestWire.getSignatureAddress (m.payloadNoSig honestWire) m.signature = some a ∧
        ∃ digest, m.decodeSubject = some ⟨⟨1, c.current.sequence⟩, digest⟩ := by
  obtain ⟨c, seen, next, effects, msg, rc, ran, arrived, bounded, genuine, stepped, view, reached, working⟩ :=
    honest_run_facts
  have heard := attend_heard honestWire (fun _ c event => c.Bounded honestWire event ∧ c.Genuine honestWire event) 1
    (changeBackend [1, 2, 3, 4]) _ (fun _ _ => of_decide_eq_true) changeEvents c seen ran
  exact ⟨c, seen, msg, heard, round_start_certified honestWire 1 (changeBackend [1, 2, 3, 4]) c next seen lastChange
    effects msg rc 1 heard bounded genuine arrived stepped
    (starts_of_views view reached working (by decide))⟩

def wideTable : List (Message BlockId) := changeTable 1 (1 + 2 ^ 64) (1 + 2 ^ 64)

def wideRun : Option (Core BlockId × List (Message BlockId)) :=
  Core.attend (tableWire wideTable) (changeBackend [1, 2, 3, 4]) 1
    (fun c event => decide (c.Genuine (tableWire wideTable) event)) changeEvents

theorem wide_run_facts : ∃ c seen next effects msg rc, wideRun = some (c, seen) ∧
    (c.input (tableWire wideTable) lastChange).change = some (msg, rc) ∧ c.Genuine (tableWire wideTable) lastChange ∧
    Core.step (tableWire wideTable) (changeBackend [1, 2, 3, 4]) c lastChange = some (next, effects) ∧
    c.current.view = ⟨0, 1⟩ ∧ next.current.view = ⟨1 + 2 ^ 64, 1⟩ ∧ next.waitingForRoundChange = false ∧
    c.fullnodeSet.minApprovers = 3 ∧ (msg :: seen).map (fun m => (m.address, m.decodeSubject)) =
      [(4, some ⟨⟨1 + 2 ^ 64, 1⟩, 0⟩), (3, some ⟨⟨1 + 2 ^ 64, 1⟩, 0⟩), (2, some ⟨⟨1, 1⟩, 0⟩)] :=
  ⟨_, _, _, _, _, _, rfl, rfl, by decide +kernel, rfl, rfl, rfl, rfl, by decide +kernel, rfl⟩

theorem shared_bucket_starts : ∃ c seen next effects msg rc,
    Heard (tableWire wideTable) (fun _ c event => c.Genuine (tableWire wideTable) event) 1 c seen ∧
    c.Genuine (tableWire wideTable) lastChange ∧ (c.input (tableWire wideTable) lastChange).change = some (msg, rc) ∧
    Core.step (tableWire wideTable) (changeBackend [1, 2, 3, 4]) c lastChange = some (next, effects) ∧
    c.Starts next (1 + 2 ^ 64) ∧ ¬ Certified c.fullnodeSet.minApprovers c.fullnodeSet.fullnodes fun a =>
      ∃ m ∈ msg :: seen, m.address = a ∧
        ∃ digest, m.decodeSubject = some ⟨⟨1 + 2 ^ 64, c.current.sequence⟩, digest⟩ := by
  obtain ⟨c, seen, next, effects, msg, rc, ran, arrived, genuine, stepped, view, reached, working, three, all⟩ :=
    wide_run_facts
  have heard := attend_heard (tableWire wideTable) (fun _ c event => c.Genuine (tableWire wideTable) event) 1
    (changeBackend [1, 2, 3, 4]) _ (fun _ _ => of_decide_eq_true) changeEvents c seen ran
  refine ⟨c, seen, next, effects, msg, rc, heard, genuine, arrived, stepped,
    starts_of_views view reached working (by decide), ?_⟩
  rintro ⟨voters, enough, voted⟩
  have few : voters ⊆ {3, 4} := by
    intro a present
    obtain ⟨_, m, known, address, digest, decoded⟩ := voted a present
    have listed := List.mem_map_of_mem (f := fun m : Message BlockId => (m.address, m.decodeSubject)) known
    rw [all, address, decoded, show c.current.sequence = 1 from congrArg View.sequence view] at listed
    simp only [List.mem_cons, Prod.mk.injEq, Option.some.injEq, Subject.mk.injEq, View.mk.injEq, List.not_mem_nil,
      or_false] at listed
    rw [Finset.mem_insert, Finset.mem_singleton]
    rcases listed with ⟨fourth, _⟩ | ⟨third, _⟩ | ⟨_, ⟨other, _⟩, _⟩
    · exact .inr fourth
    · exact .inl third
    · exact absurd other (by decide)
  have atMost : voters.card ≤ 2 := (Finset.card_le_card few).trans Finset.card_le_two
  rw [three] at enough
  omega

end Didux.Sport
