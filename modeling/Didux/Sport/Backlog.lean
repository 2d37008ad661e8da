import Didux.Sport.Ballot

set_option autoImplicit false

namespace Didux.Sport

open List

variable {B : Type}

namespace Core

-- What processBacklog makes of a stored message: what cannot be decoded is skipped like an old one.
def check (c : Core B) (msg : Message B) : Except CoreError Unit :=
  match msg.view with
  | none => .error .invalidMessage
  | some view => c.checkMessage msg.code view

def future (c : Core B) (item : Int × Message B) : Bool := decide (c.check item.2 = .error .futureMessage)

def accepted (c : Core B) (item : Int × Message B) : Bool := decide (c.check item.2 = .ok ())

def post (src : Address) (item : Int × Message B) : Effect B := .post (.backlog src item.2)

def Delivered (c : Core B) (src : Address) (queue left : Prque (Message B)) (effects : List (Effect B)) : Prop :=
  left.Perm (queue.filter c.future) ∧ effects.Perm ((queue.filter c.accepted).map (post src))

-- No future message has a greater priority than one that is not, and of those with one priority the future ones leave
-- the heap last.
def InOrder (c : Core B) (queue : Prque (Message B)) : Prop :=
  (∀ first ∈ queue, ∀ second ∈ queue, c.future first = true → c.future second = false → first.1 ≤ second.1) ∧
    ∀ priority, ((Prque.leaving queue.length queue).filter fun item => item.1 = priority).Pairwise
      fun first second => c.future first = true → c.future second = true

variable (c : Core B) (src : Address) (fuel : Nat) (queue : Prque (Message B))

theorem drain_backlog_succ : drainBacklog c src (fuel + 1) queue =
      match queue.pop with
      | none => (queue, [])
      | some (item, rest) =>
        if c.future item then (rest.push item.2 item.1, [])
        else
          ((drainBacklog c src fuel rest).1,
            (if c.accepted item then [post src item] else []) ++ (drainBacklog c src fuel rest).2) := by
  rw [drainBacklog]
  cases queue.pop with
  | none => rfl
  | some popped =>
    obtain ⟨⟨prio, msg⟩, rest⟩ := popped
    cases decoded : msg.view with
    | none => simp [future, accepted, check, decoded]
    | some view =>
      cases verdict : c.checkMessage msg.code view with
      | ok _ => simp [future, accepted, check, decoded, verdict, post]
      | error e =>
        simp only [future, accepted, check, decoded, verdict]
        cases e <;> simp

theorem not_both (item : Int × Message B) (isFuture : c.future item = true) : c.accepted item = false := by
  have verdict : c.check item.2 = .error .futureMessage := of_decide_eq_true isFuture
  simp [accepted, verdict]

theorem delivered_perm {items others left : List (Int × Message B)} {effects : List (Effect B)} (perm : items.Perm others) :
    c.Delivered src items left effects ↔ c.Delivered src others left effects := by
  have kept := perm.filter c.future
  have posts := (perm.filter c.accepted).map (post src)
  exact and_congr (kept.congr_right left) (posts.congr_right effects)

-- The first message is future: nothing is posted and everything stays.
theorem stop_delivered_iff (item : Int × Message B) (rest : Prque (Message B)) :
    c.Delivered src (item :: rest) (rest.push item.2 item.1) [] ↔ ∀ other ∈ item :: rest, c.future other = true := by
  have moved := Prque.push_perm rest item.2 item.1
  constructor
  · rintro ⟨kept, _⟩ other member
    exact (mem_filter.mp (kept.mem_iff.mp (moved.mem_iff.mpr member))).2
  · intro all
    have noPost : (item :: rest).filter c.accepted = [] :=
      filter_eq_nil_iff.mpr fun other member => Bool.eq_false_iff.mp (not_both c other (all other member))
    rw [Delivered, filter_eq_self.mpr all, noPost]
    exact ⟨moved, .refl _⟩

theorem drain_backlog_delivered_iff (enough : queue.length ≤ fuel) :
    c.Delivered src queue (drainBacklog c src fuel queue).1 (drainBacklog c src fuel queue).2 ↔
      (Prque.leaving fuel queue).Pairwise fun first second => c.future first = true → c.future second = true := by
  induction fuel generalizing queue with
  | zero =>
    cases length_eq_zero_iff.mp (Nat.le_zero.mp enough)
    simp [drainBacklog, Delivered, Prque.leaving]
  | succ fuel ih =>
    rw [drain_backlog_succ, Prque.leaving]
    cases popped : queue.pop with
    | none =>
      cases (Prque.pop_none_iff queue).mp popped
      simp [Delivered]
    | some found =>
      obtain ⟨item, rest⟩ := found
      have all := Prque.pop_perm queue rest item popped
      have shorter : rest.length ≤ fuel := by
        have length := all.length_eq
        simp only [length_cons] at length
        omega
      have members (other : Int × Message B) : other ∈ Prque.leaving fuel rest ↔ other ∈ rest :=
        (Prque.leaving_perm fuel rest shorter).mem_iff
      rw [← delivered_perm c src all, pairwise_cons]
      dsimp only
      by_cases isFuture : c.future item = true
      · rw [if_pos isFuture, stop_delivered_iff, forall_mem_cons]
        constructor
        · exact fun ahead => ⟨fun other member _ => ahead.2 other ((members _).mp member),
            pairwise_of_forall_mem_list fun _ _ other member _ => ahead.2 other ((members _).mp member)⟩
        · exact fun ahead => ⟨isFuture, fun other member => ahead.1 other ((members _).mpr member) isFuture⟩
      · have passed : c.future item = false := Bool.eq_false_iff.mpr isFuture
        rw [if_neg isFuture, and_iff_right fun _ _ now => absurd now isFuture, ← ih rest shorter]
        -- The item itself is posted or dropped, and the rest is drained as before.
        have posts : (((item :: rest).filter c.accepted).map (post src)) =
            (if c.accepted item then [post src item] else []) ++ (rest.filter c.accepted).map (post src) := by
          by_cases taken : c.accepted item = true <;> simp [taken]
        rw [Delivered, posts, filter_cons_of_neg isFuture]
        exact and_congr_right fun _ => perm_append_left_iff _

theorem future_lowest (items : List (Int × Message B)) (sorted : items.Pairwise fun first second => second.1 ≤ first.1)
    (ahead : items.Pairwise fun first second => c.future first = true → c.future second = true) :
    ∀ first ∈ items, ∀ second ∈ items, c.future first = true → c.future second = false → first.1 ≤ second.1 := by
  induction items with
  | nil => exact fun _ => nofun
  | cons item rest ih =>
    obtain ⟨most, sorted⟩ := pairwise_cons.mp sorted
    obtain ⟨follow, ahead⟩ := pairwise_cons.mp ahead
    intro first one second other now passed
    rcases mem_cons.mp other with rfl | below
    · rcases mem_cons.mp one with rfl | among
      · exact le_rfl
      · exact most first among
    · rcases mem_cons.mp one with rfl | among
      · exact absurd (follow second below now) (Bool.eq_false_iff.mp passed)
      · exact ih sorted ahead first among second below now passed

-- The heap hands out greater priorities first, so only equal ones depend on how it is built.
theorem leaving_in_order_iff (heaped : Prque.Heaped queue) : (Prque.leaving queue.length queue).Pairwise
      (fun first second => c.future first = true → c.future second = true) ↔ c.InOrder queue := by
  have sorted := Prque.leaving_sorted queue.length queue le_rfl heaped
  have members (other : Int × Message B) : other ∈ Prque.leaving queue.length queue ↔ other ∈ queue :=
    (Prque.leaving_perm queue.length queue le_rfl).mem_iff
  constructor
  · intro ahead
    have lowest := future_lowest c _ sorted ahead
    exact ⟨fun first one second other => lowest first ((members _).mpr one) second ((members _).mpr other),
      fun priority => ahead.sublist filter_sublist⟩
  · rintro ⟨greater, ties⟩
    refine pairwise_iff_forall_sublist.mpr fun {first second} pair now => ?_
    by_contra passed
    have one := (members _).mp (pair.subset mem_cons_self)
    have other := (members _).mp (pair.subset (mem_cons_of_mem _ mem_cons_self))
    have above := greater first one second other now (Bool.eq_false_iff.mpr passed)
    have same : second.1 = first.1 := le_antisymm (pairwise_iff_forall_sublist.mp sorted pair) above
    have tied := pair.filter fun item => item.1 = first.1
    rw [filter_cons_of_pos (by simp), filter_cons_of_pos (by simpa using same), filter_nil] at tied
    exact passed (pairwise_iff_forall_sublist.mp (ties first.1) tied now)

def outcome (c : Core B) (src : Address) (queue : Prque (Message B)) : Option (Prque (Message B)) × List (Effect B) :=
  if src ∈ c.fullnodeSet.fullnodes then
    (some (drainBacklog c src queue.length queue).1, (drainBacklog c src queue.length queue).2)
  else (none, [])

def sentBy (src : Address) : Effect B → Bool
  | .post (.backlog sender _) => sender == src
  | _ => false

theorem drain_backlog_posts : ∀ effect ∈ (drainBacklog c src fuel queue).2, ∃ item, effect = post src item := by
  induction fuel generalizing queue with
  | zero => exact fun effect posted => absurd posted not_mem_nil
  | succ fuel ih =>
    intro effect posted
    rw [drain_backlog_succ] at posted
    split at posted
    · cases posted
    · next item rest _ =>
        split_ifs at posted
        · cases posted
        · rcases mem_append.mp posted with own | later
          · exact ⟨item, mem_singleton.mp own⟩
          · exact ih rest effect later
        · exact ih rest effect posted

theorem outcome_sent (other : Address) (queue : Prque (Message B)) :
    (c.outcome src queue).2.filter (sentBy other) = if src = other then (c.outcome src queue).2 else [] := by
  by_cases member : src ∈ c.fullnodeSet.fullnodes
  · rw [outcome]
    have posts := drain_backlog_posts c src queue.length queue
    split_ifs with same
    · refine filter_eq_self.mpr fun effect posted => ?_
      obtain ⟨item, made⟩ := posts effect posted
      simp [made, sentBy, post, same]
    · refine filter_eq_nil_iff.mpr fun effect posted => ?_
      obtain ⟨item, made⟩ := posts effect posted
      simp [made, sentBy, post, same]
  · simp [outcome, member]

theorem process_sender_outcome (done : Core B × List (Effect B)) (entry : Sigma fun _ : Address => Prque (Message B))
    (src : Address) : (processSender c done entry).1.backlogs.lookup src =
        (if entry.1 = src then (c.outcome src entry.2).1 else done.1.backlogs.lookup src) ∧
      (processSender c done entry).2.filter (sentBy src) =
        done.2.filter (sentBy src) ++ (if entry.1 = src then (c.outcome src entry.2).2 else []) := by
  by_cases member : entry.1 ∈ c.fullnodeSet.fullnodes
  · have found := (FullnodeSet.get_by_address_some_iff c.fullnodeSet entry.1 entry.1).mpr ⟨rfl, member⟩
    have sent := outcome_sent c entry.1 src entry.2
    rw [outcome, if_pos member] at sent
    simp only [processSender, found, filter_append, sent]
    by_cases same : entry.1 = src
    · subst same
      simp [outcome, member]
    · simp [same, AList.lookup_insert_ne (Ne.symm same)]
  · have absent := (FullnodeSet.get_by_address_none_iff c.fullnodeSet entry.1).mpr member
    simp only [processSender, absent]
    by_cases same : entry.1 = src
    · subst same
      simp [outcome, member]
    · simp [same, AList.lookup_erase_ne (Ne.symm same)]

theorem process_senders_outcome (entries : List (Sigma fun _ : Address => Prque (Message B)))
    (distinct : entries.NodupKeys) (done : Core B × List (Effect B)) (src : Address) :
    (entries.foldl (processSender c) done).1.backlogs.lookup src =
        (match entries.dlookup src with
          | some queue => (c.outcome src queue).1
          | none => done.1.backlogs.lookup src) ∧
      (entries.foldl (processSender c) done).2.filter (sentBy src) =
        done.2.filter (sentBy src) ++
          (match entries.dlookup src with
            | some queue => (c.outcome src queue).2
            | none => []) := by
  induction entries generalizing done with
  | nil => simp
  | cons entry tail ih =>
    obtain ⟨fresh, rest⟩ := nodupKeys_cons.mp distinct
    have here := process_sender_outcome c done entry src
    have later := ih rest (processSender c done entry)
    rw [foldl_cons, later.1, later.2, here.1, here.2]
    by_cases same : entry.1 = src
    · subst same
      rw [dlookup_eq_none.mpr fresh, dlookup_cons_eq]
      simp
    · rw [dlookup_cons_ne _ _ (Ne.symm same)]
      simp [same]

theorem process_backlog_outcome (held : (c.backlogs.lookup src).getD [] = queue) :
    ((processBacklog c).1.backlogs.lookup src).getD [] = (c.outcome src queue).1.getD [] ∧
      (processBacklog c).2.filter (sentBy src) = (c.outcome src queue).2 := by
  have result := process_senders_outcome c c.backlogs.entries c.backlogs.nodupKeys (c, []) src
  have stored : c.backlogs.entries.dlookup src = c.backlogs.lookup src := rfl
  rw [processBacklog, result.1, result.2, stored]
  cases found : c.backlogs.lookup src with
  | some known =>
    rw [found] at held
    cases held
    exact ⟨rfl, rfl⟩
  | none =>
    rw [found] at held
    cases held
    simp only [outcome]
    split_ifs <;> exact ⟨rfl, rfl⟩

theorem outcome_delivered_iff (heaped : Prque.Heaped queue) :
    c.Delivered src queue ((c.outcome src queue).1.getD []) (c.outcome src queue).2 ↔
      if src ∈ c.fullnodeSet.fullnodes then c.InOrder queue
      else ∀ item ∈ queue, c.future item = false ∧ c.accepted item = false := by
  rw [outcome]
  split_ifs with member
  · exact (drain_backlog_delivered_iff c src queue.length queue le_rfl).trans (leaving_in_order_iff c queue heaped)
  · simp only [Delivered, Option.getD_none, nil_perm, map_eq_nil_iff, filter_eq_nil_iff,
      Bool.not_eq_true]
    exact ⟨fun both item held => ⟨both.1 item held, both.2 item held⟩,
      fun all => ⟨fun item held => (all item held).1, fun item held => (all item held).2⟩⟩

def storeAll (c : Core B) (stored : List (Message B × Address)) : Core B :=
  stored.foldl (fun c item => c.storeBacklog item.1 item.2) c

def sent (src : Address) (stored : List (Message B × Address)) : List (Int × Message B) :=
  stored.filterMap fun item =>
    if item.2 = src then item.1.view.map fun view => (toPriority item.1.code view, item.1) else none

def pushAll (queue : Prque (Message B)) (items : List (Int × Message B)) : Prque (Message B) :=
  items.foldl (fun queue item => queue.push item.2 item.1) queue

def queueOf (src : Address) (stored : List (Message B × Address)) : Prque (Message B) := pushAll [] (sent src stored)

theorem push_all_heap (queue : Prque (Message B)) (items : List (Int × Message B)) (heaped : Prque.Heaped queue) :
    Prque.Heaped (pushAll queue items) ∧ (pushAll queue items).Perm (queue ++ items) := by
  induction items generalizing queue with
  | nil => exact ⟨heaped, .of_eq (append_nil queue).symm⟩
  | cons item items ih =>
    obtain ⟨still, perm⟩ := ih (queue.push item.2 item.1) (Prque.push_heaped queue item.2 item.1 heaped)
    refine ⟨still, perm.trans (((Prque.push_perm queue item.2 item.1).append_right items).trans ?_)⟩
    exact perm_middle.symm

theorem queue_of_heap (src : Address) (stored : List (Message B × Address)) :
    Prque.Heaped (queueOf src stored) ∧ (queueOf src stored).Perm (sent src stored) :=
  push_all_heap [] (sent src stored) Prque.heaped_nil

theorem store_all_queue (stored : List (Message B × Address)) (src : Address) (other : src ≠ c.address) :
    ((c.storeAll stored).backlogs.lookup src).getD [] = pushAll ((c.backlogs.lookup src).getD []) (sent src stored) := by
  induction stored generalizing c with
  | nil => simp [storeAll, sent, pushAll]
  | cons item stored ih =>
    have kept : (c.storeBacklog item.1 item.2).address = c.address := by
      simp only [storeBacklog]
      split_ifs <;> rfl
    have later := ih (c.storeBacklog item.1 item.2) (kept.symm ▸ other)
    change (((c.storeBacklog item.1 item.2).storeAll stored).backlogs.lookup src).getD [] = _
    rw [later]
    simp only [sent, filterMap_cons]
    by_cases same : item.2 = src
    · subst same
      cases decoded : item.1.view with
      | none => simp [storeBacklog, other, decoded]
      | some view => simp [storeBacklog, other, decoded, pushAll]
    · have untouched : ((c.storeBacklog item.1 item.2).backlogs.lookup src) = c.backlogs.lookup src := by
        simp only [storeBacklog]
        split_ifs
        · rfl
        · exact AList.lookup_insert_ne (Ne.symm same)
      rw [untouched, if_neg same]

def Delivers (c : Core B) (src : Address) (stored : List (Message B × Address)) : Prop :=
  c.Delivered src (sent src stored) (((processBacklog c).1.backlogs.lookup src).getD [])
    ((processBacklog c).2.filter (sentBy src))

end Core

theorem backlog_delivered_iff (start later : Core B) (stored : List (Message B × Address))
    (empty : start.backlogs = ∅) (held : later.backlogs = (start.storeAll stored).backlogs) :
    (∀ src, src ≠ start.address → later.Delivers src stored) ↔
      ∀ src, src ≠ start.address →
        if src ∈ later.fullnodeSet.fullnodes then later.InOrder (Core.queueOf src stored)
        else ∀ item ∈ Core.queueOf src stored, later.future item = false ∧ later.accepted item = false := by
  refine forall_congr' fun src => imp_congr_right fun other => ?_
  obtain ⟨heaped, perm⟩ := Core.queue_of_heap src stored
  have queue : (later.backlogs.lookup src).getD [] = Core.queueOf src stored := by
    rw [held, Core.store_all_queue start stored src other, empty]
    rfl
  obtain ⟨left, posted⟩ := Core.process_backlog_outcome later src _ queue
  rw [Core.Delivers, left, posted, ← Core.delivered_perm later src perm]
  exact Core.outcome_delivered_iff later src _ heaped

def idleCore (view : View) : Core BlockId where
  address := 1
  state := .acceptRequest
  fullnodeSet := ⟨[1, 2], 0, some 2⟩
  waitingForRoundChange := false
  backlogs := ∅
  current := newRoundState view ⟨[1, 2], 0, some 2⟩ 0 none none
  roundChangeSet := newRoundChangeSet ⟨[1, 2], 0, some 2⟩
  pendingRequests := []

def early (view : View) : Message BlockId × Address := (⟨msgPreprepare, .preprepare ⟨view, ⟨1, 10⟩⟩, 2, [], []⟩, 2)

def laterCore (view : View) (stored : List (Message BlockId × Address)) : Core BlockId :=
  { idleCore view with backlogs := ((idleCore ⟨0, 1⟩).storeAll stored).backlogs }

def waiting : List (Message BlockId × Address) := [early ⟨0, 2⟩, early ⟨1, 1⟩, early ⟨0, 2⟩, early ⟨0, 1⟩]

theorem next_round_delivered : (laterCore ⟨1, 1⟩ waiting).Delivers 2 waiting := by
  refine (backlog_delivered_iff (idleCore ⟨0, 1⟩) (laterCore ⟨1, 1⟩ _) waiting rfl rfl).mpr ?_ 2 (by decide)
  intro src other
  by_cases sender : src = 2
  · subst sender
    rw [if_pos (by decide)]
    exact (Core.leaving_in_order_iff _ _ (Core.queue_of_heap 2 waiting).1).mp (by decide +kernel)
  · have away : ¬ 2#160 = src := fun same => sender same.symm
    have nothing : Core.queueOf src waiting = [] := by
      simp [Core.queueOf, Core.sent, Core.pushAll, waiting, early, away]
    simp [nothing, Core.InOrder, Prque.leaving]

-- Round 101 of sequence 1 has a lower priority than round 0 of sequence 2, so the message that
-- is still future is at the head and the one that could be handled now is not looked at.
theorem later_sequence_hides_round : let stored := [early ⟨101, 1⟩, early ⟨0, 2⟩]
    let later := laterCore ⟨101, 1⟩ stored
    (∀ item ∈ stored, (idleCore ⟨0, 1⟩).check item.1 = .error .futureMessage) ∧
      later.check (early ⟨101, 1⟩).1 = .ok () ∧ (Core.processBacklog later).2 = [] ∧
      ((Core.processBacklog later).1.backlogs.lookup 2).map length = some 2 := by
  decide +kernel

end Didux.Sport
