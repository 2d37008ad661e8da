import Didux.Backend.Snapshot

set_option autoImplicit false

namespace Didux.Backend

open Sport List FullnodeSet

def entryOf (members : List Address) (address : Address) (votes : Nat) : Tally := ⟨decide (address ∉ members), votes⟩

structure Balanced (members : List Address) (votes : List Vote) (tally : Assoc Address Tally) (address : Address) : Prop where
  tallied : TalliedAt Vote.address (entryOf members) tally votes address
  flags : ∀ vote ∈ votes, vote.address = address → vote.authorize = decide (address ∉ members)

variable {members : List Address} {tally : Assoc Address Tally} {address : Address} {votes : List Vote}

theorem balanced_perm {left right : List Vote}
    (same : left.Perm right) (balanced : Balanced members left tally address) : Balanced members right tally address :=
  ⟨tallied_perm _ _ tally left right same address balanced.tallied,
    fun vote present => balanced.flags vote (same.mem_iff.mpr present)⟩

theorem balanced_members {others : List Address} (same : address ∈ others ↔ address ∈ members)
    (balanced : Balanced members votes tally address) :
    Balanced others votes tally address := by
  have flag : decide (address ∉ others) = decide (address ∉ members) := by simp [same]
  refine ⟨?_, ?_⟩
  · have tallied := balanced.tallied
    simp only [TalliedAt, entryOf, flag] at tallied ⊢
    exact tallied
  · rw [flag]
    exact balanced.flags

theorem balanced_empty (members : List Address) (address : Address) : Balanced members [] ∅ address :=
  ⟨tallied_nil _ _ address, fun _ present => by cases present⟩

theorem balanced_erased
    (unnamed : ∀ vote ∈ votes, vote.address ≠ address) : Balanced members votes (tally.erase address) address :=
  ⟨tallied_erase _ _ tally votes address ((count_key_eq_zero_iff _ votes address).mpr unnamed),
    fun vote present named => absurd named (unnamed vote present)⟩

namespace Snapshot

variable (codec : Codec) (epoch : Nat) (s : Snapshot) (fullnode : Address) (number : Nat) (address : Address)
  (members : List Address)

theorem uncast_frame (authorize : Bool) : ∃ tally, (s.uncast address authorize).1 = { s with tally := tally } := by
  cases found : s.tally.lookup address with
  | none => exact ⟨s.tally, by simp only [uncast, found]⟩
  | some tally =>
    simp only [uncast, found]
    split_ifs
    · exact ⟨s.tally, rfl⟩
    · exact ⟨_, rfl⟩
    · exact ⟨_, rfl⟩

variable {vote : Vote} {rest : List Vote} {authorize : Bool}

theorem uncast_balanced_other {address : Address} (other : vote.address ≠ address)
    (balanced : Balanced members (vote :: rest) s.tally address) :
    Balanced members rest (s.uncast vote.address vote.authorize).1.tally address := by
  have tallied := (tallied_cons_other _ _ s.tally vote rest address other).mp balanced.tallied
  refine ⟨?_, fun v present => balanced.flags v (mem_cons_of_mem vote present)⟩
  cases found : s.tally.lookup vote.address with
  | none => simpa only [uncast, found] using tallied
  | some tally =>
    simp only [uncast, found]
    split_ifs
    · exact tallied
    · exact tallied_insert_other _ _ s.tally rest address vote.address _ other tallied
    · exact tallied_erase_other _ _ s.tally rest address vote.address other tallied

theorem uncast_balanced_own (balanced : Balanced members (vote :: rest) s.tally vote.address) :
    Balanced members rest (s.uncast vote.address vote.authorize).1.tally vote.address := by
  have count : countKey Vote.address (vote :: rest) vote.address = countKey Vote.address rest vote.address + 1 := by
    rw [count_key_cons, if_pos rfl]
  have flag := balanced.flags vote mem_cons_self rfl
  have found : s.tally.lookup vote.address =
      some (entryOf members vote.address (countKey Vote.address rest vote.address + 1)) := by
    have tallied := balanced.tallied
    rw [TalliedAt, count] at tallied
    exact tallied
  refine ⟨?_, fun v present => balanced.flags v (mem_cons_of_mem vote present)⟩
  simp only [uncast, found]
  rw [if_neg (by simp [entryOf, flag])]
  by_cases more : countKey Vote.address rest vote.address = 0
  · rw [if_neg (by simp [entryOf, more])]
    exact tallied_erase _ _ s.tally rest vote.address more
  · rw [if_pos (by simp only [entryOf]; omega)]
    exact tallied_insert Vote.address (entryOf members) s.tally rest vote.address more

theorem uncast_balanced {address : Address} (balanced : Balanced members (vote :: rest) s.tally address) :
    Balanced members rest (s.uncast vote.address vote.authorize).1.tally address := by
  by_cases own : vote.address = address
  · subst own
    exact uncast_balanced_own s members balanced
  · exact uncast_balanced_other s members own balanced

structure Bookkept (s : Snapshot) : Prop where
  balanced : ∀ address, Balanced s.members s.votes s.tally address
  single : (s.votes.map fun vote => (vote.fullnode, vote.address)).Nodup
  voters : ∀ vote ∈ s.votes, vote.fullnode ∈ s.members
  distinct : s.members.Nodup

theorem copy_bookkept (text : Address → List Char) (s : Snapshot) (kept : s.Bookkept) : (s.copy text).Bookkept := by
  have same : (s.copy text).members.Perm s.members := copy_perm text s.fullnodeSet
  refine ⟨?_, kept.single, ?_, same.nodup_iff.mpr kept.distinct⟩
  · exact fun address => balanced_members same.mem_iff (kept.balanced address)
  · exact fun vote present => same.mem_iff.mpr (kept.voters vote present)

theorem reset_votes_bookkept (s : Snapshot) (kept : s.Bookkept) : (s.resetVotes epoch number).Bookkept := by
  by_cases checkpoint : number % epoch = 0
  · rw [resetVotes, if_pos checkpoint]
    exact ⟨balanced_empty _, nodup_nil, (fun _ present => by cases present), kept.distinct⟩
  · rw [resetVotes, if_neg checkpoint]
    exact kept

theorem reset_votes_members (s : Snapshot) : (s.resetVotes epoch number).members = s.members := by
  by_cases checkpoint : number % epoch = 0
  · rw [resetVotes, if_pos checkpoint]
    rfl
  · rw [resetVotes, if_neg checkpoint]

theorem votes_on_iff (vote : Vote) :
    votesOn fullnode address vote = true ↔ vote.fullnode = fullnode ∧ vote.address = address := by
  simp [votesOn]

theorem discard_vote_cases : (s.discardVote fullnode address = s ∧ ∀ vote ∈ s.votes, ¬ votesOn fullnode address vote) ∨
      ∃ vote rest, s.votes.Perm (vote :: rest) ∧ votesOn fullnode address vote ∧ rest.Sublist s.votes ∧
        s.discardVote fullnode address = { (s.uncast vote.address vote.authorize).1 with votes := rest } := by
  cases found : s.votes.find? (votesOn fullnode address) with
  | none =>
    refine .inl ⟨by simp only [discardVote, found], ?_⟩
    exact fun vote present => by simpa using find?_eq_none.mp found vote present
  | some vote =>
    have named := find?_some found
    have member := mem_of_find?_eq_some found
    obtain ⟨first, before, after, earlier, hit, split, erased⟩ := exists_of_eraseP member named
    have same : vote = first := by
      rw [split, find?_append, find?_cons_of_pos hit] at found
      have none : before.find? (votesOn fullnode address) = none :=
        find?_eq_none.mpr fun v present => by simpa using earlier v present
      rw [none] at found
      exact (Option.some.inj found).symm
    subst same
    refine .inr ⟨vote, s.votes.eraseP (votesOn fullnode address), ?_, named, eraseP_sublist, ?_⟩
    · rw [erased]
      nth_rewrite 1 [split]
      exact perm_middle
    · simp only [discardVote, found]

theorem discard_vote_bookkept (kept : s.Bookkept) :
    (s.discardVote fullnode address).Bookkept ∧ (s.discardVote fullnode address).members = s.members ∧
      ∀ vote ∈ (s.discardVote fullnode address).votes, ¬ votesOn fullnode address vote := by
  rcases discard_vote_cases s fullnode address with ⟨same, none⟩ | ⟨vote, rest, perm, named, sub, same⟩
  · rw [same]
    exact ⟨kept, rfl, none⟩
  · obtain ⟨tally, frame⟩ := uncast_frame s vote.address vote.authorize
    have read : (s.uncast vote.address vote.authorize).1.tally = tally := by rw [frame]
    rw [same, frame]
    refine ⟨⟨?_, ?_, ?_, kept.distinct⟩, rfl, ?_⟩
    · intro a
      have balanced := balanced_perm perm (kept.balanced a)
      exact read ▸ uncast_balanced s s.members balanced
    · exact kept.single.sublist (sub.map _)
    · exact fun v present => kept.voters v (sub.subset present)
    · intro other present hit
      have apart := (perm.map fun v => (v.fullnode, v.address)).nodup_iff.mp kept.single
      rw [map_cons, nodup_cons] at apart
      refine apart.1 (mem_map.mpr ⟨other, present, ?_⟩)
      obtain ⟨f, a⟩ := (votes_on_iff fullnode address vote).mp named
      obtain ⟨f', a'⟩ := (votes_on_iff fullnode address other).mp hit
      rw [f, a, f', a']

theorem check_vote_iff : s.checkVote address authorize = true ↔ authorize = decide (address ∉ s.members) := by
  by_cases member : address ∈ s.fullnodeSet.fullnodes
  · have found := (get_by_address_some_iff s.fullnodeSet address address).mpr ⟨rfl, member⟩
    cases authorize <;> simp [checkVote, found, members, member]
  · have missing := (get_by_address_none_iff s.fullnodeSet address).mpr member
    cases authorize <;> simp [checkVote, missing, members, member]

theorem cast_eq (kept : s.Bookkept) (counts : authorize = decide (address ∉ s.members)) : s.cast address authorize =
      ({ s with
        tally := s.tally.insert address (entryOf s.members address (countKey Vote.address s.votes address + 1)) }, true) := by
  have checked := (check_vote_iff s address).mpr counts
  cases found : s.tally.lookup address with
  | none =>
    have zero := tallied_lookup_none _ _ s.tally s.votes address (kept.balanced address).tallied found
    rw [cast, if_pos checked, found, zero, entryOf, ← counts]
  | some old =>
    obtain ⟨_, same⟩ := tallied_lookup_some _ _ s.tally s.votes address old (kept.balanced address).tallied found
    simp only [cast, checked, found, if_true, same, entryOf]

theorem cast_vote_cases (authorize : Bool) (kept : s.Bookkept) :
    (authorize ≠ decide (address ∉ s.members) ∧ s.castVote fullnode number address authorize = s) ∨
      (authorize = decide (address ∉ s.members) ∧ s.castVote fullnode number address authorize = { s with
        tally := s.tally.insert address (entryOf s.members address (countKey Vote.address s.votes address + 1))
        votes := s.votes ++ [⟨fullnode, number, address, authorize⟩] }) := by
  by_cases counts : authorize = decide (address ∉ s.members)
  · refine .inr ⟨counts, ?_⟩
    simp only [castVote, cast_eq s address kept counts, if_true]
  · have refused : ¬ s.checkVote address authorize = true := (check_vote_iff s address).not.mpr counts
    refine .inl ⟨counts, ?_⟩
    simp only [castVote, cast, if_neg refused, Bool.false_eq_true, if_false]

theorem cast_vote_bookkept (kept : s.Bookkept) (member : fullnode ∈ s.members)
    (fresh : ∀ vote ∈ s.votes, ¬ votesOn fullnode address vote) : (s.castVote fullnode number address authorize).Bookkept := by
  rcases cast_vote_cases s fullnode number address authorize kept with ⟨_, same⟩ | ⟨counts, same⟩
  · rw [same]
    exact kept
  · rw [same]
    have perm : (⟨fullnode, number, address, authorize⟩ :: s.votes).Perm
        (s.votes ++ [⟨fullnode, number, address, authorize⟩]) := (perm_append_singleton _ _).symm
    refine ⟨?_, ?_, ?_, kept.distinct⟩
    · intro a
      refine balanced_perm perm ⟨?_, ?_⟩
      · by_cases own : address = a
        · subst own
          have count : countKey Vote.address (⟨fullnode, number, address, authorize⟩ :: s.votes) address =
              countKey Vote.address s.votes address + 1 := by rw [count_key_cons, if_pos rfl]
          have tallied := tallied_insert Vote.address (entryOf s.members) s.tally
            (⟨fullnode, number, address, authorize⟩ :: s.votes) address (by omega)
          rw [count] at tallied
          exact tallied
        · refine (tallied_cons_other _ _ _ _ s.votes a own).mpr ?_
          exact tallied_insert_other _ _ s.tally s.votes a address _ own (kept.balanced a).tallied
      · intro vote present named
        rcases mem_cons.mp present with same | old
        · subst same
          exact named ▸ counts
        · exact (kept.balanced a).flags vote old named
    · rw [map_append, nodup_append]
      refine ⟨kept.single, nodup_singleton _, ?_⟩
      intro pair present other new same
      subst same
      obtain ⟨vote, there, shown⟩ := mem_map.mp present
      simp only [map_cons, map_nil, mem_singleton] at new
      rw [← shown, Prod.mk.injEq] at new
      exact fresh vote there ((votes_on_iff fullnode address vote).mpr new)
    · intro vote present
      rcases mem_append.mp present with old | new
      · exact kept.voters vote old
      · cases mem_singleton.mp new
        exact member

theorem discard_votes_of_spec (rest : List Vote) (s : Snapshot) : (∃ tally, discardVotesOf fullnode s rest =
      { s with tally := tally, votes := s.votes ++ rest.filter fun vote => vote.fullnode ≠ fullnode }) ∧
    ∀ address, Balanced members (s.votes ++ rest) s.tally address →
      Balanced members (discardVotesOf fullnode s rest).votes (discardVotesOf fullnode s rest).tally address := by
  induction rest generalizing s with
  | nil =>
    refine ⟨⟨s.tally, by simp [discardVotesOf]⟩, ?_⟩
    intro address balanced
    simpa only [discardVotesOf, append_nil] using balanced
  | cons vote rest ih =>
    by_cases own : vote.fullnode = fullnode
    · obtain ⟨tally, frame⟩ := uncast_frame s vote.address vote.authorize
      obtain ⟨⟨final, shape⟩, keep⟩ := ih (s.uncast vote.address vote.authorize).1
      simp only [discardVotesOf, if_pos own]
      refine ⟨⟨final, ?_⟩, ?_⟩
      · rw [shape, frame, filter_cons_of_neg (by simp [own])]
      · intro address balanced
        refine keep address ?_
        have votes : (s.uncast vote.address vote.authorize).1.votes = s.votes := by rw [frame]
        rw [votes]
        refine uncast_balanced s members ?_
        exact balanced_perm perm_middle balanced
    · obtain ⟨⟨final, shape⟩, keep⟩ := ih { s with votes := s.votes ++ [vote] }
      simp only [discardVotesOf, if_neg own]
      refine ⟨⟨final, ?_⟩, ?_⟩
      · rw [shape, filter_cons_of_pos (by simp [own])]
        simp
      · intro address balanced
        refine keep address ?_
        simpa using balanced

theorem drop_address_bookkept (balanced : ∀ other, other ≠ address → Balanced s.members s.votes s.tally other)
    (single : (s.votes.map fun vote => (vote.fullnode, vote.address)).Nodup)
    (voters : ∀ vote ∈ s.votes, vote.fullnode ∈ s.members) (distinct : s.members.Nodup) :
    Bookkept { s with votes := s.votes.filter fun vote => vote.address ≠ address, tally := s.tally.erase address } := by
  refine ⟨?_, ?_, ?_, distinct⟩
  · intro other
    by_cases own : other = address
    · subst own
      refine balanced_erased ?_
      simpa using (mem_filter.mp present).2
    · have same : countKey Vote.address (s.votes.filter fun vote => vote.address ≠ address) other =
          countKey Vote.address s.votes other := by
        rw [countKey, countP_filter]
        congr 1
        funext vote
        by_cases named : vote.address = other
        · simp [named, own]
        · simp [named]
      refine ⟨?_, ?_⟩
      · have tallied := tallied_erase_other _ _ s.tally s.votes other address (Ne.symm own) (balanced other own).tallied
        rw [TalliedAt, ← same] at tallied
        exact tallied
      · exact fun vote present => (balanced other own).flags vote (mem_filter.mp present).1
  · exact single.sublist (filter_sublist.map _)
  · exact fun vote present => voters vote (mem_filter.mp present).1

theorem pass_vote_bookkept {text : Address → List Char} {s : Snapshot} {address : Address} (kept : s.Bookkept) :
    (s.passVote text address).Bookkept := by
  cases found : s.tally.lookup address with
  | none => simpa only [passVote, found] using kept
  | some tally =>
    obtain ⟨_, entry⟩ := tallied_lookup_some _ _ s.tally s.votes address tally (kept.balanced address).tallied found
    by_cases passed : s.fullnodeSet.size / 2 < tally.votes
    · simp only [passVote, found, if_pos passed]
      cases join : tally.authorize with
      | true =>
        have fresh : address ∉ s.fullnodeSet.fullnodes := by
          have flag : (entryOf s.members address 0).authorize = true := by rw [← join, entry]; rfl
          exact of_decide_eq_true flag
        have perm := add_fullnode_perm text s.fullnodeSet address fresh
        refine drop_address_bookkept { s with fullnodeSet := (s.fullnodeSet.addFullnode text address).1 } address
          ?_ kept.single ?_ ?_
        · intro other different
          refine balanced_members ?_ (kept.balanced other)
          simp only [members, perm.mem_iff, mem_cons, different, false_or]
        · intro vote present
          exact perm.mem_iff.mpr (mem_cons_of_mem address (kept.voters vote present))
        · exact perm.nodup_iff.mpr (nodup_cons.mpr ⟨fresh, kept.distinct⟩)
      | false =>
        have old : address ∈ s.fullnodeSet.fullnodes := by
          have flag : (entryOf s.members address 0).authorize = false := by rw [← join, entry]; rfl
          exact not_not.mp (of_decide_eq_false flag)
        have removed : (s.fullnodeSet.removeFullnode address).1.fullnodes = s.members.erase address := by
          simp [removeFullnode, old, members]
        obtain ⟨⟨final, shape⟩, keep⟩ := discard_votes_of_spec address (s.members.erase address) s.votes
          { s with fullnodeSet := (s.fullnodeSet.removeFullnode address).1, votes := [] }
        generalize discardVotesOf address
          { s with fullnodeSet := (s.fullnodeSet.removeFullnode address).1, votes := [] } s.votes = left at shape keep
        have leftMembers : left.members = s.members.erase address := by rw [shape]; exact removed
        have leftVotes : left.votes = s.votes.filter fun vote => vote.fullnode ≠ address := by
          rw [shape]
          exact nil_append _
        refine drop_address_bookkept left address ?_ ?_ ?_ ?_
        · intro other different
          rw [leftMembers]
          refine keep other (balanced_members ?_ (kept.balanced other))
          rw [mem_erase_of_ne different]
        · rw [leftVotes]
          exact kept.single.sublist (filter_sublist.map _)
        · intro vote present
          rw [leftVotes] at present
          obtain ⟨there, other⟩ := mem_filter.mp present
          rw [leftMembers, mem_erase_of_ne (by simpa using other)]
          exact kept.voters vote there
        · rw [leftMembers]
          exact kept.distinct.erase address
    · simpa only [passVote, found, if_neg passed] using kept

variable (next : Snapshot) (header : Header)

theorem apply_header_ok (applied : applyHeader codec epoch s header = .ok next) :
    ∃ fullnode authorize, ecrecover codec header = .ok fullnode ∧ voteOf header.nonce = some authorize ∧
      fullnode ∈ s.members ∧ next =
        ((((s.resetVotes epoch (uint64 header.number)).discardVote fullnode header.coinbase).castVote fullnode
          (uint64 header.number) header.coinbase authorize).passVote codec.text header.coinbase) := by
  simp only [applyHeader] at applied
  split_ifs at applied
  cases recovered : ecrecover codec header with
  | error e => simp [recovered] at applied
  | ok fullnode =>
    cases known : ((s.resetVotes epoch (uint64 header.number)).fullnodeSet.getByAddress fullnode).2 with
    | none => simp [recovered, known] at applied
    | some found =>
      cases vote : voteOf header.nonce with
      | none => simp [recovered, known, vote] at applied
      | some authorize =>
        simp only [recovered, known, vote, Except.ok.injEq] at applied
        have member := ((get_by_address_some_iff _ fullnode found).mp known).2
        have same := reset_votes_members epoch (uint64 header.number) s
        exact ⟨fullnode, authorize, rfl, rfl, same ▸ member, applied.symm⟩

theorem apply_header_bookkept (kept : s.Bookkept) (applied : applyHeader codec epoch s header = .ok next) : next.Bookkept := by
  obtain ⟨fullnode, authorize, _, _, member, same⟩ := apply_header_ok codec epoch s next header applied
  have reset := reset_votes_bookkept epoch (uint64 header.number) s kept
  have resetMembers := reset_votes_members epoch (uint64 header.number) s
  obtain ⟨discarded, discardedMembers, fresh⟩ := discard_vote_bookkept _ fullnode header.coinbase reset
  rw [same]
  refine pass_vote_bookkept ?_
  refine cast_vote_bookkept _ fullnode _ header.coinbase discarded ?_ fresh
  rw [discardedMembers, resetMembers]
  exact member

variable (headers : List Header)

theorem apply_headers_bookkept (s next : Snapshot) (kept : s.Bookkept) (applied : applyHeaders codec epoch s headers = .ok next) :
    next.Bookkept := by
  induction headers generalizing s with
  | nil =>
    cases applied
    exact kept
  | cons header rest ih =>
    cases one : applyHeader codec epoch s header with
    | error e => simp [applyHeaders, one] at applied
    | ok middle =>
      simp only [applyHeaders, one] at applied
      exact ih middle (apply_header_bookkept codec epoch s middle header kept one) applied

theorem apply_ok (applied : s.apply codec headers = .ok next) :
    next = s ∨ ∃ snap hash, applyHeaders codec s.epoch (s.copy codec.text) headers = .ok snap ∧
      next = { snap with number := uint64 (s.number + headers.length), hash := hash } := by
  cases headers with
  | nil =>
    cases applied
    exact .inl rfl
  | cons first rest =>
    simp only [apply] at applied
    split_ifs at applied
    cases ran : applyHeaders codec s.epoch (s.copy codec.text) (first :: rest) with
    | error e => simp [ran] at applied
    | ok snap =>
      simp only [ran, Except.ok.injEq] at applied
      exact .inr ⟨snap, _, rfl, applied.symm⟩

theorem apply_bookkept (kept : s.Bookkept) (applied : s.apply codec headers = .ok next) : next.Bookkept := by
  rcases apply_ok codec s next headers applied with same | ⟨snap, hash, ran, same⟩
  · exact same ▸ kept
  · have done := apply_headers_bookkept codec s.epoch headers _ snap (copy_bookkept codec.text s kept) ran
    rw [same]
    exact ⟨done.balanced, done.single, done.voters, done.distinct⟩

theorem new_snapshot_bookkept (text : Address → List Char) (epoch : Nat) (hash : Hash) (addrs : List Address)
    (policy : Nat) (distinct : addrs.Nodup) : (newSnapshot epoch 0 hash (newFullnodeSet text addrs policy)).Bookkept where
  balanced := balanced_empty _
  single := nodup_nil
  voters _ present := by cases present
  distinct := (perm_insertionSort _ addrs).nodup_iff.mpr distinct

theorem reached_bookkept (reached : Reached codec s) : s.Bookkept := by
  refine Runs.reached_invariant _ _ Bookkept ?_ ?_ s reached
  · rintro start ⟨epoch, hash, addrs, policy, distinct, rfl⟩
    exact new_snapshot_bookkept codec.text epoch hash addrs policy distinct
  · rintro state next kept ⟨headers, applied⟩
    exact apply_bookkept codec state next headers kept applied

theorem snapshot_bookkeeping (codec : Codec) (s : Snapshot) (reached : Reached codec s) :
    (∀ a, ((s.tally.lookup a).isSome ↔ ∃ vote ∈ s.votes, vote.address = a) ∧
      ∀ tally, s.tally.lookup a = some tally →
        tally.votes = s.votes.countP (fun vote => vote.address = a) ∧
        (∀ vote ∈ s.votes, vote.address = a → vote.authorize = tally.authorize) ∧
        tally.authorize = !decide (a ∈ s.fullnodeSet.fullnodes)) ∧ (s.votes.map fun vote => (vote.fullnode, vote.address)).Nodup ∧
    (∀ vote ∈ s.votes, vote.fullnode ∈ s.fullnodeSet.fullnodes) ∧ s.fullnodeSet.fullnodes.Nodup := by
  have kept := reached_bookkept codec s reached
  refine ⟨?_, kept.single, kept.voters, kept.distinct⟩
  intro a
  have balanced := kept.balanced a
  refine ⟨?_, ?_⟩
  · have occurs := (count_key_eq_zero_iff Vote.address s.votes a).not
    push Not at occurs
    rw [← occurs]
    have tallied := balanced.tallied
    rw [TalliedAt] at tallied
    rw [tallied]
    by_cases zero : countKey Vote.address s.votes a = 0 <;> simp [zero]
  · intro tally found
    obtain ⟨_, entry⟩ := tallied_lookup_some _ _ s.tally s.votes a tally balanced.tallied found
    rw [entry]
    exact ⟨rfl, fun vote present named => balanced.flags vote present named, decide_not⟩

def threeMembers : Snapshot := newSnapshot 30000 0 1 (newFullnodeSet Plain.codec.text [1, 2, 3] 0)

theorem one_vote_facts : ∃ s, threeMembers.apply Plain.codec [Plain.header 1 1 0 1 4 nonceAuthVote] = .ok s ∧
    s.votes = [⟨1, 1, 4, true⟩] :=
  ⟨_, rfl, rfl⟩

theorem three_members_reached : Reached Plain.codec threeMembers :=
  Runs.reached_start _ _ _ ⟨30000, 1, [1, 2, 3], 0, by decide, rfl⟩

theorem snapshot_bookkeeping_one_vote :
    ∃ s, Reached Plain.codec s ∧ s.votes = [⟨1, 1, 4, true⟩] ∧ (s.tally.lookup 4).isSome ∧ (s.tally.lookup 1).isNone := by
  obtain ⟨s, applied, votes⟩ := one_vote_facts
  have reached : Reached Plain.codec s := Runs.reached_step _ _ _ s three_members_reached ⟨_, applied⟩
  have kept := (snapshot_bookkeeping Plain.codec s reached).1
  refine ⟨s, reached, votes, (kept 4).1.mpr ?_, ?_⟩
  · rw [votes]
    exact ⟨_, mem_singleton_self _, rfl⟩
  · have unnamed : ¬ (s.tally.lookup 1).isSome := by
      rw [(kept 1).1, votes]
      decide
    simpa using unnamed

end Snapshot

end Didux.Backend
