import Didux.Backend.Engine
import Didux.Backend.SnapshotMemory

set_option autoImplicit false

namespace Didux.Backend

open Sport Backend.Snapshot List Option Plain Node

def chained (codec : Codec) : Header → List Header → Prop
  | _, [] => True
  | parent, header :: rest =>
    header.number = parent.number + 1 ∧ header.parentHash = parent.hash codec ∧ chained codec header rest

structure HeaderChain (codec : Codec) where
  genesis : Header
  rest : List Header
  start : genesis.number = 0
  links : chained codec genesis rest

namespace HeaderChain

variable {codec : Codec}

def header (chain : HeaderChain codec) (n : Nat) : Option Header := (chain.genesis :: chain.rest)[n]?

def path (chain : HeaderChain codec) (n : Nat) : List Header := chain.rest.take n

def Apart (chain : HeaderChain codec) (other : Header) : Prop :=
  ∀ n header, chain.header n = some header → codec.Separates header other

theorem chained_number (parent : Header) (rest : List Header) (links : chained codec parent rest) (n : Nat) (header : Header)
    (here : (parent :: rest)[n]? = some header) : header.number = parent.number + n := by
  induction n generalizing parent rest with
  | zero =>
    cases here
    rfl
  | succ n ih =>
    cases rest with
    | nil => simp at here
    | cons next rest =>
      obtain ⟨number, _, links⟩ := links
      rw [ih next rest links (by simpa using here)]
      omega

theorem chained_parent (parent : Header) (rest : List Header) (links : chained codec parent rest) (n : Nat) (header : Header)
    (here : (parent :: rest)[n + 1]? = some header) :
    ∃ previous, (parent :: rest)[n]? = some previous ∧ header.parentHash = previous.hash codec := by
  induction n generalizing parent rest with
  | zero =>
    cases rest with
    | nil => simp at here
    | cons next rest =>
      cases here
      exact ⟨parent, rfl, links.2.1⟩
  | succ n ih =>
    cases rest with
    | nil => simp at here
    | cons next rest =>
      obtain ⟨_, _, links⟩ := links
      simpa using ih next rest links (by simpa using here)

variable (chain : HeaderChain codec) (config : Config) (node : Node codec) (caches : Caches) (n : Nat)
  (header : Header) (s : Snapshot)

theorem header_number (here : chain.header n = some header) : header.number = n := by
  rw [chained_number chain.genesis chain.rest chain.links n header here, chain.start, Nat.zero_add]

theorem path_succ (here : chain.header (n + 1) = some header) : chain.path (n + 1) = chain.path n ++ [header] := by
  have next : chain.rest[n]? = some header := by simpa [HeaderChain.header] using here
  rw [path, take_add_one, next]
  rfl

theorem path_length (here : chain.header n = some header) : (chain.path n).length = n := by
  have bound := (List.getElem?_eq_some_iff.mp here).1
  rw [path, length_take, Nat.min_eq_left (Nat.le_of_lt_succ bound)]

theorem path_follows : follows 0 (chain.path n) = true := by
  have counted : ∀ (parent : Header) (rest : List Header) (count : Nat), chained codec parent rest →
      follows parent.number (rest.take count) = true := by
    intro parent rest count links
    induction rest generalizing parent count with
    | nil => simp [follows]
    | cons next rest ih =>
      cases count with
      | zero => rfl
      | succ count =>
        obtain ⟨number, _, links⟩ := links
        rw [take_succ_cons, follows, ← number, ih next count links]
        simp
  rw [← chain.start]
  exact counted chain.genesis chain.rest n chain.links

def genesisSnapshot (chain : HeaderChain codec) (config : Config) : Option Snapshot :=
  (extractSportExtra codec chain.genesis).map fun sportExtra =>
    newSnapshot config.epoch 0 (chain.genesis.hash codec) (newFullnodeSet codec.text sportExtra.fullnodes config.speakerPolicy)

def At (chain : HeaderChain codec) (config : Config) (n : Nat) (s : Snapshot) : Prop :=
  ∃ first t, chain.genesisSnapshot config = some first ∧ first.apply codec (chain.path n) = .ok t ∧ s.Same t

structure Sound (chain : HeaderChain codec) (config : Config) (caches : Caches) : Prop where
  recents : ∀ n header s, chain.header n = some header → caches.recents.lookup (header.hash codec) = some s → chain.At config n s
  stored : ∀ n header s, chain.header n = some header → caches.stored.lookup (header.hash codec) = some s → chain.At config n s

structure Serving (chain : HeaderChain codec) (config : Config) (node : Node codec) : Prop where
  config : node.config = config
  genesis : node.chain.getHeaderByNumber 0 = some chain.genesis
  byHash : ∀ hash number header, node.chain.getHeader hash number = some header → header.hash codec = hash ∧ chain.Apart header

theorem genesis_snapshot_eq (serving : chain.Serving config node) {s : Snapshot} (made : node.genesisSnapshot = .ok s)
    : chain.genesisSnapshot config = some s := by
  simp only [Node.genesisSnapshot, serving.genesis] at made
  cases verified : node.verifyStandalone chain.genesis with
  | error e => simp [verified] at made
  | ok done =>
    cases extra : extractSportExtra codec chain.genesis with
    | none => simp [verified, extra] at made
    | some sportExtra =>
      simp only [verified, extra] at made
      cases made
      rw [genesisSnapshot, extra, serving.config]
      rfl

theorem genesis_snapshot_parts (first : Snapshot) (made : chain.genesisSnapshot config = some first) :
    first.epoch = config.epoch ∧ first.number = 0 ∧ first.hash = chain.genesis.hash codec ∧ first.Ordered codec.text := by
  obtain ⟨extra, _, same⟩ := map_eq_some_iff.mp made
  subst first
  exact ⟨rfl, rfl, rfl, sorted_ordered codec.text extra.fullnodes⟩

theorem last_hash_path {first : Snapshot} (here : chain.header n = some header)
    (made : chain.genesisSnapshot config = some first) : lastHash codec first (chain.path n) = header.hash codec := by
  cases n with
  | zero =>
    cases here
    exact (genesis_snapshot_parts chain config first made).2.2.1
  | succ n => rw [path_succ chain n header here, lastHash, getLast?_concat, map_some, getD_some]

theorem at_parts (here : chain.header n = some header) (reached : chain.At config n s) :
    s.epoch = config.epoch ∧ s.hash = header.hash codec ∧ s.Ordered codec.text := by
  obtain ⟨first, t, made, applied, same⟩ := reached
  obtain ⟨epoch, _, _, ordered⟩ := genesis_snapshot_parts chain config first made
  obtain ⟨kept, _, hash, sorted⟩ := apply_ok_parts codec first t _ applied
  refine ⟨(same.epoch.trans kept).trans epoch, ?_, ?_⟩
  · rw [same.hash, hash, last_hash_path chain config n header here made]
  · rw [Ordered, Same.members s t same]
    exact sorted ordered

theorem at_same {other : Snapshot} (same : other.Same s) (reached : chain.At config n s) : chain.At config n other := by
  obtain ⟨first, t, made, applied, equal⟩ := reached
  exact ⟨first, t, made, applied, Same.trans other s t same equal⟩

theorem load_same (distinct : Function.Injective codec.text) {epoch : Nat} {s : Snapshot} (ordered : s.Ordered codec.text)
    (current : s.epoch = epoch) :
    Same { s with epoch := epoch, fullnodeSet := newFullnodeSet codec.text s.fullnodes s.fullnodeSet.policy } s := by
  have members : (newFullnodeSet codec.text s.fullnodes s.fullnodeSet.policy).fullnodes = s.fullnodeSet.fullnodes :=
    new_set_ordered codec.text distinct _ _ _ ordered (perm_insertionSort _ _)
  refine ⟨current.symm, rfl, rfl, ?_⟩
  simp only [records, labelled, members]
  rfl

theorem known_at (distinct : Function.Injective codec.text) (serving : chain.Serving config node)
    (sound : chain.Sound config caches) (here : chain.header n = some header)
    (known : node.knownSnapshot caches n (header.hash codec) = some s) : chain.At config n s := by
  unfold knownSnapshot at known
  split at known
  · next found =>
      cases known
      exact sound.recents n header s here found
  · split_ifs at known
    obtain ⟨kept, found, loaded⟩ := map_eq_some_iff.mp known
    have reached := sound.stored n header kept here found
    obtain ⟨epoch, _, ordered⟩ := at_parts chain config n header kept here reached
    rw [← loaded, serving.config]
    exact at_same chain config n kept (load_same distinct ordered epoch) reached

variable {other : Header} {parents : List Header} {next : Caches}

theorem apart_alike (lawful : codec.RoundTrips) {chain : HeaderChain codec} {n : Nat} {header : Header}
    (here : chain.header n = some header) (apart : chain.Apart other) (same : other.hash codec = header.hash codec) :
    Alike codec header other :=
  same_but_seals_alike codec header other (hash_same_but_seals codec lawful header other (apart n header here) same.symm) same

theorem next_header_alike (lawful : codec.RoundTrips) {chain : HeaderChain codec} {config : Config} {node : Node codec}
    (serving : chain.Serving config node) {n : Nat} {header found : Header} {rest : List Header}
    (here : chain.header n = some header) (apart : ∀ parent ∈ parents, chain.Apart parent)
    (next : node.nextHeader n (header.hash codec) parents = some (found, rest)) :
    Alike codec header found ∧ ∀ parent ∈ rest, chain.Apart parent := by
  unfold nextHeader at next
  split at next
  · next last ending =>
      split_ifs at next with fits
      cases next
      obtain ⟨hash, _⟩ := not_or.mp fits
      have member := mem_of_getLast? ending
      exact ⟨apart_alike lawful here (apart found member) (not_not.mp hash),
        fun parent inside => apart parent (mem_of_mem_dropLast inside)⟩
  · obtain ⟨stored, known, same⟩ := map_eq_some_iff.mp next
    cases same
    obtain ⟨hash, own⟩ := serving.byHash _ _ _ known
    exact ⟨apart_alike lawful here own hash, apart⟩

structure Gathered (chain : HeaderChain codec) (config : Config) (caches : Caches) (n : Nat) (after : List Header)
    (found : Snapshot) (headers : List Header) (next : Caches) : Prop where
  ancestor : ∃ m new, m ≤ n ∧ chain.At config m found ∧ headers = new ++ after ∧
    List.Forall₂ (Alike codec) ((chain.path n).drop m) new
  caches : next = caches ∨ chain.At config 0 found ∧ next = caches.store found

theorem gather_ok (lawful : codec.RoundTrips) (distinct : Function.Injective codec.text) (chain : HeaderChain codec)
    (config : Config) (node : Node codec) (serving : chain.Serving config node) (caches : Caches)
    (sound : chain.Sound config caches) (n : Nat) (header : Header) (parents after : List Header) (found : Snapshot)
    (headers : List Header) (next : Caches) (here : chain.header n = some header) (apart : ∀ parent ∈ parents, chain.Apart parent)
    (gathered : node.gather caches n (header.hash codec) parents after = .ok (found, headers, next)) :
    chain.Gathered config caches n after found headers next := by
  induction n generalizing header parents after with
  | zero =>
    unfold gather at gathered
    split at gathered
    · next known =>
        cases gathered
        exact ⟨⟨0, [], Nat.le_refl 0, known_at chain config node _ 0 header _ distinct serving sound here known, rfl, .nil⟩,
          .inl rfl⟩
    · split at gathered
      · cases gathered
      · next made =>
          cases gathered
          have reached : chain.At config 0 found :=
            ⟨found, found, genesis_snapshot_eq chain config node serving made, rfl, Same.refl found⟩
          exact ⟨⟨0, [], Nat.le_refl 0, reached, rfl, .nil⟩, .inr ⟨reached, rfl⟩⟩
  | succ n ih =>
    unfold gather at gathered
    split at gathered
    · next known =>
        cases gathered
        have whole := path_length chain (n + 1) header here
        refine ⟨⟨n + 1, [], Nat.le_refl _, known_at chain config node _ (n + 1) header _ distinct serving sound here known,
          rfl, ?_⟩, .inl rfl⟩
        rw [drop_eq_nil_of_le (Nat.le_of_eq whole)]
        exact .nil
    · split at gathered
      · cases gathered
      · next up rest step =>
          obtain ⟨alike, apart⟩ := next_header_alike lawful serving here apart step
          obtain ⟨previous, before, link⟩ := chained_parent chain.genesis chain.rest chain.links n header here
          rw [alike.parentHash, link] at gathered
          obtain ⟨⟨m, new, below, reached, collected, path⟩, kept⟩ := ih previous rest (up :: after) before apart gathered
          have short := path_length chain n previous before
          refine ⟨⟨m, new ++ [up], Nat.le_succ_of_le below, reached, by simp [collected], ?_⟩, kept⟩
          rw [path_succ chain n header here, drop_append_of_le_length (by omega)]
          exact rel_append path (.cons alike .nil)

theorem gathered_apply (distinct : Function.Injective codec.text) (chain : HeaderChain codec) (config : Config)
    (caches next : Caches) (n : Nat) (found : Snapshot) (headers : List Header)
    (gathered : chain.Gathered config caches n [] found headers next) : ∃ first, chain.genesisSnapshot config = some first ∧
      SameOutcome (found.apply codec headers) (first.apply codec (chain.path n)) := by
  obtain ⟨m, new, below, ⟨first, t, made, applied, same⟩, collected, alike⟩ := gathered.ancestor
  refine ⟨first, made, ?_⟩
  have start : (chain.path n).take m = chain.path m := by
    rw [path, path, take_take, Nat.min_eq_left below]
  have whole : follows first.number ((chain.path n).take m ++ (chain.path n).drop m) = true := by
    rw [take_append_drop, (genesis_snapshot_parts chain config first made).2.1]
    exact path_follows chain n
  have split := apply_append codec distinct first _ _ whole
  rw [take_append_drop, start, applied] at split
  rw [collected, append_nil, apply_alike codec found _ _ alike]
  exact same_outcome_trans _ _ _ (apply_same codec _ found t same) (same_outcome_symm _ _ split)

variable (lawful : codec.RoundTrips)

include lawful

theorem header_unique {chain : HeaderChain codec} (apart : ∀ n header, chain.header n = some header → chain.Apart header)
    {n m : Nat} {header : Header} (here : chain.header n = some header) (there : chain.header m = some other)
    (same : other.hash codec = header.hash codec) : m = n := by
  have alike := apart_alike lawful here (apart m other there) same
  rw [← header_number chain m other there, alike.number, header_number chain n header here]

theorem insert_at {chain : HeaderChain codec} {config : Config}
    (apart : ∀ n header, chain.header n = some header → chain.Apart header) {table : Assoc Hash Snapshot}
    (held : ∀ n header s, chain.header n = some header → table.lookup (header.hash codec) = some s → chain.At config n s) {n : Nat}
    {header : Header} {s : Snapshot} (here : chain.header n = some header) (reached : chain.At config n s) :
    ∀ m other t, chain.header m = some other → (table.insert s.hash s).lookup (other.hash codec) = some t →
      chain.At config m t := by
  intro m other t there found
  obtain ⟨same, rfl⟩ | older := Assoc.lookup_insert_cases table s.hash (other.hash codec) s t found
  · rw [(at_parts chain config n header t here reached).2.1] at same
    cases header_unique lawful apart here there same
    exact reached
  · exact held m other t there older

theorem gathered_sound {chain : HeaderChain codec} {config : Config}
    (apart : ∀ n header, chain.header n = some header → chain.Apart header) {caches : Caches} {n : Nat}
    {after headers : List Header} {found : Snapshot} (sound : chain.Sound config caches)
    (gathered : chain.Gathered config caches n after found headers next) : chain.Sound config next := by
  obtain rfl | ⟨reached, rfl⟩ := gathered.caches
  · exact sound
  · exact ⟨sound.recents, insert_at lawful apart sound.stored rfl reached⟩

theorem snapshot_ok (distinct : Function.Injective codec.text) (chain : HeaderChain codec) (config : Config)
    (apart : ∀ n header, chain.header n = some header → chain.Apart header) (node : Node codec)
    (serving : chain.Serving config node) (caches : Caches) (sound : chain.Sound config caches) (n : Nat) (header : Header)
    (parents : List Header) (here : chain.header n = some header) (others : ∀ parent ∈ parents, chain.Apart parent) (s : Snapshot)
    (next : Caches) (taken : node.snapshot caches n (header.hash codec) parents = .ok (s, next)) :
    chain.At config n s ∧ chain.Sound config next := by
  unfold snapshot at taken
  split at taken
  · cases taken
  · next found headers kept ran =>
      have gathered := gather_ok lawful distinct chain config node serving caches sound n header parents [] _ _ _ here others ran
      obtain ⟨first, made, same⟩ := gathered_apply distinct chain config caches kept n found headers gathered
      have before := gathered_sound lawful apart sound gathered
      split at taken
      · cases taken
      · next snap applied =>
          rw [applied] at same
          have reached : chain.At config n snap := by
            cases whole : first.apply codec (chain.path n) with
            | error e =>
              rw [whole] at same
              exact same.elim
            | ok t =>
              rw [whole] at same
              exact ⟨first, t, made, whole, same⟩
          have added : chain.Sound config { kept with recents := kept.recents.insert snap.hash snap } :=
            ⟨insert_at lawful apart before.recents here reached, before.stored⟩
          split_ifs at taken
          · cases taken
            exact ⟨reached, added.recents, insert_at lawful apart before.stored here reached⟩
          · cases taken
            exact ⟨reached, added⟩

omit lawful

def cachesAfter (node : Node codec) (caches : Caches) (number : Nat) (hash : Hash) (parents : List Header) : Caches :=
  match node.snapshot caches number hash parents with
  | .ok (_, next) => next
  | .error _ =>
    match node.gather caches number hash parents [] with
    | .ok (_, _, next) => next
    | .error _ => caches

inductive Leaves (chain : HeaderChain codec) (config : Config) : Caches → Caches → Prop where
  | call (node : Node codec) (caches : Caches) (n : Nat) (header : Header) (parents : List Header)
      (serving : chain.Serving config node) (here : chain.header n = some header)
      (others : ∀ parent ∈ parents, chain.Apart parent) :
      Leaves chain config caches (cachesAfter node caches n (header.hash codec) parents)
  | lose (caches left : Caches)
      (recents : ∀ hash s, left.recents.lookup hash = some s → caches.recents.lookup hash = some s)
      (stored : ∀ hash s, left.stored.lookup hash = some s → caches.stored.lookup hash = some s) :
      Leaves chain config caches left

def Left (chain : HeaderChain codec) (config : Config) : Caches → Prop :=
  Runs.Reached (fun caches => caches = ⟨∅, ∅⟩) (chain.Leaves config)

theorem leaves_sound (lawful : codec.RoundTrips) (distinct : Function.Injective codec.text) {chain : HeaderChain codec}
    {config : Config} (apart : ∀ n header, chain.header n = some header → chain.Apart header) {caches : Caches}
    (sound : chain.Sound config caches) (step : chain.Leaves config caches next) : chain.Sound config next := by
  cases step with
  | call node caches n header parents serving here others =>
    unfold cachesAfter
    split
    · next s next taken =>
        exact (snapshot_ok lawful distinct chain config apart node serving caches sound n header parents here others
          s next taken).2
    · split
      · next found headers next ran =>
          exact gathered_sound lawful apart sound
            (gather_ok lawful distinct chain config node serving caches sound n header parents [] _ _ _ here others ran)
      · exact sound
  | lose caches left recents stored =>
    exact ⟨fun n header s here found => sound.recents n header s here (recents _ _ found),
      fun n header s here found => sound.stored n header s here (stored _ _ found)⟩

theorem left_sound (lawful : codec.RoundTrips) (distinct : Function.Injective codec.text) (chain : HeaderChain codec)
    (config : Config) (apart : ∀ n header, chain.header n = some header → chain.Apart header) (caches : Caches)
    (left : chain.Left config caches) : chain.Sound config caches := by
  refine Runs.reached_invariant _ _ (chain.Sound config) ?_ ?_ caches left
  · rintro _ rfl
    exact ⟨fun n header s _ found => by simp at found, fun n header s _ found => by simp at found⟩
  · intro before after sound step
    exact leaves_sound lawful distinct apart sound step

structure Complete (chain : HeaderChain codec) (node : Node codec) : Prop where
  verified : node.verifyStandalone chain.genesis = .ok ()
  headers : ∀ n header, chain.header n = some header → (node.chain.getHeader (header.hash codec) n).isSome

theorem next_header_some (complete : chain.Complete node) {n : Nat} {header : Header}
    (small : n < 2 ^ 64) (here : chain.header n = some header) (ending : parents <:+ (chain.genesis :: chain.rest).take (n + 1)) :
    ∃ found rest, node.nextHeader n (header.hash codec) parents = some (found, rest) ∧
      rest <:+ (chain.genesis :: chain.rest).take n := by
  have whole : (chain.genesis :: chain.rest).take (n + 1) = (chain.genesis :: chain.rest).take n ++ [header] := by
    rw [take_add_one, show (chain.genesis :: chain.rest)[n]? = some header from here]
    rfl
  rw [whole] at ending
  cases parents using reverseRecOn with
  | nil =>
    obtain ⟨found, known⟩ := isSome_iff_exists.mp (complete.headers n header here)
    exact ⟨found, [], by simp [nextHeader, known], nil_suffix⟩
  | append_singleton rest last =>
    obtain ⟨same, rest'⟩ : last = header ∧ rest <:+ (chain.genesis :: chain.rest).take n := by
      obtain ⟨front, joined⟩ := ending
      rw [← append_assoc] at joined
      obtain ⟨before, equal⟩ := append_inj' joined rfl
      exact ⟨by simpa using equal, front, before⟩
    subst last
    have number : uint64 header.number = n := by
      rw [header_number chain n header here, uint64, Nat.mod_eq_of_lt small]
    exact ⟨header, rest, by simp [nextHeader, number], rest'⟩

theorem parents_apart (chain : HeaderChain codec) (apart : ∀ n header, chain.header n = some header → chain.Apart header)
    {parents : List Header} {n : Nat} (ending : parents <:+ (chain.genesis :: chain.rest).take n) :
    ∀ parent ∈ parents, chain.Apart parent := by
  intro parent member
  obtain ⟨m, there⟩ := mem_iff_getElem?.mp (mem_of_mem_take (ending.subset member))
  exact apart m parent there

theorem gather_complete (lawful : codec.RoundTrips) (chain : HeaderChain codec) (config : Config)
    (apart : ∀ n header, chain.header n = some header → chain.Apart header) (node : Node codec)
    (serving : chain.Serving config node) (complete : chain.Complete node) (first : Snapshot)
    (made : chain.genesisSnapshot config = some first) (caches : Caches) (n : Nat) (header : Header)
    (parents after : List Header) (small : n < 2 ^ 64) (here : chain.header n = some header)
    (ending : parents <:+ (chain.genesis :: chain.rest).take (n + 1)) :
    ∃ result, node.gather caches n (header.hash codec) parents after = .ok result := by
  induction n generalizing header parents after with
  | zero =>
    unfold gather
    cases known : node.knownSnapshot caches 0 (header.hash codec) with
    | some s => exact ⟨_, rfl⟩
    | none =>
      obtain ⟨extra, decoded, _⟩ := map_eq_some_iff.mp made
      have begun : ∃ s, node.genesisSnapshot = .ok s := by
        simp only [Node.genesisSnapshot, serving.genesis, complete.verified, decoded]
        exact ⟨_, rfl⟩
      obtain ⟨s, begun⟩ := begun
      simp only [begun]
      exact ⟨_, rfl⟩
  | succ n ih =>
    unfold gather
    cases known : node.knownSnapshot caches (n + 1) (header.hash codec) with
    | some s => exact ⟨_, rfl⟩
    | none =>
      obtain ⟨found, rest, next, shorter⟩ := next_header_some chain node complete small here ending
      have own := parents_apart chain apart ending
      obtain ⟨alike, _⟩ := next_header_alike lawful serving here own next
      obtain ⟨previous, before, link⟩ := chained_parent chain.genesis chain.rest chain.links n header here
      simp only [next]
      rw [alike.parentHash, link]
      exact ih previous rest (found :: after) (by omega) before shorter

end HeaderChain

-- Whatever earlier calls have left in the caches, snapshot gives what a replay of all
-- headers from the genesis set gives. A replay may be split, and it changes no snapshot
-- that exists, be it in a cache or given to apply.
theorem snapshot_without_caches (codec : Codec) (lawful : codec.RoundTrips) (distinct : Function.Injective codec.text)
    (chain : HeaderChain codec) (apart : ∀ n header, chain.header n = some header → chain.Apart header) (node : Node codec)
    (serving : chain.Serving node.config node) (complete : chain.Complete node) (first : Snapshot)
    (made : chain.genesisSnapshot node.config = some first) (caches : Caches) (left : chain.Left node.config caches)
    (n : Nat) (header : Header) (small : n < 2 ^ 64) (here : chain.header n = some header) (parents : List Header)
    (ending : parents <:+ (chain.genesis :: chain.rest).take (n + 1)) :
    SameOutcome ((node.snapshot caches n (header.hash codec) parents).map Prod.fst) (first.apply codec (chain.path n)) ∧
      (∀ s first second, Option.Rel Same (Snapshot.apply codec s (first ++ second)).toOption
        ((s.apply codec first).bind fun middle => middle.apply codec second).toOption) ∧
      ∀ (mem : Memory) p s headers, mem.read p = some s → mem.Applied (s.apply codec headers) (mem.apply codec p headers) := by
  refine ⟨?_, apply_append_some codec distinct, fun mem p s headers => Memory.apply_refines codec mem p s headers⟩
  have sound := chain.left_sound lawful distinct node.config apart caches left
  have own := chain.parents_apart apart ending
  obtain ⟨⟨found, headers, kept⟩, ran⟩ := chain.gather_complete lawful node.config apart node serving complete first made
    caches n header parents [] small here ending
  have gathered := chain.gather_ok lawful distinct node.config node serving caches sound n header parents [] _ _ _ here own ran
  obtain ⟨_, begun, same⟩ := chain.gathered_apply distinct node.config caches kept n found headers gathered
  cases made.symm.trans begun
  have outcome : (node.snapshot caches n (header.hash codec) parents).map Prod.fst = found.apply codec headers := by
    simp only [snapshot, ran]
    cases found.apply codec headers with
    | error e => rfl
    | ok snap =>
      simp only
      split_ifs <;> rfl
  rw [outcome]
  exact same

theorem reached_ordered {s : Snapshot} (codec : Codec) (reached : Reached codec s) : s.Ordered codec.text := by
  refine Runs.reached_invariant _ _ (Ordered codec.text) ?_ ?_ s reached
  · rintro _ ⟨epoch, hash, addrs, policy, _, rfl⟩
    exact sorted_ordered codec.text addrs
  · rintro before after ordered ⟨headers, applied⟩
    exact (apply_ok_parts codec before after headers applied).2.2.2 ordered

-- A checkpoint is read back as it was written, with the epoch of the configuration. Only the
-- current speaker is set anew, and that is computed before it is asked for; apply takes a copy.
theorem checkpoint_round_trip (codec : Codec) (distinct : Function.Injective codec.text) (caches : Caches) (s : Snapshot)
    (reached : Reached codec s) : ∃ loaded, (caches.store s).loadSnapshot codec s.epoch s.hash = some loaded ∧
      (loaded.number = s.number ∧ loaded.hash = s.hash ∧ loaded.epoch = s.epoch ∧ loaded.votes = s.votes ∧
        loaded.tally = s.tally ∧ loaded.fullnodeSet.policy = s.fullnodeSet.policy ∧ loaded.members = s.members) ∧
      (∀ headers, SameOutcome (loaded.apply codec headers) (s.apply codec headers)) ∧
      (∀ headers, headers ≠ [] → loaded.apply codec headers = s.apply codec headers) ∧
      ∀ last round, (loaded.fullnodeSet.calcSpeaker last round).speaker = (s.fullnodeSet.calcSpeaker last round).speaker := by
  let loaded : Snapshot := { s with fullnodeSet := newFullnodeSet codec.text s.fullnodes s.fullnodeSet.policy }
  have found : (caches.store s).loadSnapshot codec s.epoch s.hash = some loaded := by
    simp [Caches.store, Caches.loadSnapshot, loaded]
  have same : loaded.Same s := HeaderChain.load_same distinct (reached_ordered codec reached) rfl
  have members : loaded.members = s.members := Same.members loaded s same
  refine ⟨loaded, found, ⟨rfl, rfl, rfl, rfl, rfl, rfl, members⟩, fun headers => apply_same codec headers loaded s same, ?_, ?_⟩
  · intro headers filled
    obtain ⟨first, rest, rfl⟩ := exists_cons_of_ne_nil filled
    exact apply_cons_same codec loaded s same first rest
  · intro last round
    -- the selection reads nothing but the members
    have reads : ∀ set : FullnodeSet, roundRobinSpeaker set last round =
        roundRobinSpeaker ⟨set.fullnodes, 0, none⟩ last round := fun _ => rfl
    simp only [FullnodeSet.calcSpeaker]
    rw [reads, reads s.fullnodeSet]
    exact congrArg (fun fullnodes => roundRobinSpeaker ⟨fullnodes, 0, none⟩ last round) members

namespace Plain

def unary : Codec := { codec with text := fun a => replicate a.toNat 'x' }

def rawSeal (signer : UInt8) (data : Bytes) : Bytes := signedBy signer (data ++ replicate (64 - data.length) 0)

theorem unary_injective : Function.Injective unary.text := by
  intro a b same
  exact BitVec.eq_of_toNat_eq (by simpa [unary] using congrArg length same)

theorem unary_hash (h : Header) : h.hash unary = BitVec.ofNat 256 (256 * h.number + h.gasUsed + 1) := by
  rw [hash_form, hashedForm]
  split
  · cases found : sportFilteredHeader unary h true with
    | none => rfl
    | some filtered =>
      obtain ⟨extra, -, rfl⟩ := Option.map_eq_some_iff.mp found
      rfl
  · rfl

theorem unary_apart (chain : HeaderChain unary) (short : chain.rest.length < 2 ^ 64)
    (unused : ∀ header ∈ chain.genesis :: chain.rest, header.gasUsed = 0) (n : Nat) (header : Header)
    (here : chain.header n = some header) : chain.Apart header := by
  intro m other there same
  rw [← hash_form, ← hash_form, unary_hash, unary_hash, unused header (mem_of_getElem? here), unused other (mem_of_getElem? there),
    chain.header_number n header here, chain.header_number m other there] at same
  have first := (List.getElem?_eq_some_iff.mp here).1
  have second := (List.getElem?_eq_some_iff.mp there).1
  simp only [length_cons] at first second
  have equal : m = n := by
    have values := congrArg BitVec.toNat same
    simp only [BitVec.toNat_ofNat] at values
    omega
  subst equal
  rw [Option.some.inj (here.symm.trans there)]

-- A node that holds the headers of the chain and no others, at the time 100, with the key of member 1.
def holder (chain : HeaderChain unary) : Node unary where
  config := ⟨1, 30000, 0⟩
  chain :=
    { getHeader := fun hash number => (chain.header number).filter fun header => header.hash unary = hash
      getHeaderByNumber := chain.header
      sixtySixPercentBlock := none
      genesis_number := fun _ known => Option.some.inj known ▸ chain.start }
  caches := ⟨∅, ∅⟩
  now := 100
  currentBlock := ⟨chain.rest.getLastD chain.genesis, [], []⟩
  hasBadBlock _ := false
  sign data := some (rawSeal 1 data)

theorem holder_serving (chain : HeaderChain unary) (apart : ∀ n header, chain.header n = some header → chain.Apart header) :
    chain.Serving ⟨1, 30000, 0⟩ (holder chain) where
  config := rfl
  genesis := rfl
  byHash := by
    intro hash number header found
    obtain ⟨here, same⟩ := Option.filter_eq_some_iff.mp found
    exact ⟨of_decide_eq_true same, apart number header here⟩

theorem holder_complete (chain : HeaderChain unary) (verified : (holder chain).verifyStandalone chain.genesis = .ok ()) :
    chain.Complete (holder chain) where
  verified := verified
  headers := by
    intro n header here
    simp [holder, here]

def pairSnapshot : Snapshot := newSnapshot 30000 0 7 (newFullnodeSet unary.text [2, 1] 0)

theorem pair_checkpoint :
    ∃ loaded, ((⟨∅, ∅⟩ : Caches).store pairSnapshot).loadSnapshot unary 30000 7 = some loaded ∧ loaded.members = [1, 2] := by
  have reached : Reached unary pairSnapshot := Runs.reached_start _ _ _ ⟨30000, 7, [2, 1], 0, by decide, rfl⟩
  obtain ⟨loaded, found, ⟨_, _, _, _, _, _, members⟩, _⟩ :=
    checkpoint_round_trip unary unary_injective ⟨∅, ∅⟩ pairSnapshot reached
  exact ⟨loaded, found, members.trans (by decide)⟩

def child : Header := header ((genesis [1]).hash unary) 1 0 1 2 nonceAuthVote

theorem genesis_start : (genesis [1]).number = 0 := rfl

def pair : HeaderChain unary := ⟨genesis [1], [child], genesis_start, by decide +kernel, rfl, trivial⟩

def pairNode : Node unary := holder pair

theorem pair_apart (n : Nat) (header : Header) (here : pair.header n = some header) : pair.Apart header :=
  unary_apart pair (by decide) (by decide +kernel) n header here

theorem pair_serving : pair.Serving pairNode.config pairNode := holder_serving pair pair_apart

theorem pair_complete : pair.Complete pairNode := holder_complete pair (by decide +kernel)

end Plain

theorem snapshot_without_caches_pair : ∃ caches first,
    pair.Left pairNode.config caches ∧ (caches.recents.lookup ((genesis [1]).hash unary)).isSome ∧
      pair.genesisSnapshot pairNode.config = some first ∧
      SameOutcome ((pairNode.snapshot caches 1 (child.hash unary) []).map Prod.fst)
        (first.apply unary [child]) := by
  have made : (pair.genesisSnapshot pairNode.config).isSome := by decide +kernel
  obtain ⟨first, made⟩ := isSome_iff_exists.mp made
  have left : pair.Left pairNode.config
      (HeaderChain.cachesAfter pairNode ⟨∅, ∅⟩ 0 ((genesis [1]).hash unary) []) := by
    refine Runs.reached_step _ _ _ _ (Runs.reached_start _ _ _ rfl) ?_
    exact .call pairNode ⟨∅, ∅⟩ 0 (genesis [1]) [] pair_serving rfl (by simp)
  refine ⟨_, first, left, by decide +kernel, made, ?_⟩
  exact (snapshot_without_caches unary round_trips unary_injective pair pair_apart pairNode
    pair_serving pair_complete first made _ left 1 child (by decide) rfl [] nil_suffix).1

end Didux.Backend
