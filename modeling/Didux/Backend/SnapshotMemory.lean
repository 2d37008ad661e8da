import Didux.Lib.Heap
import Didux.Backend.SnapshotReplay

set_option autoImplicit false

namespace Didux.Backend

open Sport

-- The struct behind a *Snapshot. The set, the slice of votes and the map of
-- tallies are objects of their own, which two structs could share.
structure Fields where
  epoch : Nat
  number : Nat
  hash : Hash
  fullnodeSet : Nat
  votes : Nat
  tally : Nat

inductive Cell where
  | snapshot (fields : Fields)
  | fullnodeSet (set : FullnodeSet)
  | votes (votes : List Vote)
  | tally (tally : Assoc Address Tally)

abbrev Memory := List Cell

namespace Memory

def view (mem : Memory) (fields : Fields) : Option Snapshot :=
  match mem[fields.fullnodeSet]?, mem[fields.votes]?, mem[fields.tally]? with
  | some (.fullnodeSet set), some (.votes votes), some (.tally tally) =>
    some ⟨fields.epoch, fields.number, fields.hash, votes, tally, set⟩
  | _, _, _ => none

def read (mem : Memory) (p : Nat) : Option Snapshot :=
  match mem[p]? with
  | some (.snapshot fields) => mem.view fields
  | _ => none

def copy (text : Address → List Char) (mem : Memory) (s : Snapshot) : Memory × Nat :=
  (mem ++ [.fullnodeSet (s.fullnodeSet.copy text), .votes s.votes, .tally s.tally,
    .snapshot ⟨s.epoch, s.number, s.hash, mem.length, mem.length + 1, mem.length + 2⟩], mem.length + 3)

-- The methods of the set, uncast, cast and the removals from the slice all write into the objects that are there.
def writeBack (mem : Memory) (fields : Fields) (s : Snapshot) : Memory :=
  ((mem.set fields.fullnodeSet (.fullnodeSet s.fullnodeSet)).set fields.votes (.votes s.votes)).set
    fields.tally (.tally s.tally)

-- At the end of an epoch the struct gets a new slice and a new map.
def resetVotes (epoch number : Nat) (mem : Memory) (p : Nat) (fields : Fields) : Memory × Fields :=
  if number % epoch = 0 then
    let fields := { fields with votes := mem.length, tally := mem.length + 1 }
    ((mem ++ [Cell.votes [], Cell.tally ∅]).set p (.snapshot fields), fields)
  else (mem, fields)

def countVote (codec : Codec) (mem : Memory) (fields : Fields) (header : Header) : Memory × Except EngineError Unit :=
  match mem.view fields with
  | none => (mem, .error .panic)
  | some snap =>
    match ecrecover codec header with
    | .error e => (mem, .error e)
    | .ok fullnode =>
      match (snap.fullnodeSet.getByAddress fullnode).2 with
      | none => (mem, .error .unauthorized)
      | some _ =>
        let snap := snap.discardVote fullnode header.coinbase
        let mem := mem.writeBack fields snap
        match Snapshot.voteOf header.nonce with
        | none => (mem, .error .invalidVote)
        | some authorize =>
          (mem.writeBack fields ((snap.castVote fullnode (uint64 header.number) header.coinbase authorize).passVote
            codec.text header.coinbase), .ok ())

def applyHeader (codec : Codec) (epoch : Nat) (mem : Memory) (p : Nat) (header : Header) : Memory × Except EngineError Unit :=
  match mem[p]? with
  | some (.snapshot fields) =>
    if epoch = 0 then (mem, .error .panic)
    else
      let (mem, fields) := mem.resetVotes epoch (uint64 header.number) p fields
      mem.countVote codec fields header
  | _ => (mem, .error .panic)

def applyHeaders (codec : Codec) (epoch : Nat) : Memory → Nat → List Header → Memory × Except EngineError Unit
  | mem, _, [] => (mem, .ok ())
  | mem, p, header :: rest => match mem.applyHeader codec epoch p header with
    | (mem, .error e) => (mem, .error e)
    | (mem, .ok ()) => applyHeaders codec epoch mem p rest

def finish (mem : Memory) (p count : Nat) (hash : Hash) : Memory :=
  match mem[p]? with
  | some (.snapshot fields) => mem.set p (.snapshot { fields with number := uint64 (fields.number + count), hash := hash })
  | _ => mem

def apply (codec : Codec) (mem : Memory) (p : Nat) (headers : List Header) : Memory × Except EngineError Nat :=
  match mem.read p, headers with
  | none, _ => (mem, .error .panic)
  | some _, [] => (mem, .ok p)
  | some s, first :: rest =>
    if ¬ Snapshot.contiguous (first :: rest) then (mem, .error .invalidVotingChain)
    else if uint64 first.number ≠ uint64 (s.number + 1) then (mem, .error .invalidVotingChain)
    else
      let (mem, q) := mem.copy codec.text s
      match mem.applyHeaders codec s.epoch q (first :: rest) with
      | (mem, .error e) => (mem, .error e)
      | (mem, .ok ()) =>
        (mem.finish q (first :: rest).length (((first :: rest).getLast (List.cons_ne_nil first rest)).hash codec), .ok q)

structure Owned (base : Nat) (mem : Memory) (p : Nat) (fields : Fields) (s : Snapshot) : Prop where
  struct : mem[p]? = some (.snapshot fields)
  fullnodeSet : mem[fields.fullnodeSet]? = some (.fullnodeSet s.fullnodeSet)
  votes : mem[fields.votes]? = some (.votes s.votes)
  tally : mem[fields.tally]? = some (.tally s.tally)
  epoch : fields.epoch = s.epoch
  number : fields.number = s.number
  hash : fields.hash = s.hash
  fresh : base ≤ p ∧ base ≤ fields.fullnodeSet ∧ base ≤ fields.votes ∧ base ≤ fields.tally

variable (base : Nat) (mem : Memory) (p : Nat) (fields : Fields) (s : Snapshot)

theorem owned_view (owned : Owned base mem p fields s) : mem.view fields = some s := by
  rw [view, owned.fullnodeSet, owned.votes, owned.tally, owned.epoch, owned.number, owned.hash]

theorem owned_read (owned : Owned base mem p fields s) : mem.read p = some s := by
  rw [read, owned.struct]
  exact owned_view base mem p fields s owned

theorem read_owned (found : mem.read p = some s) : ∃ fields, Owned 0 mem p fields s := by
  unfold read at found
  split at found
  · next fields struct =>
      unfold view at found
      split at found
      · next set votes tally sets slices maps =>
          cases found
          exact ⟨fields, struct, sets, slices, maps, rfl, rfl, rfl, by simp⟩
      · cases found
  · cases found

theorem frame_read {next : Memory} {p : Nat} {s : Snapshot} (frame : Heap.Frame mem.length mem next)
    (found : mem.read p = some s) : next.read p = some s := by
  obtain ⟨fields, owned⟩ := read_owned mem p s found
  have kept : ∀ (q : Nat) (cell : Cell), mem[q]? = some cell → next[q]? = some cell := by
    intro q cell here
    rw [frame.cells q (Heap.read_bound mem q cell here), here]
  exact owned_read 0 next p fields s ⟨kept _ _ owned.struct, kept _ _ owned.fullnodeSet, kept _ _ owned.votes,
    kept _ _ owned.tally, owned.epoch, owned.number, owned.hash, owned.fresh⟩

theorem write_set_owned (set : FullnodeSet) (owned : Owned base mem p fields s) :
    Owned base (mem.set fields.fullnodeSet (.fullnodeSet set)) p fields { s with fullnodeSet := set } :=
  { owned with
    struct := Heap.write_elsewhere _ _ _ _ _ _ owned.fullnodeSet owned.struct (by simp)
    fullnodeSet := Heap.write_here _ _ _ _ owned.fullnodeSet
    votes := Heap.write_elsewhere _ _ _ _ _ _ owned.fullnodeSet owned.votes (by simp)
    tally := Heap.write_elsewhere _ _ _ _ _ _ owned.fullnodeSet owned.tally (by simp) }

theorem write_votes_owned (votes : List Vote) (owned : Owned base mem p fields s) :
    Owned base (mem.set fields.votes (.votes votes)) p fields { s with votes := votes } :=
  { owned with
    struct := Heap.write_elsewhere _ _ _ _ _ _ owned.votes owned.struct (by simp)
    fullnodeSet := Heap.write_elsewhere _ _ _ _ _ _ owned.votes owned.fullnodeSet (by simp)
    votes := Heap.write_here _ _ _ _ owned.votes
    tally := Heap.write_elsewhere _ _ _ _ _ _ owned.votes owned.tally (by simp) }

theorem write_tally_owned (tally : Assoc Address Tally) (owned : Owned base mem p fields s) :
    Owned base (mem.set fields.tally (.tally tally)) p fields { s with tally := tally } :=
  { owned with
    struct := Heap.write_elsewhere _ _ _ _ _ _ owned.tally owned.struct (by simp)
    fullnodeSet := Heap.write_elsewhere _ _ _ _ _ _ owned.tally owned.fullnodeSet (by simp)
    votes := Heap.write_elsewhere _ _ _ _ _ _ owned.tally owned.votes (by simp)
    tally := Heap.write_here _ _ _ _ owned.tally }

theorem write_back_owned (next : Snapshot) (owned : Owned base mem p fields s) (label : next.label = s.label) :
    Owned base (mem.writeBack fields next) p fields next ∧ Heap.Frame base mem (mem.writeBack fields next) := by
  have epoch : next.epoch = s.epoch := congrArg Snapshot.Label.epoch label
  have number : next.number = s.number := congrArg Snapshot.Label.number label
  have hash : next.hash = s.hash := congrArg Snapshot.Label.hash label
  have whole : next = { s with fullnodeSet := next.fullnodeSet, votes := next.votes, tally := next.tally } := by
    rw [← epoch, ← number, ← hash]
  have sets := write_set_owned base mem p fields s next.fullnodeSet owned
  have slices := write_votes_owned base _ p fields _ next.votes sets
  have maps := write_tally_owned base _ p fields _ next.tally slices
  obtain ⟨_, set, votes, tally⟩ := owned.fresh
  rw [← whole] at maps
  exact ⟨maps, Heap.frame_trans _ _ _ _ (Heap.frame_write _ _ _ _ set)
    (Heap.frame_trans _ _ _ _ (Heap.frame_write _ _ _ _ votes) (Heap.frame_write _ _ _ _ tally))⟩

theorem reset_votes_owned (epoch number base : Nat) (mem : Memory) (p : Nat) (fields : Fields) (s : Snapshot)
    (bound : base ≤ mem.length) (owned : Owned base mem p fields s) :
    Owned base (mem.resetVotes epoch number p fields).1 p (mem.resetVotes epoch number p fields).2
        (s.resetVotes epoch number) ∧
      Heap.Frame base mem (mem.resetVotes epoch number p fields).1 := by
  by_cases boundary : number % epoch = 0
  · simp only [resetVotes, Snapshot.resetVotes, if_pos boundary]
    obtain ⟨above, set, _, _⟩ := owned.fresh
    have grown : ∀ (q : Nat) (cell : Cell), mem[q]? = some cell → (mem ++ [Cell.votes [], Cell.tally ∅])[q]? = some cell := by
      intro q cell here
      rw [List.getElem?_append_left (Heap.read_bound mem q cell here), here]
    have struct := grown _ _ owned.struct
    have votes : (mem ++ [Cell.votes [], Cell.tally ∅])[mem.length]? = some (.votes []) := by simp
    have tally : (mem ++ [Cell.votes [], Cell.tally ∅])[mem.length + 1]? = some (.tally ∅) := by simp
    refine ⟨?_, Heap.frame_trans _ _ _ _ (Heap.frame_alloc _ _ _ bound) (Heap.frame_write _ _ _ _ above)⟩
    exact
      { struct := Heap.write_here _ _ _ _ struct
        fullnodeSet := Heap.write_elsewhere _ _ _ _ _ _ struct (grown _ _ owned.fullnodeSet) (by simp)
        votes := Heap.write_elsewhere _ _ _ _ _ _ struct votes (by simp)
        tally := Heap.write_elsewhere _ _ _ _ _ _ struct tally (by simp)
        epoch := owned.epoch
        number := owned.number
        hash := owned.hash
        fresh := ⟨above, set, bound, Nat.le_succ_of_le bound⟩ }
  · simp only [resetVotes, Snapshot.resetVotes, if_neg boundary]
    exact ⟨owned, Heap.frame_refl base mem⟩

theorem kept_label (f : Snapshot → Snapshot) (commutes : ∀ l t, f (Snapshot.labelled t l) = (f t).labelled l) (s : Snapshot) :
    (f s).label = s.label := by
  have whole : s = s.records.labelled s.label := rfl
  rw [whole, commutes]
  rfl

def Follows (base : Nat) (mem : Memory) (p : Nat) (pure : Except EngineError Snapshot)
    (ran : Memory × Except EngineError Unit) : Prop :=
  Heap.Frame base mem ran.1 ∧
    match pure, ran.2 with
    | .ok next, .ok () => ∃ fields, Owned base ran.1 p fields next
    | .error e, .error other => e = other
    | _, _ => False

variable (codec : Codec)

theorem apply_header_follows (epoch base : Nat) (mem : Memory) (p : Nat) (fields : Fields) (s : Snapshot) (header : Header)
    (bound : base ≤ mem.length) (owned : Owned base mem p fields s) :
    Follows base mem p (Snapshot.applyHeader codec epoch s header) (mem.applyHeader codec epoch p header) := by
  by_cases zero : epoch = 0
  · simp only [applyHeader, owned.struct, zero]
    exact ⟨Heap.frame_refl base mem, rfl⟩
  · obtain ⟨reset, frame⟩ := reset_votes_owned epoch (uint64 header.number) base mem p fields s bound owned
    have seen := owned_view _ _ _ _ _ reset
    simp only [applyHeader, Snapshot.applyHeader, owned.struct, zero, countVote, seen]
    cases recovered : ecrecover codec header with
    | error e => exact ⟨frame, rfl⟩
    | ok fullnode =>
      cases found : ((s.resetVotes epoch (uint64 header.number)).fullnodeSet.getByAddress fullnode).2 with
      | none =>
        simp only [found]
        exact ⟨frame, rfl⟩
      | some member =>
        obtain ⟨discarded, kept⟩ := write_back_owned base _ p _ _
          ((s.resetVotes epoch (uint64 header.number)).discardVote fullnode header.coinbase) reset
          (kept_label (fun t => t.discardVote fullnode header.coinbase)
            (fun l t => Snapshot.discard_vote_labelled l t fullnode header.coinbase) _)
        have both := Heap.frame_trans _ _ _ _ frame kept
        cases vote : Snapshot.voteOf header.nonce with
        | none =>
          simp only [found]
          exact ⟨both, rfl⟩
        | some authorize =>
          obtain ⟨counted, last⟩ := write_back_owned base _ p _ _ _ discarded
            (kept_label (fun t => (t.castVote fullnode (uint64 header.number) header.coinbase authorize).passVote
              codec.text header.coinbase) (fun l t => by
                rw [Snapshot.cast_vote_labelled, Snapshot.pass_vote_labelled]) _)
          simp only [found]
          exact ⟨Heap.frame_trans _ _ _ _ both last, _, counted⟩

theorem apply_headers_follows (epoch base : Nat) (headers : List Header) (mem : Memory) (p : Nat) (fields : Fields) (s : Snapshot)
    (bound : base ≤ mem.length) (owned : Owned base mem p fields s) :
    Follows base mem p (Snapshot.applyHeaders codec epoch s headers) (mem.applyHeaders codec epoch p headers) := by
  induction headers generalizing mem fields s with
  | nil => exact ⟨Heap.frame_refl base mem, fields, owned⟩
  | cons header rest ih =>
    obtain ⟨frame, agree⟩ := apply_header_follows codec epoch base mem p fields s header bound owned
    rw [applyHeaders, Snapshot.applyHeaders]
    generalize mem.applyHeader codec epoch p header = ran at frame agree
    obtain ⟨next, outcome⟩ := ran
    cases pure : Snapshot.applyHeader codec epoch s header with
    | error e =>
      cases outcome with
      | ok done => simp [pure] at agree
      | error other => exact ⟨frame, by simpa [pure] using agree⟩
    | ok snap =>
      cases outcome with
      | error e => simp [pure] at agree
      | ok done =>
        obtain ⟨fields', after⟩ : ∃ fields, Owned base next p fields snap := by simpa [pure] using agree
        obtain ⟨later, agree⟩ := ih next fields' snap (Nat.le_trans bound frame.grown) after
        exact ⟨Heap.frame_trans _ _ _ _ frame later, agree⟩

theorem copy_owned {text : Address → List Char} {mem : Memory} {s : Snapshot} :
    (∃ fields, Owned mem.length (mem.copy text s).1 (mem.copy text s).2 fields (s.copy text)) ∧
      Heap.Frame mem.length mem (mem.copy text s).1 := by
  refine ⟨⟨⟨s.epoch, s.number, s.hash, mem.length, mem.length + 1, mem.length + 2⟩, ?_⟩, Heap.frame_alloc _ _ _ (Nat.le_refl _)⟩
  exact ⟨by simp [copy], by simp [copy, Snapshot.copy], by simp [copy, Snapshot.copy], by simp [copy, Snapshot.copy],
    rfl, rfl, rfl, by simp [copy]⟩

theorem finish_owned {count : Nat} {hash : Hash} {fields : Fields} {s : Snapshot} (owned : Owned base mem p fields s) :
    (∃ fields, Owned base (mem.finish p count hash) p fields { s with number := uint64 (s.number + count), hash := hash }) ∧
      Heap.Frame base mem (mem.finish p count hash) := by
  simp only [finish, owned.struct]
  refine ⟨⟨{ fields with number := uint64 (fields.number + count), hash := hash }, ?_⟩,
    Heap.frame_write _ _ _ _ owned.fresh.1⟩
  exact
    { struct := Heap.write_here _ _ _ _ owned.struct
      fullnodeSet := Heap.write_elsewhere _ _ _ _ _ _ owned.struct owned.fullnodeSet (by simp)
      votes := Heap.write_elsewhere _ _ _ _ _ _ owned.struct owned.votes (by simp)
      tally := Heap.write_elsewhere _ _ _ _ _ _ owned.struct owned.tally (by simp)
      epoch := owned.epoch
      number := by rw [owned.number]
      hash := rfl
      fresh := owned.fresh }

def Applied (mem : Memory) (pure : Except EngineError Snapshot) (ran : Memory × Except EngineError Nat) : Prop :=
  (∀ q t, mem.read q = some t → ran.1.read q = some t) ∧
    match pure, ran.2 with
    | .ok next, .ok q => ran.1.read q = some next
    | .error e, .error other => e = other
    | _, _ => False

theorem apply_refines (mem : Memory) (p : Nat) (s : Snapshot) (headers : List Header) (found : mem.read p = some s) :
    mem.Applied (s.apply codec headers) (mem.apply codec p headers) := by
  cases headers with
  | nil =>
    simp only [apply, found]
    exact ⟨fun _ _ read => read, found⟩
  | cons first rest =>
    by_cases contiguous : Snapshot.contiguous (first :: rest) = true
    · by_cases next : uint64 first.number = uint64 (s.number + 1)
      · obtain ⟨⟨fields, copied⟩, frame⟩ := copy_owned
        obtain ⟨later, agree⟩ := apply_headers_follows codec s.epoch mem.length (first :: rest) _ _ fields _ frame.grown copied
        have before := Heap.frame_trans _ _ _ _ frame later
        simp only [apply, found, Snapshot.apply, contiguous, next, ne_eq]
        generalize applyHeaders codec s.epoch (mem.copy codec.text s).1 (mem.copy codec.text s).2 (first :: rest) = ran
          at before later agree
        obtain ⟨reached, outcome⟩ := ran
        cases pure : Snapshot.applyHeaders codec s.epoch (s.copy codec.text) (first :: rest) with
        | error e =>
          cases outcome with
          | ok done => simp [pure] at agree
          | error other => exact ⟨fun q t => frame_read mem before, by simpa [pure] using agree⟩
        | ok snap =>
          cases outcome with
          | error e => simp [pure] at agree
          | ok done =>
            obtain ⟨fields', after⟩ : ∃ fields, Owned mem.length reached (mem.copy codec.text s).2 fields snap := by
              simpa [pure] using agree
            have number : snap.number = s.number :=
              congrArg Snapshot.Label.number (Snapshot.apply_headers_label codec _ _ _ _ pure)
            obtain ⟨⟨fields'', finished⟩, last⟩ := finish_owned mem.length reached _ after
            rw [number] at finished
            exact ⟨fun q t => frame_read mem (Heap.frame_trans _ _ _ _ before last), owned_read _ _ _ _ _ finished⟩
      · have refused : mem.apply codec p (first :: rest) = (mem, .error .invalidVotingChain) := by
          simp [apply, found, next]
        rw [refused, show s.apply codec (first :: rest) = .error .invalidVotingChain by simp [Snapshot.apply, next]]
        exact ⟨fun _ _ read => read, rfl⟩
    · have refused : mem.apply codec p (first :: rest) = (mem, .error .invalidVotingChain) := by
        simp [apply, found, contiguous]
      rw [refused, show s.apply codec (first :: rest) = .error .invalidVotingChain by simp [Snapshot.apply, contiguous]]
      exact ⟨fun _ _ read => read, rfl⟩

end Memory

end Didux.Backend
