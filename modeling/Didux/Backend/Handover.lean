import Didux.Lib.Runs
import Didux.Sport.Types

set_option autoImplicit false

namespace Didux.Backend

open Sport Function

-- Where a call of Seal stands. Until the lock it checks, signs and waits for the time of its block.
inductive SealPc (B : Type) where
  | begun
  | locked
  | waiting
  | receiving (ch : Nat)
  | leaving (result : Option B)
  | unlocking (result : Option B)
  | done
deriving DecidableEq

inductive CommitPc (B : Type) where
  | idle
  | comparing (block : B)
  | matched (block : B)
  | sending (ch : Nat) (block : B)
  | enqueuing (block : B)
deriving DecidableEq

-- Start clears the hash, closes the channel and makes a new one.
inductive EnginePc where
  | stopped
  | closing
  | replacing
  | started
deriving DecidableEq

-- The fields that Seal, Commit, Start and Stop share. Channels are numbered in
-- the order they are made and hold one block. There are n goroutines that
-- handle events: one, or more if a Stop came before the last handler had registered.
structure Handover (n : Nat) (B : Type) where
  proposedBlockHash : Hash
  commitChBlock : Nat
  buffer : Nat → Option B
  closed : Nat → Bool
  sealMu : Option Nat
  stop : Nat → Bool
  pc : Nat → SealPc B
  commits : Fin n → CommitPc B
  engine : EnginePc
  committed : List B
  enqueued : List B
  returned : List B
  panicked : Bool

inductive Action (n : Nat) (B : Type) where
  | stopSignal (i : Nat)
  | sealAbort (i : Nat)
  | sealLock (i : Nat)
  | sealPublish (i : Nat)
  | sealSelect (i : Nat)
  | sealReceive (i : Nat)
  | sealStop (i : Nat)
  | sealClear (i : Nat)
  | sealUnlock (i : Nat)
  | commitCall (k : Fin n) (block : B)
  | commitCompare (k : Fin n)
  | commitChannel (k : Fin n)
  | commitSend (k : Fin n)
  | commitEnqueue (k : Fin n)
  | stop
  | startClear
  | startClose
  | startReplace

namespace Handover

variable {n : Nat} {B : Type}

def goto (s : Handover n B) (i : Nat) (pc : SealPc B) : Handover n B := { s with pc := update s.pc i pc }

def proceed (s : Handover n B) (k : Fin n) (pc : CommitPc B) : Handover n B :=
  { s with commits := update s.commits k pc }

def isIdle : CommitPc B → Bool
  | .idle => true
  | _ => false

variable (block : Nat → B) (hash : B → Hash)

-- One operation on a shared field or a channel. None means that it blocks, or
-- that the goroutine is somewhere else. A receive on a closed and empty channel
-- gives nil, which the error branch of Seal dereferences.
def act (s : Handover n B) : Action n B → Option (Handover n B)
  | .stopSignal i => some { s with stop := update s.stop i true }
  | .sealAbort i =>
    match s.pc i with
    | .begun => some (s.goto i .done)
    | _ => none
  | .sealLock i =>
    match s.pc i, s.sealMu with
    | .begun, none => some { s.goto i .locked with sealMu := some i }
    | _, _ => none
  | .sealPublish i =>
    match s.pc i with
    | .locked => some { s.goto i .waiting with proposedBlockHash := hash (block i) }
    | _ => none
  | .sealSelect i =>
    match s.pc i with
    | .waiting => some (s.goto i (.receiving s.commitChBlock))
    | _ => none
  | .sealReceive i =>
    match s.pc i with
    | .receiving ch =>
      match s.buffer ch with
      | some result =>
        let taken := { s with buffer := update s.buffer ch none }
        if hash (block i) = hash result then some (taken.goto i (.leaving (some result)))
        else some (taken.goto i .waiting)
      | none => if s.closed ch then some { s.goto i (.leaving none) with panicked := true } else none
    | _ => none
  | .sealStop i =>
    match s.pc i with
    | .receiving _ => if s.stop i then some (s.goto i (.leaving none)) else none
    | _ => none
  | .sealClear i =>
    match s.pc i with
    | .leaving result => some { s.goto i (.unlocking result) with proposedBlockHash := 0 }
    | _ => none
  | .sealUnlock i =>
    match s.pc i with
    | .unlocking result => some { s.goto i .done with sealMu := none, returned := result.toList ++ s.returned }
    | _ => none
  | .commitCall k b =>
    match s.commits k with
    | .idle => if s.engine = .started then some (s.proceed k (.comparing b)) else none
    | _ => none
  | .commitCompare k =>
    match s.commits k with
    | .comparing b =>
      if s.proposedBlockHash = hash b then some (s.proceed k (.matched b)) else some (s.proceed k (.enqueuing b))
    | _ => none
  | .commitChannel k =>
    match s.commits k with
    | .matched b => some (s.proceed k (.sending s.commitChBlock b))
    | _ => none
  | .commitSend k =>
    match s.commits k with
    | .sending ch b =>
      if s.closed ch then some { s.proceed k .idle with panicked := true }
      else
        match s.buffer ch with
        | some _ => none
        | none =>
          some { s.proceed k .idle with
            buffer := update s.buffer ch (some b), committed := b :: s.committed }
    | _ => none
  | .commitEnqueue k =>
    match s.commits k with
    | .enqueuing b => some { s.proceed k .idle with enqueued := b :: s.enqueued, committed := b :: s.committed }
    | _ => none
  | .stop =>
    if s.engine = .started ∧ ∀ k, isIdle (s.commits k) = true then some { s with engine := .stopped } else none
  | .startClear =>
    if s.engine = .stopped then some { s with proposedBlockHash := 0, engine := .closing } else none
  | .startClose =>
    if s.engine = .closing then
      if s.closed s.commitChBlock then some { s with panicked := true }
      else some { s with closed := update s.closed s.commitChBlock true, engine := .replacing }
    else none
  | .startReplace =>
    if s.engine = .replacing then
      some { s with
        commitChBlock := s.commitChBlock + 1
        buffer := update s.buffer (s.commitChBlock + 1) none
        closed := update s.closed (s.commitChBlock + 1) false
        engine := .started }
    else none

inductive Step (s : Handover n B) : Action n B → Handover n B → Prop where
  | stopSignal (i : Nat) : Step s (.stopSignal i) { s with stop := update s.stop i true }
  | sealAbort (i : Nat) (here : s.pc i = .begun) : Step s (.sealAbort i) (s.goto i .done)
  | sealLock (i : Nat) (here : s.pc i = .begun) (free : s.sealMu = none) :
      Step s (.sealLock i) { s.goto i .locked with sealMu := some i }
  | sealPublish (i : Nat) (here : s.pc i = .locked) :
      Step s (.sealPublish i) { s.goto i .waiting with proposedBlockHash := hash (block i) }
  | sealSelect (i : Nat) (here : s.pc i = .waiting) : Step s (.sealSelect i) (s.goto i (.receiving s.commitChBlock))
  | sealTake (i ch : Nat) (b : B) (here : s.pc i = .receiving ch) (full : s.buffer ch = some b)
      (same : hash (block i) = hash b) :
      Step s (.sealReceive i) { s.goto i (.leaving (some b)) with buffer := update s.buffer ch none }
  | sealSkip (i ch : Nat) (b : B) (here : s.pc i = .receiving ch) (full : s.buffer ch = some b)
      (other : hash (block i) ≠ hash b) :
      Step s (.sealReceive i) { s.goto i .waiting with buffer := update s.buffer ch none }
  | sealNil (i ch : Nat) (here : s.pc i = .receiving ch) (empty : s.buffer ch = none) (closed : s.closed ch = true) :
      Step s (.sealReceive i) { s.goto i (.leaving none) with panicked := true }
  | sealStop (i ch : Nat) (here : s.pc i = .receiving ch) (stopped : s.stop i = true) :
      Step s (.sealStop i) (s.goto i (.leaving none))
  | sealClear (i : Nat) (result : Option B) (here : s.pc i = .leaving result) :
      Step s (.sealClear i) { s.goto i (.unlocking result) with proposedBlockHash := 0 }
  | sealUnlock (i : Nat) (result : Option B) (here : s.pc i = .unlocking result) :
      Step s (.sealUnlock i) { s.goto i .done with sealMu := none, returned := result.toList ++ s.returned }
  | commitCall (k : Fin n) (b : B) (here : s.commits k = .idle) (started : s.engine = .started) :
      Step s (.commitCall k b) (s.proceed k (.comparing b))
  | commitMatch (k : Fin n) (b : B) (here : s.commits k = .comparing b) (same : s.proposedBlockHash = hash b) :
      Step s (.commitCompare k) (s.proceed k (.matched b))
  | commitDiffer (k : Fin n) (b : B) (here : s.commits k = .comparing b) (other : s.proposedBlockHash ≠ hash b) :
      Step s (.commitCompare k) (s.proceed k (.enqueuing b))
  | commitChannel (k : Fin n) (b : B) (here : s.commits k = .matched b) :
      Step s (.commitChannel k) (s.proceed k (.sending s.commitChBlock b))
  | commitClosed (k : Fin n) (ch : Nat) (b : B) (here : s.commits k = .sending ch b) (closed : s.closed ch = true) :
      Step s (.commitSend k) { s.proceed k .idle with panicked := true }
  | commitSend (k : Fin n) (ch : Nat) (b : B) (here : s.commits k = .sending ch b) (opened : s.closed ch = false)
      (room : s.buffer ch = none) :
      Step s (.commitSend k)
        { s.proceed k .idle with buffer := update s.buffer ch (some b), committed := b :: s.committed }
  | commitEnqueue (k : Fin n) (b : B) (here : s.commits k = .enqueuing b) :
      Step s (.commitEnqueue k) { s.proceed k .idle with enqueued := b :: s.enqueued, committed := b :: s.committed }
  | stop (started : s.engine = .started) (idle : ∀ k, s.commits k = .idle) : Step s .stop { s with engine := .stopped }
  | startClear (stopped : s.engine = .stopped) :
      Step s .startClear { s with proposedBlockHash := 0, engine := .closing }
  | startCloseTwice (closing : s.engine = .closing) (closed : s.closed s.commitChBlock = true) :
      Step s .startClose { s with panicked := true }
  | startClose (closing : s.engine = .closing) (opened : s.closed s.commitChBlock = false) :
      Step s .startClose { s with closed := update s.closed s.commitChBlock true, engine := .replacing }
  | startReplace (replacing : s.engine = .replacing) :
      Step s .startReplace
        { s with
          commitChBlock := s.commitChBlock + 1
          buffer := update s.buffer (s.commitChBlock + 1) none
          closed := update s.closed (s.commitChBlock + 1) false
          engine := .started }

theorem is_idle_iff (pc : CommitPc B) : isIdle pc = true ↔ pc = .idle := by
  cases pc <;> simp [isIdle]

theorem act_step (s next : Handover n B) (action : Action n B) (acted : s.act block hash action = some next) :
    Step block hash s action next := by
  cases action with
  | stopSignal i =>
    cases acted
    exact .stopSignal i
  | sealAbort i =>
    simp only [act] at acted
    split at acted
    · next here =>
        cases acted
        exact .sealAbort i here
    · cases acted
  | sealLock i =>
    simp only [act] at acted
    split at acted
    · next here free =>
        cases acted
        exact .sealLock i here free
    · cases acted
  | sealPublish i =>
    simp only [act] at acted
    split at acted
    · next here =>
        cases acted
        exact .sealPublish i here
    · cases acted
  | sealSelect i =>
    simp only [act] at acted
    split at acted
    · next here =>
        cases acted
        exact .sealSelect i here
    · cases acted
  | sealReceive i =>
    simp only [act] at acted
    split at acted
    · next ch here =>
        split at acted
        · next b full =>
            split_ifs at acted with same
            · cases acted
              exact .sealTake i ch b here full same
            · cases acted
              exact .sealSkip i ch b here full same
        · next empty =>
            split_ifs at acted with closed
            cases acted
            exact .sealNil i ch here empty closed
    · cases acted
  | sealStop i =>
    simp only [act] at acted
    split at acted
    · next ch here =>
        split_ifs at acted with stopped
        cases acted
        exact .sealStop i ch here stopped
    · cases acted
  | sealClear i =>
    simp only [act] at acted
    split at acted
    · next result here =>
        cases acted
        exact .sealClear i result here
    · cases acted
  | sealUnlock i =>
    simp only [act] at acted
    split at acted
    · next result here =>
        cases acted
        exact .sealUnlock i result here
    · cases acted
  | commitCall k b =>
    simp only [act] at acted
    split at acted
    · next here =>
        split_ifs at acted with started
        cases acted
        exact .commitCall k b here started
    · cases acted
  | commitCompare k =>
    simp only [act] at acted
    split at acted
    · next b here =>
        split_ifs at acted with same
        · cases acted
          exact .commitMatch k b here same
        · cases acted
          exact .commitDiffer k b here same
    · cases acted
  | commitChannel k =>
    simp only [act] at acted
    split at acted
    · next b here =>
        cases acted
        exact .commitChannel k b here
    · cases acted
  | commitSend k =>
    simp only [act] at acted
    split at acted
    · next ch b here =>
        split_ifs at acted with closed
        · cases acted
          exact .commitClosed k ch b here closed
        · split at acted
          · cases acted
          · next room =>
              cases acted
              exact .commitSend k ch b here (by simpa using closed) room
    · cases acted
  | commitEnqueue k =>
    simp only [act] at acted
    split at acted
    · next b here =>
        cases acted
        exact .commitEnqueue k b here
    · cases acted
  | stop =>
    simp only [act] at acted
    split_ifs at acted with idle
    cases acted
    exact .stop idle.1 fun k => (is_idle_iff _).mp (idle.2 k)
  | startClear =>
    simp only [act] at acted
    split_ifs at acted with stopped
    cases acted
    exact .startClear stopped
  | startClose =>
    simp only [act] at acted
    split_ifs at acted with closing closed
    · cases acted
      exact .startCloseTwice closing closed
    · cases acted
      exact .startClose closing (by simpa using closed)
  | startReplace =>
    simp only [act] at acted
    split_ifs at acted with replacing
    cases acted
    exact .startReplace replacing

def fresh : Handover n B where
  proposedBlockHash := 0
  commitChBlock := 0
  buffer _ := none
  closed _ := false
  sealMu := none
  stop _ := false
  pc _ := .begun
  commits _ := .idle
  engine := .stopped
  committed := []
  enqueued := []
  returned := []
  panicked := false

def Reached (allowed : Handover n B → Action n B → Prop) : Handover n B → Prop :=
  Runs.Reached (fun s => s = fresh) fun s next => ∃ action, allowed s action ∧ s.act block hash action = some next

def run : List (Action n B) → Handover n B → Option (Handover n B)
  | [], s => some s
  | action :: actions, s => (s.act block hash action).bind (run actions)

def Along (allowed : Handover n B → Action n B → Prop) : List (Action n B) → Handover n B → Prop
  | [], _ => True
  | action :: actions, s => allowed s action ∧ ∀ next ∈ s.act block hash action, Along allowed actions next

theorem run_reached (allowed : Handover n B → Action n B → Prop) (actions : List (Action n B)) (s last : Handover n B)
    (reached : Reached block hash allowed s) (along : Along block hash allowed actions s)
    (ran : run block hash actions s = some last) : Reached block hash allowed last := by
  induction actions generalizing s with
  | nil =>
    cases ran
    exact reached
  | cons action actions ih =>
    obtain ⟨next, acted, rest⟩ := Option.bind_eq_some_iff.mp ran
    have taken := Runs.reached_step _ _ s next reached ⟨action, along.1, acted⟩
    exact ih next taken (along.2 next acted) rest

end Handover

end Didux.Backend
