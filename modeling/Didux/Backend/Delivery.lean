import Didux.Backend.Handover

set_option autoImplicit false

namespace Didux.Backend

open Sport

variable {n : Nat} {B : Type}

namespace SealPc

def holds : SealPc B → Bool
  | .begun => false
  | .done => false
  | _ => true

def inLoop : SealPc B → Bool
  | .waiting => true
  | .receiving _ => true
  | _ => false

def published : SealPc B → Bool
  | .leaving _ => true
  | pc => pc.inLoop

def result : SealPc B → Option B
  | .leaving result => result
  | .unlocking result => result
  | _ => none

end SealPc

def CommitPc.carried : CommitPc B → Option B
  | .matched b => some b
  | .sending _ b => some b
  | _ => none

namespace Handover

variable {s : Handover n B} {i j : Nat} {pc : SealPc B} {k : Fin n} {b : B}

theorem goto_pc : (s.goto i pc).pc j = if j = i then pc else s.pc j :=
  Function.update_apply s.pc i pc j

theorem proceed_commits {l : Fin n} {pc : CommitPc B} : (s.proceed k pc).commits l = if l = k then pc else s.commits l :=
  Function.update_apply s.commits k pc l

theorem goto_same {α : Type} {f : SealPc B → α} (same : f pc = f (s.pc i)) : f ((s.goto i pc).pc j) = f (s.pc j) := by
  rw [goto_pc]
  by_cases own : j = i
  · rw [if_pos own, own]
    exact same
  · rw [if_neg own]

theorem proceed_same {α : Type} (f : CommitPc B → α) (s : Handover n B) (k : Fin n) (pc : CommitPc B)
    (same : f pc = f (s.commits k)) (l : Fin n) : f ((s.proceed k pc).commits l) = f (s.commits l) := by
  rw [proceed_commits]
  by_cases own : l = k
  · rw [if_pos own, own]
    exact same
  · rw [if_neg own]

variable (block : Nat → B) (hash : B → Hash)

structure Regular (s : Handover n B) : Prop where
  exclusive : ∀ i, (s.pc i).holds = true ↔ s.sealMu = some i
  published : s.proposedBlockHash = 0 ∨ ∃ i, (s.pc i).published = true ∧ s.proposedBlockHash = hash (block i)
  quiet : s.engine ≠ .started → ∀ k, s.commits k = .idle
  closed : s.closed s.commitChBlock = true ↔ s.engine = .replacing
  aimed : ∀ k ch b, s.commits k = .sending ch b → ch = s.commitChBlock

variable (s next : Handover n B) (i : Nat) (pc : SealPc B) (action : Action n B)

theorem goto_exclusive (same : pc.holds = (s.pc i).holds) (exclusive : ∀ i, (s.pc i).holds = true ↔ s.sealMu = some i) :
    ∀ j, ((s.goto i pc).pc j).holds = true ↔ s.sealMu = some j := by
  intro j
  rw [goto_same same]
  exact exclusive j

theorem step_exclusive (step : Step block hash s action next) (exclusive : ∀ i, (s.pc i).holds = true ↔ s.sealMu = some i) :
    ∀ i, (next.pc i).holds = true ↔ next.sealMu = some i := by
  cases step with
  | sealAbort i here => exact goto_exclusive s i _ (by rw [here]; rfl) exclusive
  | sealLock i here free =>
    intro j
    have others : (s.pc j).holds = false := by
      rw [Bool.eq_false_iff, Ne, exclusive j, free]
      simp
    by_cases own : j = i
    · simp [goto_pc, own, SealPc.holds]
    · simp [goto_pc, own, others, Ne.symm own]
  | sealPublish i here => exact goto_exclusive s i _ (by rw [here]; rfl) exclusive
  | sealSelect i here => exact goto_exclusive s i _ (by rw [here]; rfl) exclusive
  | sealTake i ch b here => exact goto_exclusive s i _ (by rw [here]; rfl) exclusive
  | sealSkip i ch b here => exact goto_exclusive s i _ (by rw [here]; rfl) exclusive
  | sealNil i ch here => exact goto_exclusive s i _ (by rw [here]; rfl) exclusive
  | sealStop i ch here => exact goto_exclusive s i _ (by rw [here]; rfl) exclusive
  | sealClear i result here => exact goto_exclusive s i _ (by rw [here]; rfl) exclusive
  | sealUnlock i result here =>
    intro j
    have holder := (exclusive i).mp (by rw [here]; rfl)
    by_cases own : j = i
    · simp [goto_pc, own, SealPc.holds]
    · have other : (s.pc j).holds = false := by
        rw [Bool.eq_false_iff, Ne, exclusive j, holder]
        simpa [eq_comm] using own
      simp [goto_pc, own, other]
  | _ => exact exclusive

theorem goto_published (kept : (s.pc i).published = true → pc.published = true)
    (published : s.proposedBlockHash = 0 ∨ ∃ i, (s.pc i).published = true ∧ s.proposedBlockHash = hash (block i)) :
    s.proposedBlockHash = 0 ∨ ∃ j, ((s.goto i pc).pc j).published = true ∧ s.proposedBlockHash = hash (block j) := by
  obtain cleared | ⟨j, known, same⟩ := published
  · exact .inl cleared
  · refine .inr ⟨j, ?_, same⟩
    rw [goto_pc]
    by_cases own : j = i
    · rw [if_pos own]
      exact kept (own ▸ known)
    · rw [if_neg own]
      exact known

theorem step_published (step : Step block hash s action next)
    (published : s.proposedBlockHash = 0 ∨ ∃ i, (s.pc i).published = true ∧ s.proposedBlockHash = hash (block i)) :
    next.proposedBlockHash = 0 ∨ ∃ i, (next.pc i).published = true ∧ next.proposedBlockHash = hash (block i) := by
  cases step with
  | sealAbort i here => exact goto_published block hash s i _ (by rw [here]; exact id) published
  | sealLock i here => exact goto_published block hash s i _ (by rw [here]; exact id) published
  | sealPublish i here => exact .inr ⟨i, by simp [goto_pc, SealPc.published, SealPc.inLoop], rfl⟩
  | sealSelect i here => exact goto_published block hash s i _ (fun _ => rfl) published
  | sealTake i => exact goto_published block hash s i _ (fun _ => rfl) published
  | sealSkip i => exact goto_published block hash s i _ (fun _ => rfl) published
  | sealNil i => exact goto_published block hash s i _ (fun _ => rfl) published
  | sealStop i => exact goto_published block hash s i _ (fun _ => rfl) published
  | sealClear => exact .inl rfl
  | sealUnlock i result here => exact goto_published block hash s i _ (by rw [here]; exact id) published
  | startClear => exact .inl rfl
  | _ => exact published

theorem busy_started (regular : Regular block hash s) (k : Fin n) (busy : s.commits k ≠ .idle) : s.engine = .started := by
  by_contra off
  exact busy (regular.quiet off k)

theorem proceed_regular (regular : Regular block hash s) (k : Fin n) (pc : CommitPc B) (started : s.engine = .started)
    (aims : ∀ ch b, pc = .sending ch b → ch = s.commitChBlock) : Regular block hash (s.proceed k pc) := by
  refine ⟨regular.exclusive, regular.published, fun off => absurd started off, regular.closed, ?_⟩
  intro l ch b sending
  rw [proceed_commits] at sending
  by_cases own : l = k
  · rw [if_pos own] at sending
    exact aims ch b sending
  · rw [if_neg own] at sending
    exact regular.aimed l ch b sending

theorem step_regular (step : Step block hash s action next) (regular : Regular block hash s) : Regular block hash next := by
  have exclusive := step_exclusive block hash s next action step regular.exclusive
  have published := step_published block hash s next action step regular.published
  have started := busy_started block hash s regular
  have proceeds := proceed_regular block hash s regular
  obtain ⟨_, _, quiet, closed, aimed⟩ := regular
  cases step with
  | commitCall k b here on => exact proceeds k _ on (by simp)
  | commitMatch k b here => exact proceeds k _ (started k (by simp [here])) (by simp)
  | commitDiffer k b here => exact proceeds k _ (started k (by simp [here])) (by simp)
  | commitChannel k b here => exact proceeds k _ (started k (by simp [here])) (by simp_all)
  | commitClosed k ch b here =>
    obtain ⟨_, _, quiet, closed, aimed⟩ := proceeds k .idle (started k (by simp [here])) (by simp)
    exact ⟨exclusive, published, quiet, closed, aimed⟩
  | commitSend k ch b here =>
    obtain ⟨_, _, quiet, closed, aimed⟩ := proceeds k .idle (started k (by simp [here])) (by simp)
    exact ⟨exclusive, published, quiet, closed, aimed⟩
  | commitEnqueue k b here =>
    obtain ⟨_, _, quiet, closed, aimed⟩ := proceeds k .idle (started k (by simp [here])) (by simp)
    exact ⟨exclusive, published, quiet, closed, aimed⟩
  | stop on idle => exact ⟨exclusive, published, fun _ => idle, by simpa [on] using closed, aimed⟩
  | startClear stopped =>
    exact ⟨exclusive, published, fun _ => quiet (by simp [stopped]), by simpa [stopped] using closed, aimed⟩
  | startClose closing => exact ⟨exclusive, published, fun _ => quiet (by simp [closing]), by simp, aimed⟩
  | startReplace replacing =>
    have idle := quiet (by simp [replacing])
    exact ⟨exclusive, published, fun off => absurd rfl off, by simp, fun k ch b sending => by simp [idle k] at sending⟩
  | _ => exact ⟨exclusive, published, quiet, closed, aimed⟩

def InFlight (s : Handover n B) (b : B) : Prop :=
  (∃ k, (s.commits k).carried = some b) ∨ s.buffer s.commitChBlock = some b

-- No stop reaches a Seal that a block is on its way to. No Commit finds its
-- hash published by a Seal that is stopped or has left its loop, or while a block
-- is on its way. Start closes the channel when it is empty and no Seal receives
-- from it, and no Seal selects on the channel until it is replaced.
def Orderly (s : Handover n B) : Action n B → Prop
  | .stopSignal i => (s.pc i).inLoop = true → ∀ b, ¬ s.InFlight b
  | .commitCompare k => ∀ b, s.commits k = .comparing b → s.proposedBlockHash = hash b →
      (∀ c, ¬ s.InFlight c) ∧ ∀ i, (s.pc i).published = true → (s.pc i).inLoop = true ∧ s.stop i = false
  | .sealSelect _ => s.closed s.commitChBlock = false
  | .startClose => s.buffer s.commitChBlock = none ∧ ∀ i ch, s.pc i ≠ .receiving ch
  | _ => True

def Awaited (s : Handover n B) (b : B) : Prop :=
  ∃ i, s.stop i = false ∧ (s.pc i).inLoop = true ∧ hash (block i) = hash b

structure Flight (s : Handover n B) : Prop where
  awaited : ∀ b, s.InFlight b → Awaited block hash s b
  single : ∀ k l b c, (s.commits k).carried = some b → (s.commits l).carried = some c → k = l
  empty : ∀ k b, (s.commits k).carried = some b → s.buffer s.commitChBlock = none

structure Ordered (s : Handover n B) : Prop where
  regular : Regular block hash s
  selecting : ∀ i ch, s.pc i = .receiving ch → ch = s.commitChBlock ∧ s.closed ch = false
  flight : Flight block hash s
  accounted : ∀ b ∈ s.committed, b ∈ s.returned ∨ b ∈ s.enqueued ∨ (∃ i, (s.pc i).result = some b) ∨
    s.buffer s.commitChBlock = some b
  emptied : s.engine = .replacing → s.buffer s.commitChBlock = none
  calm : s.panicked = false

theorem loop_unique (regular : Regular block hash s) {i : Nat} (loops : (s.pc i).inLoop = true)
    (alsoLoops : (s.pc j).inLoop = true) : i = j := by
  have holds : ∀ pc : SealPc B, pc.inLoop = true → pc.holds = true := by
    intro pc loops
    cases pc <;> first | rfl | cases loops
  have first := (regular.exclusive i).mp (holds _ loops)
  have second := (regular.exclusive j).mp (holds _ alsoLoops)
  exact Option.some.inj (first.symm.trans second)

theorem received_own (ordered : Ordered block hash s) {i ch : Nat} (here : s.pc i = .receiving ch)
    (full : s.buffer ch = some b) : hash (block i) = hash b := by
  obtain ⟨current, _⟩ := ordered.selecting i ch here
  subst current
  obtain ⟨j, _, loops, same⟩ := ordered.flight.awaited b (.inr full)
  have own : j = i := loop_unique block hash s ordered.regular loops (by rw [here]; rfl)
  exact own ▸ same

theorem open_to_commit (regular : Regular block hash s) (k : Fin n) (ch : Nat) (b : B)
    (here : s.commits k = .sending ch b) : s.closed ch = false := by
  have started := busy_started block hash s regular k (by simp [here])
  rw [regular.aimed k ch b here, Bool.eq_false_iff, Ne, regular.closed, started]
  decide

theorem goto_selecting (selecting : ∀ i ch, s.pc i = .receiving ch → ch = s.commitChBlock ∧ s.closed ch = false)
    (selects : ∀ ch, pc = .receiving ch → ch = s.commitChBlock ∧ s.closed ch = false) :
    ∀ j ch, (s.goto i pc).pc j = .receiving ch → ch = s.commitChBlock ∧ s.closed ch = false := by
  intro j ch here
  rw [goto_pc] at here
  by_cases own : j = i
  · rw [if_pos own] at here
    exact selects ch here
  · rw [if_neg own] at here
    exact selecting j ch here

theorem step_selecting (step : Step block hash s action next) (orderly : Orderly hash s action) (ordered : Ordered block hash s) :
    ∀ i ch, next.pc i = .receiving ch → ch = next.commitChBlock ∧ next.closed ch = false := by
  have selecting := ordered.selecting
  cases step with
  | sealAbort i => exact goto_selecting s i _ selecting (by simp)
  | sealLock i => exact goto_selecting s i _ selecting (by simp)
  | sealPublish i => exact goto_selecting s i _ selecting (by simp)
  | sealSelect i =>
    refine goto_selecting s i _ selecting ?_
    intro ch current
    cases current
    exact ⟨rfl, orderly⟩
  | sealTake i => exact goto_selecting s i _ selecting (by simp)
  | sealSkip i => exact goto_selecting s i _ selecting (by simp)
  | sealNil i => exact goto_selecting s i _ selecting (by simp)
  | sealStop i => exact goto_selecting s i _ selecting (by simp)
  | sealClear i => exact goto_selecting s i _ selecting (by simp)
  | sealUnlock i => exact goto_selecting s i _ selecting (by simp)
  | startClose => exact fun i ch here => absurd here (orderly.2 i ch)
  | startReplace replacing =>
    -- the old channel is closed, so no Seal receives from it
    intro i ch here
    obtain ⟨current, opened⟩ := selecting i ch here
    rw [current, Bool.eq_false_iff] at opened
    exact absurd (ordered.regular.closed.mpr replacing) opened
  | _ => exact selecting

structure Still (s next : Handover n B) : Prop where
  carried : ∀ k, (next.commits k).carried = (s.commits k).carried
  held : next.buffer next.commitChBlock = s.buffer s.commitChBlock
  waits : ∀ i, s.stop i = false → (s.pc i).inLoop = true → next.stop i = false ∧ (next.pc i).inLoop = true

theorem still_flight (still : Still s next) (flight : Flight block hash s) : Flight block hash next where
  awaited b flying := by
    have before : s.InFlight b := by
      rcases flying with ⟨k, carried⟩ | held
      · exact .inl ⟨k, still.carried k ▸ carried⟩
      · exact .inr (still.held ▸ held)
    obtain ⟨i, unstopped, loops, same⟩ := flight.awaited b before
    obtain ⟨stillUnstopped, stillLoops⟩ := still.waits i unstopped loops
    exact ⟨i, stillUnstopped, stillLoops, same⟩
  single k l b c carried alsoCarried :=
    flight.single k l b c (still.carried k ▸ carried) (still.carried l ▸ alsoCarried)
  empty k b carried := still.held.trans (flight.empty k b (still.carried k ▸ carried))

theorem goto_still (kept : (s.pc i).inLoop = true → pc.inLoop = true) : Still s (s.goto i pc) := by
  refine ⟨fun _ => rfl, rfl, ?_⟩
  intro j unstopped loops
  refine ⟨unstopped, ?_⟩
  rw [goto_pc]
  by_cases own : j = i
  · rw [if_pos own]
    exact kept (own ▸ loops)
  · rw [if_neg own]
    exact loops

theorem proceed_still (k : Fin n) (pc : CommitPc B) (same : pc.carried = (s.commits k).carried) : Still s (s.proceed k pc) :=
  ⟨proceed_same CommitPc.carried s k pc same, rfl, fun _ unstopped loops => ⟨unstopped, loops⟩⟩

theorem clear_flight (none_ : ∀ b, ¬ s.InFlight b) : Flight block hash s where
  awaited b flying := absurd flying (none_ b)
  single k _ b _ carried _ := absurd (.inl ⟨k, carried⟩) (none_ b)
  empty k b carried := absurd (.inl ⟨k, carried⟩) (none_ b)

theorem match_flight (real : ∀ b, hash b ≠ 0) {s : Handover n B} (regular : Regular block hash s)
    (same : s.proposedBlockHash = hash b) (clear : ∀ c, ¬ s.InFlight c)
    (waits : ∀ i, (s.pc i).published = true → (s.pc i).inLoop = true ∧ s.stop i = false) :
    Flight block hash (s.proceed k (.matched b)) := by
  have only : ∀ l c, ((s.proceed k (.matched b)).commits l).carried = some c → l = k ∧ c = b := by
    intro l c carried
    rw [proceed_commits] at carried
    by_cases own : l = k
    · rw [if_pos own] at carried
      exact ⟨own, (Option.some.inj carried).symm⟩
    · rw [if_neg own] at carried
      exact absurd (.inl ⟨l, carried⟩) (clear c)
  have empty : s.buffer s.commitChBlock = none := by
    cases held : s.buffer s.commitChBlock with
    | none => rfl
    | some c => exact absurd (.inr held) (clear c)
  refine ⟨?_, fun l m c d carried alsoCarried => (only l c carried).1.trans (only m d alsoCarried).1.symm, fun _ _ _ => empty⟩
  rintro c (⟨l, carried⟩ | held)
  · obtain ⟨_, rfl⟩ := only l c carried
    obtain cleared | ⟨i, published, proposed⟩ := regular.published
    · exact absurd (same.symm.trans cleared) (real c)
    · exact ⟨i, (waits i published).2, (waits i published).1, proposed.symm.trans same⟩
  · exact absurd (.inr held) (clear c)

theorem send_flight (flight : Flight block hash s) {committed : List B} (carried : (s.commits k).carried = some b) :
    Flight block hash { s.proceed k .idle with
      buffer := Function.update s.buffer s.commitChBlock (some b), committed := committed } := by
  have alone : ∀ l, ((s.proceed k .idle).commits l).carried = none := by
    intro l
    rw [proceed_commits]
    by_cases own : l = k
    · rw [if_pos own]
      rfl
    · rw [if_neg own]
      cases others : (s.commits l).carried with
      | none => rfl
      | some c => exact absurd (flight.single l k c b others carried) own
  refine ⟨?_, ?_, ?_⟩
  · rintro c (⟨l, also⟩ | held)
    · exact absurd also (by simp [alone l])
    · have same : b = c := by simpa [proceed] using held
      subst same
      exact flight.awaited b (.inl ⟨k, carried⟩)
  · exact fun l _ _ _ also => absurd also (by simp [alone l])
  · exact fun l _ also => absurd also (by simp [alone l])

theorem step_flight (real : ∀ b, hash b ≠ 0) {s next : Handover n B} {action : Action n B}
    (step : Step block hash s action next) (orderly : Orderly hash s action) (ordered : Ordered block hash s) :
    Flight block hash next := by
  have flight := ordered.flight
  have keeps := fun next (still : Still s next) => still_flight block hash s next still flight
  cases step with
  | stopSignal i =>
    by_cases loops : (s.pc i).inLoop = true
    · exact clear_flight block hash _ (orderly loops)
    · refine keeps _ ⟨fun _ => rfl, rfl, ?_⟩
      intro j unstopped waits
      have other : j ≠ i := by
        rintro rfl
        exact loops waits
      exact ⟨by simpa [other] using unstopped, waits⟩
  | sealAbort i here => exact keeps _ (goto_still s i _ (by rw [here]; exact id))
  | sealLock i here =>
    obtain ⟨carried, held, waits⟩ := goto_still s i .locked (by rw [here]; exact id)
    exact keeps _ ⟨carried, held, waits⟩
  | sealPublish i =>
    obtain ⟨carried, held, waits⟩ := goto_still s i .waiting fun _ => rfl
    exact keeps _ ⟨carried, held, waits⟩
  | sealSelect i => exact keeps _ (goto_still s i _ fun _ => rfl)
  | sealTake i ch b here full =>
    -- no Commit carries a block while the channel holds one
    obtain ⟨current, _⟩ := ordered.selecting i ch here
    subst current
    refine clear_flight block hash _ ?_
    rintro c (⟨k, carried⟩ | held)
    · exact absurd (flight.empty k c carried) (by simp [full])
    · simp [goto] at held
  | sealSkip i ch b here full other => exact absurd (received_own block hash s ordered here full) other
  | sealNil i ch here _ closed => exact absurd closed (by simp [(ordered.selecting i ch here).2])
  | sealStop i ch here stopped =>
    refine ⟨?_, flight.single, flight.empty⟩
    intro b flying
    obtain ⟨j, unstopped, loops, _⟩ := flight.awaited b flying
    have own : j = i := loop_unique block hash s ordered.regular loops (by rw [here]; rfl)
    exact absurd stopped (by simp [← own, unstopped])
  | sealClear i result here =>
    obtain ⟨carried, held, waits⟩ := goto_still s i (.unlocking result) (by rw [here]; exact id)
    exact keeps _ ⟨carried, held, waits⟩
  | sealUnlock i result here =>
    obtain ⟨carried, held, waits⟩ := goto_still s i .done (by rw [here]; exact id)
    exact keeps _ ⟨carried, held, waits⟩
  | commitCall k b here => exact keeps _ (proceed_still s k _ (by rw [here]; rfl))
  | commitMatch k b here same =>
    obtain ⟨clear, waits⟩ := orderly b here same
    exact match_flight block hash real ordered.regular same clear waits
  | commitDiffer k b here => exact keeps _ (proceed_still s k _ (by rw [here]; rfl))
  | commitChannel k b here => exact keeps _ (proceed_still s k _ (by rw [here]; rfl))
  | commitClosed k ch b here closed => exact absurd closed (by simp [open_to_commit block hash s ordered.regular k ch b here])
  | commitSend k ch b here =>
    have current := ordered.regular.aimed k ch b here
    subst current
    exact send_flight block hash s flight (by rw [here]; rfl)
  | commitEnqueue k b here =>
    obtain ⟨carried, held, waits⟩ := proceed_still s k .idle (by rw [here]; rfl)
    exact keeps _ ⟨carried, held, waits⟩
  | startReplace replacing =>
    have idle := ordered.regular.quiet (by simp [replacing])
    refine clear_flight block hash _ ?_
    rintro c (⟨k, carried⟩ | held)
    · simp [idle k, CommitPc.carried] at carried
    · simp at held
  | _ => exact keeps _ ⟨fun _ => rfl, rfl, fun _ unstopped loops => ⟨unstopped, loops⟩⟩

theorem goto_accounted (same : pc.result = (s.pc i).result)
    (accounted : b ∈ s.returned ∨ b ∈ s.enqueued ∨ (∃ i, (s.pc i).result = some b) ∨ s.buffer s.commitChBlock = some b) :
    b ∈ s.returned ∨ b ∈ s.enqueued ∨ (∃ j, ((s.goto i pc).pc j).result = some b) ∨ s.buffer s.commitChBlock = some b := by
  simp only [goto_same same]
  exact accounted

variable (step : Step block hash s action next)

include step

theorem step_accounted (ordered : Ordered block hash s) :
    ∀ b ∈ next.committed, b ∈ next.returned ∨ b ∈ next.enqueued ∨ (∃ i, (next.pc i).result = some b) ∨
      next.buffer next.commitChBlock = some b := by
  intro b committed
  have accounted := ordered.accounted b
  cases step with
  | sealAbort i here => exact goto_accounted s i _ (by rw [here]; rfl) (accounted committed)
  | sealLock i here => exact goto_accounted s i _ (by rw [here]; rfl) (accounted committed)
  | sealPublish i here => exact goto_accounted s i _ (by rw [here]; rfl) (accounted committed)
  | sealSelect i here => exact goto_accounted s i _ (by rw [here]; rfl) (accounted committed)
  | sealTake i ch c here full =>
    obtain ⟨current, _⟩ := ordered.selecting i ch here
    subst current
    rcases accounted committed with returned | enqueued | ⟨j, leaving⟩ | held
    · exact .inl returned
    · exact .inr (.inl enqueued)
    · have other : j ≠ i := by
        rintro rfl
        simp [here, SealPc.result] at leaving
      exact .inr (.inr (.inl ⟨j, by simpa [goto_pc, other] using leaving⟩))
    · have same : c = b := Option.some.inj (full.symm.trans held)
      exact .inr (.inr (.inl ⟨i, by simp [goto_pc, SealPc.result, same]⟩))
  | sealSkip i ch c here full other => exact absurd (received_own block hash s ordered here full) other
  | sealNil i ch here => exact goto_accounted s i _ (by rw [here]; rfl) (accounted committed)
  | sealStop i ch here => exact goto_accounted s i _ (by rw [here]; rfl) (accounted committed)
  | sealClear i result here => exact goto_accounted s i _ (by rw [here]; rfl) (accounted committed)
  | sealUnlock i result here =>
    rcases accounted committed with returned | enqueued | ⟨j, leaving⟩ | held
    · exact .inl (List.mem_append_right _ returned)
    · exact .inr (.inl enqueued)
    · by_cases own : j = i
      · have given : result = some b := by simpa [own, here, SealPc.result] using leaving
        exact .inl (by simp [given])
      · exact .inr (.inr (.inl ⟨j, by simpa [goto_pc, own] using leaving⟩))
    · exact .inr (.inr (.inr held))
  | commitSend k ch c here _ room =>
    have current := ordered.regular.aimed k ch c here
    subst current
    rcases List.mem_cons.mp committed with rfl | before
    · exact .inr (.inr (.inr (by simp [proceed])))
    · rcases accounted before with returned | enqueued | leaving | held
      · exact .inl returned
      · exact .inr (.inl enqueued)
      · exact .inr (.inr (.inl leaving))
      · exact absurd held (by simp [room])
  | commitEnqueue k c =>
    rcases List.mem_cons.mp committed with rfl | before
    · exact .inr (.inl (List.mem_cons_self))
    · rcases accounted before with returned | enqueued | rest
      · exact .inl returned
      · exact .inr (.inl (List.mem_cons_of_mem c enqueued))
      · exact .inr (.inr rest)
  | startReplace replacing =>
    rcases accounted committed with returned | enqueued | leaving | held
    · exact .inl returned
    · exact .inr (.inl enqueued)
    · exact .inr (.inr (.inl leaving))
    · exact absurd held (by simp [ordered.emptied replacing])
  | _ => exact accounted committed

theorem step_emptied (orderly : Orderly hash s action) (ordered : Ordered block hash s) :
    next.engine = .replacing → next.buffer next.commitChBlock = none := by
  have emptied := ordered.emptied
  cases step with
  | sealTake i ch b here =>
    obtain ⟨current, _⟩ := ordered.selecting i ch here
    exact fun _ => by simp [goto, current]
  | sealSkip i ch b here =>
    obtain ⟨current, _⟩ := ordered.selecting i ch here
    exact fun _ => by simp [goto, current]
  | commitSend k ch b here =>
    have started := busy_started block hash s ordered.regular k (by simp [here])
    exact fun replacing => absurd (started.symm.trans replacing) (by decide)
  | startClose => exact fun _ => orderly.1
  | startReplace => exact fun replacing => by cases replacing
  | stop => exact fun replacing => by cases replacing
  | startClear => exact fun replacing => by cases replacing
  | _ => exact emptied

theorem step_calm (ordered : Ordered block hash s) : next.panicked = false := by
  cases step with
  | sealNil i ch here _ closed => exact absurd closed (by simp [(ordered.selecting i ch here).2])
  | commitClosed k ch b here closed => exact absurd closed (by simp [open_to_commit block hash s ordered.regular k ch b here])
  | startCloseTwice closing closed => exact absurd (ordered.regular.closed.mp closed) (by simp [closing])
  | _ => exact ordered.calm

omit step

theorem step_ordered (real : ∀ b, hash b ≠ 0) {s next : Handover n B} {action : Action n B}
    (step : Step block hash s action next) (orderly : Orderly hash s action) (ordered : Ordered block hash s) :
    Ordered block hash next where
  regular := step_regular block hash s next action step ordered.regular
  selecting := step_selecting block hash s next action step orderly ordered
  flight := step_flight block hash real step orderly ordered
  accounted := step_accounted block hash s next action step ordered
  emptied := step_emptied block hash s next action step orderly ordered
  calm := step_calm block hash s next action step ordered

theorem fresh_ordered : Ordered block hash (fresh : Handover n B) where
  regular := ⟨by simp [fresh, SealPc.holds], .inl rfl, fun _ _ => rfl, by simp [fresh], by simp [fresh]⟩
  selecting := by simp [fresh]
  flight := clear_flight block hash _ (by simp [InFlight, fresh, CommitPc.carried])
  accounted := by simp [fresh]
  emptied _ := rfl
  calm := rfl

theorem reached_ordered (real : ∀ b, hash b ≠ 0) {s : Handover n B} (reached : Reached block hash (Orderly hash) s) :
    Ordered block hash s := by
  refine Runs.reached_invariant _ _ (Ordered block hash) ?_ ?_ s reached
  · rintro state rfl
    exact fresh_ordered block hash
  · rintro state next ordered ⟨action, orderly, acted⟩
    exact step_ordered block hash real (act_step block hash state next action acted) orderly ordered

def Delivered (s : Handover n B) (b : B) : Prop :=
  b ∈ s.returned ∨ b ∈ s.enqueued ∨ (∃ i, (s.pc i).result = some b) ∨
    ∃ i ch, s.stop i = false ∧ hash (block i) = hash b ∧
      (s.pc i = .receiving ch ∨ s.pc i = .waiting ∧ ch = s.commitChBlock) ∧ s.buffer ch = some b

def Stalled (s : Handover n B) : Prop :=
  (∃ k ch b, s.commits k = .sending ch b ∧ s.buffer ch ≠ none) ∧ ∀ i ch, s.pc i ≠ .receiving ch

theorem ordered_delivered (ordered : Ordered block hash s) (b : B) (committed : b ∈ s.committed) : Delivered block hash s b := by
  rcases ordered.accounted b committed with returned | enqueued | leaving | held
  · exact .inl returned
  · exact .inr (.inl enqueued)
  · exact .inr (.inr (.inl leaving))
  · obtain ⟨i, unstopped, loops, same⟩ := ordered.flight.awaited b (.inr held)
    refine .inr (.inr (.inr ⟨i, s.commitChBlock, unstopped, same, ?_, held⟩))
    cases here : s.pc i with
    | waiting => exact .inr ⟨rfl, rfl⟩
    | receiving ch => exact .inl (by rw [(ordered.selecting i ch here).1])
    | _ => simp [here, SealPc.inLoop] at loops

theorem ordered_not_stalled (ordered : Ordered block hash s) : ¬ Stalled s := by
  rintro ⟨⟨k, ch, b, here, full⟩, _⟩
  have current := ordered.regular.aimed k ch b here
  have empty := ordered.flight.empty k b (by rw [here]; rfl)
  exact full (current ▸ empty)

theorem committed_blocks_delivered (real : ∀ b, hash b ≠ 0) (s : Handover n B) (reached : Reached block hash (Orderly hash) s) :
    (∀ b ∈ s.committed, Delivered block hash s b) ∧ ¬ Stalled s ∧ s.panicked = false := by
  have ordered := reached_ordered block hash real reached
  exact ⟨ordered_delivered block hash s ordered, ordered_not_stalled block hash s ordered, ordered.calm⟩

def sampleBlock (i : Nat) : Bool := i != 0

def sampleHash (b : Bool) : Hash := if b then 2 else 1

def restart : List (Action 1 Bool) := [.startClear, .startClose, .startReplace]

def lostBlock : List (Action 1 Bool) :=
  restart ++ [.sealLock 0, .sealPublish 0, .commitCall 0 false, .commitCompare 0, .commitChannel 0, .commitSend 0,
    .stopSignal 0, .sealSelect 0, .sealStop 0, .sealClear 0, .sealUnlock 0]

def stalledCommit : List (Action 1 Bool) :=
  lostBlock ++ [.sealLock 1, .sealPublish 1, .commitCall 0 true, .commitCompare 0, .commitChannel 0, .stopSignal 1,
    .sealSelect 1, .sealStop 1, .sealClear 1, .sealUnlock 1]

def nilResult : List (Action 1 Bool) :=
  restart ++ [.sealLock 0, .sealPublish 0, .sealSelect 0, .stop, .startClear, .startClose, .sealReceive 0]

theorem along_any (actions : List (Action n B)) (s : Handover n B) : Along block hash (fun _ _ => True) actions s := by
  induction actions generalizing s with
  | nil => trivial
  | cons action actions ih => exact ⟨trivial, fun next _ => ih next⟩

theorem sample_reached (actions : List (Action 1 Bool)) (s : Handover 1 Bool)
    (ran : run sampleBlock sampleHash actions fresh = some s) : Reached sampleBlock sampleHash (fun _ _ => True) s :=
  run_reached sampleBlock sampleHash _ actions fresh s (Runs.reached_start _ _ _ rfl) (along_any _ _ actions fresh) ran

theorem lost_block_facts : ∃ s, run sampleBlock sampleHash lostBlock fresh = some s ∧ false ∈ s.committed ∧
    s.returned = [] ∧ s.enqueued = [] ∧ ∀ i, s.pc i = .begun ∨ s.pc i = .done := by
  refine ⟨_, rfl, by decide, rfl, rfl, ?_⟩
  intro i
  by_cases first : i = 0
  · subst first
    exact .inr rfl
  · exact .inl (by simp [goto, proceed, fresh, first])

theorem stalled_commit_facts : ∃ s, run sampleBlock sampleHash stalledCommit fresh = some s ∧
    s.commits 0 = .sending 1 true ∧ s.buffer 1 = some false ∧ ∀ i, s.pc i = .begun ∨ s.pc i = .done := by
  refine ⟨_, rfl, rfl, rfl, ?_⟩
  intro i
  by_cases first : i = 0
  · subst first
    exact .inr rfl
  · by_cases second : i = 1
    · subst second
      exact .inr rfl
    · exact .inl (by simp [goto, proceed, fresh, first, second])

theorem handover_races : (∃ s : Handover 1 Bool, Reached sampleBlock sampleHash (fun _ _ => True) s ∧
      ∃ b ∈ s.committed, ¬ Delivered sampleBlock sampleHash s b) ∧
    (∃ s : Handover 1 Bool, Reached sampleBlock sampleHash (fun _ _ => True) s ∧ Stalled s) ∧
    ∃ s : Handover 1 Bool, Reached sampleBlock sampleHash (fun _ _ => True) s ∧ s.panicked = true := by
  refine ⟨?_, ?_, ?_⟩
  · obtain ⟨s, ran, committed, returned, enqueued, idle⟩ := lost_block_facts
    refine ⟨s, sample_reached lostBlock s ran, false, committed, ?_⟩
    rintro (given | queued | ⟨i, leaving⟩ | ⟨i, ch, _, _, waits, _⟩)
    · simp [returned] at given
    · simp [enqueued] at queued
    · rcases idle i with begun | done <;> simp_all [SealPc.result]
    · rcases idle i with begun | done <;> simp_all
  · obtain ⟨s, ran, sending, full, idle⟩ := stalled_commit_facts
    refine ⟨s, sample_reached stalledCommit s ran, ⟨0, 1, true, sending, by simp [full]⟩, ?_⟩
    intro i ch receiving
    rcases idle i with begun | done <;> simp_all
  · exact ⟨_, sample_reached nilResult _ rfl, rfl⟩

def takenBlock : List (Action 1 Bool) :=
  restart ++ [.sealLock 0, .sealPublish 0, .sealSelect 0, .commitCall 0 false, .commitCompare 0, .commitChannel 0,
    .commitSend 0, .sealReceive 0]

theorem taken_block_orderly : Along sampleBlock sampleHash (Orderly sampleHash) takenBlock (fresh : Handover 1 Bool) := by
  have waits : ∀ i : Nat, (if i = 0 then SealPc.receiving 1 else .begun : SealPc Bool).published = true →
      (if i = 0 then SealPc.receiving 1 else .begun : SealPc Bool).inLoop = true := by
    intro i
    by_cases first : i = 0 <;> simp [first, SealPc.published]
  simpa [takenBlock, restart, Along, act, fresh, goto, proceed, Orderly, InFlight, CommitPc.carried, Function.update_apply,
    sampleBlock] using waits

theorem committed_block_taken :
    ∃ s : Handover 1 Bool, run sampleBlock sampleHash takenBlock fresh = some s ∧ false ∈ s.committed ∧
      Delivered sampleBlock sampleHash s false ∧ ¬ Stalled s ∧ s.panicked = false := by
  have real : ∀ b, sampleHash b ≠ 0 := by decide
  obtain ⟨s, ran, committed⟩ : ∃ s, run sampleBlock sampleHash takenBlock fresh = some s ∧ false ∈ s.committed :=
    ⟨_, rfl, by decide⟩
  have reached := run_reached sampleBlock sampleHash (Orderly sampleHash) takenBlock fresh s (Runs.reached_start _ _ _ rfl)
    taken_block_orderly ran
  obtain ⟨delivered, free, calm⟩ := committed_blocks_delivered sampleBlock sampleHash real s reached
  exact ⟨s, ran, committed, delivered false committed, free, calm⟩

end Handover

end Didux.Backend
