import Didux.Backend.CommittedSeals

set_option autoImplicit false

namespace Didux.Backend

open Sport List Plain

section Chain

variable {codec : Codec}

structure Visit (codec : Codec) where
  node : Node codec
  caches : Caches
  parents : List Header
  header : Header

namespace Visit

structure Accepted (visit : Visit codec) : Prop where
  passed : ∃ done, visit.node.verifyHeader visit.caches visit.header visit.parents = .ok done
  clock : visit.node.now < 2 ^ 63
  time : visit.header.time < 2 ^ 64

variable (before visit : Visit codec)

def Extends : Prop :=
  visit.node.parentOf visit.header visit.parents = some before.header ∧ visit.node.config.blockPeriod = before.node.config.blockPeriod

def After : Prop := before.header.time + visit.node.config.blockPeriod ≤ visit.header.time

def Summed : Prop :=
  (uint64 visit.header.number ≠ 0 → before.header.time + visit.node.config.blockPeriod < 2 ^ 64) ∧
    (uint64 visit.header.number = 0 → before.After visit)

theorem standalone_clock (visit : Visit codec) (accepted : visit.Accepted) :
    visit.header.time ≤ visit.node.now ↔ visit.header.time < 2 ^ 63 := by
  obtain ⟨done, passed⟩ := accepted.passed
  have clock := accepted.clock
  refine ⟨fun early => by omega, fun small => ?_⟩
  by_contra late
  have future : visit.node.verifyStandalone visit.header = .error .futureBlock := if_pos ⟨by omega, small⟩
  rw [Node.verifyHeader, future] at passed
  cases passed

theorem after_iff_summed (accepted : visit.Accepted) (linked : before.Extends visit) :
    before.After visit ↔ before.Summed visit := by
  obtain ⟨done, passed⟩ := accepted.passed
  have bound := accepted.time
  by_cases zero : uint64 visit.header.number = 0
  · exact ⟨fun after => ⟨fun other => absurd zero other, fun _ => after⟩, fun summed => summed.2 zero⟩
  · have checked : uint64 (before.header.time + visit.node.config.blockPeriod) ≤ visit.header.time := by
      by_contra early
      rw [Node.verifyHeader] at passed
      split at passed
      · cases passed
      · simp only [Node.verifyCascadingFields, linked.1] at passed
        split_ifs at passed with unlinked
        · exact early (Nat.not_lt.mp ‹_›)
    unfold After Summed uint64 at *
    omega

end Visit

structure Timely (period : Nat) (visits : List (Visit codec)) : Prop where
  clock : ∀ visit ∈ visits, visit.header.time ≤ visit.node.now
  apart : ∀ i j (before visit : Visit codec), i ≤ j → visits[i]? = some before → visits[j]? = some visit →
    before.header.time + (j - i) * period ≤ visit.header.time

variable (period : Nat) (visits : List (Visit codec))

variable (config : ∀ visit ∈ visits, visit.node.config.blockPeriod = period)

include config

theorem apart_of_after (after : visits.IsChain Visit.After) (i k : Nat) (before visit : Visit codec)
    (here : visits[i]? = some before) (there : visits[i + k]? = some visit) :
    before.header.time + k * period ≤ visit.header.time := by
  induction k generalizing visit with
  | zero =>
    cases Option.some.inj (here.symm.trans there)
    omega
  | succ k ih =>
    obtain ⟨bound, same⟩ := List.getElem?_eq_some_iff.mp there
    have step := isChain_iff_getElem.mp after (i + k) bound
    have earlier := ih visits[i + k] (getElem?_eq_getElem _)
    unfold Visit.After at step
    have paced : visits[i + k + 1].node.config.blockPeriod = period := config _ (getElem_mem bound)
    have last : visits[i + k + 1] = visit := same
    rw [paced, last] at step
    rw [Nat.succ_mul]
    omega

theorem after_of_apart
    (apart : ∀ i j (before visit : Visit codec), i ≤ j → visits[i]? = some before → visits[j]? = some visit →
      before.header.time + (j - i) * period ≤ visit.header.time) :
    visits.IsChain Visit.After := by
  refine isChain_iff_getElem.mpr fun i bound => ?_
  have gap := apart i (i + 1) _ _ (by omega) (getElem?_eq_getElem (by omega)) (getElem?_eq_getElem bound)
  rw [Nat.add_sub_cancel_left, Nat.one_mul] at gap
  unfold Visit.After
  rw [config _ (getElem_mem bound)]
  exact gap

omit config

theorem chain_timely_iff (config : ∀ visit ∈ visits, visit.node.config.blockPeriod = period)
    (accepted : ∀ visit ∈ visits, visit.Accepted) (linked : visits.IsChain Visit.Extends) :
    Timely period visits ↔ (∀ visit ∈ visits, visit.header.time < 2 ^ 63) ∧ visits.IsChain Visit.Summed := by
  have same : visits.IsChain Visit.After ↔ visits.IsChain Visit.Summed := by
    rw [isChain_iff_getElem, isChain_iff_getElem]
    refine forall_congr' fun i => forall_congr' fun bound => ?_
    exact Visit.after_iff_summed _ _ (accepted _ (getElem_mem bound)) (isChain_iff_getElem.mp linked i bound)
  constructor
  · rintro ⟨clock, apart⟩
    exact ⟨fun visit there => (Visit.standalone_clock visit (accepted visit there)).mp (clock visit there),
      same.mp (after_of_apart period visits config apart)⟩
  · rintro ⟨small, summed⟩
    refine ⟨fun visit there => (Visit.standalone_clock visit (accepted visit there)).mpr (small visit there), ?_⟩
    intro i j before visit order here there
    rw [show j = i + (j - i) by omega] at there
    exact apart_of_after period visits config (same.mpr summed) i (j - i) before visit here there

end Chain

namespace Plain

def visit (time : Nat) : Visit codec := ⟨node [1] 1, ⟨∅, ∅⟩, [], approvedBy [1] time⟩

-- The header on top of the first one, verified with it in one batch.
def childVisit (time : Nat) : Visit codec where
  node := node [1] 1
  caches := ⟨∅, ∅⟩
  parents := [(visit 50).header]
  header := { header 257 2 0 1 0 0 with
    time := time
    extra := replicate 32 0 ++ encodeExtra ⟨[], signedBy 1 (hashBytes 513), [signedBy 1 (prepareCommittedSeal 513)]⟩ }

theorem passed_accepted (visit : Visit codec) (clock : visit.node.now < 2 ^ 63) (bound : visit.header.time < 2 ^ 64)
    (passed : (visit.node.verifyHeader visit.caches visit.header visit.parents).isOk = true) : visit.Accepted := by
  refine ⟨?_, clock, bound⟩
  cases verdict : visit.node.verifyHeader visit.caches visit.header visit.parents with
  | error e => rw [verdict] at passed; cases passed
  | ok done => exact ⟨done, rfl⟩

end Plain

theorem two_headers_timely : Timely 1 [visit 50, childVisit 60] := by
  have first : (visit 50).Accepted := passed_accepted _ (by decide) (by decide) (by decide +kernel)
  have second : (childVisit 60).Accepted := passed_accepted _ (by decide) (by decide) (by decide +kernel)
  apply (chain_timely_iff 1 [visit 50, childVisit 60] (by simp [visit, childVisit, node]) (by simp [first, second]) ?_).mpr
  · exact ⟨by simp [visit, childVisit, approvedBy], isChain_pair.mpr ⟨by decide, fun _ => show 50 + 1 ≤ 60 by decide⟩⟩
  · exact isChain_pair.mpr ⟨rfl, rfl⟩

-- At the clock value 100 the node accepts a header of the year 292277026596.
theorem far_future_accepted : (visit (2 ^ 63)).Accepted ∧ (visit (2 ^ 63)).node.now = 100 ∧
    (visit (2 ^ 63)).header.time = 2 ^ 63 :=
  ⟨passed_accepted _ (by decide) (by decide) (by decide +kernel), rfl, rfl⟩

end Didux.Backend
