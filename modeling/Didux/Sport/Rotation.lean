import Didux.Sport.FullnodeSet

set_option autoImplicit false

namespace Didux.Sport

open List

namespace FullnodeSet

def following (set : FullnodeSet) (last : Address) : Option Address := set.getByIndex ((set.fullnodes.idxOf last + 1) % set.size)

-- The seed of roundRobinSpeaker as a number of any size.
def seed (set : FullnodeSet) (last : Address) (round : Nat) : Nat :=
  if emptyAddress last then round else (if last ∈ set.fullnodes then set.fullnodes.idxOf last else 0) + round + 1

structure Rotates (set : FullnodeSet) (last : Address) : Prop where
  one : ∀ round, ∃! a, a ∈ set.fullnodes ∧ (set.calcSpeaker last round).isSpeaker a = true
  next : last ∈ set.fullnodes → set.seed last 0 < 2 ^ 64 → (set.calcSpeaker last 0).speaker = set.following last
  each : ∀ start, (∀ k < set.size, set.seed last (start + k) < 2 ^ 64) →
    ((range set.size).map fun k => (set.calcSpeaker last (start + k)).speaker).Perm (set.fullnodes.map some)

variable {set : FullnodeSet} {last : Address}

theorem is_speaker_iff (a : Address) :
    set.isSpeaker a = true ↔ (set.speaker = some a ∧ a ∈ set.fullnodes) ∨ (set.speaker = none ∧ a ∉ set.fullnodes) := by
  by_cases member : a ∈ set.fullnodes
  · simp [isSpeaker, getByAddress, member]
  · simp [isSpeaker, getByAddress, member]

theorem seed_shift (start k : Nat) : set.seed last (start + k) = set.seed last start + k := by
  unfold seed
  split
  · rfl
  · omega

theorem round_robin_seed (last : Address) (filled : set.size ≠ 0) (round : Nat) (exact : set.seed last round < 2 ^ 64) :
    roundRobinSpeaker set last round = set.getByIndex (set.seed last round % set.size) := by
  rw [roundRobinSpeaker, if_neg filled]
  unfold seed at exact ⊢
  split at exact
  · simp_all
  · rename_i named
    have offset : calcSeed set last round = uint64 ((if last ∈ set.fullnodes then set.fullnodes.idxOf last else 0) + round) := by
      by_cases member : last ∈ set.fullnodes
      · simp [calcSeed, getByAddress, member]
      · simp [calcSeed, getByAddress, member]
    simp only [offset, uint64]
    rw [Nat.mod_eq_of_lt (Nat.lt_of_succ_lt exact), Nat.mod_eq_of_lt exact]

theorem round_robin_member (last : Address) (filled : set.size ≠ 0) (round : Nat) :
    ∃ a ∈ set.fullnodes, roundRobinSpeaker set last round = some a := by
  rw [roundRobinSpeaker, if_neg filled]
  have inside := Nat.mod_lt (if emptyAddress last then round else uint64 (calcSeed set last round + 1)) (Nat.pos_of_ne_zero filled)
  exact ⟨_, getElem_mem inside, getElem?_eq_getElem inside⟩

theorem rotates_one (filled : set.size ≠ 0) (round : Nat) :
    ∃! a, a ∈ set.fullnodes ∧ (set.calcSpeaker last round).isSpeaker a = true := by
  obtain ⟨a, member, picked⟩ := round_robin_member last filled round
  refine ⟨a, ⟨member, is_speaker_iff _ |>.mpr (.inl ⟨picked, member⟩)⟩, ?_⟩
  rintro b ⟨_, speaks⟩
  obtain ⟨chosen, _⟩ | ⟨absent, _⟩ := (is_speaker_iff b).mp speaks
  · exact Option.some.inj (chosen.symm.trans picked)
  · exact nomatch absent.symm.trans picked

theorem rotates_each (filled : set.size ≠ 0) (start : Nat) (exact : ∀ k < set.size, set.seed last (start + k) < 2 ^ 64) :
    ((range set.size).map fun k => (set.calcSpeaker last (start + k)).speaker).Perm (set.fullnodes.map some) := by
  have turned : ((range set.size).map fun k => (set.calcSpeaker last (start + k)).speaker) =
      (set.fullnodes.rotate (set.seed last start)).map some := by
    apply ext_getElem?
    intro k
    by_cases inside : k < set.size
    · have picked := round_robin_seed last filled (start + k) (exact k inside)
      rw [getElem?_map, getElem?_map, getElem?_range inside, getElem?_rotate inside]
      have bound := Nat.mod_lt (k + set.seed last start) (Nat.pos_of_ne_zero filled)
      rw [seed_shift, Nat.add_comm (set.seed last start) k, getByIndex] at picked
      change some (roundRobinSpeaker set last (start + k)) = set.fullnodes[(k + set.seed last start) % set.size]?.map some
      rw [picked, getElem?_eq_getElem bound]
      rfl
    · have left : ((range set.size).map fun k => (set.calcSpeaker last (start + k)).speaker).length ≤ k := by simp; omega
      have right : ((set.fullnodes.rotate (set.seed last start)).map some).length ≤ k := by simp; exact Nat.not_lt.mp inside
      rw [getElem?_eq_none left, getElem?_eq_none right]
  rw [turned]
  exact (rotate_perm _ _).map some

-- The zero address counts as no proposer, and a set without a speaker takes everyone outside of it for the speaker.
theorem speaker_rotation_iff (set : FullnodeSet) (last : Address) :
    ((set.size ≠ 0 → set.Rotates last) ∧ ∀ a, set.isSpeaker a = true → a ∈ set.fullnodes) ↔
      (last = 0 → last ∈ set.fullnodes → set.getByIndex 0 = set.following last) ∧
        (set.speaker ≠ none ∨ ∀ a, a ∈ set.fullnodes) := by
  constructor
  · rintro ⟨rotates, members⟩
    constructor
    · rintro rfl member
      have filled : set.size ≠ 0 := length_pos_of_mem member |>.ne'
      have picked := round_robin_seed 0 filled 0 (by simp [seed, emptyAddress])
      rw [← (rotates filled).next member (by simp [seed, emptyAddress]), calcSpeaker, picked]
      simp [seed, emptyAddress]
    · by_contra neither
      obtain ⟨silent, a, outside⟩ : set.speaker = none ∧ ∃ a, a ∉ set.fullnodes := by simpa using neither
      exact outside (members a ((is_speaker_iff a).mpr (.inr ⟨silent, outside⟩)))
  · rintro ⟨zero, speaking⟩
    refine ⟨fun filled => ⟨rotates_one filled, fun member exact => ?_, rotates_each filled⟩, fun a speaks => ?_⟩
    · by_cases empty : last = 0
      · rw [← zero empty member, calcSpeaker, round_robin_seed last filled 0 exact]
        simp [seed, emptyAddress, empty]
      · have named : emptyAddress last = false := by simpa [emptyAddress] using empty
        rw [calcSpeaker, round_robin_seed last filled 0 exact, following]
        simp [seed, named, member]
    · obtain ⟨_, member⟩ | ⟨silent, outside⟩ := (is_speaker_iff a).mp speaks
      · exact member
      · obtain named | everyone := speaking
        · exact absurd silent named
        · exact everyone a

theorem empty_set_speakers : ((newFullnodeSet (fun a => Nat.toDigits 16 a.toNat) [] 0).calcSpeaker 1 0).isSpeaker 2 = true ∧
      2 ∉ (newFullnodeSet (fun a => Nat.toDigits 16 a.toNat) [] 0).fullnodes :=
  ⟨rfl, not_mem_nil⟩

end FullnodeSet

end Didux.Sport
