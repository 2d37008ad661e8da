import Didux.Sport.Types

set_option autoImplicit false

namespace Didux.Sport

-- RequestTimeout is in milliseconds, MaxTimeout in seconds. A time.Duration is an int64 of nanoseconds.
structure TimerConfig where
  requestTimeout : Nat
  maxTimeout : Nat

namespace TimerConfig

def request (config : TimerConfig) : Int := config.requestTimeout * 10 ^ 6
def maximum (config : TimerConfig) : Int := config.maxTimeout * 10 ^ 9

structure Fits (config : TimerConfig) : Prop where
  request : 0 < config.request ∧ config.request < 2 ^ 63
  maximum : 0 < config.maximum ∧ config.maximum < 2 ^ 63

end TimerConfig

section Timer

-- What time.Duration makes of a float64 from 2^63 on.
variable (convert : Nat → Int)

def power (round : Nat) : Int := if round < 63 then 2 ^ round else int64 (convert round)

variable (config : TimerConfig) (round : Nat)

def increasedTimeout : Int :=
  int64 (int64 config.request + int64 (power convert round * 10 ^ 9))

def newRoundChangeTimer : Int :=
  if 0 < uint64 round then
    if int64 config.maximum < increasedTimeout convert config (uint64 round) then int64 config.maximum
    else increasedTimeout convert config (uint64 round)
  else int64 config.request

structure WellTimed (config : TimerConfig) (last : Nat) : Prop where
  positive : ∀ round, 1 ≤ round → round ≤ last → 0 < newRoundChangeTimer convert config round
  least : ∀ round, 1 ≤ round → round ≤ last → min config.request config.maximum ≤ newRoundChangeTimer convert config round
  most : ∀ round, 1 ≤ round → round ≤ last → newRoundChangeTimer convert config round ≤ config.maximum
  mono : ∀ round later, 1 ≤ round → round ≤ later → later ≤ last →
    newRoundChangeTimer convert config round ≤ newRoundChangeTimer convert config later

theorem int64_small (n : Int) (low : -2 ^ 63 ≤ n) (high : n < 2 ^ 63) : int64 n = n :=
  Int.bmod_eq_of_le (by omega) (by omega)

theorem int64_wrapped {n : Int} (low : 2 ^ 63 ≤ n) (high : n < 2 ^ 64) : int64 n = n - 2 ^ 64 := by
  unfold int64
  rw [Int.bmod_def]
  omega

variable {convert} {config : TimerConfig} (fits : config.Fits) {round last : Nat}

include fits

theorem timer_capped (counted : uint64 round = round) (first : 1 ≤ round) :
    newRoundChangeTimer convert config round = min config.maximum (increasedTimeout convert config round) := by
  have maximum := fits.maximum
  rw [newRoundChangeTimer, counted, if_pos (Nat.pos_of_ne_zero (by omega)), int64_small _ (by omega) (by omega)]
  split <;> omega

theorem increased_low (round : Nat) (low : round ≤ 33) :
    increasedTimeout convert config round = int64 (config.request + 2 ^ round * 10 ^ 9) := by
  have request := fits.request
  have bound : (2 : Int) ^ round ≤ 2 ^ 33 := by exact_mod_cast Nat.pow_le_pow_right (by decide) low
  have positive : (0 : Int) < 2 ^ round := by positivity
  rw [increasedTimeout, power, if_pos (by omega), int64_small config.request (by omega) (by omega),
    int64_small (2 ^ round * 10 ^ 9) (by omega) (by omega)]

theorem increased_wrapped : increasedTimeout convert config 34 = config.request - 1266874889709551616 := by
  have request := fits.request
  have product : int64 (2 ^ 34 * 10 ^ 9) = -1266874889709551616 := by decide
  rw [increasedTimeout, power, if_pos (by decide), int64_small config.request (by omega) (by omega),
    int64_small _ (by omega) (by omega)]
  omega

theorem exact_low (exact : config.request + 2 ^ last * 10 ^ 9 < 2 ^ 63) : last ≤ 33 := by
  have request := fits.request
  by_contra high
  have bound : (2 : Int) ^ 34 ≤ 2 ^ last := by exact_mod_cast Nat.pow_le_pow_right (by decide) (by omega : 34 ≤ last)
  omega

-- Up to round 33 a sum that does not fit lies below 2^64, so that it wraps to a negative timeout.
theorem well_timed_low (timed : WellTimed convert config last) (first : 1 ≤ round) (top : round ≤ last) (low : round ≤ 33) :
    config.request + 2 ^ round * 10 ^ 9 < 2 ^ 63 := by
  have request := fits.request
  have positive := timed.positive round first top
  rw [timer_capped fits (Nat.mod_eq_of_lt (by omega)) first, increased_low fits round low] at positive
  by_contra wrapped
  have bound : (2 : Int) ^ round ≤ 2 ^ 33 := by exact_mod_cast Nat.pow_le_pow_right (by decide) low
  rw [int64_wrapped (by omega) (by omega)] at positive
  omega

-- A request timeout for which round 33 fits is too short to make up for the wrap of round 34.
theorem well_timed_exact (timed : WellTimed convert config last) (first : 1 ≤ last) :
    config.request + 2 ^ last * 10 ^ 9 < 2 ^ 63 := by
  by_cases low : last ≤ 33
  · exact well_timed_low fits timed first (Nat.le_refl last) low
  · have small := well_timed_low fits timed (by decide : 1 ≤ 33) (by omega) (by decide)
    have positive := timed.positive 34 (by omega) (by omega)
    rw [timer_capped fits (by decide) (by decide), increased_wrapped fits] at positive
    omega

theorem timer_exact (exact : config.request + 2 ^ last * 10 ^ 9 < 2 ^ 63) (first : 1 ≤ round) (top : round ≤ last) :
    newRoundChangeTimer convert config round = min config.maximum (config.request + 2 ^ round * 10 ^ 9) := by
  have request := fits.request
  have low := exact_low fits exact
  have bound : (2 : Int) ^ round ≤ 2 ^ last := by exact_mod_cast Nat.pow_le_pow_right (by decide) top
  have positive : (0 : Int) < 2 ^ round := by positivity
  rw [timer_capped fits (Nat.mod_eq_of_lt (by omega)) first, increased_low fits round (by omega),
    int64_small _ (by omega) (by omega)]

theorem timeouts_well_timed_iff (last : Nat) :
    WellTimed convert config last ↔ last = 0 ∨ config.request + 2 ^ last * 10 ^ 9 < 2 ^ 63 := by
  have request := fits.request
  have maximum := fits.maximum
  constructor
  · intro timed
    rcases Nat.eq_zero_or_pos last with none | first
    · exact .inl none
    · exact .inr (well_timed_exact fits timed first)
  · rintro (rfl | exact)
    · exact ⟨by omega, by omega, by omega, by omega⟩
    · have least : ∀ round, 1 ≤ round → round ≤ last →
          min config.request config.maximum ≤ newRoundChangeTimer convert config round := by
        intro round first top
        have positive : (0 : Int) < 2 ^ round := by positivity
        rw [timer_exact fits exact first top]
        omega
      refine ⟨fun round first top => ?_, least, fun round first top => ?_, fun round later first next top => ?_⟩
      · have := least round first top
        omega
      · rw [timer_exact fits exact first top]
        exact min_le_left _ _
      · have bound : (2 : Int) ^ round ≤ 2 ^ later := by exact_mod_cast Nat.pow_le_pow_right (by decide) next
        rw [timer_exact fits exact first (by omega), timer_exact fits exact (by omega) top]
        exact min_le_min_left _ (by omega)

end Timer

def defaultTimeouts : TimerConfig := ⟨10000, 60⟩

theorem default_timeouts_fit : defaultTimeouts.Fits := ⟨by decide, by decide⟩

-- The timeouts that the node starts with are well timed through round 33.
theorem default_timeouts_well_timed : WellTimed (fun _ => 0) defaultTimeouts 33 :=
  (timeouts_well_timed_iff default_timeouts_fit 33).mpr (.inr (by decide))

-- In round 34 the timer fires at once.
theorem default_timeout_negative : newRoundChangeTimer (fun _ => 0) defaultTimeouts 34 = -1266874879709551616 := by decide

end Didux.Sport
