import Didux.Lib.BitVector
import Didux.Sport.Types

set_option autoImplicit false

namespace Didux.Filters

open Sport BitVector List

-- The vectors of the bloom index are stored without their zero bytes, under a bitset of the others that is stored the same way.
inductive DecompressError where
  | missingData
  | unreferencedData
  | exceededTarget
  | zeroContent

-- The loop over the bytes, with the index of the first of them.
def setNonZero : Bytes → Nat → Bytes → Bytes
  | [], _, marks => marks
  | b :: data, i, marks => setNonZero data (i + 1) (if b != 0 then setBit marks i else marks)

def nonZeroBitset (data : Bytes) : Bytes := setNonZero data 0 (replicate ((data.length + 7) / 8) 0)

def nonZeroBytes (data : Bytes) : Bytes := data.filter (· != 0)

theorem set_non_zero (data : Bytes) (before : List Bool) (marks : Bytes) (k : Nat) (fits : data.length ≤ k)
    (holds : bits marks = before ++ replicate k false) :
    bits (setNonZero data before.length marks) = before ++ data.map (· != 0) ++ replicate (k - data.length) false := by
  induction data generalizing before marks k with
  | nil => simpa [setNonZero] using holds
  | cons b data ih =>
    obtain ⟨k, rfl⟩ : ∃ n, k = n + 1 := ⟨k - 1, by simp at fits; omega⟩
    have next : bits (if b != 0 then setBit marks before.length else marks) = before ++ [b != 0] ++ replicate k false := by
      have length := congrArg List.length holds
      have inside : before.length < 8 * marks.length := by simp at length; omega
      cases b != 0 <;> simp [bits_set inside, holds, replicate_succ]
    simpa [setNonZero] using ih (before ++ [b != 0]) _ k (by simpa using fits) next

theorem bits_non_zero (data : Bytes) :
    bits (nonZeroBitset data) = data.map (· != 0) ++ replicate (8 * ((data.length + 7) / 8) - data.length) false :=
  set_non_zero data [] _ _ (by omega) (bits_zero _)

theorem length_non_zero (data : Bytes) : (nonZeroBitset data).length = (data.length + 7) / 8 := by
  have length := congrArg List.length (bits_non_zero data)
  simp only [length_bits, length_append, length_map, length_replicate] at length
  omega

-- At most one byte stays, unless it is zero.
def bitsetEncodeBytes (data : Bytes) : Bytes :=
  if data.length ≤ 1 then nonZeroBytes data
  else if nonZeroBytes data = [] then []
  else bitsetEncodeBytes (nonZeroBitset data) ++ nonZeroBytes data
termination_by data.length
decreasing_by rw [length_non_zero]; omega

def distribute : List Bool → Nat → Bytes → Except DecompressError (Bytes × Bytes)
  | [], target, data => .ok (replicate target 0, data)
  | false :: marks, 0, data => distribute marks 0 data
  | false :: marks, target + 1, data => (distribute marks target data).map fun (out, rest) => (0 :: out, rest)
  | true :: _, _, [] => .error .missingData
  | true :: _, 0, _ :: _ => .error .exceededTarget
  | true :: marks, target + 1, b :: data =>
    if b = 0 then .error .zeroContent else (distribute marks target data).map fun (out, rest) => (b :: out, rest)

-- The rest of the input stands for the length that was read.
def bitsetDecodePartialBytes (data : Bytes) (target : Nat) : Except DecompressError (Bytes × Bytes) :=
  match data with
  | [] => .ok (replicate target 0, [])
  | b :: rest =>
    if target = 0 then .ok ([], data)
    else if target = 1 then .ok ([b], if b != 0 then rest else data)
    else (bitsetDecodePartialBytes data ((target + 7) / 8)).bind fun (marks, data) => distribute (bits marks) target data
termination_by target

def bitsetDecodeBytes (data : Bytes) (target : Nat) : Except DecompressError Bytes :=
  (bitsetDecodePartialBytes data target).bind fun (out, rest) => if rest = [] then .ok out else .error .unreferencedData

def compressBytes (data : Bytes) : Bytes :=
  let out := bitsetEncodeBytes data
  if out.length < data.length then out else data

def decompressBytes (data : Bytes) (target : Nat) : Except DecompressError Bytes :=
  if target < data.length then .error .exceededTarget
  else if data.length = target then .ok data
  else bitsetDecodeBytes data target

theorem distribute_marks (out rest : Bytes) (k : Nat) :
    distribute (out.map (· != 0) ++ replicate k false) out.length (nonZeroBytes out ++ rest) = .ok (out, rest) := by
  induction out with
  | nil => induction k with
    | zero => rfl
    | succ k ih => exact ih
  | cons b out ih =>
    by_cases zero : b = 0
    · simpa [zero, nonZeroBytes, distribute, Except.map] using congrArg (Except.map fun x => (0 :: x.1, x.2)) ih
    · have set : (b != 0) = true := by simpa using zero
      simpa [set, zero, nonZeroBytes, distribute, Except.map] using congrArg (Except.map fun x => (b :: x.1, x.2)) ih

theorem zero_bytes {data : Bytes} (zero : nonZeroBytes data = []) : data = replicate data.length 0 :=
  eq_replicate_length.mpr fun b member => by simpa using filter_eq_nil_iff.mp zero b member

-- A vector with a byte other than zero keeps one in its bitset, so that the decoding of the bitset stops where it ends.
theorem marks_some {data : Bytes} (nonzero : nonZeroBytes data ≠ []) : nonZeroBytes (nonZeroBitset data) ≠ [] := by
  intro zero
  have none := bits_non_zero data
  rw [zero_bytes zero, bits_zero] at none
  refine nonzero (filter_eq_nil_iff.mpr fun b member marked => ?_)
  have listed : true ∈ replicate (8 * (nonZeroBitset data).length) false := by
    rw [none]
    exact mem_append_left _ (mem_map.mpr ⟨b, member, marked⟩)
  simp at listed

theorem decode_encode (out rest : Bytes) (ends : nonZeroBytes out = [] → rest = []) :
    bitsetDecodePartialBytes (bitsetEncodeBytes out ++ rest) out.length = .ok (out, rest) := by
  fun_induction bitsetEncodeBytes out generalizing rest with
  | case1 out short =>
    match out with
    | [] => simp [ends rfl, nonZeroBytes, bitsetDecodePartialBytes]
    | [b] =>
      by_cases zero : b = 0
      · simp [ends (by simp [zero, nonZeroBytes]), zero, nonZeroBytes, bitsetDecodePartialBytes]
      · simp [zero, nonZeroBytes, bitsetDecodePartialBytes]
  | case2 out long zero =>
    rw [ends zero, append_nil, bitsetDecodePartialBytes, ← zero_bytes zero]
  | case3 out long nonzero ih =>
    have inner := ih (nonZeroBytes out ++ rest) fun zero => absurd zero (marks_some nonzero)
    rw [append_assoc]
    obtain ⟨b, data, split⟩ := exists_cons_of_ne_nil
      (show bitsetEncodeBytes (nonZeroBitset out) ++ (nonZeroBytes out ++ rest) ≠ [] by simp [nonzero])
    rw [length_non_zero, split] at inner
    rw [split, bitsetDecodePartialBytes, if_neg (by omega), if_neg (by omega), inner]
    exact (congrArg (distribute · _ _) (bits_non_zero out)).trans (distribute_marks out rest _)

theorem compress_round_trip (data : Bytes) :
    decompressBytes (compressBytes data) data.length = .ok data ∧ (compressBytes data).length ≤ data.length := by
  have whole := decode_encode data [] fun _ => rfl
  rw [append_nil] at whole
  dsimp only [compressBytes]
  split
  · next shorter => simp [decompressBytes, bitsetDecodeBytes, whole, Except.bind, shorter.not_gt, shorter.ne, shorter.le]
  · simp [decompressBytes]

end Didux.Filters
