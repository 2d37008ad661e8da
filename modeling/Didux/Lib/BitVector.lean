import Mathlib.Data.Nat.Bitwise
import Mathlib.Data.List.Basic

set_option autoImplicit false

namespace Didux.BitVector

open List

-- The bits of a vector of bytes, the highest bit of each byte first.
def mask (i : Nat) : UInt8 := 1 <<< UInt8.ofNat (7 - i % 8)

def setBit (v : List UInt8) (i : Nat) : List UInt8 := v.modify (i / 8) (· ||| mask i)

def testBit (v : List UInt8) (i : Nat) : Bool := v.getD (i / 8) 0 &&& mask i != 0

def bits (v : List UInt8) : List Bool := (range (8 * v.length)).map (testBit v)

variable {v : List UInt8} {i j : Nat}

theorem test_mask (b : UInt8) : (b &&& mask i != 0) = b.toNat.testBit (7 - i % 8) := by
  have all : ∀ (b : BitVec 8) (k : Fin 8), (UInt8.ofBitVec b &&& (1 <<< UInt8.ofNat k) != 0) = b.toNat.testBit k := by
    decide +kernel
  exact all b.toBitVec ⟨7 - i % 8, by omega⟩

theorem mask_test : (mask i).toNat.testBit (7 - j % 8) = decide (i % 8 = j % 8) := by
  have all : ∀ k l : Fin 8, (1 <<< UInt8.ofNat (7 - k) : UInt8).toNat.testBit (7 - l) = decide (k.val = l) := by
    decide
  exact all ⟨i % 8, by omega⟩ ⟨j % 8, by omega⟩

theorem test_set (inside : i < 8 * v.length) : testBit (setBit v i) j = if i = j then true else testBit v j := by
  simp only [testBit, test_mask, setBit, getD_eq_getElem?_getD, getElem?_modify]
  by_cases here : i / 8 = j / 8
  · have found : j / 8 < v.length := by omega
    have same : i = j ↔ i % 8 = j % 8 := by omega
    by_cases bit : i % 8 = j % 8 <;> simp [here, found, mask_test, same, bit]
  · have apart : i ≠ j := fun same => here (by rw [same])
    cases v[j / 8]? <;> simp [here, apart]

@[simp] theorem length_set : (setBit v i).length = v.length := by
  simp [setBit]

@[simp] theorem length_bits : (bits v).length = 8 * v.length := by
  simp [bits]

theorem bits_set (inside : i < 8 * v.length) : bits (setBit v i) = (bits v).set i true := by
  refine ext_getElem (by simp) fun j _ _ => ?_
  simp [bits, test_set inside, getElem_set]

theorem bits_zero (n : Nat) : bits (replicate n 0) = replicate (8 * n) false := by
  refine ext_getElem (by simp) fun j _ _ => ?_
  by_cases inside : j / 8 < n <;> simp [bits, testBit, inside]

end Didux.BitVector
