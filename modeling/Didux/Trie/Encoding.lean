import Didux.Lib.Radix
import Didux.Sport.Types

set_option autoImplicit false

namespace Didux.Trie

open Sport Radix List

instance nonzero : NeZero 17 := ⟨by decide⟩

-- Hex keys are lists of nibbles; the seventeenth symbol, 16, is the terminator.
abbrev Hex := Word 16

def high (b : UInt8) : Fin 17 := ⟨b.toNat / 16, by have := b.toNat_lt; omega⟩
def low (b : UInt8) : Fin 17 := ⟨b.toNat % 16, by omega⟩

def nibble (s : Fin 17) : UInt8 := UInt8.ofNat s.val

def nibbles (str : Bytes) : Hex := str.flatMap fun b => [high b, low b]

def keybytesToHex (str : Bytes) : Hex := nibbles str ++ [16]

def hasTerm (s : Hex) : Bool := s.getLast? = some 16

def decodeNibbles : Hex → Bytes
  | a :: b :: rest => (nibble a <<< 4 ||| nibble b) :: decodeNibbles rest
  | _ => []

-- The flag byte holds the terminator and the parity; with an odd number of nibbles it holds the first one too.
def hexToCompact (hex : Hex) : Bytes :=
  let terminator : UInt8 := if hasTerm hex then 1 else 0
  let hex := if hasTerm hex then hex.dropLast else hex
  if hex.length % 2 = 1 then (terminator <<< 5 ||| (1 : UInt8) <<< 4 ||| nibble (hex.headD 0)) :: decodeNibbles hex.tail
  else terminator <<< 5 :: decodeNibbles hex

def compactToHex : Bytes → Hex
  | [] => []
  | flag :: rest => let base := keybytesToHex (flag :: rest)
    let base := if (high flag).val < 2 then base.dropLast else base
    base.drop (2 - (high flag).val % 2)

theorem high_plain (b : UInt8) : high b ≠ Fin.last 16 := by
  have bound := b.toNat_lt
  intro same
  have value : b.toNat / 16 = 16 := congrArg Fin.val same
  omega

theorem low_plain (b : UInt8) : low b ≠ Fin.last 16 := by
  intro same
  have value : b.toNat % 16 = 16 := congrArg Fin.val same
  omega

theorem nibbles_plain (str : Bytes) : Plain (nibbles str) := by
  intro s member
  obtain ⟨b, _, here⟩ := mem_flatMap.mp member
  rcases mem_pair.mp here with rfl | rfl
  · exact high_plain b
  · exact low_plain b

theorem keybytes_terminated (str : Bytes) : Terminated (keybytesToHex str) :=
  (terminated_append _ _ (nibbles_plain str)).mpr .stop

theorem byte_injective (a b : UInt8) (above : high a = high b) (below : low a = low b) : a = b := by
  have first : a.toNat / 16 = b.toNat / 16 := congrArg Fin.val above
  have second : a.toNat % 16 = b.toNat % 16 := congrArg Fin.val below
  exact UInt8.toNat_inj.mp (by omega)

theorem keybytes_injective (a b : Bytes) (same : keybytesToHex a = keybytesToHex b) : a = b := by
  have equal : nibbles a = nibbles b := append_cancel_right same
  induction a generalizing b with
  | nil =>
    cases b with
    | nil => rfl
    | cons y b => simp [nibbles] at equal
  | cons x a ih =>
    cases b with
    | nil => simp [nibbles] at equal
    | cons y b =>
      simp only [nibbles, flatMap_cons, cons_append, cons.injEq] at equal
      obtain ⟨above, below, rest⟩ := equal
      rw [byte_injective x y above below, ih b (congrArg (· ++ [16]) rest) rest]

theorem high_pair (a b : Fin 17) (first : a ≠ Fin.last 16) (second : b ≠ Fin.last 16) :
    high (nibble a <<< 4 ||| nibble b) = a ∧ low (nibble a <<< 4 ||| nibble b) = b := by
  revert a b
  decide

variable (hex : Hex)

theorem nibbles_decode (even : hex.length % 2 = 0) (plain : Plain hex) : nibbles (decodeNibbles hex) = hex := by
  fun_induction decodeNibbles hex with
  | case1 a b rest ih =>
    obtain ⟨first, second⟩ := high_pair a b (plain a (by simp)) (plain b (by simp))
    have tail := ih (by simp only [length_cons] at even; omega) fun s member => plain s (by simp [member])
    simp only [nibbles, flatMap_cons, first, second]
    exact congrArg (fun rest => a :: b :: rest) tail
  | case2 hex short =>
    match hex with
    | [] => rfl
    | a :: b :: rest => exact absurd rfl (short a b rest)

variable (t : Bool)

theorem flag_even :
    high ((if t then 1 else 0 : UInt8) <<< 5) = (if t then 2 else 0) ∧ low ((if t then 1 else 0 : UInt8) <<< 5) = 0 := by
  revert t
  decide

theorem flag_odd (a : Fin 17) (plain : a ≠ Fin.last 16) :
    high ((if t then 1 else 0 : UInt8) <<< 5 ||| (1 : UInt8) <<< 4 ||| nibble a) = (if t then 3 else 1) ∧
      low ((if t then 1 else 0 : UInt8) <<< 5 ||| (1 : UInt8) <<< 4 ||| nibble a) = a := by
  revert t a
  decide

def ending (t : Bool) : Hex := if t then [16] else []

theorem has_term_ending (plain : Plain hex) : hasTerm (hex ++ ending t) = t := by
  cases t with
  | true => simp [hasTerm, ending]
  | false =>
    have last : ¬ hex.getLast? = some 16 := fun found => plain 16 (mem_of_getLast? found) rfl
    simpa [hasTerm, ending] using last

theorem drop_last_flagged (a : Fin 17) (hex : Hex) : (a :: (hex ++ [16])).dropLast = a :: hex := by
  rw [← cons_append, dropLast_concat]

theorem compact_ending (plain : Plain hex) :
    compactToHex (hexToCompact (hex ++ ending t)) = hex ++ ending t := by
  have stripped : (if hasTerm (hex ++ ending t) then (hex ++ ending t).dropLast else hex ++ ending t) = hex := by
    rw [has_term_ending hex t plain]
    cases t <;> simp [ending]
  rw [hexToCompact, stripped, has_term_ending hex t plain]
  by_cases odd : hex.length % 2 = 1
  · rw [if_pos odd]
    match hex with
    | first :: rest =>
      have even : rest.length % 2 = 0 := by
        simp only [length_cons] at odd
        omega
      have tail := nibbles_decode rest even fun s member => plain s (by simp [member])
      obtain ⟨flag, digit⟩ := flag_odd t first (plain first (by simp))
      have base (b : UInt8) : keybytesToHex (b :: decodeNibbles rest) = high b :: low b :: (rest ++ [16]) := by
        rw [keybytesToHex, nibbles, flatMap_cons, ← nibbles, tail]
        rfl
      rw [headD_cons, tail_cons, compactToHex, base, flag, digit]
      cases t with
      | true => simp [ending]
      | false => simp [ending, drop_last_flagged]
  · rw [if_neg odd]
    have base (b : UInt8) : keybytesToHex (b :: decodeNibbles hex) = high b :: low b :: (hex ++ [16]) := by
      rw [keybytesToHex, nibbles, flatMap_cons, ← nibbles, nibbles_decode hex (by omega) plain]
      rfl
    rw [compactToHex, base, (flag_even t).1]
    cases t with
    | true => simp [ending]
    | false => simp [ending, drop_last_flagged]

theorem terminated_ending {hex : Hex} (key : Terminated hex) : ∃ p, Plain p ∧ hex = p ++ ending true := by
  induction key with
  | stop => exact ⟨[], nofun, rfl⟩
  | @cons s w plain rest ih =>
    obtain ⟨p, before, rfl⟩ := ih
    exact ⟨s :: p, forall_mem_cons.mpr ⟨plain, before⟩, rfl⟩

theorem compact_terminated {hex : Hex} (key : Terminated hex) : compactToHex (hexToCompact hex) = hex ∧ hasTerm hex = true := by
  obtain ⟨p, plain, rfl⟩ := terminated_ending key
  exact ⟨compact_ending p true plain, has_term_ending p true plain⟩

theorem compact_plain {hex : Hex} (plain : Plain hex) : compactToHex (hexToCompact hex) = hex ∧ hasTerm hex = false := by
  have whole := compact_ending hex false plain
  have open_ := has_term_ending hex false plain
  rw [ending, if_neg Bool.false_ne_true, append_nil] at whole open_
  exact ⟨whole, open_⟩

end Didux.Trie
