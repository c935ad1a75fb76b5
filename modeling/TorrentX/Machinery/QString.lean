import TorrentX.Machinery.Numerals
import TorrentX.Machinery.Wire

/-!
# Machinery/QString — texts as rows of UTF-16 units

What the size of a `QString` counts, and what a subscript of it reads, is a unit of sixteen bits.  A
character of the basic plane is one unit; any other is two, a high surrogate and a low one.  So a
position in such a text is not a position among its characters.

Numbers are written in plain digits, one unit each, and are read back (`toInt_number`).
-/

/-- A row of UTF-16 units. -/
abbrev QString := List UInt16

namespace QString

open Numerals

/-! ## Plain texts

A plain text has no character outside the basic plane; such a text and its row of units have one
length, and position by position they say the same. -/

/-- `QChar` of a plain character. -/
def unit (c : Char) : UInt16 := UInt16.ofNat c.toNat

/-- A text of plain characters. -/
def ofText (s : Text) : QString := s.map unit

/-- A literal of plain characters. -/
def of (s : String) : QString := ofText s.toList

/-- The character of a unit that is no surrogate. -/
def char (u : UInt16) : Char := Char.ofNat u.toNat

theorem char_unit {c : Char} (h : c.toNat < 2 ^ 16) : char (unit c) = c := by
  rw [char, unit, UInt16.toNat_ofNat', Nat.mod_eq_of_lt h, Char.ofNat_toNat]

/-! ## UTF-8

A surrogate without its other half has no encoding; a question mark stands for it. -/

/-- The first half of a pair. -/
def isHigh (u : UInt16) : Bool := 0xD800 ≤ u && u < 0xDC00

/-- The second half of a pair. -/
def isLow (v : UInt16) : Bool := 0xDC00 ≤ v && v < 0xE000

/-- The character outside the basic plane that two surrogates are. -/
def pair (u v : UInt16) : Char :=
  Char.ofNat (0x10000 + (u.toNat - 0xD800) * 0x400 + (v.toNat - 0xDC00))

/-- What a unit that is no half of a pair is. -/
def single (u : UInt16) : Char := if isHigh u || isLow u then '?' else char u

/-- The characters of a row of units. -/
def toChars : QString → Text
  | [] => []
  | [u] => [single u]
  | u :: v :: s =>
    if isHigh u && isLow v then pair u v :: toChars s else single u :: toChars (v :: s)

/-- `QString::toStdString`. -/
def toStdString (s : QString) : Bytes := (toChars s).flatMap String.utf8EncodeChar

/-- Two units, one character, four bytes. -/
example : toChars [0xD83D, 0xDE00] = ['😀'] ∧
    toStdString [0xD83D, 0xDE00] = [0xF0, 0x9F, 0x98, 0x80] := by decide

/-! ## Numbers

`number` writes what `toInt` reads, up to the range of an `int`. -/

/-- The unit is one of the ten digits. -/
def isDigit (u : UInt16) : Bool := unit '0' ≤ u && u ≤ unit '9'

/-- `QString::number`. -/
def number (n : ℕ) : QString := ofText (numeral n)

/-- `QString::toInt` on digits: what does not fit an `int` is zero. -/
def toInt (s : QString) : ℕ :=
  if s.all isDigit ∧ value (s.map char) < 2 ^ 31 then value (s.map char) else 0

theorem toNat_of_isDigit {c : Char} (h : c.isDigit = true) : 48 ≤ c.toNat ∧ c.toNat ≤ 57 := by
  rw [Char.isDigit, Bool.and_eq_true, decide_eq_true_iff, decide_eq_true_iff] at h
  exact ⟨UInt32.le_iff_toNat_le.1 h.1, UInt32.le_iff_toNat_le.1 h.2⟩

theorem isDigit_unit {c : Char} (h : c.isDigit = true) : isDigit (unit c) = true := by
  obtain ⟨hlo, hhi⟩ := toNat_of_isDigit h
  have hunit : (unit c).toNat = c.toNat := by
    rw [unit, UInt16.toNat_ofNat', Nat.mod_eq_of_lt (by omega)]
  rw [isDigit, Bool.and_eq_true, decide_eq_true_iff, decide_eq_true_iff, UInt16.le_iff_toNat_le,
    UInt16.le_iff_toNat_le, hunit]
  exact ⟨hlo, hhi⟩

theorem all_isDigit_number (n : ℕ) : (number n).all isDigit = true := by
  rw [number, ofText, List.all_map]
  exact List.all_eq_true.2 fun c hc => isDigit_unit (isDigit_of_mem_numeral hc)

/-- The digits are read back as characters. -/
theorem map_char_number (n : ℕ) : (number n).map char = numeral n := by
  rw [number, ofText, List.map_map]
  refine (List.map_congr_left fun c hc => ?_).trans (List.map_id _)
  obtain ⟨-, hhi⟩ := toNat_of_isDigit (isDigit_of_mem_numeral hc)
  exact char_unit (by omega)

theorem number_injective : Function.Injective number := fun n m h =>
  numeral_injective (by rw [← map_char_number n, h, map_char_number m])

/-- **A number is read back**, unless it is too large for an `int`. -/
theorem toInt_number (n : ℕ) : toInt (number n) = if n < 2 ^ 31 then n else 0 := by
  rw [toInt, map_char_number, value_numeral]
  simp only [all_isDigit_number, true_and]

end QString
