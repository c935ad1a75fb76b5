import Mathlib

/-!
# Machinery/Numerals — decimal numbers and their units

A `Quantity` is a number with the unit that follows it.  `spell` writes quantities one after
another; `quantities` reads them back, cutting the text where digits end and where they begin
again.  A unit has no digit, so each side determines the other (`quantities_spell`).
-/

/-- A text of plain characters. -/
abbrev Text := List Char

namespace Numerals

/-! ## One number -/

/-- The decimal numeral of a natural number. -/
def numeral (n : ℕ) : Text := Nat.toDigits 10 n

/-- The number a row of digits spells. -/
def value (digits : Text) : ℕ := Nat.ofDigitChars 10 digits 0

@[simp] theorem value_numeral (n : ℕ) : value (numeral n) = n := Nat.ofDigitChars_ten_toDigits

theorem numeral_injective : Function.Injective numeral :=
  Function.LeftInverse.injective value_numeral

theorem isDigit_of_mem_numeral {n : ℕ} {c : Char} (hc : c ∈ numeral n) : c.isDigit = true :=
  Nat.isDigit_of_mem_toDigits (by decide) (by decide) hc

theorem numeral_ne_nil (n : ℕ) : numeral n ≠ [] := Nat.toDigits_ne_nil

/-! ## Numbers with units

Nothing separates one quantity from the next, and nothing needs to: a unit ends where digits
begin. -/

/-- A number and its unit. -/
abbrev Quantity := ℕ × Text

/-- A unit is there, and has no digit. -/
def UnitText (unit : Text) : Prop := unit ≠ [] ∧ ∀ c ∈ unit, c.isDigit = false

/-- The quantities one after another. -/
def spell (qs : List Quantity) : Text := qs.flatMap fun q => numeral q.1 ++ q.2

@[simp] theorem spell_nil : spell [] = [] := rfl

@[simp] theorem spell_cons (q : Quantity) (qs : List Quantity) :
    spell (q :: qs) = numeral q.1 ++ (q.2 ++ spell qs) := by
  rw [spell, List.flatMap_cons, List.append_assoc, spell]

@[simp] theorem spell_append (qs rs : List Quantity) :
    spell (qs ++ rs) = spell qs ++ spell rs := List.flatMap_append

/-- Each pass reads a number and the unit after it. -/
def readQuantities : ℕ → Text → List Quantity
  | 0, _ => []
  | _ + 1, [] => []
  | passes + 1, c :: cs =>
    let rest := (c :: cs).dropWhile Char.isDigit
    (value ((c :: cs).takeWhile Char.isDigit), rest.takeWhile fun c => !c.isDigit) ::
      readQuantities passes (rest.dropWhile fun c => !c.isDigit)

/-- The quantities a text is made of. -/
def quantities (text : Text) : List Quantity := readQuantities text.length text

section Cut

variable {p : Char → Bool} {s t : Text}

/-- The text after a block begins with something else. -/
def StopsAt (p : Char → Bool) (t : Text) : Prop := ∀ c ∈ t.head?, p c = false

/-- A block is taken whole, and no more. -/
theorem takeWhile_append_of_stopsAt (hs : ∀ c ∈ s, p c = true) (ht : StopsAt p t) :
    (s ++ t).takeWhile p = s := by
  rw [List.takeWhile_append_of_pos hs]
  cases t with
  | nil => exact List.append_nil s
  | cons c t => rw [List.takeWhile_cons_of_neg (by simp [ht c rfl]), List.append_nil]

/-- What is left is the rest. -/
theorem dropWhile_append_of_stopsAt (hs : ∀ c ∈ s, p c = true) (ht : StopsAt p t) :
    (s ++ t).dropWhile p = t := by
  rw [List.dropWhile_append_of_pos hs]
  cases t with
  | nil => rfl
  | cons c t => rw [List.dropWhile_cons_of_neg (by simp [ht c rfl])]

end Cut

/-- A unit ends a number. -/
theorem UnitText.stopsAt {unit : Text} (hu : UnitText unit) (t : Text) :
    StopsAt Char.isDigit (unit ++ t) := by
  obtain ⟨hne, hdigits⟩ := hu
  cases unit with
  | nil => exact absurd rfl hne
  | cons c unit =>
    rintro d hd
    obtain rfl := Option.some.inj hd
    exact hdigits _ List.mem_cons_self

/-- A number ends a unit. -/
theorem stopsAt_spell (qs : List Quantity) : StopsAt (fun c => !c.isDigit) (spell qs) := by
  cases qs with
  | nil => exact fun c hc => absurd hc (by simp)
  | cons q qs =>
    intro c hc
    rw [spell_cons, List.head?_append_of_ne_nil _ (numeral_ne_nil q.1)] at hc
    simp [isDigit_of_mem_numeral (List.mem_of_mem_head? hc)]

theorem readQuantities_spell {qs : List Quantity} (hqs : ∀ q ∈ qs, UnitText q.2) {passes : ℕ}
    (hpasses : qs.length ≤ passes) : readQuantities passes (spell qs) = qs := by
  induction qs generalizing passes with
  | nil => cases passes <;> rfl
  | cons q qs ih =>
    obtain ⟨passes, rfl⟩ : ∃ n, passes = n + 1 := Nat.exists_eq_succ_of_ne_zero (by
      rintro rfl
      simp at hpasses)
    obtain ⟨hq, hqs⟩ := List.forall_mem_cons.1 hqs
    have hdigits : ∀ c ∈ numeral q.1, c.isDigit = true := fun c => isDigit_of_mem_numeral
    have hunit : ∀ c ∈ q.2, (!c.isDigit) = true := fun c hc => by simp [hq.2 c hc]
    have hread : readQuantities (passes + 1) (spell (q :: qs)) =
        (value (numeral q.1), q.2) :: readQuantities passes (spell qs) := by
      rw [spell_cons]
      obtain ⟨c, cs, hcs⟩ := List.exists_cons_of_ne_nil (numeral_ne_nil q.1)
      rw [hcs, List.cons_append, readQuantities, ← List.cons_append, ← hcs,
        takeWhile_append_of_stopsAt hdigits (hq.stopsAt _),
        dropWhile_append_of_stopsAt hdigits (hq.stopsAt _),
        takeWhile_append_of_stopsAt hunit (stopsAt_spell qs),
        dropWhile_append_of_stopsAt hunit (stopsAt_spell qs)]
    rw [hread, value_numeral, ih hqs (Nat.le_of_succ_le_succ hpasses)]

/-- Each quantity has a character at least. -/
theorem length_le_length_spell (qs : List Quantity) : qs.length ≤ (spell qs).length := by
  induction qs with
  | nil => exact Nat.zero_le _
  | cons q qs ih =>
    have hpos : 0 < (numeral q.1).length := List.length_pos_of_ne_nil (numeral_ne_nil q.1)
    rw [spell_cons, List.length_cons, List.length_append, List.length_append]
    omega

/-- **Quantities are read back** as they were written. -/
theorem quantities_spell {qs : List Quantity} (hqs : ∀ q ∈ qs, UnitText q.2) :
    quantities (spell qs) = qs :=
  readQuantities_spell hqs (length_le_length_spell qs)

end Numerals
