import Mathlib

/-!
# Machinery/Joined — strings joined by a separator

`joined sep l` writes the parts `l` one after another with `sep` between them; parts without the
separator can be read back (`joined_injective`).  `cut n l` are the parts of the first `n` symbols
of the joined string (`joined_cut`).
-/

namespace Joined

variable {α : Type*} (sep : α)

/-- The parts with the separator between them. -/
def joined (l : List (List α)) : List α := [sep].intercalate l

/-- No part has the separator. -/
def Plain (l : List (List α)) : Prop := ∀ a ∈ l, sep ∉ a

variable {sep} {l l' : List (List α)}

@[simp] theorem joined_nil : joined sep [] = [] := rfl

@[simp] theorem joined_singleton (a : List α) : joined sep [a] = a := by
  simp [joined, List.intercalate]

/-- The first part is followed by a separator, unless it is the only one. -/
theorem joined_cons (a : List α) (h : l ≠ []) : joined sep (a :: l) = a ++ sep :: joined sep l := by
  obtain ⟨b, l, rfl⟩ := List.exists_cons_of_ne_nil h
  simp [joined, List.intercalate, List.intersperse]

/-- The last part follows a separator, unless it is the only one. -/
theorem joined_snoc (a : List α) (h : l ≠ []) :
    joined sep (l ++ [a]) = joined sep l ++ sep :: a := by
  induction l with
  | nil => exact absurd rfl h
  | cons b l ih =>
    rw [List.cons_append, joined_cons b (by simp)]
    rcases eq_or_ne l [] with rfl | hl
    · simp
    · rw [ih hl, joined_cons b hl, List.append_assoc, List.cons_append]

/-- **Plain parts are read back from their joined string.** -/
theorem joined_injective (hl : Plain sep l) (hl' : Plain sep l') (hne : l ≠ [])
    (hne' : l' ≠ []) (h : joined sep l = joined sep l') : l = l' := by
  classical
  rw [← List.splitOn_intercalate sep hl hne, ← List.splitOn_intercalate sep hl' hne']
  exact congrArg (List.splitOn sep) h

theorem Plain.of_cons {a : List α} (h : Plain sep (a :: l)) : sep ∉ a ∧ Plain sep l :=
  ⟨h a List.mem_cons_self, fun b hb => h b (List.mem_cons_of_mem a hb)⟩

theorem Plain.append {c : List (List α)} (hc : Plain sep c) (hl : Plain sep l) :
    Plain sep (c ++ l) := fun a ha => (List.mem_append.1 ha).elim (hc a) (hl a)

theorem Plain.snoc {c : List (List α)} (hc : Plain sep c) {a : List α} (ha : sep ∉ a) :
    Plain sep (c ++ [a]) := hc.append fun _ hb => (List.mem_singleton.1 hb).symm ▸ ha

section Split

variable [BEq α] [LawfulBEq α]

/-- Every string is joined from its parts. -/
theorem joined_splitOn (sep : α) (s : List α) : joined sep (s.splitOn sep) = s :=
  List.intercalate_splitOn sep

/-- Splitting leaves no separator in a part. -/
theorem plain_splitOn (sep : α) (s : List α) : Plain sep (s.splitOn sep) := by
  induction s with
  | nil =>
    rw [List.splitOn_nil]
    exact fun a ha => List.mem_singleton.1 ha ▸ List.not_mem_nil
  | cons x s ih =>
    obtain ⟨b, l, hl⟩ := List.exists_cons_of_ne_nil (List.splitOn_ne_nil sep s)
    rw [hl] at ih
    obtain ⟨hb, hrest⟩ := ih.of_cons
    rw [List.splitOn_cons_eq_if_modifyHead, hl]
    split
    · exact List.forall_mem_cons.2 ⟨List.not_mem_nil, ih⟩
    · next hx =>
      refine List.forall_mem_cons.2 ⟨fun hmem => ?_, hrest⟩
      rcases List.mem_cons.1 hmem with rfl | hmem
      · exact hx (beq_self_eq_true _)
      · exact hb hmem

end Split

section Find

variable [DecidableEq α]

/-- In a plain part there is no separator to find. -/
theorem findIdx?_plain {a : List α} (h : sep ∉ a) : a.findIdx? (· = sep) = none :=
  List.findIdx?_eq_none_iff.2 fun _ hx => decide_eq_false fun heq => h (heq ▸ hx)

/-- The first separator stands after the first part. -/
theorem findIdx?_append {a : List α} (h : sep ∉ a) (s : List α) :
    (a ++ sep :: s).findIdx? (· = sep) = some a.length := by
  rw [List.findIdx?_append, findIdx?_plain h]
  simp [List.findIdx?_cons]

end Find

/-! ## What stands before a part

A reader that goes through a joined string has behind it some parts and the separator after each.
`lead` is that much of the string, and `take_lead` is the string up to the end of the part it stands
in. -/

variable (sep) in
/-- The joined parts with the separator that follows them. -/
def lead : List (List α) → List α
  | [] => []
  | c => joined sep c ++ [sep]

@[simp] theorem lead_nil : lead sep [] = [] := rfl

theorem lead_snoc (c : List (List α)) (a : List α) :
    lead sep (c ++ [a]) = lead sep c ++ a ++ [sep] := by
  cases c with
  | nil => simp [lead]
  | cons b c =>
    rw [List.cons_append, lead, lead, ← List.cons_append, joined_snoc a (List.cons_ne_nil b c)]
    · simp
    · exact List.cons_ne_nil _ _
    · exact List.cons_ne_nil _ _

theorem length_lead_snoc (c : List (List α)) (a : List α) :
    (lead sep (c ++ [a])).length = (lead sep c).length + a.length + 1 := by
  rw [lead_snoc, List.length_append, List.length_append, List.length_singleton]

/-- What stands before the rest, and the rest, are the whole. -/
theorem lead_append_joined (c : List (List α)) (hl : l ≠ []) :
    lead sep c ++ joined sep l = joined sep (c ++ l) := by
  induction c using List.reverseRecOn generalizing l with
  | nil => rfl
  | append_singleton c a ih =>
    rw [lead_snoc, List.append_assoc c [a] l, List.singleton_append,
      ← ih (List.cons_ne_nil a l), joined_cons a hl]
    simp

/-- Up to the end of a part stand the parts up to it. -/
theorem take_lead (c : List (List α)) (a : List α) (l : List (List α)) (post : List α) :
    (lead sep c ++ joined sep (a :: l) ++ post).take ((lead sep c).length + a.length)
      = joined sep (c ++ [a]) := by
  rw [← lead_append_joined c (List.cons_ne_nil a []), joined_singleton, ← List.length_append]
  rcases eq_or_ne l [] with rfl | hl
  · rw [joined_singleton, List.take_left]
  · rw [joined_cons a hl, ← List.append_assoc, List.append_assoc, List.take_left]

/-- A part more is a separator more. -/
theorem length_le_length_joined (l : List (List α)) : l.length ≤ (joined sep l).length + 1 := by
  induction l with
  | nil => exact Nat.zero_le _
  | cons a l ih =>
    rcases eq_or_ne l [] with rfl | hl
    · simp
    · rw [joined_cons a hl, List.length_append, List.length_cons, List.length_cons]
      omega

/-! ## Cutting

The first symbols of a joined string are again joined parts, of which the last may be shortened.  So
a string that is cut can be said by its parts, and the parts that fit are the parts that were
there. -/

/-- The parts of the first `n` symbols of the joined string. -/
def cut : ℕ → List (List α) → List (List α)
  | _, [] => []
  | n, a :: l => if n ≤ a.length then [a.take n] else a :: cut (n - a.length - 1) l

theorem cut_ne_nil (n : ℕ) (h : l ≠ []) : cut n l ≠ [] := by
  obtain ⟨a, l, rfl⟩ := List.exists_cons_of_ne_nil h
  rw [cut]
  split
  · exact List.cons_ne_nil _ _
  · exact List.cons_ne_nil _ _

theorem length_cut_le (n : ℕ) (l : List (List α)) : (cut n l).length ≤ l.length := by
  induction l generalizing n with
  | nil => exact le_rfl
  | cons a l ih =>
    rw [cut]
    split
    · simp
    · exact Nat.succ_le_succ (ih _)

/-- **The cut parts are the first symbols of the joined string.** -/
theorem joined_cut (n : ℕ) (l : List (List α)) : joined sep (cut n l) = (joined sep l).take n := by
  induction l generalizing n with
  | nil => simp [cut]
  | cons a l ih =>
    rcases eq_or_ne l [] with rfl | hl
    · rw [cut, joined_singleton]
      split
      · simp
      · next h => rw [cut, joined_singleton, List.take_of_length_le (by omega)]
    · rw [cut, joined_cons a hl]
      split
      · next h => rw [joined_singleton, List.take_append_of_le_length h]
      · next h =>
        rw [joined_cons a (cut_ne_nil _ hl), ih, List.take_append,
          List.take_of_length_le (show a.length ≤ n by omega)]
        obtain ⟨k, hk⟩ : ∃ k, n - a.length = k + 1 := ⟨n - a.length - 1, by omega⟩
        rw [hk, List.take_succ_cons, Nat.add_sub_cancel]

/-- Parts that fit are not cut. -/
theorem cut_of_length_le {n : ℕ} (h : (joined sep l).length ≤ n) : cut n l = l := by
  induction l generalizing n with
  | nil => rfl
  | cons a l ih =>
    rcases eq_or_ne l [] with rfl | hl
    · rw [joined_singleton] at h
      rw [cut, cut]
      split
      · rw [List.take_of_length_le h]
      · rfl
    · rw [joined_cons a hl, List.length_append, List.length_cons] at h
      rw [cut, if_neg (by omega), ih (by omega)]

/-- After the first part and its separator, up to a number of symbols, stand the cut parts. -/
theorem take_drop_joined_cons (a : List α) (h : l ≠ []) (n : ℕ) :
    ((joined sep (a :: l)).drop (a.length + 1)).take n = joined sep (cut n l) := by
  rw [joined_cut, joined_cons a h, ← List.drop_drop, List.drop_left, List.drop_one, List.tail_cons]

/-- A string read up to a part goes on with the cut parts, and then with what was cut off. -/
theorem lead_append_cut (c : List (List α)) (a : List α) (h : l ≠ []) (n : ℕ) (post : List α) :
    lead sep c ++ joined sep (a :: l) ++ post
      = lead sep (c ++ [a]) ++ joined sep (cut n l) ++ ((joined sep l).drop n ++ post) := by
  rw [joined_cut, joined_cons a h, lead_snoc, List.append_assoc _ _ (_ ++ post),
    ← List.append_assoc (List.take _ _), List.take_append_drop]
  simp

/-- Cutting and taking the first parts commute. -/
theorem cut_take (n j : ℕ) (l : List (List α)) : cut n (l.take j) = (cut n l).take j := by
  induction l generalizing n j with
  | nil => simp [cut]
  | cons a l ih =>
    cases j with
    | zero => rfl
    | succ j =>
      rw [List.take_succ_cons, cut, cut]
      split
      · simp
      · rw [ih, List.take_succ_cons]

/-- Cutting brings no separator in. -/
theorem Plain.cut (h : Plain sep l) (n : ℕ) : Plain sep (cut n l) := by
  induction l generalizing n with
  | nil => exact h
  | cons a l ih =>
    obtain ⟨ha, hl⟩ := h.of_cons
    rw [Joined.cut]
    intro b hb
    split at hb
    · rw [List.mem_singleton.1 hb]
      exact fun hmem => ha (List.mem_of_mem_take hmem)
    · rcases List.mem_cons.1 hb with rfl | hb
      · exact ha
      · exact ih hl _ b hb

end Joined
