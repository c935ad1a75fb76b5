import Mathlib

/-!
# Machinery/Outline — rows with levels, and marks that are exact on groups

An outline is a finite sequence of rows, each with a level; a row heads the rows after it up to the
first whose level is no larger (`Heads`).  No tree is needed: the relation is transitive, two heads
of one row are comparable, and every row that is not a leaf heads a leaf.

`Reflects S m` says that a row is marked exactly when every leaf it covers is in `S`.
`reflects_step` is the one fact about marking: whoever marks or clears a row, everything it covers,
and each of its heads by what they head, has moved `S` by that row.
-/

namespace Outline

section Heads

variable {α : Type*} [LinearOrder α] (n : ℕ) (L : ℕ → α)

/-- Row `j` lies in the run of larger levels that row `i` heads. -/
def Heads (i j : ℕ) : Prop := i < j ∧ ∀ k, i < k → k ≤ j → L i < L k

instance (i j : ℕ) : Decidable (Heads L i j) :=
  decidable_of_iff (i < j ∧ ∀ k ∈ Finset.Ioc i j, L i < L k) (by simp [Heads])

/-- A row covers itself and what it heads. -/
def Covers (i j : ℕ) : Prop := j = i ∨ Heads L i j

instance (i j : ℕ) : Decidable (Covers L i j) := inferInstanceAs (Decidable (_ ∨ _))

/-- A row of the outline that heads no other. -/
def Leaf (l : ℕ) : Prop := l < n ∧ ∀ j < n, ¬ Heads L l j

variable {n L} {i j k l : ℕ}

/-- What is headed by what a row heads is headed by the row. -/
theorem Heads.trans (hij : Heads L i j) (hjk : Heads L j k) : Heads L i k := by
  refine ⟨hij.1.trans hjk.1, fun m him hmk => ?_⟩
  rcases Nat.lt_or_ge j m with hjm | hmj
  · exact (hij.2 j hij.1 le_rfl).trans (hjk.2 m hjm hmk)
  · exact hij.2 m him hmj

/-- **The heads of one row are nested.** -/
theorem Heads.of_lt (hik : Heads L i k) (hjk : Heads L j k) (hij : i < j) : Heads L i j :=
  ⟨hij, fun m him hmj => hik.2 m him (hmj.trans hjk.1.le)⟩

/-- What is covered by what a row heads is headed by the row. -/
theorem Heads.covers_trans (hij : Heads L i j) (hjk : Covers L j k) : Heads L i k := by
  rcases hjk with rfl | hjk
  · exact hij
  · exact hij.trans hjk

theorem Covers.trans (hij : Covers L i j) (hjk : Covers L j k) : Covers L i k := by
  rcases hij with rfl | hij
  · exact hjk
  · exact .inr (hij.covers_trans hjk)

/-- A row covers the last one exactly when its run never ends. -/
theorem covers_last_iff (hi : i < n) : Covers L i (n - 1) ↔ ∀ j, i < j → j < n → L i < L j := by
  constructor
  · rintro (hlast | hheads) j hij hj
    · omega
    · exact hheads.2 j hij (Nat.le_sub_one_of_lt hj)
  · intro hall
    rcases Nat.eq_or_lt_of_le (Nat.le_sub_one_of_lt hi) with hlast | hlt
    · exact .inl hlast.symm
    · exact .inr ⟨hlt, fun k hik hk => hall k hik (by omega)⟩

/-- Two rows that cover one row are related. -/
theorem Covers.related (hik : Covers L i k) (hjk : Covers L j k) :
    Covers L i j ∨ Heads L j i := by
  rcases hik with rfl | hik
  · rcases hjk with rfl | hjk
    · exact .inl (.inl rfl)
    · exact .inr hjk
  · rcases hjk with rfl | hjk
    · exact .inl (.inr hik)
    · rcases Nat.lt_trichotomy i j with hij | rfl | hji
      · exact .inl (.inr (hik.of_lt hjk hij))
      · exact .inl (.inl rfl)
      · exact .inr (hjk.of_lt hik hji)

/-- **Every row covers a leaf**: if it is none itself, one covered by a row it heads. -/
theorem exists_leaf (hi : i < n) : ∃ l, Leaf n L l ∧ Covers L i l := by
  induction hd : n - i using Nat.strong_induction_on generalizing i with
  | _ d ih =>
    by_cases h : ∃ j < n, Heads L i j
    · obtain ⟨j, hj, hij⟩ := h
      have hlt := hij.1
      obtain ⟨l, hl, hjl⟩ := ih (n - j) (by omega) hj rfl
      exact ⟨l, hl, .inr (hij.covers_trans hjl)⟩
    · exact ⟨i, ⟨hi, fun j hj hij => h ⟨j, hj, hij⟩⟩, .inl rfl⟩

/-- What a leaf covers is itself. -/
theorem Leaf.eq_of_covers (hi : Leaf n L i) (hl : l < n) (h : Covers L i l) : l = i :=
  h.resolve_right fun hh => hi.2 l hl hh

end Heads

/-! ## Marks

A mark on a row that is no leaf says something about the leaves only.  So whatever moves marks is
described by the set of leaves it moves, and the other marks follow. -/

section Marks

variable {α : Type*} [LinearOrder α] (n : ℕ) (L : ℕ → α)

/-- A row is marked exactly when every leaf it covers is in `S`. -/
def Reflects (S : ℕ → Prop) (m : ℕ → Bool) : Prop :=
  ∀ i < n, m i = true ↔ ∀ l, Leaf n L l → Covers L i l → S l

/-- The set of leaves after row `i` has been set to `b`: what the row covers is written, the rest
stays. -/
def write (i : ℕ) (b : Bool) (S : ℕ → Prop) (l : ℕ) : Prop :=
  (Covers L i l ∧ b = true) ∨ (¬ Covers L i l ∧ S l)

/-- What setting the mark of row `i` to `b` does to the marks: everything the row covers is set,
clearing clears every head of the row, and marking marks a head when all it heads is marked. -/
structure Marking (i : ℕ) (b : Bool) (m m' : ℕ → Bool) : Prop where
  covered : ∀ j < n, Covers L i j → m' j = b
  cleared : b = false → ∀ j, Heads L j i → m' j = false
  marked : b = true → ∀ j, Heads L j i →
    (m' j = true ↔ m j = true ∨ ∀ k < n, Heads L j k → m' k = true)
  other : ∀ j, ¬ Covers L i j → ¬ Heads L j i → m' j = m j

variable {n L} {i : ℕ} {b : Bool} {m m' : ℕ → Bool} {S : ℕ → Prop}

/-- On the leaves, the marks are `S` itself. -/
theorem Reflects.leaf (h : Reflects n L S m) {l : ℕ} (hl : Leaf n L l) : m l = true ↔ S l :=
  (h l hl.1).trans
    ⟨fun hs => hs l hl (.inl rfl), fun hs _ hl' hc => hl.eq_of_covers hl'.1 hc ▸ hs⟩

/-- Marks that reflect one set of leaves are one. -/
theorem Reflects.eq_of_leaf {S' : ℕ → Prop} (h : Reflects n L S m) (h' : Reflects n L S' m')
    (hs : ∀ l, Leaf n L l → (S l ↔ S' l)) {i : ℕ} (hi : i < n) : m i = m' i :=
  Bool.eq_iff_iff.2 ((h i hi).trans ((forall₂_congr fun l hl =>
    imp_congr_right fun _ => hs l hl).trans (h' i hi).symm))

theorem reflects_false : Reflects n L (fun _ => False) fun _ => false := fun i hi => by
  obtain ⟨l, hl, hc⟩ := exists_leaf (L := L) hi
  exact iff_of_false (by simp) fun h => h l hl hc

/-- What the row covers is written. -/
theorem write_of_covers {l : ℕ} (h : Covers L i l) : write L i b S l ↔ b = true := by
  simp [write, h]

/-- The rest stays. -/
theorem write_of_not_covers {l : ℕ} (h : ¬ Covers L i l) : write L i b S l ↔ S l := by
  simp [write, h]

/-- **Marking a row writes its leaves**, and the marks stay exact.  The heads of the row come last:
what a head heads has been settled by the induction, from the last row backwards. -/
theorem reflects_step (h : Reflects n L S m) (hi : i < n) (hm : Marking n L i b m m') :
    Reflects n L (write L i b S) m' := by
  intro j hj
  induction hd : n - j using Nat.strong_induction_on generalizing j with
  | _ d ih =>
    by_cases hcov : Covers L i j
    · rw [hm.covered j hj hcov]
      refine ⟨fun hb l _ hl => (write_of_covers (hcov.trans hl)).2 hb, fun hall => ?_⟩
      obtain ⟨l, hl, hjl⟩ := exists_leaf (L := L) hj
      exact (write_of_covers (hcov.trans hjl)).1 (hall l hl hjl)
    by_cases hhead : Heads L j i
    · cases b with
      | false =>
        rw [hm.cleared rfl j hhead]
        refine iff_of_false Bool.false_ne_true fun hall => ?_
        obtain ⟨l, hl, hil⟩ := exists_leaf (L := L) hi
        have := hall l hl (.inr (hhead.covers_trans hil))
        exact absurd ((write_of_covers hil).1 this) Bool.false_ne_true
      | true =>
        have hlater : ∀ k < n, Heads L j k → (m' k = true ↔
            ∀ l, Leaf n L l → Covers L k l → write L i true S l) := fun k hk hjk => by
          have hlt := hjk.1
          exact ih (n - k) (by omega) k hk rfl
        rw [hm.marked rfl j hhead, h j hj]
        constructor
        · rintro (hall | hall) l hl hjl
          · by_cases hil : Covers L i l
            · exact (write_of_covers hil).2 rfl
            · exact (write_of_not_covers hil).2 (hall l hl hjl)
          · rcases hjl with rfl | hjl
            · exact absurd hhead (hl.2 i hi)
            · exact (hlater l hl.1 hjl).1 (hall l hl.1 hjl) l hl (.inl rfl)
        · exact fun hall => .inr fun k hk hjk =>
            (hlater k hk hjk).2 fun l hl hkl => hall l hl (.inr (hjk.covers_trans hkl))
    · rw [hm.other j hcov hhead, h j hj]
      refine forall₂_congr fun l hl => imp_congr_right fun hjl => ?_
      refine (write_of_not_covers fun hil => ?_).symm
      exact (hil.related hjl).elim hcov hhead

end Marks

end Outline
