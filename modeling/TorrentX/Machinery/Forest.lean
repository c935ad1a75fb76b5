import TorrentX.Machinery.Outline

/-!
# Machinery/Forest — ordered forests and their preorder listings

A forest is a first tree and the trees after it.  `listing` writes it as rows, a node before what
is below it, each with its level; `Below` is the ancestor relation between the positions of that
list.  The two agree: a position is below another exactly when its row lies in the run the other
heads (`below_iff_heads`), so the levels alone carry the forest.
-/

/-- An ordered forest: empty, or a node with the forest below it and the forest beside it. -/
inductive Forest (α : Type*)
  | nil
  | cons (label : α) (kids sibs : Forest α)

namespace Forest

variable {α : Type*}

/-- A row of a listing. -/
structure Row (α : Type*) where
  label : α
  level : ℕ
  isLeaf : Bool

def isNil : Forest α → Bool
  | nil => true
  | cons .. => false

/-- The number of nodes. -/
def size : Forest α → ℕ
  | nil => 0
  | cons _ kids sibs => kids.size + 1 + sibs.size

/-- The preorder listing, the roots at level `lvl`. -/
def listing : Forest α → ℕ → List (Row α)
  | nil, _ => []
  | cons a kids sibs, lvl =>
    ⟨a, lvl, kids.isNil⟩ :: (kids.listing (lvl + 1) ++ sibs.listing lvl)

@[simp] theorem length_listing (F : Forest α) (lvl : ℕ) : (F.listing lvl).length = F.size := by
  induction F generalizing lvl with
  | nil => rfl
  | cons a kids sibs ihk ihs =>
    rw [listing, List.length_cons, List.length_append, ihk, ihs, size]
    omega

/-! ## Positions

A position of the listing is that of a node, so below-ness of nodes is a relation between positions.
The listing has levels and no more of the shape; what is below a position is found from the levels
as the run of rows of a larger level after it. -/

/-- Position `j` of the listing is strictly below position `i`. -/
inductive Below : Forest α → ℕ → ℕ → Prop
  | root {a : α} {kids sibs : Forest α} {j : ℕ} :
      j < kids.size → Below (cons a kids sibs) 0 (j + 1)
  | kid {a : α} {kids sibs : Forest α} {i j : ℕ} :
      Below kids i j → Below (cons a kids sibs) (i + 1) (j + 1)
  | sib {a : α} {kids sibs : Forest α} {i j : ℕ} :
      Below sibs i j → Below (cons a kids sibs) (kids.size + 1 + i) (kids.size + 1 + j)

/-- A position with nothing below it. -/
def IsLeaf (F : Forest α) (i : ℕ) : Prop := i < F.size ∧ ∀ j, ¬ F.Below i j

/-- What is below a position is a position. -/
theorem Below.lt_size {F : Forest α} {i j : ℕ} (h : F.Below i j) : j < F.size := by
  induction h with
  | root hj => rw [size]; omega
  | kid _ ih => rw [size]; omega
  | sib _ ih => rw [size]; omega

/-- The level of a position of the listing. -/
def level (F : Forest α) (lvl i : ℕ) : ℕ := ((F.listing lvl)[i]?.map Row.level).getD 0

section Level

variable (a : α) (kids sibs : Forest α) (lvl : ℕ)

@[simp] theorem level_root : (cons a kids sibs).level lvl 0 = lvl := rfl

/-- Below the root the levels are those of the forest there, one level down. -/
theorem level_kid {i : ℕ} (hi : i < kids.size) :
    (cons a kids sibs).level lvl (i + 1) = kids.level (lvl + 1) i := by
  rw [level, level, listing, List.getElem?_cons_succ, List.getElem?_append_left (by simpa using hi)]

/-- Beside the first tree the levels are those of the forest there. -/
theorem level_sib (i : ℕ) :
    (cons a kids sibs).level lvl (kids.size + 1 + i) = sibs.level lvl i := by
  rw [level, level, listing, show kids.size + 1 + i = kids.size + i + 1 by omega,
    List.getElem?_cons_succ, List.getElem?_append_right (by simp)]
  simp

/-- No level is less than that of the roots. -/
theorem le_level (F : Forest α) (lvl : ℕ) {i : ℕ} (hi : i < F.size) : lvl ≤ F.level lvl i := by
  induction F generalizing lvl i with
  | nil => exact absurd hi (Nat.not_lt_zero i)
  | cons a kids sibs ihk ihs =>
    rw [size] at hi
    rcases i with _ | i
    · rfl
    · rcases Nat.lt_or_ge i kids.size with hk | hk
      · rw [level_kid a kids sibs lvl hk]
        exact (Nat.le_succ lvl).trans (ihk (lvl + 1) hk)
      · obtain ⟨i, rfl⟩ := Nat.exists_eq_add_of_le hk
        rw [show kids.size + i + 1 = kids.size + 1 + i by omega, level_sib]
        exact ihs lvl (by omega)

theorem level_zero (F : Forest α) (hF : 0 < F.size) : F.level lvl 0 = lvl := by
  cases F with
  | nil => exact absurd hF (lt_irrefl 0)
  | cons => rfl

end Level

open Outline

/-- What is below a position lies in the run it heads. -/
theorem Below.heads {F : Forest α} {i j : ℕ} (h : F.Below i j) (lvl : ℕ) :
    Heads (F.level lvl) i j := by
  induction h generalizing lvl with
  | @root a kids sibs j hj =>
    refine ⟨by omega, fun k hk hkj => ?_⟩
    obtain ⟨k, rfl⟩ := Nat.exists_eq_add_of_lt hk
    rw [Nat.zero_add, level_root, level_kid a kids sibs lvl (by omega)]
    exact le_level kids (lvl + 1) (by omega)
  | @kid a kids sibs i j hb ih =>
    have hj := hb.lt_size
    obtain ⟨hij, hall⟩ := ih (lvl + 1)
    refine ⟨by omega, fun k hk hkj => ?_⟩
    obtain ⟨k, rfl⟩ : ∃ k', k = k' + 1 := ⟨k - 1, by omega⟩
    rw [level_kid a kids sibs lvl (by omega), level_kid a kids sibs lvl (by omega)]
    exact hall k (by omega) (by omega)
  | @sib a kids sibs i j hb ih =>
    obtain ⟨hij, hall⟩ := ih lvl
    refine ⟨by omega, fun k hk hkj => ?_⟩
    obtain ⟨k, rfl⟩ : ∃ k', k = kids.size + 1 + k' := ⟨k - (kids.size + 1), by omega⟩
    rw [level_sib, level_sib]
    exact hall k (by omega) (by omega)

/-- **The levels carry the forest**: below a position is exactly the run it heads. -/
theorem below_iff_heads (F : Forest α) (lvl : ℕ) {i j : ℕ} (hj : j < F.size) :
    F.Below i j ↔ Heads (F.level lvl) i j := by
  refine ⟨fun h => h.heads lvl, fun h => ?_⟩
  induction F generalizing lvl i j with
  | nil => exact absurd hj (Nat.not_lt_zero j)
  | cons a kids sibs ihk ihs =>
    obtain ⟨hij, hall⟩ := h
    rw [size] at hj
    -- the root beside the first tree ends the run of everything in it
    have hend : i < kids.size + 1 → j < kids.size + 1 := fun hi => by
      by_contra hjk
      have hlt := hall (kids.size + 1) hi (by omega)
      rw [show kids.size + 1 = kids.size + 1 + 0 from rfl, level_sib,
        level_zero lvl sibs (by omega)] at hlt
      have hle := le_level (cons a kids sibs) lvl (show i < _ by rw [size]; omega)
      omega
    obtain ⟨j, rfl⟩ : ∃ j', j = j' + 1 := ⟨j - 1, by omega⟩
    rcases i with _ | i
    · exact .root (by omega)
    rcases Nat.lt_or_ge i kids.size with hi | hi
    · have hjk : j < kids.size := by omega
      refine .kid (ihk (lvl + 1) hjk ⟨by omega, fun k hk hkj => ?_⟩)
      have hlt := hall (k + 1) (by omega) (by omega)
      rwa [level_kid a kids sibs lvl hi, level_kid a kids sibs lvl (by omega)] at hlt
    · obtain ⟨i, rfl⟩ := Nat.exists_eq_add_of_le hi
      obtain ⟨j, rfl⟩ : ∃ j', j = kids.size + j' := ⟨j - kids.size, by omega⟩
      rw [show kids.size + i + 1 = kids.size + 1 + i by omega,
        show kids.size + j + 1 = kids.size + 1 + j by omega] at *
      refine .sib (ihs lvl (by omega) ⟨by omega, fun k hk hkj => ?_⟩)
      have hlt := hall (kids.size + 1 + k) (by omega) (by omega)
      rwa [level_sib, level_sib] at hlt

/-! ## Leaves -/

section Leaves

variable {a : α} {kids sibs : Forest α} {i : ℕ}

/-- The root is a leaf if nothing is below it. -/
theorem isLeaf_root : (cons a kids sibs).IsLeaf 0 ↔ kids.isNil = true := by
  constructor
  · rintro ⟨-, h⟩
    cases kids with
    | nil => rfl
    | cons b kids' sibs' => exact absurd (.root (by rw [size]; omega)) (h 1)
  · intro hk
    cases kids with
    | cons b kids' sibs' => exact absurd hk Bool.false_ne_true
    | nil =>
      refine ⟨by rw [size]; omega, fun j hb => ?_⟩
      generalize hi : 0 = i at hb
      cases hb with
      | root hj => exact absurd hj (Nat.not_lt_zero _)
      | kid hb => exact absurd hb.lt_size (Nat.not_lt_zero _)
      | sib hb => omega

theorem isLeaf_kid (hi : i < kids.size) : (cons a kids sibs).IsLeaf (i + 1) ↔ kids.IsLeaf i := by
  constructor
  · exact fun h => ⟨hi, fun j hb => h.2 (j + 1) (.kid hb)⟩
  · refine fun h => ⟨by rw [size]; omega, fun j hb => ?_⟩
    generalize hk : i + 1 = k at hb
    cases hb with
    | root => omega
    | kid hb => exact h.2 _ (Nat.succ.inj hk ▸ hb)
    | sib => omega

theorem isLeaf_sib : (cons a kids sibs).IsLeaf (kids.size + 1 + i) ↔ sibs.IsLeaf i := by
  constructor
  · rintro ⟨hi, h⟩
    rw [size] at hi
    exact ⟨by omega, fun j hb => h _ (.sib hb)⟩
  · refine fun h => ⟨by have := h.1; rw [size]; omega, fun j hb => ?_⟩
    generalize hk : kids.size + 1 + i = k at hb
    cases hb with
    | root => omega
    | kid hb =>
      have hlt := hb.lt_size
      obtain ⟨hij, -⟩ := hb.heads 0
      omega
    | sib hb => exact h.2 _ (Nat.add_left_cancel hk ▸ hb)

/-- **The flag of a row says whether its position is a leaf.** -/
theorem isLeaf_iff_listing (F : Forest α) (lvl i : ℕ) :
    F.IsLeaf i ↔ (F.listing lvl)[i]?.map Row.isLeaf = some true := by
  induction F generalizing lvl i with
  | nil => exact iff_of_false (fun h => absurd h.1 (Nat.not_lt_zero i)) (by simp [listing])
  | cons a kids sibs ihk ihs =>
    rcases i with _ | i
    · rw [isLeaf_root, listing]
      simp
    · rw [listing, List.getElem?_cons_succ]
      rcases Nat.lt_or_ge i kids.size with hi | hi
      · rw [isLeaf_kid hi, ihk (lvl + 1), List.getElem?_append_left (by simpa using hi)]
      · obtain ⟨i, rfl⟩ := Nat.exists_eq_add_of_le hi
        rw [show kids.size + i + 1 = kids.size + 1 + i by omega, isLeaf_sib, ihs lvl,
          List.getElem?_append_right (by simp)]
        simp

end Leaves

end Forest
