import TorrentX.Client.FilesPicker
import TorrentX.Machinery.Outline

/-!
# Client/Marks — what one `setMark` does to the marks

Only marks ever change, so a holder is its rows under a mark for each index (`withMarks`), and each
loop is described by the marks it leaves: the first sets what the row heads (`markBelow_spec`), the
second settles the rows that head it, nearest first (`markAbove_spec`).  Together they are a marking
of the outline of the rows (`marking_of_setMark`).
-/

namespace TorrentX

open Outline

namespace FilesPicker

/-! ## Rows under marks

The levels, the names and the number of rows are the same before and after any call.  What the loops
do is therefore said of a function from indices to marks, and the rows it is put on stay fixed. -/

/-- The rows with their marks replaced. -/
def withMarks (rows : List FileNode) (m : ℕ → Bool) : List FileNode :=
  rows.mapIdx fun i node => { node with isMarked := m i }

section WithMarks

variable (rows : List FileNode) (m : ℕ → Bool)

@[simp] theorem length_withMarks : (withMarks rows m).length = rows.length := List.length_mapIdx

@[simp] theorem levelAt_withMarks (pastLevel : ℤ) (i : ℕ) :
    levelAt pastLevel (withMarks rows m) i = levelAt pastLevel rows i := by
  rw [levelAt, levelAt, withMarks, List.getElem?_mapIdx, Option.map_map]
  rfl

/-- The mark of a row is the one that is put on it. -/
theorem isMarkedAt_withMarks {i : ℕ} (hi : i < rows.length) :
    isMarkedAt (withMarks rows m) i = m i := by
  rw [isMarkedAt, withMarks, List.getElem?_mapIdx, List.getElem?_eq_getElem hi]
  rfl

/-- Setting the mark of a row is updating the function. -/
theorem assign_withMarks (i : ℕ) (b : Bool) :
    assign (withMarks rows m) i b = withMarks rows (Function.update m i b) := by
  refine List.ext_getElem? fun k => ?_
  rw [assign, List.getElem?_modify, withMarks, withMarks, List.getElem?_mapIdx,
    List.getElem?_mapIdx]
  cases rows[k]? with
  | none => rfl
  | some node =>
    by_cases hk : i = k
    · subst hk
      simp
    · simp [hk, Ne.symm hk]

/-- The marks of the rows are the values of the function. -/
theorem getMarks_withMarks : getMarks (withMarks rows m) = (List.range rows.length).map m := by
  refine List.ext_getElem? fun k => ?_
  rcases Nat.lt_or_ge k rows.length with hk | hk
  · simp [getMarks, withMarks, hk]
  · simp [getMarks, withMarks, hk]

/-- Rows are themselves under the marks they have. -/
theorem withMarks_isMarkedAt : withMarks rows (isMarkedAt rows) = rows := by
  refine List.ext_getElem? fun k => ?_
  rw [withMarks, List.getElem?_mapIdx]
  cases hk : rows[k]? with
  | none => rfl
  | some node => simp [isMarkedAt, hk]

end WithMarks

/-! ## The outline of the rows

Both loops stop at the first row whose level is not larger than the picked one.  The rows up to
there are those the picked row heads, so what the code says by scanning the outline says by
`Heads`. -/

/-- The level of a row. -/
abbrev level (rows : List FileNode) (i : ℕ) : ℤ := levelAt 0 rows i

/-- On the rows themselves it does not matter what a read past them yields. -/
theorem levelAt_eq_level {rows : List FileNode} {i : ℕ} (hi : i < rows.length) (pastLevel : ℤ) :
    levelAt pastLevel rows i = level rows i := by
  rw [level, levelAt, levelAt, List.getElem?_eq_getElem hi]
  rfl

variable {rows : List FileNode} {pastLevel : ℤ} {mark : Bool}

/-- The rows from `start` on that the loops pass over: up to `k` every level is larger than
`picked`. -/
def Passed (rows : List FileNode) (picked : ℤ) (start k : ℕ) : Prop :=
  start ≤ k ∧ k < rows.length ∧ ∀ j, start ≤ j → j ≤ k → picked < level rows j

/-- A loop that passes over a row goes on with the next one. -/
theorem passed_iff_of_lt {picked : ℤ} {start k : ℕ} (h : picked < level rows start)
    (hs : start < rows.length) :
    Passed rows picked start k ↔ k = start ∨ Passed rows picked (start + 1) k := by
  constructor
  · rintro ⟨hsk, hk, hall⟩
    rcases Nat.eq_or_lt_of_le hsk with rfl | hlt
    · exact .inl rfl
    · exact .inr ⟨hlt, hk, fun j hj hjk => hall j (by omega) hjk⟩
  · rintro (rfl | ⟨hsk, hk, hall⟩)
    · refine ⟨le_rfl, hs, fun j hj hjk => ?_⟩
      rwa [Nat.le_antisymm hjk hj]
    · refine ⟨by omega, hk, fun j hj hjk => ?_⟩
      rcases Nat.eq_or_lt_of_le hj with rfl | hlt
      · exact h
      · exact hall j hlt hjk

/-- A loop that stops at once passes over nothing. -/
theorem not_passed {picked : ℤ} {start k : ℕ}
    (h : ¬ (start < rows.length ∧ picked < level rows start)) : ¬ Passed rows picked start k :=
  fun ⟨hsk, hk, hall⟩ => h ⟨by omega, hall start le_rfl hsk⟩

/-- What the loops pass over after a row is what the row heads. -/
theorem passed_succ_iff {i k : ℕ} :
    Passed rows (level rows i) (i + 1) k ↔ k < rows.length ∧ Heads (level rows) i k :=
  ⟨fun ⟨hik, hk, hall⟩ => ⟨hk, hik, fun j hj hjk => hall j hj hjk⟩,
    fun ⟨hk, hik, hall⟩ => ⟨hik, hk, fun j hj hjk => hall j hj hjk⟩⟩

/-! ## The first loop -/

/-- **The first loop sets exactly the rows it passes over.** -/
theorem markBelow_spec {picked : ℤ} {passes start : ℕ} (m : ℕ → Bool)
    (hp : rows.length - start ≤ passes) :
    ∃ m', markBelow pastLevel picked mark passes start (withMarks rows m) = withMarks rows m' ∧
      (∀ k, Passed rows picked start k → m' k = mark) ∧
      ∀ k, ¬ Passed rows picked start k → m' k = m k := by
  induction passes generalizing start m with
  | zero =>
    refine ⟨m, rfl, fun k hk => ?_, fun _ _ => rfl⟩
    exact absurd hk (not_passed fun h => by omega)
  | succ passes ih =>
    rw [markBelow, levelAt_withMarks, length_withMarks]
    by_cases hs : start < rows.length
    · rw [levelAt_eq_level hs]
      by_cases hlt : picked < level rows start
      · rw [if_pos ⟨hlt, hs⟩, assign_withMarks]
        have hrest : rows.length - (start + 1) ≤ passes := by omega
        obtain ⟨m', hm', hset, hkept⟩ := ih (Function.update m start mark) hrest
        have hstart : ¬ Passed rows picked (start + 1) start := fun h => absurd h.1 (by omega)
        refine ⟨m', hm', fun k hk => ?_, fun k hk => ?_⟩
        · rcases (passed_iff_of_lt hlt hs).1 hk with rfl | hk
          · rw [hkept k hstart, Function.update_self]
          · exact hset k hk
        · rw [passed_iff_of_lt hlt hs, not_or] at hk
          rw [hkept k hk.2, Function.update_of_ne hk.1]
      · rw [if_neg fun h => hlt h.1]
        exact ⟨m, rfl, fun k hk => absurd hk (not_passed fun h => hlt h.2), fun _ _ => rfl⟩
    · rw [if_neg fun h => hs h.2]
      exact ⟨m, rfl, fun k hk => absurd hk (not_passed fun h => hs h.1), fun _ _ => rfl⟩

/-! ## The second loop

The loop goes down from the picked row and treats each row of a smaller level than any it has met:
these are the rows that head the picked one, the nearest first.  A directory is marked by counting
the marks below it, and by then all that lies between it and the picked row is settled. -/

/-- **The inner count**: every row passed over is flagged exactly when the count has kept up with
the index.  The count never overtakes the index, so it has kept up only if it has not missed one
row. -/
theorem countFlags_spec {picked : ℤ} {passes start flags : ℕ} (m : ℕ → Bool)
    (hp : rows.length - start ≤ passes) :
    ∃ t f, countFlags pastLevel (withMarks rows m) picked passes start flags = (t, f) ∧
      start ≤ t ∧ f + start ≤ t + flags ∧
      (f + start = t + flags ↔ ∀ k, Passed rows picked start k → m k = true) := by
  induction passes generalizing start flags with
  | zero =>
    refine ⟨start, flags, rfl, le_rfl, by omega, iff_of_true (by omega) fun k hk => ?_⟩
    exact absurd hk (not_passed fun h => by omega)
  | succ passes ih =>
    rw [countFlags, levelAt_withMarks, length_withMarks]
    by_cases hs : start < rows.length ∧ picked < level rows start
    · rw [if_pos ⟨hs.1, by rw [levelAt_eq_level hs.1]; exact hs.2⟩, isMarkedAt_withMarks _ _ hs.1]
      have hrest : rows.length - (start + 1) ≤ passes := by omega
      obtain ⟨t, f, hc, hst, hle, hiff⟩ := @ih _ (if m start = true then flags + 1 else flags) hrest
      refine ⟨t, f, hc, by omega, ?_, ?_⟩
      · split at hle <;> omega
      · rw [forall_congr' fun k => imp_congr_left (passed_iff_of_lt hs.2 hs.1)]
        cases hm : m start with
        | true =>
          rw [if_pos hm] at hiff hle
          rw [show f + start = t + flags ↔ f + (start + 1) = t + (flags + 1) by omega, hiff]
          refine forall_congr' fun k => ⟨fun h => ?_, fun h hk => h (.inr hk)⟩
          rintro (rfl | hk)
          · exact hm
          · exact h hk
        | false =>
          rw [if_neg (by simp [hm])] at hle
          exact iff_of_false (by omega) fun h => by simpa [hm] using h start (.inl rfl)
    · have hstop : ¬ (start < rows.length ∧ picked < levelAt pastLevel rows start) :=
        fun h => hs ⟨h.1, by rw [← levelAt_eq_level h.1 pastLevel]; exact h.2⟩
      rw [if_neg hstop]
      exact ⟨start, flags, rfl, le_rfl, by omega,
        iff_of_true (by omega) fun k hk => absurd hk (not_passed hs)⟩

/-- What the second loop does to a row that heads the marked one: it is cleared with it, and marked
with it once all it heads is marked. -/
theorem markParent_spec {current : ℕ} (m : ℕ → Bool) (hc : current < rows.length) :
    ∃ m', markParent pastLevel mark current (withMarks rows m) = withMarks rows m' ∧
      (∀ k, k ≠ current → m' k = m k) ∧ (mark = false → m' current = false) ∧
      (mark = true → (m' current = true ↔
        m current = true ∨ ∀ k < rows.length, Heads (level rows) current k → m k = true)) := by
  cases mark with
  | false =>
    refine ⟨Function.update m current false, assign_withMarks ..,
      fun k hk => Function.update_of_ne hk .., fun _ => Function.update_self ..,
      fun h => absurd h Bool.false_ne_true⟩
  | true =>
    have hpasses : rows.length - (current + 1) ≤ rows.length := by omega
    obtain ⟨t, f, hcount, hst, -, hiff⟩ :=
      @countFlags_spec rows pastLevel (level rows current) _ _ 0 m hpasses
    have hall : f = t - current - 1 ↔
        ∀ k < rows.length, Heads (level rows) current k → m k = true := by
      rw [show f = t - current - 1 ↔ f + (current + 1) = t + 0 by omega, hiff]
      exact forall_congr' fun k => by rw [passed_succ_iff, and_imp]
    have hparent : markParent pastLevel true current (withMarks rows m)
        = if f = t - current - 1 then assign (withMarks rows m) current true
          else withMarks rows m := by
      rw [markParent, if_neg (by simp), levelAt_withMarks, levelAt_eq_level hc, length_withMarks,
        hcount]
    rw [hparent]
    by_cases hf : f = t - current - 1
    · rw [if_pos hf, assign_withMarks]
      exact ⟨_, rfl, fun k hk => Function.update_of_ne hk .., fun h => absurd h (by simp),
        fun _ => iff_of_true (Function.update_self ..) (.inr (hall.1 hf))⟩
    · rw [if_neg hf]
      exact ⟨m, rfl, fun _ _ => rfl, fun h => absurd h (by simp),
        fun _ => ⟨.inl, fun h => h.resolve_right fun hh => hf (hall.2 hh)⟩⟩

/-- The rows before `current` that the second loop still settles: their level is smaller than the
picked one and than every level in between. -/
def Pending (rows : List FileNode) (current : ℕ) (picked : ℤ) (c : ℕ) : Prop :=
  c < current ∧ level rows c < picked ∧ ∀ k, c < k → k < current → level rows c < level rows k

/-- A row of a smaller level is settled, and from then on its level is the one to be beaten. -/
theorem pending_succ_of_lt {current c : ℕ} {picked : ℤ} (h : level rows current < picked) :
    Pending rows (current + 1) picked c ↔
      c = current ∨ Pending rows current (level rows current) c := by
  constructor
  · rintro ⟨hc, hp, hall⟩
    rcases Nat.eq_or_lt_of_le (Nat.lt_succ_iff.1 hc) with rfl | hlt
    · exact .inl rfl
    · exact .inr ⟨hlt, hall current hlt (by omega), fun k hk hk' => hall k hk (by omega)⟩
  · rintro (rfl | ⟨hc, hp, hall⟩)
    · exact ⟨by omega, h, fun k hk hk' => absurd hk (by omega)⟩
    · refine ⟨by omega, hp.trans h, fun k hk hk' => ?_⟩
      rcases Nat.eq_or_lt_of_le (Nat.lt_succ_iff.1 hk') with rfl | hlt
      · exact hp
      · exact hall k hk hlt

/-- A row of no smaller level is passed over. -/
theorem pending_succ_of_not_lt {current c : ℕ} {picked : ℤ} (h : ¬ level rows current < picked) :
    Pending rows (current + 1) picked c ↔ Pending rows current picked c := by
  constructor
  · rintro ⟨hc, hp, hall⟩
    rcases Nat.eq_or_lt_of_le (Nat.lt_succ_iff.1 hc) with rfl | hlt
    · exact absurd hp h
    · exact ⟨hlt, hp, fun k hk hk' => hall k hk (by omega)⟩
  · rintro ⟨hc, hp, hall⟩
    refine ⟨by omega, hp, fun k hk hk' => ?_⟩
    rcases Nat.eq_or_lt_of_le (Nat.lt_succ_iff.1 hk') with rfl | hlt
    · exact hp.trans_le (not_lt.1 h)
    · exact hall k hk hlt

/-- **The second loop settles the pending rows and no others**: each is cleared, or marked when all
it heads has been marked by the time it is reached — which later passes do not change. -/
theorem markAbove_spec {current : ℕ} {picked : ℤ} (m : ℕ → Bool) (hc : current ≤ rows.length) :
    ∃ m', markAbove pastLevel mark current picked (withMarks rows m) = withMarks rows m' ∧
      (∀ c, ¬ Pending rows current picked c → m' c = m c) ∧
      (mark = false → ∀ c, Pending rows current picked c → m' c = false) ∧
      (mark = true → ∀ c, Pending rows current picked c → (m' c = true ↔
        m c = true ∨ ∀ k < rows.length, Heads (level rows) c k → m' k = true)) := by
  induction current generalizing picked m with
  | zero =>
    exact ⟨m, rfl, fun _ _ => rfl, fun _ c hp => absurd hp.1 (by omega),
      fun _ c hp => absurd hp.1 (by omega)⟩
  | succ current ih =>
    rw [markAbove, levelAt_withMarks, levelAt_eq_level (by omega)]
    by_cases hlt : level rows current < picked
    · rw [if_pos hlt]
      obtain ⟨m₁, hm₁, hkept₁, hclear₁, hmark₁⟩ :=
        @markParent_spec rows pastLevel mark current m (by omega)
      rw [hm₁]
      obtain ⟨m', hm', hkept, hclear, hmark⟩ := @ih (level rows current) m₁ (by omega)
      have hself : m' current = m₁ current := hkept current fun h => absurd h.1 (by omega)
      simp only [pending_succ_of_lt hlt]
      refine ⟨m', hm', fun c hp => ?_, fun hb c hp => ?_, fun hb c hp => ?_⟩
      · rw [not_or] at hp
        rw [hkept c hp.2, hkept₁ c hp.1]
      · rcases hp with rfl | hp
        · rw [hself, hclear₁ hb]
        · exact hclear hb c hp
      · rcases hp with rfl | hp
        · -- what the row heads lies after it, where no later pass comes
          have hafter : ∀ k, Heads (level rows) c k → m' k = m k := fun k hk => by
            rw [hkept k fun h => absurd h.1 (by have := hk.1; omega),
              hkept₁ k (Nat.ne_of_gt hk.1)]
          rw [hself, hmark₁ hb]
          exact or_congr_right (forall₂_congr fun k _ =>
            forall_congr' fun hk => by rw [hafter k hk])
        · rw [hmark hb c hp, hkept₁ c (by have := hp.1; omega)]
    · rw [if_neg hlt]
      simp only [pending_succ_of_not_lt hlt]
      exact ih m (by omega)

/-! ## `setMark` -/

/-- From the picked row on, what the loop settles is what heads that row. -/
theorem pending_iff_heads {i c : ℕ} :
    Pending rows i (level rows i) c ↔ Heads (level rows) c i := by
  constructor
  · rintro ⟨hc, hp, hall⟩
    refine ⟨hc, fun k hk hki => ?_⟩
    rcases Nat.eq_or_lt_of_le hki with rfl | hlt
    · exact hp
    · exact hall k hk hlt
  · rintro ⟨hc, hall⟩
    exact ⟨hc, hall i hc le_rfl, fun k hk hki => hall k hk hki.le⟩

/-- **`setMark` is a marking of the outline of its rows**, whatever the read past the last row
yields. -/
theorem marking_of_setMark (pastLevel : ℤ) (mark : Bool) (m : ℕ → Bool) {i : ℕ}
    (hi : i < rows.length) :
    ∃ m', setMark pastLevel (withMarks rows m) i mark = withMarks rows m' ∧
      Marking rows.length (level rows) i mark m m' := by
  obtain ⟨m₁, hm₁, hset, hkept₁⟩ := @markBelow_spec rows pastLevel mark (level rows i) rows.length
    (i + 1) (Function.update m i mark) (by omega)
  obtain ⟨m', hm', hkept, hclear, hmark⟩ :=
    @markAbove_spec rows pastLevel mark i (level rows i) m₁ hi.le
  simp only [passed_succ_iff] at hset hkept₁
  simp only [pending_iff_heads] at hkept hclear hmark
  have hbefore : ∀ j, j < i → m₁ j = m j := fun j hj => by
    rw [hkept₁ j fun h => absurd h.2.1 (by omega), Function.update_of_ne hj.ne]
  have hafter : ∀ j, ¬ j < i → m' j = m₁ j := fun j hj => hkept j fun h => hj h.1
  refine ⟨m', ?_, ?_, hclear, fun hb j hj => ?_, fun j hcov hhead => ?_⟩
  · rw [setMark, assign_withMarks, length_withMarks, levelAt_withMarks, levelAt_eq_level hi, hm₁,
      hm']
  · rintro j hj (rfl | hij)
    · rw [hafter j (lt_irrefl j), hkept₁ j fun h => lt_irrefl j h.2.1, Function.update_self]
    · rw [hafter j (by have := hij.1; omega), hset j ⟨hj, hij⟩]
  · rw [hmark hb j hj, hbefore j hj.1]
  · rw [hkept j hhead, hkept₁ j fun h => hcov (.inr h.2),
      Function.update_of_ne fun h => hcov (.inl h)]

/-- A call at a row leaves as many rows as there were. -/
theorem length_setMark (pastLevel : ℤ) (mark : Bool) {i : ℕ} (hi : i < rows.length) :
    (setMark pastLevel rows i mark).length = rows.length := by
  obtain ⟨m', hm', -⟩ := marking_of_setMark pastLevel mark (isMarkedAt rows) hi
  rw [withMarks_isMarkedAt] at hm'
  rw [hm', length_withMarks]

end FilesPicker

end TorrentX
