import TorrentX.Machinery.Run

/-!
# Machinery/Outcome — what a computation returns, and how it may fault

`Outcome Q E x` says that what `x` returns satisfies `Q`, and that a fault of `x` satisfies `E`.
The rules follow the program: one part after another (`Outcome.bind`), a loop with its invariant
(`Outcome.foldlM`), and step after step a run, as long as its inputs are admitted
(`Run.invariant`).
-/

section Outcome

variable {ε α β : Type} {P Q : α → Prop} {E : ε → Prop} {x : Except ε α}

/-- What is returned satisfies `Q`, and a fault satisfies `E`. -/
def Outcome (Q : α → Prop) (E : ε → Prop) : Except ε α → Prop
  | .ok a => Q a
  | .error e => E e

namespace Outcome

theorem of_ok {a : α} (h : Outcome Q E x) (hx : x = .ok a) : Q a := by
  rw [hx] at h
  exact h

theorem of_error {e : ε} (h : Outcome Q E x) (hx : x = .error e) : E e := by
  rw [hx] at h
  exact h

theorem mono (h : Outcome P E x) (hPQ : ∀ a, P a → Q a) : Outcome Q E x := by
  cases x with
  | ok a => exact hPQ a h
  | error e => exact h

/-- **One part after another.** -/
theorem bind {R : β → Prop} {f : α → Except ε β} (h : Outcome Q E x)
    (hf : ∀ a, Q a → Outcome R E (f a)) : Outcome R E (x >>= f) := by
  cases x with
  | ok a => exact hf a h
  | error e => exact h

/-- **A loop** whose passes keep the invariant returns with it, and faults as a pass does. -/
theorem foldlM {I : β → Prop} {f : β → α → Except ε β} {l : List α} {b : β} (hb : I b)
    (h : ∀ a ∈ l, ∀ s, I s → Outcome I E (f s a)) : Outcome I E (l.foldlM f b) := by
  induction l generalizing b with
  | nil => exact hb
  | cons a l ih =>
    rw [List.foldlM_cons]
    exact (h a List.mem_cons_self b hb).bind fun s hs =>
      ih hs fun a' ha' => h a' (List.mem_cons_of_mem a ha')

end Outcome

end Outcome

section Runs

variable {σ ι ο ε : Type} {step : σ → ι → Except ε (ο × σ)} {s t : σ} {tr : List (ι × ο)}

/-- **An invariant that the admitted inputs keep** holds after every run of them. -/
theorem Run.invariant {I : σ → Prop} {Admitted : σ → ι → Prop} {E : ε → Prop}
    (hstep : ∀ t i, I t → Admitted t i → Outcome (fun x => I x.2) E (step t i)) (h0 : I s)
    (hr : Run step s tr t) (hadmitted : EveryStep step s (fun _ t x _ => Admitted t x.1) tr) :
    I t := by
  induction hr with
  | nil => exact h0
  | @snoc tr t u i o hr hs ih =>
    obtain ⟨hpre, hlast⟩ := (everyStep_snoc (x := (i, o)) hr hs).1 hadmitted
    exact (hstep t i (ih hpre) hlast).of_ok hs

/-- What an admitted step from the invariant does, every step of a run of them does. -/
theorem EveryStep.of_invariant {I : σ → Prop} {Admitted : σ → ι → Prop} {E : ε → Prop}
    {P : σ → ι × ο → σ → Prop}
    (hI : ∀ t i, I t → Admitted t i → Outcome (fun x => I x.2) E (step t i))
    (hP : ∀ {t u i o}, I t → Admitted t i → step t i = .ok (o, u) → P t (i, o) u) (h0 : I s)
    (hadmitted : EveryStep step s (fun _ t x _ => Admitted t x.1) tr) :
    EveryStep step s (fun _ t x u => P t x u) tr := by
  intro pre x post t u htr hr hs
  have hpre : EveryStep step s (fun _ t x _ => Admitted t x.1) pre := by
    intro pre' y post' v w hpre hv hw
    refine hadmitted pre' y (post' ++ x :: post) v w ?_ hv hw
    rw [htr, hpre, List.append_assoc, List.cons_append]
  exact hP (hr.invariant hI h0 hpre) (hadmitted pre x post t u htr hr hs) hs

/-- **A property with the exact condition on the steps**, where an invariant holds: when an admitted
step from the invariant keeps `R` exactly if it satisfies `Q`, every state satisfies `R` exactly if
the first one does and every step satisfies `Q`. -/
theorem Run.everyState_iff {I : σ → Prop} {Admitted : σ → ι → Prop} {E : ε → Prop} {R : σ → Prop}
    {Q : σ → ι × ο → Prop}
    (hI : ∀ t i, I t → Admitted t i → Outcome (fun x => I x.2) E (step t i))
    (hstep : ∀ {t u i o}, I t → Admitted t i → step t i = .ok (o, u) → R t → (R u ↔ Q t (i, o)))
    (h0 : I s) (hr : Run step s tr t)
    (hadmitted : EveryStep step s (fun _ t x _ => Admitted t x.1) tr) :
    EveryState step s (fun _ t => R t) tr ↔ R s ∧ EveryStep step s (fun _ t x _ => Q t x) tr := by
  induction hr with
  | nil => rw [everyState_nil, and_iff_left everyStep_nil]
  | @snoc tr t u i o hr hs ih =>
    have hs' : step t (i, o).1 = .ok ((i, o).2, u) := hs
    obtain ⟨hpre, hlast⟩ := (everyStep_snoc hr hs').1 hadmitted
    rw [everyState_snoc hr hs', everyStep_snoc hr hs', ← and_assoc, ← ih hpre]
    exact and_congr_right fun h => hstep (hr.invariant hI h0 hpre) hlast hs (h.last hr)

end Runs
