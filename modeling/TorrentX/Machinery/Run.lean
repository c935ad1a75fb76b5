import Mathlib

/-!
# Machinery/Run — finite runs of a step function that may fault

A `step` takes a state and an input and either faults or yields an output and the next state.
`Run step s tr t` says that the inputs of the trace `tr`, fed one after another from `s`, produce
its outputs and end in `t`.  Traces grow at their end, so a property of the history is proved by
`Run.rec`: nothing has happened, or one more step has.

`EveryStep` states a property of each step of a run together with the history before it.

A step is itself a chain of parts that may fault; the chain returns exactly when each part does
(`bind_of_eq_ok`, `exists_of_bind_eq_ok`), and so does a loop (`exists_of_foldlM_eq_ok`,
`exists_foldlM_eq_ok`).
-/

/-! ## Lists that grow at their end -/

/-- **A part of a longer list** is its last entry, or a part of the list before. -/
theorem snoc_eq_append_cons_iff {α : Type*} {l pre post : List α} {a b : α} :
    l ++ [a] = pre ++ b :: post ↔
      (l = pre ∧ a = b ∧ post = []) ∨ ∃ post', post = post' ++ [a] ∧ l = pre ++ b :: post' := by
  constructor
  · intro h
    rcases List.eq_nil_or_concat' post with rfl | ⟨post, c, rfl⟩
    · obtain ⟨rfl, rfl⟩ := List.append_singleton_inj.1 h
      exact .inl ⟨rfl, rfl, rfl⟩
    · rw [← List.cons_append, ← List.append_assoc] at h
      obtain ⟨rfl, rfl⟩ := List.append_singleton_inj.1 h
      exact .inr ⟨post, rfl, rfl⟩
  · rintro (⟨rfl, rfl, rfl⟩ | ⟨post, rfl, rfl⟩)
    · rfl
    · rw [List.append_assoc, List.cons_append]

/-! ## Chains that may fault -/

section Bind

variable {ε α β : Type} {x : Except ε α} {f : α → Except ε β}

/-- The chain goes on with what the first part yields. -/
theorem bind_of_eq_ok {a : α} (h : x = .ok a) (f : α → Except ε β) : x >>= f = f a := by
  rw [h]
  rfl

/-- In a chain that returns, the first part does. -/
theorem exists_of_bind_eq_ok {b : β} (h : x >>= f = .ok b) : ∃ a, x = .ok a ∧ f a = .ok b := by
  cases x with
  | error e => cases h
  | ok a => exact ⟨a, rfl, h⟩

end Bind

section Fold

variable {ε α β : Type} {f : β → α → Except ε β} {l : List α} {b r : β}

/-- In a loop that returns, every pass does. -/
theorem exists_of_foldlM_eq_ok (h : l.foldlM f b = .ok r) : ∀ a ∈ l, ∃ s s', f s a = .ok s' := by
  induction l generalizing b with
  | nil => exact fun a ha => absurd ha List.not_mem_nil
  | cons a l ih =>
    rw [List.foldlM_cons] at h
    obtain ⟨s, hs, hl⟩ := exists_of_bind_eq_ok h
    exact List.forall_mem_cons.2 ⟨⟨b, s, hs⟩, ih hl⟩

/-- The fault of a loop is that of a pass. -/
theorem exists_of_foldlM_eq_error {e : ε} (h : l.foldlM f b = .error e) :
    ∃ a ∈ l, ∃ s, f s a = .error e := by
  induction l generalizing b with
  | nil => cases h
  | cons a l ih =>
    rw [List.foldlM_cons] at h
    cases hs : f b a with
    | error e' =>
      rw [hs] at h
      cases h
      exact ⟨a, List.mem_cons_self, b, hs⟩
    | ok s =>
      rw [bind_of_eq_ok hs] at h
      obtain ⟨a', ha', hfault⟩ := ih h
      exact ⟨a', List.mem_cons_of_mem a ha', hfault⟩

/-- **A loop whose passes return and keep a property** returns with it. -/
theorem exists_foldlM_eq_ok {P : β → Prop}
    (h : ∀ a ∈ l, ∀ s, P s → ∃ s', f s a = .ok s' ∧ P s') (hb : P b) :
    ∃ r, l.foldlM f b = .ok r ∧ P r := by
  induction l generalizing b with
  | nil => exact ⟨b, rfl, hb⟩
  | cons a l ih =>
    obtain ⟨s, hs, hP⟩ := h a List.mem_cons_self b hb
    rw [List.foldlM_cons, bind_of_eq_ok hs]
    exact ih (fun a' ha' => h a' (List.mem_cons_of_mem a ha')) hP

/-- A loop whose passes append each a block appends the blocks in order. -/
theorem foldlM_eq_ok_append {f : List β → α → Except ε (List β)} {g : α → List β}
    (h : ∀ a ∈ l, ∀ r, f r a = .ok (r ++ g a)) (r : List β) :
    l.foldlM f r = .ok (r ++ l.flatMap g) := by
  induction l generalizing r with
  | nil => exact congrArg Except.ok (List.append_nil r).symm
  | cons a l ih =>
    rw [List.foldlM_cons, bind_of_eq_ok (h a List.mem_cons_self r), List.flatMap_cons,
      ← List.append_assoc]
    exact ih (fun b hb => h b (List.mem_cons_of_mem a hb)) _

/-! ### Loops over an index -/

section Range

variable {f : β → ℕ → Except ε β} {P Q : ℕ → Prop}

/-- One index more is one pass more. -/
theorem foldlM_range_succ (f : β → ℕ → Except ε β) (n : ℕ) (b : β) :
    (List.range (n + 1)).foldlM f b = (List.range n).foldlM f b >>= (f · n) := by
  rw [List.range_succ, List.foldlM_append]
  refine congrArg (_ >>= ·) (funext fun s => ?_)
  rw [List.foldlM_cons]
  cases f s n <;> rfl

/-- **When does a loop return?**  When every pass does, if that is the same in each state. -/
theorem foldlM_range_eq_ok_iff (hok : ∀ s i, (∃ s', f s i = .ok s') ↔ P i) (n : ℕ) (b : β) :
    (∃ r, (List.range n).foldlM f b = .ok r) ↔ ∀ i < n, P i := by
  induction n with
  | zero => exact iff_of_true ⟨b, rfl⟩ nofun
  | succ n ih =>
    rw [foldlM_range_succ, Nat.forall_lt_succ_right, ← ih]
    constructor
    · rintro ⟨r, hr⟩
      obtain ⟨s, hs, hpass⟩ := exists_of_bind_eq_ok hr
      exact ⟨⟨s, hs⟩, (hok s n).1 ⟨r, hpass⟩⟩
    · rintro ⟨⟨s, hs⟩, hP⟩
      obtain ⟨r, hr⟩ := (hok s n).2 hP
      exact ⟨r, (bind_of_eq_ok hs _).trans hr⟩

/-- **When does a loop end with a fault?**  When a pass does, and every pass before returns. -/
theorem foldlM_range_eq_error_iff (hok : ∀ s i, (∃ s', f s i = .ok s') ↔ P i) {e : ε}
    (herror : ∀ s i, f s i = .error e ↔ Q i) (n : ℕ) (b : β) :
    (List.range n).foldlM f b = .error e ↔ ∃ i < n, (∀ j < i, P j) ∧ Q i := by
  induction n with
  | zero => exact iff_of_false (by rintro ⟨⟩) (by simp)
  | succ n ih =>
    rw [foldlM_range_succ, Nat.exists_lt_succ_right, ← ih, ← foldlM_range_eq_ok_iff hok n b]
    cases hs : (List.range n).foldlM f b with
    | ok s =>
      rw [bind_of_eq_ok rfl, herror]
      simp
    | error e' => simp [bind, Except.bind]

end Range

end Fold

/-! ## Runs -/

variable {σ ι ο ε : Type*} (step : σ → ι → Except ε (ο × σ))

/-- The inputs and outputs of `tr` lead from the state `s` to a state. -/
inductive Run (s : σ) : List (ι × ο) → σ → Prop
  | nil : Run s [] s
  | snoc {tr : List (ι × ο)} {t u : σ} {i : ι} {o : ο} :
      Run s tr t → step t i = .ok (o, u) → Run s (tr ++ [(i, o)]) u

variable {step} {s t u : σ} {tr : List (ι × ο)} {x : ι × ο}

namespace Run

/-- The state a run ends in. -/
abbrev last (_ : Run step s tr t) : σ := t

theorem eq_of_nil (h : Run step s [] t) : t = s := by
  generalize htr : ([] : List (ι × ο)) = tr at h
  cases h with
  | nil => rfl
  | snoc _ _ => exact absurd htr (by simp)

/-- The last step of a run. -/
theorem exists_of_snoc (h : Run step s (tr ++ [x]) u) :
    ∃ t, Run step s tr t ∧ step t x.1 = .ok (x.2, u) := by
  generalize htr : tr ++ [x] = tr' at h
  cases h with
  | nil => exact absurd htr (by simp)
  | snoc hr hs =>
    obtain ⟨rfl, rfl⟩ := List.append_singleton_inj.1 htr
    exact ⟨_, hr, hs⟩

/-- A run may start one step earlier. -/
theorem cons (hs : step s x.1 = .ok (x.2, t)) (h : Run step t tr u) : Run step s (x :: tr) u := by
  induction h with
  | nil => exact .snoc .nil hs
  | snoc _ hstep ih => exact .snoc ih hstep

/-- The first step of a run. -/
theorem exists_of_cons (h : Run step s (x :: tr) u) :
    ∃ t, step s x.1 = .ok (x.2, t) ∧ Run step t tr u := by
  induction tr using List.reverseRecOn generalizing u with
  | nil =>
    have hsnoc : Run step s ([] ++ [x]) u := h
    obtain ⟨t, ht, hs⟩ := hsnoc.exists_of_snoc
    obtain rfl := ht.eq_of_nil
    exact ⟨u, hs, .nil⟩
  | append_singleton tr y ih =>
    rw [← List.cons_append] at h
    obtain ⟨v, hv, hy⟩ := h.exists_of_snoc
    obtain ⟨t, hs, ht⟩ := ih hv
    exact ⟨t, hs, .snoc ht hy⟩

/-- A run ends in one state only. -/
theorem eq (h : Run step s tr t) (h' : Run step s tr u) : t = u := by
  induction h generalizing u with
  | nil => exact h'.eq_of_nil.symm
  | snoc _ hs ih =>
    obtain ⟨v, hv, hv'⟩ := h'.exists_of_snoc
    rw [ih hv, hv'] at hs
    exact (Prod.mk.inj (Except.ok.inj hs)).2.symm

end Run

/-! ## Traces with silent steps left out -/

section Thins

variable {same : ι → ι → Prop} {silent : ι → Prop} {tr' : List (ι × ο)}

/-- The second trace is the first with some silent inputs left out, together with their outputs; the
others stay, up to `same`, with the outputs they had. -/
inductive Thins (same : ι → ι → Prop) (silent : ι → Prop) :
    List (ι × ο) → List (ι × ο) → Prop
  | nil : Thins same silent [] []
  | keep {tr tr' : List (ι × ο)} {i i' : ι} {o : ο} :
      Thins same silent tr tr' → same i i' → Thins same silent (tr ++ [(i, o)]) (tr' ++ [(i', o)])
  | drop {tr tr' : List (ι × ο)} {i : ι} {o : ο} :
      Thins same silent tr tr' → silent i → Thins same silent (tr ++ [(i, o)]) tr'

/-- **Silent steps can be left out of a run**, when related states answer the same inputs alike and
stay related, and a silent step leaves a state related to what it was related to. -/
theorem Run.thin (hr : Run step s tr t) (R : σ → σ → Prop) (valid : ι → Prop)
    (hsame : ∀ {a b c : σ} {i i' : ι} {o : ο}, valid i → R a b → same i i' →
      step a i = .ok (o, c) → ∃ d, step b i' = .ok (o, d) ∧ R c d)
    (hsilent : ∀ {a b c : σ} {i : ι} {o : ο}, valid i → R a b → silent i →
      step a i = .ok (o, c) → R c b)
    (hs : R s s) (ht : Thins same silent tr tr') (hvalid : ∀ x ∈ tr, valid x.1) :
    ∃ t', Run step s tr' t' ∧ R t t' := by
  induction ht generalizing t with
  | nil => exact ⟨s, .nil, hr.eq_of_nil ▸ hs⟩
  | @keep tr tr' i i' o _ hi ih =>
    rw [List.forall_mem_append] at hvalid
    obtain ⟨u, hu, hstep⟩ := hr.exists_of_snoc
    obtain ⟨u', hu', hrel⟩ := ih hu hvalid.1
    obtain ⟨t', ht', hrel'⟩ := hsame (hvalid.2 (i, o) (by simp)) hrel hi hstep
    exact ⟨t', .snoc hu' ht', hrel'⟩
  | @drop tr tr' i o _ hi ih =>
    rw [List.forall_mem_append] at hvalid
    obtain ⟨u, hu, hstep⟩ := hr.exists_of_snoc
    obtain ⟨u', hu', hrel⟩ := ih hu hvalid.1
    exact ⟨u', hu', hsilent (hvalid.2 (i, o) (by simp)) hrel hi hstep⟩

end Thins

/-! ## Properties of every step -/

variable (step s)

/-- Each step of the trace, with the history and the state before it and the state after it,
satisfies `P`. -/
def EveryStep (P : List (ι × ο) → σ → ι × ο → σ → Prop) (tr : List (ι × ο)) : Prop :=
  ∀ pre x post t u, tr = pre ++ x :: post → Run step s pre t → step t x.1 = .ok (x.2, u) →
    P pre t x u

variable {step s} {P Q : List (ι × ο) → σ → ι × ο → σ → Prop}

/-- There is no step yet. -/
theorem everyStep_nil : EveryStep step s P [] := fun pre x post _ _ h => absurd h (by simp)

/-- **One step more**: a property of every step of the longer trace is the property of every step
before, and of the last one. -/
theorem everyStep_snoc (hr : Run step s tr t) (hs : step t x.1 = .ok (x.2, u)) :
    EveryStep step s P (tr ++ [x]) ↔ EveryStep step s P tr ∧ P tr t x u := by
  constructor
  · refine fun h => ⟨fun pre y post v w htr => h pre y (post ++ [x]) v w ?_, ?_⟩
    · rw [htr, List.append_assoc, List.cons_append]
    · exact h tr x [] t u rfl hr hs
  · rintro ⟨h, hx⟩ pre y post v w htr hv hw
    rcases snoc_eq_append_cons_iff.1 htr with ⟨rfl, rfl, rfl⟩ | ⟨post, rfl, rfl⟩
    · obtain rfl := hv.eq hr
      obtain rfl : u = w := (Prod.mk.inj (Except.ok.inj (hs.symm.trans hw))).2
      exact hx
    · exact h pre y post v w rfl hv hw

/-! ## Properties of every state

A run goes through one state more than it has steps.  `EveryStep` speaks of what lies between two of
them, and `EveryState` of the states. -/

variable (step s)

/-- Each state the run goes through, with the history before it, satisfies `R`. -/
def EveryState (R : List (ι × ο) → σ → Prop) (tr : List (ι × ο)) : Prop :=
  ∀ pre t, pre <+: tr → Run step s pre t → R pre t

variable {step s} {R : List (ι × ο) → σ → Prop}

theorem EveryState.last (h : EveryState step s R tr) (hr : Run step s tr t) : R tr t :=
  h tr t List.prefix_rfl hr

/-- There is one state already. -/
theorem everyState_nil : EveryState step s R [] ↔ R [] s := by
  refine ⟨fun h => h.last .nil, fun h pre t hpre hr => ?_⟩
  obtain rfl := List.prefix_nil.1 hpre
  rwa [hr.eq_of_nil]

/-- **One step more**: a property of every state of the longer run is the property of every state
before, and of the last one. -/
theorem everyState_snoc (hr : Run step s tr t) (hs : step t x.1 = .ok (x.2, u)) :
    EveryState step s R (tr ++ [x]) ↔ EveryState step s R tr ∧ R (tr ++ [x]) u := by
  constructor
  · exact fun h => ⟨fun pre v hpre => h pre v (hpre.trans (List.prefix_append _ _)),
      h.last (.snoc hr hs)⟩
  · rintro ⟨h, hx⟩ pre v hpre hv
    rcases List.prefix_concat_iff.1 hpre with rfl | hpre
    · rwa [hv.eq (.snoc hr hs)]
    · exact h pre v hpre hv

/-- **An invariant with the exact condition on the steps**: when a step keeps `R` exactly if it
satisfies `Q`, every state satisfies `R` exactly if every step satisfies `Q`. -/
theorem everyState_iff_everyStep {Q : List (ι × ο) → σ → ι × ο → σ → Prop} (h0 : R [] s)
    (hstep : ∀ {tr t x u}, Run step s tr t → step t x.1 = .ok (x.2, u) → R tr t →
      (R (tr ++ [x]) u ↔ Q tr t x u))
    (hr : Run step s tr t) : EveryState step s R tr ↔ EveryStep step s Q tr := by
  induction hr with
  | nil => exact iff_of_true (everyState_nil.2 h0) everyStep_nil
  | @snoc tr t u i o hr hs ih =>
    have hs' : step t (i, o).1 = .ok ((i, o).2, u) := hs
    rw [everyState_snoc hr hs', everyStep_snoc hr hs', ← ih]
    exact and_congr_right fun h => hstep hr hs' (h.last hr)
