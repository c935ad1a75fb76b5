import Mathlib

/-!
# Machinery/SessionLog — membership sessions read off an event log

A log is a list of events, of which some *join*, some *leave* and some *finish*.  The current
session is what the log says after its last leave: it is opened by the first join found there and
finished once a finishing event has followed that join.  `session_snoc` computes the session after
one more event from the session before, which is how an incremental implementation keeps it.
-/

/-- Which events of a log open, close and finish a session. -/
structure SessionLog (ε : Type*) where
  joins : ε → Bool
  leaves : ε → Bool
  finishes : ε → Bool

namespace SessionLog

variable {ε δ : Type*}

/-- The events after the last one that leaves. -/
def sinceLeave (L : SessionLog ε) (log : List ε) : List ε := log.rtakeWhile fun e => !L.leaves e

/-- The open session of a log: the first join after the last leave, and whether a finishing event
came after that join.  `none` when no session is open. -/
def session (L : SessionLog ε) (log : List ε) : Option (ε × Bool) :=
  match (L.sinceLeave log).dropWhile fun e => !L.joins e with
  | [] => none
  | e :: later => some (e, later.any L.finishes)

variable (L : SessionLog ε)

/-- What one more event does to the open session. -/
def next (o : Option (ε × Bool)) (e : ε) : Option (ε × Bool) :=
  if L.leaves e then none
  else
    match o with
    | none => if L.joins e then some (e, false) else none
    | some (j, done) => some (j, done || L.finishes e)

/-- **The session after one more event.** -/
theorem session_snoc (log : List ε) (e : ε) :
    L.session (log ++ [e]) = L.next (L.session log) e := by
  unfold session sinceLeave next
  by_cases hl : L.leaves e = true
  · rw [List.rtakeWhile_concat_neg _ _ _ (by simp [hl]), if_pos hl]
    rfl
  · rw [List.rtakeWhile_concat_pos _ _ _ (by simp [hl]), if_neg hl, List.dropWhile_append]
    cases h : (log.rtakeWhile fun e => !L.leaves e).dropWhile fun e => !L.joins e with
    | nil => by_cases hj : L.joins e <;> simp [hj]
    | cons j later => simp

/-- The event that opened a session is in the log. -/
theorem mem_of_session {log : List ε} {s : ε × Bool} (h : L.session log = some s) : s.1 ∈ log := by
  unfold session at h
  split at h
  · exact absurd h (by simp)
  · next e later hd =>
    rw [← Option.some.inj h]
    have hmem : e ∈ L.sinceLeave log :=
      (List.dropWhile_sublist _).subset (hd ▸ List.mem_cons_self)
    exact (List.rtakeWhile_suffix _ log).subset hmem

/-- A session read off a relabelled log is the relabelled session. -/
theorem session_map (L : SessionLog δ) (f : ε → δ) (log : List ε) :
    L.session (log.map f)
      = ((⟨L.joins ∘ f, L.leaves ∘ f, L.finishes ∘ f⟩ : SessionLog ε).session log).map
          (Prod.map f id) := by
  induction log using List.reverseRecOn with
  | nil => rfl
  | append_singleton log e ih =>
    rw [List.map_append, List.map_singleton, session_snoc, session_snoc, ih]
    unfold next
    cases (⟨L.joins ∘ f, L.leaves ∘ f, L.finishes ∘ f⟩ : SessionLog ε).session log with
    | none => by_cases hl : L.leaves (f e) <;> by_cases hj : L.joins (f e) <;> simp [hl, hj]
    | some s => by_cases hl : L.leaves (f e) <;> simp [hl]

/-! ## All the sessions of a log

The open session says nothing of those before it.  To count over all of them the log is split at its
joins and leaves, and the last part is the open session, if there is one. -/

/-- The sessions of a log: the closed ones, each the events from its join to its leave, and the one
still open, its join and the events since. -/
structure Sessions (ε : Type*) where
  closed : List (List ε) := []
  current : Option (ε × List ε) := none

/-- What one more event does to the sessions. -/
def extend (s : Sessions ε) (e : ε) : Sessions ε :=
  match s.current with
  | none => if L.leaves e then s else if L.joins e then { s with current := some (e, []) } else s
  | some (j, later) =>
    if L.leaves e then ⟨s.closed ++ [j :: later ++ [e]], none⟩
    else { s with current := some (j, later ++ [e]) }

/-- The sessions of a log. -/
def split (log : List ε) : Sessions ε := log.foldl L.extend {}

/-- The events of every session, in the order of the joins. -/
def Sessions.all (s : Sessions ε) : List (List ε) :=
  s.closed ++ (s.current.map fun x => x.1 :: x.2).toList

/-- The number of sessions with a finishing event. -/
def finished (log : List ε) : ℕ := (L.split log).all.countP fun events => events.any L.finishes

/-- One more event extends the sessions. -/
theorem split_snoc (log : List ε) (e : ε) : L.split (log ++ [e]) = L.extend (L.split log) e :=
  List.foldl_concat ..

/-- **The open session is the last of all.** -/
theorem session_eq_current (log : List ε) :
    L.session log = (L.split log).current.map fun x => (x.1, x.2.any L.finishes) := by
  induction log using List.reverseRecOn with
  | nil => rfl
  | append_singleton log e ih =>
    rw [session_snoc, split_snoc, ih]
    unfold next extend
    cases hc : (L.split log).current with
    | none => by_cases hl : L.leaves e <;> by_cases hj : L.joins e <;> simp [hl, hj, hc]
    | some x => by_cases hl : L.leaves e <;> simp [hl]

/-- The open session starts with a joining event. -/
theorem joins_of_current {log : List ε} {x : ε × List ε} (h : (L.split log).current = some x) :
    L.joins x.1 = true := by
  induction log using List.reverseRecOn generalizing x with
  | nil => cases h
  | append_singleton log e ih =>
    rw [split_snoc] at h
    unfold extend at h
    split at h
    · next hnone =>
      split_ifs at h with hl hj
      · rw [hnone] at h
        cases h
      · cases h
        exact hj
      · rw [hnone] at h
        cases h
    · next j later hsome =>
      split_ifs at h
      cases h
      have hjoins := ih hsome
      exact hjoins

/-- **A finishing event finishes the open session, once.** -/
theorem finished_snoc (hjoins : ∀ e, L.joins e → ¬ L.finishes e)
    (hleaves : ∀ e, L.leaves e → ¬ L.finishes e) (log : List ε) (e : ε) :
    L.finished (log ++ [e])
      = L.finished log + if (L.session log).any (fun s => !s.2) && L.finishes e then 1 else 0 := by
  rw [finished, finished, split_snoc, session_eq_current]
  unfold extend
  cases hc : (L.split log).current with
  | none =>
    by_cases hl : L.leaves e
    · simp [hl, hc, Sessions.all]
    · by_cases hj : L.joins e
      · simp [hl, hj, hc, Sessions.all, hjoins e hj]
      · simp [hl, hj, hc, Sessions.all]
  | some x =>
    obtain ⟨j, later⟩ := x
    have hj : L.finishes j = false := by
      simpa using hjoins j (L.joins_of_current hc)
    by_cases hl : L.leaves e
    · have he : L.finishes e = false := by simpa using hleaves e hl
      simp [hl, hc, Sessions.all, hj, he]
    · cases hd : later.any L.finishes <;> cases he : L.finishes e <;>
        simp [hl, hc, Sessions.all, hj, hd, he]

end SessionLog
