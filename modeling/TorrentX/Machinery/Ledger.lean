import Mathlib

/-!
# Machinery/Ledger — totals over independent accounts

The entries of a log are kept under keys.  The account of a key is a value read off the entries
under that key alone, in their order, and the total of a log is the sum of its accounts.  One more
entry moves one account (`total_snoc`), and logs that agree on every account have one total
(`total_congr`), however differently their keys are interleaved.
-/

namespace Ledger

variable {ε κ M : Type*} [DecidableEq κ] [AddCommMonoid M] (key : ε → κ) (f : List ε → M)

/-- The entries of a log under one key. -/
def under (log : List ε) (k : κ) : List ε := log.filter fun e => key e = k

/-- One more entry is the last under its key. -/
theorem under_snoc_self (log : List ε) (e : ε) :
    under key (log ++ [e]) (key e) = under key log (key e) ++ [e] := by
  rw [under, List.filter_append, List.filter_cons_of_pos (by simp), List.filter_nil]
  rfl

/-- One more entry changes nothing under other keys. -/
theorem under_snoc_of_ne (log : List ε) {e : ε} {k : κ} (h : key e ≠ k) :
    under key (log ++ [e]) k = under key log k := by
  rw [under, List.filter_append, List.filter_cons_of_neg (by simpa using h), List.filter_nil,
    List.append_nil]
  rfl

/-- The keys of a log are those with an entry. -/
theorem mem_keys_iff {log : List ε} {k : κ} :
    k ∈ (log.map key).toFinset ↔ under key log k ≠ [] := by
  simp [under, List.filter_eq_nil_iff]

/-- The sum of the accounts of a log. -/
def total (log : List ε) : M := ∑ k ∈ (log.map key).toFinset, f (under key log k)

variable {key f} {log : List ε}

/-- Keys without an entry add nothing. -/
theorem total_eq_sum (hf : f [] = 0) {S : Finset κ} (hS : (log.map key).toFinset ⊆ S) :
    total key f log = ∑ k ∈ S, f (under key log k) := by
  refine Finset.sum_subset hS fun k _ hk => ?_
  rw [mem_keys_iff, not_not] at hk
  rw [hk, hf]

/-- **One more entry moves the account of its key and no other.** -/
theorem total_snoc (hf : f [] = 0) (log : List ε) (e : ε) :
    total key f (log ++ [e]) + f (under key log (key e))
      = total key f log + f (under key log (key e) ++ [e]) := by
  have hold : (log.map key).toFinset ⊆ insert (key e) (log.map key).toFinset :=
    Finset.subset_insert _ _
  have hnew : ((log ++ [e]).map key).toFinset ⊆ insert (key e) (log.map key).toFinset := by
    intro k
    simp
  have hmem : key e ∈ insert (key e) (log.map key).toFinset := Finset.mem_insert_self _ _
  have hothers : ∑ k ∈ (insert (key e) (log.map key).toFinset).erase (key e),
        f (under key (log ++ [e]) k)
      = ∑ k ∈ (insert (key e) (log.map key).toFinset).erase (key e), f (under key log k) :=
    Finset.sum_congr rfl fun k hk =>
      congrArg f (under_snoc_of_ne key log (Finset.ne_of_mem_erase hk).symm)
  rw [total_eq_sum hf hold, total_eq_sum hf hnew, ← Finset.add_sum_erase _ _ hmem,
    ← Finset.add_sum_erase _ _ hmem, hothers, under_snoc_self]
  abel

/-- **Logs that agree on every account have one total.** -/
theorem total_congr (hf : f [] = 0) {log' : List ε}
    (h : ∀ k, f (under key log k) = f (under key log' k)) :
    total key f log = total key f log' := by
  have hleft : (log.map key).toFinset ⊆ (log.map key).toFinset ∪ (log'.map key).toFinset :=
    Finset.subset_union_left
  have hright : (log'.map key).toFinset ⊆ (log.map key).toFinset ∪ (log'.map key).toFinset :=
    Finset.subset_union_right
  rw [total_eq_sum hf hleft, total_eq_sum hf hright]
  exact Finset.sum_congr rfl fun k _ => h k

/-- A total read through a homomorphism from the accounts. -/
theorem total_map {N : Type*} [AddCommMonoid N] (g : N →+ M) {f' : List ε → N}
    (h : ∀ k, f (under key log k) = g (f' (under key log k))) :
    total key f log = g (total key f' log) := by
  rw [total, total, map_sum]
  exact Finset.sum_congr rfl fun k _ => h k

/-! ## Entries repeated -/

/-- **A fold that a repeated entry moves once does not see repetitions.** -/
theorem foldl_destutter [DecidableEq ε] {σ : Type*} (step : σ → ε → σ)
    (hstep : ∀ s e, step (step s e) e = step s e) (s : σ) (log : List ε) :
    (log.destutter (· ≠ ·)).foldl step s = log.foldl step s := by
  have hfrom : ∀ (e : ε) (log : List ε) (s : σ),
      (log.destutter' (· ≠ ·) e).foldl step s = log.foldl step (step s e) := by
    intro e log
    induction log generalizing e with
    | nil => exact fun s => rfl
    | cons e' log ih =>
      intro s
      by_cases he : e ≠ e'
      · rw [List.destutter'_cons_pos _ he, List.foldl_cons, List.foldl_cons, ih]
      · obtain rfl := not_not.1 he
        rw [List.destutter'_cons_neg _ he, List.foldl_cons, hstep, ih]
  cases log with
  | nil => rfl
  | cons e log => exact hfrom e log s

end Ledger
