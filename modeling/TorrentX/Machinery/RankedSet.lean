import Mathlib

/-!
# Machinery/RankedSet — ordered containers, with and without repeated keys

`RankedSet key` holds values sorted by `key`, equal keys allowed: the container a tree index with
subtree counts implements.  Its order is an invariant of the type, the uniqueness of keys is not.
Every operation is described by a permutation of the entries (`elems_insert_perm`,
`elems_erase_perm`), which is all that counting and filtering arguments need.

`OrderedSet.insert` is insertion into a set that keeps one entry per key.
-/

variable {α κ : Type*} [LinearOrder κ] {key : α → κ}

/-- A sequence of values ordered by `key`, equal keys allowed.  The number of entries is a 64-bit
value, so a container never holds more than `RankedSet.maxSize` of them. -/
@[ext]
structure RankedSet {α κ : Type*} [LinearOrder κ] (key : α → κ) where
  /-- The entries, in iteration order. -/
  elems : List α
  sorted : elems.Pairwise fun x y => key x ≤ key y
  length_lt : elems.length < 2 ^ 64

namespace RankedSet

/-- The largest number of entries a 64-bit size can count. -/
def maxSize : ℕ := 2 ^ 64 - 1

/-- The container with no entry. -/
def empty : RankedSet key := ⟨[], List.Pairwise.nil, by norm_num⟩

@[simp] theorem elems_empty : (empty : RankedSet key).elems = [] := rfl

/-- The number of entries. -/
def size (s : RankedSet key) : ℕ := s.elems.length

/-- The entry at rank `n`, if there is one. -/
def nth (s : RankedSet key) (n : ℕ) : Option α := s.elems[n]?

/-- The first entry with key `k`, if there is one. -/
def find? (s : RankedSet key) (k : κ) : Option α := s.elems.find? fun x => key x = k

/-- The number of entries with key `k`. -/
def count (s : RankedSet key) (k : κ) : ℕ := s.elems.countP fun x => key x = k

/-! ## Sorted insertion -/

/-- A value inserted before the first strictly larger key, so after every equal one, leaves a
sorted list sorted. -/
theorem pairwise_orderedInsert (x : α) : ∀ {l : List α}, l.Pairwise (fun a b => key a ≤ key b) →
    (l.orderedInsert (fun a b => key a < key b) x).Pairwise fun a b => key a ≤ key b
  | [], _ => by simp
  | b :: l, h => by
    obtain ⟨hb, hl⟩ := List.pairwise_cons.1 h
    by_cases hxb : key x < key b
    · rw [List.orderedInsert_cons, if_pos hxb]
      refine List.pairwise_cons.2 ⟨fun c hc => ?_, h⟩
      rcases List.mem_cons.1 hc with rfl | hc
      · exact hxb.le
      · exact hxb.le.trans (hb c hc)
    · rw [List.orderedInsert_cons, if_neg hxb]
      refine List.pairwise_cons.2 ⟨fun c hc => ?_, pairwise_orderedInsert x hl⟩
      rcases List.mem_cons.1 ((List.perm_orderedInsert _ x l).mem_iff.1 hc) with rfl | hc
      · exact not_lt.1 hxb
      · exact hb c hc

/-- The container with `x` added after its equals; `none` when it is already full. -/
def insert (s : RankedSet key) (x : α) : Option (RankedSet key) :=
  if h : s.elems.length < maxSize then
    some
      { elems := s.elems.orderedInsert (fun a b => key a < key b) x
        sorted := pairwise_orderedInsert x s.sorted
        length_lt := by
          rw [List.orderedInsert_length]
          unfold maxSize at h
          omega }
  else none

/-- The container without its first entry of key `k`. -/
def erase (s : RankedSet key) (k : κ) : RankedSet key where
  elems := s.elems.eraseP fun x => key x = k
  sorted := s.sorted.sublist List.eraseP_sublist
  length_lt := List.eraseP_sublist.length_le.trans_lt s.length_lt

/-! ## What each operation does to the entries -/

theorem elems_of_insert {s t : RankedSet key} {x : α} (h : s.insert x = some t) :
    t.elems = s.elems.orderedInsert (fun a b => key a < key b) x := by
  unfold insert at h
  split at h
  · rw [← Option.some.inj h]
  · exact absurd h (by simp)

/-- **Insertion adds exactly the inserted value.** -/
theorem elems_insert_perm {s t : RankedSet key} {x : α} (h : s.insert x = some t) :
    t.elems.Perm (x :: s.elems) := by
  rw [elems_of_insert h]
  exact List.perm_orderedInsert _ x _

/-- **Erasing a found key removes exactly the entry found.** -/
theorem elems_erase_perm {s : RankedSet key} {k : κ} {x : α} (h : s.find? k = some x) :
    s.elems.Perm (x :: (s.erase k).elems) := by
  obtain ⟨hx, as, bs, hs, has⟩ := List.find?_eq_some_iff_append.1 h
  have hnot : ∀ a ∈ as, ¬ (decide (key a = k) = true) := fun a ha => by simpa using has a ha
  have herase : (s.erase k).elems = as ++ bs := by
    change s.elems.eraseP _ = _
    rw [hs, List.eraseP_append_right _ hnot]
    exact congrArg (as ++ ·) (List.eraseP_cons_of_pos hx)
  rw [herase, hs]
  exact List.perm_middle

/-- A container that is not full has room for another entry. -/
theorem exists_insert {s : RankedSet key} (h : s.elems.length < maxSize) (x : α) :
    ∃ t, s.insert x = some t := ⟨_, dif_pos h⟩

/-- A container that gave up an entry has room for another. -/
theorem exists_insert_erase {s : RankedSet key} {k : κ} {x : α} (h : s.find? k = some x) (y : α) :
    ∃ t, (s.erase k).insert y = some t := by
  have hlen := (elems_erase_perm h).length_eq
  rw [List.length_cons] at hlen
  have hlt := s.length_lt
  refine exists_insert ?_ y
  unfold maxSize
  omega

/-- The key of the entry found is the key searched for. -/
theorem key_of_find? {s : RankedSet key} {k : κ} {x : α} (h : s.find? k = some x) : key x = k := by
  simpa using List.find?_some h

/-- A key is counted exactly when it is found. -/
theorem count_ne_zero_iff (s : RankedSet key) (k : κ) :
    s.count k ≠ 0 ↔ (s.find? k).isSome := by
  unfold count find?
  rw [List.find?_isSome, ← Nat.pos_iff_ne_zero, List.countP_pos_iff]

/-- A key that is not counted is not found. -/
theorem count_eq_zero_iff (s : RankedSet key) (k : κ) : s.count k = 0 ↔ s.find? k = none := by
  rw [← not_iff_not, ← Ne.eq_def, count_ne_zero_iff, Option.isSome_iff_ne_none]

/-- A key that is not found is the key of no entry. -/
theorem key_ne_of_find?_eq_none {s : RankedSet key} {k : κ} (h : s.find? k = none) {x : α}
    (hx : x ∈ s.elems) : key x ≠ k := by
  simpa using List.find?_eq_none.1 h x hx

/-! ## The entries of one key

Where keys may repeat, what is found under a key is the first of its entries.  The whole list of
them is what an operation is described by, and it is told only up to order. -/

/-- The entries with key `k`. -/
def withKey (s : RankedSet key) (k : κ) : List α := s.elems.filter fun x => key x = k

/-- The entry found is the first of its key. -/
theorem find?_eq_head? (s : RankedSet key) (k : κ) : s.find? k = (s.withKey k).head? :=
  (List.head?_filter ..).symm

/-- One entry more under its key. -/
theorem withKey_insert_perm {s t : RankedSet key} {x : α} (h : s.insert x = some t) (k : κ) :
    (t.withKey k).Perm (if key x = k then x :: s.withKey k else s.withKey k) := by
  have hp := (elems_insert_perm h).filter fun y => key y = k
  rw [List.filter_cons] at hp
  simpa only [withKey, decide_eq_true_eq] using hp

/-- One entry less under its key. -/
theorem withKey_erase_perm {s : RankedSet key} {k : κ} {x : α} (h : s.find? k = some x) (k' : κ) :
    (s.withKey k').Perm
      (if k = k' then x :: (s.erase k).withKey k' else (s.erase k).withKey k') := by
  have hp := (elems_erase_perm h).filter fun y => key y = k'
  rw [List.filter_cons, key_of_find? h] at hp
  simpa only [withKey, decide_eq_true_eq] using hp

/-- A first entry of its key is the only one. -/
theorem withKey_insert_of_nil {s t : RankedSet key} {x : α} (h : s.insert x = some t)
    (hk : s.withKey (key x) = []) : t.withKey (key x) = [x] := by
  have hp := withKey_insert_perm h (key x)
  rw [if_pos rfl, hk] at hp
  exact List.perm_singleton.1 hp

/-- Erasing the only entry of a key leaves none. -/
theorem withKey_erase_of_singleton {s : RankedSet key} {k : κ} {x : α} (h : s.withKey k = [x]) :
    (s.erase k).withKey k = [] := by
  have hf : s.find? k = some x := by rw [find?_eq_head?, h, List.head?_cons]
  have hp := withKey_erase_perm hf k
  rw [if_pos rfl, h] at hp
  simpa using hp.length_eq

/-! ## Maps that keep the keys

All operations look at keys and never at what else an entry has.  So they commute with a map of the
entries that leaves the keys. -/

section Map

variable (f : α → α) (hf : ∀ x, key (f x) = key x) (s : RankedSet key)

/-- The container with every entry replaced by one of the same key. -/
def map : RankedSet key where
  elems := s.elems.map f
  sorted := List.pairwise_map.2 (s.sorted.imp fun h => by rwa [hf, hf])
  length_lt := (List.length_map f).trans_lt s.length_lt

theorem size_map : (s.map f hf).size = s.size := List.length_map f

theorem nth_map (n : ℕ) : (s.map f hf).nth n = (s.nth n).map f := List.getElem?_map

theorem find?_map (k : κ) : (s.map f hf).find? k = (s.find? k).map f := by
  have hp : ((fun x => decide (key x = k)) ∘ f) = fun x => decide (key x = k) :=
    funext fun x => by rw [Function.comp_apply, hf]
  exact List.find?_map.trans (congrArg (fun p => (s.elems.find? p).map f) hp)

theorem count_map (k : κ) : (s.map f hf).count k = s.count k := by
  refine List.countP_map.trans (congrArg (s.elems.countP ·) (funext fun x => ?_))
  rw [Function.comp_apply, hf]

theorem erase_map (k : κ) : (s.map f hf).erase k = (s.erase k).map f hf := by
  have hp : ((fun x => decide (key x = k)) ∘ f) = fun x => decide (key x = k) :=
    funext fun x => by rw [Function.comp_apply, hf]
  exact RankedSet.ext (List.eraseP_map.trans (congrArg (fun p => (s.elems.eraseP p).map f) hp))

/-- **Replacing the entries commutes with insertion.** -/
theorem insert_map (x : α) : (s.map f hf).insert (f x) = (s.insert x).map (map f hf) := by
  have hlen : (s.map f hf).elems.length = s.elems.length := List.length_map f
  by_cases h : s.elems.length < maxSize
  · rw [insert, dif_pos (hlen.trans_lt h), insert, dif_pos h, Option.map_some]
    refine congrArg some (RankedSet.ext ?_)
    exact (List.map_orderedInsert _ _ f s.elems x (fun a _ => by rw [hf, hf])
      fun a _ => by rw [hf, hf]).symm
  · rw [insert, dif_neg (hlen ▸ h), insert, dif_neg h, Option.map_none]

end Map

/-! ## Containers with one entry per key -/

/-- **A container with at most one entry of each key is strictly increasing.** -/
theorem pairwise_lt {s : RankedSet key} (h : ∀ k, (s.withKey k).length ≤ 1) :
    s.elems.Pairwise fun x y => key x < key y := by
  have hnodup : (s.elems.map key).Nodup := by
    rw [List.nodup_iff_count_le_one]
    intro k
    rw [List.count, List.countP_map, List.countP_eq_length_filter]
    exact h k
  have hne : s.elems.Pairwise fun x y => key x ≠ key y := List.pairwise_map.1 hnodup
  exact (s.sorted.and hne).imp fun hxy => hxy.1.lt_of_ne hxy.2

/-- An entry is among the entries of its key. -/
theorem mem_withKey {s : RankedSet key} {k : κ} {x : α} :
    x ∈ s.withKey k ↔ x ∈ s.elems ∧ key x = k := by
  rw [withKey, List.mem_filter, decide_eq_true_iff]

/-- **Containers with one entry per key are told apart by their entries of each key.** -/
theorem ext_withKey {s t : RankedSet key} (h : ∀ k, s.withKey k = t.withKey k)
    (hs : ∀ k, (s.withKey k).length ≤ 1) : s = t := by
  have ht : ∀ k, (t.withKey k).length ≤ 1 := fun k => h k ▸ hs k
  have hmem : ∀ x, x ∈ s.elems ↔ x ∈ t.elems := by
    intro x
    have hx := congrArg (x ∈ ·) (h (key x))
    simpa [mem_withKey] using hx
  have hlt : ∀ u : RankedSet key, (∀ k, (u.withKey k).length ≤ 1) → u.elems.Nodup :=
    fun u hu => (pairwise_lt hu).imp fun hxy he => (he ▸ hxy).false
  have hperm : s.elems.Perm t.elems := (List.perm_ext_iff_of_nodup (hlt s hs) (hlt t ht)).2 hmem
  refine RankedSet.ext (hperm.eq_of_pairwise ?_ (pairwise_lt hs) (pairwise_lt ht))
  exact fun x y _ _ hxy hyx => absurd hxy hyx.asymm

end RankedSet

namespace OrderedSet

/-- The sorted list `l` with `x` added, unless an entry with the key of `x` is there already. -/
def insert (key : α → κ) (x : α) (l : List α) : List α :=
  if l.any fun y => key y = key x then l else l.orderedInsert (fun a b => key a < key b) x

/-- Nothing but the value is added. -/
theorem mem_insert {x y : α} {l : List α} (h : y ∈ insert key x l) : y = x ∨ y ∈ l := by
  unfold insert at h
  split at h
  · exact Or.inr h
  · exact List.mem_cons.1 ((List.perm_orderedInsert _ x l).mem_iff.1 h)

/-- Insertion keeps what is there. -/
theorem mem_insert_of_mem {x y : α} {l : List α} (h : y ∈ l) : y ∈ insert key x l := by
  unfold insert
  split
  · exact h
  · exact (List.perm_orderedInsert _ x l).mem_iff.2 (List.mem_cons_of_mem x h)

/-- An entry with the key of the inserted value is there afterwards. -/
theorem exists_mem_insert (key : α → κ) (x : α) (l : List α) :
    ∃ y ∈ insert key x l, key y = key x := by
  unfold insert
  split
  · next h =>
    obtain ⟨y, hy, heq⟩ := List.any_eq_true.1 h
    exact ⟨y, hy, of_decide_eq_true heq⟩
  · exact ⟨x, (List.perm_orderedInsert _ x l).mem_iff.2 List.mem_cons_self, rfl⟩

/-- One entry more at most. -/
theorem length_insert_le (key : α → κ) (x : α) (l : List α) :
    (insert key x l).length ≤ l.length + 1 := by
  unfold insert
  split
  · exact Nat.le_succ _
  · exact (List.orderedInsert_length ..).le

/-- **Insertion keeps the order strict.** -/
theorem pairwise_insert (x : α) {l : List α} (h : l.Pairwise fun a b => key a < key b) :
    (insert key x l).Pairwise fun a b => key a < key b := by
  unfold insert
  split
  · exact h
  · next hnone =>
    have hle := RankedSet.pairwise_orderedInsert x (h.imp le_of_lt)
    have hne : (x :: l).Pairwise fun a b => key a ≠ key b := by
      refine List.pairwise_cons.2 ⟨fun y hy heq => hnone ?_, h.imp ne_of_lt⟩
      exact List.any_eq_true.2 ⟨y, hy, decide_eq_true heq.symm⟩
    have hne' := (List.perm_orderedInsert (fun a b => key a < key b) x l).symm.pairwise hne
      fun hab => hab.symm
    exact (hle.and hne').imp fun hab => hab.1.lt_of_ne hab.2

/-- Replacing the entries commutes with insertion. -/
theorem insert_map {f : α → α} (hf : ∀ x, key (f x) = key x) (x : α) (l : List α) :
    insert key (f x) (l.map f) = (insert key x l).map f := by
  have hany : ((l.map f).any fun y => key y = key (f x)) = l.any fun y => key y = key x := by
    rw [List.any_map]
    exact congrArg (l.any ·) (funext fun y => by rw [Function.comp_apply, hf, hf])
  rw [insert, insert, hany]
  split
  · rfl
  · exact (List.map_orderedInsert _ _ f l x (fun a _ => by rw [hf, hf])
      fun a _ => by rw [hf, hf]).symm

/-- A value with the largest key goes last. -/
theorem insert_of_forall_lt {x : α} {l : List α} (h : ∀ y ∈ l, key y < key x) :
    insert key x l = l ++ [x] := by
  have hnone : ¬ (l.any fun y => key y = key x) = true := fun hany => by
    obtain ⟨y, hy, heq⟩ := List.any_eq_true.1 hany
    exact (h y hy).ne (of_decide_eq_true heq)
  rw [insert, if_neg hnone]
  clear hnone
  induction l with
  | nil => rfl
  | cons y l ih =>
    rw [List.orderedInsert_cons, if_neg (h y List.mem_cons_self).not_gt, List.cons_append,
      ih fun z hz => h z (List.mem_cons_of_mem y hz)]

end OrderedSet
