import TorrentX.Machinery.LeafOrder

/-!
# Machinery/Preorder — the preorder of a path forest, told from the paths alone

Of two nodes the first is above the second, or they part at two siblings (`Precedes`).  The paths of
a forest stand in that order (`Distinct.pairwise_paths`), with the siblings in the order in which
the list of paths first shows them (`pairwise_paths_insertAll`).  A position is below another
exactly when its path goes on from the other's (`Distinct.below_iff_prefix`), so a row of the
listing can be read off its path (`Distinct.listing_paths`).
-/

namespace Forest

variable {α : Type*}

/-! ## The order of the paths

Two nodes of a forest are one above the other, or they leave a common ancestor by two of its
children.  Preorder is decided by the first of these if it holds, and else by the order of the two
children; nothing else about the forest matters. -/

/-- The first path is above the second, or they part at siblings of which `R` puts the first one's
first.  The second case names the node `c` where they part. -/
def Precedes (R : List α → List α → Prop) (e e' : List α) : Prop :=
  (e <+: e' ∧ e ≠ e') ∨ ∃ c a b, c ++ [a] <+: e ∧ c ++ [b] <+: e' ∧ R (c ++ [a]) (c ++ [b])

/-- Below a common root the order is that of what is left. -/
theorem Precedes.cons {R : List α → List α → Prop} {e e' : List α} (a : α)
    (h : Precedes (fun d d' => R (a :: d) (a :: d')) e e') : Precedes R (a :: e) (a :: e') := by
  rcases h with ⟨hpre, hne⟩ | ⟨c, x, y, hx, hy, hR⟩
  · exact .inl ⟨List.cons_prefix_cons.2 ⟨rfl, hpre⟩, fun heq => hne (List.cons.inj heq).2⟩
  · exact .inr ⟨a :: c, x, y, List.cons_prefix_cons.2 ⟨rfl, hx⟩,
      List.cons_prefix_cons.2 ⟨rfl, hy⟩, hR⟩

section Paths

variable [DecidableEq α] {F : Forest α}

/-- **The paths of a forest are in preorder**, whatever the order its siblings are in. -/
theorem Distinct.pairwise_paths (h : F.Distinct) {R : List α → List α → Prop}
    (hR : ∀ c, (F.childrenAt c).Pairwise fun a b => R (c ++ [a]) (c ++ [b])) :
    F.paths.Pairwise (Precedes R) := by
  induction F generalizing R with
  | nil => exact List.Pairwise.nil
  | cons a kids sibs ihk ihs =>
    obtain ⟨ha, hk, hs⟩ := h
    have hroots := hR []
    rw [childrenAt_nil, roots, List.pairwise_cons] at hroots
    have hkids : ∀ c, (kids.childrenAt c).Pairwise fun x y =>
        R (a :: (c ++ [x])) (a :: (c ++ [y])) := fun c => by simpa using hR (a :: c)
    have hsibs : ∀ c, (sibs.childrenAt c).Pairwise fun x y => R (c ++ [x]) (c ++ [y]) := by
      intro c
      cases c with
      | nil =>
        rw [childrenAt_nil]
        exact hroots.2
      | cons x c =>
        by_cases hx : x = a
        · have hnode : ¬ sibs.HasNode (x :: c) := fun hnode =>
            not_mem_paths ha c (hx ▸ (hs.mem_paths _).2 ⟨List.cons_ne_nil x c, hnode⟩)
          rw [childrenAt_of_not_hasNode hnode]
          exact List.Pairwise.nil
        · simpa [childrenAt_cons_of_ne _ _ _ hx] using hR (x :: c)
    -- the whole first tree comes before what stands beside it
    have hbeside : ∀ e, ∀ e' ∈ sibs.paths, Precedes R (a :: e) e' := by
      intro e e' he'
      obtain ⟨x, hx, e', rfl⟩ := exists_root_of_mem_paths he'
      exact .inr ⟨[], a, x, by simp, by simp, hroots.1 x hx⟩
    rw [paths, List.pairwise_cons, List.pairwise_append]
    refine ⟨fun e he => ?_, ?_, ihs hs hsibs, fun e he => ?_⟩
    · rcases List.mem_append.1 he with he | he
      · obtain ⟨d, hd, rfl⟩ := List.mem_map.1 he
        have hne := ((hk.mem_paths d).1 hd).1
        exact .inl ⟨by simp, fun heq => hne (List.cons.inj heq).2.symm⟩
      · exact hbeside [] e he
    · rw [List.pairwise_map]
      exact (ihk hk hkids).imp fun hd => hd.cons a
    · obtain ⟨d, -, rfl⟩ := List.mem_map.1 he
      exact hbeside d

end Paths

/-! ## First appearance

Insertion puts a new node behind its siblings.  So in the forest of a list a node comes before a
sibling exactly when a path of the list passes it earlier, and the order of siblings can be said of
the list alone. -/

section FirstSeen

variable [DecidableEq α]

/-- The index of the first path of the list on which a node lies. -/
def firstSeen (ps : List (List α)) (e : List α) : ℕ := ps.findIdx fun p => decide (e <+: p)

/-- A node that lies on a path of the list is first seen there, whatever is appended. -/
theorem firstSeen_snoc_of_seen {ps : List (List α)} {e : List α} (h : ∃ q ∈ ps, e <+: q)
    (p : List α) : firstSeen (ps ++ [p]) e = firstSeen ps e := by
  have hlt : ps.findIdx (fun p => decide (e <+: p)) < ps.length :=
    List.findIdx_lt_length.2 (by simpa using h)
  rw [firstSeen, firstSeen, List.findIdx_append, if_pos hlt]

/-- A node that lies on no path of the list is first seen on the path that is appended. -/
theorem firstSeen_snoc_of_not_seen {ps : List (List α)} {e p : List α} (h : ∀ q ∈ ps, ¬ e <+: q)
    (hp : e <+: p) : firstSeen (ps ++ [p]) e = ps.length := by
  have hnone : ps.findIdx (fun p => decide (e <+: p)) = ps.length :=
    List.findIdx_eq_length.2 (by simpa using h)
  rw [firstSeen, List.findIdx_append, hnone, if_neg (lt_irrefl _)]
  simp [List.findIdx_cons, hp]

theorem firstSeen_lt_length {ps : List (List α)} {e : List α} (h : ∃ q ∈ ps, e <+: q) :
    firstSeen ps e < ps.length := List.findIdx_lt_length.2 (by simpa using h)

/-- **A path adds at most one child to a node**, the last, on the path and new. -/
theorem childrenAt_insert_or (F : Forest α) (p d : List α) :
    (F.insert p).childrenAt d = F.childrenAt d ∨
      ∃ a, d ++ [a] <+: p ∧ ¬ F.HasNode (d ++ [a]) ∧
        (F.insert p).childrenAt d = F.childrenAt d ++ [a] := by
  induction p using List.reverseRecOn with
  | nil => exact .inl (by rw [insert_nil])
  | append_singleton p x ih =>
    have hp : (F.insert p).HasNode p := (hasNode_insert F p p).2 (.inr (List.prefix_refl p))
    rw [← insert_insert F p [x]]
    by_cases hx : (F.insert p).HasNode (p ++ [x])
    · rw [insert_of_hasNode hx]
      exact ih.imp_right fun ⟨a, ha, h⟩ => ⟨a, ha.trans (List.prefix_append p [x]), h⟩
    · have hmem : x ∉ (F.insert p).childrenAt p := fun hmem =>
        hx ((hasNode_snoc _ _ _).2 ⟨hp, hmem⟩)
      rw [childrenAt_insert hp hmem]
      by_cases hd : d = p
      · subst hd
        refine .inr ⟨x, List.prefix_refl _, fun hnode => hx ((hasNode_insert _ _ _).2 (.inl hnode)),
          ?_⟩
        rw [if_pos rfl]
        refine congrArg (· ++ [x]) (ih.resolve_right ?_)
        rintro ⟨a, ha, -⟩
        exact absurd ha.length_le (by simp)
      · rw [if_neg hd]
        exact ih.imp_right fun ⟨a, ha, h⟩ => ⟨a, ha.trans (List.prefix_append p [x]), h⟩

/-- **Siblings stand in the order of their first appearance.**  By induction on the list: each path
appends at most one child, and it is first seen then. -/
theorem pairwise_childrenAt_insertAll (ps : List (List α)) (c : List α) :
    (((nil : Forest α).insertAll ps).childrenAt c).Pairwise fun a b =>
      firstSeen ps (c ++ [a]) < firstSeen ps (c ++ [b]) := by
  induction ps using List.reverseRecOn with
  | nil =>
    rw [insertAll, List.foldl_nil, childrenAt_of_nil]
    exact List.Pairwise.nil
  | append_singleton ps p ih =>
    have hseen : ∀ a ∈ ((nil : Forest α).insertAll ps).childrenAt c, ∃ q ∈ ps, c ++ [a] <+: q := by
      intro a ha
      refine (hasNode_insertAll_iff (List.concat_ne_nil a c)).1 ((hasNode_snoc _ c a).2 ⟨?_, ha⟩)
      by_contra hc
      rw [childrenAt_of_not_hasNode hc] at ha
      exact List.not_mem_nil ha
    have hold := ih.imp_of_mem fun ha hb hlt => by
      rwa [← firstSeen_snoc_of_seen (hseen _ ha) p, ← firstSeen_snoc_of_seen (hseen _ hb) p] at hlt
    rw [insertAll_snoc]
    rcases childrenAt_insert_or ((nil : Forest α).insertAll ps) p c with heq | ⟨x, hx, hnew, heq⟩
    · rw [heq]
      exact hold
    · rw [heq, List.pairwise_append]
      refine ⟨hold, List.pairwise_singleton _ x, fun a ha b hb => ?_⟩
      rw [List.mem_singleton.1 hb, firstSeen_snoc_of_seen (hseen a ha)]
      rw [hasNode_insertAll_iff (List.concat_ne_nil x c)] at hnew
      rw [firstSeen_snoc_of_not_seen (fun q hq hpre => hnew ⟨q, hq, hpre⟩) hx]
      exact firstSeen_lt_length (hseen a ha)

/-- **The paths of the forest of a list are in preorder, siblings by first appearance.** -/
theorem pairwise_paths_insertAll (ps : List (List α)) :
    ((nil : Forest α).insertAll ps).paths.Pairwise
      (Precedes fun d d' => firstSeen ps d < firstSeen ps d') :=
  (distinct_insertAll ps).pairwise_paths (pairwise_childrenAt_insertAll ps)

end FirstSeen

/-! ## Positions and rows

The paths stand at the positions of the listing.  That a position is below another, which is a
matter of the shape of the forest, is then a matter of two paths: one goes on from the other. -/

section Positions

variable {F : Forest α} {i j : ℕ} {e e' : List α}

section Shape

variable (a : α) (kids sibs : Forest α)

/-- The positions after the root are those of the forest below it. -/
theorem getElem?_paths_kid {i : ℕ} (hi : i < kids.size) :
    (cons a kids sibs).paths[i + 1]? = kids.paths[i]?.map (List.cons a) := by
  rw [paths, List.getElem?_cons_succ, List.getElem?_append_left (by simpa using hi),
    List.getElem?_map]

/-- After the first tree come the positions of the forest beside it. -/
theorem getElem?_paths_sib (i : ℕ) :
    (cons a kids sibs).paths[kids.size + 1 + i]? = sibs.paths[i]? := by
  rw [paths, show kids.size + 1 + i = kids.size + i + 1 by omega, List.getElem?_cons_succ,
    List.getElem?_append_right (by simp)]
  simp

end Shape

/-- The paths of the first tree begin with its root. -/
theorem exists_cons_of_getElem?_paths {a : α} {kids sibs : Forest α} (hi : i < kids.size + 1)
    (h : (cons a kids sibs).paths[i]? = some e) : ∃ d, e = a :: d := by
  rcases i with _ | i
  · exact ⟨[], (Option.some.inj h).symm⟩
  · rw [getElem?_paths_kid a kids sibs (Nat.lt_of_succ_lt_succ hi), Option.map_eq_some_iff] at h
    obtain ⟨d, -, rfl⟩ := h
    exact ⟨d, rfl⟩

theorem ne_nil_of_getElem?_paths (h : F.paths[i]? = some e) : e ≠ [] := by
  obtain ⟨x, -, e, rfl⟩ := exists_root_of_mem_paths (List.mem_of_getElem? h)
  exact List.cons_ne_nil x e

theorem lt_size_of_getElem?_paths (h : F.paths[i]? = some e) : i < F.size := by
  rw [← length_paths]
  exact (List.getElem?_eq_some_iff.1 h).1

/-- What is below a position goes on from its path. -/
theorem Below.prefix_paths (h : F.Below i j) (hi : F.paths[i]? = some e)
    (hj : F.paths[j]? = some e') : e <+: e' ∧ e ≠ e' := by
  induction h generalizing e e' with
  | @root a kids sibs j hlt =>
    obtain rfl : [a] = e := Option.some.inj hi
    rw [getElem?_paths_kid a kids sibs hlt, Option.map_eq_some_iff] at hj
    obtain ⟨d, hd, rfl⟩ := hj
    exact ⟨by simp, fun heq => ne_nil_of_getElem?_paths hd (List.cons.inj heq).2.symm⟩
  | @kid a kids sibs i j hb ih =>
    have hlt := hb.lt_size
    have hij := (hb.heads 0).1
    rw [getElem?_paths_kid a kids sibs (by omega), Option.map_eq_some_iff] at hi
    rw [getElem?_paths_kid a kids sibs hlt, Option.map_eq_some_iff] at hj
    obtain ⟨d, hd, rfl⟩ := hi
    obtain ⟨d', hd', rfl⟩ := hj
    obtain ⟨hpre, hne⟩ := ih hd hd'
    exact ⟨List.cons_prefix_cons.2 ⟨rfl, hpre⟩, fun heq => hne (List.cons.inj heq).2⟩
  | @sib a kids sibs i j _ ih =>
    rw [getElem?_paths_sib] at hi hj
    exact ih hi hj

/-- **A position is below another exactly when its path goes on from the other's.** -/
theorem Distinct.below_iff_prefix (h : F.Distinct) (hi : F.paths[i]? = some e)
    (hj : F.paths[j]? = some e') : F.Below i j ↔ e <+: e' ∧ e ≠ e' := by
  refine ⟨fun hb => hb.prefix_paths hi hj, ?_⟩
  rintro ⟨hpre, hne⟩
  induction F generalizing i j e e' with
  | nil => exact absurd hi (by simp [paths])
  | cons a kids sibs ihk ihs =>
    obtain ⟨ha, hk, hs⟩ := h
    have hilt := lt_size_of_getElem?_paths hi
    have hjlt := lt_size_of_getElem?_paths hj
    rw [size] at hilt hjlt
    -- two paths of which one goes on from the other begin with one root
    have hroot : ∀ {k l : ℕ} {d d' : List α}, sibs.paths[k]? = some d → l < kids.size + 1 →
        (cons a kids sibs).paths[l]? = some d' → ¬ d <+: d' ∧ ¬ d' <+: d := by
      intro k l d d' hd hl hd'
      obtain ⟨x, hx, d, rfl⟩ := exists_root_of_mem_paths (List.mem_of_getElem? hd)
      obtain ⟨d', rfl⟩ := exists_cons_of_getElem?_paths hl hd'
      exact ⟨fun hp => ha ((List.cons_prefix_cons.1 hp).1 ▸ hx),
        fun hp => ha ((List.cons_prefix_cons.1 hp).1 ▸ hx)⟩
    rcases Nat.lt_or_ge j (kids.size + 1) with hjk | hjk
    · rcases Nat.lt_or_ge i (kids.size + 1) with hik | hik
      · rcases j with _ | j
        · obtain rfl : [a] = e' := Option.some.inj hj
          have hlen := hpre.length_le
          have hpos := List.length_pos_of_ne_nil (ne_nil_of_getElem?_paths hi)
          exact absurd (hpre.eq_of_length (Nat.le_antisymm hlen hpos)) hne
        rcases i with _ | i
        · exact .root (by omega)
        · rw [getElem?_paths_kid a kids sibs (by omega), Option.map_eq_some_iff] at hi hj
          obtain ⟨d, hd, rfl⟩ := hi
          obtain ⟨d', hd', rfl⟩ := hj
          exact .kid (ihk hk hd hd' (List.cons_prefix_cons.1 hpre).2
            fun heq => hne (congrArg (a :: ·) heq))
      · obtain ⟨i, rfl⟩ := Nat.exists_eq_add_of_le hik
        rw [getElem?_paths_sib] at hi
        exact absurd hpre (hroot hi hjk hj).1
    · obtain ⟨j, rfl⟩ := Nat.exists_eq_add_of_le hjk
      rcases Nat.lt_or_ge i (kids.size + 1) with hik | hik
      · rw [getElem?_paths_sib] at hj
        exact absurd hpre (hroot hj hik hi).2
      · obtain ⟨i, rfl⟩ := Nat.exists_eq_add_of_le hik
        rw [getElem?_paths_sib] at hi hj
        exact .sib (ihs hs hi hj hpre hne)

/-- **A row is read off its path**: the last component, the length, and whether it goes on. -/
theorem Distinct.listing_paths [DecidableEq α] [Inhabited α] (h : F.Distinct) (lvl : ℕ) :
    F.listing lvl = F.paths.map fun e =>
      ⟨e.getLastD default, lvl + e.length - 1, (F.kidsAt e).isNil⟩ := by
  induction F generalizing lvl with
  | nil => rfl
  | cons a kids sibs ihk ihs =>
    obtain ⟨ha, hk, hs⟩ := h
    rw [listing, paths, List.map_cons, List.map_append, List.map_map, ihk hk, ihs hs,
      kidsAt_cons_self, kidsAt_nil]
    refine congrArg (_ :: ·) (congrArg₂ (· ++ ·) (List.map_congr_left fun e he => ?_)
      (List.map_congr_left fun e he => ?_))
    · obtain ⟨x, -, e, rfl⟩ := exists_root_of_mem_paths he
      have hlength : lvl + 1 + (x :: e).length - 1 = lvl + (a :: x :: e).length - 1 := by
        simp only [List.length_cons]
        omega
      rw [Function.comp_apply, kidsAt_cons_self, hlength]
      rfl
    · obtain ⟨x, hx, e, rfl⟩ := exists_root_of_mem_paths he
      rw [kidsAt_cons_of_ne _ _ _ (by rintro rfl; exact ha hx)]

end Positions

/-! ## Leaves -/

section Leaves

variable [DecidableEq α] {ps : List (List α)} {e : List α}

omit [DecidableEq α] in
/-- In a list without prefixes a path is a prefix of itself only. -/
theorem PrefixFree.eq_of_prefix {p q : List α} (h : PrefixFree ps) (hp : p ∈ ps) (hq : q ∈ ps)
    (hpq : p <+: q) : p = q := by
  by_contra hne
  have hsymm : Std.Symm fun p q : List α => ¬ p <+: q ∧ ¬ q <+: p := ⟨fun _ _ => And.symm⟩
  exact (List.Pairwise.forall h hp hq hne).1 hpq

/-- **The leaves of the forest of a prefix-free list are its paths.**  A node with nothing below it
ends a path, and a path of the list goes on from no other. -/
theorem isNil_kidsAt_insertAll (hpre : PrefixFree ps) (hne : e ≠ [])
    (he : ∃ p ∈ ps, e <+: p) :
    (((nil : Forest α).insertAll ps).kidsAt e).isNil = true ↔ e ∈ ps := by
  have hnode := (hasNode_insertAll_iff hne).2 he
  rw [← isEmpty_roots, roots_kidsAt, List.isEmpty_iff, List.eq_nil_iff_forall_not_mem]
  constructor
  · intro hnone
    obtain ⟨p, hp, r, rfl⟩ := he
    cases r with
    | nil => simpa using hp
    | cons x r =>
      have hx : e ++ [x] <+: e ++ x :: r := by simp
      have hchild := (hasNode_insertAll_iff (List.concat_ne_nil x e)).2 ⟨_, hp, hx⟩
      exact absurd ((hasNode_snoc _ e x).1 hchild).2 (hnone x)
  · intro hmem x hx
    obtain ⟨q, hq, hxq⟩ := (hasNode_insertAll_iff (List.concat_ne_nil x e)).1
      ((hasNode_snoc _ e x).2 ⟨hnode, hx⟩)
    obtain rfl := hpre.eq_of_prefix hmem hq ((List.prefix_append e [x]).trans hxq)
    exact absurd hxq.length_le (by simp)

end Leaves

end Forest
