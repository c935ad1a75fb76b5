import TorrentX.Machinery.Sighting

/-!
# Machinery/Load — weights on the nodes of a forest, added up from below

The load of a node is its weight with those of everything below it: its own weight and the loads of
its children (`Distinct.load_eq`).  A walk that leaves a child by adding its weight to its parent's
therefore loads every node it has left.  `Loaded F c l w w'` says how far the walk is when it is
back from the children `l` of `c`; it grows by one child (`Loaded.cons`), and a node all of whose
children are done is loaded (`Loaded.settled`) and may be left (`Loaded.leave`).
-/

namespace Forest

variable {α M : Type*} [DecidableEq α] [AddCommMonoid M]

/-- The weights of a node and of everything below it. -/
def load (F : Forest α) (w : List α → M) (c : List α) : M :=
  ∑ e ∈ F.paths.toFinset with c <+: e, w e

variable {F : Forest α} {w w' w'' : List α → M} {c d : List α} {a : α} {l : List α}

/-- At or below a node are the nodes whose path goes on from its path. -/
theorem Distinct.mem_below (h : F.Distinct) (hc : c ≠ []) {e : List α} :
    e ∈ F.paths.toFinset.filter (c <+: ·) ↔ F.HasNode e ∧ c <+: e := by
  rw [Finset.mem_filter, List.mem_toFinset, h.mem_paths]
  refine and_congr_left fun hce => and_iff_right_of_imp fun _ he => hc ?_
  exact List.prefix_nil.1 (he ▸ hce)

/-- The load of a node depends on the weights at and below it only. -/
theorem Distinct.load_congr (h : F.Distinct) (hc : c ≠ [])
    (hw : ∀ e, F.HasNode e → c <+: e → w e = w' e) : F.load w c = F.load w' c :=
  Finset.sum_congr rfl fun e he => hw e ((h.mem_below hc).1 he).1 ((h.mem_below hc).1 he).2

omit [DecidableEq α] in
theorem Distinct.nodup_roots (h : F.Distinct) : F.roots.Nodup := by
  induction F with
  | nil => exact List.nodup_nil
  | cons a kids sibs _ ihs => exact List.nodup_cons.2 ⟨h.1, ihs h.2.2⟩

/-- No child comes twice, so none is added twice. -/
theorem Distinct.nodup_childrenAt (h : F.Distinct) (c : List α) : (F.childrenAt c).Nodup := by
  rw [← roots_kidsAt]
  exact (h.kidsAt c).nodup_roots

omit [DecidableEq α] in
/-- What is at or below a child of a node is not the node. -/
theorem ne_of_child_above (h : c ++ [a] <+: d) : d ≠ [] ∧ d ≠ c := by
  have hlen := h.length_le
  rw [List.length_append, List.length_singleton] at hlen
  exact ⟨by rintro rfl; simp at hlen, by rintro rfl; omega⟩

/-- What is below a node is at or below a child of it. -/
theorem HasNode.exists_child (hd : F.HasNode d) (hcd : c <+: d) (hne : d ≠ c) :
    ∃ a ∈ F.childrenAt c, c ++ [a] <+: d := by
  obtain ⟨r, rfl⟩ := hcd
  cases r with
  | nil => exact absurd (List.append_nil c) hne
  | cons a r =>
    have hpre : c ++ [a] <+: c ++ a :: r := by simp
    exact ⟨a, ((F.hasNode_snoc c a).1 (hd.of_prefix hpre)).2, hpre⟩

/-- **The load of a node is its weight with the loads of its children.** -/
theorem Distinct.load_eq (h : F.Distinct) (hc : c ≠ []) (hnode : F.HasNode c) (w : List α → M) :
    F.load w c = w c + ((F.childrenAt c).map fun a => F.load w (c ++ [a])).sum := by
  have hsplit : F.paths.toFinset.filter (c <+: ·)
      = Insert.insert c ((F.childrenAt c).toFinset.biUnion
          fun a => F.paths.toFinset.filter (c ++ [a] <+: ·)) := by
    ext e
    rw [h.mem_below hc, Finset.mem_insert, Finset.mem_biUnion]
    simp only [h.mem_below (List.concat_ne_nil _ c), List.mem_toFinset]
    constructor
    · rintro ⟨he, hce⟩
      by_cases hec : e = c
      · exact .inl hec
      · obtain ⟨a, ha, hae⟩ := he.exists_child hce hec
        exact .inr ⟨a, ha, he, hae⟩
    · rintro (rfl | ⟨a, -, he, hae⟩)
      · exact ⟨hnode, List.prefix_refl e⟩
      · exact ⟨he, (List.prefix_append c [a]).trans hae⟩
  have hself : c ∉ (F.childrenAt c).toFinset.biUnion
      fun a => F.paths.toFinset.filter (c ++ [a] <+: ·) := by
    rw [Finset.mem_biUnion]
    rintro ⟨a, -, ha⟩
    exact absurd (Finset.mem_filter.1 ha).2.length_le (by simp)
  have hdisjoint : ((F.childrenAt c).toFinset : Set α).PairwiseDisjoint
      fun a => F.paths.toFinset.filter (c ++ [a] <+: ·) := by
    intro a _ b _ hab
    refine Finset.disjoint_left.2 fun e ha hb => hab ?_
    exact child_unique (Finset.mem_filter.1 ha).2 (Finset.mem_filter.1 hb).2
  rw [load, hsplit, Finset.sum_insert hself, Finset.sum_biUnion hdisjoint,
    List.sum_toFinset _ (h.nodup_childrenAt c)]
  rfl

/-- The load, summed over the positions of a listing of the nodes. -/
theorem Distinct.load_eq_sum_range (h : F.Distinct) {N : List (List α)} (hperm : N.Perm F.paths)
    (w : List α → M) (c : List α) :
    F.load w c = ∑ j ∈ Finset.range N.length with c <+: N.getD j [], w (N.getD j []) := by
  have hnodup : N.Nodup := hperm.nodup_iff.2 h.nodup_paths
  have himage : F.paths.toFinset.filter (c <+: ·)
      = ((Finset.range N.length).filter fun j => c <+: N.getD j []).image fun j => N.getD j [] := by
    ext e
    rw [Finset.mem_filter, List.mem_toFinset, ← hperm.mem_iff, Finset.mem_image,
      List.mem_iff_getElem]
    constructor
    · rintro ⟨⟨j, hj, rfl⟩, hce⟩
      exact ⟨j, by simp [hj, hce], by simp [hj]⟩
    · rintro ⟨j, hj, rfl⟩
      rw [Finset.mem_filter, Finset.mem_range] at hj
      exact ⟨⟨j, hj.1, by simp [hj.1]⟩, hj.2⟩
  rw [load, himage, Finset.sum_image]
  intro i hi j hj heq
  have hi' := Finset.mem_range.1 (Finset.mem_filter.1 hi).1
  have hj' := Finset.mem_range.1 (Finset.mem_filter.1 hj).1
  change N.getD i [] = N.getD j [] at heq
  rw [List.getD_eq_getElem _ _ hi', List.getD_eq_getElem _ _ hj'] at heq
  exact hnodup.getElem_inj_iff.1 heq

/-! ## A walk that adds from below

The walk carries one weight for each node and changes it in place.  Half way through the children of
a node the node has part of its load, the children done have all of theirs, and nothing else has
changed: that is `Loaded`, and it is what the induction on the children carries. -/

/-- The walk is back from the children `l` of `c`: what is at or below them has its load, and `c`
the loads of the children on top of its weight. -/
structure Loaded (F : Forest α) (c : List α) (l : List α) (w w' : List α → M) : Prop where
  below : ∀ a ∈ l, ∀ d, F.HasNode d → c ++ [a] <+: d → w' d = F.load w d
  here : c ≠ [] → w' c = w c + (l.map fun a => F.load w (c ++ [a])).sum
  elsewhere : ∀ d, d ≠ [] → F.HasNode d → d ≠ c → (∀ a ∈ l, ¬ c ++ [a] <+: d) → w' d = w d

/-- Before the first child nothing has changed. -/
theorem Loaded.nil (F : Forest α) (c : List α) (w : List α → M) : Loaded F c [] w w where
  below _ ha := absurd ha List.not_mem_nil
  here _ := (add_zero _).symm
  elsewhere _ _ _ _ _ := rfl

/-- What is below one child keeps its load while the walk is below another. -/
theorem Loaded.load_of_ne (h : Loaded F c [a] w w') (hF : F.Distinct) {b : α} (hab : a ≠ b)
    (hbd : c ++ [b] <+: d) : F.load w' d = F.load w d := by
  refine hF.load_congr (ne_of_child_above hbd).1 fun e he hde => ?_
  obtain ⟨hene, hec⟩ := ne_of_child_above (hbd.trans hde)
  refine h.elsewhere e hene he hec fun x hx hxe => hab ?_
  rw [← List.mem_singleton.1 hx]
  exact child_unique hxe (hbd.trans hde)

/-- **One child after another.** -/
theorem Loaded.cons (h : Loaded F c [a] w w') (h' : Loaded F c l w' w'') (hF : F.Distinct)
    (ha : a ∉ l) : Loaded F c (a :: l) w w'' where
  below b hb d hd hbd := by
    rcases List.mem_cons.1 hb with rfl | hb
    · obtain ⟨hdne, hne⟩ := ne_of_child_above hbd
      rw [h'.elsewhere d hdne hd hne fun x hx hxd => ha (child_unique hbd hxd ▸ hx)]
      exact h.below b (List.mem_singleton_self b) d hd hbd
    · rw [h'.below b hb d hd hbd]
      exact h.load_of_ne hF (by rintro rfl; exact ha hb) hbd
  here hc := by
    have hloads : (l.map fun b => F.load w' (c ++ [b])) = l.map fun b => F.load w (c ++ [b]) :=
      List.map_congr_left fun b hb =>
        h.load_of_ne hF (by rintro rfl; exact ha hb) (List.prefix_refl _)
    rw [h'.here hc, h.here hc, hloads, List.map_singleton, List.sum_singleton, List.map_cons,
      List.sum_cons, add_assoc]
  elsewhere d hdne hd hne hnone := by
    rw [List.forall_mem_cons] at hnone
    rw [h'.elsewhere d hdne hd hne hnone.2]
    exact h.elsewhere d hdne hd hne (by simpa using hnone.1)

/-- **A node all of whose children are done is loaded**, and so is all below it. -/
theorem Loaded.settled (h : Loaded F c (F.childrenAt c) w w') (hF : F.Distinct) (hdne : d ≠ [])
    (hd : F.HasNode d) (hcd : c <+: d) : w' d = F.load w d := by
  by_cases hne : d = c
  · subst hne
    rw [h.here hdne, hF.load_eq hdne hd]
  · obtain ⟨a, ha, had⟩ := hd.exists_child hcd hne
    exact h.below a ha d hd had

/-- **Leaving a node** for its parent, with its load. -/
theorem Loaded.leave (h : Loaded F (c ++ [a]) (F.childrenAt (c ++ [a])) w w') (hF : F.Distinct)
    (hnode : F.HasNode (c ++ [a]))
    (hw : ∀ d, d ≠ [] → F.HasNode d → w'' d = if d = c then w' c + w' (c ++ [a]) else w' d) :
    Loaded F c [a] w w'' where
  below b hb d hd hbd := by
    rw [List.mem_singleton.1 hb] at hbd
    obtain ⟨hdne, hne⟩ := ne_of_child_above hbd
    rw [hw d hdne hd, if_neg hne]
    exact h.settled hF hdne hd hbd
  here hc := by
    have hcnode := hnode.of_prefix (List.prefix_append c [a])
    have hkeep : w' c = w c := h.elsewhere c hc hcnode (by simp) fun b _ hb =>
      absurd hb.length_le (by simp)
    rw [hw c hc hcnode, if_pos rfl, hkeep,
      h.settled hF (List.concat_ne_nil a c) hnode (List.prefix_refl _)]
    simp
  elsewhere d hdne hd hne hnone := by
    have hac := hnone a (List.mem_singleton_self a)
    rw [hw d hdne hd, if_neg hne]
    refine h.elsewhere d hdne hd (fun heq => hac (by rw [heq])) fun b _ hb => hac ?_
    exact (List.prefix_append _ [b]).trans hb

end Forest
