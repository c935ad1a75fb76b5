import TorrentX.Machinery.PathForest

/-!
# Machinery/LeafOrder — the leaves of a path forest, in listing order or not

The leaves of the forest of a list of paths are the paths, one directory after another.  They come
in the order of the list exactly when the list is contiguous — whatever two paths share, the paths
listed between them share too (`leafPaths_insertAll_iff`).
-/

namespace Forest

variable {α : Type*}

/-! ## Paths in preorder

The paths of all nodes, and of the leaves among them, in the order of the listing. -/

/-- The paths of the nodes, in preorder. -/
def paths : Forest α → List (List α)
  | nil => []
  | cons a kids sibs => [a] :: (kids.paths.map (List.cons a) ++ sibs.paths)

/-- The paths of the leaves, in preorder. -/
def leafPaths : Forest α → List (List α)
  | nil => []
  | cons a kids sibs =>
    (if kids.isNil then [[a]] else []) ++ kids.leafPaths.map (List.cons a) ++ sibs.leafPaths

@[simp] theorem length_paths (F : Forest α) : F.paths.length = F.size := by
  induction F with
  | nil => rfl
  | cons a kids sibs ihk ihs =>
    rw [paths, List.length_cons, List.length_append, List.length_map, ihk, ihs, size]
    omega

/-- A path begins with a root. -/
theorem exists_root_of_mem_paths {F : Forest α} {e : List α} (h : e ∈ F.paths) :
    ∃ x ∈ F.roots, ∃ e', e = x :: e' := by
  induction F with
  | nil => exact absurd h List.not_mem_nil
  | cons a kids sibs _ ihs =>
    rw [paths, List.mem_cons, List.mem_append, List.mem_map] at h
    rcases h with rfl | ⟨e', -, rfl⟩ | h
    · exact ⟨a, List.mem_cons_self, [], rfl⟩
    · exact ⟨a, List.mem_cons_self, e', rfl⟩
    · obtain ⟨x, hx, e', rfl⟩ := ihs h
      exact ⟨x, List.mem_cons_of_mem a hx, e', rfl⟩

theorem not_mem_paths {F : Forest α} {a : α} (h : a ∉ F.roots) (e : List α) :
    a :: e ∉ F.paths := fun hmem => by
  obtain ⟨x, hx, e', heq⟩ := exists_root_of_mem_paths hmem
  exact h ((List.cons.inj heq).1 ▸ hx)

/-- The leaves stand among the nodes, in their order. -/
theorem leafPaths_sublist_paths (F : Forest α) : F.leafPaths.Sublist F.paths := by
  induction F with
  | nil => exact List.Sublist.refl []
  | cons a kids sibs ihk ihs =>
    have hsplit : (cons a kids sibs).paths = [[a]] ++ kids.paths.map (List.cons a) ++ sibs.paths :=
      rfl
    rw [leafPaths, hsplit]
    refine List.Sublist.append (List.Sublist.append ?_ (ihk.map (List.cons a))) ihs
    split
    · exact List.Sublist.refl [[a]]
    · exact List.nil_sublist [[a]]

theorem mem_paths_of_mem_leafPaths {F : Forest α} {e : List α} (h : e ∈ F.leafPaths) :
    e ∈ F.paths := F.leafPaths_sublist_paths.subset h

/-- A forest with a node has a leaf. -/
theorem leafPaths_ne_nil {F : Forest α} (h : F.isNil = false) : F.leafPaths ≠ [] := by
  induction F with
  | nil => exact absurd h (by simp [isNil])
  | cons a kids sibs ihk _ =>
    rw [leafPaths]
    cases hk : kids.isNil with
    | true => simp
    | false => simp [ihk hk]

/-- The leaf rows of the listing, each read at its position, are the leaves. -/
theorem map_filter_isLeaf_listing {β : Type*} {F : Forest α} {lvl k : ℕ} {g : List α → β}
    {Q : ℕ → Option β} (h : ∀ j < F.size, Q (k + j) = F.paths[j]?.map g) :
    (((F.listing lvl).zipIdx k).filter fun x => x.1.isLeaf).map (fun x => Q x.2)
      = F.leafPaths.map (some ∘ g) := by
  induction F generalizing lvl k g with
  | nil => rfl
  | cons a kids sibs ihk ihs =>
    rw [size] at h
    have hroot : Q k = some (g [a]) := h 0 (by omega)
    have hkids := @ihk (lvl + 1) (k + 1) (g ∘ List.cons a) fun j hj => by
      rw [show k + 1 + j = k + (j + 1) by omega, h (j + 1) (by omega), paths,
        List.getElem?_cons_succ, List.getElem?_append_left (by simpa using hj), List.getElem?_map,
        Option.map_map]
    have hsibs := @ihs lvl (k + 1 + kids.size) g fun j hj => by
      rw [show k + 1 + kids.size + j = k + (kids.size + j + 1) by omega, h _ (by omega), paths,
        List.getElem?_cons_succ, List.getElem?_append_right (by simp)]
      simp
    rw [listing, List.zipIdx_cons, List.zipIdx_append, length_listing, List.filter_cons,
      List.filter_append, leafPaths]
    cases kids.isNil <;> simp [hroot, hkids, hsibs, Function.comp_assoc]

/-! ## Distinct siblings -/

section Distinct

variable [DecidableEq α]

omit [DecidableEq α] in
theorem distinct_chain (p : List α) : (chain p).Distinct := by
  induction p with
  | nil => trivial
  | cons a p ih => exact ⟨List.not_mem_nil, ih, trivial⟩

/-- A path adds its own root, if any. -/
theorem mem_roots_insert {F : Forest α} {a x : α} {p : List α}
    (h : x ∈ (F.insert (a :: p)).roots) : x = a ∨ x ∈ F.roots := by
  induction F with
  | nil => exact .inl (List.mem_singleton.1 h)
  | cons b kids sibs _ ihs =>
    by_cases ha : a = b
    · subst ha
      rw [insert_cons_self] at h
      exact .inr h
    · rw [insert_cons_of_ne _ _ _ ha, roots, List.mem_cons] at h
      rw [roots, List.mem_cons]
      exact h.elim (fun h => .inr (.inl h)) fun h => (ihs h).imp_right .inr

/-- Insertion keeps siblings distinct. -/
theorem Distinct.insert {F : Forest α} (h : F.Distinct) (p : List α) : (F.insert p).Distinct := by
  induction F generalizing p with
  | nil =>
    cases p with
    | nil => trivial
    | cons a p => exact distinct_chain (a :: p)
  | cons b kids sibs ihk ihs =>
    obtain ⟨hb, hk, hs⟩ := h
    cases p with
    | nil => exact ⟨hb, hk, hs⟩
    | cons a p =>
      by_cases ha : a = b
      · subst ha
        rw [insert_cons_self]
        exact ⟨hb, ihk hk p, hs⟩
      · rw [insert_cons_of_ne _ _ _ ha]
        refine ⟨fun hmem => ?_, hk, ihs hs (a :: p)⟩
        exact (mem_roots_insert hmem).elim (fun h => ha h.symm) hb

/-- One path after another is inserted, the last one last. -/
theorem insertAll_snoc (F : Forest α) (ps : List (List α)) (p : List α) :
    F.insertAll (ps ++ [p]) = (F.insertAll ps).insert p := List.foldl_append

theorem distinct_insertAll (ps : List (List α)) : ((nil : Forest α).insertAll ps).Distinct := by
  induction ps using List.reverseRecOn with
  | nil => trivial
  | append_singleton ps p ih =>
    rw [insertAll_snoc]
    exact ih.insert p

/-- With distinct siblings, the paths are those that lead to a node. -/
theorem Distinct.mem_paths {F : Forest α} (h : F.Distinct) (e : List α) :
    e ∈ F.paths ↔ e ≠ [] ∧ F.HasNode e := by
  induction F generalizing e with
  | nil => cases e <;> simp [paths]
  | cons b kids sibs ihk ihs =>
    obtain ⟨hb, hk, hs⟩ := h
    rw [paths, List.mem_cons, List.mem_append, List.mem_map]
    cases e with
    | nil => simp [ihs hs]
    | cons x e =>
      by_cases hx : x = b
      · subst hx
        have hnot := not_mem_paths hb e
        cases e with
        | nil => simp
        | cons y e => simp [ihk hk, hnot]
      · simp [hx, Ne.symm hx, hasNode_cons_of_ne _ _ _ hx, ihs hs]

/-- With distinct siblings no two nodes have one path. -/
theorem Distinct.nodup_paths {F : Forest α} (h : F.Distinct) : F.paths.Nodup := by
  induction F with
  | nil => exact List.nodup_nil
  | cons b kids sibs ihk ihs =>
    obtain ⟨hb, hk, hs⟩ := h
    have hsib := not_mem_paths hb
    have hkid : [b] ∉ kids.paths.map (List.cons b) := fun hmem => by
      obtain ⟨e, he, heq⟩ := List.mem_map.1 hmem
      exact ((hk.mem_paths e).1 he).1 (List.cons.inj heq).2
    rw [paths, List.nodup_cons, List.mem_append, not_or, List.nodup_append]
    refine ⟨⟨hkid, hsib []⟩, (ihk hk).map (List.cons_injective), ihs hs, fun e he f hf hef => ?_⟩
    obtain ⟨e', -, rfl⟩ := List.mem_map.1 he
    exact hsib e' (hef ▸ hf)

end Distinct

/-! ## Contiguous lists

In a forest the paths below one node stand together.  A list in which they do not cannot be the list
of the leaves; a list in which they do is, because then each path is inserted at the very end of the
forest. -/

/-- What two paths of the list share, every path listed between them shares. -/
def Contiguous (ps : List (List α)) : Prop :=
  ∀ p q r, [p, q, r].Sublist ps → ∀ d, d ≠ [] → d <+: p → d <+: r → d <+: q

/-- Leaving out paths takes nothing from between the others. -/
theorem Contiguous.sublist {ps qs : List (List α)} (h : Contiguous ps) (hs : qs.Sublist ps) :
    Contiguous qs := fun p q r hpqr => h p q r (hpqr.trans hs)

/-- A common root may be taken off, since what two paths share includes it. -/
theorem Contiguous.of_map_cons {a : α} {ps : List (List α)}
    (h : Contiguous (ps.map (List.cons a))) : Contiguous ps := by
  intro p q r hpqr d _ hp hr
  have := h (a :: p) (a :: q) (a :: r) (hpqr.map (List.cons a)) (a :: d) (List.cons_ne_nil a d)
    ((List.cons_prefix_cons).2 ⟨rfl, hp⟩) ((List.cons_prefix_cons).2 ⟨rfl, hr⟩)
  exact (List.cons_prefix_cons.1 this).2

/-- A common root may be put on. -/
theorem Contiguous.map_cons {a : α} {ps : List (List α)} (h : Contiguous ps) :
    Contiguous (ps.map (List.cons a)) := by
  intro p q r hpqr d hd hp hr
  obtain ⟨l, hl, heq⟩ := List.sublist_map_iff.1 hpqr
  obtain ⟨p', q', r', rfl⟩ : ∃ p' q' r', l = [p', q', r'] :=
    List.length_eq_three.1 (by simpa using (congrArg List.length heq).symm)
  obtain ⟨rfl, rfl, rfl⟩ : p = a :: p' ∧ q = a :: q' ∧ r = a :: r' := by simpa using heq
  obtain ⟨x, d, rfl⟩ := List.exists_cons_of_ne_nil hd
  rw [List.cons_prefix_cons] at hp hr ⊢
  refine ⟨hp.1, ?_⟩
  rcases eq_or_ne d [] with rfl | hd'
  · exact List.nil_prefix
  · exact h p' q' r' hl d hd' hp.2 hr.2

/-- Contiguous lists that share nothing are contiguous together. -/
theorem Contiguous.append {ps qs : List (List α)} (hps : Contiguous ps) (hqs : Contiguous qs)
    (h : ∀ p ∈ ps, ∀ r ∈ qs, ∀ d, d ≠ [] → d <+: p → ¬ d <+: r) : Contiguous (ps ++ qs) := by
  intro p q r hpqr d hd hp hr
  obtain ⟨l₁, l₂, heq, h₁, h₂⟩ := List.sublist_append_iff.1 hpqr
  rcases l₁ with _ | ⟨y, l₁⟩
  · exact hqs p q r (heq ▸ h₂) d hd hp hr
  · obtain ⟨rfl, heq⟩ := List.cons.inj heq
    rcases List.eq_nil_or_concat l₂ with rfl | ⟨l₂, z, rfl⟩
    · rw [List.append_nil] at heq
      exact hps p q r (heq ▸ h₁) d hd hp hr
    · have hlast := congrArg List.getLast? heq
      rw [List.concat_eq_append, ← List.append_assoc, List.getLast?_concat] at hlast
      obtain rfl : r = z := by simpa using hlast
      exact absurd hr (h p (h₁.subset List.mem_cons_self) r (h₂.subset (by simp)) d hd hp)

/-- **The paths of a forest are contiguous**: those below a node are listed together. -/
theorem Distinct.contiguous_paths {F : Forest α} (h : F.Distinct) : Contiguous F.paths := by
  induction F with
  | nil =>
    intro p q r hpqr
    exact absurd (List.sublist_nil.1 hpqr) (by simp)
  | cons a kids sibs ihk ihs =>
    obtain ⟨ha, hk, hs⟩ := h
    have hroot : ∀ e ∈ [a] :: kids.paths.map (List.cons a), ∃ e', e = a :: e' := by
      intro e he
      rcases List.mem_cons.1 he with rfl | he
      · exact ⟨[], rfl⟩
      · obtain ⟨e', -, rfl⟩ := List.mem_map.1 he
        exact ⟨e', rfl⟩
    have hfirst : Contiguous ([a] :: kids.paths.map (List.cons a)) := by
      intro p q r hpqr d hd hp hr
      rcases List.sublist_cons_iff.1 hpqr with hpqr' | ⟨l, hl, -⟩
      · exact (ihk hk).map_cons p q r hpqr' d hd hp hr
      · obtain rfl : p = [a] := (List.cons.inj hl).1
        obtain ⟨q', rfl⟩ := hroot q (hpqr.subset (by simp))
        obtain ⟨x, d, rfl⟩ := List.exists_cons_of_ne_nil hd
        obtain ⟨rfl, hd'⟩ := List.cons_prefix_cons.1 hp
        rw [List.prefix_nil.1 hd']
        exact List.cons_prefix_cons.2 ⟨rfl, List.nil_prefix⟩
    rw [paths, ← List.cons_append]
    refine hfirst.append (ihs hs) fun p hp r hr d hd hdp hdr => ?_
    obtain ⟨p', rfl⟩ := hroot p hp
    obtain ⟨x, d, rfl⟩ := List.exists_cons_of_ne_nil hd
    obtain ⟨rfl, -⟩ := List.cons_prefix_cons.1 hdp
    obtain ⟨r', rfl⟩ := hdr
    exact not_mem_paths ha _ hr

theorem Distinct.contiguous_leafPaths {F : Forest α} (h : F.Distinct) :
    Contiguous F.leafPaths := h.contiguous_paths.sublist F.leafPaths_sublist_paths

section Order

variable [DecidableEq α]

omit [DecidableEq α] in
/-- A branch has one leaf, its end. -/
theorem leafPaths_chain {p : List α} (hp : p ≠ []) : (chain p).leafPaths = [p] := by
  induction p with
  | nil => exact absurd rfl hp
  | cons a p ih =>
    cases p with
    | nil => rfl
    | cons b p =>
      rw [chain, leafPaths, ih (List.cons_ne_nil b p)]
      rfl

theorem isNil_insert (F : Forest α) {p : List α} (hp : p ≠ []) : (F.insert p).isNil = false := by
  obtain ⟨a, p, rfl⟩ := List.exists_cons_of_ne_nil hp
  cases F with
  | nil => rfl
  | cons b kids sibs =>
    rw [insert]
    split <;> rfl

/-- **A path after which the list is still contiguous becomes the last leaf**: the nodes it shares
are each the last of their siblings. -/
theorem leafPaths_insert {F : Forest α} (h : F.Distinct) {p : List α} (hp : p ≠ [])
    (hpre : ∀ q ∈ F.leafPaths, ¬ q <+: p ∧ ¬ p <+: q) (hcont : Contiguous (F.leafPaths ++ [p])) :
    (F.insert p).leafPaths = F.leafPaths ++ [p] := by
  induction F generalizing p with
  | nil =>
    obtain ⟨a, q, rfl⟩ := List.exists_cons_of_ne_nil hp
    exact leafPaths_chain hp
  | cons b kids sibs ihk ihs =>
    obtain ⟨hb, hk, hs⟩ := h
    obtain ⟨a, q, rfl⟩ := List.exists_cons_of_ne_nil hp
    rw [leafPaths] at hpre hcont ⊢
    by_cases ha : a = b
    · subst ha
      have hkn : kids.isNil = false := by
        by_contra hkn
        rw [Bool.not_eq_false] at hkn
        refine (hpre [a] ?_).1 (List.cons_prefix_cons.2 ⟨rfl, List.nil_prefix⟩)
        rw [hkn]
        simp
      rw [hkn, if_neg Bool.false_ne_true, List.nil_append] at hpre hcont ⊢
      obtain ⟨e, he⟩ := List.exists_mem_of_ne_nil _ (leafPaths_ne_nil hkn)
      have hmem : a :: e ∈ kids.leafPaths.map (List.cons a) := List.mem_map_of_mem he
      have hq : q ≠ [] := by
        rintro rfl
        exact (hpre _ (List.mem_append_left _ hmem)).2
          (List.cons_prefix_cons.2 ⟨rfl, List.nil_prefix⟩)
      have hsibs : sibs.leafPaths = [] := by
        -- a leaf beside the tree would stand between its leaves and the new one
        rw [List.eq_nil_iff_forall_not_mem]
        intro s hsmem
        have hsub : [a :: e, s, a :: q].Sublist
            (kids.leafPaths.map (List.cons a) ++ sibs.leafPaths ++ [a :: q]) :=
          ((List.singleton_sublist.2 hmem).append (List.singleton_sublist.2 hsmem)).append
            (List.Sublist.refl [a :: q])
        have hshare := hcont _ _ _ hsub [a] (List.cons_ne_nil a [])
          (List.cons_prefix_cons.2 ⟨rfl, List.nil_prefix⟩)
          (List.cons_prefix_cons.2 ⟨rfl, List.nil_prefix⟩)
        obtain ⟨x, hx, s', rfl⟩ := exists_root_of_mem_paths (mem_paths_of_mem_leafPaths hsmem)
        exact hb ((List.cons_prefix_cons.1 hshare).1 ▸ hx)
      rw [hsibs, List.append_nil] at hpre hcont ⊢
      have hkids := ihk hk hq
        (fun r hr => by simpa [List.cons_prefix_cons] using hpre (a :: r) (List.mem_map_of_mem hr))
        (Contiguous.of_map_cons (a := a) (by simpa using hcont))
      rw [insert_cons_self, leafPaths, isNil_insert kids hq, if_neg Bool.false_ne_true, hkids,
        hsibs]
      simp
    · have hsibs := ihs hs hp (fun r hr => hpre r (List.mem_append_right _ hr)) (hcont.sublist
        (List.Sublist.append (List.sublist_append_right _ _) (List.Sublist.refl [a :: q])))
      rw [insert_cons_of_ne _ _ _ ha, leafPaths, hsibs, List.append_assoc _ _ [a :: q]]

/-- No path of the list is a prefix of another. -/
def PrefixFree (ps : List (List α)) : Prop :=
  ps.Pairwise fun p q => ¬ p <+: q ∧ ¬ q <+: p

/-- **The leaves come in the order of the list exactly when the list is contiguous.**  One direction
is the contiguity of leaves; for the other the paths are inserted one after another, and each
becomes the last leaf. -/
theorem leafPaths_insertAll_iff {ps : List (List α)} (hne : ∀ p ∈ ps, p ≠ [])
    (hpre : PrefixFree ps) : (nil.insertAll ps).leafPaths = ps ↔ Contiguous ps := by
  constructor
  · intro h
    rw [← h]
    exact Distinct.contiguous_leafPaths (distinct_insertAll ps)
  · intro hcont
    induction ps using List.reverseRecOn with
    | nil => rfl
    | append_singleton ps p ih =>
      rw [PrefixFree, List.pairwise_append] at hpre
      rw [List.forall_mem_append] at hne
      have hps := ih hne.1 hpre.1 (hcont.sublist (List.sublist_append_left ps [p]))
      rw [insertAll_snoc, leafPaths_insert (distinct_insertAll ps) (hne.2 p (by simp)), hps]
      · rw [hps]
        exact fun q hq => hpre.2.2 q hq p (by simp)
      · rwa [hps]

end Order

end Forest
