import TorrentX.Machinery.Preorder

/-!
# Machinery/Sighting — the order of first sight against the preorder

A list of paths shows the nodes of its forest one after another (`sightings`): a node when it is
first on a path, after those above it.  The preorder has them subtree by subtree.  The two orders
are one exactly when the first is contiguous (`paths_eq_sightings_iff`) — and they are one as soon
as, position by position, the same nodes are above the leaves (`paths_eq_sightings_of_sameAbove`).
-/

namespace Forest

variable {α : Type*}

/-! ## Two paths part at one node

Which of two nodes comes first in the preorder is decided where their paths part.  That there is one
such place only is what makes the preorder asymmetric. -/

section Parting

variable {c c' e e' : List α} {a a' b b' : α}

/-- Two paths of which neither goes on from the other part somewhere. -/
theorem exists_parting : ∀ {e e' : List α}, ¬ e <+: e' → ¬ e' <+: e →
    ∃ c a b, a ≠ b ∧ c ++ [a] <+: e ∧ c ++ [b] <+: e'
  | [], _, h, _ => absurd List.nil_prefix h
  | _ :: _, [], _, h => absurd List.nil_prefix h
  | x :: e, y :: e', h, h' => by
    by_cases hxy : x = y
    · subst hxy
      rw [List.cons_prefix_cons, eq_self, true_and] at h h'
      obtain ⟨c, a, b, hab, ha, hb⟩ := exists_parting h h'
      exact ⟨x :: c, a, b, hab, List.cons_prefix_cons.2 ⟨rfl, ha⟩,
        List.cons_prefix_cons.2 ⟨rfl, hb⟩⟩
    · exact ⟨[], x, y, hxy, by simp, by simp⟩

/-- One path leads to one child of a node. -/
theorem child_unique (ha : c ++ [a] <+: e) (hb : c ++ [b] <+: e) : a = b := by
  have hpre := List.prefix_of_prefix_length_le ha hb (by simp)
  exact (List.append_singleton_inj.1 (hpre.eq_of_length (by simp))).2

/-- What two paths share ends where they part. -/
theorem prefix_of_parting (hab : a ≠ b) (ha : c ++ [a] <+: e) (hb : c ++ [b] <+: e')
    (h : c' <+: e) (h' : c' <+: e') : c' <+: c := by
  refine List.prefix_of_prefix_length_le h ((List.prefix_append c [a]).trans ha) ?_
  by_contra hlt
  have hac : c ++ [a] <+: c' := List.prefix_of_prefix_length_le ha h (by simp; omega)
  exact hab (child_unique (hac.trans h') hb)

/-- **Two paths part at one node**, to one pair of siblings. -/
theorem eq_of_parting (hab : a ≠ b) (ha : c ++ [a] <+: e) (hb : c ++ [b] <+: e')
    (hab' : a' ≠ b') (ha' : c' ++ [a'] <+: e) (hb' : c' ++ [b'] <+: e') :
    c = c' ∧ a = a' ∧ b = b' := by
  have hcc' := prefix_of_parting hab' ha' hb' ((List.prefix_append c [a]).trans ha)
    ((List.prefix_append c [b]).trans hb)
  have hc'c := prefix_of_parting hab ha hb ((List.prefix_append c' [a']).trans ha')
    ((List.prefix_append c' [b']).trans hb')
  obtain rfl : c = c' := hcc'.eq_of_length_le hc'c.length_le
  exact ⟨rfl, child_unique ha ha', child_unique hb hb'⟩

/-- **The preorder goes one way**, when the order of the siblings does. -/
theorem Precedes.asymm {R : List α → List α → Prop} (hR : ∀ d d', R d d' → ¬ R d' d)
    (h : Precedes R e e') : ¬ Precedes R e' e := by
  have hne : ∀ {d x y}, R (d ++ [x]) (d ++ [y]) → x ≠ y := by
    rintro d x y hxy rfl
    exact hR _ _ hxy hxy
  rintro h'
  rcases h with ⟨hpre, hee'⟩ | ⟨c, a, b, ha, hb, hab⟩
  · rcases h' with ⟨hpre', -⟩ | ⟨c, a, b, ha, hb, hab⟩
    · exact hee' (hpre.eq_of_length_le hpre'.length_le)
    · exact hne hab (child_unique ha (hb.trans hpre))
  · rcases h' with ⟨hpre', -⟩ | ⟨c', b', a', hb', ha', hba'⟩
    · exact hne hab (child_unique ha (hb.trans hpre'))
    · obtain ⟨rfl, rfl, rfl⟩ := eq_of_parting (hne hab) ha hb (hne hba').symm ha' hb'
      exact hR _ _ hab hba'

end Parting

/-! ## First sight -/

section Sightings

variable [DecidableEq α] {ps : List (List α)} {e : List α}

/-- The nodes seen so far, and then those on one more path that are not among them. -/
def sight (N : List (List α)) (p : List α) : List (List α) :=
  N ++ p.inits.tail.filter fun e => decide (e ∉ N)

/-- The nodes on the paths of a list, each once, in the order of first sight. -/
def sightings (ps : List (List α)) : List (List α) := ps.foldl sight []

/-- A path after others shows what they have not shown. -/
theorem sightings_snoc (ps : List (List α)) (p : List α) :
    sightings (ps ++ [p]) = sight (sightings ps) p := List.foldl_append

omit [DecidableEq α] in
/-- The nodes on a path. -/
theorem mem_tail_inits (p e : List α) : e ∈ p.inits.tail ↔ e ≠ [] ∧ e <+: p := by
  cases p with
  | nil => cases e <;> simp
  | cons a p =>
    rw [List.inits_cons, List.tail_cons, List.mem_map]
    cases e with
    | nil => simp
    | cons x e =>
      rw [List.cons_prefix_cons]
      simp [eq_comm, and_comm]

omit [DecidableEq α] in
/-- Along a path no node goes on from a later one. -/
theorem pairwise_tail_inits (p : List α) :
    p.inits.tail.Pairwise fun e e' => ¬ e' <+: e := by
  induction p using List.reverseRecOn with
  | nil => exact List.Pairwise.nil
  | append_singleton p x ih =>
    have htail : (p ++ [x]).inits.tail = p.inits.tail ++ [p ++ [x]] := by
      rw [List.inits_append, List.tail_append_of_ne_nil]
      · rfl
      · exact List.ne_nil_of_mem ((List.mem_inits _ _).2 List.nil_prefix)
    rw [htail, List.pairwise_append]
    refine ⟨ih, List.pairwise_singleton _ _, fun e he e' he' hpre => ?_⟩
    rw [List.mem_singleton.1 he'] at hpre
    exact absurd (hpre.trans ((mem_tail_inits p e).1 he).2).length_le (by simp)

/-- A path more shows what is on it. -/
theorem mem_sight (N : List (List α)) (p e : List α) :
    e ∈ sight N p ↔ e ∈ N ∨ (e ≠ [] ∧ e <+: p) := by
  rw [sight, List.mem_append, List.mem_filter, mem_tail_inits, decide_eq_true_iff]
  by_cases he : e ∈ N <;> simp [he]

/-- What holds of the nodes seen so far in their order holds with one more path, if it holds of two
new nodes of which the later goes on from the earlier, and of an old one and a new. -/
theorem pairwise_sight {R : List α → List α → Prop} {N : List (List α)} {p : List α}
    (hold : N.Pairwise R)
    (hnew : ∀ d e, d ∉ N → e ∉ N → d ≠ [] → d <+: e → d ≠ e → e <+: p → R d e)
    (hcross : ∀ d ∈ N, ∀ e, e ∉ N → e ≠ [] → e <+: p → R d e) : (sight N p).Pairwise R := by
  have hmem : ∀ e ∈ p.inits.tail.filter fun e => decide (e ∉ N), e ∉ N ∧ e ≠ [] ∧ e <+: p := by
    intro e he
    rw [List.mem_filter, mem_tail_inits, decide_eq_true_iff] at he
    exact ⟨he.2, he.1⟩
  rw [sight, List.pairwise_append]
  refine ⟨hold, ?_, fun d hd e he => hcross d hd e (hmem e he).1 (hmem e he).2.1 (hmem e he).2.2⟩
  refine ((pairwise_tail_inits p).filter _).imp_of_mem fun {d e} hd he hno => ?_
  obtain ⟨hdN, hdne, hdp⟩ := hmem d hd
  obtain ⟨heN, -, hep⟩ := hmem e he
  have hde := (List.prefix_or_prefix_of_prefix hdp hep).resolve_right hno
  exact hnew d e hdN heN hdne hde (fun heq => hno (by rw [heq])) hep

/-- The nodes seen are those on the paths. -/
theorem mem_sightings : e ∈ sightings ps ↔ e ≠ [] ∧ ∃ p ∈ ps, e <+: p := by
  induction ps using List.reverseRecOn with
  | nil => simp [sightings]
  | append_singleton ps p ih =>
    rw [sightings_snoc, mem_sight, ih]
    simp [or_and_right, exists_or, and_or_left]

/-- **A node is seen after those above it, and no earlier than one of an earlier path.** -/
theorem pairwise_sightings (ps : List (List α)) : (sightings ps).Pairwise fun e e' =>
    ¬ e' <+: e ∧ firstSeen ps e ≤ firstSeen ps e' := by
  induction ps using List.reverseRecOn with
  | nil => exact List.Pairwise.nil
  | append_singleton ps p ih =>
    have hold : ∀ e ∈ sightings ps, firstSeen (ps ++ [p]) e = firstSeen ps e ∧
        firstSeen ps e < ps.length := fun e he =>
      ⟨firstSeen_snoc_of_seen (mem_sightings.1 he).2 p,
        firstSeen_lt_length (mem_sightings.1 he).2⟩
    have hnew : ∀ e, e ∉ sightings ps → e ≠ [] → e <+: p →
        firstSeen (ps ++ [p]) e = ps.length := fun e he hne hep =>
      firstSeen_snoc_of_not_seen (fun q hq heq => he (mem_sightings.2 ⟨hne, q, hq, heq⟩)) hep
    rw [sightings_snoc]
    refine pairwise_sight ?_ ?_ ?_
    · refine ih.imp_of_mem fun he he' h => ?_
      rwa [(hold _ he).1, (hold _ he').1]
    · intro d e hd he hne hde hdne hep
      have hene : e ≠ [] := fun heq => hne (List.prefix_nil.1 (heq ▸ hde))
      refine ⟨fun hed => hdne (hde.eq_of_length_le hed.length_le), ?_⟩
      rw [hnew d hd hne (hde.trans hep), hnew e he hene hep]
    · intro d hd e he hne hep
      refine ⟨fun hed => he ?_, ?_⟩
      · obtain ⟨-, q, hq, hdq⟩ := mem_sightings.1 hd
        exact mem_sightings.2 ⟨hne, q, hq, hed.trans hdq⟩
      · rw [(hold d hd).1, hnew e he hne hep]
        exact (hold d hd).2.le

/-- No node is shown twice. -/
theorem nodup_sightings (ps : List (List α)) : (sightings ps).Nodup :=
  (pairwise_sightings ps).imp fun h heq => h.1 (by rw [heq])

/-- The forest of a list has the nodes the list shows. -/
theorem sightings_perm_paths (ps : List (List α)) :
    (sightings ps).Perm ((nil : Forest α).insertAll ps).paths := by
  have hdistinct : ((nil : Forest α).insertAll ps).Distinct := distinct_insertAll ps
  rw [List.perm_ext_iff_of_nodup (nodup_sightings ps) hdistinct.nodup_paths]
  intro e
  rw [mem_sightings, hdistinct.mem_paths]
  exact and_congr_right fun hne => (hasNode_insertAll_iff hne).symm

end Sightings

/-! ## Where the two orders agree -/

section Agree

/-- Three positions of a list, in order. -/
theorem sublist_of_lt {β : Type*} {l : List β} {x y z : β} {i j k : ℕ} (hij : i < j) (hjk : j < k)
    (hx : l[i]? = some x) (hy : l[j]? = some y) (hz : l[k]? = some z) : [x, y, z].Sublist l := by
  obtain ⟨hj, rfl⟩ := List.getElem?_eq_some_iff.1 hy
  have hleft : x ∈ l.take j :=
    List.mem_of_getElem? (i := i) (by rw [List.getElem?_take, if_pos hij, hx])
  have hright : z ∈ l.drop (j + 1) := by
    refine List.mem_of_getElem? (i := k - (j + 1)) ?_
    rw [List.getElem?_drop, ← hz]
    exact congrArg (l[·]?) (by omega)
  have happend := (List.singleton_sublist.2 hleft).append
    ((List.singleton_sublist.2 hright).cons_cons l[j])
  rwa [List.getElem_cons_drop, List.take_append_drop] at happend

variable [DecidableEq α] {ps : List (List α)}

/-- A node lies on the path that first shows it. -/
theorem exists_getElem?_firstSeen {e : List α} (h : ∃ q ∈ ps, e <+: q) :
    ∃ q, ps[firstSeen ps e]? = some q ∧ e <+: q :=
  ⟨_, List.getElem?_eq_getElem (firstSeen_lt_length h),
    of_decide_eq_true (List.findIdx_getElem (w := firstSeen_lt_length h))⟩

/-- Siblings are first seen on different paths. -/
theorem firstSeen_ne {c : List α} {a b : α} (hab : a ≠ b) (ha : ∃ q ∈ ps, c ++ [a] <+: q)
    (hb : ∃ q ∈ ps, c ++ [b] <+: q) : firstSeen ps (c ++ [a]) ≠ firstSeen ps (c ++ [b]) := by
  intro heq
  obtain ⟨q, hq, haq⟩ := exists_getElem?_firstSeen ha
  obtain ⟨q', hq', hbq⟩ := exists_getElem?_firstSeen hb
  obtain rfl : q = q' := Option.some.inj (by rw [← hq, heq, hq'])
  exact hab (child_unique haq hbq)

/-- A node is seen no later than what goes on from it. -/
theorem firstSeen_mono {d e : List α} (h : d <+: e) : firstSeen ps d ≤ firstSeen ps e :=
  List.findIdx_le_findIdx fun _ _ hp => decide_eq_true (h.trans (of_decide_eq_true hp))

/-- **A contiguous order of first sight is a preorder.** -/
theorem pairwise_sightings_of_contiguous (h : Contiguous (sightings ps)) :
    (sightings ps).Pairwise (Precedes fun d d' => firstSeen ps d < firstSeen ps d') := by
  rw [List.pairwise_iff_getElem]
  intro i j hi hj hij
  have hpairs := List.pairwise_iff_getElem.1 (pairwise_sightings ps)
  have hno := (hpairs i j hi hj hij).1
  by_cases hpre : (sightings ps)[i] <+: (sightings ps)[j]
  · exact .inl ⟨hpre, fun heq => hno (by rw [heq])⟩
  obtain ⟨c, a, b, hab, ha, hb⟩ := exists_parting hpre hno
  have hseen : ∀ {x k} (hk : k < (sightings ps).length), c ++ [x] <+: (sightings ps)[k] →
      c ++ [x] ∈ sightings ps := fun hk hx => by
    obtain ⟨-, q, hq, hpre⟩ := mem_sightings.1 (List.getElem_mem hk)
    exact mem_sightings.2 ⟨List.concat_ne_nil _ c, q, hq, hx.trans hpre⟩
  refine .inr ⟨c, a, b, ha, hb, ?_⟩
  by_contra hle
  have hlt : firstSeen ps (c ++ [b]) < firstSeen ps (sightings ps)[i] :=
    lt_of_lt_of_le (lt_of_le_of_ne (not_lt.1 hle)
      (firstSeen_ne hab.symm (mem_sightings.1 (hseen hj hb)).2 (mem_sightings.1 (hseen hi ha)).2))
      (firstSeen_mono ha)
  -- the sibling stands before both nodes, and goes on to the later one only
  obtain ⟨k, hk, hkb⟩ := List.getElem_of_mem (hseen hj hb)
  have hki : k < i := by
    by_contra hik
    rcases Nat.eq_or_lt_of_le (not_lt.1 hik) with rfl | hik
    · rw [hkb] at hlt
      exact lt_irrefl _ hlt
    · have := (hpairs i k hi hk hik).2
      rw [hkb] at this
      exact absurd hlt (not_lt.2 this)
  have hshare := h _ _ _ (sublist_of_lt hki hij (List.getElem?_eq_getElem hk)
    (List.getElem?_eq_getElem hi) (List.getElem?_eq_getElem hj)) (c ++ [b])
    (List.concat_ne_nil b c) (by rw [hkb]) hb
  exact hab (child_unique ha hshare)

/-- **The order of first sight is the preorder exactly when it is contiguous.** -/
theorem paths_eq_sightings_iff :
    ((nil : Forest α).insertAll ps).paths = sightings ps ↔ Contiguous (sightings ps) := by
  constructor
  · intro h
    rw [← h]
    exact (distinct_insertAll ps).contiguous_paths
  · intro h
    refine (sightings_perm_paths ps).symm.eq_of_pairwise (fun e e' _ _ he he' => ?_)
      (pairwise_paths_insertAll ps) (pairwise_sightings_of_contiguous h)
    exact absurd he' (he.asymm fun d d' => lt_asymm)

/-- The nodes on contiguous paths are contiguous in the order of first sight. -/
theorem Contiguous.sightings (h : Contiguous ps) : Contiguous (sightings ps) := by
  intro p q r hpqr d hd hp hr
  have hpairs := (pairwise_sightings ps).sublist hpqr
  rw [List.pairwise_cons] at hpairs
  obtain ⟨hqp, hpq⟩ := hpairs.1 q (by simp)
  obtain ⟨-, hqr⟩ := List.rel_of_pairwise_cons hpairs.2 (List.mem_singleton_self r)
  have hseen : ∀ e ∈ [p, q, r], ∃ f, ps[firstSeen ps e]? = some f ∧ e <+: f := fun e he =>
    exists_getElem?_firstSeen (mem_sightings.1 (hpqr.subset he)).2
  obtain ⟨p', hp', hpp'⟩ := hseen p (by simp)
  obtain ⟨q', hq', hqq'⟩ := hseen q (by simp)
  obtain ⟨r', hr', hrr'⟩ := hseen r (by simp)
  have hdq' : d <+: q' := by
    rcases Nat.eq_or_lt_of_le hpq with heq | hpq
    · obtain rfl : p' = q' := Option.some.inj (by rw [← hp', heq, hq'])
      exact hp.trans hpp'
    rcases Nat.eq_or_lt_of_le hqr with heq | hqr
    · obtain rfl : q' = r' := Option.some.inj (by rw [← hq', heq, hr'])
      exact hr.trans hrr'
    · exact h p' q' r' (sublist_of_lt hpq hqr hp' hq' hr') d hd (hp.trans hpp') (hr.trans hrr')
  rcases List.prefix_or_prefix_of_prefix hdq' hqq' with hdq | hqd
  · exact hdq
  · exact absurd (hqd.trans hp) hqp

/-- The paths of a prefix-free list are among the nodes, in the order of the list. -/
theorem sublist_sightings (hne : ∀ p ∈ ps, p ≠ []) (hpre : PrefixFree ps) :
    ps.Sublist (sightings ps) := by
  induction ps using List.reverseRecOn with
  | nil => exact List.Sublist.refl []
  | append_singleton ps p ih =>
    rw [PrefixFree, List.pairwise_append] at hpre
    rw [List.forall_mem_append] at hne
    have hp := hne.2 p (List.mem_singleton_self p)
    rw [sightings_snoc, sight]
    refine (ih hne.1 hpre.1).append (List.singleton_sublist.2 (List.mem_filter.2 ⟨?_, ?_⟩))
    · exact (mem_tail_inits p p).2 ⟨hp, List.prefix_refl p⟩
    · refine decide_eq_true fun hmem => ?_
      obtain ⟨-, q, hq, hpq⟩ := mem_sightings.1 hmem
      exact (hpre.2.2 q hq p (List.mem_singleton_self p)).2 hpq

/-- **The nodes of a prefix-free list are contiguous exactly when its paths are.** -/
theorem contiguous_sightings_iff (hne : ∀ p ∈ ps, p ≠ []) (hpre : PrefixFree ps) :
    Contiguous (sightings ps) ↔ Contiguous ps :=
  ⟨fun h => h.sublist (sublist_sightings hne hpre), Contiguous.sightings⟩

end Agree

/-! ## What is above the leaves tells the order

Suppose the two orders agree up to a position and then differ.  The node that stands there in the
one is below a parent they have both listed; at the leaf that the preorder reaches next, what is
above it must be the same for both, so the parents are one and the two nodes are siblings.  Both
orders have siblings as they are first seen, and so they are one. -/

section Above

/-- In a preorder no node goes on from a later one. -/
theorem Precedes.not_prefix {R : List α → List α → Prop} (hR : ∀ d, ¬ R d d) {e e' : List α}
    (h : Precedes R e e') : ¬ e' <+: e := by
  intro hpre
  rcases h with ⟨hpre', hne⟩ | ⟨c, a, b, ha, hb, hab⟩
  · exact hne (hpre'.eq_of_length_le hpre.length_le)
  · obtain rfl := child_unique ha (hb.trans hpre)
    exact hR _ hab

/-- With the nodes above each other in order, one that is above another has a smaller position. -/
theorem position_mono {N : List (List α)} (h : N.Pairwise fun e e' => ¬ e' <+: e) {i j : ℕ}
    {e e' : List α} (hi : N[i]? = some e) (hj : N[j]? = some e') (hpre : e <+: e') : i ≤ j := by
  by_contra hlt
  obtain ⟨hi, rfl⟩ := List.getElem?_eq_some_iff.1 hi
  obtain ⟨hj, rfl⟩ := List.getElem?_eq_some_iff.1 hj
  exact (List.pairwise_iff_getElem.1 h) j i _ _ (not_le.1 hlt) hpre

/-- Two listings agree before a position, and the node at that position of the one is below what is
above that of the other: then so is its parent. -/
theorem parent_prefix {N Q : List (List α)} {i : ℕ} {a b : α} {d d' f : List α}
    (hN : N.Pairwise fun e e' => ¬ e' <+: e) (hQ : Q.Pairwise fun e e' => ¬ e' <+: e)
    (hclosed : d ≠ [] → d ∈ N) (hagree : ∀ j < i, N[j]? = Q[j]?)
    (hd : N[i]? = some (d ++ [a])) (hd' : Q[i]? = some (d' ++ [b])) (hf : d' ++ [b] <+: f)
    (habove : ∀ j < i, N[j]? = some d → d <+: f) : d <+: d' := by
  by_cases hne : d = []
  · rw [hne]
    exact List.nil_prefix
  obtain ⟨j, hj⟩ := List.mem_iff_getElem?.1 (hclosed hne)
  have hji : j < i := by
    refine lt_of_le_of_ne (position_mono hN hj hd (List.prefix_append d [a])) ?_
    rintro rfl
    exact absurd (congrArg List.length (Option.some.inj (hj.symm.trans hd))) (by simp)
  have hjQ := (hagree j hji).symm.trans hj
  rcases List.prefix_or_prefix_of_prefix (habove j hji hj) hf with hpre | hpre
  · rcases List.prefix_concat_iff.1 hpre with heq | hpre
    · exact absurd (position_mono hQ hd' hjQ (by rw [heq])) (not_le.2 hji)
    · exact hpre
  · exact absurd (position_mono hQ hd' hjQ hpre) (not_le.2 hji)

variable [DecidableEq α]

/-- Every node has a leaf at or below it. -/
theorem exists_leaf_below (F : Forest α) {e : List α} (he : F.HasNode e) :
    ∃ f, e <+: f ∧ F.HasNode f ∧ (F.kidsAt f).isNil = true := by
  induction hn : (F.kidsAt e).size using Nat.strong_induction_on generalizing e with
  | _ n ih =>
    cases hk : F.kidsAt e with
    | nil => exact ⟨e, List.prefix_refl e, he, by rw [hk]; rfl⟩
    | cons a kids sibs =>
      have ha : a ∈ (F.kidsAt e).roots := by
        rw [hk]
        exact List.mem_cons_self
      have hlt := size_kidsAt_lt ha
      rw [kidsAt_append, hn] at hlt
      rw [roots_kidsAt] at ha
      obtain ⟨f, hf, hnode, hleaf⟩ := ih _ hlt ((F.hasNode_snoc e a).2 ⟨he, ha⟩) rfl
      exact ⟨f, (List.prefix_append e [a]).trans hf, hnode, hleaf⟩

variable (ps : List (List α))

theorem pairwise_not_prefix_paths : ((nil : Forest α).insertAll ps).paths.Pairwise
    fun e e' => ¬ e' <+: e :=
  (pairwise_paths_insertAll ps).imp fun h => h.not_prefix fun d => lt_irrefl (firstSeen ps d)

theorem pairwise_not_prefix_sightings : (sightings ps).Pairwise fun e e' => ¬ e' <+: e :=
  (pairwise_sightings ps).imp fun h => h.1

variable {ps}

/-- The parent of a node that is shown is shown. -/
theorem parent_mem_sightings {d : List α} {a : α} (h : d ++ [a] ∈ sightings ps) (hd : d ≠ []) :
    d ∈ sightings ps := by
  obtain ⟨-, q, hq, hpre⟩ := mem_sightings.1 h
  exact mem_sightings.2 ⟨hd, q, hq, (List.prefix_append d [a]).trans hpre⟩

/-- Of two siblings the preorder has first the one first seen. -/
theorem firstSeen_lt_of_lt {d : List α} {a b : α} {i j : ℕ} (hij : i < j)
    (hi : ((nil : Forest α).insertAll ps).paths[i]? = some (d ++ [a]))
    (hj : ((nil : Forest α).insertAll ps).paths[j]? = some (d ++ [b])) :
    firstSeen ps (d ++ [a]) < firstSeen ps (d ++ [b]) := by
  obtain ⟨hi, hia⟩ := List.getElem?_eq_some_iff.1 hi
  obtain ⟨hj, hjb⟩ := List.getElem?_eq_some_iff.1 hj
  have hprecedes := List.pairwise_iff_getElem.1 (pairwise_paths_insertAll ps) i j hi hj hij
  rw [hia, hjb] at hprecedes
  rcases hprecedes with ⟨hpre, hne⟩ | ⟨c, x, y, hx, hy, hlt⟩
  · exact absurd (hpre.eq_of_length (by simp)) hne
  · have hxy : x ≠ y := by
      rintro rfl
      exact lt_irrefl _ hlt
    have hab : a ≠ b := by
      rintro rfl
      exact hxy (child_unique hx hy)
    obtain ⟨rfl, rfl, rfl⟩ := eq_of_parting hxy hx hy hab (List.prefix_refl _)
      (List.prefix_refl _)
    exact hlt

/-- Of two siblings the order of first sight has first the one first seen. -/
theorem firstSeen_le_of_le {e e' : List α} {i j : ℕ} (hij : i ≤ j)
    (hi : (sightings ps)[i]? = some e) (hj : (sightings ps)[j]? = some e') :
    firstSeen ps e ≤ firstSeen ps e' := by
  obtain ⟨hi, rfl⟩ := List.getElem?_eq_some_iff.1 hi
  obtain ⟨hj, rfl⟩ := List.getElem?_eq_some_iff.1 hj
  rcases Nat.eq_or_lt_of_le hij with rfl | hij
  · exact le_rfl
  · exact (List.pairwise_iff_getElem.1 (pairwise_sightings ps) i j _ _ hij).2

omit [DecidableEq α] in
/-- A node at a position stands no earlier in a listing that agrees before it. -/
theorem exists_le_of_agree {N Q : List (List α)} {i : ℕ} {e : List α} (hN : N.Nodup)
    (hagree : ∀ j < i, N[j]? = Q[j]?) (he : N[i]? = some e) (hmem : e ∈ Q) :
    ∃ m, i ≤ m ∧ Q[m]? = some e := by
  obtain ⟨m, hm⟩ := List.mem_iff_getElem?.1 hmem
  refine ⟨m, ?_, hm⟩
  by_contra hlt
  have hmi := not_le.1 hlt
  have hi := (List.getElem?_eq_some_iff.1 he).1
  exact hmi.ne ((List.getElem?_inj (hmi.trans hi) hN).1 ((hagree m hmi).trans (hm.trans he.symm)))

/-- Two siblings at the first position where the two orders may differ are one. -/
theorem eq_of_siblings {d : List α} {a b : α} {i : ℕ}
    (hagree : ∀ j < i, ((nil : Forest α).insertAll ps).paths[j]? = (sightings ps)[j]?)
    (ha : (sightings ps)[i]? = some (d ++ [a]))
    (hb : ((nil : Forest α).insertAll ps).paths[i]? = some (d ++ [b])) : a = b := by
  have hperm := sightings_perm_paths ps
  obtain ⟨m, him, hm⟩ := exists_le_of_agree (nodup_sightings ps)
    (fun j hj => (hagree j hj).symm) ha (hperm.mem_iff.1 (List.mem_of_getElem? ha))
  obtain ⟨m', him', hm'⟩ := exists_le_of_agree (distinct_insertAll ps).nodup_paths hagree hb
    (hperm.mem_iff.2 (List.mem_of_getElem? hb))
  rcases Nat.eq_or_lt_of_le him with rfl | him
  · exact (List.append_singleton_inj.1 (Option.some.inj (hm.symm.trans hb))).2
  · exact absurd (firstSeen_lt_of_lt him hb hm) (not_lt.2 (firstSeen_le_of_le him' ha hm'))

/-- At every position, the same nodes are above the leaves. -/
def SameAbove (N : List (List α)) (F : Forest α) : Prop :=
  ∀ (i k : ℕ) (e e' f f' : List α), N[i]? = some e → N[k]? = some e' → F.paths[i]? = some f →
    F.paths[k]? = some f' → (F.kidsAt f').isNil = true → (e <+: e' ↔ f <+: f')

/-- **What is above the leaves tells the order**: if it is the same at every position, the order of
first sight is the preorder. -/
theorem paths_eq_sightings_of_sameAbove
    (h : SameAbove (sightings ps) ((nil : Forest α).insertAll ps)) :
    ((nil : Forest α).insertAll ps).paths = sightings ps := by
  have hperm := sightings_perm_paths ps
  have hmem := (distinct_insertAll ps).mem_paths
  refine List.ext_getElem? fun i => ?_
  induction i using Nat.strong_induction_on with
  | _ i ih =>
    rcases Nat.lt_or_ge i (sightings ps).length with hi | hi
    swap
    · rw [List.getElem?_eq_none hi, List.getElem?_eq_none (hperm.length_eq.ge.trans hi)]
    obtain ⟨e, he⟩ : ∃ e, (sightings ps)[i]? = some e := ⟨_, List.getElem?_eq_getElem hi⟩
    obtain ⟨f, hf⟩ : ∃ f, ((nil : Forest α).insertAll ps).paths[i]? = some f :=
      ⟨_, List.getElem?_eq_getElem (hperm.length_eq ▸ hi)⟩
    obtain ⟨hfne, hfnode⟩ := (hmem f).1 (List.mem_of_getElem? hf)
    have hene := (mem_sightings.1 (List.mem_of_getElem? he)).1
    obtain ⟨l, hfl, hlnode, hleaf⟩ := exists_leaf_below _ hfnode
    have hlne : l ≠ [] := fun heq => hfne (List.prefix_nil.1 (heq ▸ hfl))
    obtain ⟨k, hk⟩ := List.mem_iff_getElem?.1 ((hmem l).2 ⟨hlne, hlnode⟩)
    obtain ⟨l', hk'⟩ : ∃ l', (sightings ps)[k]? = some l' :=
      ⟨_, List.getElem?_eq_getElem (hperm.length_eq ▸ (List.getElem?_eq_some_iff.1 hk).1)⟩
    have hel : e <+: l' := (h i k e l' f l he hk' hf hk hleaf).2 hfl
    obtain ⟨d, a, rfl⟩ := (List.eq_nil_or_concat' e).resolve_left hene
    obtain ⟨d', b, rfl⟩ := (List.eq_nil_or_concat' f).resolve_left hfne
    have hdd' : d <+: d' := parent_prefix (pairwise_not_prefix_sightings ps)
      (pairwise_not_prefix_paths ps) (parent_mem_sightings (List.mem_of_getElem? he))
      (fun j hj => (ih j hj).symm) he hf hfl fun j hj hd =>
        (h j k d l' d l hd hk' ((ih j hj).trans hd) hk hleaf).1
          ((List.prefix_append d [a]).trans hel)
    have hd'd : d' <+: d := parent_prefix (pairwise_not_prefix_paths ps)
      (pairwise_not_prefix_sightings ps)
      (fun hne => (hmem d').2 ⟨hne, hfnode.of_prefix (List.prefix_append d' [b])⟩)
      ih hf he hel fun j hj hd =>
        (h j k d' l' d' l ((ih j hj).symm.trans hd) hk' hd hk hleaf).2
          ((List.prefix_append d' [b]).trans hfl)
    obtain rfl : d = d' := hdd'.eq_of_length_le hd'd.length_le
    rw [hf, he, eq_of_siblings ih he hf]

end Above

end Forest
