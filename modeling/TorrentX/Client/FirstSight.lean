import TorrentX.Machinery.Sighting
import TorrentX.Client.Numbering

/-!
# Client/FirstSight — the numbers are those of first sight

`currentNumber` only grows, and a prefix that is in the tree keeps its number (`Grows`), so along
the list of files every new prefix is numbered after all old ones.  On the tree of a list of paths
the number of a prefix is therefore its place in the order of first sight (`num_of_sightings`) —
counted from one, since the root is zero.
-/

namespace TorrentX

open Wire Joined FilesPicker

namespace FileTree

/-! ## Growth

Between two states of the tree nothing is renumbered, and what has been added has a number from the
old counter on.  That much needs no forest: it is read off the code of the loop. -/

/-- What is numbered stays, and what is new has a number from the counter on. -/
structure Grows (t t' : FileTree) : Prop where
  kept : ∀ x, t.isInTree x ≠ 0 → t'.isInTree x = t.isInTree x
  fresh : ∀ x, t.isInTree x = 0 → t'.isInTree x ≠ 0 → t.currentNumber ≤ t'.isInTree x
  le : t.currentNumber ≤ t'.currentNumber

theorem Grows.refl (t : FileTree) : Grows t t := ⟨fun _ _ => rfl, fun _ h h' => absurd h h', le_rfl⟩

theorem Grows.trans {t t' t'' : FileTree} (h : Grows t t') (h' : Grows t' t'') : Grows t t'' where
  kept x hx := by
    have hx' := h.kept x hx
    rw [h'.kept x (hx' ▸ hx), hx']
  fresh x hx hx'' := by
    by_cases hx' : t'.isInTree x = 0
    · exact h.le.trans (h'.fresh x hx' hx'')
    · rw [h'.kept x hx']
      exact h.fresh x hx hx'
  le := h.le.trans h'.le

/-- One prefix gets the number of the counter, or has one already. -/
theorem grows_enter {t t' : FileTree} {parentNumber : ℕ} {pathPart : Bytes}
    (h : t.enter parentNumber pathPart = .ok t') : Grows t t' := by
  rw [enter] at h
  split at h
  · next hnew =>
    obtain ⟨siblings, -, hgrown⟩ := exists_of_bind_eq_ok h
    obtain rfl := Except.ok.inj hgrown
    constructor
    case kept =>
      intro x hx
      exact Function.update_of_ne (by rintro rfl; exact hx hnew) _ _
    case fresh =>
      intro x hx hx'
      by_cases heq : x = pathPart
      · rw [heq]
        exact (Function.update_self pathPart t.currentNumber t.isInTree).ge
      · exact absurd ((Function.update_of_ne heq ..).trans hx) hx'
    case le => exact Nat.le_succ _
  · obtain rfl := Except.ok.inj h
    exact Grows.refl t

/-- **The loop over one path only adds numbers.** -/
theorem grows_addPath {fullName : Bytes} {passes : ℕ} {name : Bytes} {fullPos parentNumber : ℕ}
    {t t' : FileTree} (h : t.addPath fullName passes name fullPos parentNumber = .ok t') :
    Grows t t' := by
  induction passes generalizing name fullPos parentNumber t with
  | zero =>
    obtain rfl := Except.ok.inj h
    exact Grows.refl t
  | succ passes ih =>
    rw [addPath] at h
    obtain ⟨u, hu, h⟩ := exists_of_bind_eq_ok h
    refine (grows_enter hu).trans ?_
    split at h
    · obtain rfl := Except.ok.inj h
      exact Grows.refl u
    · exact ih h

/-! ## The order of the numbers

With the forest on both sides growth is about nodes: an old one keeps its number, and a new one has
a larger number than all old ones. -/

section Numbers

variable {t t' : FileTree} {F G : Forest Bytes} {d e : List Bytes}

/-- A prefix has a smaller number than what goes on from it. -/
theorem Numbered.num_lt_of_prefix (h : Numbered t F) (he : F.HasNode e) (hde : d <+: e)
    (hne : d ≠ e) : t.num d < t.num e := by
  obtain ⟨r, rfl⟩ := hde
  induction r using List.reverseRecOn with
  | nil => exact absurd (List.append_nil d).symm hne
  | append_singleton r a ih =>
    rw [← List.append_assoc] at he ⊢
    have habove := h.above (d ++ r) a he
    rcases eq_or_ne r [] with rfl | hr
    · rwa [List.append_nil] at habove ⊢
    · refine (ih (he.of_prefix (List.prefix_append _ [a])) ?_).trans habove
      simpa using hr

/-- A node keeps its number. -/
theorem Numbered.num_of_grows (h : Numbered t F) (hgrows : Grows t t') (hne : d ≠ [])
    (hd : F.HasNode d) : t'.num d = t.num d := by
  have hpos := h.pos d hne hd
  rw [num_of_ne_nil t hne] at hpos ⊢
  rw [num_of_ne_nil t' hne, hgrows.kept _ hpos.ne']

/-- A new node has a number from the counter on. -/
theorem Numbered.le_num_of_grows (h : Numbered t F) (h' : Numbered t' G) (hgrows : Grows t t')
    (hne : d ≠ []) (hnew : ¬ F.HasNode d) (hd : G.HasNode d) : t.currentNumber ≤ t'.num d := by
  have habsent := h.absent d hne (h'.plain d hd) hnew
  have hpos := h'.pos d hne hd
  rw [num_of_ne_nil t hne] at habsent
  rw [num_of_ne_nil t' hne] at hpos ⊢
  exact hgrows.fresh _ habsent hpos.ne'

end Numbers

/-! ## The numbers of a list of paths -/

section Paths

variable {ps : List (List Bytes)} {t : FileTree}

/-- A tree that was built holds the forest of its paths, so there was room for it. -/
theorem numbered_of_addFiles (hps : ∀ p ∈ ps, p ≠ [] ∧ Plain sep p)
    (ht : FileTree.addFiles (ps.map (joined sep)) = .ok t) :
    Numbered t (Forest.nil.insertAll (ps.map treePath)) := by
  rcases builds_addFiles hps with ⟨t', ht', hnum⟩ | ⟨herr, -⟩
  · obtain rfl := Except.ok.inj (ht.symm.trans ht')
    exact hnum
  · exact absurd (ht.symm.trans herr) (by simp)

/-- **The numbers increase in the order of first sight.**  The induction takes the last path off:
what it shows for the first time is numbered after all that was there, a prefix before what goes on
from it. -/
theorem pairwise_num_sightings (hps : ∀ p ∈ ps, p ≠ [] ∧ Plain sep p)
    (ht : FileTree.addFiles (ps.map (joined sep)) = .ok t) :
    (Forest.sightings (ps.map treePath)).Pairwise fun d e => t.num d < t.num e := by
  induction ps using List.reverseRecOn generalizing t with
  | nil => exact List.Pairwise.nil
  | append_singleton ps p ih =>
    have hnum := numbered_of_addFiles hps ht
    rw [List.forall_mem_append] at hps
    rw [FileTree.addFiles, List.map_append, List.foldlM_append] at ht
    obtain ⟨u, hu, ht⟩ := exists_of_bind_eq_ok ht
    have hnum' := numbered_of_addFiles hps.1 hu
    have hgrows : Grows u t := by
      obtain ⟨u', hu', ht⟩ := exists_of_bind_eq_ok ht
      obtain rfl := Except.ok.inj ht
      exact grows_addPath hu'
    have hnode : ∀ {qs : List (List Bytes)} {e}, e ∈ Forest.sightings qs ↔
        e ≠ [] ∧ (Forest.nil.insertAll qs).HasNode e := fun {qs e} => by
      rw [Forest.mem_sightings]
      exact and_congr_right fun hne => (Forest.hasNode_insertAll_iff hne).symm
    have hkept : ∀ e ∈ Forest.sightings (ps.map treePath), t.num e = u.num e := fun e he =>
      hnum'.num_of_grows hgrows (hnode.1 he).1 (hnode.1 he).2
    rw [List.map_append, List.map_singleton] at hnum ⊢
    have hnew : ∀ e, e ≠ [] → e <+: treePath p →
        (Forest.nil.insertAll (ps.map treePath ++ [treePath p])).HasNode e := fun e hne hep =>
      (Forest.hasNode_insertAll_iff hne).2 ⟨treePath p, by simp, hep⟩
    rw [Forest.sightings_snoc]
    refine Forest.pairwise_sight ?_ ?_ ?_
    · refine (ih hps.1 hu).imp_of_mem fun hd he hlt => ?_
      rwa [hkept _ hd, hkept _ he]
    · intro d e _ _ hne hde hdne hep
      have hene : e ≠ [] := fun heq => hne (List.prefix_nil.1 (heq ▸ hde))
      exact hnum.num_lt_of_prefix (hnew e hene hep) hde hdne
    · intro d hd e he hne hep
      rw [hkept d hd]
      exact (hnum'.lt d (hnode.1 hd).2).trans_le (hnum'.le_num_of_grows hnum hgrows hne
        (fun hmem => he (hnode.2 ⟨hne, hmem⟩)) (hnew e hne hep))

/-- As many increasing numbers as their bound are all of them. -/
theorem eq_range'_of_pairwise_lt {l : List ℕ} (h : l.Pairwise (· < ·))
    (hl : ∀ v ∈ l, 0 < v ∧ v ≤ l.length) : l = List.range' 1 l.length := by
  have hsub : l ⊆ List.range' 1 l.length := fun v hv => by
    have := hl v hv
    rw [List.mem_range'_1]
    omega
  have hperm : l.Perm (List.range' 1 l.length) :=
    (List.Nodup.subperm (h.imp fun hlt => hlt.ne) hsub).perm_of_length_le (by simp)
  exact hperm.eq_of_pairwise (fun v v' _ _ hlt hlt' => absurd hlt' (lt_asymm hlt)) h
    List.pairwise_lt_range'

/-- **The number of a prefix is its place in the order of first sight**, from one. -/
theorem num_of_sightings (hps : ∀ p ∈ ps, p ≠ [] ∧ Plain sep p)
    (ht : FileTree.addFiles (ps.map (joined sep)) = .ok t) {i : ℕ} {e : List Bytes}
    (he : (Forest.sightings (ps.map treePath))[i]? = some e) : t.num e = i + 1 := by
  have hnum := numbered_of_addFiles hps ht
  have hperm := Forest.sightings_perm_paths (ps.map treePath)
  have hbound : ∀ v ∈ (Forest.sightings (ps.map treePath)).map t.num,
      0 < v ∧ v ≤ ((Forest.sightings (ps.map treePath)).map t.num).length := by
    intro v hv
    obtain ⟨d, hd, rfl⟩ := List.mem_map.1 hv
    obtain ⟨hne, hnode⟩ := ((Forest.distinct_insertAll _).mem_paths d).1 (hperm.mem_iff.1 hd)
    have hlt := hnum.lt d hnode
    rw [hnum.count, ← Forest.length_paths, ← hperm.length_eq] at hlt
    rw [List.length_map]
    exact ⟨hnum.pos d hne hnode, Nat.le_of_lt_succ hlt⟩
  have hrange := eq_range'_of_pairwise_lt (List.pairwise_map.2 (pairwise_num_sightings hps ht))
    hbound
  have hi := congrArg (·[i]?) hrange
  simp only [List.getElem?_map, he, Option.map_some] at hi
  obtain ⟨_, hnumber⟩ := List.getElem?_eq_some_iff.1 hi.symm
  rw [List.getElem_range'] at hnumber
  omega

end Paths

end FileTree

end TorrentX
