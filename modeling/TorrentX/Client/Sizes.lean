import TorrentX.Machinery.Load
import TorrentX.Client.FirstSight
import TorrentX.Client.Priorities

/-!
# Client/Sizes — do the sizes of a directory add up?

`recalcSize` walks the tree and adds the row of a child to the row of its parent; the row of a
vertex is the one whose index is its number less one.  So on return it has loaded every prefix with
the weights of all below it (`Numbered.recalcSize_load`) — the weight of a prefix being the size in
the row its number names.  `dfs` has written the rows in preorder, though, and the numbers are those
of first sight.  The sizes add up exactly when the two orders are one (`sizesAddUp_iff`).
-/

namespace TorrentX

open Wire Joined FilesPicker Outline

/-- The `fullsize_` of a row. -/
def fullsizeAt (rows : List FileNode) (i : ℕ) : UInt64 :=
  (rows[i]?.map FileNode.fullsize).getD 0

namespace FileTree

/-! ## The row of a number

A prefix has two places: its number, from which `recalcSize` takes the row it adds to, and its row,
which `dfs` has written.  Its weight is the size at the first. -/

/-- The size in the row that the number of a prefix names. -/
def weight (t : FileTree) (rows : List FileNode) (e : List Bytes) : UInt64 :=
  fullsizeAt rows (t.num e - 1)

/-- `addSize` changes one row's size. -/
theorem addSize_spec (rows : List FileNode) {i j : ℕ} (hi : i < rows.length)
    (hj : j < rows.length) : ∃ r, addSize rows i j = .ok r ∧ r.length = rows.length ∧
      ∀ k, fullsizeAt r k
        = if k = i then fullsizeAt rows i + fullsizeAt rows j else fullsizeAt rows k := by
  have hrange : 0 ≤ (i : ℤ) ∧ (i : ℤ) < rows.length ∧ 0 ≤ (j : ℤ) ∧ (j : ℤ) < rows.length := by
    omega
  rw [addSize, if_pos hrange]
  refine ⟨_, rfl, List.length_modify .., fun k => ?_⟩
  simp only [Int.toNat_natCast]
  rw [fullsizeAt, List.getElem?_modify]
  split
  · next hik =>
    rw [if_pos hik.symm, ← hik, List.getElem?_eq_getElem hi]
    simp [fullsizeAt, List.getElem?_eq_getElem hi]
  · next hik =>
    simp [if_neg (Ne.symm hik), fullsizeAt]

variable {t : FileTree} {F : Forest Bytes} {c : List Bytes} {a : Bytes} {fuel : ℕ}
  {rows : List FileNode}

/-- Leaving a vertex for its parent: the parent's row takes the child's size, the root has none. -/
theorem Numbered.addSize_weight (h : Numbered t F) (hrows : rows.length = F.size)
    (hnode : F.HasNode (c ++ [a])) :
    ∃ r, (if (t.num c : ℤ) ≠ -1 ∧ 0 ≤ (t.num c : ℤ) - 1 then
        addSize rows ((t.num c : ℤ) - 1) ((t.num (c ++ [a]) : ℤ) - 1) else pure rows) = .ok r ∧
      r.length = rows.length ∧ ∀ d, d ≠ [] → F.HasNode d → t.weight r d
        = if d = c then t.weight rows c + t.weight rows (c ++ [a]) else t.weight rows d := by
  have hc := hnode.of_prefix (List.prefix_append c [a])
  have hcount := h.count
  have hlt := h.lt _ hnode
  have habove := h.above c a hnode
  rcases eq_or_ne c [] with rfl | hcne
  · rw [num_nil, if_neg (by decide)]
    exact ⟨rows, rfl, rfl, fun d hd _ => (if_neg hd).symm⟩
  · have hpos := h.pos c hcne hc
    obtain ⟨r, hr, hlength, hsizes⟩ := addSize_spec rows (i := t.num c - 1)
      (j := t.num (c ++ [a]) - 1) (by omega) (by omega)
    refine ⟨r, ?_, hlength, fun d hd hdnode => ?_⟩
    · rw [if_pos (by omega), ← hr]
      congr 1 <;> omega
    · have hposd := h.pos d hd hdnode
      rw [weight, hsizes]
      by_cases hdc : d = c
      · rw [hdc, if_pos rfl, if_pos rfl]
        rfl
      · have hne : t.num d ≠ t.num c := fun heq => hdc (h.num_injective hdnode hc heq)
        rw [if_neg hdc, if_neg (by omega)]
        rfl

/-! ## Loading -/

/-- The loop over some children of a vertex, each of which comes back loaded. -/
theorem exists_foldlM_loaded {f : List FileNode → ℕ → Except TreeFault (List FileNode)}
    (hF : F.Distinct) {l : List Bytes} (hl : l.Nodup)
    (hchild : ∀ a ∈ l, ∀ rows : List FileNode, rows.length = F.size →
      ∃ r, f rows (t.num (c ++ [a])) = .ok r ∧ r.length = rows.length ∧
        F.Loaded c [a] (t.weight rows) (t.weight r))
    (hrows : rows.length = F.size) :
    ∃ r, (l.map fun a => t.num (c ++ [a])).foldlM f rows = .ok r ∧ r.length = rows.length ∧
      F.Loaded c l (t.weight rows) (t.weight r) := by
  induction l generalizing rows with
  | nil => exact ⟨rows, rfl, rfl, Forest.Loaded.nil F c _⟩
  | cons a l ih =>
    rw [List.nodup_cons] at hl
    rw [List.forall_mem_cons] at hchild
    obtain ⟨r, hr, hlength, hloaded⟩ := hchild.1 rows hrows
    obtain ⟨r', hr', hlength', hloaded'⟩ := ih hl.2 hchild.2 (hlength.trans hrows)
    refine ⟨r', ?_, hlength'.trans hlength, hloaded.cons hloaded' hF hl.1⟩
    rw [List.map_cons, List.foldlM_cons, bind_of_eq_ok hr, hr']

/-- **From a vertex `recalcSize` comes back with everything below loaded**, and with the load of the
vertex on its parent.  The induction is on the fuel, which bounds the size of what is below. -/
theorem Numbered.recalcSize_loaded (h : Numbered t F) (hF : F.Distinct) (hsize : F.size < maxFiles)
    (hrows : rows.length = F.size) (hnode : F.HasNode (c ++ [a]))
    (hfuel : (F.kidsAt (c ++ [a])).size < fuel) :
    ∃ r, t.recalcSize fuel rows (t.num (c ++ [a])) (t.num c) = .ok r ∧ r.length = rows.length ∧
      F.Loaded c [a] (t.weight rows) (t.weight r) := by
  induction fuel generalizing c a rows with
  | zero => exact absurd hfuel (Nat.not_lt_zero _)
  | succ fuel ih =>
    have habove := h.above c a hnode
    obtain ⟨r, hr, hlength, hloaded⟩ : ∃ r, ((F.childrenAt (c ++ [a])).map
          fun b => t.num (c ++ [a] ++ [b])).foldlM (fun rows (child : ℕ) =>
            if (child : ℤ) ≠ t.num c then t.recalcSize fuel rows child (t.num (c ++ [a]))
            else pure rows) rows = .ok r ∧ r.length = rows.length ∧
        F.Loaded (c ++ [a]) (F.childrenAt (c ++ [a])) (t.weight rows) (t.weight r) := by
      refine exists_foldlM_loaded hF (hF.nodup_childrenAt _) (fun b hb rows hrows => ?_) hrows
      have hbnode := (F.hasNode_snoc (c ++ [a]) b).2 ⟨hnode, hb⟩
      have hbabove := h.above (c ++ [a]) b hbnode
      have hlt := size_kidsAt_snoc_lt hb
      rw [if_pos (by omega)]
      exact ih hrows hbnode (by omega)
    obtain ⟨r', hr', hlength', hweight⟩ := h.addSize_weight (hlength.trans hrows) hnode
    refine ⟨r', ?_, hlength'.trans hlength, hloaded.leave hF hnode hweight⟩
    rw [FileTree.recalcSize, h.children_num hsize hnode, ← hr']
    exact (bind_of_eq_ok rfl _).trans (bind_of_eq_ok hr _)

/-- **From the root `recalcSize` loads every prefix.** -/
theorem Numbered.recalcSize_load (h : Numbered t F) (hF : F.Distinct) (hsize : F.size < maxFiles)
    (hrows : rows.length = F.size) :
    ∃ r, t.recalcSize (maxFiles + 1) rows root (-1) = .ok r ∧ r.length = rows.length ∧
      ∀ d, d ≠ [] → F.HasNode d → t.weight r d = F.load (t.weight rows) d := by
  obtain ⟨r, hr, hlength, hloaded⟩ : ∃ r, ((F.childrenAt []).map
        fun a => t.num ([] ++ [a])).foldlM (fun rows (child : ℕ) =>
          if (child : ℤ) ≠ -1 then t.recalcSize maxFiles rows child (t.num []) else pure rows)
        rows = .ok r ∧ r.length = rows.length ∧
      F.Loaded [] (F.childrenAt []) (t.weight rows) (t.weight r) := by
    refine exists_foldlM_loaded hF (hF.nodup_childrenAt []) (fun a ha rows hrows => ?_) hrows
    have hnode := (F.hasNode_snoc [] a).2 ⟨F.hasNode_nil, ha⟩
    have hlt := size_kidsAt_snoc_lt ha
    rw [Forest.kidsAt_nil] at hlt
    rw [if_pos (by omega)]
    exact h.recalcSize_loaded hF hsize hrows hnode (by omega)
  refine ⟨r, ?_, hlength, fun d hd hnode => hloaded.settled hF hd hnode List.nil_prefix⟩
  have hchildren := h.children_num hsize F.hasNode_nil
  rw [num_nil] at hchildren hr
  rw [FileTree.recalcSize, hchildren]
  exact (bind_of_eq_ok rfl _).trans (bind_of_eq_ok hr _)

end FileTree

/-! ## Leaf rows -/

section LeafRows

variable {rows : List FileNode}

/-- The leaf rows are the rows of leaves. -/
theorem mem_leafRows {i : ℕ} :
    i ∈ leafRows rows ↔ rows[i]?.map FileNode.isLeaf = some true := by
  rw [leafRows, List.mem_map, Option.map_eq_some_iff]
  constructor
  · rintro ⟨⟨node, i⟩, hmem, rfl⟩
    obtain ⟨hzip, hleaf⟩ := List.mem_filter.1 hmem
    exact ⟨node, List.mem_zipIdx_iff_getElem?.1 hzip, hleaf⟩
  · rintro ⟨node, hnode, hleaf⟩
    exact ⟨(node, i), List.mem_filter.2 ⟨List.mem_zipIdx_iff_getElem?.2 hnode, hleaf⟩, rfl⟩

theorem lt_length_of_mem_leafRows {i : ℕ} (h : i ∈ leafRows rows) : i < rows.length := by
  obtain ⟨node, hnode, -⟩ := Option.map_eq_some_iff.1 (mem_leafRows.1 h)
  exact (List.getElem?_eq_some_iff.1 hnode).1

/-- The rows with a size on every leaf. -/
def withSizes (rows : List FileNode) (s : ℕ → UInt64) : List FileNode :=
  rows.mapIdx fun i node => if node.isLeaf then { node with fullsize := s i } else node

@[simp] theorem length_withSizes (rows : List FileNode) (s : ℕ → UInt64) :
    (withSizes rows s).length = rows.length := List.length_mapIdx

/-- A leaf row has the size put on it, any other has none. -/
theorem fullsizeAt_withSizes (h : ∀ node ∈ rows, node.fullsize = 0) (s : ℕ → UInt64) (i : ℕ) :
    fullsizeAt (withSizes rows s) i = if i ∈ leafRows rows then s i else 0 := by
  simp only [mem_leafRows]
  rw [fullsizeAt, withSizes, List.getElem?_mapIdx]
  cases hi : rows[i]? with
  | none => simp
  | some node =>
    have hzero := h node (List.mem_of_getElem? hi)
    cases hleaf : node.isLeaf <;> simp [hleaf, hzero]

/-- The rows that are no leaves have no size to sum. -/
theorem sum_withSizes (h : ∀ node ∈ rows, node.fullsize = 0) (s : ℕ → UInt64) (P : ℕ → Prop)
    [DecidablePred P] : ∑ j ∈ Finset.range rows.length with P j, fullsizeAt (withSizes rows s) j
      = ∑ j ∈ (leafRows rows).toFinset with P j, s j := by
  have hleaves : (leafRows rows).toFinset.filter P
      = ((Finset.range rows.length).filter P).filter (· ∈ leafRows rows) := by
    ext j
    simp only [Finset.mem_filter, List.mem_toFinset, Finset.mem_range]
    exact ⟨fun hj => ⟨⟨lt_length_of_mem_leafRows hj.1, hj.2⟩, hj.1⟩, fun hj => ⟨hj.2, hj.1.2⟩⟩
  rw [hleaves, Finset.sum_filter (· ∈ leafRows rows)]
  exact Finset.sum_congr rfl fun j _ => fullsizeAt_withSizes h s j

end LeafRows

/-! ## Adding up -/

/-- The sizes of `r` are those of `s`, added up by directory. -/
structure AddsUp (rows : List FileNode) (s : ℕ → UInt64) (r : List FileNode) : Prop where
  length : r.length = rows.length
  leaf : ∀ i ∈ leafRows rows, fullsizeAt r i = s i
  directory : ∀ i < rows.length, i ∉ leafRows rows → (fullsizeAt r i).toNat
    = ∑ j ∈ (leafRows rows).toFinset with Heads (level rows) i j, (s j).toNat

/-- **Directory sizes add up**: whatever the sizes of the leaf rows are, `recalcSize` leaves them as
they are and every directory with the sum of those below it. -/
def SizesAddUp (L : FileList) : Prop :=
  ∃ t rows, FileTree.addFiles L.paths = .ok t ∧ t.dfs (maxFiles + 1) [] root 0 (-1) = .ok rows ∧
    ∀ s : ℕ → UInt64, ∑ j ∈ (leafRows rows).toFinset, (s j).toNat < 2 ^ 64 →
      ∃ r, t.recalcSize (maxFiles + 1) (withSizes rows s) root (-1) = .ok r ∧ AddsUp rows s r

/-- A leaf covers itself only, so every row has what it covers. -/
theorem addsUp_iff {rows r : List FileNode} {s : ℕ → UInt64} (hlength : r.length = rows.length)
    (hleaf : ∀ i ∈ leafRows rows, Leaf rows.length (level rows) i) :
    AddsUp rows s r ↔ ∀ i < rows.length, (fullsizeAt r i).toNat
      = ∑ j ∈ (leafRows rows).toFinset with Covers (level rows) i j, (s j).toNat := by
  have hself : ∀ i ∈ leafRows rows, (leafRows rows).toFinset.filter (Covers (level rows) i ·)
      = {i} := by
    intro i hi
    ext j
    rw [Finset.mem_filter, List.mem_toFinset, Finset.mem_singleton]
    constructor
    · rintro ⟨hj, hij⟩
      exact (hleaf i hi).eq_of_covers (lt_length_of_mem_leafRows hj) hij
    · rintro rfl
      exact ⟨hi, .inl rfl⟩
  have hother : ∀ i, i ∉ leafRows rows → (leafRows rows).toFinset.filter (Covers (level rows) i ·)
      = (leafRows rows).toFinset.filter (Heads (level rows) i ·) := by
    intro i hi
    refine Finset.filter_congr fun j hj => ⟨fun h => h.resolve_left ?_, .inr⟩
    rintro rfl
    exact hi (List.mem_toFinset.1 hj)
  constructor
  · intro h i hi
    by_cases hmem : i ∈ leafRows rows
    · rw [hself i hmem, Finset.sum_singleton, h.leaf i hmem]
    · rw [hother i hmem, h.directory i hi hmem]
  · intro h
    refine ⟨hlength, fun i hi => ?_, fun i hi hmem => ?_⟩
    · have heq := h i (lt_length_of_mem_leafRows hi)
      rw [hself i hi, Finset.sum_singleton] at heq
      exact UInt64.toNat_inj.1 heq
    · rw [h i hi, hother i hmem]

/-- A sum of sizes that fits is the sum. -/
theorem toNat_sum {ι : Type*} (S : Finset ι) (s : ι → UInt64)
    (h : ∑ j ∈ S, (s j).toNat < 2 ^ 64) : (∑ j ∈ S, s j).toNat = ∑ j ∈ S, (s j).toNat := by
  classical
  induction S using Finset.induction_on with
  | empty => rfl
  | insert j S hj ih =>
    rw [Finset.sum_insert hj] at h ⊢
    rw [Finset.sum_insert hj, UInt64.toNat_add, ih (by omega), Nat.mod_eq_of_lt h]

/-! ## The rows of a list of files

For the files of a torrent all is known: the forest, its numbers, its rows.  What `recalcSize` sums
can then be said by places alone, over prefixes in the order of first sight. -/

/-- What does not depend on the full name can be read off the listing. -/
theorem FileTree.map_fileRows {β : Type*} {f : FileNode → β} {g : Forest.Row Bytes → β}
    (hfg : ∀ (c : List Bytes) (a : Bytes) (kids : Forest Bytes) (lvl : ℕ),
      f (nodeRow (c ++ [a]) kids lvl) = g ⟨a, lvl, kids.isNil⟩)
    (c : List Bytes) (S : Forest Bytes) (lvl : ℕ) :
    (fileRows c S lvl).map f = (S.listing lvl).map g := by
  induction S generalizing c lvl with
  | nil => rfl
  | cons a kids sibs ihk ihs =>
    rw [fileRows, Forest.listing, List.map_cons, List.map_append, ihk, ihs, hfg, List.map_cons,
      List.map_append]

namespace FileList

variable (L : FileList)

/-- The prefixes of the paths, in the order in which the loop first sees them. -/
def sightings : List (List Bytes) := Forest.sightings (L.components.map treePath)

/-- The rows `dfs` writes. -/
def rows : List FileNode := FileTree.fileRows [] L.forest 1

/-- What is seen first and what has a row are the same prefixes, in two orders. -/
theorem sightings_perm : L.sightings.Perm L.forest.paths := Forest.sightings_perm_paths _

theorem length_rows : L.rows.length = L.forest.size := FileTree.length_fileRows [] L.forest 1

theorem length_sightings : L.sightings.length = L.rows.length := by
  rw [L.sightings_perm.length_eq, Forest.length_paths, L.length_rows]

/-- The rows are the listing of the forest. -/
theorem lists_rows : Lists L.forest 1 L.rows where
  levels := FileTree.map_fileRows (fun _ _ _ _ => rfl) [] L.forest 1
  unmarked node h := by
    have hmarks : L.rows.map FileNode.isMarked = (L.forest.listing 1).map fun _ => false :=
      FileTree.map_fileRows (fun _ _ _ _ => rfl) [] L.forest 1
    have hmem := hmarks ▸ List.mem_map_of_mem (f := FileNode.isMarked) h
    obtain ⟨-, -, hfalse⟩ := List.mem_map.1 hmem
    exact hfalse.symm

theorem fullsize_rows : ∀ node ∈ L.rows, node.fullsize = 0 :=
  fun _ => FileTree.fullsize_of_mem_fileRows

theorem isLeaf_rows (i : ℕ) :
    L.rows[i]?.map FileNode.isLeaf = (L.forest.listing 1)[i]?.map Forest.Row.isLeaf := by
  have h : L.rows.map FileNode.isLeaf = (L.forest.listing 1).map Forest.Row.isLeaf :=
    FileTree.map_fileRows (fun _ _ _ _ => rfl) [] L.forest 1
  rw [← List.getElem?_map, h, List.getElem?_map]

theorem leaf_of_mem_leafRows {i : ℕ} (h : i ∈ leafRows L.rows) :
    Leaf L.rows.length (level L.rows) i := by
  rw [L.lists_rows.leaf_iff, L.forest.isLeaf_iff_listing 1, ← L.isLeaf_rows]
  exact mem_leafRows.1 h

variable {L}

/-- A leaf row is that of a node with nothing below. -/
theorem mem_leafRows_iff {i : ℕ} {f : List Bytes} (hf : L.forest.paths[i]? = some f) :
    i ∈ leafRows L.rows ↔ (L.forest.kidsAt f).isNil = true := by
  rw [mem_leafRows, L.isLeaf_rows, L.distinct_forest.listing_paths, List.getElem?_map, hf]
  simp

/-- A row covers those whose paths go on from its own. -/
theorem covers_iff_prefix {i j : ℕ} {f f' : List Bytes} (hi : L.forest.paths[i]? = some f)
    (hj : L.forest.paths[j]? = some f') : Covers (level L.rows) i j ↔ f <+: f' := by
  have hlt : j < L.rows.length := L.length_rows ▸ Forest.lt_size_of_getElem?_paths hj
  rw [L.lists_rows.covers_iff hlt, L.distinct_forest.below_iff_prefix hi hj]
  constructor
  · rintro (rfl | ⟨hpre, -⟩)
    · rw [Option.some.inj (hi.symm.trans hj)]
    · exact hpre
  · intro hpre
    by_cases heq : f = f'
    · have hlt' := (List.getElem?_eq_some_iff.1 hi).1
      exact .inl ((List.getElem?_inj hlt' L.distinct_forest.nodup_paths).1
        (by rw [hi, hj, heq]))
    · exact .inr ⟨hpre, heq⟩

variable (L)

/-- **The tree and the rows**: the numbers are those of first sight, the rows are in preorder. -/
theorem exists_tree : ∃ t, FileTree.addFiles L.paths = .ok t ∧ t.Numbered L.forest ∧
    t.dfs (maxFiles + 1) [] root 0 (-1) = .ok L.rows ∧
    ∀ (i : ℕ) (e : List Bytes), L.sightings[i]? = some e → t.num e = i + 1 := by
  obtain ⟨t, ht, hnum⟩ := FileTree.numbered_addFiles L.plain_components L.size_forest_lt
  refine ⟨t, L.paths_eq_map ▸ ht, hnum, ?_, fun i e he => ?_⟩
  · exact hnum.dfs_root L.distinct_forest L.size_forest_lt []
  · exact FileTree.num_of_sightings L.plain_components ht he

/-- **What `recalcSize` leaves**: in each row the sizes of the leaf rows whose places in the order
of first sight are those of prefixes that go on from the one there. -/
theorem recalcSize_rows {t : FileTree} (hnum : t.Numbered L.forest)
    (hplace : ∀ (i : ℕ) (e : List Bytes), L.sightings[i]? = some e → t.num e = i + 1)
    {s : ℕ → UInt64} (hs : ∑ j ∈ (leafRows L.rows).toFinset, (s j).toNat < 2 ^ 64) :
    ∃ r, t.recalcSize (maxFiles + 1) (withSizes L.rows s) root (-1) = .ok r ∧
      r.length = L.rows.length ∧ ∀ i < L.rows.length, (fullsizeAt r i).toNat
        = ∑ j ∈ (leafRows L.rows).toFinset with
            L.sightings.getD i [] <+: L.sightings.getD j [], (s j).toNat := by
  have hlength : (withSizes L.rows s).length = L.forest.size := by
    rw [length_withSizes, L.length_rows]
  have hweight : ∀ rows : List FileNode, ∀ i < L.rows.length,
      t.weight rows (L.sightings.getD i []) = fullsizeAt rows i := by
    intro rows i hi
    rw [← L.length_sightings] at hi
    rw [List.getD_eq_getElem _ _ hi, FileTree.weight, hplace i _ (List.getElem?_eq_getElem hi),
      Nat.add_sub_cancel]
  obtain ⟨r, hr, hrlength, hload⟩ :=
    hnum.recalcSize_load L.distinct_forest L.size_forest_lt hlength
  refine ⟨r, hr, hrlength.trans (length_withSizes ..), fun i hi => ?_⟩
  obtain ⟨hne, hnode⟩ : L.sightings.getD i [] ≠ [] ∧ L.forest.HasNode (L.sightings.getD i []) := by
    rw [← L.length_sightings] at hi
    rw [← L.distinct_forest.mem_paths, ← L.sightings_perm.mem_iff, List.getD_eq_getElem _ _ hi]
    exact List.getElem_mem hi
  rw [← hweight r i hi, hload _ hne hnode, L.distinct_forest.load_eq_sum_range L.sightings_perm,
    L.length_sightings, ← toNat_sum _ s (lt_of_le_of_lt ?_ hs),
    ← sum_withSizes L.fullsize_rows]
  · refine congrArg UInt64.toNat (Finset.sum_congr rfl fun j hj => ?_)
    exact hweight _ j (Finset.mem_range.1 (Finset.mem_filter.1 hj).1)
  · exact Finset.sum_le_sum_of_subset (Finset.filter_subset _ _)

end FileList

/-! ## When they add up

If the sizes add up for all sizes of the leaves, they do so for a size of one on a single leaf.
That tells for each row whether the leaf is counted there, and so which prefixes are above which. -/

/-- A size of one on a leaf row is in the sums that have the row. -/
theorem sum_single {S : Finset ℕ} {k : ℕ} (hk : k ∈ S) (P : ℕ → Prop) [DecidablePred P] :
    ∑ j ∈ S with P j, (if j = k then (1 : UInt64) else 0).toNat = if P k then 1 else 0 := by
  rw [Finset.sum_filter, Finset.sum_eq_single k]
  · simp
  · intro j _ hjk
    simp [hjk]
  · exact fun hnot => absurd hk hnot

/-- **Directory sizes add up exactly when the prefixes, in the order in which the loop first sees
them, are contiguous** — those below a directory come one after another.  Then the numbers are in
preorder, as the rows are; otherwise some leaf's size goes to a directory it is not in. -/
theorem sizesAddUp_iff (L : FileList) : SizesAddUp L ↔ Forest.Contiguous L.sightings := by
  obtain ⟨t, ht, hnum, hdfs, hplace⟩ := L.exists_tree
  have hleaf : ∀ i ∈ leafRows L.rows, Leaf L.rows.length (level L.rows) i :=
    fun i => L.leaf_of_mem_leafRows
  rw [FileList.sightings, ← Forest.paths_eq_sightings_iff]
  constructor
  · rintro ⟨t', rows, ht', hdfs', h⟩
    obtain rfl := Except.ok.inj (ht.symm.trans ht')
    obtain rfl := Except.ok.inj (hdfs.symm.trans hdfs')
    refine Forest.paths_eq_sightings_of_sameAbove fun i k e e' f f' he he' hf hf' hnil => ?_
    have hk := List.mem_toFinset.2 ((FileList.mem_leafRows_iff hf').2 hnil)
    have hi : i < L.rows.length := L.length_rows ▸ Forest.lt_size_of_getElem?_paths hf
    -- a size of one on the leaf row alone tells which rows count it
    have hone : ∑ j ∈ (leafRows L.rows).toFinset, (if j = k then (1 : UInt64) else 0).toNat
        < 2 ^ 64 := by
      have hsum := sum_single hk fun _ => True
      rw [Finset.filter_true, if_pos trivial] at hsum
      rw [hsum]
      norm_num
    obtain ⟨r, hr, hadds⟩ := h _ hone
    obtain ⟨r', hr', hlength, hsums⟩ := L.recalcSize_rows hnum hplace hone
    obtain rfl := Except.ok.inj (hr.symm.trans hr')
    have hcount := (hsums i hi).symm.trans ((addsUp_iff hlength hleaf).1 hadds i hi)
    rw [sum_single hk, sum_single hk, List.getD_eq_getElem?_getD, List.getD_eq_getElem?_getD,
      show L.sightings[i]? = some e from he, show L.sightings[k]? = some e' from he',
      Option.getD_some, Option.getD_some] at hcount
    rw [← FileList.covers_iff_prefix hf hf']
    split_ifs at hcount with hpre hcovers hcovers
    · exact iff_of_true hpre hcovers
    · exact iff_of_false hpre hcovers
  · intro h
    have hpaths : L.forest.paths = L.sightings := h
    refine ⟨t, L.rows, ht, hdfs, fun s hs => ?_⟩
    obtain ⟨r, hr, hlength, hsums⟩ := L.recalcSize_rows hnum hplace hs
    refine ⟨r, hr, (addsUp_iff hlength hleaf).2 fun i hi => (hsums i hi).trans ?_⟩
    refine congrArg (Finset.sum · _) (Finset.filter_congr fun j hj => ?_)
    have hj := lt_length_of_mem_leafRows (List.mem_toFinset.1 hj)
    rw [← L.length_sightings, ← hpaths] at hi hj
    rw [← hpaths, List.getD_eq_getElem _ _ hi, List.getD_eq_getElem _ _ hj]
    exact (FileList.covers_iff_prefix (List.getElem?_eq_getElem hi)
      (List.getElem?_eq_getElem hj)).symm

/-- `b` is the fourth prefix seen and has the fifth row, so `a` gets its size where that of `a/y`
should go. -/
theorem not_sizesAddUp_splitDirectory : ¬ SizesAddUp splitDirectory := by
  rintro ⟨t, rows, ht, hdfs, h⟩
  have hrows : (FileTree.addFiles splitDirectory.paths >>= fun t =>
      t.dfs (maxFiles + 1) [] root 0 (-1)) = .ok [⟨text "T", 1, false, false, 0⟩,
        ⟨text "T/a", 2, false, false, 0⟩, ⟨text "T/a/x", 3, false, true, 0⟩,
        ⟨text "T/a/y", 3, false, true, 0⟩, ⟨text "T/b", 2, false, true, 0⟩] := rfl
  rw [bind_of_eq_ok ht, hdfs] at hrows
  obtain rfl := Except.ok.inj hrows
  obtain ⟨r, hr, hadds⟩ := h (fun j => [0, 0, 5, 7, 1].getD j 0) (by decide)
  have hrun : (FileTree.addFiles splitDirectory.paths >>= fun t =>
      t.recalcSize (maxFiles + 1) [⟨text "T", 1, false, false, 0⟩,
        ⟨text "T/a", 2, false, false, 0⟩, ⟨text "T/a/x", 3, false, true, 5⟩,
        ⟨text "T/a/y", 3, false, true, 7⟩, ⟨text "T/b", 2, false, true, 1⟩] root (-1)) =
      .ok [⟨text "T", 1, false, false, 13⟩,
        ⟨text "T/a", 2, false, false, 6⟩, ⟨text "T/a/x", 3, false, true, 5⟩,
        ⟨text "T/a/y", 3, false, true, 7⟩, ⟨text "T/b", 2, false, true, 1⟩] := rfl
  rw [bind_of_eq_ok ht] at hrun
  obtain rfl := Except.ok.inj (hr.symm.trans hrun)
  exact absurd (hadds.directory 1 (by decide) (by decide)) (by decide)

/-- Where no path is cut, the prefixes are contiguous exactly when the paths are: when the files of
every directory are listed together. -/
theorem FileList.contiguous_sightings_iff (L : FileList) (hfits : ∀ p ∈ L.files, p.Fits) :
    Forest.Contiguous L.sightings ↔ Forest.Contiguous L.components := by
  have hne : ∀ p ∈ L.components, p ≠ [] := fun p hp => (L.plain_components p hp).1
  rw [FileList.sightings, L.map_treePath_of_fits hfits,
    Forest.contiguous_sightings_iff hne L.prefixFree]

end TorrentX
