import TorrentX.Machinery.Run
import TorrentX.Client.Numbering
import TorrentX.Client.Selection

/-!
# Client/Walk — the rows are the preorder listing of the forest of the paths

On a numbered tree, `dfs` from the number of a node appends the rows of the forest below it
(`Numbered.dfs`), and `recalcSize` adds zeros (`Numbered.recalcSize`).  With the names cut to their
last component, what `pickDownloadFiles` returns is the preorder listing of the forest of the paths,
the roots at level one (`pickDownloadFiles_eq`) — so every selection made on it is exact
(`lists_ofRow`, Client/Selection).
-/

namespace TorrentX

open Wire Joined FilesPicker

/-- The row of `download_holder` for a row of a forest. -/
def FileNode.ofRow (row : Forest.Row Bytes) : FileNode :=
  { name := row.label, level := row.level, isMarked := false, isLeaf := row.isLeaf }

namespace FileTree

/-! ## Rows with full names

`dfs` writes the whole prefix as the name of a row, and only later are the names cut to their last
component.  So its rows are told by the node, and the forest below the node says whether the row is
a leaf. -/

/-- The row `dfs` writes for the node `c` with the forest `kids` below it. -/
def nodeRow (c : List Bytes) (kids : Forest Bytes) (lvl : ℕ) : FileNode :=
  { name := joined sep c, level := lvl, isMarked := false, isLeaf := kids.isNil }

/-- The rows of a forest below the node `c`. -/
def fileRows : List Bytes → Forest Bytes → ℕ → List FileNode
  | _, .nil, _ => []
  | c, .cons a kids sibs, lvl =>
    nodeRow (c ++ [a]) kids lvl :: (fileRows (c ++ [a]) kids (lvl + 1) ++ fileRows c sibs lvl)

/-- Where siblings are distinct the rows are those of one root after another, as `dfs` goes through
them. -/
theorem fileRows_eq_flatMap {S : Forest Bytes} (h : S.Distinct) (c : List Bytes) (lvl : ℕ) :
    fileRows c S lvl = S.roots.flatMap fun a =>
      nodeRow (c ++ [a]) (S.kidsAt [a]) lvl :: fileRows (c ++ [a]) (S.kidsAt [a]) (lvl + 1) := by
  induction S with
  | nil => rfl
  | cons b kids sibs _ ihs =>
    obtain ⟨hb, -, hs⟩ := h
    rw [fileRows, Forest.roots, List.flatMap_cons, Forest.kidsAt_cons_self, Forest.kidsAt_nil,
      ihs hs, List.cons_append]
    refine congrArg (_ :: ·) (congrArg (_ ++ ·) (List.flatMap_congr fun a ha => ?_))
    rw [Forest.kidsAt_cons_of_ne _ _ _ (by rintro rfl; exact hb ha)]

theorem length_fileRows (c : List Bytes) (S : Forest Bytes) (lvl : ℕ) :
    (fileRows c S lvl).length = S.size := by
  induction S generalizing c lvl with
  | nil => rfl
  | cons a kids sibs ihk ihs =>
    rw [fileRows, List.length_cons, List.length_append, ihk, ihs, Forest.size]
    omega

/-- Nothing sets a size before `recalcSize`. -/
theorem fullsize_of_mem_fileRows {c : List Bytes} {S : Forest Bytes} {lvl : ℕ} {node : FileNode}
    (h : node ∈ fileRows c S lvl) : node.fullsize = 0 := by
  induction S generalizing c lvl with
  | nil => exact absurd h List.not_mem_nil
  | cons a kids sibs ihk ihs =>
    rw [fileRows, List.mem_cons, List.mem_append] at h
    rcases h with rfl | h | h
    · rfl
    · exact ihk h
    · exact ihs h

/-! ## The walk

`dfs` and `recalcSize` go down the numbers, one child after another, and never look at a name to
find their way.  With `Numbered` a number is a node, so each walk is an induction on what is below;
that no subscript is out of range comes with it. -/

variable {t : FileTree} {F : Forest Bytes} {c : List Bytes} {fuel : ℕ} {parent : ℤ}

/-- The subscript `tree[vertex]` of a numbered node is in range. -/
theorem Numbered.children_num (h : Numbered t F) (hsize : F.size < maxFiles) (hc : F.HasNode c) :
    t.children (t.num c) = .ok ((F.childrenAt c).map fun a => t.num (c ++ [a])) := by
  rw [FileTree.children, if_pos (h.num_lt_maxFiles hsize hc), h.children c hc]

/-- Below a child there is less than below its parent, which is what the fuel counts. -/
theorem size_kidsAt_snoc_lt {a : Bytes} (ha : a ∈ F.childrenAt c) :
    (F.kidsAt (c ++ [a])).size < (F.kidsAt c).size := by
  rw [← Forest.kidsAt_append]
  exact Forest.size_kidsAt_lt ((Forest.roots_kidsAt F c).symm ▸ ha)

/-- **`dfs` writes the forest below a node in preorder.**  The induction is on the fuel, which
bounds the size of what is below. -/
theorem Numbered.dfs (h : Numbered t F) (hF : F.Distinct) (hsize : F.size < maxFiles)
    (hc : F.HasNode c) (hfuel : (F.kidsAt c).size < fuel) (hroot : -1 ≤ parent)
    (hparent : parent < t.num c) (lvl : ℕ) (result : List FileNode) :
    t.dfs fuel result (t.num c) lvl parent
      = .ok (result ++ (if parent ≠ -1 then [nodeRow c (F.kidsAt c) lvl] else [])
          ++ fileRows c (F.kidsAt c) (lvl + 1)) := by
  induction fuel generalizing c parent lvl result with
  | zero => exact absurd hfuel (Nat.not_lt_zero _)
  | succ fuel ih =>
    have hrow : (if parent ≠ -1 then
          result ++ [{ name := t.numberToName (t.num c)
                       level := (lvl : ℤ)
                       isMarked := false
                       isLeaf := ((F.childrenAt c).map fun a => t.num (c ++ [a])).isEmpty }]
        else result)
        = result ++ (if parent ≠ -1 then [nodeRow c (F.kidsAt c) lvl] else []) := by
      split
      · next hne =>
        have hcne : c ≠ [] := by
          rintro rfl
          rw [num_nil] at hparent
          exact hne (le_antisymm (Int.le_sub_one_of_lt hparent) hroot)
        rw [h.name c hcne hc, List.isEmpty_map, ← Forest.roots_kidsAt, Forest.isEmpty_roots]
        rfl
      · exact (List.append_nil result).symm
    have hchild : ∀ a ∈ F.childrenAt c, ∀ r,
        (if (t.num (c ++ [a]) : ℤ) ≠ parent then
            t.dfs fuel r (t.num (c ++ [a])) (lvl + 1) (t.num c)
          else pure r)
          = .ok (r ++ (nodeRow (c ++ [a]) ((F.kidsAt c).kidsAt [a]) (lvl + 1)
              :: fileRows (c ++ [a]) ((F.kidsAt c).kidsAt [a]) (lvl + 1 + 1))) := by
      intro a ha r
      have hnode := (F.hasNode_snoc c a).2 ⟨hc, ha⟩
      have habove := h.above c a hnode
      have hlt := size_kidsAt_snoc_lt ha
      have hrec := ih hnode (show _ < fuel by omega) (show (-1 : ℤ) ≤ t.num c by omega)
        (by omega) (lvl + 1) r
      rw [if_pos (show (t.num c : ℤ) ≠ -1 by omega), List.append_assoc,
        List.singleton_append] at hrec
      rw [if_pos (show (t.num (c ++ [a]) : ℤ) ≠ parent by omega), Forest.kidsAt_append]
      exact hrec
    rw [FileTree.dfs, h.children_num hsize hc]
    refine Eq.trans (congrArg (List.foldlM _ · _) hrow) ?_
    rw [List.foldlM_map, fileRows_eq_flatMap (hF.kidsAt c), Forest.roots_kidsAt]
    exact foldlM_eq_ok_append hchild _

/-- From the root it writes no row for the root itself. -/
theorem Numbered.dfs_root (h : Numbered t F) (hF : F.Distinct) (hsize : F.size < maxFiles)
    (result : List FileNode) :
    t.dfs (maxFiles + 1) result root 0 (-1) = .ok (result ++ fileRows [] F 1) := by
  have hfuel : (F.kidsAt []).size < maxFiles + 1 := by
    rw [Forest.kidsAt_nil]
    omega
  have hdfs := h.dfs hF hsize F.hasNode_nil hfuel (le_refl (-1)) t.neg_one_lt_num_nil 0 result
  rw [Forest.kidsAt_nil, if_neg (by simp), List.append_nil] at hdfs
  exact hdfs

/-- The rows have had sizes added: they are as many, and the same if there was no size. -/
def Resized (result r : List FileNode) : Prop :=
  r.length = result.length ∧ ((∀ node ∈ result, node.fullsize = 0) → r = result)

theorem Resized.refl (result : List FileNode) : Resized result result := ⟨rfl, fun _ => rfl⟩

theorem Resized.trans {result r r' : List FileNode} (h : Resized result r) (h' : Resized r r') :
    Resized result r' := by
  refine ⟨h'.1.trans h.1, fun hzero => ?_⟩
  obtain rfl := h.2 hzero
  exact h'.2 hzero

/-- The subscripts of `result` are checked, and nothing else can go wrong.  This is where a size
that is not zero would come from. -/
theorem exists_addSize (result : List FileNode) {i j : ℤ} (hi : 0 ≤ i ∧ i < result.length)
    (hj : 0 ≤ j ∧ j < result.length) : ∃ r, addSize result i j = .ok r ∧ Resized result r := by
  rw [addSize, if_pos ⟨hi.1, hi.2, hj⟩]
  refine ⟨_, rfl, List.length_modify .., fun hzero => ?_⟩
  have hadded : (result[j.toNat]?.map FileNode.fullsize).getD 0 = 0 := by
    cases hget : result[j.toNat]? with
    | none => rfl
    | some node => exact hzero node (List.mem_of_getElem? hget)
  simp only [hadded, add_zero]
  exact List.modify_id _ _

/-- **`recalcSize` stays inside the rows**, and leaves them as they are where no size was set. -/
theorem Numbered.recalcSize (h : Numbered t F) (hsize : F.size < maxFiles)
    {result : List FileNode} (hlength : F.size ≤ result.length) (hc : F.HasNode c)
    (hfuel : (F.kidsAt c).size < fuel) (hroot : -1 ≤ parent) (hparent : parent < t.num c) :
    ∃ r, t.recalcSize fuel result (t.num c) parent = .ok r ∧ Resized result r := by
  induction fuel generalizing c parent result with
  | zero => exact absurd hfuel (Nat.not_lt_zero _)
  | succ fuel ih =>
    obtain ⟨r, hr, hresized⟩ : ∃ r, ((F.childrenAt c).map fun a => t.num (c ++ [a])).foldlM
        (fun result (child : ℕ) =>
          if (child : ℤ) ≠ parent then t.recalcSize fuel result child (t.num c)
          else pure result) result = .ok r ∧ Resized result r := by
      refine exists_foldlM_eq_ok (fun v hv s hs => ?_) (Resized.refl result)
      obtain ⟨a, ha, rfl⟩ := List.mem_map.1 hv
      have hnode := (F.hasNode_snoc c a).2 ⟨hc, ha⟩
      have habove := h.above c a hnode
      have hlt := size_kidsAt_snoc_lt ha
      obtain ⟨s', hs', hresized⟩ := @ih _ _ s (hs.1 ▸ hlength) hnode (show _ < fuel by omega)
        (show (-1 : ℤ) ≤ t.num c by omega) (by omega)
      rw [if_pos (show (t.num (c ++ [a]) : ℤ) ≠ parent by omega)]
      exact ⟨s', hs', hs.trans hresized⟩
    obtain ⟨r', hr', hresized'⟩ : ∃ r', (if parent ≠ -1 ∧ 0 ≤ parent - 1 then
        addSize r (parent - 1) ((t.num c : ℤ) - 1) else pure r) = .ok r' ∧ Resized r r' := by
      split
      · next hpos =>
        have hlt := h.lt c hc
        have hcount := h.count
        have hrows := hresized.1
        exact exists_addSize r ⟨hpos.2, by omega⟩ ⟨by omega, by omega⟩
      · exact ⟨r, rfl, Resized.refl r⟩
    rw [FileTree.recalcSize, h.children_num hsize hc]
    exact ⟨r', (bind_of_eq_ok rfl _).trans ((bind_of_eq_ok hr _).trans hr'),
      hresized.trans hresized'⟩

end FileTree

/-! ## Cutting the names -/

/-- The last component of a prefix is what follows its last separator. -/
theorem lastName_joined {a : Bytes} (ha : sep ∉ a) (c : List Bytes) :
    lastName (joined sep (c ++ [a])) = a := by
  have hall : ∀ b ∈ a.reverse, decide (b ≠ sep) = true := fun b hb =>
    decide_eq_true fun heq => ha (heq ▸ List.mem_reverse.1 hb)
  have hlead : (lead sep c).reverse.takeWhile (· ≠ sep) = [] := by
    rcases List.eq_nil_or_concat c with rfl | ⟨c, b, rfl⟩
    · rfl
    · rw [List.concat_eq_append, lead_snoc]
      simp
  rw [lastName, ← lead_append_joined c (List.cons_ne_nil a []), joined_singleton,
    List.reverse_append, List.takeWhile_append_of_pos hall, hlead, List.append_nil,
    List.reverse_reverse]

/-- With the names cut the rows are the listing. -/
theorem map_lastName_fileRows {S : Forest Bytes} (h : ∀ e ∈ S.paths, Plain sep e)
    (c : List Bytes) (lvl : ℕ) :
    (FileTree.fileRows c S lvl).map (fun node => { node with name := lastName node.name })
      = (S.listing lvl).map FileNode.ofRow := by
  induction S generalizing c lvl with
  | nil => rfl
  | cons a kids sibs ihk ihs =>
    rw [Forest.paths, List.forall_mem_cons, List.forall_mem_append] at h
    obtain ⟨ha, hk, hs⟩ := h
    have hkids : ∀ e ∈ kids.paths, Plain sep e := fun e he =>
      (hk (a :: e) (List.mem_map_of_mem he)).of_cons.2
    rw [FileTree.fileRows, Forest.listing, List.map_cons, List.map_append, ihk hkids, ihs hs,
      List.map_cons, List.map_append]
    refine congrArg (· :: _) ?_
    simp only [FileTree.nodeRow, lastName_joined (ha a List.mem_cons_self), FileNode.ofRow]

/-! ## `pickDownloadFiles`

Numbering, walk and cut, one after another.  The list may have any files, as long as the prefixes
the loop visits are fewer than `maxFiles`. -/

section PickDownloadFiles

variable {ps : List (List Bytes)}

/-- The rows go after those that are there already, with the sizes added up and the names cut. -/
theorem exists_pickDownloadFiles_eq (holder : List FileNode)
    (hps : ∀ p ∈ ps, p ≠ [] ∧ Plain sep p)
    (hsize : ((Forest.nil).insertAll (ps.map treePath)).size < maxFiles) :
    ∃ r, FileTree.Resized
        (holder ++ FileTree.fileRows [] (Forest.nil.insertAll (ps.map treePath)) 1) r ∧
      pickDownloadFiles holder (ps.map (joined sep))
        = .ok (r.map fun node => { node with name := lastName node.name }) := by
  obtain ⟨t, ht, hnum⟩ := FileTree.numbered_addFiles hps hsize
  generalize hF : Forest.nil.insertAll (ps.map treePath) = F at *
  have hdistinct : F.Distinct := hF ▸ Forest.distinct_insertAll _
  have hdfs := hnum.dfs_root hdistinct hsize holder
  have hfuel : (F.kidsAt []).size < maxFiles + 1 := by
    rw [Forest.kidsAt_nil]
    omega
  have hlength : F.size ≤ (holder ++ FileTree.fileRows [] F 1).length := by
    rw [List.length_append, FileTree.length_fileRows]
    exact Nat.le_add_left _ _
  obtain ⟨r, hsizes, hresized⟩ :=
    hnum.recalcSize hsize hlength F.hasNode_nil hfuel (le_refl (-1)) t.neg_one_lt_num_nil
  refine ⟨r, hresized, ?_⟩
  rw [pickDownloadFiles, ht]
  exact (bind_of_eq_ok rfl _).trans ((bind_of_eq_ok hdfs _).trans (bind_of_eq_ok hsizes _))

/-- **The rows are the preorder listing of the forest of the paths.** -/
theorem pickDownloadFiles_eq (hps : ∀ p ∈ ps, p ≠ [] ∧ Plain sep p)
    (hsize : ((Forest.nil).insertAll (ps.map treePath)).size < maxFiles) :
    pickDownloadFiles [] (ps.map (joined sep))
      = .ok (((Forest.nil.insertAll (ps.map treePath)).listing 1).map FileNode.ofRow) := by
  obtain ⟨r, hresized, hrows⟩ := exists_pickDownloadFiles_eq [] hps hsize
  obtain rfl := hresized.2 fun _ => FileTree.fullsize_of_mem_fileRows
  have hpaths : ∀ e ∈ (Forest.nil.insertAll (ps.map treePath)).paths, Plain sep e := by
    intro e he
    obtain ⟨t, -, hnum⟩ := FileTree.numbered_addFiles hps hsize
    exact hnum.plain e (((Forest.distinct_insertAll _).mem_paths e).1 he).2
  rw [hrows, List.nil_append, map_lastName_fileRows hpaths [] 1]

/-- Selections are made on the rows of a preorder listing. -/
theorem lists_ofRow (F : Forest Bytes) (lvl : ℕ) :
    Lists F lvl ((F.listing lvl).map FileNode.ofRow) where
  levels := by rw [List.map_map]; rfl
  unmarked node h := by
    obtain ⟨row, -, rfl⟩ := List.mem_map.1 h
    rfl

end PickDownloadFiles

end TorrentX
