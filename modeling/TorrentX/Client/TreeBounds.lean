import TorrentX.Client.Walk

/-!
# Client/TreeBounds — when do the subscripts stay inside `tree`?

A number is given to every prefix without a look at `maxFiles`.  The walk reaches every node
(`Numbered.num_lt_of_dfs`) and nothing but a subscript stops it (`Numbered.eq_treeRange_of_dfs`), so
one node too many is a subscript out of range.  The numbers begin at one and the places of `tree` at
zero, and the root has a place too: the subscripts of `tree` and of the rows are all in range
exactly when the prefixes the loop visits are fewer than `maxFiles` (`subscriptsInRange_iff`).
-/

namespace TorrentX

open Joined FilesPicker

/-- No subscript of `tree` and none of `result` was out of range. -/
def SubscriptsInRange (r : Except TreeFault (List FileNode)) : Prop :=
  r ≠ .error .treeRange ∧ r ≠ .error .resultRange

/-- The path and the directories above it, as the loop over its separators sees them. -/
def visitedPrefixes (file : Bytes) : List (List Bytes) :=
  (treePath (file.splitOn sep)).inits.filter (· ≠ [])

/-! ## The walk reaches every node

A number out of range is harmless until it is used: the map takes any number.  `dfs` uses every
number it meets as a subscript, and it meets them all. -/

namespace FileTree

variable {t : FileTree} {F : Forest Bytes} {c e : List Bytes} {fuel vertex : ℕ} {lvl parent : ℤ}
  {kids : List ℕ} {result r : List FileNode}

/-- A vertex whose children are read is in range. -/
theorem children_eq_ok (h : t.children vertex = .ok kids) :
    vertex < maxFiles ∧ kids = t.tree vertex := by
  rw [children] at h
  split at h
  · next hlt => exact ⟨hlt, (Except.ok.inj h).symm⟩
  · cases h

/-- **A walk that returns has seen every node below**, each at a subscript in range. -/
theorem Numbered.num_lt_of_dfs (h : Numbered t F) (hc : F.HasNode c) (hparent : parent < t.num c)
    (hok : t.dfs fuel result (t.num c) lvl parent = .ok r) (he : F.HasNode (c ++ e)) :
    t.num (c ++ e) < maxFiles := by
  induction fuel generalizing c e lvl parent result r with
  | zero => cases hok
  | succ fuel ih =>
    rw [FileTree.dfs] at hok
    obtain ⟨kids, hkids, hok⟩ := exists_of_bind_eq_ok hok
    obtain ⟨hlt, rfl⟩ := children_eq_ok hkids
    cases e with
    | nil => rwa [List.append_nil]
    | cons a e =>
      rw [List.append_cons] at he ⊢
      have hnode : F.HasNode (c ++ [a]) := he.of_prefix (List.prefix_append _ e)
      have habove := h.above c a hnode
      have hmem : t.num (c ++ [a]) ∈ t.tree (t.num c) := by
        rw [h.children c hc]
        exact List.mem_map_of_mem ((F.hasNode_snoc c a).1 hnode).2
      obtain ⟨s, s', hs⟩ := exists_of_foldlM_eq_ok hok _ hmem
      rw [if_pos (show (t.num (c ++ [a]) : ℤ) ≠ parent by omega)] at hs
      exact ih hnode (by omega) hs he

/-- **Only a subscript stops the walk**: the numbers grow on the way down, so `tree` ends before the
fuel does. -/
theorem Numbered.eq_treeRange_of_dfs {fault : TreeFault} (h : Numbered t F) (hc : F.HasNode c)
    (hfuel : 0 < fuel) (hdeep : maxFiles < fuel + t.num c)
    (herr : t.dfs fuel result (t.num c) lvl parent = .error fault) : fault = .treeRange := by
  induction fuel generalizing c lvl parent result with
  | zero => exact absurd hfuel (lt_irrefl 0)
  | succ fuel ih =>
    rw [FileTree.dfs, FileTree.children] at herr
    by_cases hlt : t.num c < maxFiles
    · rw [if_pos hlt, h.children c hc] at herr
      obtain ⟨v, hv, s, hs⟩ := exists_of_foldlM_eq_error herr
      obtain ⟨a, ha, rfl⟩ := List.mem_map.1 hv
      have hnode := (F.hasNode_snoc c a).2 ⟨hc, ha⟩
      have habove := h.above c a hnode
      split at hs
      · exact ih hnode (by omega) (by omega) hs
      · cases hs
    · rw [if_neg hlt] at herr
      cases herr
      rfl

/-- Nodes whose numbers are in range are few: with the root there is a place for each. -/
theorem Numbered.size_lt_of_num_lt (h : Numbered t F) (hF : F.Distinct)
    (hnum : ∀ e, F.HasNode e → t.num e < maxFiles) : F.size < maxFiles := by
  have hnode : ∀ e ∈ [] :: F.paths, F.HasNode e := by
    intro e he
    rcases List.mem_cons.1 he with rfl | he
    · exact F.hasNode_nil
    · exact ((hF.mem_paths e).1 he).2
  have hnodup : ([] :: F.paths).Nodup :=
    List.nodup_cons.2 ⟨fun hnil => ((hF.mem_paths []).1 hnil).1 rfl, hF.nodup_paths⟩
  have hnums : (([] :: F.paths).map t.num).Nodup :=
    hnodup.map_on fun c hc d hd => h.num_injective (hnode c hc) (hnode d hd)
  have hsub : ([] :: F.paths).map t.num ⊆ List.range maxFiles := by
    intro v hv
    obtain ⟨e, he, rfl⟩ := List.mem_map.1 hv
    exact List.mem_range.2 (hnum e (hnode e he))
  have hle := (hnums.subperm hsub).length_le
  rwa [List.length_map, List.length_cons, Forest.length_paths, List.length_range] at hle

end FileTree

/-! ## In range or not -/

section Bounds

variable {ps : List (List Bytes)} (holder : List FileNode)

/-- Among many nodes is one without a place. -/
theorem pickDownloadFiles_eq_error (hps : ∀ p ∈ ps, p ≠ [] ∧ Plain sep p)
    (hlarge : maxFiles ≤ (Forest.nil.insertAll (ps.map treePath)).size) :
    pickDownloadFiles holder (ps.map (joined sep)) = .error .treeRange := by
  have hbuilds := FileTree.builds_addFiles hps
  generalize hF : Forest.nil.insertAll (ps.map treePath) = F at *
  have hdistinct : F.Distinct := hF ▸ Forest.distinct_insertAll _
  rcases hbuilds with ⟨t, ht, hnum⟩ | ⟨herr, -⟩
  · rw [pickDownloadFiles, bind_of_eq_ok ht]
    cases hdfs : t.dfs (maxFiles + 1) holder root 0 (-1) with
    | ok r =>
      have hlt := hnum.size_lt_of_num_lt hdistinct fun e he =>
        hnum.num_lt_of_dfs F.hasNode_nil t.neg_one_lt_num_nil hdfs he
      exact absurd hlarge (Nat.not_le.2 hlt)
    | error fault =>
      rw [hnum.eq_treeRange_of_dfs F.hasNode_nil (Nat.succ_pos _) (by omega) hdfs]
      rfl
  · rw [pickDownloadFiles, herr]
    rfl

/-- A node of the forest is a prefix the loop visits. -/
theorem size_insertAll_eq (files : List Bytes) :
    (Forest.nil.insertAll ((files.map (List.splitOn sep)).map treePath)).size
      = (files.flatMap visitedPrefixes).dedup.length := by
  have hdistinct := Forest.distinct_insertAll ((files.map (List.splitOn sep)).map treePath)
  rw [← Forest.length_paths]
  refine ((List.perm_ext_iff_of_nodup hdistinct.nodup_paths (List.nodup_dedup _)).2 ?_).length_eq
  intro e
  rw [hdistinct.mem_paths, List.mem_dedup, List.mem_flatMap]
  constructor
  · rintro ⟨hne, hnode⟩
    obtain ⟨q, hq, he⟩ := (Forest.hasNode_insertAll_iff hne).1 hnode
    rw [List.map_map, List.mem_map] at hq
    obtain ⟨file, hfile, rfl⟩ := hq
    exact ⟨file, hfile, List.mem_filter.2 ⟨(List.mem_inits _ _).2 he, decide_eq_true hne⟩⟩
  · rintro ⟨file, hfile, he⟩
    obtain ⟨he, hne⟩ := List.mem_filter.1 he
    have hne : e ≠ [] := of_decide_eq_true hne
    refine ⟨hne, (Forest.hasNode_insertAll_iff hne).2 ⟨_, ?_, (List.mem_inits _ _).1 he⟩⟩
    rw [List.map_map]
    exact List.mem_map_of_mem hfile

/-- The rows there will be: the prefixes the loop visits. -/
def rowCount (files : List Bytes) : ℕ := (files.flatMap visitedPrefixes).dedup.length

/-- Split paths are plain, and not empty. -/
theorem plain_splitOn_files {files : List Bytes} :
    ∀ p ∈ files.map (List.splitOn sep), p ≠ [] ∧ Plain sep p := by
  intro p hp
  obtain ⟨file, -, rfl⟩ := List.mem_map.1 hp
  exact ⟨List.splitOn_ne_nil sep file, plain_splitOn sep file⟩

/-- The split paths, joined again, are the paths. -/
theorem joined_splitOn_files (files : List Bytes) :
    (files.map (List.splitOn sep)).map (joined sep) = files := by
  rw [List.map_map]
  exact (List.map_congr_left fun file _ => joined_splitOn sep file).trans (List.map_id files)

/-- Few enough prefixes have each a row. -/
theorem exists_pickDownloadFiles {files : List Bytes} (h : rowCount files < maxFiles) :
    ∃ r, pickDownloadFiles holder files = .ok r ∧ r.length = holder.length + rowCount files := by
  rw [rowCount, ← size_insertAll_eq] at h
  obtain ⟨r, hresized, hrows⟩ := exists_pickDownloadFiles_eq holder plain_splitOn_files h
  rw [joined_splitOn_files] at hrows
  refine ⟨_, hrows, ?_⟩
  rw [List.length_map, hresized.1, List.length_append, FileTree.length_fileRows, size_insertAll_eq,
    rowCount]

/-- Too many prefixes run out of `tree`. -/
theorem pickDownloadFiles_eq_treeRange {files : List Bytes} (h : maxFiles ≤ rowCount files) :
    pickDownloadFiles holder files = .error .treeRange := by
  rw [rowCount, ← size_insertAll_eq] at h
  have herr := pickDownloadFiles_eq_error holder plain_splitOn_files h
  rwa [joined_splitOn_files] at herr

/-- **The subscripts are in range exactly when the visited prefixes are fewer than `maxFiles`.** -/
theorem subscriptsInRange_iff (files : List Bytes) :
    SubscriptsInRange (pickDownloadFiles holder files) ↔
      (files.flatMap visitedPrefixes).dedup.length < maxFiles := by
  constructor
  · intro h
    by_contra hlarge
    exact h.1 (pickDownloadFiles_eq_treeRange holder (Nat.not_lt.1 hlarge))
  · intro hsize
    obtain ⟨r, hr, -⟩ := exists_pickDownloadFiles holder hsize
    rw [hr]
    exact ⟨nofun, nofun⟩

end Bounds

/-- The files of a torrent `T`, `00` to `98`: with `T` itself, a hundred prefixes. -/
def hundredPrefixes : List Bytes :=
  (List.range 99).map fun i =>
    Wire.text "T/" ++ [UInt8.ofNat (48 + i / 10), UInt8.ofNat (48 + i % 10)]

/-- The last of the files has the number 100. -/
theorem not_subscriptsInRange_hundredPrefixes :
    ¬ SubscriptsInRange (pickDownloadFiles [] hundredPrefixes) :=
  fun h => h.1 (pickDownloadFiles_eq_treeRange [] (by decide +kernel))

end TorrentX
