import TorrentX.Client.Walk

/-!
# Client/Priorities — are the selected files the downloaded ones?

The rows are in preorder, so `createDownload` counts the leaves one directory after another, and
uses the count as the index of a file.  It is the index of the file the row stands for, for every
file and all marks, exactly when the files are listed contiguously too — and no path is cut
(`selectedAreDownloaded_iff`).  Then what a selection downloads is what was last marked
(`FileList.downloaded_iff_lastMarks`).
-/

namespace TorrentX

open Wire Joined FilesPicker

/-! ## Lists of files

A list of files is what libtorrent has checked when it reports a torrent.  The order of the files is
free: nothing in the format asks for the files of a directory to be listed together. -/

/-- A file of a torrent: the non-empty components of its path. -/
structure TorrentFile where
  components : List Bytes
  components_ne_nil : components ≠ []
  nonempty : ∀ a ∈ components, a ≠ []
  plain : Plain sep components

namespace TorrentFile

/-- The path as libtorrent reports it. -/
def path (p : TorrentFile) : Bytes := joined sep p.components

/-- The path and those of the directories above it. -/
def prefixes (p : TorrentFile) : List (List Bytes) := p.components.inits.filter (· ≠ [])

/-- No part of the path is cut by the loop. -/
def Fits (p : TorrentFile) : Prop := (joined sep p.components.tail).length ≤ maxLength

end TorrentFile

/-- The files of a torrent: distinct, none a directory above another, few enough prefixes for
`tree`. -/
structure FileList where
  files : List TorrentFile
  prefixFree : Forest.PrefixFree (files.map TorrentFile.components)
  prefixes_le : (files.flatMap TorrentFile.prefixes).dedup.length ≤ 99

namespace FileList

variable (L : FileList)

def paths : List Bytes := L.files.map TorrentFile.path

def components : List (List Bytes) := L.files.map TorrentFile.components

/-- The forest of the paths, as the loop sees them. -/
def forest : Forest Bytes := Forest.nil.insertAll (L.components.map treePath)

/-- The rows `pickDownloadFiles` makes. -/
def holder : List FileNode := (L.forest.listing 1).map FileNode.ofRow

end FileList

/-- The components of the path of each row: its name, below the names of the rows above it. -/
def rowPaths : List Bytes → List FileNode → List (List Bytes)
  | _, [] => []
  | above, node :: holder =>
    (above.take (node.level.toNat - 1) ++ [node.name])
      :: rowPaths (above.take (node.level.toNat - 1) ++ [node.name]) holder

/-- Row `r` stands for a file. -/
def StandsFor (holder : List FileNode) (r : ℕ) (p : TorrentFile) : Prop :=
  (rowPaths [] holder)[r]? = some p.components

instance (holder : List FileNode) (r : ℕ) (p : TorrentFile) : Decidable (StandsFor holder r p) :=
  inferInstanceAs (Decidable ((rowPaths [] holder)[r]? = some p.components))

/-- **The selected files are the downloaded files**: each file has a row, and whatever the marks
are, the priority set for its index is the mark of that row. -/
def SelectedAreDownloaded (L : FileList) : Prop :=
  ∃ holder, pickDownloadFiles [] L.paths = .ok holder ∧
    ∀ i p, L.files[i]? = some p → ∃ r, StandsFor holder r p ∧
      ∀ m, createDownload (withMarks holder m) i = some (.ofMark (m r))

/-! ## The rows are made -/

section Rows

variable (L : FileList)

/-- A node lies on the path of a file. -/
theorem FileList.exists_of_hasNode {e : List Bytes} (hne : e ≠ []) (h : L.forest.HasNode e) :
    ∃ p ∈ L.files, e <+: treePath p.components := by
  obtain ⟨q, hq, he⟩ := (Forest.hasNode_insertAll_iff hne).1 h
  obtain ⟨l, hl, rfl⟩ := List.mem_map.1 hq
  obtain ⟨p, hp, rfl⟩ := List.mem_map.1 hl
  exact ⟨p, hp, he⟩

/-- Where no path is cut, the loop sees the paths. -/
theorem FileList.map_treePath_of_fits (hfits : ∀ p ∈ L.files, p.Fits) :
    L.components.map treePath = L.components := by
  have htree : L.components.map treePath = L.components.map id := by
    rw [FileList.components, List.map_map, List.map_map]
    exact List.map_congr_left fun p hp => treePath_of_length_le (hfits p hp)
  rw [htree, List.map_id]

theorem FileList.forest_of_fits (hfits : ∀ p ∈ L.files, p.Fits) :
    L.forest = Forest.nil.insertAll L.components := by
  rw [FileList.forest, L.map_treePath_of_fits hfits]

theorem FileList.distinct_forest : L.forest.Distinct := Forest.distinct_insertAll _

/-- **There is a number for every node**: each is a prefix of a path, cut. -/
theorem FileList.size_forest_lt : L.forest.size < maxFiles := by
  have hsub : L.forest.paths ⊆ (L.files.flatMap TorrentFile.prefixes).dedup.map treePath := by
    intro e he
    obtain ⟨hne, hnode⟩ := (L.distinct_forest.mem_paths e).1 he
    obtain ⟨p, hp, hpre⟩ := L.exists_of_hasNode hne hnode
    have heq : treePath (p.components.take e.length) = e := by
      rw [treePath_take]
      exact (List.prefix_iff_eq_take.1 hpre).symm
    refine List.mem_map.2 ⟨p.components.take e.length, ?_, heq⟩
    refine List.mem_dedup.2 (List.mem_flatMap.2 ⟨p, hp, ?_⟩)
    refine List.mem_filter.2 ⟨(List.mem_inits _ _).2 (List.take_prefix _ _), ?_⟩
    refine decide_eq_true fun htake => hne ?_
    rw [← heq, htake]
    rfl
  have hle := (L.distinct_forest.nodup_paths.subperm hsub).length_le
  rw [Forest.length_paths, List.length_map] at hle
  have := L.prefixes_le
  unfold maxFiles
  omega

theorem FileList.plain_components : ∀ p ∈ L.components, p ≠ [] ∧ Plain sep p := by
  intro p hp
  obtain ⟨q, -, rfl⟩ := List.mem_map.1 hp
  exact ⟨q.components_ne_nil, q.plain⟩

theorem FileList.paths_eq_map : L.paths = L.components.map (joined sep) := by
  rw [FileList.components, List.map_map]
  rfl

/-- **The rows are made.** -/
theorem FileList.pickDownloadFiles_paths : pickDownloadFiles [] L.paths = .ok L.holder := by
  rw [L.paths_eq_map]
  exact pickDownloadFiles_eq L.plain_components L.size_forest_lt

end Rows

/-! ## The rows stand for the nodes -/

/-- Going through the rows of a listing spells the paths of its nodes. -/
theorem rowPaths_listing (S : Forest Bytes) {c above : List Bytes}
    (h : above.take c.length = c) :
    ∃ above', above'.take c.length = c ∧ ∀ rest,
      rowPaths above ((S.listing (c.length + 1)).map FileNode.ofRow ++ rest)
        = S.paths.map (c ++ ·) ++ rowPaths above' rest := by
  induction S generalizing c above with
  | nil => exact ⟨above, h, fun _ => rfl⟩
  | cons a kids sibs ihk ihs =>
    have hlen : (c ++ [a]).length = c.length + 1 := by simp
    have hkids := @ihk (c ++ [a]) (c ++ [a]) (List.take_length ..)
    rw [hlen] at hkids
    obtain ⟨above₁, h₁, hrows₁⟩ := hkids
    have htake : above₁.take c.length = c := by
      have := congrArg (List.take c.length) h₁
      rwa [List.take_take, Nat.min_eq_left (Nat.le_succ _), List.take_left] at this
    obtain ⟨above₂, h₂, hrows₂⟩ := ihs htake
    refine ⟨above₂, h₂, fun rest => ?_⟩
    have hroot : above.take ((FileNode.ofRow ⟨a, c.length + 1, kids.isNil⟩).level.toNat - 1)
        ++ [(FileNode.ofRow ⟨a, c.length + 1, kids.isNil⟩).name] = c ++ [a] := by
      change above.take (((c.length + 1 : ℕ) : ℤ).toNat - 1) ++ [a] = c ++ [a]
      rw [Int.toNat_natCast, Nat.add_sub_cancel, h]
    rw [Forest.listing, List.map_cons, List.map_append, List.cons_append, List.append_assoc,
      rowPaths, hroot, hrows₁, hrows₂, Forest.paths, List.map_cons, List.map_append, List.map_map]
    simp [Function.comp_def]

/-- A row stands for the file whose path its node has. -/
theorem FileList.standsFor_iff (L : FileList) {r : ℕ} {p : TorrentFile} :
    StandsFor L.holder r p ↔ L.forest.paths[r]? = some p.components := by
  obtain ⟨above, -, h⟩ := @rowPaths_listing L.forest [] [] rfl
  have hrows := h []
  simp only [List.append_nil, List.nil_append, List.length_nil, Nat.zero_add, List.map_id',
    rowPaths] at hrows
  rw [StandsFor, FileList.holder, hrows]

/-! ## The priorities are the marks of the leaves

`createDownload` goes through the rows and counts those that are leaves.  The count is used as the
index of a file, so the `i`-th leaf row decides over the `i`-th file. -/

/-- The loop leaves the indices below its count. -/
theorem setPriorities_of_lt {holder : List FileNode} {priority : ℕ → Option DownloadPriority}
    {k i : ℕ} (h : i < k) : setPriorities k holder priority i = priority i := by
  induction holder generalizing k priority with
  | nil => rfl
  | cons node holder ih =>
    rw [setPriorities]
    split
    · rw [ih (h.trans (Nat.lt_succ_self k)), Function.update_of_ne h.ne]
    · exact ih h

/-- From a count on, the next indices get the marks of the next leaves. -/
theorem setPriorities_eq (holder : List FileNode) (priority : ℕ → Option DownloadPriority)
    (k i : ℕ) : setPriorities k holder priority (k + i)
      = ((holder.filter FileNode.isLeaf)[i]?.map fun node => .ofMark node.isMarked).or
          (priority (k + i)) := by
  induction holder generalizing k i priority with
  | nil => rfl
  | cons node holder ih =>
    rw [setPriorities, List.filter_cons]
    split
    · rcases i with _ | i
      · refine (setPriorities_of_lt (Nat.lt_succ_self k)).trans ?_
        simp
      · rw [show k + (i + 1) = k + 1 + i by omega, ih, List.getElem?_cons_succ,
          Function.update_of_ne (by omega)]
    · exact ih priority k i

/-- The indices of the leaf rows. -/
def leafRows (holder : List FileNode) : List ℕ :=
  (holder.zipIdx.filter fun x => x.1.isLeaf).map Prod.snd

/-- **`createDownload` gives index `i` the mark of the `i`-th leaf row.** -/
theorem createDownload_withMarks (holder : List FileNode) (m : ℕ → Bool) (i : ℕ) :
    createDownload (withMarks holder m) i
      = (leafRows holder)[i]?.map fun r => .ofMark (m r) := by
  have h := setPriorities_eq (withMarks holder m) (fun _ => none) 0 i
  rw [Nat.zero_add, Option.or_none] at h
  rw [createDownload, h, leafRows, withMarks, List.mapIdx_eq_zipIdx_map, List.filter_map,
    List.getElem?_map, List.getElem?_map, Option.map_map, Option.map_map]
  rfl

section Leaves

variable (L : FileList)

theorem FileList.map_leafRows :
    (leafRows L.holder).map (L.forest.paths[·]?) = L.forest.leafPaths.map some := by
  have h := @Forest.map_filter_isLeaf_listing _ _ L.forest 1 0 id (L.forest.paths[·]?)
    fun j _ => by rw [Nat.zero_add, Option.map_id, id]
  rw [leafRows, FileList.holder, List.zipIdx_map, List.filter_map, List.map_map, List.map_map]
  exact h

/-- The `i`-th leaf row stands for the `i`-th leaf. -/
theorem FileList.getElem?_leafPaths (i : ℕ) (e : List Bytes) :
    L.forest.leafPaths[i]? = some e ↔
      ∃ r, (leafRows L.holder)[i]? = some r ∧ L.forest.paths[r]? = some e := by
  have h := congrArg (·[i]?) L.map_leafRows
  simp only [List.getElem?_map] at h
  constructor
  · intro he
    rw [he] at h
    exact Option.map_eq_some_iff.1 h
  · rintro ⟨r, hr, he⟩
    rw [hr, Option.map_some, he] at h
    obtain ⟨e', he', heq⟩ := Option.map_eq_some_iff.1 h.symm
    rw [he', heq]

/-- The index of a file gets the mark of its row exactly when the file is the leaf of that
number. -/
theorem FileList.selected_iff (i : ℕ) (p : TorrentFile) :
    (∃ r, StandsFor L.holder r p ∧
      ∀ m, createDownload (withMarks L.holder m) i = some (.ofMark (m r)))
      ↔ L.forest.leafPaths[i]? = some p.components := by
  rw [L.getElem?_leafPaths]
  refine exists_congr fun r => ?_
  rw [L.standsFor_iff, and_comm]
  refine and_congr_left fun _ => ?_
  constructor
  · intro h
    have hr := h fun k => decide (k = r)
    rw [createDownload_withMarks, Option.map_eq_some_iff] at hr
    obtain ⟨k, hk, heq⟩ := hr
    by_cases hkr : k = r
    · rw [← hkr, hk]
    · exact absurd heq (by simp [hkr, DownloadPriority.ofMark])
  · intro h m
    rw [createDownload_withMarks, h]
    rfl

end Leaves

/-! ## When the selected files are the downloaded ones -/

section InOrder

variable (L : FileList)

/-- The leaves begin with the files, in order. -/
def FileList.InOrder : Prop :=
  ∀ (i : ℕ) (p : TorrentFile), L.files[i]? = some p → L.forest.leafPaths[i]? = some p.components

variable {L}

/-- A file that is a leaf has a path that fits. -/
theorem FileList.InOrder.fits (h : L.InOrder) : ∀ p ∈ L.files, p.Fits := by
  intro p hp
  obtain ⟨i, hi⟩ := List.mem_iff_getElem?.1 hp
  have hmem := Forest.mem_paths_of_mem_leafPaths (List.mem_of_getElem? (h i p hi))
  obtain ⟨hne, hnode⟩ := (L.distinct_forest.mem_paths _).1 hmem
  obtain ⟨q, -, hq⟩ := L.exists_of_hasNode hne hnode
  exact length_tail_le_of_prefix hq

/-- The leaves of a forest are contiguous, and the files with them. -/
theorem FileList.InOrder.contiguous (h : L.InOrder) : Forest.Contiguous L.components := by
  have hprefix : L.components <+: L.forest.leafPaths := by
    rw [List.prefix_iff_getElem?]
    intro i hi
    have hi' : i < L.files.length := by simpa [FileList.components] using hi
    rw [h i L.files[i] (List.getElem?_eq_getElem hi')]
    simp [FileList.components]
  exact L.distinct_forest.contiguous_leafPaths.sublist hprefix.sublist

/-- Contiguous files that fit are the leaves. -/
theorem FileList.inOrder_of_contiguous (hfits : ∀ p ∈ L.files, p.Fits)
    (hcont : Forest.Contiguous L.components) : L.InOrder := by
  intro i p hp
  have hne : ∀ q ∈ L.components, q ≠ [] := fun q hq => (L.plain_components q hq).1
  rw [L.forest_of_fits hfits, (Forest.leafPaths_insertAll_iff hne L.prefixFree).2 hcont,
    FileList.components, List.getElem?_map, hp]
  rfl

end InOrder

/-- **The selected files are the downloaded files exactly when the files of every directory are
listed together and no path is cut.** -/
theorem selectedAreDownloaded_iff (L : FileList) :
    SelectedAreDownloaded L ↔ (∀ p ∈ L.files, p.Fits) ∧ Forest.Contiguous L.components := by
  rw [SelectedAreDownloaded, L.pickDownloadFiles_paths]
  constructor
  · rintro ⟨holder, hholder, h⟩
    obtain rfl := Except.ok.inj hholder
    have horder : L.InOrder := fun i p hp => (L.selected_iff i p).1 (h i p hp)
    exact ⟨horder.fits, horder.contiguous⟩
  · rintro ⟨hfits, hcont⟩
    have horder := FileList.inOrder_of_contiguous hfits hcont
    exact ⟨L.holder, rfl, fun i p hp => (L.selected_iff i p).2 (horder i p hp)⟩

/-! ## A directory listed in two parts -/

/-- In a torrent `T`, the file `a/x`, the file `b` beside the directory, and the file `a/y`. -/
def splitDirectory : FileList where
  files :=
    [⟨[text "T", text "a", text "x"], by decide, by decide, by unfold Plain; decide⟩,
      ⟨[text "T", text "b"], by decide, by decide, by unfold Plain; decide⟩,
      ⟨[text "T", text "a", text "y"], by decide, by decide, by unfold Plain; decide⟩]
  prefixFree := by
    unfold Forest.PrefixFree
    decide
  prefixes_le := by decide

/-- The row of `b` comes last, so its mark becomes the priority of `a/y`. -/
theorem not_selectedAreDownloaded_splitDirectory : ¬ SelectedAreDownloaded splitDirectory := by
  rintro ⟨holder, hholder, h⟩
  have hrows : pickDownloadFiles [] splitDirectory.paths
      = .ok [⟨text "T", 1, false, false, 0⟩, ⟨text "a", 2, false, false, 0⟩,
        ⟨text "x", 3, false, true, 0⟩, ⟨text "y", 3, false, true, 0⟩,
        ⟨text "b", 2, false, true, 0⟩] := rfl
  obtain rfl := Except.ok.inj (hrows.symm.trans hholder)
  obtain ⟨r, hr, hpriority⟩ := h 1 _ rfl
  have hcount := hpriority fun k => decide (k = 4)
  rcases r with _ | _ | _ | _ | _ | r
  · exact absurd hr (by decide)
  · exact absurd hr (by decide)
  · exact absurd hr (by decide)
  · exact absurd hr (by decide)
  · exact absurd hcount (by decide)
  · exact absurd hr (by simp [StandsFor, rowPaths])

/-! ## Selecting, then downloading -/

/-- A row `createDownload` counts stands at a leaf of the forest. -/
theorem FileList.isLeaf_of_mem_leafRows (L : FileList) {r : ℕ} (h : r ∈ leafRows L.holder) :
    L.forest.IsLeaf r := by
  obtain ⟨⟨node, r⟩, hmem, rfl⟩ := List.mem_map.1 h
  obtain ⟨hzip, hleaf⟩ := List.mem_filter.1 hmem
  have hget := List.mem_zipIdx_iff_getElem?.1 hzip
  rw [FileList.holder, List.getElem?_map, Option.map_eq_some_iff] at hget
  obtain ⟨row, hrow, rfl⟩ := hget
  rw [L.forest.isLeaf_iff_listing 1, hrow]
  exact congrArg some hleaf

/-- **What a selection downloads**: with the files of every directory listed together, each file has
a row, and it is downloaded exactly when the last call at that row or above it was a marking one. -/
theorem FileList.downloaded_iff_lastMarks {L : FileList} (hfits : ∀ p ∈ L.files, p.Fits)
    (hcont : Forest.Contiguous L.components) {calls : List SetMark}
    (hrange : ∀ c ∈ calls, c.index < L.holder.length) {i : ℕ} {p : TorrentFile}
    (hp : L.files[i]? = some p) :
    ∃ r, StandsFor L.holder r p ∧ (createDownload (setMarks L.holder calls) i = some .default ↔
      LastMarks (fun k => k = r ∨ L.forest.Below k r) calls) := by
  have hlists := lists_ofRow L.forest 1
  obtain ⟨r, hr, hpath⟩ := (L.getElem?_leafPaths i p.components).1
    (FileList.inOrder_of_contiguous hfits hcont i p hp)
  obtain ⟨m, hm, hreflects⟩ := reflects_of_calls hrange
  rw [FileList.holder, ← hlists.eq_withMarks] at hm
  have hleaf := L.isLeaf_of_mem_leafRows (List.mem_of_getElem? hr)
  refine ⟨r, L.standsFor_iff.2 hpath, ?_⟩
  rw [← hlists.mark_of_isLeaf hreflects hleaf, FileList.holder, hm, createDownload_withMarks,
    ← FileList.holder, hr, Option.map_some]
  cases m r <;> simp [DownloadPriority.ofMark]

end TorrentX
