import TorrentX.Machinery.Preorder
import TorrentX.Client.Priorities

/-!
# Client/RowOrder — one row for each prefix of the paths, in preorder

Where no path is cut, the rows of a list of files are the prefixes of its paths: each once, a
directory before what is in it, siblings in the order in which the list first shows them
(`pickDownloadFiles_inPreorder`).  The levels alone tell what is in a directory — the rows after its
own, as long as their level is larger.
-/

namespace TorrentX

open Wire Joined FilesPicker Outline

namespace FileList

/-- The row of a prefix: its last component, as deep as it is long, a leaf when it is a file. -/
def row (L : FileList) (e : List Bytes) : FileNode where
  name := e.getLastD []
  level := e.length
  isMarked := false
  isLeaf := decide (e ∈ L.components)

/-- The rows stand for the prefixes `P` of the paths, in preorder. -/
structure InPreorder (L : FileList) (holder : List FileNode) (P : List (List Bytes)) : Prop where
  rows : holder = P.map L.row
  nodup : P.Nodup
  mem : ∀ e, e ∈ P ↔ e ≠ [] ∧ ∃ p ∈ L.files, e <+: p.components
  /-- A prefix comes before what goes on from it, and of two siblings the one first seen. -/
  ordered : P.Pairwise (Forest.Precedes fun d d' =>
    Forest.firstSeen L.components d < Forest.firstSeen L.components d')
  /-- What goes on from a prefix has the rows of larger level right after it. -/
  below : ∀ (i j : ℕ) (e e' : List Bytes), P[i]? = some e → P[j]? = some e' →
    (e <+: e' ∧ e ≠ e' ↔ Heads (FilesPicker.level holder) i j)

end FileList

/-- What follows the first component is no longer than the path. -/
theorem TorrentFile.fits_of_length_le {p : TorrentFile} (h : p.path.length ≤ maxLength) :
    p.Fits := by
  rw [TorrentFile.Fits]
  rw [TorrentFile.path] at h
  cases hp : p.components with
  | nil => exact Nat.zero_le _
  | cons a rest =>
    rcases eq_or_ne rest [] with rfl | hrest
    · exact Nat.zero_le _
    · rw [hp, joined_cons a hrest, List.length_append, List.length_cons] at h
      exact (Nat.le_add_left _ _).trans ((Nat.add_le_add_left (Nat.le_succ _) _).trans h)

section RowOrder

variable (L : FileList)

/-- The prefixes of the paths are those of their components. -/
theorem FileList.exists_components_iff (e : List Bytes) :
    (∃ c ∈ L.components, e <+: c) ↔ ∃ p ∈ L.files, e <+: p.components := by
  rw [FileList.components]
  simp

/-- The rows are read off the paths of the forest. -/
theorem FileList.holder_eq_map_row (hfits : ∀ p ∈ L.files, p.Fits) :
    L.holder = L.forest.paths.map L.row := by
  rw [FileList.holder, L.distinct_forest.listing_paths, List.map_map]
  refine List.map_congr_left fun e he => ?_
  obtain ⟨hne, hnode⟩ := (L.distinct_forest.mem_paths e).1 he
  have hleaf : (L.forest.kidsAt e).isNil = decide (e ∈ L.components) := by
    rw [L.forest_of_fits hfits] at hnode ⊢
    rw [Bool.eq_iff_iff, decide_eq_true_iff]
    exact Forest.isNil_kidsAt_insertAll L.prefixFree hne
      ((Forest.hasNode_insertAll_iff hne).1 hnode)
  rw [Function.comp_apply, FileNode.ofRow, hleaf, Nat.add_sub_cancel_left]
  rfl

/-- **The file list is the prefix tree in preorder**, without loss or duplication. -/
theorem pickDownloadFiles_inPreorder (hlength : ∀ p ∈ L.files, p.path.length ≤ maxLength) :
    ∃ holder P, pickDownloadFiles [] L.paths = .ok holder ∧ L.InPreorder holder P := by
  have hfits : ∀ p ∈ L.files, p.Fits := fun p hp => p.fits_of_length_le (hlength p hp)
  have hforest := L.forest_of_fits hfits
  refine ⟨L.holder, L.forest.paths, L.pickDownloadFiles_paths, ?_⟩
  constructor
  case rows => exact L.holder_eq_map_row hfits
  case nodup => exact L.distinct_forest.nodup_paths
  case mem =>
    intro e
    rw [L.distinct_forest.mem_paths, hforest]
    refine and_congr_right fun hne => ?_
    rw [Forest.hasNode_insertAll_iff hne, L.exists_components_iff]
  case ordered =>
    rw [hforest]
    exact Forest.pairwise_paths_insertAll L.components
  case below =>
    intro i j e e' hi hj
    have hlists : Lists L.forest 1 L.holder := lists_ofRow L.forest 1
    have hlt : j < L.holder.length := hlists.length_eq ▸ Forest.lt_size_of_getElem?_paths hj
    rw [hlists.heads_iff hlt, L.distinct_forest.below_iff_prefix hi hj]

end RowOrder

/-- The two parts of the directory come together, before the file listed between them. -/
theorem pickDownloadFiles_inPreorder_splitDirectory : ∃ P,
    splitDirectory.InPreorder
      [⟨text "T", 1, false, false, 0⟩, ⟨text "a", 2, false, false, 0⟩,
        ⟨text "x", 3, false, true, 0⟩, ⟨text "y", 3, false, true, 0⟩,
        ⟨text "b", 2, false, true, 0⟩] P := by
  obtain ⟨holder, P, hholder, h⟩ := pickDownloadFiles_inPreorder splitDirectory (by decide)
  have hrows : pickDownloadFiles [] splitDirectory.paths
      = .ok [⟨text "T", 1, false, false, 0⟩, ⟨text "a", 2, false, false, 0⟩,
        ⟨text "x", 3, false, true, 0⟩, ⟨text "y", 3, false, true, 0⟩,
        ⟨text "b", 2, false, true, 0⟩] := rfl
  obtain rfl := Except.ok.inj (hrows.symm.trans hholder)
  exact ⟨P, h⟩

end TorrentX
