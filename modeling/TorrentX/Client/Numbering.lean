import TorrentX.Machinery.Run
import TorrentX.Client.FileTree
import TorrentX.Machinery.Joined
import TorrentX.Machinery.LeafOrder

/-!
# Client/Numbering — the numbered tree is the forest of the paths

A path is its components joined by `sep`; a node of the forest of the paths is a prefix of one of
them.  `Numbered t F` says that the maps of `t` hold the forest `F`: every node has a number, larger
than its parent's, and under each number the numbers of its children in the order they were first
seen.  One prefix keeps it (`Numbered.enter`), so a path inserts itself (`Numbered.addPath`) — as
the loop sees it, with all but the first component cut to `maxLength` (`treePath`).
-/

namespace TorrentX

open Wire Joined FilesPicker FileTree

/-- The components the loop over one path visits.  What follows the first component is cut to
`maxLength`, which may drop components and shorten the last one. -/
def treePath : List Bytes → List Bytes
  | [] => []
  | a :: rest => a :: cut maxLength rest

/-- A path that fits is visited whole. -/
theorem treePath_of_length_le {p : List Bytes} (h : (joined sep p.tail).length ≤ maxLength) :
    treePath p = p := by
  cases p with
  | nil => rfl
  | cons a rest => exact congrArg (a :: ·) (cut_of_length_le h)

/-- Cutting twice is cutting once. -/
theorem treePath_cut (l : List Bytes) : treePath (cut maxLength l) = cut maxLength l := by
  refine treePath_of_length_le ?_
  cases l with
  | nil => exact Nat.zero_le _
  | cons a rest =>
    rw [cut]
    split
    · exact Nat.zero_le _
    · rw [List.tail_cons, joined_cut]
      exact (List.length_take_le _ _).trans (by omega)

theorem treePath_take (l : List Bytes) (j : ℕ) : treePath (l.take j) = (treePath l).take j := by
  cases l with
  | nil => simp [treePath]
  | cons a l =>
    cases j with
    | zero => rfl
    | succ j => rw [List.take_succ_cons, treePath, treePath, cut_take, List.take_succ_cons]

/-- What is left after the first component of a visited prefix fits. -/
theorem length_tail_le_of_prefix {e l : List Bytes} (h : e <+: treePath l) :
    (joined sep e.tail).length ≤ maxLength := by
  rw [List.prefix_iff_eq_take.1 h, ← treePath_take]
  cases l.take e.length with
  | nil => exact Nat.zero_le _
  | cons a rest =>
    rw [treePath, List.tail_cons, joined_cut]
    exact List.length_take_le _ _

namespace FileTree

/-- The number of the node a path leads to. -/
def num (t : FileTree) (c : List Bytes) : ℕ := if c = [] then root else t.isInTree (joined sep c)

@[simp] theorem num_nil (t : FileTree) : t.num [] = root := if_pos rfl

theorem neg_one_lt_num_nil (t : FileTree) : (-1 : ℤ) < t.num [] := by
  rw [num_nil]
  decide

theorem num_of_ne_nil (t : FileTree) {c : List Bytes} (hc : c ≠ []) :
    t.num c = t.isInTree (joined sep c) := if_neg hc

theorem num_snoc (t : FileTree) (c : List Bytes) (a : Bytes) :
    t.num (c ++ [a]) = t.isInTree (joined sep (c ++ [a])) :=
  t.num_of_ne_nil (List.concat_ne_nil a c)

/-- The maps hold the forest.  Each node has a number of its own, below the counter; what is no node
has none, and its entry in `tree` is empty; a child comes after its parent. -/
structure Numbered (t : FileTree) (F : Forest Bytes) : Prop where
  plain : ∀ c, F.HasNode c → Plain sep c
  pos : ∀ c, c ≠ [] → F.HasNode c → 0 < t.num c
  lt : ∀ c, F.HasNode c → t.num c < t.currentNumber
  absent : ∀ c, c ≠ [] → Plain sep c → ¬ F.HasNode c → t.num c = 0
  name : ∀ c, c ≠ [] → F.HasNode c → t.numberToName (t.num c) = joined sep c
  children : ∀ c, F.HasNode c →
    t.tree (t.num c) = (F.childrenAt c).map fun a => t.num (c ++ [a])
  fresh : ∀ v, t.currentNumber ≤ v → t.tree v = []
  above : ∀ c a, F.HasNode (c ++ [a]) → t.num c < t.num (c ++ [a])
  count : t.currentNumber = F.size + 1

theorem numbered_empty : Numbered empty .nil where
  plain c hc := by
    cases c with
    | nil => exact fun a ha => absurd ha List.not_mem_nil
    | cons a c => exact absurd hc (Forest.not_hasNode_nil a c)
  pos c hne hc := by
    cases c with
    | nil => exact absurd rfl hne
    | cons a c => exact absurd hc (Forest.not_hasNode_nil a c)
  lt c _ := by
    rw [num]
    split <;> exact Nat.zero_lt_one
  absent c hne _ _ := num_of_ne_nil empty hne
  name c hne hc := by
    cases c with
    | nil => exact absurd rfl hne
    | cons a c => exact absurd hc (Forest.not_hasNode_nil a c)
  children c _ := by rw [Forest.childrenAt_of_nil]; rfl
  fresh _ _ := rfl
  above c a hc := by
    cases c with
    | nil => exact absurd hc (Forest.not_hasNode_nil a [])
    | cons b c => exact absurd hc (Forest.not_hasNode_nil b _)
  count := rfl

variable {t : FileTree} {F : Forest Bytes} {c d : List Bytes} {a : Bytes}

/-- Two nodes with one number are one. -/
theorem Numbered.num_injective (h : Numbered t F) (hc : F.HasNode c) (hd : F.HasNode d)
    (heq : t.num c = t.num d) : c = d := by
  rcases eq_or_ne c [] with rfl | hcne
  · rcases eq_or_ne d [] with rfl | hdne
    · rfl
    · exact absurd heq (h.pos d hdne hd).ne
  · rcases eq_or_ne d [] with rfl | hdne
    · exact absurd heq (h.pos c hcne hc).ne'
    · refine joined_injective (h.plain c hc) (h.plain d hd) hcne hdne ?_
      rw [← h.name c hcne hc, ← h.name d hdne hd, heq]

/-- Under a number are numbers below the counter. -/
theorem Numbered.lt_of_mem_tree (h : Numbered t F) (hc : F.HasNode c) :
    ∀ v ∈ t.tree (t.num c), v < t.currentNumber := by
  intro v hv
  rw [h.children c hc, List.mem_map] at hv
  obtain ⟨a, ha, rfl⟩ := hv
  exact h.lt _ ((F.hasNode_snoc c a).2 ⟨hc, ha⟩)

/-- The numbers of few nodes are subscripts of `tree`. -/
theorem Numbered.num_lt_maxFiles (h : Numbered t F) (hsize : F.size < maxFiles)
    (hc : F.HasNode c) : t.num c < maxFiles := by
  have hlt := h.lt c hc
  have hcount := h.count
  omega

/-! ## One prefix

The loop sees a prefix by its text, and asks the map whether the text has a number.  Two nodes could
share a text only if a component had a separator; the components are plain, so looking a prefix up
is asking whether the forest has the node. -/

/-- The tree after a new prefix under a parent. -/
def grown (t : FileTree) (c : List Bytes) (a : Bytes) : FileTree where
  isInTree := Function.update t.isInTree (joined sep (c ++ [a])) t.currentNumber
  numberToName := Function.update t.numberToName t.currentNumber (joined sep (c ++ [a]))
  tree := Function.update t.tree (t.num c)
    (OrderedSet.insert id t.currentNumber (t.tree (t.num c)))
  currentNumber := t.currentNumber + 1

/-- Of all plain texts only the new prefix changes its number. -/
theorem num_grown (t : FileTree) (hc : Plain sep (c ++ [a])) (hd : Plain sep d) :
    (t.grown c a).num d = if d = c ++ [a] then t.currentNumber else t.num d := by
  rcases eq_or_ne d [] with rfl | hne
  · rw [if_neg (List.concat_ne_nil a c).symm, num_nil, num_nil]
  rw [num_of_ne_nil _ hne, num_of_ne_nil _ hne]
  by_cases heq : d = c ++ [a]
  · rw [if_pos heq, heq]
    exact Function.update_self _ _ _
  · rw [if_neg heq]
    exact Function.update_of_ne
      (fun hj => heq (joined_injective hd hc hne (List.concat_ne_nil a c) hj)) _ _

/-- The new prefix gets the number of the counter. -/
theorem Numbered.num_grown_self (h : Numbered t F) (hc : F.HasNode c) (ha : sep ∉ a) :
    (t.grown c a).num (c ++ [a]) = t.currentNumber := by
  have hplain := (h.plain c hc).snoc ha
  rw [num_grown t hplain hplain, if_pos rfl]

/-- The nodes there are keep theirs. -/
theorem Numbered.num_grown_of_hasNode (h : Numbered t F) (hc : F.HasNode c) (ha : sep ∉ a)
    (hnew : ¬ F.HasNode (c ++ [a])) (hd : F.HasNode d) : (t.grown c a).num d = t.num d := by
  rw [num_grown t ((h.plain c hc).snoc ha) (h.plain d hd), if_neg (by rintro rfl; exact hnew hd)]

/-- Under the number of a node are those of its children, before and after. -/
theorem Numbered.tree_grown (h : Numbered t F) (hc : F.HasNode c) (ha : sep ∉ a)
    (hnew : ¬ F.HasNode (c ++ [a])) (hd : F.HasNode d) :
    (t.grown c a).tree (t.num d)
      = ((F.insert (c ++ [a])).childrenAt d).map fun b => (t.grown c a).num (d ++ [b]) := by
  have hmem : a ∉ F.childrenAt c := fun hmem => hnew ((F.hasNode_snoc c a).2 ⟨hc, hmem⟩)
  have hold : ∀ b ∈ F.childrenAt d, t.num (d ++ [b]) = (t.grown c a).num (d ++ [b]) := fun b hb =>
    (h.num_grown_of_hasNode hc ha hnew ((F.hasNode_snoc d b).2 ⟨hd, hb⟩)).symm
  rw [Forest.childrenAt_insert hc hmem]
  by_cases hdc : d = c
  · subst d
    rw [if_pos rfl, List.map_append, List.map_singleton, h.num_grown_self hc ha]
    refine (Function.update_self _ _ _).trans ?_
    rw [@OrderedSet.insert_of_forall_lt _ _ _ id _ _ (h.lt_of_mem_tree hc), h.children c hc]
    exact congrArg (· ++ [t.currentNumber]) (List.map_congr_left hold)
  · rw [if_neg hdc]
    refine (Function.update_of_ne (fun heq => hdc (h.num_injective hd hc heq)) _ _).trans ?_
    rw [h.children d hd]
    exact List.map_congr_left hold

/-- **A new prefix keeps the numbering**: its number is the largest, so it goes last among its
siblings and above its parent. -/
theorem Numbered.grown (h : Numbered t F) (hc : F.HasNode c) (ha : sep ∉ a)
    (hnew : ¬ F.HasNode (c ++ [a])) : Numbered (t.grown c a) (F.insert (c ++ [a])) := by
  have hplain := (h.plain c hc).snoc ha
  have hmem : a ∉ F.childrenAt c := fun hmem => hnew ((F.hasNode_snoc c a).2 ⟨hc, hmem⟩)
  have hnode : ∀ e, (F.insert (c ++ [a])).HasNode e ↔ F.HasNode e ∨ e = c ++ [a] :=
    fun e => Forest.hasNode_insert_snoc hc
  have hself := h.num_grown_self hc ha
  have hold : ∀ e, F.HasNode e → (t.grown c a).num e = t.num e :=
    fun e => h.num_grown_of_hasNode hc ha hnew
  constructor
  case plain =>
    intro e he
    rcases (hnode e).1 he with he | rfl
    · exact h.plain e he
    · exact hplain
  case pos =>
    intro e hne he
    rcases (hnode e).1 he with he | rfl
    · rw [hold e he]
      exact h.pos e hne he
    · rw [hself]
      exact (Nat.zero_le _).trans_lt (h.lt c hc)
  case lt =>
    intro e he
    rcases (hnode e).1 he with he | rfl
    · rw [hold e he]
      exact (h.lt e he).trans (Nat.lt_succ_self _)
    · rw [hself]
      exact Nat.lt_succ_self _
  case absent =>
    intro e hne hep he
    rw [hnode, not_or] at he
    rw [num_grown t hplain hep, if_neg he.2]
    exact h.absent e hne hep he.1
  case name =>
    intro e hne he
    rcases (hnode e).1 he with he | rfl
    · rw [hold e he]
      exact (Function.update_of_ne (h.lt e he).ne _ _).trans (h.name e hne he)
    · rw [hself]
      exact Function.update_self _ _ _
  case children =>
    intro e he
    rcases (hnode e).1 he with he | rfl
    · rw [hold e he]
      exact h.tree_grown hc ha hnew he
    · rw [hself, Forest.childrenAt_insert hc hmem, if_neg (by simp),
        Forest.childrenAt_of_not_hasNode hnew]
      exact (Function.update_of_ne (h.lt c hc).ne' _ _).trans (h.fresh _ le_rfl)
  case fresh =>
    intro v hv
    have hv : t.currentNumber < v := hv
    exact (Function.update_of_ne ((h.lt c hc).trans hv).ne' _ _).trans (h.fresh v hv.le)
  case above =>
    intro e b heb
    rcases (hnode _).1 heb with heb | heb
    · rw [hold _ heb, hold e (heb.of_prefix (List.prefix_append e [b]))]
      exact h.above e b heb
    · obtain ⟨rfl, rfl⟩ := List.append_singleton_inj.1 heb
      rw [hself, hold e hc]
      exact h.lt e hc
  case count =>
    rw [Forest.size_insert hc hmem, ← h.count]
    rfl

/-- A step of the numbering has made the forest `F` — or has left `tree`, which a forest of fewer
than `maxFiles` nodes never does. -/
def Builds (r : Except TreeFault FileTree) (F : Forest Bytes) : Prop :=
  (∃ t, r = .ok t ∧ Numbered t F) ∨ (r = .error .treeRange ∧ maxFiles ≤ F.size)

/-- The body of the `if` for one prefix inserts it. -/
theorem Numbered.enter (h : Numbered t F) (hc : F.HasNode c) (ha : sep ∉ a) :
    Builds (t.enter (t.num c) (joined sep (c ++ [a]))) (F.insert (c ++ [a])) := by
  by_cases hnode : F.HasNode (c ++ [a])
  · have hpos := h.pos _ (List.concat_ne_nil a c) hnode
    rw [num_snoc] at hpos
    refine .inl ⟨t, if_neg hpos.ne', ?_⟩
    rwa [Forest.insert_of_hasNode hnode]
  · have habsent := h.absent _ (List.concat_ne_nil a c) ((h.plain c hc).snoc ha) hnode
    rw [num_snoc] at habsent
    rw [FileTree.enter, if_pos habsent, FileTree.children]
    by_cases hnum : t.num c < maxFiles
    · refine .inl ⟨t.grown c a, ?_, h.grown hc ha hnode⟩
      rw [if_pos hnum]
      rfl
    · refine .inr ⟨?_, ?_⟩
      · rw [if_neg hnum]
        rfl
      · have hlt := h.lt c hc
        have hcount := h.count
        exact le_trans (by omega) (Forest.size_le_insert F _)

/-! ## One path

The loop keeps the text of the whole path, the part of it that is left, and the length it has read
so far.  What it has read is `lead sep c` for the node `c` it has reached, which is the form the
induction needs. -/

/-- **A path inserts itself.**  The induction is on the passes; what is left of the name is the
rest of the path, cut, and the parent is the node reached so far. -/
theorem Numbered.addPath {fullName post : Bytes} {passes : ℕ} {l : List Bytes}
    (h : Numbered t F) (hc : F.HasNode c) (hl : l ≠ []) (hplain : Plain sep l)
    (hpasses : l.length ≤ passes) (hfull : fullName = lead sep c ++ joined sep l ++ post) :
    Builds (t.addPath fullName passes (joined sep l) (lead sep c).length (t.num c))
      (F.insert (c ++ treePath l)) := by
  induction passes generalizing t F c l post with
  | zero => exact absurd (List.length_eq_zero_iff.1 (Nat.le_zero.1 hpasses)) hl
  | succ passes ih =>
    obtain ⟨a, rest, rfl⟩ := List.exists_cons_of_ne_nil hl
    obtain ⟨ha, hrest⟩ := hplain.of_cons
    have hstep : F.insert (c ++ treePath (a :: rest))
        = (F.insert (c ++ [a])).insert (c ++ [a] ++ cut maxLength rest) := by
      rw [Forest.insert_insert, List.append_assoc]
      rfl
    have hpart : fullName.take ((lead sep c).length + a.length) = joined sep (c ++ [a]) := by
      rw [hfull, take_lead]
    rcases eq_or_ne rest [] with rfl | hne
    · rw [FileTree.addPath, joined_singleton, findIdx?_plain ha, Option.getD_none, hpart]
      rcases h.enter hc ha with ⟨t', ht', hnum⟩ | ⟨herr, hlarge⟩
      · rw [ht']
        exact .inl ⟨t', rfl, hnum⟩
      · rw [herr]
        exact .inr ⟨rfl, hlarge⟩
    · have hfull' := hfull.trans (lead_append_cut c a hne maxLength post)
      have hc' : (F.insert (c ++ [a])).HasNode (c ++ [a]) :=
        (Forest.hasNode_insert _ _ _).2 (.inr (List.prefix_refl _))
      rw [FileTree.addPath, joined_cons a hne, findIdx?_append ha, Option.getD_some, hpart,
        ← joined_cons a hne, hstep]
      rcases h.enter hc ha with ⟨t', ht', hnum⟩ | ⟨herr, hlarge⟩
      · have hnext := ih hnum hc' (cut_ne_nil maxLength hne) (hrest.cut maxLength)
          ((length_cut_le _ _).trans (Nat.le_of_succ_le_succ hpasses)) hfull'
        rw [treePath_cut, num_snoc, length_lead_snoc, ← take_drop_joined_cons a hne] at hnext
        rw [ht']
        exact hnext
      · rw [herr]
        exact .inr ⟨rfl, hlarge.trans (Forest.size_le_insert _ _)⟩

/-! ## All the files -/

/-- One file after another, from any numbered tree. -/
theorem Numbered.addFiles {ps : List (List Bytes)} (h : Numbered t F)
    (hps : ∀ p ∈ ps, p ≠ [] ∧ Plain sep p) :
    Builds ((ps.map (joined sep)).foldlM
      (fun t file => t.addPath file (file.length + 1) file 0 root) t)
      (F.insertAll (ps.map treePath)) := by
  induction ps generalizing t F with
  | nil => exact .inl ⟨t, rfl, h⟩
  | cons p ps ih =>
    rw [List.forall_mem_cons] at hps
    have hfull : joined sep p = lead sep [] ++ joined sep p ++ [] := (List.append_nil _).symm
    have hpasses : p.length ≤ (joined sep p).length + 1 := length_le_length_joined p
    have hpath := h.addPath F.hasNode_nil hps.1.1 hps.1.2 hpasses hfull
    rw [num_nil, lead_nil, List.length_nil] at hpath
    rw [List.map_cons, List.foldlM_cons]
    rcases hpath with ⟨t', ht', hnum⟩ | ⟨herr, hlarge⟩
    · rw [bind_of_eq_ok ht']
      exact ih hnum hps.2
    · refine .inr ⟨?_, hlarge.trans (Forest.size_le_insertAll _ (ps.map treePath))⟩
      exact congrArg (· >>= _) herr

/-- The numbered tree of a list of files is the forest of their paths, or `tree` is too small. -/
theorem builds_addFiles {ps : List (List Bytes)} (hps : ∀ p ∈ ps, p ≠ [] ∧ Plain sep p) :
    Builds (FileTree.addFiles (ps.map (joined sep))) (Forest.nil.insertAll (ps.map treePath)) :=
  numbered_empty.addFiles hps

/-- **The numbered tree of a list of files is the forest of their paths.** -/
theorem numbered_addFiles {ps : List (List Bytes)} (hps : ∀ p ∈ ps, p ≠ [] ∧ Plain sep p)
    (hsize : ((Forest.nil).insertAll (ps.map treePath)).size < maxFiles) :
    ∃ t, FileTree.addFiles (ps.map (joined sep)) = .ok t ∧
      Numbered t (Forest.nil.insertAll (ps.map treePath)) :=
  (builds_addFiles hps).resolve_right fun ⟨_, hlarge⟩ => absurd hsize (Nat.not_lt.2 hlarge)

end FileTree

end TorrentX
