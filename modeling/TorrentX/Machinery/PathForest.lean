import TorrentX.Machinery.Forest

/-!
# Machinery/PathForest — the forest of a list of paths

Inserting a path into a forest follows the nodes it shares and adds the rest as a new branch after
its siblings, so siblings stand in the order of their first appearance.  A forest is described by
its nodes (`HasNode`, the paths that lead somewhere) and the children of each (`childrenAt`), and
`childrenAt_insert` says what inserting one more node does to them.

The leaves of the forest of a list of paths are the paths again, in preorder.  That is the order of
the list exactly when the list is contiguous: the paths below any one node are consecutive
(`leafPaths_insertAll_iff`).
-/

namespace Forest

variable {α : Type*} [DecidableEq α]

/-! ## Insertion

A path is followed from root to child as long as there are nodes for it.  Where they end, what is
left of it becomes a branch behind the siblings that are there. -/

/-- The forest of one path. -/
def chain : List α → Forest α
  | [] => nil
  | a :: p => cons a (chain p) nil

/-- The forest with a path added. -/
def insert : Forest α → List α → Forest α
  | F, [] => F
  | nil, a :: p => chain (a :: p)
  | cons b kids sibs, a :: p =>
    if a = b then cons b (kids.insert p) sibs else cons b kids (sibs.insert (a :: p))

/-- The forest of a list of paths. -/
def insertAll (F : Forest α) (ps : List (List α)) : Forest α := ps.foldl insert F

/-- The labels of the roots. -/
def roots : Forest α → List α
  | nil => []
  | cons a _ sibs => a :: sibs.roots

/-- A path leads to a node, or is empty. -/
def HasNode : Forest α → List α → Prop
  | _, [] => True
  | nil, _ :: _ => False
  | cons b kids sibs, a :: p => if a = b then kids.HasNode p else sibs.HasNode (a :: p)

/-- The labels right below the node a path leads to. -/
def childrenAt : Forest α → List α → List α
  | F, [] => F.roots
  | nil, _ :: _ => []
  | cons b kids sibs, a :: p => if a = b then kids.childrenAt p else sibs.childrenAt (a :: p)

/-- No two siblings have one label. -/
def Distinct : Forest α → Prop
  | nil => True
  | cons a kids sibs => a ∉ sibs.roots ∧ kids.Distinct ∧ sibs.Distinct

section Equations

variable (F kids sibs : Forest α) (a b : α) (p : List α)

@[simp] theorem insert_nil : F.insert [] = F := by cases F <;> rfl

@[simp] theorem insert_cons_self :
    (cons a kids sibs).insert (a :: p) = cons a (kids.insert p) sibs := if_pos rfl

theorem insert_cons_of_ne {a b : α} (h : a ≠ b) :
    (cons b kids sibs).insert (a :: p) = cons b kids (sibs.insert (a :: p)) := if_neg h

@[simp] theorem hasNode_nil : F.HasNode [] := by cases F <;> trivial

@[simp] theorem not_hasNode_nil : ¬ (nil : Forest α).HasNode (a :: p) := id

@[simp] theorem hasNode_cons_self :
    (cons a kids sibs).HasNode (a :: p) ↔ kids.HasNode p := by rw [HasNode, if_pos rfl]

theorem hasNode_cons_of_ne {a b : α} (h : a ≠ b) :
    (cons b kids sibs).HasNode (a :: p) ↔ sibs.HasNode (a :: p) := by rw [HasNode, if_neg h]

@[simp] theorem childrenAt_nil : F.childrenAt [] = F.roots := by cases F <;> rfl

@[simp] theorem childrenAt_of_nil : (nil : Forest α).childrenAt p = [] := by cases p <;> rfl

@[simp] theorem childrenAt_cons_self :
    (cons a kids sibs).childrenAt (a :: p) = kids.childrenAt p := if_pos rfl

theorem childrenAt_cons_of_ne {a b : α} (h : a ≠ b) :
    (cons b kids sibs).childrenAt (a :: p) = sibs.childrenAt (a :: p) := if_neg h

end Equations

/-! ## Nodes

Which nodes a forest has does not depend on the order in which paths were inserted: they are the
prefixes of the paths.  Only the order of siblings does. -/

/-- The nodes of a branch are the prefixes of its path. -/
theorem hasNode_chain (p e : List α) : (chain p).HasNode e ↔ e <+: p := by
  induction p generalizing e with
  | nil =>
    cases e with
    | nil => simp
    | cons x e => simp [chain]
  | cons a p ih =>
    cases e with
    | nil => simp
    | cons x e =>
      rw [chain, List.cons_prefix_cons]
      by_cases hx : x = a
      · subst hx
        rw [hasNode_cons_self, ih, eq_self, true_and]
      · rw [hasNode_cons_of_ne _ _ _ hx]
        simp [hx]

/-- **Inserting a path adds the nodes on it.** -/
theorem hasNode_insert (F : Forest α) (p e : List α) :
    (F.insert p).HasNode e ↔ F.HasNode e ∨ e <+: p := by
  induction F generalizing p e with
  | nil =>
    cases p with
    | nil => cases e <;> simp
    | cons a p =>
      rw [insert, hasNode_chain]
      cases e <;> simp
  | cons b kids sibs ihk ihs =>
    cases p with
    | nil => cases e <;> simp
    | cons a p =>
      cases e with
      | nil => simp
      | cons x e =>
        rw [List.cons_prefix_cons]
        by_cases ha : a = b
        · subst ha
          rw [insert_cons_self]
          by_cases hx : x = a
          · subst hx
            simp [ihk]
          · simp [hasNode_cons_of_ne _ _ _ hx, hx]
        · rw [insert_cons_of_ne _ _ _ ha]
          by_cases hx : x = b
          · subst hx
            simp [Ne.symm ha]
          · simp [hasNode_cons_of_ne _ _ _ hx, ihs, List.cons_prefix_cons]

/-- Inserting paths adds the nodes on any of them. -/
theorem hasNode_insertAll (F : Forest α) (ps : List (List α)) (e : List α) :
    (F.insertAll ps).HasNode e ↔ F.HasNode e ∨ ∃ p ∈ ps, e <+: p := by
  induction ps generalizing F with
  | nil => simp [insertAll]
  | cons p ps ih =>
    rw [insertAll, List.foldl_cons, ← insertAll, ih, hasNode_insert]
    simp [or_assoc]

/-- The nodes of the forest of a list are the prefixes of its paths. -/
theorem hasNode_insertAll_iff {ps : List (List α)} {e : List α} (hne : e ≠ []) :
    ((nil : Forest α).insertAll ps).HasNode e ↔ ∃ p ∈ ps, e <+: p := by
  obtain ⟨a, e, rfl⟩ := List.exists_cons_of_ne_nil hne
  rw [hasNode_insertAll]
  simp

/-- Following a path further is stepping to a child. -/
theorem hasNode_snoc (F : Forest α) (c : List α) (a : α) :
    F.HasNode (c ++ [a]) ↔ F.HasNode c ∧ a ∈ F.childrenAt c := by
  induction F generalizing c with
  | nil => cases c <;> simp [roots]
  | cons b kids sibs ihk ihs =>
    cases c with
    | nil =>
      rw [List.nil_append]
      by_cases ha : a = b
      · subst ha
        simp [roots]
      · have hs := ihs []
        simp only [List.nil_append, hasNode_nil, childrenAt_nil, true_and] at hs
        simp [hasNode_cons_of_ne _ _ _ ha, hs, roots, ha]
    | cons y c =>
      rw [List.cons_append]
      by_cases hy : y = b
      · subst hy
        simp [ihk]
      · simp only [hasNode_cons_of_ne _ _ _ hy, childrenAt_cons_of_ne _ _ _ hy]
        exact ihs (y :: c)

/-- Inserting a path that leads to a node changes nothing. -/
theorem insert_of_hasNode {F : Forest α} {p : List α} (h : F.HasNode p) : F.insert p = F := by
  induction F generalizing p with
  | nil =>
    cases p with
    | nil => rfl
    | cons a p => exact absurd h (not_hasNode_nil a p)
  | cons b kids sibs ihk ihs =>
    cases p with
    | nil => rfl
    | cons a p =>
      by_cases ha : a = b
      · subst ha
        rw [insert_cons_self, ihk ((hasNode_cons_self ..).1 h)]
      · rw [insert_cons_of_ne _ _ _ ha, ihs ((hasNode_cons_of_ne _ _ _ ha).1 h)]

/-- The prefixes of a path to a node lead to nodes. -/
theorem HasNode.of_prefix {F : Forest α} {c e : List α} (hc : F.HasNode c) (h : e <+: c) :
    F.HasNode e := by
  have := (hasNode_insert F c e).2 (.inr h)
  rwa [insert_of_hasNode hc] at this

/-- One node further than a node is one node more. -/
theorem hasNode_insert_snoc {F : Forest α} {c e : List α} {a : α} (hc : F.HasNode c) :
    (F.insert (c ++ [a])).HasNode e ↔ F.HasNode e ∨ e = c ++ [a] := by
  rw [hasNode_insert, List.prefix_concat_iff]
  refine ⟨?_, fun h => h.imp_right .inl⟩
  rintro (he | he | he)
  · exact .inl he
  · exact .inr he
  · exact .inl (hc.of_prefix he)

/-- A path that leads nowhere has nothing below it. -/
theorem childrenAt_of_not_hasNode {F : Forest α} {c : List α} (h : ¬ F.HasNode c) :
    F.childrenAt c = [] := by
  induction F generalizing c with
  | nil => exact childrenAt_of_nil c
  | cons b kids sibs ihk ihs =>
    cases c with
    | nil => exact absurd (hasNode_nil _) h
    | cons a c =>
      by_cases ha : a = b
      · subst ha
        rw [hasNode_cons_self] at h
        rw [childrenAt_cons_self, ihk h]
      · rw [hasNode_cons_of_ne _ _ _ ha] at h
        rw [childrenAt_cons_of_ne _ _ _ ha, ihs h]

/-- A branch grows at its end. -/
theorem insert_chain (p q : List α) : (chain p).insert (p ++ q) = chain (p ++ q) := by
  induction p with
  | nil =>
    cases q with
    | nil => rfl
    | cons a q => rfl
  | cons a p ih => rw [chain, List.cons_append, insert_cons_self, ih, chain]

/-- A path may be inserted in two steps. -/
theorem insert_insert (F : Forest α) (p q : List α) :
    (F.insert p).insert (p ++ q) = F.insert (p ++ q) := by
  induction F generalizing p with
  | nil =>
    cases p with
    | nil => rfl
    | cons a p => exact insert_chain (a :: p) q
  | cons b kids sibs ihk ihs =>
    cases p with
    | nil => rw [insert_nil]
    | cons a p =>
      rw [List.cons_append]
      by_cases ha : a = b
      · subst ha
        rw [insert_cons_self, insert_cons_self, insert_cons_self, ihk]
      · rw [insert_cons_of_ne _ _ _ ha, insert_cons_of_ne _ _ _ ha, insert_cons_of_ne _ _ _ ha,
          ← List.cons_append, ihs, List.cons_append]

/-! ## One more node -/

/-- **A new node is the last child of its parent**, and the children of every other node stay. -/
theorem childrenAt_insert {F : Forest α} {c : List α} {a : α} (hc : F.HasNode c)
    (ha : a ∉ F.childrenAt c) (d : List α) :
    (F.insert (c ++ [a])).childrenAt d
      = if d = c then F.childrenAt c ++ [a] else F.childrenAt d := by
  induction F generalizing c d with
  | nil =>
    cases c with
    | nil =>
      cases d with
      | nil => rfl
      | cons x d =>
        by_cases hx : x = a
        · subst hx
          simp [insert, chain]
        · simp [insert, chain, childrenAt_cons_of_ne _ _ _ hx]
    | cons y c => exact absurd hc (not_hasNode_nil y c)
  | cons b kids sibs ihk ihs =>
    cases c with
    | nil =>
      rw [childrenAt_nil, roots, List.mem_cons, not_or] at ha
      have hs := ihs (hasNode_nil sibs) (by simpa using ha.2)
      rw [List.nil_append] at hs ⊢
      rw [insert_cons_of_ne _ _ _ ha.1]
      cases d with
      | nil =>
        have hd := hs []
        simp only [childrenAt_nil, if_true] at hd
        simp [roots, hd]
      | cons x d =>
        by_cases hx : x = b
        · subst hx
          simp
        · simp [childrenAt_cons_of_ne _ _ _ hx, hs]
    | cons y c =>
      rw [List.cons_append]
      by_cases hy : y = b
      · subst hy
        rw [hasNode_cons_self] at hc
        rw [childrenAt_cons_self] at ha
        rw [insert_cons_self]
        cases d with
        | nil => simp [roots]
        | cons x d =>
          by_cases hx : x = y
          · subst hx
            simp [ihk hc ha]
          · simp [childrenAt_cons_of_ne _ _ _ hx, hx]
      · rw [hasNode_cons_of_ne _ _ _ hy] at hc
        rw [childrenAt_cons_of_ne _ _ _ hy] at ha
        have hs := ihs hc ha
        rw [insert_cons_of_ne _ _ _ hy, childrenAt_cons_of_ne _ _ _ hy]
        cases d with
        | nil =>
          have hd := hs []
          rw [if_neg (by simp), childrenAt_nil, childrenAt_nil, List.cons_append] at hd
          simp [roots, hd]
        | cons x d =>
          by_cases hx : x = b
          · subst hx
            simp [Ne.symm hy]
          · simpa [childrenAt_cons_of_ne _ _ _ hx] using hs (x :: d)

/-- A new node is one node. -/
theorem size_insert {F : Forest α} {c : List α} {a : α} (hc : F.HasNode c)
    (ha : a ∉ F.childrenAt c) : (F.insert (c ++ [a])).size = F.size + 1 := by
  induction F generalizing c with
  | nil =>
    cases c with
    | nil => rfl
    | cons y c => exact absurd hc (not_hasNode_nil y c)
  | cons b kids sibs ihk ihs =>
    cases c with
    | nil =>
      rw [childrenAt_nil, roots, List.mem_cons, not_or] at ha
      have hs := ihs (hasNode_nil sibs) (by simpa using ha.2)
      rw [List.nil_append] at hs ⊢
      rw [insert_cons_of_ne _ _ _ ha.1, size, size, hs]
      omega
    | cons y c =>
      rw [List.cons_append]
      by_cases hy : y = b
      · subst hy
        rw [hasNode_cons_self] at hc
        rw [childrenAt_cons_self] at ha
        rw [insert_cons_self, size, size, ihk hc ha]
        omega
      · rw [hasNode_cons_of_ne _ _ _ hy] at hc
        rw [childrenAt_cons_of_ne _ _ _ hy] at ha
        have hs := ihs hc ha
        rw [List.cons_append] at hs
        rw [insert_cons_of_ne _ _ _ hy, size, size, hs]
        omega

/-- Insertion loses no node. -/
theorem size_le_insert (F : Forest α) (p : List α) : F.size ≤ (F.insert p).size := by
  induction F generalizing p with
  | nil => exact Nat.zero_le _
  | cons b kids sibs ihk ihs =>
    cases p with
    | nil => rw [insert_nil]
    | cons a p =>
      by_cases ha : a = b
      · subst ha
        rw [insert_cons_self, size, size]
        have := ihk p
        omega
      · rw [insert_cons_of_ne _ _ _ ha, size, size]
        have := ihs (a :: p)
        omega

/-- Many insertions lose no node. -/
theorem size_le_insertAll (F : Forest α) (ps : List (List α)) :
    F.size ≤ (F.insertAll ps).size := by
  induction ps generalizing F with
  | nil => exact le_rfl
  | cons p ps ih => exact (size_le_insert F p).trans (ih (F.insert p))

/-! ## The forest below a node -/

/-- The forest below the node a path leads to. -/
def kidsAt : Forest α → List α → Forest α
  | F, [] => F
  | nil, _ :: _ => nil
  | cons b kids sibs, a :: p => if a = b then kids.kidsAt p else sibs.kidsAt (a :: p)

section KidsAt

variable (F kids sibs : Forest α) (a : α) (p q : List α)

@[simp] theorem kidsAt_nil : F.kidsAt [] = F := by cases F <;> rfl

@[simp] theorem kidsAt_cons_self : (cons a kids sibs).kidsAt (a :: p) = kids.kidsAt p :=
  if_pos rfl

theorem kidsAt_cons_of_ne {a b : α} (h : a ≠ b) :
    (cons b kids sibs).kidsAt (a :: p) = sibs.kidsAt (a :: p) := if_neg h

@[simp] theorem kidsAt_of_nil : (nil : Forest α).kidsAt p = nil := by cases p <;> rfl

/-- Going down a path is going down its two parts. -/
theorem kidsAt_append : (F.kidsAt p).kidsAt q = F.kidsAt (p ++ q) := by
  induction F generalizing p with
  | nil => simp
  | cons b kids sibs ihk ihs =>
    cases p with
    | nil => rw [kidsAt_nil, List.nil_append]
    | cons a p =>
      rw [List.cons_append]
      by_cases ha : a = b
      · subst ha
        rw [kidsAt_cons_self, kidsAt_cons_self, ihk]
      · rw [kidsAt_cons_of_ne _ _ _ ha, kidsAt_cons_of_ne _ _ _ ha, ihs, List.cons_append]

/-- The roots of what is below a node are its children. -/
theorem roots_kidsAt : (F.kidsAt p).roots = F.childrenAt p := by
  induction F generalizing p with
  | nil => simp [roots]
  | cons b kids sibs ihk ihs =>
    cases p with
    | nil => rw [kidsAt_nil, childrenAt_nil]
    | cons a p =>
      by_cases ha : a = b
      · subst ha
        rw [kidsAt_cons_self, childrenAt_cons_self, ihk]
      · rw [kidsAt_cons_of_ne _ _ _ ha, childrenAt_cons_of_ne _ _ _ ha, ihs]

end KidsAt

omit [DecidableEq α] in
theorem isEmpty_roots (F : Forest α) : F.roots.isEmpty = F.isNil := by
  cases F <;> rfl

/-- Siblings are distinct below a node too. -/
theorem Distinct.kidsAt {F : Forest α} (h : F.Distinct) (p : List α) : (F.kidsAt p).Distinct := by
  induction F generalizing p with
  | nil => rw [kidsAt_of_nil]; trivial
  | cons b kids sibs ihk ihs =>
    cases p with
    | nil => rwa [kidsAt_nil]
    | cons a p =>
      obtain ⟨-, hk, hs⟩ := h
      by_cases ha : a = b
      · subst ha
        rw [kidsAt_cons_self]
        exact ihk hk p
      · rw [kidsAt_cons_of_ne _ _ _ ha]
        exact ihs hs (a :: p)

/-- What is below a root is smaller. -/
theorem size_kidsAt_lt {F : Forest α} {a : α} (h : a ∈ F.roots) :
    (F.kidsAt [a]).size < F.size := by
  induction F with
  | nil => exact absurd h List.not_mem_nil
  | cons b kids sibs _ ihs =>
    rw [size]
    by_cases ha : a = b
    · subst ha
      rw [kidsAt_cons_self, kidsAt_nil]
      omega
    · rw [kidsAt_cons_of_ne _ _ _ ha]
      have := ihs ((List.mem_cons.1 h).resolve_left ha)
      omega

end Forest
