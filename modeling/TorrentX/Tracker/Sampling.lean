import TorrentX.Tracker.Membership

/-!
# Tracker/Sampling — the selection loop of an announce

`get_peer_list` draws entries of the table with replacement until it holds enough distinct ones.
Each draw keeps the selection strictly increasing and inside the table (`Selected.draw`), so a
finished selection has exactly the size asked for (`length_of_selectPeers`).  A table with one entry
per peer id gives up that many as soon as every rank has been drawn (`exists_selectPeers`), and the
tables of reachable databases are such tables.
-/

namespace TorrentX

open TorrentDataBase

/-! ## The clamps

The three comparisons are on 32-bit integers, and the size of the table is converted to one.  Below
`2 ^ 31` entries this is the size; from there on it may be negative, and then nothing is asked
for. -/

/-- The smaller of two words is the smaller of two integers. -/
theorem toInt_min (a b : Int32) : (min a b).toInt = min a.toInt b.toInt := by
  change (if a ≤ b then a else b).toInt = _
  rw [min_def, apply_ite Int32.toInt]
  simp only [Int32.le_iff_toInt_le]

/-- The number of peers an announce asks for: the default when it is not positive. -/
def wanted (numWant : Int32) : ℕ := if 0 < numWant.toInt then numWant.toInt.toNat else 50

/-- At least one peer is wanted. -/
theorem wanted_pos (numWant : Int32) : 0 < wanted numWant := by
  unfold wanted
  split <;> omega

/-- **The clamps compute a minimum**, of the size as a 32-bit integer. -/
theorem toInt_clampNumWant (numWant : Int32) (n : ℕ) :
    (clampNumWant numWant n).toInt
      = min ((min 150 (wanted numWant) : ℕ) : ℤ) (Int32.ofNat n).toInt := by
  have hdefault : defaultAnnouncePeers.toInt = 50 := rfl
  have hmax : maxAnnouncePeers.toInt = 150 := rfl
  have hnon : numWant ≤ 0 ↔ ¬ 0 < numWant.toInt := by
    rw [Int32.le_iff_toInt_le, not_lt]
    rfl
  rw [clampNumWant, toInt_min, toInt_min, hmax, wanted]
  by_cases hw : 0 < numWant.toInt
  · rw [if_neg (by rw [hnon]; exact not_not.2 hw), if_pos hw]
    omega
  · rw [if_pos (hnon.2 hw), if_neg hw, hdefault]
    omega

/-- Few enough wanted are wanted as they are. -/
theorem toInt_clampNumWant_of_le {numWant : Int32} {n k : ℕ} (hw : wanted numWant = k)
    (hk : k ≤ 150) (hn : (k : ℤ) ≤ (Int32.ofNat n).toInt) :
    (clampNumWant numWant n).toInt = k := by
  rw [toInt_clampNumWant, hw, Nat.min_eq_right hk, min_eq_left hn]

/-- The clamps for a table whose size a 32-bit integer can count. -/
theorem toNat_clampNumWant (numWant : Int32) {n : ℕ} (hn : n < 2 ^ 31) :
    (clampNumWant numWant n).toInt.toNat = min n (min 150 (wanted numWant)) := by
  rw [toInt_clampNumWant, Int32.toInt_ofNat_of_lt hn]
  omega

/-- However large the table, the clamps leave no more than the maximum. -/
theorem toNat_clampNumWant_le (numWant : Int32) (n : ℕ) :
    (clampNumWant numWant n).toInt.toNat ≤ 150 := by
  rw [toInt_clampNumWant]
  omega

/-- The loop's test compares sizes, for a selection that is no larger than asked for. -/
theorem ofNat_lt_iff {numWant : Int32} {k : ℕ} (hk : k ≤ numWant.toInt.toNat) :
    Int32.ofNat k < numWant ↔ k < numWant.toInt.toNat := by
  have hlt := numWant.toInt_lt
  rw [Int32.lt_iff_toInt_lt, Int32.toInt_ofNat_of_lt (by omega)]
  omega

/-! ## Selections -/

/-- A selection from a table: entries of it, strictly increasing. -/
structure Selected (peerSet : PeerSet) (peers : List Peer) : Prop where
  increasing : peers.Pairwise fun p q => p.peerId < q.peerId
  entries : ∀ p ∈ peers, p ∈ peerSet.elems

variable {peerSet : PeerSet} {numWant : Int32} {draws rest : List UInt32}
  {selected peers : List Peer}

namespace Selected

/-- The empty selection. -/
theorem nil (peerSet : PeerSet) : Selected peerSet [] :=
  ⟨List.Pairwise.nil, fun _ hp => absurd hp List.not_mem_nil⟩

/-- No entry is selected twice. -/
theorem nodup (hs : Selected peerSet selected) : selected.Nodup :=
  hs.increasing.imp fun hpq he => (he ▸ hpq).false

/-- **One draw keeps a selection a selection.** -/
theorem draw (hs : Selected peerSet selected) {p : Peer} (hp : p ∈ peerSet.elems) :
    Selected peerSet (OrderedSet.insert Peer.peerId p selected) := by
  refine ⟨OrderedSet.pairwise_insert p hs.increasing, fun q hq => ?_⟩
  rcases OrderedSet.mem_insert hq with rfl | hq
  · exact hp
  · exact hs.entries q hq

/-- The value drawn is selected afterwards, when no other entry has its key. -/
theorem mem_draw (hs : Selected peerSet selected)
    (hkey : peerSet.elems.Pairwise fun p q => p.peerId < q.peerId) {p : Peer}
    (hp : p ∈ peerSet.elems) : p ∈ OrderedSet.insert Peer.peerId p selected := by
  obtain ⟨q, hq, heq⟩ := OrderedSet.exists_mem_insert Peer.peerId p selected
  have hmem : q ∈ peerSet.elems := (hs.draw hp).entries q hq
  have hnodup : (peerSet.elems.map Peer.peerId).Nodup := List.pairwise_map.2 (hkey.imp ne_of_lt)
  rwa [List.inj_on_of_nodup_map hnodup hmem hp heq] at hq

end Selected

/-! ## The loop

What is selected is an `std::set`, so a draw that repeats an entry adds nothing.  The loop has no
bound of its own, and the draws are an argument that may run out. -/

/-- What a finished loop has selected. -/
theorem selected_of_selectPeers (hs : Selected peerSet selected)
    (h : selectPeers peerSet numWant draws selected = .ok (peers, rest)) :
    Selected peerSet peers := by
  induction draws generalizing selected with
  | nil =>
    rw [selectPeers] at h
    split_ifs at h
    cases h
    exact hs
  | cons draw draws ih =>
    rw [selectPeers] at h
    split_ifs at h
    · cases hn : peerSet.nth (draw.toNat % peerSet.size) with
      | none => simp [hn] at h
      | some p =>
        simp only [hn] at h
        exact ih (hs.draw (List.mem_of_getElem? hn)) h
    · cases h
      exact hs

/-- **A finished selection has the size asked for.** -/
theorem length_of_selectPeers (hlen : selected.length ≤ numWant.toInt.toNat)
    (h : selectPeers peerSet numWant draws selected = .ok (peers, rest)) :
    peers.length = numWant.toInt.toNat := by
  induction draws generalizing selected with
  | nil =>
    simp only [selectPeers, ofNat_lt_iff hlen] at h
    split_ifs at h with htest
    cases h
    omega
  | cons draw draws ih =>
    simp only [selectPeers, ofNat_lt_iff hlen] at h
    split_ifs at h with htest
    · cases hn : peerSet.nth (draw.toNat % peerSet.size) with
      | none => simp [hn] at h
      | some p =>
        simp only [hn] at h
        have hle := OrderedSet.length_insert_le Peer.peerId p selected
        exact ih (by omega) h
    · cases h
      omega

/-- A finished loop has not looked at later draws. -/
theorem selectPeers_append (more : List UInt32)
    (h : selectPeers peerSet numWant draws selected = .ok (peers, rest)) :
    selectPeers peerSet numWant (draws ++ more) selected = .ok (peers, rest ++ more) := by
  induction draws generalizing selected with
  | nil =>
    rw [selectPeers] at h
    split_ifs at h with htest
    cases h
    cases more with
    | nil => rw [List.nil_append, selectPeers, if_neg htest]
    | cons draw more => rw [List.nil_append, selectPeers, if_neg htest]
  | cons draw draws ih =>
    rw [selectPeers] at h
    rw [List.cons_append, selectPeers]
    split_ifs at h ⊢
    · cases hn : peerSet.nth (draw.toNat % peerSet.size) with
      | none => simp [hn] at h
      | some p =>
        simp only [hn] at h ⊢
        exact ih h
    · cases h
      rfl

/-- **The loop finishes once every entry has been drawn**, on a table with one entry per peer id
that has as many as are asked for: a selection of all of them is large enough. -/
theorem exists_selectPeers (hs : Selected peerSet selected)
    (hkey : peerSet.elems.Pairwise fun p q => p.peerId < q.peerId)
    (hlen : selected.length ≤ numWant.toInt.toNat) (hsize : numWant.toInt.toNat ≤ peerSet.size)
    (hdraws : ∀ p ∈ peerSet.elems, p ∈ selected ∨
      ∃ draw ∈ draws, peerSet.nth (draw.toNat % peerSet.size) = some p) :
    ∃ peers rest, selectPeers peerSet numWant draws selected = .ok (peers, rest) := by
  induction draws generalizing selected with
  | nil =>
    have hall : peerSet.elems ⊆ selected := fun p hp =>
      (hdraws p hp).resolve_right fun ⟨_, hd, _⟩ => List.not_mem_nil hd
    have hnodup : peerSet.elems.Nodup := hkey.imp fun hpq he => (he ▸ hpq).false
    have hle : peerSet.size ≤ selected.length := (List.subperm_of_subset hnodup hall).length_le
    simp only [selectPeers, ofNat_lt_iff hlen, if_neg (Nat.not_lt.2 (hsize.trans hle))]
    exact ⟨_, _, rfl⟩
  | cons draw draws ih =>
    simp only [selectPeers, ofNat_lt_iff hlen]
    split_ifs with htest hzero
    · omega
    · have hrank : draw.toNat % peerSet.size < peerSet.elems.length :=
        Nat.mod_lt _ (Nat.pos_of_ne_zero hzero)
      have hn : peerSet.nth (draw.toNat % peerSet.size)
          = some (peerSet.elems[draw.toNat % peerSet.size]) := List.getElem?_eq_getElem hrank
      have hmem : peerSet.elems[draw.toNat % peerSet.size] ∈ peerSet.elems :=
        List.getElem_mem hrank
      have hle := OrderedSet.length_insert_le Peer.peerId
        (peerSet.elems[draw.toNat % peerSet.size]) selected
      simp only [hn]
      refine ih (hs.draw hmem) (by omega) fun p hp => ?_
      rcases hdraws p hp with hsel | ⟨d, hd, hnth⟩
      · exact .inl (OrderedSet.mem_insert_of_mem hsel)
      · rcases List.mem_cons.1 hd with rfl | hd
        · rw [hn, Option.some.injEq] at hnth
          exact .inl (hnth ▸ hs.mem_draw hkey hmem)
        · exact .inr ⟨d, hd, hnth⟩
    · exact ⟨_, _, rfl⟩

/-! ## Reachable tables -/

/-- Finitely many draws of a sequence that reaches every rank reach every rank. -/
theorem exists_forall_lt {n : ℕ} {P : ℕ → ℕ → Prop} (h : ∀ r < n, ∃ i, P r i) :
    ∃ k, ∀ r < n, ∃ i < k, P r i := by
  choose! f hf using h
  refine ⟨(Finset.range n).sup f + 1, fun r hr => ⟨f r, ?_, hf r hr⟩⟩
  exact Nat.lt_succ_of_le (Finset.le_sup (Finset.mem_range.2 hr))

/-- A finished loop is a list drawn. -/
theorem getPeerList_of_selectPeers (db : TorrentDataBase) {h : Hash} {rest : List UInt32}
    (hs : selectPeers (db.torrent h).allPeers (clampNumWant numWant (db.torrent h).allPeers.size)
      db.random [] = .ok (peers, rest)) :
    db.getPeerList h numWant = .ok (peers, { db.touch h with random := rest }) := by
  change (selectPeers (db.torrent h).allPeers _ db.random [] >>= _) = _
  rw [hs]
  rfl

/-- **A peer list is a sample without repetition, of the right size.**  In every reachable database,
for a table of fewer than `2 ^ 31` peers and a sequence of draws that reaches each of its ranks,
the loop finishes after finitely many draws, and the peers it returns are entries of the table, in
increasing order of their ids, as many as the table, the maximum and the request allow. -/
theorem getPeerList_samples {random : List UInt32} {tr : List (Call × Bytes)}
    {db : TorrentDataBase} (hr : Run updateStep (empty random) tr db) (h : Hash)
    (hsmall : (db.torrent h).allPeers.size < 2 ^ 31) (numWant : Int32) (draws : ℕ → UInt32)
    (hdraws : ∀ r < (db.torrent h).allPeers.size,
      ∃ i, (draws i).toNat % (db.torrent h).allPeers.size = r) :
    ∃ k peers,
      (∀ n, k ≤ n → ∃ db', getPeerList { db with random := (List.range n).map draws } h numWant
        = .ok (peers, db')) ∧
      peers.Pairwise (fun p q => p.peerId < q.peerId) ∧
      (∀ p ∈ peers, p ∈ (db.torrent h).allPeers.elems) ∧
      peers.length = min (db.torrent h).allPeers.size (min 150 (wanted numWant)) := by
  have hkey := RankedSet.pairwise_lt ((tracks_of_run hr).length_withKey_le h)
  have hwant := toNat_clampNumWant numWant hsmall
  obtain ⟨k, hk⟩ := exists_forall_lt hdraws
  have hall : ∀ p ∈ (db.torrent h).allPeers.elems, p ∈ [] ∨ ∃ draw ∈ (List.range k).map draws,
      (db.torrent h).allPeers.nth (draw.toNat % (db.torrent h).allPeers.size) = some p := by
    intro p hp
    obtain ⟨r, hr, hget⟩ := List.getElem_of_mem hp
    obtain ⟨i, hi, hrank⟩ := hk r hr
    refine .inr ⟨draws i, List.mem_map.2 ⟨i, List.mem_range.2 hi, rfl⟩, ?_⟩
    rw [hrank, ← hget]
    exact List.getElem?_eq_getElem hr
  have hsize : (clampNumWant numWant (db.torrent h).allPeers.size).toInt.toNat
      ≤ (db.torrent h).allPeers.size := hwant.le.trans (min_le_left _ _)
  obtain ⟨peers, rest, hsel⟩ :=
    exists_selectPeers (Selected.nil _) hkey (Nat.zero_le _) hsize hall
  have hs := selected_of_selectPeers (Selected.nil _) hsel
  refine ⟨k, peers, fun n hn => ?_, hs.increasing, hs.entries, ?_⟩
  · obtain ⟨m, rfl⟩ := Nat.exists_eq_add_of_le hn
    have hmore := selectPeers_append ((List.range m).map fun i => draws (k + i)) hsel
    rw [List.range_add, List.map_append, List.map_map]
    exact ⟨_, getPeerList_of_selectPeers ⟨_, db.torrents⟩ hmore⟩
  · rw [length_of_selectPeers (Nat.zero_le _) hsel, hwant]

/-- Two peers, each rank drawn once. -/
theorem getPeerList_samples_two : ∃ db,
    Run updateStep (empty [])
      [(seedStarts, []), ({ seedStarts with peer := { seed with peerId := .fill 3 } }, [])] db ∧
    ∃ k peers,
      (∀ n, k ≤ n → ∃ db', getPeerList { db with random := (List.range n).map UInt32.ofNat }
        seedStarts.infoHash 7 = .ok (peers, db')) ∧
      peers.length = 2 := by
  have hr : Run updateStep (empty [])
      [(seedStarts, []), ({ seedStarts with peer := { seed with peerId := .fill 3 } }, [])] _ :=
    .snoc (.snoc .nil rfl) rfl
  have hranks : ∀ r < 2, (UInt32.ofNat r).toNat % 2 = r := by decide
  obtain ⟨k, peers, hok, -, -, hlen⟩ := getPeerList_samples hr seedStarts.infoHash (by decide) 7
    UInt32.ofNat (fun r hlt => ⟨r, hranks r hlt⟩)
  exact ⟨_, hr, k, peers, hok, hlen⟩

end TorrentX
