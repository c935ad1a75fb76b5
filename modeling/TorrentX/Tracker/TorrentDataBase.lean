import TorrentX.Machinery.RankedSet
import TorrentX.Machinery.Run
import TorrentX.Machinery.Wire

/-!
# Tracker/TorrentDataBase — the tracker's peer tables and counters

The model of `TorrentDataBase`: for each info hash a table of peers ordered by peer id, and three
unsigned 64-bit counters kept beside it.  `update_peer_list` works on one torrent
(`Torrent.update`) and touches no other, so its effect is described on `db.torrent`, the torrents
with an absent one counting as empty.

`Torrent.Updates` lists the outcomes of an update, one constructor each, and
`updates_of_update` is the only place where the function is unfolded.
-/

namespace TorrentX

open Wire

/-- The ways a call into the tracker fails to return. -/
inductive Fault
  /-- A load past the last byte of the datagram. -/
  | readPastEnd
  /-- A store past the last byte of the packet buffer. -/
  | writePastEnd
  /-- The first element of an empty vector. -/
  | emptyVector
  /-- A dereferenced end iterator. -/
  | derefEnd
  /-- A remainder modulo zero. -/
  | divideByZero
  /-- A rank that no entry has. -/
  | nthPastEnd
  /-- An insertion that throws because the container cannot grow. -/
  | containerFull
  /-- A load from memory that has been freed, where such loads are checked. -/
  | readFreed
  /-- The random numbers given to the run ran out: the selection loop is still drawing. -/
  | drawsExhausted
deriving DecidableEq

/-! ## The data -/

def hashSize : ℕ := 20

def defaultAnnouncePeers : Int32 := 50

def maxAnnouncePeers : Int32 := 150

/-- `Hash_t`, an array of `HASH_SIZE` bytes. -/
structure Hash where
  bytes : Bytes
  length_bytes : bytes.length = hashSize

theorem Hash.ext {h h' : Hash} (hb : h.bytes = h'.bytes) : h = h' := by
  cases h
  cases h'
  cases hb
  rfl

theorem Hash.bytes_injective : Function.Injective Hash.bytes := fun _ _ => Hash.ext

/-- The array of one byte throughout. -/
def Hash.fill (b : UInt8) : Hash := ⟨List.replicate hashSize b, List.length_replicate ..⟩

/-- Arrays compare lexicographically. -/
instance : LinearOrder Hash :=
  LinearOrder.lift' (fun h => h.bytes.map UInt8.toNat) fun _ _ h =>
    Hash.ext (List.map_injective_iff.2 (fun _ _ hb => UInt8.toNat_inj.1 hb) h)

/-- `enum class EventType : int32_t`.  A value read off the wire can have any code. -/
structure EventType where
  code : Int32
deriving DecidableEq

def EventType.none : EventType := ⟨0⟩

def EventType.completed : EventType := ⟨1⟩

def EventType.started : EventType := ⟨2⟩

def EventType.stopped : EventType := ⟨3⟩

/-- `DataBase::Peer`. -/
structure Peer where
  ip : UInt32 := 0
  port : UInt16 := 0
  peerId : Hash := .fill 0
  downloaded : Int64 := 0
  left : Int64 := 0
  uploaded : Int64 := 0
  completed : Bool := false
deriving DecidableEq

/-- `ranked_set<Peer>`: peers compare by their id alone. -/
abbrev PeerSet := RankedSet Peer.peerId

/-- `DataBase::Torrent`. -/
structure Torrent where
  allPeers : PeerSet := RankedSet.empty
  leechers : UInt64 := 0
  seeders : UInt64 := 0
  downloads : UInt64 := 0

/-! ## Updating one torrent -/

namespace Torrent

/-- The branch of `update_peer_list` for a `COMPLETED` event. -/
def onCompleted (torrent : Torrent) (peer : Peer) : Except Fault (Bytes × Torrent) :=
  if torrent.allPeers.count peer.peerId ≠ 0 then
    if peer.left ≠ 0 then .ok (text "Not completed actually", torrent)
    else
      match torrent.allPeers.find? peer.peerId with
      | none => .error .derefEnd
      | some oldPeer =>
        if !oldPeer.completed then
          match (torrent.allPeers.erase peer.peerId).insert { oldPeer with completed := true } with
          | none => .error .containerFull
          | some allPeers =>
            .ok ([], { allPeers
                       leechers := torrent.leechers - 1
                       seeders := torrent.seeders + 1
                       downloads := torrent.downloads + 1 })
        else .ok ([], torrent)
  else .ok ([], torrent)

/-- The branch for a `STARTED` event. -/
def onStarted (torrent : Torrent) (peer : Peer) : Except Fault (Bytes × Torrent) :=
  if torrent.allPeers.count peer.peerId = 0 then
    match torrent.allPeers.insert peer with
    | none => .error .containerFull
    | some allPeers =>
      if peer.left ≠ 0 then .ok ([], { torrent with allPeers, leechers := torrent.leechers + 1 })
      else .ok ([], { torrent with allPeers, seeders := torrent.seeders + 1 })
  else .ok ([], torrent)

/-- The branch for a `STOPPED` event. -/
def onStopped (torrent : Torrent) (peer : Peer) : Except Fault (Bytes × Torrent) :=
  if torrent.allPeers.count peer.peerId ≠ 0 then
    match torrent.allPeers.find? peer.peerId with
    | none => .error .derefEnd
    | some oldPeer =>
      let allPeers := torrent.allPeers.erase peer.peerId
      if oldPeer.completed then .ok ([], { torrent with allPeers, seeders := torrent.seeders - 1 })
      else .ok ([], { torrent with allPeers, leechers := torrent.leechers - 1 })
  else .ok ([], torrent)

/-- What `update_peer_list` does to the torrent it names, and the error it returns. -/
def update (torrent : Torrent) (peer : Peer) (event : EventType) :
    Except Fault (Bytes × Torrent) :=
  if event = .completed then torrent.onCompleted peer
  else if event = .started then torrent.onStarted peer
  else if event = .stopped then torrent.onStopped peer
  else .ok ([], torrent)

/-- The outcomes of an update: the error returned and the torrent after it. -/
inductive Updates (t : Torrent) (peer : Peer) (event : EventType) : Bytes → Torrent → Prop
  /-- The event asks for nothing. -/
  | idle : event ≠ .completed → event ≠ .started → event ≠ .stopped → Updates t peer event [] t
  /-- A completion that still has bytes left is refused. -/
  | refused (old : Peer) : event = .completed → t.allPeers.find? peer.peerId = some old →
      peer.left ≠ 0 → Updates t peer event (text "Not completed actually") t
  /-- A completion or a stop of a peer that is not registered. -/
  | unknown : event = .completed ∨ event = .stopped → t.allPeers.find? peer.peerId = none →
      Updates t peer event [] t
  /-- A completion of a peer whose entry says so already. -/
  | repeated (old : Peer) : event = .completed → t.allPeers.find? peer.peerId = some old →
      peer.left = 0 → old.completed = true → Updates t peer event [] t
  /-- A completion: the entry is replaced by its completed copy. -/
  | completes (old : Peer) (allPeers : PeerSet) : event = .completed →
      t.allPeers.find? peer.peerId = some old → peer.left = 0 → old.completed = false →
      (t.allPeers.erase peer.peerId).insert { old with completed := true } = some allPeers →
      Updates t peer event [] ⟨allPeers, t.leechers - 1, t.seeders + 1, t.downloads + 1⟩
  /-- A start of a peer that is registered already. -/
  | known (old : Peer) : event = .started → t.allPeers.find? peer.peerId = some old →
      Updates t peer event [] t
  /-- A start: the peer joins, counted by the bytes it says it has left. -/
  | joins (allPeers : PeerSet) : event = .started → t.allPeers.find? peer.peerId = none →
      t.allPeers.insert peer = some allPeers →
      Updates t peer event []
        ⟨allPeers, if peer.left = 0 then t.leechers else t.leechers + 1,
          if peer.left = 0 then t.seeders + 1 else t.seeders, t.downloads⟩
  /-- A stop: the entry leaves, counted by its flag. -/
  | leaves (old : Peer) : event = .stopped → t.allPeers.find? peer.peerId = some old →
      Updates t peer event []
        ⟨t.allPeers.erase peer.peerId, if old.completed then t.leechers else t.leechers - 1,
          if old.completed then t.seeders - 1 else t.seeders, t.downloads⟩

private theorem updates_of_onCompleted {t t' : Torrent} {peer : Peer} {err : Bytes}
    (h : t.onCompleted peer = .ok (err, t')) : t.Updates peer .completed err t' := by
  unfold onCompleted at h
  cases hf : t.allPeers.find? peer.peerId with
  | none =>
    rw [if_neg (by rw [RankedSet.count_ne_zero_iff, hf]; simp)] at h
    cases h
    exact .unknown (.inl rfl) hf
  | some old =>
    rw [if_pos (by rw [RankedSet.count_ne_zero_iff, hf]; rfl)] at h
    by_cases hleft : peer.left = 0
    · rw [if_neg (not_not.2 hleft)] at h
      simp only [hf] at h
      cases hc : old.completed with
      | true =>
        simp only [hc, Bool.not_true, Bool.false_eq_true, if_false] at h
        cases h
        exact .repeated old rfl hf hleft hc
      | false =>
        obtain ⟨allPeers, hi⟩ := RankedSet.exists_insert_erase hf { old with completed := true }
        simp only [hc, Bool.not_false, if_true, hi] at h
        cases h
        exact .completes old allPeers rfl hf hleft hc hi
    · rw [if_pos hleft] at h
      cases h
      exact .refused old rfl hf hleft

private theorem updates_of_onStarted {t t' : Torrent} {peer : Peer} {err : Bytes}
    (h : t.onStarted peer = .ok (err, t')) : t.Updates peer .started err t' := by
  unfold onStarted at h
  cases hf : t.allPeers.find? peer.peerId with
  | none =>
    rw [if_pos ((RankedSet.count_eq_zero_iff ..).2 hf)] at h
    cases hi : t.allPeers.insert peer with
    | none => simp [hi] at h
    | some allPeers =>
      have hj := Updates.joins (t := t) allPeers rfl hf hi
      by_cases hleft : peer.left = 0
      all_goals
        simp only [hi, hleft, ne_eq, not_true_eq_false, not_false_eq_true, if_true,
          if_false] at h hj
        cases h
        exact hj
  | some old =>
    rw [if_neg (by rw [RankedSet.count_eq_zero_iff, hf]; simp)] at h
    cases h
    exact .known old rfl hf

private theorem updates_of_onStopped {t t' : Torrent} {peer : Peer} {err : Bytes}
    (h : t.onStopped peer = .ok (err, t')) : t.Updates peer .stopped err t' := by
  unfold onStopped at h
  cases hf : t.allPeers.find? peer.peerId with
  | none =>
    rw [if_neg (by rw [RankedSet.count_ne_zero_iff, hf]; simp)] at h
    cases h
    exact .unknown (.inr rfl) hf
  | some old =>
    rw [if_pos (by rw [RankedSet.count_ne_zero_iff, hf]; rfl)] at h
    have hl : t.Updates peer .stopped [] _ := Updates.leaves old rfl hf
    cases hc : old.completed
    all_goals
      simp only [hf, hc, Bool.false_eq_true, if_true, if_false] at h hl
      cases h
      exact hl

/-- **Every outcome of an update is one of the listed ones.** -/
theorem updates_of_update {t t' : Torrent} {peer : Peer} {event : EventType} {err : Bytes}
    (h : t.update peer event = .ok (err, t')) : t.Updates peer event err t' := by
  unfold update at h
  by_cases hc : event = .completed
  · rw [if_pos hc] at h
    exact hc ▸ updates_of_onCompleted h
  · rw [if_neg hc] at h
    by_cases hs : event = .started
    · rw [if_pos hs] at h
      exact hs ▸ updates_of_onStarted h
    · rw [if_neg hs] at h
      by_cases hp : event = .stopped
      · rw [if_pos hp] at h
        exact hp ▸ updates_of_onStopped h
      · rw [if_neg hp] at h
        cases h
        exact .idle hc hs hp

/-- **An update that inserts no new peer returns**: it dereferences only iterators of entries. -/
theorem exists_update_of_not_joining (t : Torrent) (peer : Peer) (event : EventType)
    (hjoin : t.allPeers.find? peer.peerId = none → event ≠ .started) :
    ∃ err t', t.update peer event = .ok (err, t') := by
  unfold update onCompleted onStarted onStopped
  cases hf : t.allPeers.find? peer.peerId with
  | none =>
    simp only [(RankedSet.count_eq_zero_iff ..).2 hf, if_neg (hjoin hf), ne_eq, not_true_eq_false,
      if_false]
    split_ifs <;> exact ⟨_, _, rfl⟩
  | some old =>
    have hcount : t.allPeers.count peer.peerId ≠ 0 := by
      rw [RankedSet.count_ne_zero_iff, hf]
      rfl
    obtain ⟨allPeers, hi⟩ := RankedSet.exists_insert_erase hf { old with completed := true }
    simp only [hcount, hi, ne_eq, not_false_eq_true, if_true, if_false]
    split_ifs <;> exact ⟨_, _, rfl⟩

/-- **An update of a table with room returns.** -/
theorem exists_update (t : Torrent) (peer : Peer) (event : EventType)
    (hroom : t.allPeers.elems.length < RankedSet.maxSize) :
    ∃ err t', t.update peer event = .ok (err, t') := by
  by_cases hjoin : t.allPeers.find? peer.peerId = none → event ≠ .started
  · exact exists_update_of_not_joining t peer event hjoin
  · obtain ⟨hf, rfl⟩ := Classical.not_imp.1 hjoin |>.imp_right not_not.1
    obtain ⟨allPeers, hi⟩ := RankedSet.exists_insert hroom peer
    have hc : EventType.started ≠ .completed := by decide
    simp only [update, onStarted, if_neg hc, (RankedSet.count_eq_zero_iff ..).2 hf, hi, if_true]
    split_ifs <;> exact ⟨_, _, rfl⟩

/-- An update adds at most one entry. -/
theorem Updates.length_le {t t' : Torrent} {peer : Peer} {event : EventType} {err : Bytes}
    (hu : t.Updates peer event err t') :
    t'.allPeers.elems.length ≤ t.allPeers.elems.length + 1 := by
  cases hu with
  | completes old allPeers _ hf _ _ hi =>
    have he := (RankedSet.elems_erase_perm hf).length_eq
    have ha := (RankedSet.elems_insert_perm hi).length_eq
    simp only [List.length_cons] at *
    omega
  | joins allPeers _ _ hi => exact (RankedSet.elems_insert_perm hi).length_eq.le
  | leaves old _ hf =>
    have he := (RankedSet.elems_erase_perm hf).length_eq
    simp only [List.length_cons] at *
    omega
  | _ => exact Nat.le_succ _

end Torrent

/-! ## The database -/

/-- `DataBase::TorrentDataBase`.  The generator is the list of the numbers it has yet to yield. -/
structure TorrentDataBase where
  random : List UInt32
  torrents : Hash → Option Torrent

namespace TorrentDataBase

/-- A database with no torrent, drawing the numbers `random`. -/
def empty (random : List UInt32) : TorrentDataBase := ⟨random, fun _ => none⟩

/-- The torrent of an info hash, an absent one counting as empty. -/
def torrent (db : TorrentDataBase) (infoHash : Hash) : Torrent := (db.torrents infoHash).getD {}

/-- The database with the torrent of one info hash replaced. -/
def set (db : TorrentDataBase) (infoHash : Hash) (t : Torrent) : TorrentDataBase :=
  { db with torrents := Function.update db.torrents infoHash (some t) }

/-- What `torrents_[info_hash]` does to the map: an absent torrent is inserted empty. -/
def touch (db : TorrentDataBase) (infoHash : Hash) : TorrentDataBase :=
  db.set infoHash (db.torrent infoHash)

@[simp] theorem torrent_empty (random : List UInt32) (h : Hash) : (empty random).torrent h = {} :=
  rfl

/-- A replacement shows at its own hash only. -/
theorem torrent_set (db : TorrentDataBase) (h : Hash) (t : Torrent) :
    (db.set h t).torrent = Function.update db.torrent h t := by
  funext h'
  by_cases hh : h' = h
  · subst hh
    simp [torrent, set]
  · simp [torrent, set, hh]

@[simp] theorem torrent_set_self (db : TorrentDataBase) (h : Hash) (t : Torrent) :
    (db.set h t).torrent h = t := by rw [torrent_set, Function.update_self]

/-- A replacement leaves the torrents of other hashes. -/
theorem torrent_set_of_ne (db : TorrentDataBase) {h h' : Hash} (hh : h' ≠ h) (t : Torrent) :
    (db.set h t).torrent h' = db.torrent h' := by rw [torrent_set, Function.update_of_ne hh]

/-- **A lookup shows in no torrent.** -/
@[simp] theorem torrent_touch (db : TorrentDataBase) (h : Hash) :
    (db.touch h).torrent = db.torrent := by rw [touch, torrent_set, Function.update_eq_self]

/-- Of two replacements of a torrent the second stays. -/
theorem set_set (db : TorrentDataBase) (h : Hash) (t t' : Torrent) :
    (db.set h t).set h t' = db.set h t' :=
  congrArg (TorrentDataBase.mk db.random) (Function.update_idem ..)

/-- Looking twice inserts once. -/
theorem touch_touch (db : TorrentDataBase) (h : Hash) : (db.touch h).touch h = db.touch h := by
  rw [touch, torrent_touch]
  exact set_set ..

/-! ## Reading

Reading a torrent inserts it, as the source reads with `operator[]`.  Whatever reads the database
therefore returns one, too. -/

/-- A `size_t` returned as an `int32_t`. -/
def toInt32 (n : UInt64) : Int32 := Int32.ofNat n.toNat

def countLeechers (db : TorrentDataBase) (infoHash : Hash) : Int32 × TorrentDataBase :=
  (toInt32 (db.torrent infoHash).leechers, db.touch infoHash)

def countSeeders (db : TorrentDataBase) (infoHash : Hash) : Int32 × TorrentDataBase :=
  (toInt32 (db.torrent infoHash).seeders, db.touch infoHash)

def countDownloads (db : TorrentDataBase) (infoHash : Hash) : Int32 × TorrentDataBase :=
  (toInt32 (db.torrent infoHash).downloads, db.touch infoHash)

/-- The selection loop of `get_peer_list`: draw a peer while fewer than `numWant` distinct ones
are selected.  Returns the selected peers in order and the draws left. -/
def selectPeers (peerSet : PeerSet) (numWant : Int32) :
    List UInt32 → List Peer → Except Fault (List Peer × List UInt32)
  | [], selected =>
    if Int32.ofNat selected.length < numWant then .error .drawsExhausted else .ok (selected, [])
  | draw :: draws, selected =>
    if Int32.ofNat selected.length < numWant then
      if peerSet.size = 0 then .error .divideByZero
      else
        match peerSet.nth (draw.toNat % peerSet.size) with
        | none => .error .nthPastEnd
        | some randomPeer =>
          selectPeers peerSet numWant draws (OrderedSet.insert Peer.peerId randomPeer selected)
    else .ok (selected, draw :: draws)

/-- The number of peers `get_peer_list` selects from a table of `size` entries. -/
def clampNumWant (numWant : Int32) (size : ℕ) : Int32 :=
  let numWant := if numWant ≤ 0 then defaultAnnouncePeers else numWant
  let numWant := min numWant maxAnnouncePeers
  min numWant (Int32.ofNat size)

def getPeerList (db : TorrentDataBase) (infoHash : Hash) (numWant : Int32) :
    Except Fault (List Peer × TorrentDataBase) := do
  let peerSet := (db.torrent infoHash).allPeers
  let (peers, random) ← selectPeers peerSet (clampNumWant numWant peerSet.size) db.random []
  return (peers, { db.touch infoHash with random })

/-! ## Updating -/

def updatePeerList (db : TorrentDataBase) (infoHash : Hash) (peer : Peer) (event : EventType) :
    Except Fault (Bytes × TorrentDataBase) := do
  let (error, torrent) ← (db.torrent infoHash).update peer event
  return (error, db.set infoHash torrent)

/-- An update that returns has updated the torrent it names and no other. -/
theorem updates_of_updatePeerList {db db' : TorrentDataBase} {h : Hash} {peer : Peer}
    {event : EventType} {err : Bytes} (hu : db.updatePeerList h peer event = .ok (err, db')) :
    ∃ t', (db.torrent h).Updates peer event err t' ∧ db' = db.set h t' := by
  unfold updatePeerList at hu
  obtain ⟨⟨e, t'⟩, hupdate, hret⟩ := exists_of_bind_eq_ok hu
  cases hret
  exact ⟨t', Torrent.updates_of_update hupdate, rfl⟩

theorem exists_updatePeerList (db : TorrentDataBase) (h : Hash) (peer : Peer) (event : EventType)
    (hroom : (db.torrent h).allPeers.elems.length < RankedSet.maxSize) :
    ∃ err db', db.updatePeerList h peer event = .ok (err, db') := by
  obtain ⟨err, t', hu⟩ := Torrent.exists_update (db.torrent h) peer event hroom
  exact ⟨err, db.set h t', by rw [updatePeerList, hu]; rfl⟩

end TorrentDataBase

end TorrentX
