import TorrentX.Tracker.TorrentDataBase

/-!
# Tracker/Account — what one peer contributes to a torrent

Every peer of a torrent shares its counters and its table, yet a call touches nothing that another
peer put there.  The account of a peer is its entry and its part of the three counters.  An update
is a step of the account of the calling peer: it answers what that account says and moves the
counters by as much (`Torrent.Updates.moves`), and it leaves the entries of every other peer alone
(`Torrent.Updates.withKey_perm_of_ne`).
-/

namespace TorrentX

open Wire TorrentDataBase

/-- The arguments of one call of `update_peer_list`. -/
structure Call where
  infoHash : Hash
  peer : Peer
  event : EventType
deriving DecidableEq

/-! ## The account of one peer

The three counters of a torrent are sums of what its peers have put in, modulo their width, so the
part of one peer may be a large word: a `STOPPED` that finds its entry takes one from a counter the
peer may never have moved. -/

/-- What one peer contributes to a torrent: its entry, and its part of the counters. -/
structure Account where
  entry : Option Peer := none
  leechers : UInt64 := 0
  seeders : UInt64 := 0
  downloads : UInt64 := 0

namespace Account

/-- A call on the account of its peer: the error it returns and the account after it. -/
def step (a : Account) (c : Call) : Bytes × Account :=
  match a.entry with
  | none =>
    if c.event = .started then
      ([], { a with
        entry := some c.peer
        leechers := if c.peer.left = 0 then a.leechers else a.leechers + 1
        seeders := if c.peer.left = 0 then a.seeders + 1 else a.seeders })
    else ([], a)
  | some old =>
    if c.event = .completed then
      if c.peer.left ≠ 0 then (text "Not completed actually", a)
      else if old.completed then ([], a)
      else ([], ⟨some { old with completed := true }, a.leechers - 1, a.seeders + 1,
        a.downloads + 1⟩)
    else if c.event = .stopped then
      ([], { a with
        entry := none
        leechers := if old.completed then a.leechers else a.leechers - 1
        seeders := if old.completed then a.seeders - 1 else a.seeders })
    else ([], a)

/-- A started peer has an entry. -/
theorem entry_step_of_started (a : Account) {c : Call} (hc : c.event = .started) :
    (a.step c).2.entry ≠ none := by
  have hne : EventType.started ≠ .completed ∧ EventType.started ≠ .stopped := by decide
  cases he : a.entry <;> simp [step, he, hc, hne]

/-- **A call made twice moves an account once.** -/
theorem step_step (a : Account) (c : Call) : ((a.step c).2.step c).2 = (a.step c).2 := by
  cases he : a.entry with
  | none =>
    by_cases hs : c.event = .started
    · have hne : EventType.started ≠ .completed ∧ EventType.started ≠ .stopped := by decide
      simp [step, he, hs, hne]
    · simp [step, he, hs]
  | some old =>
    by_cases hc : c.event = .completed
    · by_cases hleft : c.peer.left = 0 <;> by_cases hold : old.completed <;>
        simp [step, he, hc, hleft, hold]
    · by_cases hp : c.event = .stopped
      · have hne : EventType.stopped ≠ .completed ∧ EventType.stopped ≠ .started := by decide
        simp [step, he, hp, hne]
      · simp [step, he, hc, hp]

end Account

/-! ## One update moves one account -/

/-- **An update is a step of the account of the calling peer**: it returns the error of the step,
leaves the entry of the step, and moves each counter as the step does. -/
theorem Torrent.Updates.moves {t t' : Torrent} {c : Call} {err : Bytes} {a : Account}
    (hu : t.Updates c.peer c.event err t')
    (hentry : t.allPeers.withKey c.peer.peerId = a.entry.toList) :
    (a.step c).1 = err ∧ t'.allPeers.withKey c.peer.peerId = (a.step c).2.entry.toList ∧
      t'.leechers + a.leechers = t.leechers + (a.step c).2.leechers ∧
      t'.seeders + a.seeders = t.seeders + (a.step c).2.seeders ∧
      t'.downloads + a.downloads = t.downloads + (a.step c).2.downloads := by
  have hfind : t.allPeers.find? c.peer.peerId = a.entry := by
    rw [RankedSet.find?_eq_head?, hentry, Option.head?_toList]
  cases hu with
  | idle hc hs hp =>
    have hstep : a.step c = ([], a) := by
      cases he : a.entry <;> simp [Account.step, he, hc, hs, hp]
    rw [hstep]
    exact ⟨rfl, hentry, rfl, rfl, rfl⟩
  | refused old hc hf hleft =>
    have hstep : a.step c = (text "Not completed actually", a) := by
      simp [Account.step, ← hfind, hf, hc, hleft]
    rw [hstep]
    exact ⟨rfl, hentry, rfl, rfl, rfl⟩
  | unknown hc hf =>
    have hs : c.event ≠ .started := by rcases hc with hc | hc <;> rw [hc] <;> decide
    have hstep : a.step c = ([], a) := by simp [Account.step, ← hfind, hf, hs]
    rw [hstep]
    exact ⟨rfl, hentry, rfl, rfl, rfl⟩
  | repeated old hc hf hleft hold =>
    have hstep : a.step c = ([], a) := by simp [Account.step, ← hfind, hf, hc, hleft, hold]
    rw [hstep]
    exact ⟨rfl, hentry, rfl, rfl, rfl⟩
  | completes old allPeers hc hf hleft hold hi =>
    have hstep : a.step c = ([], ⟨some { old with completed := true }, a.leechers - 1,
        a.seeders + 1, a.downloads + 1⟩) := by
      simp [Account.step, ← hfind, hf, hc, hleft, hold]
    have hk : old.peerId = c.peer.peerId := RankedSet.key_of_find? hf
    rw [← hfind, hf, Option.toList_some] at hentry
    have hnone := RankedSet.withKey_erase_of_singleton hentry
    have hone : allPeers.withKey c.peer.peerId = [{ old with completed := true }] :=
      hk ▸ RankedSet.withKey_insert_of_nil hi (hk.symm ▸ hnone)
    rw [hstep]
    refine ⟨rfl, hone, ?_, ?_, ?_⟩ <;> grind
  | known old hs hf =>
    have hc : c.event ≠ .completed ∧ c.event ≠ .stopped := by rw [hs]; decide
    have hstep : a.step c = ([], a) := by simp [Account.step, ← hfind, hf, hc]
    rw [hstep]
    exact ⟨rfl, hentry, rfl, rfl, rfl⟩
  | joins allPeers hs hf hi =>
    have hstep : a.step c = ([], { a with
        entry := some c.peer
        leechers := if c.peer.left = 0 then a.leechers else a.leechers + 1
        seeders := if c.peer.left = 0 then a.seeders + 1 else a.seeders }) := by
      simp [Account.step, ← hfind, hf, hs]
    rw [← hfind, hf, Option.toList_none] at hentry
    have hone := RankedSet.withKey_insert_of_nil hi hentry
    rw [hstep]
    refine ⟨rfl, hone, ?_, ?_, rfl⟩ <;> dsimp only <;> split <;> grind
  | leaves old hp hf =>
    have hc : EventType.stopped ≠ .completed := by decide
    have hstep : a.step c = ([], { a with
        entry := none
        leechers := if old.completed then a.leechers else a.leechers - 1
        seeders := if old.completed then a.seeders - 1 else a.seeders }) := by
      simp [Account.step, ← hfind, hf, hp, hc]
    rw [← hfind, hf, Option.toList_some] at hentry
    have hnone := RankedSet.withKey_erase_of_singleton hentry
    rw [hstep]
    refine ⟨rfl, hnone, ?_, ?_, rfl⟩ <;> dsimp only <;> split <;> grind

/-- **An update changes the entries of its own key only.** -/
theorem Torrent.Updates.withKey_perm_of_ne {t t' : Torrent} {peer : Peer} {event : EventType}
    {err : Bytes} (hu : t.Updates peer event err t') {pid : Hash} (hne : peer.peerId ≠ pid) :
    (t'.allPeers.withKey pid).Perm (t.allPeers.withKey pid) := by
  cases hu with
  | completes old allPeers _ hf _ _ hi =>
    have hk : old.peerId = peer.peerId := RankedSet.key_of_find? hf
    have he := RankedSet.withKey_erase_perm hf pid
    have ha := RankedSet.withKey_insert_perm hi pid
    rw [if_neg hne] at he
    rw [if_neg (by simpa [hk] using hne)] at ha
    exact ha.trans he.symm
  | joins allPeers _ _ hi =>
    have ha := RankedSet.withKey_insert_perm hi pid
    rwa [if_neg hne] at ha
  | leaves old _ hf =>
    have he := RankedSet.withKey_erase_perm hf pid
    rw [if_neg hne] at he
    exact he.symm
  | _ => exact List.Perm.refl _

end TorrentX
