import TorrentX.Tracker.Service

/-!
# Tracker/Network — what the network may do to the datagrams

Datagrams are delivered late, twice, or between those of others.  A torrent is the sum of its
peers' accounts, each made by that peer's own calls in their order, and a call repeated right away
moves an account once: so two servers whose datagrams make the same calls for each peer of a
torrent, up to such repetitions, end with the same torrent — whatever else either of them received,
in whatever order, and whatever they drew (`torrent_eq_of_sameCalls`).
-/

namespace TorrentX

open Wire TorrentDataBase

/-- The calls of one peer on one torrent that a log makes, each row of repetitions once. -/
def callsOnce (log : List Datagram) (infoHash peerId : Hash) : List Call :=
  (callsOf (callsMade log) infoHash peerId).destutter (· ≠ ·)

/-- For each peer of a torrent two logs make the same calls, up to repetitions. -/
def SameCalls (log log' : List Datagram) (infoHash : Hash) : Prop :=
  ∀ peerId, callsOnce log infoHash peerId = callsOnce log' infoHash peerId

/-- An account does not see a call repeated. -/
theorem account_destutter (log : List Call) : account (log.destutter (· ≠ ·)) = account log :=
  Ledger.foldl_destutter (fun (a : Account) (c : Call) => (a.step c).2) Account.step_step {} log

section Runs

variable {requestInterval requestInterval' : Int32} {random random' : List UInt32}
  {tr tr' : List (Datagram × Bytes)} {db db' : TorrentDataBase}

/-- **A torrent depends on its own peers' calls alone, each peer's in their order and up to
repetitions.** -/
theorem torrent_eq_of_sameCalls
    (hr : Run (processRequest requestInterval) (.empty random) tr db)
    (hr' : Run (processRequest requestInterval') (.empty random') tr' db') {infoHash : Hash}
    (hsame : SameCalls (datagramsIn tr) (datagramsIn tr') infoHash) :
    db.torrent infoHash = db'.torrent infoHash := by
  refine (sumsAccounts_of_service hr infoHash).eq (sumsAccounts_of_service hr' infoHash)
    fun pid => ?_
  have hpid : callsOnce (datagramsIn tr) infoHash pid = callsOnce (datagramsIn tr') infoHash pid :=
    hsame pid
  rw [← account_destutter (callsOf (callsMade (datagramsIn tr)) infoHash pid), ← callsOnce, hpid,
    callsOnce, account_destutter]

end Runs

/-- Two peers join; the datagram of the second comes first, or twice. -/
theorem sameCalls_twice : SameCalls [startedFrom straight 2, startedFrom straight 3]
    [startedFrom straight 3, startedFrom straight 2, startedFrom straight 2] (.fill 1) := by
  intro pid
  have h₂ : (startedFrom straight 2).makes = some (startedFrom straight 2).call := rfl
  have h₃ : (startedFrom straight 3).makes = some (startedFrom straight 3).call := rfl
  have hid₂ : (startedFrom straight 2).call.peer.peerId = .fill 2 := rfl
  have hid₃ : (startedFrom straight 3).call.peer.peerId = .fill 3 := rfl
  have hhash₂ : (startedFrom straight 2).call.infoHash = .fill 1 := rfl
  have hne : Hash.fill 2 ≠ .fill 3 := by decide
  by_cases hp₂ : Hash.fill 2 = pid
  · have hp₃ : Hash.fill 3 ≠ pid := fun h => hne (hp₂.trans h.symm)
    simp [callsOnce, callsOf, callsMade, h₂, h₃, hid₂, hid₃, hhash₂, hp₂, hp₃]
  · simp [callsOnce, callsOf, callsMade, List.filter_cons, h₂, h₃, hid₂, hid₃, hp₂]

theorem torrent_eq_of_sameCalls_twice : ∃ packet₁ packet₂ packet₃ packet₄ packet₅ db db',
    Run (processRequest 60) (.empty [0])
      [(startedFrom straight 2, packet₁), (startedFrom straight 3, packet₂)] db ∧
    Run (processRequest 60) (.empty [0, 0, 1])
      [(startedFrom straight 3, packet₃), (startedFrom straight 2, packet₄),
        (startedFrom straight 2, packet₅)] db' ∧
    db.torrent (.fill 1) = db'.torrent (.fill 1) := by
  have hr : Run (processRequest 60) (.empty [0])
      [(startedFrom straight 2, _), (startedFrom straight 3, _)] _ := .snoc (.snoc .nil rfl) rfl
  have hr' : Run (processRequest 60) (.empty [0, 0, 1])
      [(startedFrom straight 3, _), (startedFrom straight 2, _), (startedFrom straight 2, _)] _ :=
    .snoc (.snoc (.snoc .nil rfl) rfl) rfl
  exact ⟨_, _, _, _, _, _, _, hr, hr', torrent_eq_of_sameCalls hr hr' sameCalls_twice⟩

end TorrentX
