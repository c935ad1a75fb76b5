import TorrentX.Tracker.Addresses
import TorrentX.Tracker.Independence
import TorrentX.Tracker.Initialised
import TorrentX.Tracker.ReadOnly

/-!
# Tracker/Service — what any datagram does to the tables

The server takes whatever arrives, and its dispatch hands a datagram to a handler even when the
parser has rejected it.  Of the tables only one thing matters: a datagram that is long enough to be
an announce, and says it is one, makes the call its fields spell, whatever its event
(`Datagram.makes`); a shorter one that reaches the announce handler has no hash to name a torrent
(`Datagram.Hashless`); every other datagram only reads.

So a run of the server on any datagrams is a run of the database on the calls they make
(`exists_updates_of_run`), and what holds of the tables after calls holds after datagrams.
-/

namespace TorrentX

open Wire TorrentDataBase

/-! ## The call a datagram makes

Long enough, and an announce: that is all the dispatch needs, since the hash and the id are read
before the event is checked.  An event out of range goes to the table as it is, and moves nothing
there. -/

/-- The message has the size of an announce and says it is one.  The event is not looked at. -/
def Datagram.Announces (d : Datagram) : Prop :=
  announceRequestSize ≤ d.message.length ∧ actionAt d.message = .announce

instance (d : Datagram) : Decidable d.Announces := inferInstanceAs (Decidable (_ ∧ _))

/-- The call a datagram makes on the tables. -/
def Datagram.makes (d : Datagram) : Option Call := if d.Announces then some d.call else none

/-- The calls a log of datagrams makes. -/
def callsMade (log : List Datagram) : List Call := log.filterMap Datagram.makes

/-- The action the dispatch finds in the request: uninitialised memory when the header is short. -/
def Datagram.action (d : Datagram) : ActionType :=
  if d.message.length < connectRequestSize then d.uninit.action else actionAt d.message

/-- An announce to the dispatch, but too short to name a torrent. -/
def Datagram.Hashless (d : Datagram) : Prop :=
  d.message.length < announceRequestSize ∧ d.action = .announce

instance (d : Datagram) : Decidable d.Hashless := inferInstanceAs (Decidable (_ ∧ _))

/-- The number of peers the announce handler is asked for: it is read after the event is checked. -/
def Datagram.numWant (d : Datagram) : Int32 :=
  if Defined (eventAt d.message).code then decode Int32 (slice d.message 92 96)
  else d.uninit.numWant

@[simp] theorem callsMade_nil : callsMade [] = [] := rfl

/-- A datagram after a log adds the call it makes. -/
theorem callsMade_snoc (log : List Datagram) (d : Datagram) :
    callsMade (log ++ [d]) = callsMade log ++ d.makes.toList := by
  rw [callsMade, List.filterMap_append]
  cases h : d.makes with
  | none => rw [List.filterMap_cons_none h]; rfl
  | some c => rw [List.filterMap_cons_some h]; rfl

/-- Each datagram makes one call at most. -/
theorem length_callsMade_le (log : List Datagram) : (callsMade log).length ≤ log.length :=
  List.length_filterMap_le _ _

theorem makes_of_announces {d : Datagram} (h : d.Announces) : d.makes = some d.call := if_pos h

theorem makes_of_not_announces {d : Datagram} (h : ¬ d.Announces) : d.makes = none := if_neg h

/-! ## The kinds of datagrams -/

/-- The request makes the call of the datagram. -/
structure Request.Spells (request : Request) (d : Datagram) : Prop where
  action : request.action = .announce
  infoHashes : request.infoHashes = [d.infoHash]
  sender : request.sender = d.call.peer
  event : request.event = d.call.event
  numWant : request.numWant = d.numWant

/-- **What the parser makes of any datagram**: the request of an announce, complete or without a
hash, or a request for another handler or none. -/
theorem request_cases (d : Datagram) : ∃ request, d.parse = .ok request ∧
    (d.Announces ∧ request.Spells d ∨
      d.Hashless ∧ request.action = .announce ∧ request.infoHashes = [] ∨
      ¬ d.Announces ∧ ¬ d.Hashless ∧ request.action ≠ .announce) := by
  obtain ⟨m, ep, uninit⟩ := d
  have hsizes : connectRequestSize = 16 ∧ announceRequestSize = 98 := ⟨rfl, rfl⟩
  simp only [Datagram.Announces, Datagram.Hashless, Datagram.action, hsizes]
  cases hr : rejection m with
  | none =>
    obtain ⟨h16, -, hann, -⟩ := (rejection_eq_none_iff m).1 hr
    refine ⟨_, parse_accepted uninit m ep hr, ?_⟩
    rw [if_neg (Nat.not_lt.2 h16)]
    unfold acceptedRequest
    split_ifs with ha hs
    · obtain ⟨h98, hevent⟩ := hann ha
      exact .inl ⟨⟨h98, ha⟩, ha, rfl, rfl, rfl, (if_pos hevent).symm⟩
    · exact .inr (.inr ⟨fun h => ha h.2, fun h => ha h.2, ha⟩)
    · exact .inr (.inr ⟨fun h => ha h.2, fun h => ha h.2, ha⟩)
  | some r =>
    have happ := applies_of_rejection hr
    refine ⟨_, parse_rejected uninit m ep hr, ?_⟩
    cases r with
    | shortHeader =>
      have h16 : m.length < 16 := happ
      rw [if_pos h16]
      by_cases ha : uninit.action = .announce
      · exact .inr (.inl ⟨⟨by omega, ha⟩, ha, rfl⟩)
      · exact .inr (.inr ⟨fun h => by omega, fun h => ha h.2, ha⟩)
    | badAction =>
      obtain ⟨h16, hdef⟩ := happ
      have ha : actionAt m ≠ .announce := fun h => hdef (by rw [h]; decide)
      rw [if_neg (Nat.not_lt.2 h16)]
      exact .inr (.inr ⟨fun h => ha h.2, fun h => ha h.2, ha⟩)
    | shortAnnounce =>
      obtain ⟨h16, ha⟩ := happ
      have h98 : m.length < 98 := (length_of_rejection m).1 hr
      rw [if_neg (Nat.not_lt.2 h16)]
      exact .inr (.inl ⟨⟨h98, ha⟩, ha, rfl⟩)
    | badEvent =>
      obtain ⟨h16, ha, hevent⟩ := happ
      have h98 : 98 ≤ m.length := (length_of_rejection m).2 hr
      exact .inl ⟨⟨h98, ha⟩, ha, rfl, rfl, rfl, (if_neg hevent).symm⟩
    | incompleteHash =>
      obtain ⟨h16, ha⟩ := happ
      have hne : actionAt m ≠ .announce := by
        rw [ha]
        decide
      rw [if_neg (Nat.not_lt.2 h16)]
      exact .inr (.inr ⟨fun h => hne h.2, fun h => hne h.2, hne⟩)

/-! ## One step of the server -/

variable {requestInterval : Int32} {db db' : TorrentDataBase} {d : Datagram} {packet : Bytes}

/-- What the server did when it answered a datagram that makes a call. -/
theorem processRequest_of_announces (hd : d.Announces)
    (h : processRequest requestInterval db d = .ok (packet, db')) :
    ∃ request peers draws err t', d.parse = .ok request ∧ request.Spells d ∧
      selectPeers (db.torrent d.infoHash).allPeers
        (clampNumWant d.numWant (db.torrent d.infoHash).allPeers.size) db.random []
          = .ok (peers, draws) ∧
      (db.torrent d.infoHash).update d.call.peer d.call.event = .ok (err, t') ∧
      makeUDPResponse (announceResponse requestInterval (db.torrent d.infoHash) request peers err)
        = .ok packet ∧
      db' = { db.set d.infoHash t' with random := draws } := by
  obtain ⟨request, hparse, hcases⟩ := request_cases d
  have hspells : request.Spells d := by
    rcases hcases with ⟨-, hspells⟩ | ⟨hshort, -⟩ | ⟨hnot, -⟩
    · exact hspells
    · exact absurd hshort.1 (Nat.not_lt.2 hd.1)
    · exact absurd hd hnot
  obtain ⟨response, hdisp, hm⟩ := processRequest_ok hparse h
  rw [dispatch_of_announce requestInterval db hspells.action] at hdisp
  obtain ⟨infoHash, rest, peers, draws, err, t', hcons, hdrawn, hu, rfl, rfl⟩ :=
    handleAnnounce_ok hdisp
  obtain rfl : d.infoHash = infoHash := (List.cons.inj (hspells.infoHashes.symm.trans hcons)).1
  rw [hspells.numWant] at hdrawn
  rw [hspells.sender, hspells.event] at hu
  exact ⟨request, peers, draws, err, t', hparse, hspells, hdrawn, hu, hm, rfl⟩

/-- A datagram that makes no call is answered by reading only. -/
theorem alike_of_not_announces (hd : ¬ d.Announces)
    (h : processRequest requestInterval db d = .ok (packet, db')) : Alike db' db := by
  obtain ⟨request, hparse, hcases⟩ := request_cases d
  obtain ⟨response, hdisp, -⟩ := processRequest_ok hparse h
  rcases hcases with ⟨hann, -⟩ | ⟨-, haction, hnil⟩ | ⟨-, -, haction⟩
  · exact absurd hann hd
  · rw [dispatch_of_announce requestInterval db haction, handleAnnounce, hnil] at hdisp
    cases hdisp
  · exact alike_of_not_announce haction hdisp

/-- **One datagram updates the tables by the call it makes, if it makes one.** -/
theorem torrent_of_processRequest (h : processRequest requestInterval db d = .ok (packet, db')) :
    d.makes = none ∧ db'.torrent = db.torrent ∨
      d.makes = some d.call ∧ ∃ err u, updateStep db d.call = .ok (err, u) ∧
        db'.torrent = u.torrent := by
  by_cases hd : d.Announces
  · obtain ⟨request, peers, draws, err, t', -, -, -, hu, -, rfl⟩ :=
      processRequest_of_announces hd h
    refine .inr ⟨makes_of_announces hd, err, db.set d.infoHash t', ?_, rfl⟩
    change db.updatePeerList d.infoHash d.call.peer d.call.event = _
    rw [updatePeerList, bind_of_eq_ok hu]
    rfl
  · exact .inl ⟨makes_of_not_announces hd, (alike_of_not_announces hd h).torrent⟩

/-! ## Whole runs -/

section Runs

variable {random : List UInt32} {tr : List (Datagram × Bytes)}

/-- The update of one torrent does not look at the draws. -/
theorem updateStep_congr {db₁ db₂ u : TorrentDataBase} {c : Call} {err : Bytes}
    (h : db₁.torrent = db₂.torrent) (hs : updateStep db₁ c = .ok (err, u)) :
    ∃ v, updateStep db₂ c = .ok (err, v) ∧ v.torrent = u.torrent := by
  obtain ⟨⟨e, t'⟩, hu, hret⟩ := exists_of_bind_eq_ok hs
  cases hret
  rw [h] at hu
  refine ⟨db₂.set c.infoHash t', ?_, ?_⟩
  · rw [updateStep, updatePeerList, bind_of_eq_ok hu]
    rfl
  · rw [torrent_set, torrent_set, h]

/-- **A run of the server is a run of the database on the calls that the datagrams make**, with the
same torrents at its end. -/
theorem exists_updates_of_run (hr : Run (processRequest requestInterval) (.empty random) tr db) :
    ∃ ctr cdb, Run updateStep (.empty random) ctr cdb ∧
      callsIn ctr = callsMade (datagramsIn tr) ∧ db.torrent = cdb.torrent := by
  induction hr with
  | nil => exact ⟨[], _, .nil, rfl, rfl⟩
  | @snoc tr t u d packet _ hs ih =>
    obtain ⟨ctr, cdb, hc, hcalls, htorrent⟩ := ih
    rw [datagramsIn, List.map_append, List.map_singleton, callsMade_snoc]
    rcases torrent_of_processRequest hs with ⟨hnone, hsame⟩ | ⟨hsome, err, v, hv, hsame⟩
    · exact ⟨ctr, cdb, hc, by rw [hnone, Option.toList_none, List.append_nil, hcalls],
        hsame.trans htorrent⟩
    · obtain ⟨w, hw, heq⟩ := updateStep_congr htorrent hv
      refine ⟨ctr ++ [(d.call, err)], w, .snoc hc hw, ?_, hsame.trans heq.symm⟩
      rw [callsIn, List.map_append, hsome, Option.toList_some, ← hcalls]
      rfl

/-- After a run on any datagrams the tables are the open sessions of the calls. -/
theorem tracks_of_service (hr : Run (processRequest requestInterval) (.empty random) tr db) :
    Tracks (callsMade (datagramsIn tr)) db.torrent := by
  obtain ⟨ctr, cdb, hc, hcalls, htorrent⟩ := exists_updates_of_run hr
  rw [← hcalls, htorrent]
  exact tracks_of_run hc

/-- After a run on any datagrams a torrent is the sum of its accounts. -/
theorem sumsAccounts_of_service (hr : Run (processRequest requestInterval) (.empty random) tr db)
    (h : Hash) : SumsAccounts (callsMade (datagramsIn tr)) h (db.torrent h) := by
  obtain ⟨ctr, cdb, hc, hcalls, htorrent⟩ := exists_updates_of_run hr
  rw [← hcalls, htorrent]
  exact sumsAccounts_of_run hc h

/-- A table has at most one entry for each datagram. -/
theorem length_le_of_service (hr : Run (processRequest requestInterval) (.empty random) tr db)
    (h : Hash) : (db.torrent h).allPeers.elems.length ≤ tr.length := by
  obtain ⟨ctr, cdb, hc, hcalls, htorrent⟩ := exists_updates_of_run hr
  have hlen := length_callsMade_le (datagramsIn tr)
  rw [← hcalls, List.length_map, List.length_map] at hlen
  rw [htorrent]
  exact (length_le_of_run hc h).trans hlen

/-- The entries of a reachable table are in the order of their ids, one for each. -/
theorem increasing_of_service (hr : Run (processRequest requestInterval) (.empty random) tr db)
    (h : Hash) : (db.torrent h).allPeers.elems.Pairwise fun p q => p.peerId < q.peerId :=
  RankedSet.pairwise_lt ((tracks_of_service hr).length_withKey_le h)

end Runs

end TorrentX
