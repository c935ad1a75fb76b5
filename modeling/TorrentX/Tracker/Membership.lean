import TorrentX.Machinery.Run
import TorrentX.Machinery.SessionLog
import TorrentX.Tracker.Account

/-!
# Tracker/Membership — the peer table is the membership map of the calls

What the tracker should know about a peer of a torrent is its open session in the log of the calls
for that pair: the first `STARTED` after the last `STOPPED`, and whether a `COMPLETED` with nothing
left came after it (`membership`).  `Tracks` says that the tables hold exactly the entries of the
open sessions; one update keeps it (`tracks_update`), so every run does (`tracks_of_run`).
-/

namespace TorrentX

open TorrentDataBase

/-! ## Calls and their sessions -/

/-- One call, as a step of the database. -/
def updateStep (db : TorrentDataBase) (c : Call) : Except Fault (Bytes × TorrentDataBase) :=
  db.updatePeerList c.infoHash c.peer c.event

/-- A `STARTED` opens a session, a `STOPPED` closes it, a `COMPLETED` with nothing left finishes
it. -/
def sessions : SessionLog Call where
  joins c := c.event = .started
  leaves c := c.event = .stopped
  finishes c := c.event = .completed ∧ c.peer.left = 0

/-- The calls of one peer id on one torrent. -/
def callsOf (calls : List Call) (infoHash peerId : Hash) : List Call :=
  calls.filter fun c => c.infoHash = infoHash ∧ c.peer.peerId = peerId

/-- **The abstract membership map**: the call that opened the session of a peer on a torrent, and
whether the session is finished. -/
def membership (calls : List Call) (infoHash peerId : Hash) : Option (Call × Bool) :=
  sessions.session (callsOf calls infoHash peerId)

/-- A call is the last of the calls of its own peer. -/
theorem callsOf_snoc_self (calls : List Call) (c : Call) :
    callsOf (calls ++ [c]) c.infoHash c.peer.peerId
      = callsOf calls c.infoHash c.peer.peerId ++ [c] := by
  rw [callsOf, List.filter_append, List.filter_cons_of_pos (by simp), List.filter_nil]
  rfl

/-- A call is none of the calls of another peer. -/
theorem callsOf_snoc_of_ne (calls : List Call) {c : Call} {h pid : Hash}
    (hne : ¬ (c.infoHash = h ∧ c.peer.peerId = pid)) :
    callsOf (calls ++ [c]) h pid = callsOf calls h pid := by
  rw [callsOf, List.filter_append, List.filter_cons_of_neg (by simpa using hne), List.filter_nil,
    List.append_nil]
  rfl

/-- A call takes the session of its peer one step on. -/
theorem membership_snoc_self (calls : List Call) (c : Call) :
    membership (calls ++ [c]) c.infoHash c.peer.peerId
      = sessions.next (membership calls c.infoHash c.peer.peerId) c := by
  rw [membership, callsOf_snoc_self]
  exact sessions.session_snoc _ _

/-- A call leaves the sessions of other peers as they are. -/
theorem membership_snoc_of_ne (calls : List Call) {c : Call} {h pid : Hash}
    (hne : ¬ (c.infoHash = h ∧ c.peer.peerId = pid)) :
    membership (calls ++ [c]) h pid = membership calls h pid := by
  rw [membership, callsOf_snoc_of_ne calls hne]
  rfl

/-! ## The entries of the open sessions

A table is compared key by key with the sessions: under each key it has the entry of the open
session, or nothing.  An update changes one key, and so does a call. -/

/-- The entry a table keeps for a session: the peer of the joining call, flagged once finished. -/
def storedEntry (s : Call × Bool) : Peer :=
  { s.1.peer with completed := s.1.peer.completed || s.2 }

@[simp] theorem completed_storedEntry (s : Call × Bool) :
    (storedEntry s).completed = (s.1.peer.completed || s.2) := rfl

/-- The tables hold exactly one entry for each open session, and no other. -/
def Tracks (calls : List Call) (torrents : Hash → Torrent) : Prop :=
  ∀ h pid, (torrents h).allPeers.withKey pid = ((membership calls h pid).map storedEntry).toList

/-- The entry of a session whose joining call carried no flag. -/
def memberEntry (s : Call × Bool) : Peer := { s.1.peer with completed := s.2 }

/-- A permutation of at most one value is that value. -/
theorem eq_toList_of_perm {α : Type*} {l : List α} {o : Option α} (h : l.Perm o.toList) :
    l = o.toList := by
  cases o with
  | none => exact h.eq_nil
  | some x => exact List.perm_singleton.1 h

section Step

variable {calls : List Call} {torrents : Hash → Torrent} {h : Hash} {peer : Peer}
  {event : EventType} {err : Bytes} {t' : Torrent}

/-- What is found is the entry of the open session. -/
theorem Tracks.find? (ht : Tracks calls torrents) (h pid : Hash) :
    (torrents h).allPeers.find? pid = (membership calls h pid).map storedEntry := by
  rw [RankedSet.find?_eq_head?, ht h pid, Option.head?_toList]

/-- **No table holds two entries of one peer id.** -/
theorem Tracks.length_withKey_le (ht : Tracks calls torrents) (h pid : Hash) :
    ((torrents h).allPeers.withKey pid).length ≤ 1 := by
  rw [ht h pid]
  cases (membership calls h pid).map storedEntry with
  | none => exact Nat.zero_le 1
  | some _ => exact le_rfl

/-- Erasing the entry of an open session leaves none with its key. -/
theorem Tracks.withKey_erase (ht : Tracks calls torrents) {old : Peer}
    (hf : (torrents h).allPeers.find? peer.peerId = some old) :
    ((torrents h).allPeers.erase peer.peerId).withKey peer.peerId = [] := by
  refine RankedSet.withKey_erase_of_singleton (x := old) ?_
  rw [ht h peer.peerId, ← ht.find? h peer.peerId, hf, Option.toList_some]

/-- **A call turns the entry of a session into that of the session after it.** -/
theorem Account.entry_step {a : Account} {s : Option (Call × Bool)}
    (ha : a.entry = s.map storedEntry) (c : Call) :
    (a.step c).2.entry = (sessions.next s c).map storedEntry := by
  have hne : EventType.completed ≠ .started ∧ EventType.completed ≠ .stopped ∧
      EventType.started ≠ .stopped := by decide
  cases s with
  | none =>
    rw [Option.map_none] at ha
    by_cases hs : c.event = .started
    · simp [step, SessionLog.next, sessions, ha, hs, hne, storedEntry]
    · simp [step, SessionLog.next, sessions, ha, hs]
  | some s =>
    rw [Option.map_some] at ha
    by_cases hc : c.event = .completed
    · by_cases hleft : c.peer.left = 0
      · cases hj : s.1.peer.completed <;> cases hs : s.2 <;>
          simp [step, SessionLog.next, sessions, ha, hc, hleft, hne, storedEntry, hj, hs]
      · simp [step, SessionLog.next, sessions, ha, hc, hleft, hne]
    · by_cases hp : c.event = .stopped
      · simp [step, SessionLog.next, sessions, ha, hp, hne.2.1.symm]
      · simp [step, SessionLog.next, sessions, ha, hc, hp]

/-- **An update turns the entry of its own key into that of the session after it.** -/
theorem Tracks.withKey_update (ht : Tracks calls torrents)
    (hu : (torrents h).Updates peer event err t') :
    t'.allPeers.withKey peer.peerId
      = ((sessions.next (membership calls h peer.peerId) ⟨h, peer, event⟩).map
          storedEntry).toList := by
  obtain ⟨-, hentry, -⟩ := hu.moves (c := ⟨h, peer, event⟩)
    (a := { entry := (membership calls h peer.peerId).map storedEntry }) (ht h peer.peerId)
  rw [hentry, Account.entry_step rfl]

/-- **One update keeps the tables on the sessions of the calls.** -/
theorem tracks_update (ht : Tracks calls torrents) (hu : (torrents h).Updates peer event err t') :
    Tracks (calls ++ [⟨h, peer, event⟩]) (Function.update torrents h t') := by
  intro h' pid
  by_cases hh : h' = h
  · subst hh
    rw [Function.update_self]
    by_cases hp : peer.peerId = pid
    · subst hp
      rw [membership_snoc_self calls ⟨h', peer, event⟩]
      exact ht.withKey_update hu
    · rw [membership_snoc_of_ne calls (by simp [hp])]
      refine eq_toList_of_perm ?_
      rw [← ht h' pid]
      exact hu.withKey_perm_of_ne hp
  · rw [Function.update_of_ne hh, membership_snoc_of_ne calls (by simp [Ne.symm hh])]
    exact ht h' pid

end Step

/-! ## Whole runs -/

variable {random : List UInt32} {tr : List (Call × Bytes)} {db : TorrentDataBase}

/-- The calls of a trace. -/
abbrev callsIn (tr : List (Call × Bytes)) : List Call := tr.map Prod.fst

/-- No calls, no sessions, no entries. -/
theorem tracks_empty (random : List UInt32) : Tracks [] (empty random).torrent := fun _ _ => rfl

/-- **After every run from an empty database the tables are the open sessions.** -/
theorem tracks_of_run (hr : Run updateStep (empty random) tr db) :
    Tracks (callsIn tr) db.torrent := by
  induction hr with
  | nil => exact tracks_empty random
  | @snoc tr t u c err _ hs ih =>
    obtain ⟨t', hu, rfl⟩ := updates_of_updatePeerList hs
    rw [callsIn, List.map_append, torrent_set]
    exact tracks_update ih hu

/-- A table has at most one entry for each call. -/
theorem length_le_of_run (hr : Run updateStep (empty random) tr db) (h : Hash) :
    (db.torrent h).allPeers.elems.length ≤ tr.length := by
  induction hr with
  | nil => exact le_rfl
  | @snoc tr t u c err _ hs ih =>
    obtain ⟨t', hu, rfl⟩ := updates_of_updatePeerList hs
    rw [List.length_append, List.length_singleton]
    by_cases hh : h = c.infoHash
    · subst hh
      rw [torrent_set_self]
      exact hu.length_le.trans (Nat.succ_le_succ ih)
    · rw [torrent_set_of_ne t hh]
      exact ih.trans (Nat.le_succ _)

/-- **Every sequence of calls runs**, as long as there are fewer than a container can hold. -/
theorem exists_run (random : List UInt32) {calls : List Call}
    (hcalls : calls.length ≤ RankedSet.maxSize) :
    ∃ tr db, Run updateStep (empty random) tr db ∧ callsIn tr = calls := by
  induction calls using List.reverseRecOn with
  | nil => exact ⟨[], _, .nil, rfl⟩
  | append_singleton calls c ih =>
    rw [List.length_append, List.length_singleton] at hcalls
    obtain ⟨tr, t, hr, htr⟩ := ih (by omega)
    have hlen : tr.length = calls.length := by rw [← htr, callsIn, List.length_map]
    have hroom := length_le_of_run hr c.infoHash
    obtain ⟨err, u, hs⟩ := t.exists_updatePeerList c.infoHash c.peer c.event (by omega)
    refine ⟨tr ++ [(c, err)], u, .snoc hr hs, ?_⟩
    rw [callsIn, List.map_append, ← htr]
    rfl

/-! ## The counters count the table

The two counters add up to the number of entries even where each for itself is wrong, since every
update that takes an entry out, or puts one in, moves one of them by one. -/

/-- **An update moves the two counters together with the size of the table**, modulo the width of
the counters. -/
theorem Torrent.Updates.counters_add {t t' : Torrent} {peer : Peer} {event : EventType}
    {err : Bytes} (hu : t.Updates peer event err t')
    (ht : (t.leechers.toNat + t.seeders.toNat) % 2 ^ 64 = t.allPeers.elems.length) :
    (t'.leechers.toNat + t'.seeders.toNat) % 2 ^ 64 = t'.allPeers.elems.length := by
  have hl := t.leechers.toNat_lt
  have hs := t.seeders.toNat_lt
  have hlen := t'.allPeers.length_lt
  cases hu with
  | completes old allPeers _ hf _ _ hi =>
    have he := (RankedSet.elems_erase_perm hf).length_eq
    have ha := (RankedSet.elems_insert_perm hi).length_eq
    simp only [List.length_cons, UInt64.toNat_add, UInt64.toNat_sub, UInt64.toNat_one] at *
    omega
  | joins allPeers _ _ hi =>
    have ha := (RankedSet.elems_insert_perm hi).length_eq
    simp only [List.length_cons] at *
    split <;> simp only [UInt64.toNat_add, UInt64.toNat_one] <;> omega
  | leaves old _ hf =>
    have he := (RankedSet.elems_erase_perm hf).length_eq
    simp only [List.length_cons] at *
    split <;> simp only [UInt64.toNat_sub, UInt64.toNat_one] <;> omega
  | _ => exact ht

/-- A call that returns an error has changed no torrent. -/
theorem Torrent.Updates.eq_of_error {t t' : Torrent} {peer : Peer} {event : EventType}
    {err : Bytes} (hu : t.Updates peer event err t') (he : err ≠ []) : t' = t := by
  cases hu with
  | refused => rfl
  | _ => exact absurd rfl he

/-- After every run the two counters add up to the size of the table, modulo their width. -/
theorem counters_add_of_run (hr : Run updateStep (empty random) tr db) (h : Hash) :
    ((db.torrent h).leechers.toNat + (db.torrent h).seeders.toNat) % 2 ^ 64
      = (db.torrent h).allPeers.elems.length := by
  induction hr with
  | nil => rfl
  | @snoc tr t u c err _ hs ih =>
    obtain ⟨t', hu, rfl⟩ := updates_of_updatePeerList hs
    by_cases hh : h = c.infoHash
    · subst hh
      rw [torrent_set_self]
      exact hu.counters_add ih
    · rw [torrent_set_of_ne t hh]
      exact ih

/-- **The peer table refines the membership map.**  After every run of calls whose peers carry no
flag, a table has for each peer id exactly the entry of its open session; no call that returned an
error changed a torrent; and the two counters add up to the size of the table, modulo their
width. -/
theorem peerTable_refines_membership (hr : Run updateStep (empty random) tr db)
    (hflag : ∀ c ∈ callsIn tr, c.peer.completed = false) (h : Hash) :
    (∀ pid, (db.torrent h).allPeers.withKey pid
      = ((membership (callsIn tr) h pid).map memberEntry).toList) ∧
    EveryStep updateStep (empty random)
      (fun _ t x u => x.2 ≠ [] → ∀ h', u.torrent h' = t.torrent h') tr ∧
    ((db.torrent h).leechers.toNat + (db.torrent h).seeders.toNat) % 2 ^ 64
      = (db.torrent h).allPeers.elems.length := by
  refine ⟨fun pid => ?_, fun pre x post t u _ _ hs herr h' => ?_, counters_add_of_run hr h⟩
  · rw [tracks_of_run hr h pid]
    cases hm : membership (callsIn tr) h pid with
    | none => rfl
    | some s =>
      have hmem : s.1 ∈ callsOf (callsIn tr) h pid := sessions.mem_of_session hm
      have hs : s.1.peer.completed = false := hflag _ (List.mem_of_mem_filter hmem)
      simp [storedEntry, memberEntry, hs]
  · obtain ⟨t', hu, rfl⟩ := updates_of_updatePeerList hs
    rw [hu.eq_of_error herr]
    exact congrFun (torrent_touch t x.1.infoHash) h'

/-- A peer with nothing left, and the calls that start and stop it. -/
def seed : Peer := { peerId := .fill 2 }

def seedStarts : Call := ⟨.fill 1, seed, .started⟩

def seedStops : Call := { seedStarts with event := .stopped }

/-- A peer that starts with bytes left and completes: its entry is that of its start, flagged. -/
theorem peerTable_refines_membership_leech : ∃ db,
    Run updateStep (empty [])
      [({ seedStarts with peer := { seed with left := 5 } }, []),
        ({ seedStarts with event := .completed }, [])] db ∧
    (db.torrent seedStarts.infoHash).allPeers.withKey seed.peerId
      = [{ seed with left := 5, completed := true }] := by
  have hr : Run updateStep (empty [])
      [({ seedStarts with peer := { seed with left := 5 } }, []),
        ({ seedStarts with event := .completed }, [])] _ := .snoc (.snoc .nil rfl) rfl
  exact ⟨_, hr, (peerTable_refines_membership hr (by decide) seedStarts.infoHash).1 seed.peerId⟩

end TorrentX
