import TorrentX.Machinery.Ledger
import TorrentX.Tracker.Membership

/-!
# Tracker/Independence — a torrent is the sum of its peers' accounts

The account of a peer is computed from its own calls (`account`).  After every run the table of a
torrent holds the entries of its peers' accounts, and the counters are their sums, modulo their
width (`sumsAccounts_of_run`).  So the order in which the calls of different peers came does not
matter (`run_reorder`), nor does a call delivered twice (`updatePeerList_twice`).
-/

namespace TorrentX

open Wire TorrentDataBase

/-! ## The account of a log -/

/-- The account after a log of calls. -/
def account (log : List Call) : Account := log.foldl (fun a c => (a.step c).2) {}

/-- One call more is one step of the account. -/
theorem account_snoc (log : List Call) (c : Call) :
    account (log ++ [c]) = ((account log).step c).2 := List.foldl_concat ..

/-- The calls of a log with the errors that an account answers. -/
def answersFrom (a : Account) : List Call → List (Call × Bytes)
  | [] => []
  | c :: log => (c, (a.step c).1) :: answersFrom (a.step c).2 log

/-- The calls of a log with their errors. -/
def answers (log : List Call) : List (Call × Bytes) := answersFrom {} log

/-- One call more is answered by the account after the calls before. -/
theorem answers_snoc (log : List Call) (c : Call) :
    answers (log ++ [c]) = answers log ++ [(c, ((account log).step c).1)] := by
  have h : ∀ a, answersFrom a (log ++ [c]) = answersFrom a log
      ++ [(c, ((log.foldl (fun a c => (a.step c).2) a).step c).1)] := by
    induction log with
    | nil => exact fun _ => rfl
    | cons d log ih => exact fun a => congrArg ((d, (a.step d).1) :: ·) (ih (a.step d).2)
  exact h {}

/-! ## A torrent is the sum of its accounts

Entries are looked up key by key, and the counters are sums in which the order of the peers does not
matter.  Neither says in which order the calls of different peers came. -/

/-- The calls on one torrent. -/
def callsOn (calls : List Call) (infoHash : Hash) : List Call :=
  calls.filter fun c => c.infoHash = infoHash

abbrev Call.peerId (c : Call) : Hash := c.peer.peerId

/-- The calls of one peer id are those under its key. -/
theorem under_callsOn (calls : List Call) (h pid : Hash) :
    Ledger.under Call.peerId (callsOn calls h) pid = callsOf calls h pid := by
  rw [Ledger.under, callsOn, List.filter_filter, callsOf]
  refine List.filter_congr fun c _ => Bool.eq_iff_iff.2 ?_
  simp [and_comm]

/-- The table holds the entries of the accounts, and the counters are the sums of theirs. -/
structure SumsAccounts (calls : List Call) (h : Hash) (t : Torrent) : Prop where
  entries : ∀ pid, t.allPeers.withKey pid = (account (callsOf calls h pid)).entry.toList
  leechers : t.leechers
    = Ledger.total Call.peerId (fun log => (account log).leechers) (callsOn calls h)
  seeders : t.seeders
    = Ledger.total Call.peerId (fun log => (account log).seeders) (callsOn calls h)
  downloads : t.downloads
    = Ledger.total Call.peerId (fun log => (account log).downloads) (callsOn calls h)

/-- One call on a torrent moves its totals as it moves the account of its peer. -/
theorem total_callsOn_snoc (f : List Call → UInt64) (hf : f [] = 0) (calls : List Call) (c : Call) :
    Ledger.total Call.peerId f (callsOn (calls ++ [c]) c.infoHash)
        + f (callsOf calls c.infoHash c.peer.peerId)
      = Ledger.total Call.peerId f (callsOn calls c.infoHash)
        + f (callsOf calls c.infoHash c.peer.peerId ++ [c]) := by
  have happend : callsOn (calls ++ [c]) c.infoHash = callsOn calls c.infoHash ++ [c] := by
    rw [callsOn, List.filter_append, List.filter_cons_of_pos (by simp), List.filter_nil]
    rfl
  rw [happend, ← under_callsOn]
  exact Ledger.total_snoc hf _ c

/-- A counter that moves as the account of the calling peer stays the total of the accounts. -/
theorem counter_of_moves {g : Account → UInt64} (hg : g {} = 0) {calls : List Call} {c : Call}
    {n n' : UInt64} (hn : n = Ledger.total Call.peerId (fun log => g (account log))
      (callsOn calls c.infoHash))
    (hmove : n' + g (account (callsOf calls c.infoHash c.peer.peerId))
      = n + g ((account (callsOf calls c.infoHash c.peer.peerId)).step c).2) :
    n' = Ledger.total Call.peerId (fun log => g (account log))
      (callsOn (calls ++ [c]) c.infoHash) := by
  have htotal := total_callsOn_snoc (fun log => g (account log)) hg calls c
  rw [account_snoc, ← hn, ← hmove] at htotal
  exact (add_right_cancel htotal).symm

/-- Without calls a torrent is empty. -/
theorem sumsAccounts_nil (h : Hash) : SumsAccounts [] h {} := ⟨fun _ => rfl, rfl, rfl, rfl⟩

/-- A call on another torrent is none of this one's. -/
theorem SumsAccounts.of_ne {calls : List Call} {h : Hash} {t : Torrent}
    (ht : SumsAccounts calls h t) {c : Call} (hne : c.infoHash ≠ h) :
    SumsAccounts (calls ++ [c]) h t := by
  have hon : callsOn (calls ++ [c]) h = callsOn calls h := by
    rw [callsOn, List.filter_append, List.filter_cons_of_neg (by simpa using hne), List.filter_nil,
      List.append_nil]
    rfl
  refine ⟨fun pid => ?_, ?_, ?_, ?_⟩
  · rw [callsOf_snoc_of_ne calls fun hc => hne hc.1]
    exact ht.entries pid
  · rw [hon]
    exact ht.leechers
  · rw [hon]
    exact ht.seeders
  · rw [hon]
    exact ht.downloads

/-- **One update keeps a torrent the sum of its accounts.** -/
theorem SumsAccounts.update {calls : List Call} {t t' : Torrent} {c : Call} {err : Bytes}
    (ht : SumsAccounts calls c.infoHash t) (hu : t.Updates c.peer c.event err t') :
    SumsAccounts (calls ++ [c]) c.infoHash t' := by
  obtain ⟨-, hentry, hleechers, hseeders, hdownloads⟩ := hu.moves (ht.entries c.peer.peerId)
  refine ⟨fun pid => ?_, ?_, ?_, ?_⟩
  · by_cases hp : c.peer.peerId = pid
    · subst hp
      rw [callsOf_snoc_self, account_snoc]
      exact hentry
    · rw [callsOf_snoc_of_ne calls fun hc => hp hc.2]
      refine eq_toList_of_perm ?_
      rw [← ht.entries pid]
      exact hu.withKey_perm_of_ne hp
  · exact counter_of_moves rfl ht.leechers hleechers
  · exact counter_of_moves rfl ht.seeders hseeders
  · exact counter_of_moves rfl ht.downloads hdownloads

/-! ## Whole runs -/

/-- The calls of one peer id on one torrent, with the errors they returned. -/
def exchangesOf (tr : List (Call × Bytes)) (infoHash peerId : Hash) : List (Call × Bytes) :=
  tr.filter fun x => x.1.infoHash = infoHash ∧ x.1.peer.peerId = peerId

section Runs

variable {random random' : List UInt32} {tr tr' : List (Call × Bytes)} {db db' : TorrentDataBase}

/-- **After every run a torrent is the sum of its accounts.** -/
theorem sumsAccounts_of_run (hr : Run updateStep (empty random) tr db) (h : Hash) :
    SumsAccounts (callsIn tr) h (db.torrent h) := by
  induction hr with
  | nil => exact sumsAccounts_nil h
  | @snoc tr t u c err _ hs ih =>
    obtain ⟨t', hu, rfl⟩ := updates_of_updatePeerList hs
    rw [callsIn, List.map_append]
    by_cases hh : c.infoHash = h
    · subst hh
      rw [torrent_set_self]
      exact ih.update hu
    · rw [torrent_set_of_ne t (Ne.symm hh)]
      exact ih.of_ne hh

/-- **Every call is answered by the account of its peer.** -/
theorem exchangesOf_eq_answers (hr : Run updateStep (empty random) tr db) (h pid : Hash) :
    exchangesOf tr h pid = answers (callsOf (callsIn tr) h pid) := by
  induction hr with
  | nil => rfl
  | @snoc tr t u c err hr hs ih =>
    obtain ⟨t', hu, rfl⟩ := updates_of_updatePeerList hs
    rw [callsIn, List.map_append, exchangesOf, List.filter_append]
    by_cases hp : c.infoHash = h ∧ c.peer.peerId = pid
    · obtain ⟨rfl, rfl⟩ := hp
      have hanswer := (hu.moves ((sumsAccounts_of_run hr c.infoHash).entries c.peer.peerId)).1
      rw [List.filter_cons_of_pos (by simp), List.filter_nil]
      change exchangesOf tr _ _ ++ _ = answers (callsOf (callsIn tr ++ [c]) _ _)
      rw [callsOf_snoc_self, answers_snoc, ih, hanswer]
    · rw [List.filter_cons_of_neg (by simpa using hp), List.filter_nil, List.append_nil]
      change exchangesOf tr _ _ = answers (callsOf (callsIn tr ++ [c]) _ _)
      rw [callsOf_snoc_of_ne _ hp, ih]

/-- Torrents that are sums of the same accounts are one. -/
theorem SumsAccounts.eq {calls calls' : List Call} {h : Hash} {t t' : Torrent}
    (ht : SumsAccounts calls h t) (ht' : SumsAccounts calls' h t')
    (hsame : ∀ pid, account (callsOf calls h pid) = account (callsOf calls' h pid)) : t = t' := by
  have htotal : ∀ g : Account → UInt64, g {} = 0 →
      Ledger.total Call.peerId (fun log => g (account log)) (callsOn calls h)
        = Ledger.total Call.peerId (fun log => g (account log)) (callsOn calls' h) := by
    intro g hg
    refine Ledger.total_congr hg fun pid => ?_
    rw [under_callsOn, under_callsOn, hsame]
  have hpeers : t.allPeers = t'.allPeers := by
    refine RankedSet.ext_withKey (fun pid => ?_) fun pid => ?_
    · rw [ht.entries, ht'.entries, hsame]
    · rw [ht.entries]
      cases (account (callsOf calls h pid)).entry <;> simp
  have hleechers : t.leechers = t'.leechers := by
    rw [ht.leechers, ht'.leechers, htotal Account.leechers rfl]
  have hseeders : t.seeders = t'.seeders := by
    rw [ht.seeders, ht'.seeders, htotal Account.seeders rfl]
  have hdownloads : t.downloads = t'.downloads := by
    rw [ht.downloads, ht'.downloads, htotal Account.downloads rfl]
  cases t
  cases t'
  rw [Torrent.mk.injEq]
  exact ⟨hpeers, hleechers, hseeders, hdownloads⟩

/-- **Independent announces may be reordered.**  Two runs from the empty database that make the same
calls for each peer of each torrent, in the same order for that peer, end with the same torrents,
and each call returns the same error in both. -/
theorem run_reorder (hr : Run updateStep (empty random) tr db)
    (hr' : Run updateStep (empty random') tr' db')
    (hsame : ∀ h pid, callsOf (callsIn tr) h pid = callsOf (callsIn tr') h pid) :
    (∀ h, db.torrent h = db'.torrent h) ∧
    ∀ h pid, exchangesOf tr h pid = exchangesOf tr' h pid := by
  refine ⟨fun h => ?_, fun h pid => ?_⟩
  · refine (sumsAccounts_of_run hr h).eq (sumsAccounts_of_run hr' h) fun pid => ?_
    rw [hsame]
  · rw [exchangesOf_eq_answers hr, exchangesOf_eq_answers hr', hsame]

end Runs

/-- A second peer that starts with bytes left. -/
def leechStarts : Call := { seedStarts with peer := { seed with peerId := .fill 3, left := 5 } }

/-- The starts of two peers, in both orders. -/
theorem run_reorder_starts : ∃ db db',
    Run updateStep (empty []) [(seedStarts, []), (leechStarts, [])] db ∧
    Run updateStep (empty []) [(leechStarts, []), (seedStarts, [])] db' ∧
    db.torrent seedStarts.infoHash = db'.torrent seedStarts.infoHash := by
  have hr : Run updateStep (empty []) [(seedStarts, []), (leechStarts, [])] _ :=
    .snoc (.snoc .nil rfl) rfl
  have hr' : Run updateStep (empty []) [(leechStarts, []), (seedStarts, [])] _ :=
    .snoc (.snoc .nil rfl) rfl
  have hne : seedStarts.peer.peerId ≠ leechStarts.peer.peerId := by decide
  refine ⟨_, _, hr, hr', (run_reorder hr hr' fun h pid => ?_).1 _⟩
  by_cases hseed : seedStarts.peer.peerId = pid
  · have hleech : leechStarts.peer.peerId ≠ pid := fun h => hne (hseed.trans h.symm)
    simp [callsIn, callsOf, List.filter_cons, hseed, hleech]
  · simp [callsIn, callsOf, List.filter_cons, hseed]

/-! ## Duplicate delivery

A datagram that arrives twice makes its call twice in a row, if nothing of that peer came between.
An account stays where the first call left it, and so does the sum. -/

section Duplicates

variable {random : List UInt32} {tr : List (Call × Bytes)} {db db' : TorrentDataBase} {h : Hash}
  {peer : Peer} {event : EventType} {err : Bytes}

/-- A call made twice leaves every account where the first call left it. -/
theorem account_callsOf_twice (calls : List Call) (c : Call) (h pid : Hash) :
    account (callsOf (calls ++ [c] ++ [c]) h pid) = account (callsOf (calls ++ [c]) h pid) := by
  by_cases hc : c.infoHash = h ∧ c.peer.peerId = pid
  · obtain ⟨rfl, rfl⟩ := hc
    rw [callsOf_snoc_self, callsOf_snoc_self, account_snoc, account_snoc, Account.step_step]
  · rw [callsOf_snoc_of_ne _ hc]

/-- **Duplicate delivery is harmless.**  In every reachable database, an update that returned leaves
a database that the same update leaves as it is. -/
theorem updatePeerList_twice (hr : Run updateStep (empty random) tr db)
    (hu : db.updatePeerList h peer event = .ok (err, db')) :
    ∃ err', db'.updatePeerList h peer event = .ok (err', db') := by
  obtain ⟨t', hupdates, rfl⟩ := updates_of_updatePeerList hu
  have honce : SumsAccounts (callsIn tr ++ [⟨h, peer, event⟩]) h t' :=
    (sumsAccounts_of_run hr h).update (c := ⟨h, peer, event⟩) hupdates
  have hjoin : t'.allPeers.find? peer.peerId = none → event ≠ .started := by
    intro hnone hs
    have hentry := honce.entries peer.peerId
    rw [callsOf_snoc_self _ ⟨h, peer, event⟩, account_snoc] at hentry
    rw [RankedSet.find?_eq_head?, hentry, Option.head?_toList] at hnone
    exact Account.entry_step_of_started _ hs hnone
  obtain ⟨err', t'', hagain⟩ := Torrent.exists_update_of_not_joining t' peer event hjoin
  have htwice := honce.update (c := ⟨h, peer, event⟩) (Torrent.updates_of_update hagain)
  obtain rfl : t'' = t' := htwice.eq honce (account_callsOf_twice _ _ h)
  refine ⟨err', ?_⟩
  rw [updatePeerList, torrent_set_self, bind_of_eq_ok hagain]
  change Except.ok (err', (db.set h t'').set h t'') = _
  rw [set_set]

/-- Two peers are registered, one of which completes, and its completion is delivered twice. -/
theorem updatePeerList_twice_seed : ∃ before db err,
    Run updateStep (empty [])
      [({ seedStarts with peer := { seed with left := 5 } }, []), (leechStarts, [])] before ∧
    before.updatePeerList seedStarts.infoHash seed .completed = .ok ([], db) ∧
    (db.torrent seedStarts.infoHash).downloads = 1 ∧
    db.updatePeerList seedStarts.infoHash seed .completed = .ok (err, db) := by
  have hr : Run updateStep (empty [])
      [({ seedStarts with peer := { seed with left := 5 } }, []), (leechStarts, [])] _ :=
    .snoc (.snoc .nil rfl) rfl
  have hu : hr.last.updatePeerList seedStarts.infoHash seed .completed = .ok ([], _) := rfl
  obtain ⟨err, hagain⟩ := updatePeerList_twice hr hu
  exact ⟨_, _, err, hr, hu, rfl, hagain⟩

end Duplicates

end TorrentX
