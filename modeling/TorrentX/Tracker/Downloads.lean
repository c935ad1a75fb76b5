import TorrentX.Tracker.Independence

/-!
# Tracker/Downloads — the downloads of a torrent are its finished sessions

The tracker remembers a completion by a flag on an entry that it erases when the peer stops, so the
count cannot be read off the table.  It is read off the calls: the part of one peer is the number of
its sessions with a completion that had nothing left (`downloads_account`), and the part of all
peers is the sum (`downloads_count_sessions`).
-/

namespace TorrentX

open Wire TorrentDataBase

/-- The number of sessions on a torrent, of all peer ids, with a completion that had nothing
left. -/
def finishedSessions (calls : List Call) (infoHash : Hash) : ℕ :=
  Ledger.total Call.peerId sessions.finished (callsOn calls infoHash)

/-! ## The downloads of one peer

An account and the session of the same calls go side by side: the entry of the one is that of the
other.  A completion counts if it finds the session unfinished, and it is the flag of the entry that
tells. -/

/-- The entry of an account is that of the open session of its calls. -/
theorem entry_account (log : List Call) :
    (account log).entry = (sessions.session log).map storedEntry := by
  induction log using List.reverseRecOn with
  | nil => rfl
  | append_singleton log c ih =>
    rw [account_snoc, sessions.session_snoc]
    exact Account.entry_step ih c

/-- **A call counts a download when it finishes an unfinished session.** -/
theorem Account.downloads_step {a : Account} {s : Option (Call × Bool)}
    (ha : a.entry = s.map storedEntry) (hflag : ∀ x ∈ s, x.1.peer.completed = false) (c : Call) :
    (a.step c).2.downloads
      = a.downloads + UInt64.ofNat (if s.any (fun x => !x.2) && sessions.finishes c then 1 else 0)
      := by
  have hne : EventType.completed ≠ .started ∧ EventType.completed ≠ .stopped := by decide
  cases s with
  | none =>
    rw [Option.map_none] at ha
    by_cases hs : c.event = .started <;> simp [step, ha, hs]
  | some s =>
    rw [Option.map_some] at ha
    have hj := hflag s rfl
    by_cases hc : c.event = .completed
    · by_cases hleft : c.peer.left = 0
      · cases hs : s.2 <;> simp [step, sessions, ha, hc, hleft, hj, hs]
      · simp [step, sessions, ha, hc, hleft]
    · by_cases hp : c.event = .stopped
      · simp [step, sessions, ha, hp, hne.2.symm]
      · simp [step, sessions, ha, hc, hp]

/-- **The downloads of one peer are its finished sessions.** -/
theorem downloads_account {log : List Call} (hflag : ∀ c ∈ log, c.peer.completed = false) :
    (account log).downloads = UInt64.ofNat (sessions.finished log) := by
  have hjoins : ∀ c, sessions.joins c → ¬ sessions.finishes c := by
    intro c hj hf
    simp only [sessions, decide_eq_true_eq] at hj hf
    exact absurd (hj.symm.trans hf.1) (by decide)
  have hleaves : ∀ c, sessions.leaves c → ¬ sessions.finishes c := by
    intro c hl hf
    simp only [sessions, decide_eq_true_eq] at hl hf
    exact absurd (hl.symm.trans hf.1) (by decide)
  induction log using List.reverseRecOn with
  | nil => rfl
  | append_singleton log c ih =>
    rw [List.forall_mem_append] at hflag
    have hopen : ∀ x ∈ sessions.session log, x.1.peer.completed = false := fun x hx =>
      hflag.1 x.1 (sessions.mem_of_session hx)
    rw [account_snoc, Account.downloads_step (entry_account log) hopen, ih hflag.1,
      sessions.finished_snoc hjoins hleaves, UInt64.ofNat_add]

/-! ## The downloads of a torrent -/

/-- A number as a counter holds it. -/
def toCounter : ℕ →+ UInt64 := ⟨⟨UInt64.ofNat, rfl⟩, UInt64.ofNat_add⟩

/-- The calls that count no download: a stop, and a completion that has bytes left, or whose peer
has no session open, or one that is finished already. -/
def CountsNothing (calls : List Call) (c : Call) : Prop :=
  c.event = .stopped ∨ c.event = .completed ∧
    (c.peer.left ≠ 0 ∨ ∀ j, membership calls c.infoHash c.peer.peerId ≠ some (j, false))

/-- Such a call leaves the downloads of every torrent. -/
theorem downloads_of_countsNothing {calls : List Call} {t' : Torrent} {torrents : Hash → Torrent}
    {c : Call} {err : Bytes} (ht : Tracks calls torrents)
    (hu : (torrents c.infoHash).Updates c.peer c.event err t') (hc : CountsNothing calls c) :
    t'.downloads = (torrents c.infoHash).downloads := by
  cases hu with
  | completes old allPeers he hf hleft hold hi =>
    exfalso
    rcases hc with hp | ⟨-, hleft' | hnone⟩
    · exact absurd (he.symm.trans hp) (by decide)
    · exact hleft' hleft
    · rw [ht.find?, Option.map_eq_some_iff] at hf
      obtain ⟨⟨j, finished⟩, hs, rfl⟩ := hf
      have hflags : j.peer.completed = false ∧ finished = false := by simpa using hold
      exact hnone j (hflags.2 ▸ hs)
  | _ => rfl

/-- **Downloads counts completed sessions exactly once.**  After every run of calls whose peers
carry no flag, the downloads of a torrent are the number of its finished sessions, modulo their
width; and no stop, no completion with bytes left, none of an unregistered peer and no repeated one
changed the downloads of any torrent. -/
theorem downloads_count_sessions {random : List UInt32} {tr : List (Call × Bytes)}
    {db : TorrentDataBase} (hr : Run updateStep (empty random) tr db)
    (hflag : ∀ c ∈ callsIn tr, c.peer.completed = false) (h : Hash) :
    (db.torrent h).downloads = UInt64.ofNat (finishedSessions (callsIn tr) h) ∧
    EveryStep updateStep (empty random)
      (fun pre t x u => CountsNothing (callsIn pre) x.1 →
        ∀ h', (u.torrent h').downloads = (t.torrent h').downloads) tr := by
  constructor
  · rw [(sumsAccounts_of_run hr h).downloads, finishedSessions]
    refine Ledger.total_map toCounter fun pid => ?_
    rw [under_callsOn]
    exact downloads_account fun c hc => hflag c (List.mem_of_mem_filter hc)
  · intro pre x post t u _ hpre hs hc h'
    obtain ⟨t', hu, rfl⟩ := updates_of_updatePeerList hs
    by_cases hh : h' = x.1.infoHash
    · subst hh
      rw [torrent_set_self]
      exact downloads_of_countsNothing (tracks_of_run hpre) hu hc
    · rw [torrent_set_of_ne t hh]

/-- A peer that completes, stops, rejoins and stops again: two sessions, one of them finished. -/
theorem downloads_count_sessions_rejoin : ∃ db,
    Run updateStep (empty [])
      [(seedStarts, []), ({ seedStarts with event := .completed }, []), (seedStops, []),
        (seedStarts, []), (seedStops, [])] db ∧
    (db.torrent seedStarts.infoHash).downloads = 1 := by
  have hr : Run updateStep (empty [])
      [(seedStarts, []), ({ seedStarts with event := .completed }, []), (seedStops, []),
        (seedStarts, []), (seedStops, [])] _ :=
    .snoc (.snoc (.snoc (.snoc (.snoc .nil rfl) rfl) rfl) rfl) rfl
  exact ⟨_, hr, (downloads_count_sessions hr (by decide) seedStarts.infoHash).1.trans rfl⟩

end TorrentX
