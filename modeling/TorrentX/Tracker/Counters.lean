import TorrentX.Tracker.Membership

/-!
# Tracker/Counters — when the seeder and leecher counters count seeders and leechers

A peer is complete when it joined with nothing left or has completed since.  The table remembers
only the second: a peer that joins with nothing left is counted as a seeder, yet its entry carries
no flag.  The next `STOPPED` or accepted `COMPLETED` of that peer trusts the flag, so it moves the
wrong counter.

`exact_update_iff` is the step: from exact counters, an update leaves exact counters exactly when
the flag it trusts agrees with the calls so far (`FlagAgrees`).  What is stored is made of the calls
too, so this is a condition on the calls alone (`JoinTrusted`): the flag is that of the joining call
until the session is finished.  `counters_track_iff` is the run.
-/

namespace TorrentX

open TorrentDataBase

/-- A peer of a torrent is complete when the call that opened its session had nothing left, or the
session is finished. -/
def complete (calls : List Call) (infoHash peerId : Hash) : Bool :=
  match membership calls infoHash peerId with
  | none => false
  | some (joined, done) => joined.peer.left = 0 || done

/-- The number of entries whose peer is complete (`b = true`) or not (`b = false`). -/
def countWhere (b : Bool) (calls : List Call) (infoHash : Hash) (peers : List Peer) : ℕ :=
  peers.countP fun p => complete calls infoHash p.peerId = b

/-- The counters of a torrent count the complete and the other entries of its table. -/
def CountersExact (calls : List Call) (infoHash : Hash) (t : Torrent) : Prop :=
  t.seeders.toNat = countWhere true calls infoHash t.allPeers.elems ∧
    t.leechers.toNat = countWhere false calls infoHash t.allPeers.elems

/-- A counter at zero was decremented. -/
def Underflows (before after : UInt64) : Prop := before = 0 ∧ after = before - 1

/-- The flag that a stop, or a completion with nothing left, reads in the entry of a registered peer
agrees with the calls before it. -/
def FlagAgrees (calls : List Call) (torrents : Hash → Torrent) (c : Call) : Prop :=
  c.event = .stopped ∨ c.event = .completed ∧ c.peer.left = 0 →
    ∀ old, (torrents c.infoHash).allPeers.find? c.peer.peerId = some old →
      old.completed = complete calls c.infoHash c.peer.peerId

/-- The same of the calls alone: a stop, or a completion with nothing left, in a session that is not
finished finds that the call that opened it was flagged exactly if it had nothing left. -/
def JoinTrusted (calls : List Call) (c : Call) : Prop :=
  c.event = .stopped ∨ c.event = .completed ∧ c.peer.left = 0 →
    ∀ joined, membership calls c.infoHash c.peer.peerId = some (joined, false) →
      (joined.peer.completed ↔ joined.peer.left = 0)

/-- **The flag that is stored agrees exactly when the joining call is trusted.** -/
theorem flagAgrees_iff_joinTrusted {calls : List Call} {torrents : Hash → Torrent}
    (ht : Tracks calls torrents) (c : Call) :
    FlagAgrees calls torrents c ↔ JoinTrusted calls c := by
  refine imp_congr_right fun _ => ?_
  rw [ht.find? c.infoHash c.peer.peerId, complete]
  cases membership calls c.infoHash c.peer.peerId with
  | none => simp
  | some s =>
    obtain ⟨joined, done⟩ := s
    cases done with
    | true => simp
    | false =>
      have hflag : joined.peer.completed = decide (joined.peer.left = 0) ↔
          (joined.peer.completed = true ↔ joined.peer.left = 0) := by
        rw [Bool.eq_iff_iff, decide_eq_true_iff]
      simpa using hflag

/-! ## Counting across a step

An update touches one entry, and a call changes the history of one peer.  So the counts over the
rest of the table stay, and what is left to compare is the entry of the caller: in which count it
is, and from which counter it is taken. -/

/-- A call of another peer makes no peer complete. -/
theorem complete_snoc_of_ne (calls : List Call) {c : Call} {h pid : Hash}
    (hne : ¬ (c.infoHash = h ∧ c.peer.peerId = pid)) :
    complete (calls ++ [c]) h pid = complete calls h pid := by
  rw [complete, membership_snoc_of_ne calls hne]
  rfl

/-- Entries that are not of the caller count as before the call. -/
theorem countWhere_snoc (b : Bool) (calls : List Call) {c : Call} {h : Hash} {peers : List Peer}
    (hne : ∀ p ∈ peers, ¬ (c.infoHash = h ∧ c.peer.peerId = p.peerId)) :
    countWhere b (calls ++ [c]) h peers = countWhere b calls h peers :=
  List.countP_congr fun p hp => by rw [complete_snoc_of_ne calls (hne p hp)]

/-- An entry counts for one, if its peer is as complete as asked. -/
theorem countWhere_cons (b : Bool) (calls : List Call) (h : Hash) (p : Peer) (ps : List Peer) :
    countWhere b calls h (p :: ps)
      = countWhere b calls h ps + if complete calls h p.peerId = b then 1 else 0 := by
  rw [countWhere, List.countP_cons]
  simp only [decide_eq_true_eq]
  rfl

section Step

variable {calls : List Call} {torrents : Hash → Torrent} {h : Hash} {peer old : Peer}
  {event : EventType} {err : Bytes} {t' : Torrent}

/-- The counts of a table with a registered caller: its entry, and the rest, on which the call
changes nothing. -/
theorem countWhere_of_found (ht : Tracks calls torrents)
    (hf : (torrents h).allPeers.find? peer.peerId = some old) (b : Bool) :
    countWhere b calls h (torrents h).allPeers.elems
      = countWhere b (calls ++ [⟨h, peer, event⟩]) h
          ((torrents h).allPeers.erase peer.peerId).elems
        + if complete calls h peer.peerId = b then 1 else 0 := by
  have hrest : ∀ p ∈ ((torrents h).allPeers.erase peer.peerId).elems,
      ¬ ((⟨h, peer, event⟩ : Call).infoHash = h ∧ peer.peerId = p.peerId) := by
    rintro p hp ⟨_, hk⟩
    have hmem : p ∈ ((torrents h).allPeers.erase peer.peerId).withKey peer.peerId :=
      List.mem_filter.2 ⟨hp, by simp [hk]⟩
    rw [ht.withKey_erase hf] at hmem
    exact absurd hmem (by simp)
  rw [countWhere_snoc b calls hrest, ← RankedSet.key_of_find? hf, ← countWhere_cons,
    RankedSet.key_of_find? hf]
  exact (RankedSet.elems_erase_perm hf).countP_eq _

/-- The counts of a table without the caller: the call changes nothing on it. -/
theorem countWhere_of_not_found (hf : (torrents h).allPeers.find? peer.peerId = none) (b : Bool) :
    countWhere b (calls ++ [⟨h, peer, event⟩]) h (torrents h).allPeers.elems
      = countWhere b calls h (torrents h).allPeers.elems :=
  countWhere_snoc b calls fun _ hp hk => RankedSet.key_ne_of_find?_eq_none hf hp hk.2.symm

/-- The counts after the call of a table it left alone. -/
theorem countWhere_snoc_of_found
    (hf : (torrents h).allPeers.find? peer.peerId = some old) (b : Bool) :
    countWhere b (calls ++ [⟨h, peer, event⟩]) h (torrents h).allPeers.elems
      = countWhere b (calls ++ [⟨h, peer, event⟩]) h
          ((torrents h).allPeers.erase peer.peerId).elems
        + if complete (calls ++ [⟨h, peer, event⟩]) h peer.peerId = b then 1 else 0 := by
  rw [← RankedSet.key_of_find? hf, ← countWhere_cons, RankedSet.key_of_find? hf]
  exact (RankedSet.elems_erase_perm hf).countP_eq _

/-- The calling peer is as complete as its session after the call. -/
theorem complete_snoc_self (calls : List Call) (c : Call) :
    complete (calls ++ [c]) c.infoHash c.peer.peerId
      = match sessions.next (membership calls c.infoHash c.peer.peerId) c with
        | none => false
        | some (joined, done) => joined.peer.left = 0 || done := by
  rw [complete, membership_snoc_self]

/-- A completion with nothing left completes a registered peer. -/
theorem complete_snoc_completed (ht : Tracks calls torrents)
    (hf : (torrents h).allPeers.find? peer.peerId = some old) (hleft : peer.left = 0) :
    complete (calls ++ [⟨h, peer, .completed⟩]) h peer.peerId = true := by
  obtain ⟨s, hs, -⟩ := Option.map_eq_some_iff.1 ((ht.find? h peer.peerId).symm.trans hf)
  rw [complete_snoc_self calls ⟨h, peer, .completed⟩, hs]
  simp [SessionLog.next, sessions, hleft, EventType.completed, EventType.stopped]

/-- A call that opens, closes and finishes nothing leaves its peer as complete as it was. -/
theorem complete_snoc_of_same
    (hsame : sessions.next (membership calls h peer.peerId) ⟨h, peer, event⟩
      = membership calls h peer.peerId) :
    complete (calls ++ [⟨h, peer, event⟩]) h peer.peerId = complete calls h peer.peerId := by
  rw [complete_snoc_self calls ⟨h, peer, event⟩, hsame]
  rfl

/-- A peer joins complete exactly when it has nothing left. -/
theorem complete_snoc_started (hm : membership calls h peer.peerId = none) :
    complete (calls ++ [⟨h, peer, .started⟩]) h peer.peerId = decide (peer.left = 0) := by
  rw [complete_snoc_self calls ⟨h, peer, .started⟩, hm]
  simp [SessionLog.next, sessions, EventType.started, EventType.stopped]

/-- Without an entry there is no flag to trust. -/
theorem flagAgrees_of_not_found (hf : (torrents h).allPeers.find? peer.peerId = none) :
    FlagAgrees calls torrents ⟨h, peer, event⟩ := fun _ old ho => by simp [hf] at ho

theorem flagAgrees_iff_of_found (hf : (torrents h).allPeers.find? peer.peerId = some old) :
    FlagAgrees calls torrents ⟨h, peer, event⟩
      ↔ (event = .stopped ∨ event = .completed ∧ peer.left = 0 →
          old.completed = complete calls h peer.peerId) := by
  simp [FlagAgrees, hf]

theorem not_underflows_self (a : UInt64) : ¬ Underflows a a := by
  rintro ⟨rfl, h⟩
  exact absurd h (by decide)

theorem not_underflows_add_one (a : UInt64) : ¬ Underflows a (a + 1) := by
  rintro ⟨rfl, h⟩
  exact absurd h (by decide)

/-- A decrement underflows at zero. -/
theorem underflows_sub_one_iff (a : UInt64) : Underflows a (a - 1) ↔ a.toNat = 0 := by
  refine ⟨fun h => by rw [h.1]; rfl, fun h => ⟨UInt64.toNat_inj.1 h, rfl⟩⟩

/-- A call that opens, closes and finishes nothing, and leaves the torrent alone, keeps exact
counters exact. -/
theorem exact_of_same (hx : CountersExact calls h (torrents h))
    (hsame : sessions.next (membership calls h peer.peerId) ⟨h, peer, event⟩
      = membership calls h peer.peerId) :
    CountersExact (calls ++ [⟨h, peer, event⟩]) h (torrents h) := by
  have hcount : ∀ b, countWhere b (calls ++ [⟨h, peer, event⟩]) h (torrents h).allPeers.elems
      = countWhere b calls h (torrents h).allPeers.elems := fun b =>
    List.countP_congr fun p _ => by
      by_cases hk : peer.peerId = p.peerId
      · rw [← hk, complete_snoc_of_same hsame]
      · rw [complete_snoc_of_ne calls (fun hc => hk hc.2)]
  exact ⟨(hcount true).symm ▸ hx.1, (hcount false).symm ▸ hx.2⟩

/-- The step of a completion of a peer flagged already: nothing moves. -/
theorem exact_repeated_iff (ht : Tracks calls torrents) (hx : CountersExact calls h (torrents h))
    (hf : (torrents h).allPeers.find? peer.peerId = some old) (hleft : peer.left = 0) :
    CountersExact (calls ++ [⟨h, peer, .completed⟩]) h (torrents h)
      ↔ true = complete calls h peer.peerId := by
  have hafter := complete_snoc_completed ht hf hleft
  have h1 : ∀ b, _ = countWhere b (calls ++ [⟨h, peer, .completed⟩]) h _ + _ :=
    countWhere_of_found ht hf
  have h2 : ∀ b, countWhere b (calls ++ [⟨h, peer, .completed⟩]) h _ = _ :=
    countWhere_snoc_of_found hf
  have ht1 := h1 true
  have hf1 := h1 false
  have ht2 := h2 true
  have hf2 := h2 false
  obtain ⟨hs, hl⟩ := hx
  rw [hafter] at ht2 hf2
  unfold CountersExact
  rw [hs, hl, ht1, hf1, ht2, hf2]
  cases complete calls h peer.peerId <;> simp

/-- The step of a completion: the caller moves from the leechers to the seeders. -/
theorem exact_completes_iff {allPeers : PeerSet} (ht : Tracks calls torrents)
    (hx : CountersExact calls h (torrents h))
    (hf : (torrents h).allPeers.find? peer.peerId = some old) (hleft : peer.left = 0)
    (hi : ((torrents h).allPeers.erase peer.peerId).insert { old with completed := true }
      = some allPeers) :
    (CountersExact (calls ++ [⟨h, peer, .completed⟩]) h
        ⟨allPeers, (torrents h).leechers - 1, (torrents h).seeders + 1,
          (torrents h).downloads + 1⟩ ∧
      (torrents h).leechers.toNat ≠ 0) ↔ false = complete calls h peer.peerId := by
  have hk : old.peerId = peer.peerId := RankedSet.key_of_find? hf
  have hafter : ∀ b, countWhere b (calls ++ [⟨h, peer, .completed⟩]) h allPeers.elems
      = countWhere b (calls ++ [⟨h, peer, .completed⟩]) h
          ((torrents h).allPeers.erase peer.peerId).elems + if true = b then 1 else 0 := fun b => by
    rw [countWhere, (RankedSet.elems_insert_perm hi).countP_eq]
    refine (countWhere_cons b _ h _ _).trans ?_
    change _ + (if complete _ h old.peerId = b then 1 else 0) = _
    rw [hk, complete_snoc_completed ht hf hleft]
  have hbefore : ∀ b, countWhere b calls h _
      = countWhere b (calls ++ [⟨h, peer, .completed⟩]) h _ + _ := countWhere_of_found ht hf
  have hlen := allPeers.length_lt
  have hle : countWhere true (calls ++ [⟨h, peer, .completed⟩]) h allPeers.elems
      ≤ allPeers.elems.length := List.countP_le_length
  obtain ⟨hs, hl⟩ := hx
  have hl64 := (torrents h).leechers.toNat_lt
  rw [hbefore] at hs hl
  rw [hafter] at hle
  unfold CountersExact
  simp only [hafter, UInt64.toNat_add, UInt64.toNat_sub, UInt64.toNat_one]
  generalize complete calls h peer.peerId = b at hs hl ⊢
  cases b <;>
    simp only [eq_self, Bool.false_eq_true, Bool.true_eq_false, if_true, if_false, iff_true,
      iff_false] at hs hl hle ⊢ <;> omega

/-- The step of a stop: the entry leaves the count its flag names. -/
theorem exact_leaves_iff (ht : Tracks calls torrents) (hx : CountersExact calls h (torrents h))
    (hf : (torrents h).allPeers.find? peer.peerId = some old) (event : EventType) :
    (CountersExact (calls ++ [⟨h, peer, event⟩]) h
        ⟨(torrents h).allPeers.erase peer.peerId,
          if old.completed then (torrents h).leechers else (torrents h).leechers - 1,
          if old.completed then (torrents h).seeders - 1 else (torrents h).seeders,
          (torrents h).downloads⟩ ∧
      (if old.completed then (torrents h).seeders else (torrents h).leechers).toNat ≠ 0)
      ↔ old.completed = complete calls h peer.peerId := by
  have hbefore : ∀ b, countWhere b calls h _
      = countWhere b (calls ++ [⟨h, peer, event⟩]) h _ + _ := countWhere_of_found ht hf
  obtain ⟨hs, hl⟩ := hx
  have hs64 := (torrents h).seeders.toNat_lt
  have hl64 := (torrents h).leechers.toNat_lt
  rw [hbefore] at hs hl
  unfold CountersExact
  generalize complete calls h peer.peerId = b at hs hl ⊢
  cases old.completed <;> cases b <;>
    simp only [eq_self, Bool.false_eq_true, Bool.true_eq_false, if_true, if_false, iff_true,
      iff_false, UInt64.toNat_sub, UInt64.toNat_one] at hs hl ⊢ <;> omega

/-- The step of a start: the caller joins the count its bytes left name. -/
theorem exact_joins {allPeers : PeerSet} (hx : CountersExact calls h (torrents h))
    (hm : membership calls h peer.peerId = none)
    (hf : (torrents h).allPeers.find? peer.peerId = none)
    (hi : (torrents h).allPeers.insert peer = some allPeers) :
    CountersExact (calls ++ [⟨h, peer, .started⟩]) h
      ⟨allPeers, if peer.left = 0 then (torrents h).leechers else (torrents h).leechers + 1,
        if peer.left = 0 then (torrents h).seeders + 1 else (torrents h).seeders,
        (torrents h).downloads⟩ := by
  have hafter : ∀ b, countWhere b (calls ++ [⟨h, peer, .started⟩]) h allPeers.elems
      = countWhere b calls h (torrents h).allPeers.elems
        + if decide (peer.left = 0) = b then 1 else 0 := fun b => by
    rw [countWhere, (RankedSet.elems_insert_perm hi).countP_eq, ← complete_snoc_started hm,
      ← countWhere_of_not_found hf b]
    exact countWhere_cons b _ h _ _
  have hlen := allPeers.length_lt
  have hle : ∀ b, countWhere b (calls ++ [⟨h, peer, .started⟩]) h allPeers.elems
      ≤ allPeers.elems.length := fun _ => List.countP_le_length
  have hlet := hle true
  have hlef := hle false
  obtain ⟨hs, hl⟩ := hx
  rw [hafter] at hlet hlef
  unfold CountersExact
  simp only [hafter, ← hs, ← hl]
  by_cases hleft : peer.left = 0 <;> simp [hleft, UInt64.toNat_add] at * <;> omega

/-- **From exact counters, an update leaves exact counters exactly when the flag it trusts
agrees**, and then it decrements no counter at zero. -/
theorem exact_update_iff (ht : Tracks calls torrents) (hx : CountersExact calls h (torrents h))
    (hu : (torrents h).Updates peer event err t') :
    (CountersExact (calls ++ [⟨h, peer, event⟩]) h t' ∧
        ¬ Underflows (torrents h).leechers t'.leechers ∧
        ¬ Underflows (torrents h).seeders t'.seeders)
      ↔ FlagAgrees calls torrents ⟨h, peer, event⟩ := by
  have hfind := ht.find? h peer.peerId
  have hl := not_underflows_self (torrents h).leechers
  have hs := not_underflows_self (torrents h).seeders
  cases hu with
  | idle hc hst hp =>
    refine iff_of_true ⟨exact_of_same hx ?_, hl, hs⟩ ?_
    · cases membership calls h peer.peerId <;> simp [SessionLog.next, sessions, hc, hst, hp]
    · rintro (rfl | ⟨rfl, -⟩)
      · exact absurd rfl hp
      · exact absurd rfl hc
  | refused old he hf hleft =>
    subst he
    refine iff_of_true ⟨exact_of_same hx ?_, hl, hs⟩ ((flagAgrees_iff_of_found hf).2 ?_)
    · cases membership calls h peer.peerId <;>
        simp [SessionLog.next, sessions, hleft, EventType.completed, EventType.started,
          EventType.stopped]
    · rintro (h | ⟨-, h⟩)
      · exact absurd h (by decide)
      · exact absurd h hleft
  | unknown he hf =>
    refine iff_of_true ⟨exact_of_same hx ?_, hl, hs⟩ (flagAgrees_of_not_found hf)
    have hm : membership calls h peer.peerId = none := by simpa [hf] using hfind.symm
    rw [hm]
    rcases he with rfl | rfl <;>
      simp [SessionLog.next, sessions, EventType.completed, EventType.started, EventType.stopped]
  | repeated old he hf hleft hold =>
    subst he
    rw [flagAgrees_iff_of_found hf, hold, exact_repeated_iff ht hx hf hleft]
    exact ⟨fun h _ => h.1, fun h => ⟨h (.inr ⟨rfl, hleft⟩), hl, hs⟩⟩
  | completes old allPeers he hf hleft hold hi =>
    subst he
    have key := exact_completes_iff ht hx hf hleft hi
    rw [flagAgrees_iff_of_found hf, hold, underflows_sub_one_iff]
    exact ⟨fun h _ => key.1 ⟨h.1, h.2.1⟩, fun h =>
      have h' := key.2 (h (.inr ⟨rfl, hleft⟩))
      ⟨h'.1, h'.2, not_underflows_add_one _⟩⟩
  | known old he hf =>
    subst he
    refine iff_of_true ⟨exact_of_same hx ?_, hl, hs⟩ ((flagAgrees_iff_of_found hf).2 ?_)
    · obtain ⟨s, hm, -⟩ := Option.map_eq_some_iff.1 (hfind.symm.trans hf)
      rw [hm]
      simp [SessionLog.next, sessions, EventType.completed, EventType.started, EventType.stopped]
    · rintro (h | ⟨h, -⟩) <;> exact absurd h (by decide)
  | joins allPeers he hf hi =>
    subst he
    have hm : membership calls h peer.peerId = none := by simpa [hf] using hfind.symm
    refine iff_of_true ⟨exact_joins hx hm hf hi, ?_, ?_⟩ (flagAgrees_of_not_found hf)
    all_goals
      dsimp only
      split
      · first | exact not_underflows_self _ | exact not_underflows_add_one _
      · first | exact not_underflows_self _ | exact not_underflows_add_one _
  | leaves old he hf =>
    subst he
    have key := exact_leaves_iff ht hx hf .stopped
    rw [flagAgrees_iff_of_found hf]
    cases hold : old.completed
    all_goals
      simp only [hold, Bool.false_eq_true, if_true, if_false] at key ⊢
      rw [underflows_sub_one_iff]
    · exact ⟨fun h _ => key.1 ⟨h.1, h.2.1⟩, fun h =>
        have h' := key.2 (h (.inl trivial))
        ⟨h'.1, h'.2, hs⟩⟩
    · exact ⟨fun h _ => key.1 ⟨h.1, h.2.2⟩, fun h =>
        have h' := key.2 (h (.inl trivial))
        ⟨h'.1, hl, h'.2⟩⟩

end Step

/-- A call leaves the exact counters of other torrents exact. -/
theorem exact_snoc_of_ne {calls : List Call} {c : Call} {h : Hash} {t : Torrent}
    (hh : h ≠ c.infoHash) (hx : CountersExact calls h t) : CountersExact (calls ++ [c]) h t := by
  have hcount : ∀ b, countWhere b (calls ++ [c]) h t.allPeers.elems
      = countWhere b calls h t.allPeers.elems := fun b =>
    countWhere_snoc b calls fun _ _ hc => hh hc.1.symm
  exact ⟨(hcount true).symm ▸ hx.1, (hcount false).symm ▸ hx.2⟩

/-! ## Whole runs -/

/-- After the step the counters of every torrent are exact, and the step decremented none of them
at zero. -/
def CountersTrack (pre : List (Call × Bytes)) (before : TorrentDataBase) (x : Call × Bytes)
    (after : TorrentDataBase) : Prop :=
  ∀ h, CountersExact (callsIn (pre ++ [x])) h (after.torrent h) ∧
    ¬ Underflows (before.torrent h).leechers (after.torrent h).leechers ∧
    ¬ Underflows (before.torrent h).seeders (after.torrent h).seeders

/-- The flag the step trusts, as the calls before it have it. -/
def FlagTrusted (pre : List (Call × Bytes)) (_before : TorrentDataBase) (x : Call × Bytes)
    (_after : TorrentDataBase) : Prop :=
  JoinTrusted (callsIn pre) x.1

variable {random : List UInt32} {tr : List (Call × Bytes)} {db : TorrentDataBase}

/-- Counters that tracked through every step are exact at the end. -/
theorem exact_of_track (hr : Run updateStep (empty random) tr db)
    (ht : EveryStep updateStep (empty random) CountersTrack tr) (h : Hash) :
    CountersExact (callsIn tr) h (db.torrent h) := by
  cases hr with
  | nil => exact ⟨rfl, rfl⟩
  | snoc hr hs => exact (((everyStep_snoc hr hs).1 ht).2 h).1

/-- One step of the database, from exact counters. -/
theorem track_iff_trusted {t u : TorrentDataBase} {x : Call × Bytes}
    (hr : Run updateStep (empty random) tr t) (hs : updateStep t x.1 = .ok (x.2, u))
    (hx : ∀ h, CountersExact (callsIn tr) h (t.torrent h)) :
    CountersTrack tr t x u ↔ FlagTrusted tr t x u := by
  obtain ⟨⟨h, peer, event⟩, err⟩ := x
  obtain ⟨t', hu, rfl⟩ := updates_of_updatePeerList hs
  have key := (exact_update_iff (tracks_of_run hr) (hx h) hu).trans
    (flagAgrees_iff_joinTrusted (tracks_of_run hr) ⟨h, peer, event⟩)
  have hcalls : callsIn (tr ++ [(⟨h, peer, event⟩, err)]) = callsIn tr ++ [⟨h, peer, event⟩] :=
    List.map_append
  constructor
  · intro hc
    have hch := hc h
    rw [hcalls, torrent_set_self] at hch
    exact key.1 hch
  · intro hf h'
    rw [hcalls]
    by_cases hh : h' = h
    · subst hh
      rw [torrent_set_self]
      exact key.2 hf
    · rw [torrent_set_of_ne t hh]
      exact ⟨exact_snoc_of_ne hh (hx h'), not_underflows_self _, not_underflows_self _⟩

/-- **The counters count along a run exactly when every flag trusted along it agrees.** -/
theorem counters_track_iff (hr : Run updateStep (empty random) tr db) :
    EveryStep updateStep (empty random) CountersTrack tr
      ↔ EveryStep updateStep (empty random) FlagTrusted tr := by
  induction hr with
  | nil => exact iff_of_true everyStep_nil everyStep_nil
  | @snoc tr t u c err hr hs ih =>
    rw [everyStep_snoc hr hs, everyStep_snoc hr hs, ← ih]
    exact and_congr_right fun ht => track_iff_trusted hr hs (exact_of_track hr ht)

/-- A peer that joins with nothing left and stops: the stop decrements the leechers at zero. -/
theorem counters_not_track : ¬ ∀ (random : List UInt32) (tr : List (Call × Bytes))
    (db : TorrentDataBase), Run updateStep (empty random) tr db →
      EveryStep updateStep (empty random) CountersTrack tr := by
  intro hall
  have hrun : Run updateStep (empty []) [(seedStarts, [])] _ := .snoc .nil rfl
  have hstep := (everyStep_snoc hrun rfl).1
    (hall [] [(seedStarts, []), (seedStops, [])] _ (.snoc hrun rfl))
  exact (hstep.2 seedStarts.infoHash).2.1 ⟨by decide, by decide⟩

/-- A peer that joins with bytes left, completes and stops: every flag trusted agrees. -/
theorem counters_track_leech : ∃ db,
    Run updateStep (empty [])
      [({ seedStarts with peer := { seed with left := 5 } }, []),
        ({ seedStarts with event := .completed }, []), (seedStops, [])] db ∧
    EveryStep updateStep (empty []) CountersTrack
      [({ seedStarts with peer := { seed with left := 5 } }, []),
        ({ seedStarts with event := .completed }, []), (seedStops, [])] := by
  have h1 : Run updateStep (empty [])
      [({ seedStarts with peer := { seed with left := 5 } }, [])] _ := .snoc .nil rfl
  have h2 : Run updateStep (empty []) ([_] ++ [({ seedStarts with event := .completed }, [])]) _ :=
    .snoc h1 rfl
  have h3 : Run updateStep (empty []) (([_] ++ [_]) ++ [(seedStops, [])]) _ := .snoc h2 rfl
  refine ⟨_, h3, (counters_track_iff h3).2 ((everyStep_snoc h2 rfl).2
    ⟨(everyStep_snoc h1 rfl).2 ⟨(everyStep_snoc .nil rfl).2 ⟨everyStep_nil, ?_⟩, ?_⟩, ?_⟩)⟩
  · rintro - _ ⟨⟩
  · rintro - _ ⟨⟩
    decide
  · rintro - _ ⟨⟩

end TorrentX
