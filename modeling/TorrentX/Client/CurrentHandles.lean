import TorrentX.Client.Handles

/-!
# Client/CurrentHandles — do the cached statuses outlive their torrents?

A status stored under a handle is of that handle, or is the default one (`owned_of_run`), so a
rebuild caches statuses of keys only.  Between rebuilds statuses are never taken out, whatever
`removeDownload` looks for: the last rebuild decides which handles the cache has (`kept_iff`), and
each cached status has a key for its handle as long as no torrent is removed that is among them
(`cached_iff`).
-/

namespace TorrentX

open Wire TorrentAPI

namespace Linker

variable {Rest : Type} {l : Linker Rest} {h : Handle} {s : TorrentStatus Rest}

/-! ## Whose statuses the map has

The key of a status need not be its handle: `operator[]` inserts a default status, which has none.
Apart from these the map is written under the handle of the status. -/

/-- A stored status is of its key, or of no torrent. -/
def Owned (l : Linker Rest) : Prop :=
  ∀ h s, l.sessionHandles.lookup h = some s → s.handle = h ∨ s.handle = none

/-- What a report leaves is a status of the handle, or what was there. -/
theorem handle_latest (h : Handle) (ss : List (TorrentStatus Rest)) (s : TorrentStatus Rest) :
    (latest h ss s).handle = h ∨ latest h ss s = s := by
  rw [latest]
  cases hlast : (applied h ss).getLast? with
  | none => exact .inr rfl
  | some a =>
    have hmem : a ∈ reported h ss := (List.mem_filter.1 (List.mem_of_getLast? hlast)).1
    exact .inl (of_decide_eq_true (List.mem_filter.1 hmem).2)

/-- Reports are written under their own handles. -/
theorem Owned.updateAll (hl : Owned l) (us : List (Update Rest)) : Owned (l.updateAll us) := by
  intro h s hs
  rw [lookup_updateAll, Option.map_eq_some_iff] at hs
  obtain ⟨s₀, hs₀, rfl⟩ := hs
  rcases handle_latest h (statuses us) s₀ with hh | hh
  · exact .inl hh
  · rw [hh]
    exact hl h s₀ hs₀

theorem Owned.updateTorrents (hl : Owned l) (u : Update Rest) : Owned (l.updateTorrents u) :=
  hl.updateAll [u]

theorem Owned.insert {m : AList fun _ : Handle => TorrentStatus Rest}
    (hm : ∀ h s, m.lookup h = some s → s.handle = h ∨ s.handle = none) {k : Handle}
    {status : TorrentStatus Rest} (hk : status.handle = k ∨ status.handle = none) :
    ∀ h s, (m.insert k status).lookup h = some s → s.handle = h ∨ s.handle = none := by
  intro h s hs
  by_cases hh : h = k
  · subst hh
    rw [AList.lookup_insert, Option.some_inj] at hs
    exact hs ▸ hk
  · rw [AList.lookup_insert_ne hh] at hs
    exact hm h s hs

/-- A default status has no handle. -/
theorem Owned.subscript (hl : Owned l) (handle : Handle) : Owned (l.subscript handle).2 := by
  rw [Linker.subscript]
  split
  · exact hl
  · exact Owned.insert hl (.inr rfl)

theorem Owned.removeHandle (hl : Owned l) (handle : Handle) : Owned (l.removeHandle handle) := by
  rw [Linker.removeHandle]
  split
  · intro h s hs
    by_cases hh : h = handle
    · rw [hh, AList.lookup_erase] at hs
      cases hs
    · rw [AList.lookup_erase_ne hh] at hs
      exact hl h s hs
  · exact hl

theorem Owned.takeUpdates (hl : Owned l) (us : List (Update Rest)) : Owned (l.takeUpdates us) :=
  takeUpdates_eq l us ▸ hl.updateAll us

/-- **Every call** keeps the statuses their keys'. -/
theorem Owned.after (hl : Owned l) (c : ApiCall Rest) : Owned (l.after c) := by
  cases c with
  | createDownload file answer =>
    cases answer with
    | none => exact hl
    | some status => exact Owned.insert hl (.inl rfl)
  | getInfo file updates => exact (hl.takeUpdates updates).subscript _
  | pauseDownload file updates valid => exact hl.takeUpdates updates
  | resumeDownload file updates valid => exact hl.takeUpdates updates
  | removeDownload file updates valid => exact (hl.takeUpdates updates).removeHandle _
  | _ => exact hl

/-! ## Rebuilds

A rebuild forgets what the cache had, and the keys do not change from one batch to the next.  So
after any batches the cache is that of the last one that asked for a rebuild, or else the one that
was there. -/

/-- The batch asks for a rebuild. -/
def Rebuilds (l : Linker Rest) (u : Update Rest) : Prop :=
  ∃ s ∈ u.statuses, s.downloadRate ≠ 0 ∧ s.handle ∈ l.sessionHandles

/-- The keys stay as they are. -/
theorem mem_foldl_applyStatus (l : Linker Rest) (ss : List (TorrentStatus Rest)) (h : Handle) :
    h ∈ (ss.foldl applyStatus (l, false)).1.sessionHandles ↔ h ∈ l.sessionHandles := by
  rw [← AList.lookup_isSome, lookup_foldl_applyStatus, Option.isSome_map, AList.lookup_isSome]

/-- `need_update`. -/
theorem foldl_applyStatus_snd (l : Linker Rest) (ss : List (TorrentStatus Rest)) :
    (ss.foldl applyStatus (l, false)).2 = true ↔
      ∃ s ∈ ss, s.downloadRate ≠ 0 ∧ s.handle ∈ l.sessionHandles := by
  induction ss using List.reverseRecOn with
  | nil => simp
  | append_singleton ss s ih =>
    have hkey := mem_foldl_applyStatus l ss s.handle
    simp only [List.foldl_append, List.foldl_cons, List.foldl_nil, List.mem_append,
      List.mem_singleton, or_and_right, exists_or, exists_eq_left, ← ih]
    rw [applyStatus]
    by_cases hrate : s.downloadRate = 0
    · simp [hrate]
    · by_cases hmem : s.handle ∈ l.sessionHandles
      · rw [if_neg hrate, if_pos (hkey.2 hmem)]
        exact iff_of_true rfl (.inr ⟨hrate, hmem⟩)
      · rw [if_neg hrate, if_neg (mt hkey.1 hmem)]
        simp [hmem]

/-- A batch that asks for no rebuild changes nothing. -/
theorem foldl_applyStatus_of_not {ss : List (TorrentStatus Rest)}
    (hnot : ∀ s ∈ ss, s.downloadRate ≠ 0 → s.handle ∉ l.sessionHandles) :
    ss.foldl applyStatus (l, false) = (l, false) := by
  refine List.foldlRecOn (motive := fun acc => acc = (l, false)) ss applyStatus rfl
    fun acc hacc s hs => ?_
  rw [hacc, applyStatus]
  split_ifs with hrate hmem
  · rfl
  · exact absurd hmem (hnot s hs hrate)
  · rfl

theorem updateTorrents_of_not_rebuilds {u : Update Rest} (hnot : ¬ Rebuilds l u) :
    l.updateTorrents u = l := by
  rw [Linker.updateTorrents, foldl_applyStatus_of_not fun s hs hrate hmem =>
    hnot ⟨s, hs, hrate, hmem⟩]
  rfl

theorem updateTorrents_of_rebuilds {u : Update Rest} (hrebuilds : Rebuilds l u) :
    l.updateTorrents u = Linker.updateCurrentTorrents
      (u.statuses.foldl applyStatus (l, false)).1 u.keyAlive u.statusAlive :=
  if_pos ((foldl_applyStatus_snd l u.statuses).2 hrebuilds)

/-- Whether a batch asks for a rebuild does not depend on the batches before it. -/
theorem rebuilds_updateAll (l : Linker Rest) (us : List (Update Rest)) (u : Update Rest) :
    Rebuilds (l.updateAll us) u ↔ Rebuilds l u := by
  simp only [Rebuilds, mem_updateAll]

/-! ## Which handles the cache has -/

/-- A status of `h` itself is under `h`, once the statuses are there: it was, or one of them is
applied. -/
def Owns (l : Linker Rest) (h : Handle) (ss : List (TorrentStatus Rest)) : Prop :=
  ∃ s₀, l.sessionHandles.lookup h = some s₀ ∧
    (s₀.handle = h ∨ ∃ s ∈ ss, s.handle = h ∧ s.downloadRate ≠ 0)

/-- The status that is left is of `h` exactly if one that was applied is, or the one that was there
before. -/
theorem handle_latest_eq_iff (h : Handle) (ss : List (TorrentStatus Rest))
    (s₀ : TorrentStatus Rest) :
    (latest h ss s₀).handle = h ↔
      s₀.handle = h ∨ ∃ s ∈ ss, s.handle = h ∧ s.downloadRate ≠ 0 := by
  have hmem (s : TorrentStatus Rest) :
      s ∈ applied h ss ↔ s ∈ ss ∧ s.handle = h ∧ s.downloadRate ≠ 0 := by
    simp [applied, reported, and_assoc, and_comm]
  rw [latest]
  cases hlast : (applied h ss).getLast? with
  | none =>
    have hnil := List.getLast?_eq_none_iff.1 hlast
    refine (or_iff_left ?_).symm
    rintro ⟨s, hs⟩
    exact absurd ((hmem s).2 hs) (by simp [hnil])
  | some s =>
    have hs := (hmem s).1 (List.mem_of_getLast? hlast)
    exact iff_of_true hs.2.1 (.inr ⟨s, hs⟩)

/-- After the batches a status of its own is under `h` exactly if the linker before them owns it. -/
theorem exists_lookup_updateAll_iff (us : List (Update Rest)) :
    (∃ s, (l.updateAll us).sessionHandles.lookup h = some s ∧ s.handle = h) ↔
      Owns l h (statuses us) := by
  simp only [lookup_updateAll, Option.map_eq_some_iff, Owns, ← handle_latest_eq_iff]
  constructor
  · rintro ⟨_, ⟨s₀, hs₀, rfl⟩, hh⟩
    exact ⟨s₀, hs₀, hh⟩
  · rintro ⟨s₀, hs₀, hh⟩
    exact ⟨_, ⟨s₀, hs₀, rfl⟩, hh⟩

/-- **A rebuild** caches a status of each handle that is valid and has one of its own. -/
theorem Owned.exists_updateCurrentTorrents_iff (hl : Owned l) (keyAlive statusAlive : ℕ → Bool) :
    (∃ s ∈ (l.updateCurrentTorrents keyAlive statusAlive).currentHandles, s.handle = h) ↔
      (∃ s, l.sessionHandles.lookup h = some s ∧ s.handle = h) ∧
        h.isValid keyAlive ∧ h.isValid statusAlive := by
  constructor
  · rintro ⟨s, hs, rfl⟩
    obtain ⟨hs, hvalid⟩ := List.mem_filter.1 hs
    obtain ⟨⟨k, s⟩, hentry, rfl⟩ := List.mem_map.1 hs
    obtain ⟨hentry, hkey⟩ := List.mem_filter.1 hentry
    have hlookup : l.sessionHandles.lookup k = some s := AList.mem_lookup_iff.2 hentry
    rcases hl k s hlookup with hh | hh
    · subst hh
      exact ⟨⟨s, hlookup, rfl⟩, hkey, hvalid⟩
    · exact absurd hvalid (by simp [hh, Handle.isValid])
  · rintro ⟨⟨s, hlookup, rfl⟩, hkey, hvalid⟩
    have hentry := AList.mem_lookup_iff.1 hlookup
    exact ⟨s, List.mem_filter.2 ⟨List.mem_map.2
      ⟨_, List.mem_filter.2 ⟨hentry, hkey⟩, rfl⟩, hvalid⟩, rfl⟩

/-- The cache has a status of `h` after the batches, by what is there before them: it has one and
nothing is rebuilt, or the last batch that rebuilds finds `h` valid, and a status of its own. -/
def Kept (l : Linker Rest) (h : Handle) (us : List (Update Rest)) : Prop :=
  (∃ s ∈ l.currentHandles, s.handle = h) ∧ (∀ u ∈ us, ¬ Rebuilds l u) ∨
  ∃ pre u post, us = pre ++ u :: post ∧ Rebuilds l u ∧ (∀ v ∈ post, ¬ Rebuilds l v) ∧
    Owns l h (statuses (pre ++ [u])) ∧ h.isValid u.keyAlive ∧ h.isValid u.statusAlive

/-- Without batches the cache is what it was. -/
theorem kept_nil : Kept l h [] ↔ ∃ s ∈ l.currentHandles, s.handle = h := by
  simp [Kept]

/-- A batch that does not rebuild leaves the cache alone. -/
theorem kept_snoc_of_not {us : List (Update Rest)} {u : Update Rest} (hnot : ¬ Rebuilds l u) :
    Kept l h (us ++ [u]) ↔ Kept l h us := by
  rw [Kept, Kept]
  refine or_congr ?_ ?_
  · simp only [List.forall_mem_append, List.forall_mem_singleton, hnot, not_false_iff, and_true]
  · constructor
    · rintro ⟨pre, v, post, heq, hv, hpost, hkept⟩
      rcases snoc_eq_append_cons_iff.1 heq with ⟨-, rfl, -⟩ | ⟨post, rfl, rfl⟩
      · exact absurd hv hnot
      · rw [List.forall_mem_append] at hpost
        exact ⟨pre, v, post, rfl, hv, hpost.1, hkept⟩
    · rintro ⟨pre, v, post, rfl, hv, hpost, hkept⟩
      refine ⟨pre, v, post ++ [u], by simp, hv, ?_, hkept⟩
      exact List.forall_mem_append.2 ⟨hpost, List.forall_mem_singleton.2 hnot⟩

/-- A batch that rebuilds decides. -/
theorem kept_snoc_of_rebuilds {us : List (Update Rest)} {u : Update Rest} (hu : Rebuilds l u) :
    Kept l h (us ++ [u]) ↔
      Owns l h (statuses (us ++ [u])) ∧ h.isValid u.keyAlive ∧ h.isValid u.statusAlive := by
  rw [Kept, or_iff_right fun hnone => hnone.2 u (by simp) hu]
  constructor
  · rintro ⟨pre, v, post, heq, -, hpost, hkept⟩
    rcases snoc_eq_append_cons_iff.1 heq with ⟨rfl, rfl, -⟩ | ⟨post, rfl, -⟩
    · exact hkept
    · exact absurd hu (hpost u (by simp))
  · exact fun hkept => ⟨us, u, [], rfl, hu, by simp, hkept⟩

/-- **The last rebuild decides** which handles the cache has. -/
theorem kept_iff (hl : Owned l) (us : List (Update Rest)) :
    (∃ s ∈ (l.takeUpdates us).currentHandles, s.handle = h) ↔ Kept l h us := by
  rw [takeUpdates_eq]
  induction us using List.reverseRecOn with
  | nil => exact kept_nil.symm
  | append_singleton us u ih =>
    have hsnoc : l.updateAll (us ++ [u]) = (l.updateAll us).updateTorrents u := List.foldl_append
    have howned := hl.updateAll (us ++ [u])
    by_cases hu : Rebuilds l u
    · have hrebuild := updateTorrents_of_rebuilds ((rebuilds_updateAll l us u).2 hu)
      rw [kept_snoc_of_rebuilds hu, ← exists_lookup_updateAll_iff]
      rw [hsnoc, hrebuild] at howned ⊢
      exact Owned.exists_updateCurrentTorrents_iff howned _ _
    · rw [hsnoc, updateTorrents_of_not_rebuilds (mt (rebuilds_updateAll l us u).1 hu),
        kept_snoc_of_not hu, ih]

/-! ## What the cache has -/

/-- Each cached status has a key for its handle. -/
def Cached (l : Linker Rest) : Prop := ∀ s ∈ l.currentHandles, s.handle ∈ l.sessionHandles

/-- A rebuild caches statuses of keys. -/
theorem Owned.cached_updateCurrentTorrents (hl : Owned l) (keyAlive statusAlive : ℕ → Bool) :
    Cached (l.updateCurrentTorrents keyAlive statusAlive) := by
  intro s hs
  obtain ⟨⟨_, hlookup, -⟩, -⟩ := (hl.exists_updateCurrentTorrents_iff _ _).1 ⟨s, hs, rfl⟩
  exact AList.lookup_isSome.1 (Option.isSome_of_mem hlookup)

/-- A batch caches keys, or nothing new. -/
theorem Cached.updateTorrents (h : Cached l) (hl : Owned l) (u : Update Rest) :
    Cached (l.updateTorrents u) := by
  by_cases hu : Rebuilds l u
  · have howned := hl.updateTorrents u
    rw [updateTorrents_of_rebuilds hu] at howned ⊢
    exact Owned.cached_updateCurrentTorrents howned _ _
  · rwa [updateTorrents_of_not_rebuilds hu]

theorem Cached.takeUpdates (h : Cached l) (hl : Owned l) (us : List (Update Rest)) :
    Cached (l.takeUpdates us) := by
  rw [takeUpdates_eq, updateAll]
  have hboth : Owned (us.foldl Linker.updateTorrents l) ∧
      Cached (us.foldl Linker.updateTorrents l) :=
    List.foldlRecOn (motive := fun l => Owned l ∧ Cached l) us Linker.updateTorrents ⟨hl, h⟩
      fun l hl u _ => ⟨hl.1.updateTorrents u, hl.2.updateTorrents hl.1 u⟩
  exact hboth.2

/-- More keys and the same cache. -/
theorem Cached.mono {l' : Linker Rest} (h : Cached l)
    (hcache : l'.currentHandles = l.currentHandles)
    (hkeys : ∀ h, h ∈ l.sessionHandles → h ∈ l'.sessionHandles) : Cached l' :=
  fun s hs => hkeys _ (h s (hcache ▸ hs))

/-- A call that removes a torrent does not find its handle in the cache, by the linker before the
call and the batches it takes. -/
def RemovesUncached (l : Linker Rest) (c : ApiCall Rest) : Prop :=
  ∀ file updates valid, c = .removeDownload file updates valid →
    ¬ Kept l (l.converter file) updates

/-- **One call**: every cached status still has a key exactly if the call does not remove a torrent
with a status in the cache. -/
theorem cached_after_iff (h : Cached l) (hl : Owned l) (c : ApiCall Rest) :
    Cached (l.after c) ↔ RemovesUncached l c := by
  cases c with
  | createDownload file answer =>
    refine iff_of_true ?_ (by simp [RemovesUncached])
    cases answer with
    | none => exact h
    | some status => exact h.mono rfl fun k hk => (mem_setStatus _ _ _).2 (.inr hk)
  | getInfo file updates =>
    exact iff_of_true ((h.takeUpdates hl updates).mono (currentHandles_subscript _ _)
      fun k hk => (mem_subscript _ _ _).2 (.inr hk)) (by simp [RemovesUncached])
  | pauseDownload file updates valid =>
    exact iff_of_true (h.takeUpdates hl updates) (by simp [RemovesUncached])
  | resumeDownload file updates valid =>
    exact iff_of_true (h.takeUpdates hl updates) (by simp [RemovesUncached])
  | removeDownload file updates valid =>
    have hcached := h.takeUpdates hl updates
    constructor
    · rintro hafter _ _ _ ⟨⟩ hkept
      obtain ⟨s, hs, hh⟩ := (kept_iff hl updates).2 hkept
      have hmem := hafter s ((currentHandles_removeHandle _ _).symm ▸ hs)
      exact ((mem_removeHandle _ _ _).1 hmem).1 hh
    · intro huncached s hs
      rw [Linker.after, currentHandles_removeHandle] at hs
      rw [Linker.after, mem_removeHandle]
      refine ⟨fun hh => ?_, hcached s hs⟩
      exact huncached file updates valid rfl ((kept_iff hl updates).1 ⟨s, hs, hh⟩)
  | _ => exact iff_of_true h (by simp [RemovesUncached])

end Linker

open Linker

/-! ## Runs -/

variable {Rest : Type} [Inhabited Rest] {lt : Libtorrent Rest} {api : TorrentAPI Rest}
  {tr : List (ApiCall Rest × ApiReply Rest)}

/-- **In every run** a stored status is of its key or of no torrent. -/
theorem owned_of_run (hr : Run (step lt) fresh tr api) : Owned api.linker := by
  induction hr with
  | nil => exact fun h s hs => absurd hs (by simp [fresh, Linker.empty])
  | snoc _ hs ih =>
    rw [(step_spec hs).2]
    exact ih.after _

/-- **No cached status outlives its torrent** in a run exactly if no call of it removes a torrent
that has a status in the cache. -/
theorem cached_iff (hr : Run (step lt) fresh tr api) :
    EveryState (step lt) fresh (fun _ api => Cached api.linker) tr ↔
      EveryStep (step lt) fresh (fun _ api x _ => RemovesUncached api.linker x.1) tr := by
  refine everyState_iff_everyStep (fun s hs => absurd hs List.not_mem_nil) ?_ hr
  intro tr t x u hr hs h
  rw [(step_spec hs).2]
  exact cached_after_iff h (owned_of_run hr) x.1

/-- A status that is reported while the torrent is downloading. -/
def someProgress : TorrentStatus Unit :=
  { handle := some 0, state := .downloading, downloadRate := 5 }

/-- A torrent is removed of which nothing was reported, while the status of another one is in the
cache. -/
theorem cached_iff_neverReported :
    ∃ (tr : List (ApiCall Unit × ApiReply Unit)) (api : TorrentAPI Unit),
      Run (step noTorrents) fresh tr api ∧
      tr.map Prod.fst =
        [.createDownload (text "a") (some { handle := some 0 }),
          .pauseDownload (text "a") [⟨[someProgress], fun _ => true, fun _ => true⟩] true,
          .createDownload (text "b") (some { handle := some 1 }),
          .removeDownload (text "b") [⟨[], fun _ => true, fun _ => true⟩] true] ∧
      api.linker.currentHandles = [someProgress] ∧
      EveryState (step noTorrents) fresh (fun _ api => Cached api.linker) tr := by
  have h₁ : Run (step noTorrents) fresh
      [(.createDownload (text "a") (some { handle := some 0 }), .added default fun _ => none)] _ :=
    .snoc .nil rfl
  have h₂ : Run (step noTorrents) fresh
      (_ ++ [(.pauseDownload (text "a") [⟨[someProgress], fun _ => true, fun _ => true⟩] true, _)])
      _ := .snoc h₁ rfl
  have h₃ : Run (step noTorrents) fresh
      (_ ++ [(.createDownload (text "b") (some { handle := some 1 }), _)]) _ := .snoc h₂ rfl
  have hr : Run (step noTorrents) fresh
      (_ ++ [(.removeDownload (text "b") [⟨[], fun _ => true, fun _ => true⟩] true, _)]) _ :=
    .snoc h₃ rfl
  refine ⟨_, _, hr, rfl, rfl, (cached_iff hr).2 ((everyStep_snoc h₃ rfl).2
    ⟨(everyStep_snoc h₂ rfl).2 ⟨(everyStep_snoc h₁ rfl).2
      ⟨(everyStep_snoc .nil rfl).2 ⟨everyStep_nil, ?_⟩, ?_⟩, ?_⟩, ?_⟩)⟩
  · rintro _ _ _ ⟨⟩
  · rintro _ _ _ ⟨⟩
  · rintro _ _ _ ⟨⟩
  · rintro _ _ _ ⟨⟩ hkept
    -- The one batch of the call is empty, and what the cache has is of the other torrent.
    obtain ⟨s, hs, hh⟩ := kept_nil.1 ((kept_snoc_of_not (by simp [Rebuilds])).1 hkept)
    obtain rfl := List.mem_singleton.1 hs
    exact absurd hh (by decide)

/-- A torrent whose progress is reported is removed: its status stays in the cache. -/
theorem not_cached_reported : ∃ (tr : List (ApiCall Unit × ApiReply Unit)) (api : TorrentAPI Unit),
    Run (step noTorrents) fresh tr api ∧
    tr.map Prod.fst =
      [.createDownload (text "a") (some { handle := some 0 }),
        .removeDownload (text "a") [⟨[someProgress], fun _ => true, fun _ => true⟩] true] ∧
    ¬ EveryState (step noTorrents) fresh (fun _ api => Cached api.linker) tr := by
  have hr : Run (step noTorrents) fresh
      [(.createDownload (text "a") (some { handle := some 0 }), .added default fun _ => none),
        (.removeDownload (text "a") [⟨[someProgress], fun _ => true, fun _ => true⟩] true,
          .done)] _ :=
    .snoc (.snoc .nil rfl) rfl
  refine ⟨_, _, hr, rfl, fun h => ?_⟩
  have hcached := h.last hr someProgress (by decide)
  revert hcached
  decide

end TorrentX
