import TorrentX.Machinery.Wire

/-!
# Client/Linker — the statuses of the torrents, as the session reports them

The model of `Linker`: the last status applied to each handle, the cache that is rebuilt from it,
and the handle of each file name.  A report of rate zero is dropped, so what is shown is the last
report of another rate (`lookup_updateAll`); that it is the last one is a condition on the reports
(`showsLatest_iff`).

A handle refers to a torrent of the session, by a number, or to none.  Whether the session still has
the torrent is asked of it at each rebuild.
-/

namespace TorrentX

/-! ## Handles and statuses -/

/-- `lt::torrent_handle`: one that is default-constructed refers to no torrent. -/
abbrev Handle := Option ℕ

/-- `is_valid`, when the session has the torrents `alive`. -/
def Handle.isValid (alive : ℕ → Bool) (handle : Handle) : Bool := handle.any alive

/-- The states that `getState` tells apart. -/
inductive TorrentState
  | checkingFiles
  | downloadingMetadata
  | downloading
  | finished
  | seeding
  | allocating
  | checkingResumeData
deriving DecidableEq

/-- `lt::torrent_status`: the fields that are read, and the rest, of which a new status has none of
its own. -/
structure TorrentStatus (Rest : Type) where
  handle : Handle := none
  name : Bytes := []
  state : TorrentState := .checkingResumeData
  downloadRate : ℤ := 0
  totalDone : ℤ := 0
  totalWanted : ℤ := 0
  progressPpm : ℤ := 0
  rest : Option Rest := none
deriving DecidableEq

instance {Rest : Type} : Inhabited (TorrentStatus Rest) := ⟨{}⟩

/-- A batch of statuses, with the torrents the session has when the keys, and then the statuses, are
asked whether they are valid. -/
structure Update (Rest : Type) where
  statuses : List (TorrentStatus Rest)
  keyAlive : ℕ → Bool := fun _ => true
  statusAlive : ℕ → Bool := fun _ => true

/-! ## The model

`sessionHandles` has for each handle the last status that was applied to it, and `currentHandles`
what the last rebuild has copied of them.  Nothing
that is shown is read from the cache. -/

/-- `Linker`.  `converter` has the default handle for a name it does not have. -/
structure Linker (Rest : Type) where
  sessionHandles : AList fun _ : Handle => TorrentStatus Rest
  currentHandles : List (TorrentStatus Rest)
  converter : Bytes → Handle

namespace Linker

variable {Rest : Type}

def empty : Linker Rest := ⟨∅, [], fun _ => none⟩

/-- `session_handles[handle]`: a handle that is not there gets the default status. -/
def subscript (l : Linker Rest) (handle : Handle) : TorrentStatus Rest × Linker Rest :=
  match l.sessionHandles.lookup handle with
  | some status => (status, l)
  | none => (default, { l with sessionHandles := l.sessionHandles.insert handle default })

/-- The loop over the statuses: the linker, and `need_update`. -/
def applyStatus (acc : Linker Rest × Bool) (status : TorrentStatus Rest) : Linker Rest × Bool :=
  if status.downloadRate = 0 then acc
  else if status.handle ∈ acc.1.sessionHandles then
    ({ acc.1 with
        sessionHandles := acc.1.sessionHandles.insert status.handle status
        currentHandles := acc.1.currentHandles ++ [status] }, true)
  else acc

/-- `updateCurrentTorrents`. -/
def updateCurrentTorrents (l : Linker Rest) (keyAlive statusAlive : ℕ → Bool) : Linker Rest :=
  let ofValidKeys := l.sessionHandles.entries.filter fun entry => Handle.isValid keyAlive entry.1
  { l with
    currentHandles := (ofValidKeys.map Sigma.snd).filter fun status =>
      Handle.isValid statusAlive status.handle }

/-- `updateTorrents`. -/
def updateTorrents (l : Linker Rest) (u : Update Rest) : Linker Rest :=
  let (l, needUpdate) := u.statuses.foldl applyStatus (l, false)
  if needUpdate then l.updateCurrentTorrents u.keyAlive u.statusAlive else l

/-- One batch after another. -/
def updateAll (l : Linker Rest) (us : List (Update Rest)) : Linker Rest := us.foldl updateTorrents l

/-! ## What the batches leave in the map

For one handle the reports are a list, of which those of rate zero are passed over and the last of
the others stays.  The batches are not seen in it: their reports follow one another. -/

/-- The statuses for a handle. -/
def reported (h : Handle) (statuses : List (TorrentStatus Rest)) : List (TorrentStatus Rest) :=
  statuses.filter (·.handle = h)

/-- Those of them that are not dropped. -/
def applied (h : Handle) (statuses : List (TorrentStatus Rest)) : List (TorrentStatus Rest) :=
  (reported h statuses).filter (·.downloadRate ≠ 0)

/-- Those of the one part, and then those of the other. -/
theorem applied_append (h : Handle) (ss ts : List (TorrentStatus Rest)) :
    applied h (ss ++ ts) = applied h ss ++ applied h ts := by
  rw [applied, reported, List.filter_append, List.filter_append]
  rfl

theorem applied_singleton (h : Handle) (s : TorrentStatus Rest) :
    applied h [s] = if s.handle = h ∧ s.downloadRate ≠ 0 then [s] else [] := by
  simp only [applied, reported, List.filter_cons, List.filter_nil]
  split_ifs <;> simp_all

/-- The last of them, or else the status that was there. -/
def latest (h : Handle) (statuses : List (TorrentStatus Rest)) (s₀ : TorrentStatus Rest) :
    TorrentStatus Rest :=
  ((applied h statuses).getLast?).getD s₀

@[simp] theorem latest_nil (h : Handle) : latest h ([] : List (TorrentStatus Rest)) = id := rfl

/-- More reports are applied to what the first ones left. -/
theorem latest_append (h : Handle) (ss ts : List (TorrentStatus Rest)) :
    latest h (ss ++ ts) = latest h ts ∘ latest h ss := by
  funext s₀
  rw [Function.comp_apply, latest, latest, latest, applied_append, List.getLast?_append]
  cases (applied h ts).getLast? <;> rfl

/-- A status is written over the one of its handle, if it is applied. -/
theorem lookup_applyStatus (h : Handle) (acc : Linker Rest × Bool) (s : TorrentStatus Rest) :
    (applyStatus acc s).1.sessionHandles.lookup h =
      (acc.1.sessionHandles.lookup h).map (latest h [s]) := by
  have hlatest : latest h [s] = fun s₀ => if s.handle = h ∧ s.downloadRate ≠ 0 then s else s₀ := by
    funext s₀
    rw [latest, applied_singleton]
    split <;> rfl
  rw [applyStatus, hlatest]
  by_cases hrate : s.downloadRate = 0
  · simp [hrate]
  rw [if_neg hrate]
  by_cases hkey : s.handle ∈ acc.1.sessionHandles
  · rw [if_pos hkey]
    by_cases hh : s.handle = h
    · subst hh
      obtain ⟨s₀, hs₀⟩ := Option.isSome_iff_exists.1 (AList.lookup_isSome.2 hkey)
      simp [hs₀, hrate]
    · simp [hh, AList.lookup_insert_ne (Ne.symm hh)]
  · rw [if_neg hkey]
    by_cases hh : s.handle = h
    · subst hh
      rw [AList.lookup_eq_none.2 hkey]
      rfl
    · simp [hh]

/-- **A batch leaves the last status that is applied**, or else the one that was there. -/
theorem lookup_foldl_applyStatus (h : Handle) (acc : Linker Rest × Bool)
    (statuses : List (TorrentStatus Rest)) :
    (statuses.foldl applyStatus acc).1.sessionHandles.lookup h =
      (acc.1.sessionHandles.lookup h).map (latest h statuses) := by
  induction statuses using List.reverseRecOn with
  | nil => rw [latest_nil, Option.map_id_fun, id, List.foldl_nil]
  | append_singleton statuses s ih =>
    rw [List.foldl_append, List.foldl_cons, List.foldl_nil, lookup_applyStatus, ih, Option.map_map,
      latest_append]

/-- A rebuild does not touch the map. -/
theorem lookup_updateTorrents (l : Linker Rest) (h : Handle) (u : Update Rest) :
    (l.updateTorrents u).sessionHandles.lookup h =
      (l.sessionHandles.lookup h).map (latest h u.statuses) := by
  rw [← lookup_foldl_applyStatus h (l, false) u.statuses, updateTorrents]
  dsimp only
  split <;> rfl

/-- The statuses of all batches. -/
def statuses (us : List (Update Rest)) : List (TorrentStatus Rest) := us.flatMap Update.statuses

/-- **What the batches leave**: for each handle that was there the last status that is applied, or
else the one that was there; and no other handle. -/
theorem lookup_updateAll (l : Linker Rest) (h : Handle) (us : List (Update Rest)) :
    (l.updateAll us).sessionHandles.lookup h =
      (l.sessionHandles.lookup h).map (latest h (statuses us)) := by
  induction us generalizing l with
  | nil => rw [statuses, List.flatMap_nil, latest_nil, Option.map_id_fun, id, updateAll,
      List.foldl_nil]
  | cons u us ih =>
    rw [updateAll, List.foldl_cons, ← updateAll, ih, lookup_updateTorrents, Option.map_map,
      ← latest_append]
    rfl

/-- No batch adds or takes a key. -/
theorem mem_updateAll (l : Linker Rest) (h : Handle) (us : List (Update Rest)) :
    h ∈ (l.updateAll us).sessionHandles ↔ h ∈ l.sessionHandles := by
  rw [← AList.lookup_isSome, lookup_updateAll, Option.isSome_map, AList.lookup_isSome]

/-! ## The converter stays as it is -/

theorem converter_foldl_applyStatus (acc : Linker Rest × Bool)
    (statuses : List (TorrentStatus Rest)) :
    (statuses.foldl applyStatus acc).1.converter = acc.1.converter := by
  refine List.foldlRecOn (motive := fun acc' => acc'.1.converter = acc.1.converter) statuses
    applyStatus rfl fun acc' h s _ => ?_
  rw [applyStatus]
  split_ifs <;> exact h

theorem converter_updateTorrents (l : Linker Rest) (u : Update Rest) :
    (l.updateTorrents u).converter = l.converter := by
  rw [← converter_foldl_applyStatus (l, false) u.statuses, updateTorrents]
  dsimp only
  split <;> rfl

/-- The batches do not touch the converter. -/
theorem converter_updateAll (l : Linker Rest) (us : List (Update Rest)) :
    (l.updateAll us).converter = l.converter :=
  List.foldlRecOn (motive := fun l' => l'.converter = l.converter) us updateTorrents rfl
    fun l' h u _ => (converter_updateTorrents l' u).trans h

/-! ## Is the last report shown? -/

/-- The last status for a handle. -/
def lastReported (h : Handle) (us : List (Update Rest)) : Option (TorrentStatus Rest) :=
  (reported h (statuses us)).getLast?

/-- The batches keep the handles, and leave for each the last status reported for it; a name shows
the last status reported for its handle. -/
structure ShowsLatest (l : Linker Rest) (us : List (Update Rest)) : Prop where
  keys : ∀ h, h ∈ (l.updateAll us).sessionHandles ↔ h ∈ l.sessionHandles
  last : ∀ h ∈ l.sessionHandles, ∀ s, lastReported h us = some s →
    (l.updateAll us).sessionHandles.lookup h = some s
  shown : ∀ file s, l.converter file ∈ l.sessionHandles →
    lastReported (l.converter file) us = some s →
      ((l.updateAll us).subscript ((l.updateAll us).converter file)).1 = s

/-- The last status of a handle is of a rate that is not zero, or all of them are of rate zero and
the last is the status that was there. -/
def LastApplied (l : Linker Rest) (us : List (Update Rest)) : Prop :=
  ∀ h ∈ l.sessionHandles, ∀ s, lastReported h us = some s →
    s.downloadRate ≠ 0 ∨
      (∀ r ∈ reported h (statuses us), r.downloadRate = 0) ∧ l.sessionHandles.lookup h = some s

/-- For one handle: the status that is left is the last one reported. -/
theorem latest_eq_iff {h : Handle} {ss : List (TorrentStatus Rest)} {s s₀ : TorrentStatus Rest}
    (hs : (reported h ss).getLast? = some s) :
    latest h ss s₀ = s ↔
      s.downloadRate ≠ 0 ∨ (∀ r ∈ reported h ss, r.downloadRate = 0) ∧ s₀ = s := by
  rw [latest, applied]
  generalize reported h ss = rs at hs ⊢
  obtain ⟨rs, rfl⟩ := List.getLast?_eq_some_iff.1 hs
  by_cases hrate : s.downloadRate = 0
  · have hlast : (rs ++ [s]).filter (·.downloadRate ≠ 0) = rs.filter (·.downloadRate ≠ 0) := by
      simp [hrate]
    rw [hlast]
    cases ha : (rs.filter (·.downloadRate ≠ 0)).getLast? with
    | none =>
      have hnil := List.filter_eq_nil_iff.1 (List.getLast?_eq_none_iff.1 ha)
      have hall : ∀ r ∈ rs ++ [s], r.downloadRate = 0 :=
        List.forall_mem_append.2 ⟨by simpa using hnil, by simpa using hrate⟩
      exact ⟨fun h => .inr ⟨hall, h⟩, fun h => (h.resolve_left (not_not.2 hrate)).2⟩
    | some a =>
      -- A status is applied, so what is left has a rate that is not zero.
      obtain ⟨hmem, ha⟩ := List.mem_filter.1 (List.mem_of_getLast? ha)
      have ha : a.downloadRate ≠ 0 := of_decide_eq_true ha
      refine iff_of_false (fun h : a = s => ha (h ▸ hrate)) ?_
      rintro (h | ⟨hall, -⟩)
      · exact h hrate
      · exact ha (hall a (List.mem_append_left _ hmem))
  · simp [List.filter_append, hrate]

/-- **The last status reported is shown** exactly when its rate is not zero — or nothing was
applied, and it is what was shown before. -/
theorem showsLatest_iff (l : Linker Rest) (us : List (Update Rest)) :
    ShowsLatest l us ↔ LastApplied l us := by
  have hlookup {h : Handle} {s : TorrentStatus Rest} (hh : h ∈ l.sessionHandles)
      (hs : lastReported h us = some s) :
      (l.updateAll us).sessionHandles.lookup h = some s ↔ s.downloadRate ≠ 0 ∨
        (∀ r ∈ reported h (statuses us), r.downloadRate = 0) ∧
          l.sessionHandles.lookup h = some s := by
    obtain ⟨s₀, hs₀⟩ := Option.isSome_iff_exists.1 (AList.lookup_isSome.2 hh)
    rw [lookup_updateAll, hs₀, Option.map_some, Option.some_inj, Option.some_inj, latest_eq_iff hs]
  constructor
  · exact fun h handle hh s hs => (hlookup hh hs).1 (h.last handle hh s hs)
  · intro h
    have hlast : ∀ handle ∈ l.sessionHandles, ∀ s, lastReported handle us = some s →
        (l.updateAll us).sessionHandles.lookup handle = some s :=
      fun handle hh s hs => (hlookup hh hs).2 (h handle hh s hs)
    refine ⟨fun handle => mem_updateAll l handle us, hlast, fun file s hh hs => ?_⟩
    rw [converter_updateAll, subscript, hlast _ hh s hs]

/-- One torrent, which has been downloading. -/
def oneDownloading : Linker Unit :=
  { empty with
    sessionHandles := AList.singleton (some 0)
      { handle := some 0, state := .downloading, downloadRate := 5 } }

/-- Its end is reported with rate zero, and it is shown as downloading for ever. -/
theorem not_showsLatest_oneDownloading :
    ¬ ShowsLatest oneDownloading [⟨[{ handle := some 0, state := .finished }], fun _ => true,
      fun _ => true⟩] := by
  intro h
  have hlast := h.last (some 0) (by decide) { handle := some 0, state := .finished } (by decide)
  revert hlast
  decide

end Linker

end TorrentX
