import TorrentX.Client.RowBounds
import TorrentX.Gui.Slots

/-!
# Gui/Fits — do the parts of the window fit together?

The list shows what `cur_torrens_` has, and the actions are enabled for the torrent at the current
row; nothing but the slots keeps it so.  Each event that Qt lets through has one of a few effects
(`Effect`, `step_outcome`), and all of them keep the parts fitting (`Fits.of_effect`).  So in every
run the actions are those of the current torrent, the check boxes show the marks, and no slot
reaches a torrent, an item or a box that is not there (`fits_of_run`).  A click hands `setMark` a
row that is there; what `setMark` reads then is there too, but for the clicks that cover the last
row.
-/

namespace TorrentX

open Wire FilesPicker
open QString (unit toStdString)
open Outline (Covers)

namespace Window

variable {Rest : Type} {lt : Libtorrent Rest} {w : Window Rest}

/-! ## The current torrent

The actions are enabled by `currentItemChanged`; a slot that changes the torrent at the current row
calls it, or sets the actions itself.  So the actions can be said of that torrent. -/

/-- The torrent at the current row. -/
def currentTorrent (w : Window Rest) : Option MainWindow.Entry :=
  w.currentRow.bind (w.curTorrens[·]?)

/-- What is written elsewhere does not change the current torrent. -/
theorem currentTorrent_congr {w w' : Window Rest} (hrow : w'.currentRow = w.currentRow)
    (h : ∀ r ∈ w.currentRow, w'.curTorrens[r]? = w.curTorrens[r]?) :
    w'.currentTorrent = w.currentTorrent := by
  rw [currentTorrent, currentTorrent, hrow]
  exact Option.bind_congr h

/-- The torrent can be paused. -/
def pausable (t : MainWindow.Entry) : Bool := t.download && !t.finished

/-- The torrent can be started. -/
def startable (t : MainWindow.Entry) : Bool := !t.download && !t.finished

/-- The actions are those of a current torrent. -/
structure ActionsOf (c : Option MainWindow.Entry) (w : Window Rest) : Prop where
  pause : w.pauseEnabled = c.any pausable
  start : w.startEnabled = c.any startable
  delete : w.deleteEnabled = c.isSome

/-- The window with the actions of a current torrent enabled. -/
def withActions (w : Window Rest) (c : Option MainWindow.Entry) : Window Rest :=
  w.setEnabled (c.any pausable) (c.any startable) c.isSome

/-- The current row is a row of the list. -/
def RowInRange (w : Window Rest) : Prop := ∀ r ∈ w.currentRow, r < w.curTorrens.length

namespace RowInRange

variable (h : w.RowInRange)

include h

/-- A current row has a torrent. -/
theorem exists_of_eq_some {row : ℕ} (hrow : w.currentRow = some row) :
    ∃ t, w.curTorrens[row]? = some t ∧ w.currentTorrent = some t := by
  have hlt := h row hrow
  refine ⟨_, List.getElem?_eq_getElem hlt, ?_⟩
  rw [currentTorrent, hrow]
  exact List.getElem?_eq_getElem hlt

/-- There is a current torrent if there is a current row. -/
theorem isSome_iff : w.currentTorrent.isSome = true ↔ w.currentRow.isSome = true := by
  cases hrow : w.currentRow with
  | none =>
    rw [currentTorrent, hrow]
    exact Iff.rfl
  | some row =>
    obtain ⟨t, -, ht⟩ := h.exists_of_eq_some hrow
    rw [ht]
    exact Iff.rfl

/-- The slot sets the actions by the current torrent. -/
theorem currentItemChanged_outcome :
    Outcome (fun w' => w' = w.withActions w.currentTorrent) WindowFault.InRange
      w.currentItemChanged := by
  rw [currentItemChanged]
  cases hrow : w.currentRow with
  | none =>
    rw [currentTorrent, hrow]
    rfl
  | some row =>
    obtain ⟨t, ht, hcurrent⟩ := h.exists_of_eq_some hrow
    rw [hcurrent]
    dsimp only
    rw [ht]
    cases hfinished : t.finished <;> cases hdownload : t.download <;>
      simp [Outcome, withActions, pausable, startable, hfinished, hdownload]

/-- `cur_torrens_[row]`. -/
theorem current_outcome (hrow : w.currentRow.isSome) :
    Outcome (fun x => w.currentRow = some x.1 ∧ w.curTorrens[x.1]? = some x.2 ∧
      w.currentTorrent = some x.2) WindowFault.InRange w.current := by
  obtain ⟨row, hrow⟩ := Option.isSome_iff_exists.1 hrow
  obtain ⟨t, ht, hcurrent⟩ := h.exists_of_eq_some hrow
  rw [current, hrow]
  dsimp only
  rw [ht]
  exact ⟨rfl, ht, hcurrent⟩

end RowInRange

/-- A refresh keeps the rows. -/
theorem RefreshedFrom.rowInRange {s : Window Rest} (hs : RefreshedFrom lt w s)
    (h : w.RowInRange) : s.RowInRange := by
  rw [RowInRange, hs.row, ← hs.curTorrens.length_eq]
  exact h

/-! ## Fitting together -/

/-- The parts of the window fit: each item is labelled with its torrent, the current row is a row,
the actions are those of the current torrent, each bar has the colour of its torrent, there is a
torrent to delete while the window asks, and the check boxes show the marks. -/
structure Fits (w : Window Rest) : Prop where
  labelled : w.Labelled
  row : w.RowInRange
  actions : ActionsOf w.currentTorrent w
  colours : ∀ t ∈ w.curTorrens, t.progressBar.highlight = colour t
  asking : w.dialog = .asking → w.currentRow.isSome
  boxes : ∀ source save window, w.dialog = .adding source save window →
    window.checkBoxes = getMarks w.api.holder

/-- An action that is enabled has a current torrent. -/
theorem Fits.isSome_of_any (h : Fits w) {P : MainWindow.Entry → Bool}
    (hany : w.currentTorrent.any P = true) : w.currentRow.isSome := by
  refine h.row.isSome_iff.1 ?_
  cases hcurrent : w.currentTorrent with
  | none =>
    rw [hcurrent] at hany
    cases hany
  | some t => rfl

/-- The window with one torrent more. -/
def grown (w : Window Rest) (torrent : MainWindow.Torrent) (api : TorrentAPI Rest) : Window Rest :=
  { w with
    curTorrens := w.curTorrens ++ [{ toTorrent := torrent }]
    items := w.items ++ [⟨torrent.name, none⟩]
    api := api
    dialog := .closed }

/-- The window without the torrent at its current row, when `moved` was made the current row. -/
def shrunk (w : Window Rest) (row : ℕ) (moved : Option ℕ) (api : TorrentAPI Rest) : Window Rest :=
  withActions
    { w with
      curTorrens := w.curTorrens.eraseIdx row
      items := w.items.eraseIdx row
      api := api
      currentRow := moved.map fun r => if row < r then r - 1 else r
      dialog := .closed }
    (moved.bind (w.curTorrens[·]?))

/-- The window with the torrent at a row paused, or started. -/
def toggled (w : Window Rest) (row : ℕ) (t : MainWindow.Entry) (download : Bool)
    (api : TorrentAPI Rest) : Window Rest :=
  { w with
    curTorrens := w.curTorrens.set row { t with
      download := download
      progressBar := { t.progressBar with highlight := if download then .blue else .gray } }
    api := api
    pauseEnabled := download
    startEnabled := !download }

/-- The torrent comes last. -/
theorem torrents_grown (w : Window Rest) (torrent : MainWindow.Torrent) (api : TorrentAPI Rest) :
    (w.grown torrent api).torrents = w.torrents ++ [torrent] := by
  rw [torrents, grown, List.map_append]
  rfl

/-- The torrent of the row is out. -/
theorem torrents_shrunk (w : Window Rest) (row : ℕ) (moved : Option ℕ) (api : TorrentAPI Rest) :
    (w.shrunk row moved api).torrents = w.torrents.eraseIdx row :=
  (List.eraseIdx_map ..).symm

/-- Pausing and starting change no name. -/
theorem torrents_toggled {row : ℕ} {t : MainWindow.Entry} (ht : w.curTorrens[row]? = some t)
    (download : Bool) (api : TorrentAPI Rest) :
    (w.toggled row t download api).torrents = w.torrents := by
  obtain ⟨hlt, rfl⟩ := List.getElem?_eq_some_iff.1 ht
  rw [torrents, toggled, List.map_set, torrents]
  refine (congrArg _ ?_).trans (List.set_getElem_self (by simpa using hlt))
  rw [List.getElem_map]

/-- **What an event can do** to a window whose parts fit. -/
inductive Effect (lt : Libtorrent Rest) (w : Window Rest) :
    WindowEvent Rest → WindowReply Rest → Window Rest → Prop
  | select {row : Option ℕ} : w.dialog = .closed → (∀ r ∈ row, r < w.curTorrens.length) →
      Effect lt w (.select row) .done
        (withActions { w with currentRow := row } (row.bind (w.curTorrens[·]?)))
  | refused {files : FileSystem} {source save : QString} :
      Effect lt w (.openTorrent files source save) .done w
  | opened {files : FileSystem} {source save : QString} {paths : List Bytes}
      {api : TorrentAPI Rest} :
      filesOf lt (toStdString source) = some paths → pickDownloadFiles [] paths = .ok api.holder →
      api.linker = w.api.linker →
      Effect lt w (.openTorrent files source save) .done
        { w with api := api, dialog := .adding source save (.ofHolder api.holder) }
  | clicked {id : ℕ} {pastLevel : ℤ} {source save : QString} {window : AddTorrentWindow}
      {mark : Bool} {holder : List FileNode} :
      w.dialog = .adding source save window → id < w.api.holder.length →
      holder = setMark pastLevel w.api.holder id mark →
      Effect lt w (.hand id pastLevel) .done
        { w with
          api := { w.api with holder := holder }
          dialog := .adding source save { window with checkBoxes := getMarks holder } }
  | added {status : TorrentStatus Rest} {source save : QString} {window : AddTorrentWindow}
      {torrent : MainWindow.Torrent} {api : TorrentAPI Rest} :
      w.dialog = .adding source save window →
      torrent = ⟨source, save, encodeMarks (getMarks w.api.holder)⟩ →
      api.holder = w.api.holder →
      api.linker = w.api.linker.after (.createDownload (toStdString source) (some status)) →
      Effect lt w (.add (some status))
        (.added torrent w.api.params (createDownload w.api.holder)) (w.grown torrent api)
  | closed : Effect lt w .close .done { w with dialog := .closed }
  | asked : w.currentRow.isSome → Effect lt w .deleteTorrent .done { w with dialog := .asking }
  | kept {moved : Option ℕ} {updates : List (Update Rest)} {valid : Bool} :
      Effect lt w (.reply .cancel moved updates valid) .done { w with dialog := .closed }
  | removed {reply : DeleteReply} {moved : Option ℕ} {updates : List (Update Rest)} {valid : Bool}
      {row : ℕ} {t : MainWindow.Entry} {api : TorrentAPI Rest} :
      w.currentRow = some row → w.curTorrens[row]? = some t →
      (∀ r ∈ moved, r ≠ row ∧ r < w.curTorrens.length) →
      api.holder = w.api.holder →
      api.linker = w.api.linker.after (.removeDownload (toStdString t.name) updates valid) →
      Effect lt w (.reply reply moved updates valid) .done (w.shrunk row moved api)
  | paused {updates : List (Update Rest)} {valid : Bool} {row : ℕ} {t : MainWindow.Entry}
      {api : TorrentAPI Rest} :
      w.currentRow = some row → w.curTorrens[row]? = some t → pausable t →
      api.holder = w.api.holder →
      api.linker = w.api.linker.after (.pauseDownload (toStdString t.name) updates valid) →
      Effect lt w (.pauseTorrent updates valid) .done (w.toggled row t false api)
  | started {updates : List (Update Rest)} {valid : Bool} {row : ℕ} {t : MainWindow.Entry}
      {api : TorrentAPI Rest} :
      w.currentRow = some row → w.curTorrens[row]? = some t → startable t →
      api.holder = w.api.holder →
      api.linker = w.api.linker.after (.resumeDownload (toStdString t.name) updates valid) →
      Effect lt w (.startTorrent updates valid) .done (w.toggled row t true api)
  | folder {t : MainWindow.Entry} : w.currentTorrent = some t →
      Effect lt w .openInFolder (.opened t.locate) w
  | refreshed {updates : ℕ → ℕ → List (Update Rest)} {s : Window Rest} : RefreshedFrom lt w s →
      Effect lt w (.updateStatistic updates) .done
        (if s.currentTorrent.any MainWindow.Entry.finished then s.setEnabled false false true
        else s)

/-! ## The slots have these effects

Every slot is followed once, through all of its calls.  What it may change is an `Effect`, a fault
is one that is not a subscript out of range, and after this no slot is unfolded again. -/

/-- A call that is not made for the dialog. -/
theorem call_outcome_of_not_edits (api : TorrentAPI Rest) (c : ApiCall Rest) (hc : ¬ c.Edits) :
    Outcome (fun x => api.step lt c = .ok x ∧ x.2.holder = api.holder ∧
      x.2.linker = api.linker.after c) WindowFault.InRange (call lt api c) := by
  refine (call_outcome api c fun _ _ _ h => absurd (h ▸ trivial) hc).mono ?_
  rintro ⟨r, api'⟩ ⟨hstep, -⟩
  exact ⟨hstep, holder_of_step hstep hc, (step_spec hstep).2⟩

/-- A file is refused, or the dialog opens on its rows. -/
theorem openTorrent_outcome (files : FileSystem) (source save : QString) :
    Outcome (Effect lt w (.openTorrent files source save) .done) WindowFault.InRange
      (w.openTorrent lt files source save) := by
  rw [Window.openTorrent]
  split
  · exact .refused
  refine (call_outcome w.api (.prepareDownload (toStdString source) (toStdString save))
    (fun _ _ _ => nofun)).bind ?_
  rintro ⟨r, api⟩ ⟨hprepare, hne⟩
  refine (call_outcome api .pickDownloadFiles (fun _ _ _ => nofun)).bind ?_
  rintro ⟨r', api'⟩ ⟨hpick, -⟩
  obtain ⟨hholder, hti⟩ := step_prepareDownload hprepare
  obtain ⟨paths, hpaths, hrows⟩ := step_pickDownloadFiles hholder hpick
  have hlinker : api'.linker = w.api.linker :=
    (step_spec hpick).2.trans (step_spec hprepare).2
  exact .opened ((hti hne).symm.trans hpaths) hrows hlinker

/-- The torrent of the dialog is added, with the marks of the rows. -/
theorem add_outcome {source save : QString} {window : AddTorrentWindow}
    (hdialog : w.dialog = .adding source save window) (answer : Option (TorrentStatus Rest)) :
    Outcome (fun x => Effect lt w (.add answer) x.1 x.2) WindowFault.InRange (w.add lt answer) := by
  rw [Window.add, hdialog]
  refine (call_outcome w.api (.createDownload (toStdString source) answer)
    (fun _ _ _ => nofun)).bind ?_
  rintro ⟨r, api⟩ ⟨hstep, hne⟩
  have hlinker := (step_spec hstep).2
  have hholder := holder_of_step hstep id
  have hreply : w.api.createDownload (toStdString source) answer = (r, api) := Except.ok.inj hstep
  cases answer with
  | none =>
    obtain ⟨rfl, -⟩ := Prod.mk.inj hreply
    exact absurd rfl hne
  | some status =>
    obtain ⟨rfl, -⟩ := Prod.mk.inj hreply
    exact .added hdialog rfl hholder hlinker

namespace Fits

variable (h : Fits w)

include h

/-- A click sets a mark and shows all marks again. -/
theorem hand_outcome {id : ℕ} (pastLevel : ℤ) {source save : QString} {window : AddTorrentWindow}
    (hdialog : w.dialog = .adding source save window) (hid : id < window.checkBoxes.length) :
    Outcome (Effect lt w (.hand id pastLevel) .done) WindowFault.InRange
      (w.hand lt id pastLevel) := by
  have hlength : window.checkBoxes.length = w.api.holder.length := by
    rw [h.boxes source save window hdialog, getMarks, List.length_map]
  rw [Window.hand, hdialog]
  refine (call_outcome w.api (.setMark id _ pastLevel)
    (by rintro _ _ _ ⟨⟩; exact hlength ▸ hid)).bind ?_
  rintro ⟨r, api⟩ ⟨hmark, -⟩
  obtain ⟨hlt, rfl⟩ := step_setMark hmark
  have hmarks : (getMarks (setMark pastLevel w.api.holder id
      (!window.checkBoxes.getD id false))).length = window.checkBoxes.length := by
    rw [getMarks, List.length_map, length_setMark _ _ hlt, hlength]
  dsimp only
  rw [if_pos hmarks.le, hmarks, List.drop_length, List.append_nil]
  exact .clicked hdialog hlt rfl

/-- The torrent at the current row is removed, unless the user cancels. -/
theorem reply_outcome (hasking : w.dialog = .asking) (reply : DeleteReply)
    {moved : Option ℕ} (hmoved : ∀ row ∈ w.currentRow, ∀ r ∈ moved, r ≠ row ∧ r < w.items.length)
    (updates : List (Update Rest)) (valid : Bool) :
    Outcome (Effect lt w (.reply reply moved updates valid) .done) WindowFault.InRange
      (w.reply lt reply moved updates valid) := by
  rw [Window.reply]
  split
  · next hcancel =>
    rw [hcancel]
    exact .kept
  refine (h.row.current_outcome (h.asking hasking)).bind ?_
  rintro ⟨row, t⟩ ⟨hrow, ht, -⟩
  rw [h.labelled.length_eq] at hmoved
  have hrange : RowInRange { w with dialog := .closed, currentRow := moved } :=
    fun r hr => (hmoved row hrow r hr).2
  dsimp only
  rw [takeItem, setCurrentRow, bind_assoc]
  refine hrange.currentItemChanged_outcome.bind ?_
  rintro _ rfl
  refine (call_outcome_of_not_edits w.api (.removeDownload (toStdString t.name) updates valid)
    id).bind ?_
  rintro ⟨r, api⟩ ⟨-, hholder, hlinker⟩
  exact .removed hrow ht (hmoved row hrow) hholder hlinker

theorem pauseTorrent_outcome (hpause : w.pauseEnabled) (updates : List (Update Rest))
    (valid : Bool) :
    Outcome (Effect lt w (.pauseTorrent updates valid) .done) WindowFault.InRange
      (w.pauseTorrent lt updates valid) := by
  rw [h.actions.pause] at hpause
  refine (h.row.current_outcome (h.isSome_of_any hpause)).bind ?_
  rintro ⟨row, t⟩ ⟨hrow, ht, hcurrent⟩
  rw [hcurrent] at hpause
  refine (call_outcome_of_not_edits w.api (.pauseDownload (toStdString t.name) updates valid)
    id).bind ?_
  rintro ⟨r, api⟩ ⟨-, hholder, hlinker⟩
  exact .paused hrow ht hpause hholder hlinker

theorem startTorrent_outcome (hstart : w.startEnabled) (updates : List (Update Rest))
    (valid : Bool) :
    Outcome (Effect lt w (.startTorrent updates valid) .done) WindowFault.InRange
      (w.startTorrent lt updates valid) := by
  rw [h.actions.start] at hstart
  refine (h.row.current_outcome (h.isSome_of_any hstart)).bind ?_
  rintro ⟨row, t⟩ ⟨hrow, ht, hcurrent⟩
  rw [hcurrent] at hstart
  refine (call_outcome_of_not_edits w.api (.resumeDownload (toStdString t.name) updates valid)
    id).bind ?_
  rintro ⟨r, api⟩ ⟨-, hholder, hlinker⟩
  exact .started hrow ht hstart hholder hlinker

theorem updateStatistic_outcome (updates : ℕ → ℕ → List (Update Rest)) :
    Outcome (Effect lt w (.updateStatistic updates) .done) WindowFault.InRange
      (w.updateStatistic lt updates) := by
  have h0 : RefreshedFrom lt w w := ⟨forall₂_refl _, h.labelled, rfl, rfl, rfl, rfl, rfl, .refl⟩
  refine (Outcome.foldlM h0 fun index hindex s hs =>
    refreshRow_outcome hs updates (List.mem_range.1 hindex)).bind fun s hs => ?_
  have hrow := hs.rowInRange h.row
  have heffect := @Effect.refreshed _ lt w updates s hs
  cases hcurrent : s.currentRow with
  | none =>
    rw [currentTorrent, hcurrent] at heffect
    exact heffect
  | some row =>
    obtain ⟨t, ht, hcurrentTorrent⟩ := hrow.exists_of_eq_some hcurrent
    rw [hcurrentTorrent] at heffect
    dsimp only
    rw [ht]
    exact heffect

end Fits

/-- **One event** that Qt lets through has one of the effects, and reaches nothing that is not
there. -/
theorem step_outcome (h : Fits w) {e : WindowEvent Rest} (he : w.Possible e) :
    Outcome (fun x => Effect lt w e x.1 x.2) WindowFault.InRange (w.step lt e) := by
  have done {e : WindowEvent Rest} {x : Except WindowFault (Window Rest)}
      (hx : Outcome (Effect lt w e .done) WindowFault.InRange x) :
      Outcome (fun y => Effect lt w e y.1 y.2) WindowFault.InRange
        (x >>= fun w' => pure (WindowReply.done, w')) := hx.bind fun _ hw' => hw'
  cases e with
  | select row =>
    have hrow : RowInRange { w with currentRow := row } :=
      fun r hr => h.labelled.length_eq ▸ he.2 r hr
    refine done (hrow.currentItemChanged_outcome.mono ?_)
    rintro _ rfl
    exact .select he.1 hrow
  | openTorrent files source save => exact done (openTorrent_outcome files source save)
  | hand id pastLevel =>
    obtain ⟨source, save, window, hdialog, hid⟩ := he
    exact done (h.hand_outcome pastLevel hdialog hid)
  | add answer =>
    obtain ⟨source, save, window, hdialog⟩ := he
    exact add_outcome hdialog answer
  | close => exact .closed
  | deleteTorrent =>
    refine .asked (he.2.elim (fun hdelete => ?_) id)
    rw [h.actions.delete] at hdelete
    exact h.row.isSome_iff.1 hdelete
  | reply reply moved updates valid => exact done (h.reply_outcome he.1 reply he.2 updates valid)
  | pauseTorrent updates valid => exact done (h.pauseTorrent_outcome he.2 updates valid)
  | startTorrent updates valid => exact done (h.startTorrent_outcome he.2 updates valid)
  | openInFolder =>
    refine (h.row.current_outcome he.2).bind ?_
    rintro ⟨row, t⟩ ⟨-, -, hcurrent⟩
    exact .folder hcurrent
  | updateStatistic updates => exact done (h.updateStatistic_outcome updates)

/-! ## The effects keep the parts fitting -/

/-- The rows below the one that is taken move up, and with them the current row. -/
theorem getElem?_eraseIdx_moved {α : Type} (l : List α) {row r : ℕ} (hr : r ≠ row) :
    (l.eraseIdx row)[if row < r then r - 1 else r]? = l[r]? := by
  split
  · rw [List.getElem?_eraseIdx_of_ge (by omega), show r - 1 + 1 = r by omega]
  · exact List.getElem?_eraseIdx_of_lt (by omega)

namespace Fits

variable (h : Fits w)

include h

/-- The same list, and other rows in the picker. -/
theorem of_dialog {api : TorrentAPI Rest} {dialog : Dialog}
    (hasking : dialog = .asking → w.currentRow.isSome)
    (hboxes : ∀ source save window, dialog = .adding source save window →
      window.checkBoxes = getMarks api.holder) : Fits { w with api := api, dialog := dialog } :=
  ⟨h.labelled, h.row, ⟨h.actions.pause, h.actions.start, h.actions.delete⟩, h.colours, hasking,
    hboxes⟩

/-- Another row is the current one, and the actions are those of its torrent. -/
theorem select {row : Option ℕ} (hclosed : w.dialog = .closed)
    (hrow : ∀ r ∈ row, r < w.curTorrens.length) :
    Fits (withActions { w with currentRow := row } (row.bind (w.curTorrens[·]?))) :=
  ⟨h.labelled, hrow, ⟨rfl, rfl, rfl⟩, h.colours,
    fun hasking => absurd (hclosed.symm.trans hasking) nofun, h.boxes⟩

theorem grown (torrent : MainWindow.Torrent) (api : TorrentAPI Rest) :
    Fits (w.grown torrent api) := by
  have hcurrent : (w.grown torrent api).currentTorrent = w.currentTorrent :=
    currentTorrent_congr rfl fun r hr => List.getElem?_append_left (h.row r hr)
  refine ⟨?_, fun r hr => ?_, hcurrent ▸ ⟨h.actions.pause, h.actions.start, h.actions.delete⟩,
    ?_, nofun, nofun⟩
  · rw [Labelled, torrents_grown, List.map_append, ← h.labelled]
    exact List.map_append
  · have hlt := h.row r hr
    rw [Window.grown, List.length_append]
    omega
  · exact List.forall_mem_append.2 ⟨h.colours, List.forall_mem_singleton.2 rfl⟩

/-- The rows below move up, and so does the current row. -/
theorem shrunk {row : ℕ} {moved : Option ℕ} (api : TorrentAPI Rest)
    (hrow : row < w.curTorrens.length) (hmoved : ∀ r ∈ moved, r ≠ row ∧ r < w.curTorrens.length) :
    Fits (w.shrunk row moved api) := by
  have hcurrent : (w.shrunk row moved api).currentTorrent = moved.bind (w.curTorrens[·]?) := by
    cases moved with
    | none => rfl
    | some r => exact getElem?_eraseIdx_moved _ (hmoved r rfl).1
  refine ⟨?_, fun r hr => ?_, hcurrent ▸ ⟨rfl, rfl, rfl⟩,
    fun t ht => h.colours t (List.mem_of_mem_eraseIdx ht), nofun, nofun⟩
  · rw [Labelled, torrents_shrunk, ← List.eraseIdx_map, ← h.labelled]
    exact (List.eraseIdx_map ..).symm
  · obtain ⟨r', hr', rfl⟩ := Option.map_eq_some_iff.1 hr
    have hne := hmoved r' hr'
    change (if row < r' then r' - 1 else r') < (w.curTorrens.eraseIdx row).length
    rw [List.length_eraseIdx_of_lt hrow]
    split <;> omega

theorem toggled {row : ℕ} {t : MainWindow.Entry} (hrow : w.currentRow = some row)
    (ht : w.curTorrens[row]? = some t) (hfinished : t.finished = false) (download : Bool)
    {api : TorrentAPI Rest} (hholder : api.holder = w.api.holder) :
    Fits (w.toggled row t download api) := by
  have hlt : row < w.curTorrens.length := (List.getElem?_eq_some_iff.1 ht).1
  have hcurrent : (w.toggled row t download api).currentTorrent = some { t with
      download := download
      progressBar := { t.progressBar with highlight := if download then .blue else .gray } } := by
    rw [currentTorrent, Window.toggled, hrow]
    exact List.getElem?_set_self hlt
  have hdelete : w.deleteEnabled = true := by
    rw [h.actions.delete, currentTorrent, hrow]
    exact congrArg Option.isSome ht
  refine ⟨?_, fun r hr => ?_, ?_, fun t' ht' => ?_, h.asking, fun source save window hdialog => ?_⟩
  · rw [Labelled, torrents_toggled ht]
    exact h.labelled
  · rw [Window.toggled, List.length_set]
    exact h.row r hr
  · rw [hcurrent]
    cases download <;> exact ⟨by simp [Window.toggled, pausable, hfinished],
      by simp [Window.toggled, startable, hfinished], hdelete⟩
  · rcases List.mem_or_eq_of_mem_set ht' with hmem | rfl
    · exact h.colours t' hmem
    · cases download <;> simp [colour, hfinished]
  · rw [Window.toggled, hholder]
    exact h.boxes source save window hdialog

theorem refreshed {s : Window Rest} (hs : RefreshedFrom lt w s) :
    Fits (if s.currentTorrent.any MainWindow.Entry.finished then s.setEnabled false false true
      else s) := by
  have hrow := hs.rowInRange h.row
  have hcolours : ∀ t ∈ s.curTorrens, t.progressBar.highlight = colour t := by
    intro t' ht'
    obtain ⟨i, hi⟩ := List.getElem?_of_mem ht'
    obtain ⟨t, ht, hrefreshed⟩ := forall₂_getElem? hs.curTorrens hi
    exact hrefreshed.colour (h.colours t (List.mem_of_getElem? ht))
  have hasking : s.dialog = .asking → s.currentRow.isSome := by
    rw [hs.dialog, hs.row]
    exact h.asking
  have hboxes : ∀ source save window, s.dialog = .adding source save window →
      window.checkBoxes = getMarks s.api.holder := by
    rw [hs.dialog, hs.asks.holder_eq]
    exact h.boxes
  have hactions := h.actions
  rw [currentTorrent] at hactions
  cases hcurrent : s.currentRow with
  | none =>
    rw [← hs.row, hcurrent] at hactions
    have hnone : s.currentTorrent = none := by rw [currentTorrent, hcurrent]; rfl
    rw [hnone, Option.any_none, if_neg Bool.false_ne_true]
    refine ⟨hs.labelled, hrow, ?_, hcolours, hasking, hboxes⟩
    rw [hnone]
    exact ⟨hs.pause.trans hactions.pause, hs.start.trans hactions.start,
      hs.delete.trans hactions.delete⟩
  | some row =>
    obtain ⟨t', ht', hsome⟩ := hrow.exists_of_eq_some hcurrent
    obtain ⟨t, ht, hrefreshed⟩ := forall₂_getElem? hs.curTorrens ht'
    have hw : w.currentRow.bind (w.curTorrens[·]?) = some t := by
      rw [← hs.row, hcurrent]
      exact ht
    rw [hw] at hactions
    rw [hsome]
    by_cases hfinished : t'.finished = true
    · -- The actions are written anew.
      rw [Option.any_some, if_pos hfinished]
      refine ⟨hs.labelled, hrow, ?_, hcolours, hasking, hboxes⟩
      rw [show (s.setEnabled false false true).currentTorrent = some t' from hsome]
      exact ⟨by simp [setEnabled, pausable, hfinished], by simp [setEnabled, startable, hfinished],
        rfl⟩
    · -- The torrent had not finished before either.
      have hnot : t.finished = false :=
        Bool.eq_false_iff.2 fun hbefore => hfinished (hrefreshed.finished hbefore)
      have hnot' : t'.finished = false := Bool.eq_false_iff.2 hfinished
      rw [Option.any_some, if_neg hfinished]
      refine ⟨hs.labelled, hrow, hsome ▸ ⟨?_, ?_, hs.delete.trans hactions.delete⟩, hcolours,
        hasking, hboxes⟩
      · rw [hs.pause, hactions.pause]
        simp [pausable, hnot, hnot', hrefreshed.download]
      · rw [hs.start, hactions.start]
        simp [startable, hnot, hnot', hrefreshed.download]

/-- **Every effect keeps the parts fitting.** -/
theorem of_effect {e : WindowEvent Rest} {r : WindowReply Rest} {w' : Window Rest}
    (heffect : Effect lt w e r w') : Fits w' := by
  cases heffect with
  | select hclosed hrow => exact h.select hclosed hrow
  | refused => exact h
  | @opened _ _ _ paths api _ hrows _ =>
    refine h.of_dialog nofun ?_
    rintro _ _ _ ⟨⟩
    exact (getMarks_of_pick hrows).symm
  | clicked =>
    refine h.of_dialog nofun ?_
    rintro _ _ _ ⟨⟩
    rfl
  | added => exact h.grown _ _
  | closed => exact h.of_dialog nofun nofun
  | asked hrow => exact h.of_dialog (fun _ => hrow) nofun
  | kept => exact h.of_dialog nofun nofun
  | removed _ ht hmoved => exact h.shrunk _ (List.getElem?_eq_some_iff.1 ht).1 hmoved
  | @paused _ _ row t _ hrow ht hpausable hholder =>
    refine h.toggled hrow ht ?_ false hholder
    rw [pausable, Bool.and_eq_true] at hpausable
    simpa using hpausable.2
  | @started _ _ row t _ hrow ht hstartable hholder =>
    refine h.toggled hrow ht ?_ true hholder
    rw [startable, Bool.and_eq_true] at hstartable
    simpa using hstartable.2
  | folder => exact h
  | refreshed hs => exact h.refreshed hs

end Fits

/-- **One event** keeps the parts fitting. -/
theorem Fits.step (h : Fits w) {e : WindowEvent Rest} (he : w.Possible e) :
    Outcome (fun x => Fits x.2) WindowFault.InRange (w.step lt e) :=
  (step_outcome h he).mono fun _ => h.of_effect

/-! ## Every run -/

/-- The torrents are those of the list. -/
theorem torrents_ofList (w : MainWindow Rest) : (ofList w).torrents = w.curTorrens := by
  rw [torrents, ofList, List.map_map]
  exact List.map_id _

/-- A window that has just been made: its torrents are read, and no row is the current one. -/
theorem fits_ofList (w : MainWindow Rest) : Fits (ofList w) where
  labelled := by
    rw [Labelled, torrents, ofList, List.map_map, List.map_map, List.map_map]
    rfl
  row := nofun
  actions := ⟨rfl, rfl, rfl⟩
  colours t ht := by
    obtain ⟨_, -, rfl⟩ := List.mem_map.1 ht
    rfl
  asking := nofun
  boxes := nofun

theorem exists_ofList_of_ofDatabase [Inhabited Rest] {env : MainWindow.Restart Rest}
    {database : Option (Json.Members QString)} (h : ofDatabase env database = .ok w) :
    ∃ w', w = ofList w' := by
  rw [ofDatabase] at h
  split at h
  · obtain ⟨w', -, hw'⟩ := exists_of_bind_eq_ok h
    exact ⟨w', (Except.ok.inj hw').symm⟩
  · exact ⟨_, (Except.ok.inj h).symm⟩

/-- A box of the dialog is the box of a row. -/
theorem Fits.lt_length_of_possible (h : Fits w) {id : ℕ} {pastLevel : ℤ}
    (hclick : w.Possible (.hand id pastLevel)) : id < w.api.holder.length := by
  obtain ⟨source, save, window, hdialog, hid⟩ := hclick
  rwa [h.boxes source save window hdialog, getMarks, List.length_map] at hid

/-- **In every run the parts of the window fit**, and no slot reaches a torrent, an item or a box
that is not there, or marks a row that is not there, whatever Qt lets through next.  A click goes on
to read past the rows exactly when its row is the last one, or a directory the last one is in. -/
theorem fits_of_run [Inhabited Rest] {env : MainWindow.Restart Rest}
    {database : Option (Json.Members QString)} {w₀ : Window Rest}
    {tr : List (WindowEvent Rest × WindowReply Rest)} (h₀ : ofDatabase env database = .ok w₀)
    (hr : Run (step lt) w₀ tr w)
    (hpossible : EveryStep (step lt) w₀ (fun _ w x _ => w.Possible x.1) tr) :
    Fits w ∧
    (∀ e, w.Possible e →
      step lt w e ≠ .error .rowRange ∧ step lt w e ≠ .error (.fault .rowRange)) ∧
    ∀ id pastLevel mark, w.Possible (.hand id pastLevel) →
      (¬ InRange (Checked.setMark w.api.holder id mark) ↔
        Covers (level w.api.holder) id (w.api.holder.length - 1)) := by
  obtain ⟨w', rfl⟩ := exists_ofList_of_ofDatabase h₀
  have hfits : Fits w := hr.invariant (fun _ _ h he => h.step he) (fits_ofList w') hpossible
  refine ⟨hfits, fun e he => ⟨fun herr => ?_, fun herr => ?_⟩, fun id pastLevel mark hclick => ?_⟩
  · exact ((hfits.step he).of_error herr).1 rfl
  · exact ((hfits.step he).of_error herr).2 rfl
  · exact not_inRange_iff_covers_last (hfits.lt_length_of_possible hclick)

/-- A restart where `t.torrent` is a torrent `T` of the files `x` and `y`, no other file is a
torrent, and the session takes what it gets. -/
def twoFilesInOne : MainWindow.Restart Unit where
  files := MainWindow.allThere
  lt := {
    torrentInfo := fun file =>
      if file = text "t.torrent" then some [text "T/x", text "T/y"] else none
    parseMagnetUri := fun _ => none }
  answer := fun i => some { handle := some i }
  pastLevel := fun _ _ => 0

/-- A torrent is added with the first of its files checked, selected and paused. -/
theorem fits_of_run_paused : ∃ tr w,
    Run (step twoFilesInOne.lt) (ofList ⟨[], .fresh⟩) tr w ∧
    tr.map Prod.fst = [.openTorrent MainWindow.allThere (.of "t.torrent") (.of "/"), .hand 1 0,
      .add (some { handle := some 0 }), .select (some 0), .pauseTorrent [] true] ∧
    w.currentRow = some 0 ∧ w.startEnabled = true ∧ Fits w := by
  have h₁ : Run (step twoFilesInOne.lt) (ofList ⟨[], .fresh⟩)
      [(.openTorrent MainWindow.allThere (.of "t.torrent") (.of "/"), _)] _ := .snoc .nil rfl
  have h₂ : Run (step twoFilesInOne.lt) _ (_ ++ [(.hand 1 0, _)]) _ := .snoc h₁ rfl
  have h₃ : Run (step twoFilesInOne.lt) _
      (_ ++ [(.add (some { handle := some 0 }), _)]) _ := .snoc h₂ rfl
  have h₄ : Run (step twoFilesInOne.lt) _ (_ ++ [(.select (some 0), _)]) _ := .snoc h₃ rfl
  have hr : Run (step twoFilesInOne.lt) _ (_ ++ [(.pauseTorrent [] true, _)]) _ := .snoc h₄ rfl
  refine ⟨_, _, hr, rfl, rfl, rfl, ?_⟩
  refine (@fits_of_run _ _ _ _ twoFilesInOne none _ _ rfl hr ?_).1
  refine (everyStep_snoc h₄ rfl).2 ⟨(everyStep_snoc h₃ rfl).2 ⟨(everyStep_snoc h₂ rfl).2
    ⟨(everyStep_snoc h₁ rfl).2 ⟨(everyStep_snoc .nil rfl).2 ⟨everyStep_nil, rfl⟩, ?_⟩, ?_⟩, ?_⟩,
      rfl, rfl⟩
  · exact ⟨_, _, _, rfl, by decide⟩
  · exact ⟨_, _, _, rfl⟩
  · refine ⟨rfl, ?_⟩
    rintro _ ⟨⟩
    decide

end Window

end TorrentX
