import TorrentX.Client.Selection
import TorrentX.Gui.Database

/-!
# Gui/Window — the main window, event after event

The model of the slots of `MainWindow` and of the dialog that adds a torrent.  The list of the
window and `cur_torrens_` are kept side by side, and the actions are enabled by hand; each slot
trusts them to fit.  Worker ticks and clicks come in any order that Qt lets through (`Possible`): a
modal dialog keeps out what is not its own, a disabled action is not triggered, and the current row
is a row of the list.

A subscript outside `cur_torrens_`, or a row that the list does not have, is a fault; so is what the
calls of the client do.  An exception ends the program, since nothing catches one in a slot.
-/

namespace TorrentX

open Wire FilesPicker
open QString (unit toStdString)

/-! ## What the window shows -/

/-- The colours of a progress bar: while it is downloading, paused, and finished. -/
inductive Highlight
  | blue
  | gray
  | green
deriving DecidableEq

/-- `QProgressBar`, with its default range. -/
structure ProgressBar where
  value : ℤ := 0
  highlight : Highlight := .blue
deriving DecidableEq

/-- `setValue`: a value outside the range is ignored. -/
def ProgressBar.setValue (bar : ProgressBar) (value : ℤ) : ProgressBar :=
  if 0 ≤ value ∧ value ≤ 100 then { bar with value := value } else bar

/-- `static_cast<int>`, of a `uint32_t`. -/
def castInt (value : ℕ) : ℤ := if value < 2 ^ 31 then value else value - 2 ^ 32

/-- A `Torrent` with its progress bar and its flags. -/
structure MainWindow.Entry extends MainWindow.Torrent where
  progressBar : ProgressBar := {}
  download : Bool := true
  finished : Bool := false
deriving DecidableEq

/-- What `update_statistic` does to the bar: at its end the torrent is finished. -/
def MainWindow.Entry.moveBar (torrent : MainWindow.Entry) (percent : ℕ) : MainWindow.Entry :=
  let bar := torrent.progressBar.setValue (castInt percent)
  if bar.value = 100 then
    { torrent with finished := true, progressBar := { bar with highlight := .green } }
  else { torrent with progressBar := bar }

/-- The widget of an item: the name of the torrent and, while it is downloading, the time.  The
sizes between them are `long double`, and left out. -/
structure ItemWidget where
  label : QString
  time : Option QString := none
deriving DecidableEq

/-- `AddTorrentWindow`: the two cells of each row. -/
structure AddTorrentWindow where
  labels : List Bytes
  checkBoxes : List Bool
deriving DecidableEq

/-- The label of a row: its name, after a bar for each directory above it. -/
def AddTorrentWindow.labelOf (element : FileNode) : Bytes :=
  (List.replicate (element.level - 1).toNat (text "|      ")).flatten ++ element.name

/-- The constructor of `AddTorrentWindow`, once the files are picked. -/
def AddTorrentWindow.ofHolder (holder : List FileNode) : AddTorrentWindow where
  labels := holder.map labelOf
  checkBoxes := holder.map fun _ => false

/-- The dialog that is open. -/
inductive Dialog
  | closed
  | adding (source save : QString) (window : AddTorrentWindow)
  | asking
deriving DecidableEq

/-- `MainWindow`, with the rows of its list and the state of its actions.  No current row is `-1`.
-/
structure Window (Rest : Type) where
  curTorrens : List MainWindow.Entry
  api : TorrentAPI Rest
  items : List ItemWidget
  currentRow : Option ℕ := none
  pauseEnabled : Bool := false
  startEnabled : Bool := false
  deleteEnabled : Bool := false
  dialog : Dialog := .closed

/-- What ends the program. -/
inductive WindowFault
  | threw
  | fault (fault : ApiFault)
  | rowRange
deriving DecidableEq

/-! ## Events -/

/-- The buttons of the question whether to delete the files. -/
inductive DeleteReply
  | cancel
  | no
  | yes
deriving DecidableEq

/-- What happens to the window, with what the file dialogs return, what the files are, what the
session answers, and where the current row moves when its item is taken. -/
inductive WindowEvent (Rest : Type)
  | select (row : Option ℕ)
  | openTorrent (files : FileSystem) (source save : QString)
  | hand (id : ℕ) (pastLevel : ℤ)
  | add (answer : Option (TorrentStatus Rest))
  | close
  | deleteTorrent
  | reply (reply : DeleteReply) (moved : Option ℕ) (updates : List (Update Rest)) (valid : Bool)
  | pauseTorrent (updates : List (Update Rest)) (valid : Bool)
  | startTorrent (updates : List (Update Rest)) (valid : Bool)
  | openInFolder
  | updateStatistic (updates : ℕ → ℕ → List (Update Rest))

/-- What a slot hands on: a torrent to the session, a folder to the desktop, or nothing. -/
inductive WindowReply (Rest : Type)
  | done
  | added (torrent : MainWindow.Torrent) (params : AddTorrentParams Rest)
      (priority : ℕ → Option DownloadPriority)
  | opened (location : QString)

namespace Window

variable {Rest : Type}

/-- The events that Qt lets through. -/
def Possible (w : Window Rest) : WindowEvent Rest → Prop
  | .select row => w.dialog = .closed ∧ ∀ r ∈ row, r < w.items.length
  | .openTorrent .. => w.dialog = .closed
  | .hand id _ => ∃ source save window, w.dialog = .adding source save window ∧
      id < window.checkBoxes.length
  | .add _ | .close => ∃ source save window, w.dialog = .adding source save window
  | .deleteTorrent => w.dialog = .closed ∧ (w.deleteEnabled ∨ w.currentRow.isSome)
  | .reply _ moved _ _ => w.dialog = .asking ∧
      ∀ row ∈ w.currentRow, ∀ r ∈ moved, r ≠ row ∧ r < w.items.length
  | .pauseTorrent .. => w.dialog = .closed ∧ w.pauseEnabled
  | .startTorrent .. => w.dialog = .closed ∧ w.startEnabled
  | .openInFolder => w.dialog = .closed ∧ w.currentRow.isSome
  | .updateStatistic _ => True

/-! ## The slots

Each slot is the body of the source from the first call on, with the dialogs answered by the event.
Between the calls of one slot the worker of libtorrent may report anything, so every call of the
client has updates of its own. -/

/-- The three `setEnabled`. -/
def setEnabled (w : Window Rest) (pause start delete : Bool) : Window Rest :=
  { w with pauseEnabled := pause, startEnabled := start, deleteEnabled := delete }

/-- `on_list_cur_torrents_currentItemChanged`. -/
def currentItemChanged (w : Window Rest) : Except WindowFault (Window Rest) :=
  match w.currentRow with
  | none => .ok (w.setEnabled false false false)
  | some row =>
    match w.curTorrens[row]? with
    | none => .error .rowRange
    | some torrent => .ok <|
      if torrent.finished then w.setEnabled false false true
      else if torrent.download then w.setEnabled true false true
      else w.setEnabled false true true

/-- Another current row: the list tells the window of it. -/
def setCurrentRow (w : Window Rest) (row : Option ℕ) : Except WindowFault (Window Rest) :=
  currentItemChanged { w with currentRow := row }

/-- `takeItem`, at the current row: another row, if any, becomes the current one before the item is
gone, and the rows below it move up. -/
def takeItem (w : Window Rest) (row : ℕ) (moved : Option ℕ) : Except WindowFault (Window Rest) := do
  let w ← w.setCurrentRow moved
  return { w with
    items := w.items.eraseIdx row
    currentRow := w.currentRow.map fun r => if row < r then r - 1 else r }

/-- `cur_torrens_[row]` at the current row. -/
def current (w : Window Rest) : Except WindowFault (ℕ × MainWindow.Entry) :=
  match w.currentRow with
  | none => .error .rowRange
  | some row =>
    match w.curTorrens[row]? with
    | none => .error .rowRange
    | some torrent => .ok (row, torrent)

section Slots

variable (lt : Libtorrent Rest) (w : Window Rest)

/-- A call of the client, out of which an exception ends the program. -/
def call (api : TorrentAPI Rest) (c : ApiCall Rest) :
    Except WindowFault (ApiReply Rest × TorrentAPI Rest) :=
  match api.step lt c with
  | .error fault => .error (.fault fault)
  | .ok (.threw, _) => .error .threw
  | .ok (reply, api) => .ok (reply, api)

/-- `on_action_open_torrent_triggered`, up to the dialog: the two choices and their checks, and the
constructor of the dialog. -/
def openTorrent (files : FileSystem) (source save : QString) : Except WindowFault (Window Rest) :=
  if source = [] ∨ ¬ files.isReadable source ∨ save = [] ∨ ¬ files.isWritable save then .ok w
  else do
    let (_, api) ← call lt w.api (.prepareDownload (toStdString source) (toStdString save))
    let (_, api) ← call lt api .pickDownloadFiles
    return { w with api := api, dialog := .adding source save (.ofHolder api.holder) }

/-- `HandlerSignals::hand`, for a click on a check box, which has changed it already. -/
def hand (id : ℕ) (pastLevel : ℤ) : Except WindowFault (Window Rest) :=
  match w.dialog with
  | .adding source save window => do
    let bit := !window.checkBoxes.getD id false
    let (_, api) ← call lt w.api (.setMark id bit pastLevel)
    let marks := getMarks api.holder
    if marks.length ≤ window.checkBoxes.length then
      let checkBoxes := marks ++ window.checkBoxes.drop marks.length
      return { w with
        api := api
        dialog := .adding source save { window with checkBoxes := checkBoxes } }
    else .error .rowRange
  | _ => .ok w

/-- `on_push_button_add_clicked`, and `on_action_open_torrent_triggered` after the dialog. -/
def add (answer : Option (TorrentStatus Rest)) :
    Except WindowFault (WindowReply Rest × Window Rest) :=
  match w.dialog with
  | .adding source save _ => do
    let torrent : MainWindow.Torrent := ⟨source, save, encodeMarks (getMarks w.api.holder)⟩
    let (reply, api) ← call lt w.api (.createDownload (toStdString source) answer)
    let w := { w with
      curTorrens := w.curTorrens ++ [{ toTorrent := torrent }]
      items := w.items ++ [⟨source, none⟩]
      api := api
      dialog := .closed }
    match reply with
    | .added params priority => return (.added torrent params priority, w)
    | _ => return (.done, w)
  | _ => .ok (.done, w)

/-- `on_action_delete_torrent_triggered`, from the reply on. -/
def reply (reply : DeleteReply) (moved : Option ℕ) (updates : List (Update Rest)) (valid : Bool) :
    Except WindowFault (Window Rest) :=
  if reply = .cancel then .ok { w with dialog := .closed }
  else do
    let (row, torrent) ← w.current
    let w ← takeItem { w with dialog := .closed } row moved
    let (_, api) ← call lt w.api (.removeDownload (toStdString torrent.name) updates valid)
    return { w with curTorrens := w.curTorrens.eraseIdx row, api := api }

/-- `on_action_pause_torrent_triggered`. -/
def pauseTorrent (updates : List (Update Rest)) (valid : Bool) :
    Except WindowFault (Window Rest) := do
  let (row, torrent) ← w.current
  let (_, api) ← call lt w.api (.pauseDownload (toStdString torrent.name) updates valid)
  return { w with
    curTorrens := w.curTorrens.set row { torrent with
      download := false
      progressBar := { torrent.progressBar with highlight := .gray } }
    api := api
    pauseEnabled := false
    startEnabled := true }

/-- `on_action_start_torrent_triggered`. -/
def startTorrent (updates : List (Update Rest)) (valid : Bool) :
    Except WindowFault (Window Rest) := do
  let (row, torrent) ← w.current
  let (_, api) ← call lt w.api (.resumeDownload (toStdString torrent.name) updates valid)
  return { w with
    curTorrens := w.curTorrens.set row { torrent with
      download := true
      progressBar := { torrent.progressBar with highlight := .blue } }
    api := api
    pauseEnabled := true
    startEnabled := false }

/-- `getInfo`, which replies with the information. -/
def getInfo (api : TorrentAPI Rest) (file : Bytes) (updates : List (Update Rest)) :
    Except WindowFault (TorrentInfo × TorrentAPI Rest) := do
  match ← call lt api (.getInfo file updates) with
  | (.info info, api) => return (info, api)
  | _ => .error .threw

/-- The label of the time, in `update_statistic`: a torrent that is downloading has one. -/
def timeLabel (updates : ℕ → List (Update Rest)) (api : TorrentAPI Rest)
    (torrent : MainWindow.Entry) (state : Bytes) :
    Except WindowFault (Option QString × TorrentAPI Rest) :=
  if state = text "downloading" then do
    let (_, api) ← getInfo lt api (toStdString torrent.name) (updates 2)
    let (info, api) ← getInfo lt api (toStdString torrent.name) (updates 3)
    return (some (if torrent.download then .ofText info.remainTime else .of "PAUSE"), api)
  else return (none, api)

/-- The body of the loop of `update_statistic`, up to the item: each `getInfo` takes the updates
there are by then. -/
def refresh (updates : ℕ → List (Update Rest)) (api : TorrentAPI Rest)
    (torrent : MainWindow.Entry) :
    Except WindowFault (ItemWidget × MainWindow.Entry × TorrentAPI Rest) := do
  let (info, api) ← getInfo lt api (toStdString torrent.name) (updates 0)
  let percent := info.percentDownload
  let (info, api) ← getInfo lt api (toStdString torrent.name) (updates 1)
  let (time, api) ← timeLabel lt updates api torrent info.state
  return (⟨torrent.name, time⟩, torrent.moveBar percent, api)

/-- The body of the loop of `update_statistic`. -/
def refreshRow (updates : ℕ → ℕ → List (Update Rest)) (w : Window Rest) (index : ℕ) :
    Except WindowFault (Window Rest) :=
  match w.curTorrens[index]? with
  | none => .error .rowRange
  | some torrent => do
    let (widget, torrent, api) ← refresh lt (updates index) w.api torrent
    if index < w.items.length then
      return { w with
        curTorrens := w.curTorrens.set index torrent
        items := w.items.set index widget
        api := api }
    else .error .rowRange

/-- `update_statistic`. -/
def updateStatistic (updates : ℕ → ℕ → List (Update Rest)) : Except WindowFault (Window Rest) := do
  let w ← (List.range w.curTorrens.length).foldlM (refreshRow lt updates) w
  match w.currentRow with
  | none => return w
  | some row =>
    match w.curTorrens[row]? with
    | none => .error .rowRange
    | some torrent => return if torrent.finished then w.setEnabled false false true else w

/-- One event. -/
def step : WindowEvent Rest → Except WindowFault (WindowReply Rest × Window Rest)
  | .select row => do return (.done, ← w.setCurrentRow row)
  | .openTorrent files source save => do return (.done, ← w.openTorrent lt files source save)
  | .hand id pastLevel => do return (.done, ← w.hand lt id pastLevel)
  | .add answer => w.add lt answer
  | .close => .ok (.done, { w with dialog := .closed })
  | .deleteTorrent => .ok (.done, { w with dialog := .asking })
  | .reply reply moved updates valid => do return (.done, ← w.reply lt reply moved updates valid)
  | .pauseTorrent updates valid => do return (.done, ← w.pauseTorrent lt updates valid)
  | .startTorrent updates valid => do return (.done, ← w.startTorrent lt updates valid)
  | .openInFolder => do return (.opened (← w.current).2.locate, w)
  | .updateStatistic updates => do return (.done, ← w.updateStatistic lt updates)

end Slots

/-! ## The beginning and the end -/

/-- The window with the torrents that are read: no row is the current one. -/
def ofList (w : MainWindow Rest) : Window Rest where
  curTorrens := w.curTorrens.map fun torrent => { toTorrent := torrent }
  api := w.api
  items := w.curTorrens.map fun torrent => ⟨torrent.name, none⟩

/-- The constructor of `MainWindow`. -/
def ofDatabase [Inhabited Rest] (env : MainWindow.Restart Rest)
    (database : Option (Json.Members QString)) :
    Except MainWindow.DatabaseFault (Window Rest) := do
  let w : MainWindow Rest := ⟨[], .fresh⟩
  if MainWindow.checkDatabase database then
    return ofList (← MainWindow.readDatabase env (database.getD []) w)
  else return ofList w

/-- The torrents of the list. -/
def torrents (w : Window Rest) : List MainWindow.Torrent := w.curTorrens.map (·.toTorrent)

/-- The destructor of `MainWindow`: what is on disk then. -/
def database (w : Window Rest) : Json.Members QString := MainWindow.writeDatabase w.torrents

end Window

end TorrentX
