import TorrentX.Machinery.Outcome
import TorrentX.Client.Calls
import TorrentX.Gui.Restore
import TorrentX.Gui.Window

/-!
# Gui/Slots — what each slot does

The slots of the window make calls of the client: `update_statistic` asks for the state of each
torrent and nothing else (`Asks`), and no call but those of the dialog touches the rows of the
picker (`holder_of_step`).  What `update_statistic` does to the window is said once, with the
faults it may end with (`refresh_outcome`, `refreshRow_outcome`): each torrent keeps its name and
its marks, each item gets the label of its torrent, and the calls are all of the asking kind.
-/

namespace TorrentX

open Wire FilesPicker
open QString (unit toStdString)

/-! ## Calls

The picker and the linker are two halves of the client: a call of the dialog works on the rows, any
other on the handles.  So what a slot does to the one half says nothing is done to the other. -/

/-- A call that is made for the dialog. -/
def ApiCall.Edits : ApiCall Rest → Prop
  | .prepareDownload .. | .pickDownloadFiles | .setMark .. => True
  | _ => False

section Calls

variable {Rest : Type} {lt : Libtorrent Rest} {api api' : TorrentAPI Rest} {c : ApiCall Rest}
  {r : ApiReply Rest}

/-- The other calls leave the rows of the picker as they are. -/
theorem holder_of_step (h : api.step lt c = .ok (r, api')) (hc : ¬ c.Edits) :
    api'.holder = api.holder := by
  cases c with
  | prepareDownload file path => exact absurd trivial hc
  | pickDownloadFiles => exact absurd trivial hc
  | setMark index mark pastLevel => exact absurd trivial hc
  | createDownload file answer =>
    obtain ⟨-, rfl⟩ := Prod.mk.inj (Except.ok.inj h)
    cases answer <;> rfl
  | getInfo file updates =>
    rw [TorrentAPI.step, TorrentAPI.getInfo] at h
    dsimp only at h
    split at h <;> cases h
    rfl
  | pauseDownload file updates valid =>
    obtain ⟨-, rfl⟩ := Prod.mk.inj (Except.ok.inj h)
    rfl
  | resumeDownload file updates valid =>
    obtain ⟨-, rfl⟩ := Prod.mk.inj (Except.ok.inj h)
    rfl
  | removeDownload file updates valid =>
    obtain ⟨-, rfl⟩ := Prod.mk.inj (Except.ok.inj h)
    rfl

/-- A mark is set in place. -/
theorem step_setMark {index : ℕ} {mark : Bool} {pastLevel : ℤ}
    (h : api.step lt (.setMark index mark pastLevel) = .ok (r, api')) :
    index < api.holder.length ∧
      api' = { api with holder := setMark pastLevel api.holder index mark } := by
  obtain ⟨api'', hmark, h⟩ := exists_of_bind_eq_ok h
  obtain ⟨-, rfl⟩ := Prod.mk.inj (Except.ok.inj h)
  rw [TorrentAPI.setMark] at hmark
  split at hmark
  · next hlt => exact ⟨hlt, (Except.ok.inj hmark).symm⟩
  · cases hmark

/-- Preparing a download leaves no row and, unless it throws, the files of the torrent. -/
theorem step_prepareDownload {file path : Bytes}
    (h : api.step lt (.prepareDownload file path) = .ok (r, api')) :
    api'.holder = [] ∧ (r ≠ .threw → api'.params.ti = filesOf lt file) := by
  have hti := ti_setFile lt api.params file
  have h : api.prepareDownload lt file path = (r, api') := Except.ok.inj h
  rw [TorrentAPI.prepareDownload] at h
  cases hfile : TorrentAPI.setFile lt api.params file with
  | none =>
    rw [hfile] at h
    cases h
    exact ⟨rfl, fun hne => absurd rfl hne⟩
  | some params =>
    rw [hfile] at h hti
    cases h
    exact ⟨rfl, fun _ => hti⟩

/-- Picking files where no row is left. -/
theorem step_pickDownloadFiles (hholder : api.holder = [])
    (h : api.step lt .pickDownloadFiles = .ok (r, api')) :
    ∃ files, api.params.ti = some files ∧
      TorrentX.pickDownloadFiles [] files = .ok api'.holder := by
  obtain ⟨api'', hpick, h⟩ := exists_of_bind_eq_ok h
  obtain ⟨-, rfl⟩ := Prod.mk.inj (Except.ok.inj h)
  rw [TorrentAPI.pickDownloadFiles, hholder] at hpick
  cases hti : api.params.ti with
  | none =>
    rw [hti] at hpick
    cases hpick
  | some files =>
    rw [hti] at hpick
    dsimp only at hpick
    split at hpick
    · cases hpick
    · next holder hrows =>
      obtain rfl := Except.ok.inj hpick
      exact ⟨files, rfl, hrows⟩

/-- The rows that are picked are the preorder listing of a forest, whatever the files are. -/
theorem exists_listing_of_pick {files : List Bytes} {holder : List FileNode}
    (h : TorrentX.pickDownloadFiles [] files = .ok holder) :
    ∃ F : Forest Bytes, holder = (F.listing 1).map FileNode.ofRow := by
  rcases Nat.lt_or_ge (rowCount files) maxFiles with hlt | hge
  · rw [rowCount, ← size_insertAll_eq] at hlt
    have hrows := pickDownloadFiles_eq plain_splitOn_files hlt
    rw [joined_splitOn_files, h] at hrows
    exact ⟨_, Except.ok.inj hrows⟩
  · rw [pickDownloadFiles_eq_treeRange [] hge] at h
    cases h

/-- Nothing is marked then. -/
theorem getMarks_of_pick {files : List Bytes} {holder : List FileNode}
    (h : TorrentX.pickDownloadFiles [] files = .ok holder) :
    getMarks holder = holder.map fun _ => false := by
  obtain ⟨F, rfl⟩ := exists_listing_of_pick h
  rw [getMarks, List.map_map, List.map_map]
  rfl

/-- A call is out of the rows only where it sets a mark there. -/
theorem step_ne_rowRange (lt : Libtorrent Rest)
    (hc : ∀ index mark pastLevel, c = .setMark index mark pastLevel → index < api.holder.length) :
    api.step lt c ≠ .error .rowRange := by
  cases c with
  | pickDownloadFiles =>
    rw [TorrentAPI.step, TorrentAPI.pickDownloadFiles]
    split
    · exact fun h => by cases h
    · split <;> exact fun h => by cases h
  | setMark index mark pastLevel =>
    rw [TorrentAPI.step, TorrentAPI.setMark, if_pos (hc index mark pastLevel rfl)]
    exact fun h => by cases h
  | getInfo file updates =>
    rw [TorrentAPI.step, TorrentAPI.getInfo]
    dsimp only
    split <;> exact fun h => by cases h
  | _ => exact fun h => by cases h

/-- The state of names in `files` was asked for, any number of times. -/
def Asks (lt : Libtorrent Rest) (files : Set Bytes) : TorrentAPI Rest → TorrentAPI Rest → Prop :=
  Relation.ReflTransGen fun api api' =>
    ∃ file ∈ files, ∃ updates r, api.step lt (.getInfo file updates) = .ok (r, api')

/-- More names may be asked for. -/
theorem Asks.mono {files files' : Set Bytes} (h : Asks lt files api api') (hsub : files ⊆ files') :
    Asks lt files' api api' := by
  refine Relation.ReflTransGen.mono ?_ _ _ h
  rintro _ _ ⟨file, hfile, hstep⟩
  exact ⟨file, hsub hfile, hstep⟩

/-- Asking leaves the rows of the picker alone. -/
theorem Asks.holder_eq {files : Set Bytes} (h : Asks lt files api api') :
    api'.holder = api.holder := by
  induction h with
  | refl => rfl
  | tail _ hstep ih =>
    obtain ⟨file, -, updates, r, hstep⟩ := hstep
    exact (holder_of_step hstep id).trans ih

end Calls

/-! ## Faults -/

/-- Neither a subscript of the window nor one of the rows in its dialog. -/
def WindowFault.InRange (fault : WindowFault) : Prop :=
  fault ≠ .rowRange ∧ fault ≠ .fault .rowRange

namespace Window

variable {Rest : Type} {lt : Libtorrent Rest} {w : Window Rest}

/-- A call of the client replies, unless it throws or has a fault that is none of the rows. -/
theorem call_outcome (api : TorrentAPI Rest) (c : ApiCall Rest)
    (hc : ∀ index mark pastLevel, c = .setMark index mark pastLevel → index < api.holder.length) :
    Outcome (fun x => api.step lt c = .ok x ∧ x.1 ≠ .threw) WindowFault.InRange
      (call lt api c) := by
  rw [call]
  cases hstep : api.step lt c with
  | error fault =>
    refine ⟨nofun, fun h => step_ne_rowRange lt hc ?_⟩
    rw [hstep, WindowFault.fault.inj h]
  | ok x =>
    obtain ⟨r, api'⟩ := x
    cases r with
    | threw => exact ⟨nofun, nofun⟩
    | _ => exact ⟨rfl, nofun⟩

/-- `getInfo` asks for one name. -/
theorem getInfo_outcome (api : TorrentAPI Rest) (file : Bytes) (updates : List (Update Rest)) :
    Outcome (fun x => Asks lt {file} api x.2) WindowFault.InRange
      (getInfo lt api file updates) := by
  refine (call_outcome api (.getInfo file updates) nofun).bind ?_
  rintro ⟨r, api'⟩ ⟨hstep, -⟩
  cases r with
  | info info => exact .single ⟨file, rfl, updates, _, hstep⟩
  | _ => exact ⟨nofun, nofun⟩

/-! ## Refreshing

`update_statistic` is a loop over the torrents that may return early, and may end in a fault half
way.  Whatever it leaves is related to the window it was given by `RefreshedFrom`, which each pass
keeps. -/

/-- The bar of a torrent has the colour of its flags. -/
def colour (t : MainWindow.Entry) : Highlight :=
  if t.finished then .green else if t.download then .blue else .gray

/-- What a refresh may do to a torrent: it moves the bar, and finishes the torrent. -/
structure Refreshed (t t' : MainWindow.Entry) : Prop where
  torrent : t'.toTorrent = t.toTorrent
  download : t'.download = t.download
  finished : t.finished = true → t'.finished = true
  colour : t.progressBar.highlight = colour t → t'.progressBar.highlight = Window.colour t'

/-- To do nothing is a refresh. -/
theorem Refreshed.refl (t : MainWindow.Entry) : Refreshed t t := ⟨rfl, rfl, id, id⟩

/-- Two refreshes are one. -/
theorem Refreshed.trans {t t' t'' : MainWindow.Entry} (h : Refreshed t t') (h' : Refreshed t' t'') :
    Refreshed t t'' where
  torrent := h'.torrent.trans h.torrent
  download := h'.download.trans h.download
  finished := h'.finished ∘ h.finished
  colour := h'.colour ∘ h.colour

/-- The value of a bar leaves its colour alone. -/
theorem setValue_highlight (bar : ProgressBar) (value : ℤ) :
    (bar.setValue value).highlight = bar.highlight := by
  rw [ProgressBar.setValue]
  split <;> rfl

/-- The bar is moved; it turns green where the torrent is finished with it. -/
theorem refreshed_moveBar (t : MainWindow.Entry) (percent : ℕ) :
    Refreshed t (t.moveBar percent) := by
  have hbar := setValue_highlight t.progressBar (castInt percent)
  rw [MainWindow.Entry.moveBar]
  generalize t.progressBar.setValue (castInt percent) = bar at hbar ⊢
  split
  · exact ⟨rfl, rfl, fun _ => rfl, fun _ => rfl⟩
  · exact ⟨rfl, rfl, id, hbar.trans⟩

/-- The text of the time left is made of one more state of the torrent. -/
theorem timeLabel_outcome (updates : ℕ → List (Update Rest)) (api : TorrentAPI Rest)
    (t : MainWindow.Entry) (state : Bytes) :
    Outcome (fun x => Asks lt {toStdString t.name} api x.2) WindowFault.InRange
      (timeLabel lt updates api t state) := by
  rw [timeLabel]
  split
  · refine (getInfo_outcome api _ _).bind ?_
    rintro ⟨_, api₁⟩ h₁
    refine (getInfo_outcome api₁ _ _).bind ?_
    rintro ⟨info, api₂⟩ h₂
    exact h₁.trans h₂
  · exact .refl

/-- **One torrent**: it keeps its name, and its state is asked for. -/
theorem refresh_outcome (updates : ℕ → List (Update Rest)) (api : TorrentAPI Rest)
    (t : MainWindow.Entry) :
    Outcome (fun x => x.1.label = t.name ∧ Refreshed t x.2.1 ∧
      Asks lt {toStdString t.name} api x.2.2) WindowFault.InRange (refresh lt updates api t) := by
  rw [refresh]
  refine (getInfo_outcome api _ _).bind ?_
  rintro ⟨info, api₁⟩ h₁
  refine (getInfo_outcome api₁ _ _).bind ?_
  rintro ⟨info', api₂⟩ h₂
  refine (timeLabel_outcome updates api₂ t info'.state).bind ?_
  rintro ⟨time, api₃⟩ h₃
  exact ⟨rfl, refreshed_moveBar t info.percentDownload, (h₁.trans h₂).trans h₃⟩

/-- The names of the torrents, as the client gets them. -/
def files (w : Window Rest) : Set Bytes := {file | ∃ t ∈ w.torrents, toStdString t.name = file}

/-- The items are labelled with the names of the torrents. -/
def Labelled (w : Window Rest) : Prop := w.items.map ItemWidget.label = w.torrents.map (·.name)

/-- Some torrents of a window were refreshed, or all; nothing else was changed. -/
structure RefreshedFrom (lt : Libtorrent Rest) (w w' : Window Rest) : Prop where
  curTorrens : List.Forall₂ Refreshed w.curTorrens w'.curTorrens
  labelled : w'.Labelled
  row : w'.currentRow = w.currentRow
  pause : w'.pauseEnabled = w.pauseEnabled
  start : w'.startEnabled = w.startEnabled
  delete : w'.deleteEnabled = w.deleteEnabled
  dialog : w'.dialog = w.dialog
  asks : Asks lt w.files w.api w'.api

/-- As many items as torrents. -/
theorem Labelled.length_eq (h : w.Labelled) : w.items.length = w.curTorrens.length := by
  have hlength := congrArg List.length h
  rwa [List.length_map, List.length_map, torrents, List.length_map] at hlength

theorem forall₂_refl (l : List MainWindow.Entry) : List.Forall₂ Refreshed l l :=
  List.forall₂_same.2 fun t _ => .refl t

theorem forall₂_set {l l' : List MainWindow.Entry} {i : ℕ} {t t' : MainWindow.Entry}
    (h : List.Forall₂ Refreshed l l') (ht : l'[i]? = some t) (hrefreshed : Refreshed t t') :
    List.Forall₂ Refreshed l (l'.set i t') := by
  induction h generalizing i with
  | nil => cases ht
  | cons hab htail ih =>
    cases i with
    | zero =>
      obtain rfl := Option.some.inj ht
      exact .cons (hab.trans hrefreshed) htail
    | succ i => exact .cons hab (ih ht)

theorem forall₂_getElem? {l l' : List MainWindow.Entry} (h : List.Forall₂ Refreshed l l') {i : ℕ}
    {t' : MainWindow.Entry} (ht' : l'[i]? = some t') : ∃ t, l[i]? = some t ∧ Refreshed t t' := by
  induction h generalizing i with
  | nil => cases ht'
  | cons hab _ ih =>
    cases i with
    | zero => exact ⟨_, rfl, Option.some.inj ht' ▸ hab⟩
    | succ i => exact ih ht'

/-- A refresh keeps the torrents apart from their bars and flags. -/
theorem torrents_eq_of_forall₂ {l l' : List MainWindow.Entry} (h : List.Forall₂ Refreshed l l') :
    l'.map (·.toTorrent) = l.map (·.toTorrent) := by
  induction h with
  | nil => rfl
  | cons hab _ ih => rw [List.map_cons, List.map_cons, hab.torrent, ih]

/-- The torrents are those of the window before. -/
theorem RefreshedFrom.torrents_eq {w w' : Window Rest} (h : RefreshedFrom lt w w') :
    w'.torrents = w.torrents := torrents_eq_of_forall₂ h.curTorrens

/-- A torrent and its item are written together. -/
theorem Labelled.set (h : w.Labelled) (i : ℕ) {t : MainWindow.Entry} {widget : ItemWidget}
    (api : TorrentAPI Rest) (hlabel : widget.label = t.name) :
    Labelled { w with
      curTorrens := w.curTorrens.set i t, items := w.items.set i widget, api := api } := by
  rw [Labelled, torrents] at h ⊢
  rw [List.map_set, List.map_map, List.map_set, h, List.map_map]
  exact congrArg _ hlabel

/-- **One pass of the loop.** -/
theorem refreshRow_outcome {s : Window Rest} (h : RefreshedFrom lt w s)
    (updates : ℕ → ℕ → List (Update Rest)) {index : ℕ} (hindex : index < w.curTorrens.length) :
    Outcome (RefreshedFrom lt w) WindowFault.InRange (refreshRow lt updates s index) := by
  have hlt : index < s.curTorrens.length := h.curTorrens.length_eq ▸ hindex
  have ht : s.curTorrens[index]? = some s.curTorrens[index] := List.getElem?_eq_getElem hlt
  rw [refreshRow, ht]
  refine (refresh_outcome (updates index) s.api s.curTorrens[index]).bind ?_
  rintro ⟨widget, t', api⟩ ⟨hlabel, hrefreshed, hasks⟩
  have hitems : index < s.items.length := h.labelled.length_eq ▸ hlt
  dsimp only
  rw [if_pos hitems]
  refine ⟨forall₂_set h.curTorrens ht hrefreshed, h.labelled.set index api
    (hlabel.trans (congrArg MainWindow.Torrent.name hrefreshed.torrent).symm), h.row, h.pause,
    h.start, h.delete, h.dialog, h.asks.trans (hasks.mono ?_)⟩
  rintro _ rfl
  have hmem : s.curTorrens[index].toTorrent ∈ s.torrents :=
    List.mem_map_of_mem (List.getElem_mem hlt)
  exact ⟨_, h.torrents_eq ▸ hmem, rfl⟩

end Window

end TorrentX
