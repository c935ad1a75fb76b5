import TorrentX.Client.Sizes
import TorrentX.Gui.Fits

/-!
# Gui/Chosen — is what is checked what is downloaded?

The rows of the dialog are made by `pickDownloadFiles` and clicked any number of times (`Clicked`),
with ticks of the worker in between; what is stored of a torrent are the marks of such rows
(`Chosen`).  So whatever happens to the window, the session gets the priorities of the stored
marks (`Clicked.prioritiesOf_eq`), and where the files of every directory are listed together a file
is downloaded exactly if the box in its row is checked when the torrent is added
(`downloaded_iff_checked`).

A click that covers the last row reads a level just past it.  All of this holds whatever that level
is, since no mark depends on it.
-/

namespace TorrentX

open Wire FilesPicker Outline
open QString (unit toStdString)

variable {Rest : Type} {lt : Libtorrent Rest}

/-! ## Rows that were clicked

Clicked rows are picked rows under marks, and the marks of such rows are determined by the leaves
that are in.  That is why the marks alone, which are all that is stored, give the rows back. -/

/-- The rows of a torrent after some clicks. -/
def Clicked (lt : Libtorrent Rest) (name : QString) (rows : List FileNode) : Prop :=
  ∃ paths holder calls, filesOf lt (toStdString name) = some paths ∧
    pickDownloadFiles [] paths = .ok holder ∧ (∀ c ∈ calls, c.index < holder.length) ∧
    rows = setMarks holder calls

/-- The stored marks are those of such rows. -/
def Chosen (lt : Libtorrent Rest) (t : MainWindow.Torrent) : Prop :=
  ∃ rows, Clicked lt t.name rows ∧ t.marks = encodeMarks (getMarks rows)

/-- The priorities for the stored marks of a torrent, put on its rows as they are. -/
def prioritiesOf (lt : Libtorrent Rest) (t : MainWindow.Torrent) :
    Option (ℕ → Option DownloadPriority) :=
  (filesOf lt (toStdString t.name)).bind fun paths =>
    (pickDownloadFiles [] paths).toOption.map fun holder =>
      createDownload (withMarks holder fun i => t.marks[i]? = some (unit '1'))

/-- A digit for each mark. -/
theorem getElem?_encodeMarks (marks : List Bool) (i : ℕ) :
    (encodeMarks marks)[i]? = some (unit '1') ↔ marks[i]? = some true := by
  rw [encodeMarks, List.getElem?_map]
  cases marks[i]? with
  | none => exact iff_of_false nofun nofun
  | some b => cases b <;> decide

/-- Only the marks of rows count. -/
theorem withMarks_congr {rows : List FileNode} {m m' : ℕ → Bool}
    (h : ∀ i < rows.length, m i = m' i) : withMarks rows m = withMarks rows m' := by
  refine List.ext_getElem? fun i => ?_
  rw [withMarks, withMarks, List.getElem?_mapIdx, List.getElem?_mapIdx]
  rcases Nat.lt_or_ge i rows.length with hi | hi
  · rw [h i hi]
  · rw [List.getElem?_eq_none hi]
    rfl

section Rows

variable {paths : List Bytes} {holder : List FileNode}

/-- Picked rows are the rows of a listing, and unmarked. -/
theorem eq_withMarks_of_pick (h : pickDownloadFiles [] paths = .ok holder) :
    holder = withMarks holder fun _ => false := by
  obtain ⟨F, rfl⟩ := exists_listing_of_pick h
  exact (lists_ofRow F 1).eq_withMarks

/-- Clicks leave the rows under marks that reflect the leaves last marked. -/
theorem exists_marks_of_pick (h : pickDownloadFiles [] paths = .ok holder) {calls : List SetMark}
    (hrange : ∀ c ∈ calls, c.index < holder.length) :
    ∃ m, setMarks holder calls = withMarks holder m ∧ Reflects holder.length (level holder)
      (fun l => LastMarks (fun k => Covers (level holder) k l) calls) m := by
  obtain ⟨m, hm, hreflects⟩ := reflects_of_calls hrange
  rw [← eq_withMarks_of_pick h] at hm
  exact ⟨m, hm, hreflects⟩

/-- The marks that are read are those that were put on. -/
theorem getElem?_getMarks_withMarks (m : ℕ → Bool) (i : ℕ) :
    (getMarks (withMarks holder m))[i]? = some true ↔ i < holder.length ∧ m i = true := by
  rw [getMarks_withMarks]
  simp [List.getElem?_map, Option.map_eq_some_iff, List.getElem?_eq_some_iff]

/-- The stored marks of rows put on the rows that are picked are the rows. -/
theorem withMarks_encodeMarks (m : ℕ → Bool) :
    withMarks holder (fun i => (encodeMarks (getMarks (withMarks holder m)))[i]? = some (unit '1'))
      = withMarks holder m := by
  refine withMarks_congr fun i hi => ?_
  rw [Bool.eq_iff_iff, decide_eq_true_iff, getElem?_encodeMarks, getElem?_getMarks_withMarks]
  exact and_iff_right hi

end Rows

/-- **The priorities of rows that were clicked are those of their stored marks.** -/
theorem Clicked.prioritiesOf_eq {name : QString} {rows : List FileNode} (h : Clicked lt name rows)
    (locate : QString) :
    prioritiesOf lt ⟨name, locate, encodeMarks (getMarks rows)⟩ = some (createDownload rows) := by
  obtain ⟨paths, holder, calls, hpaths, hpick, hrange, rfl⟩ := h
  obtain ⟨m, hm, -⟩ := exists_marks_of_pick hpick hrange
  rw [prioritiesOf, hpaths, Option.bind_some, hpick, hm]
  exact congrArg (fun rows => some (createDownload rows)) (withMarks_encodeMarks m)

/-- Rows that were clicked may be clicked once more. -/
theorem Clicked.setMark {name : QString} {rows : List FileNode} (h : Clicked lt name rows) {id : ℕ}
    (hid : id < rows.length) (mark : Bool) (pastLevel : ℤ) :
    Clicked lt name (FilesPicker.setMark pastLevel rows id mark) := by
  obtain ⟨paths, holder, calls, hpaths, hpick, hrange, rfl⟩ := h
  obtain ⟨m, hm, -⟩ := exists_marks_of_pick hpick hrange
  rw [hm, length_withMarks] at hid
  refine ⟨paths, holder, calls ++ [⟨id, mark, pastLevel⟩], hpaths, hpick, ?_,
    (setMarks_snoc holder calls ⟨id, mark, pastLevel⟩).symm⟩
  exact List.forall_mem_append.2 ⟨hrange, List.forall_mem_singleton.2 hid⟩

/-- The dialog shows a box for each row; the session downloads a file exactly if its box is
checked. -/
def DownloadsChecked (L : FileList) (checkBoxes : List Bool)
    (priority : ℕ → Option DownloadPriority) : Prop :=
  ∀ i p, L.files[i]? = some p → ∃ r b, StandsFor L.holder r p ∧ checkBoxes[r]? = some b ∧
    priority i = some (.ofMark b)

/-- Rows that were clicked, of a torrent whose files are listed together. -/
theorem Clicked.downloadsChecked {name : QString} {rows : List FileNode} (h : Clicked lt name rows)
    {L : FileList} (hfiles : filesOf lt (toStdString name) = some L.paths)
    (hfits : ∀ p ∈ L.files, p.Fits) (hcont : Forest.Contiguous L.components) :
    DownloadsChecked L (getMarks rows) (createDownload rows) := by
  obtain ⟨paths, holder, calls, hpaths, hpick, hrange, rfl⟩ := h
  obtain rfl := Option.some.inj (hfiles.symm.trans hpaths)
  obtain rfl := Except.ok.inj (L.pickDownloadFiles_paths.symm.trans hpick)
  obtain ⟨m, hm, -⟩ := exists_marks_of_pick hpick hrange
  intro i p hp
  obtain ⟨r, hr, hpath⟩ := (L.getElem?_leafPaths i p.components).1
    (FileList.inOrder_of_contiguous hfits hcont i p hp)
  have hlt : r < L.holder.length := lt_length_of_mem_leafRows (List.mem_of_getElem? hr)
  refine ⟨r, m r, L.standsFor_iff.2 hpath, ?_, ?_⟩
  · rw [hm, getMarks_withMarks, List.getElem?_map, List.getElem?_range hlt]
    rfl
  · rw [hm, createDownload_withMarks, hr]
    rfl

/-! ## The window -/

namespace Window

variable {w w' : Window Rest}

/-- The rows of the dialog were picked and clicked. -/
def Choosing (lt : Libtorrent Rest) (w : Window Rest) : Prop :=
  ∀ source save window, w.dialog = .adding source save window → Clicked lt source w.api.holder

/-- What is stored of each torrent was chosen. -/
def AllChosen (lt : Libtorrent Rest) (w : Window Rest) : Prop := ∀ t ∈ w.torrents, Chosen lt t

/-- **In the dialog rows are only clicked**, whatever else happens to the window. -/
theorem Choosing.of_effect (h : Choosing lt w) {e : WindowEvent Rest} {r : WindowReply Rest}
    (heffect : Effect lt w e r w') : Choosing lt w' := by
  cases heffect with
  | select => exact h
  | refused => exact h
  | @opened _ source _ paths api hpaths hpick =>
    rintro _ _ _ ⟨⟩
    exact ⟨paths, api.holder, [], hpaths, hpick, nofun, rfl⟩
  | clicked hdialog hid hholder =>
    rintro _ _ _ ⟨⟩
    exact hholder ▸ (h _ _ _ hdialog).setMark hid _ _
  | paused _ _ _ hholder =>
    exact fun source save window hdialog => hholder.symm ▸ h source save window hdialog
  | started _ _ _ hholder =>
    exact fun source save window hdialog => hholder.symm ▸ h source save window hdialog
  | folder => exact h
  | @refreshed updates s hs =>
    have hchoosing : Choosing lt s := by
      intro source save window hdialog
      rw [hs.asks.holder_eq]
      exact h source save window (hs.dialog ▸ hdialog)
    split <;> exact hchoosing
  | _ => exact nofun

/-- **What is stored was chosen**: nothing but the dialog adds a torrent. -/
theorem AllChosen.of_effect (h : AllChosen lt w) (hchoosing : Choosing lt w) {e : WindowEvent Rest}
    {r : WindowReply Rest} (heffect : Effect lt w e r w') : AllChosen lt w' := by
  cases heffect with
  | added hdialog htorrent =>
    subst htorrent
    rw [AllChosen, torrents_grown]
    exact List.forall_mem_append.2 ⟨h,
      List.forall_mem_singleton.2 ⟨_, hchoosing _ _ _ hdialog, rfl⟩⟩
  | removed =>
    rw [AllChosen, torrents_shrunk]
    exact fun t ht => h t (List.mem_of_mem_eraseIdx ht)
  | paused _ ht =>
    rw [AllChosen, torrents_toggled ht]
    exact h
  | started _ ht =>
    rw [AllChosen, torrents_toggled ht]
    exact h
  | @refreshed updates s hs =>
    have hchosen : AllChosen lt s := by
      rw [AllChosen, hs.torrents_eq]
      exact h
    split <;> exact hchosen
  | _ => exact h

/-- No dialog is open at the start. -/
theorem choosing_ofList (w : MainWindow Rest) : Choosing lt (ofList w) := nofun

/-- Fitting parts and clicked rows, event after event. -/
theorem fits_and_choosing (h : Fits w ∧ Choosing lt w) {e : WindowEvent Rest} (he : w.Possible e) :
    Outcome (fun x => Fits x.2 ∧ Choosing lt x.2) WindowFault.InRange (w.step lt e) :=
  (step_outcome h.1 he).mono fun _ heffect => ⟨h.1.of_effect heffect, h.2.of_effect heffect⟩

/-! ## What is downloaded -/

section Runs

variable [Inhabited Rest] {w₀ : Window Rest} {env : MainWindow.Restart Rest}
  {database : Option (Json.Members QString)} {tr : List (WindowEvent Rest × WindowReply Rest)}

/-- If the event adds a torrent, its dialog is open, the boxes are what is stored, and the session
gets the priorities of what is stored; with the files listed together, the checked files are
downloaded. -/
def AddsChecked (lt : Libtorrent Rest) (w : Window Rest) (x : WindowEvent Rest × WindowReply Rest) :
    Prop :=
  ∀ answer, x.1 = .add answer → ∃ source save window params priority,
    w.dialog = .adding source save window ∧
    x.2 = .added ⟨source, save, encodeMarks window.checkBoxes⟩ params priority ∧
    prioritiesOf lt ⟨source, save, encodeMarks window.checkBoxes⟩ = some priority ∧
    ∀ L : FileList, filesOf lt (toStdString source) = some L.paths →
      (∀ p ∈ L.files, p.Fits) → Forest.Contiguous L.components →
        DownloadsChecked L window.checkBoxes priority

/-- **What is checked is what is downloaded**, whenever a torrent is added, and whatever level the
reads just past the last row yield. -/
theorem downloaded_iff_checked (h₀ : ofDatabase env database = .ok w₀)
    (hpossible : EveryStep (step lt) w₀ (fun _ w x _ => w.Possible x.1) tr) :
    EveryStep (step lt) w₀ (fun _ w x _ => AddsChecked lt w x) tr := by
  obtain ⟨w', rfl⟩ := exists_ofList_of_ofDatabase h₀
  refine EveryStep.of_invariant (fun _ _ h he => fits_and_choosing h he) ?_
    ⟨fits_ofList w', choosing_ofList w'⟩ hpossible
  rintro t u e r ⟨hfits, hchoosing⟩ he hstep answer rfl
  have heffect := (step_outcome hfits he).of_ok hstep
  cases heffect with
  | @added status source save window torrent api hdialog htorrent =>
    have hboxes := hfits.boxes source save window hdialog
    have hclicked := hchoosing source save window hdialog
    refine ⟨source, save, window, _, _, hdialog, by rw [hboxes, ← htorrent],
      by rw [hboxes, hclicked.prioritiesOf_eq], fun L hfiles hL hcont => ?_⟩
    rw [hboxes]
    exact hclicked.downloadsChecked hfiles hL hcont

end Runs

/-- A directory is checked, its second file is cleared, and the torrent is added: it has three rows
and two files, of which the first is downloaded. -/
theorem downloaded_iff_checked_firstOfTwo : ∃ tr w,
    Run (step twoFilesInOne.lt) (ofList ⟨[], .fresh⟩) tr w ∧
    tr.map Prod.fst = [.openTorrent MainWindow.allThere (.of "t.torrent") (.of "/"), .hand 0 0,
      .hand 2 0, .add (some { handle := some 0 })] ∧
    w.torrents = [⟨.of "t.torrent", .of "/", .of "010"⟩] ∧
    EveryStep (step twoFilesInOne.lt) (ofList ⟨[], .fresh⟩)
      (fun _ w x _ => AddsChecked twoFilesInOne.lt w x) tr := by
  have h₁ : Run (step twoFilesInOne.lt) (ofList ⟨[], .fresh⟩)
      [(.openTorrent MainWindow.allThere (.of "t.torrent") (.of "/"), _)] _ := .snoc .nil rfl
  have h₂ : Run (step twoFilesInOne.lt) _ (_ ++ [(.hand 0 0, _)]) _ := .snoc h₁ rfl
  have h₃ : Run (step twoFilesInOne.lt) _ (_ ++ [(.hand 2 0, _)]) _ := .snoc h₂ rfl
  have hr : Run (step twoFilesInOne.lt) _
      (_ ++ [(.add (some { handle := some 0 }), _)]) _ := .snoc h₃ rfl
  refine ⟨_, _, hr, rfl, rfl, ?_⟩
  refine @downloaded_iff_checked _ _ _ _ twoFilesInOne none _ rfl ?_
  refine (everyStep_snoc h₃ rfl).2 ⟨(everyStep_snoc h₂ rfl).2 ⟨(everyStep_snoc h₁ rfl).2
    ⟨(everyStep_snoc .nil rfl).2 ⟨everyStep_nil, rfl⟩, ?_⟩, ?_⟩, ?_⟩
  · exact ⟨_, _, _, rfl, by decide⟩
  · exact ⟨_, _, _, rfl, by decide⟩
  · exact ⟨_, _, _, rfl⟩

end Window

end TorrentX
