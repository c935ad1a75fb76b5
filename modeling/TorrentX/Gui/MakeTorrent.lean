import TorrentX.Gui.Database
import TorrentX.Machinery.Joined
import TorrentX.Machinery.Outcome

/-!
# Gui/MakeTorrent — the form of a new torrent

The model of `MakeTorrentWindow`, click after click, and of the torrent that is made when it closes.
The form keeps each path that was chosen, and shows it only if it can be read or written to; the
trackers are split into lines when the torrent is asked for.  What it is at any time is in the
history: the last of each choice and of each text (`agrees_of_run`).

So `makeTorrent` is called exactly once the form is complete (`made_iff`), with the last choices, be
they shown or refused; they are what the form shows as long as no choice is refused (`shows_iff`).
A directory that was refused is called with all the same, and the stream that does not open there is
not looked at: nothing is written, and nothing is said.
-/

namespace TorrentX

open Wire Joined
open QString (unit toStdString)

/-! ## The torrent

What libtorrent puts into a torrent file is its own business, so the file is whatever it generates.
The path of the stream is made here, by joining three strings; nothing looks whether the stream
opened. -/

/-- What `makeTorrent` meets: what libtorrent makes of files, trackers and a creator, if it makes
anything, and the paths at which a stream opens. -/
structure Maker where
  generate : Bytes → List Bytes → Bytes → Option Bytes
  opens : Bytes → Bool

/-- A call of `makeTorrent`: what libtorrent is given, the path of the stream, and what is written
there. -/
structure MadeTorrent where
  pathToFiles : Bytes
  trackers : List Bytes
  creator : Bytes
  fullPath : Bytes
  written : Option Bytes
deriving DecidableEq

/-- `TorrentAPI::makeTorrent`.  A stream that is not open takes what it is given, and drops it. -/
def makeTorrent (maker : Maker) (pathToFiles : Bytes) (trackers : List Bytes)
    (pathToTorrentFile torrentFileName : Bytes) : MadeTorrent :=
  let creator := text "TorrentX"
  let fullPath := pathToTorrentFile ++ text "/" ++ torrentFileName ++ text ".torrent"
  { pathToFiles, trackers, creator, fullPath
    written :=
      if maker.opens fullPath then maker.generate pathToFiles trackers creator else none }

/-! ## The form -/

/-- `MakeTorrentWindow`, with what its widgets show.  The constructor checks `File`. -/
structure MakeTorrentWindow where
  radioButtonFolder : Bool := false
  radioButtonFile : Bool := true
  textBrowserSource : QString := []
  textBrowserSaveLocation : QString := []
  textEditTrackers : QString := []
  lineEditName : QString := []
  pathToSaveDirectory : QString := []
  pathToSource : QString := []
  trackers : List QString := []
  name : QString := []
  good : Bool := false
  opened : Bool := true
deriving DecidableEq

/-- What happens to the form, with what the file dialogs return and what the files are. -/
inductive FormEvent
  | radioButtonFolder
  | radioButtonFile
  | source (files : FileSystem) (path : QString)
  | saveLocation (files : FileSystem) (path : QString)
  | typeTrackers (trackers : QString)
  | typeName (name : QString)
  | new
  | close

/-- What comes of it. -/
inductive FormReply
  | done
  | warning (message : String)
  | closed (torrent : Option MadeTorrent)
deriving DecidableEq

namespace MakeTorrentWindow

/-- The lines that are not empty. -/
def trackersOf (plainText : QString) : List QString :=
  (plainText.splitOn (unit '\n')).filter (· ≠ [])

section Slots

variable (maker : Maker) (w : MakeTorrentWindow)

/-- `on_push_button_source_clicked`, once a path is chosen; a choice that is cancelled is empty. -/
def pushButtonSource (files : FileSystem) (path : QString) : FormReply × MakeTorrentWindow :=
  let sourceType := if w.radioButtonFile then "file" else "folder"
  let w := { w with pathToSource := path }
  if path = [] then (.done, w)
  else if ¬ files.isReadable path then (.warning ("This is not a readable " ++ sourceType), w)
  else (.done, { w with textBrowserSource := path })

/-- `on_push_button_save_location_clicked`. -/
def pushButtonSaveLocation (files : FileSystem) (path : QString) : FormReply × MakeTorrentWindow :=
  let w := { w with pathToSaveDirectory := path }
  if path = [] then (.done, w)
  else if ¬ files.isWritable path then (.warning "This is not a writable directory", w)
  else (.done, { w with textBrowserSaveLocation := path })

/-- `on_action_create_torrent_triggered`, after the form: a form that is not good makes nothing. -/
def created : Option MadeTorrent :=
  if w.good then
    some (makeTorrent maker (toStdString w.pathToSource) (w.trackers.map toStdString)
      (toStdString w.pathToSaveDirectory) (toStdString w.name))
  else none

/-- `close`, with which the form returns. -/
def close : FormReply × MakeTorrentWindow := (.closed (w.created maker), { w with opened := false })

/-- `on_push_button_new_clicked`. -/
def pushButtonNew : FormReply × MakeTorrentWindow :=
  let w := { w with trackers := trackersOf w.textEditTrackers, name := w.lineEditName }
  if w.pathToSaveDirectory = [] then (.warning "Choose the save directory", w)
  else if w.pathToSource = [] then (.warning "Choose the source file/folder", w)
  else if w.trackers = [] then (.warning "Enter at least one tracker", w)
  else if w.name = [] then (.warning "Enter the name", w)
  else close maker { w with good := true }

/-- One event. -/
def slot : FormEvent → FormReply × MakeTorrentWindow
  | .radioButtonFolder => (.done, { w with radioButtonFolder := true, radioButtonFile := false })
  | .radioButtonFile => (.done, { w with radioButtonFolder := false, radioButtonFile := true })
  | .source files path => w.pushButtonSource files path
  | .saveLocation files path => w.pushButtonSaveLocation files path
  | .typeTrackers trackers => (.done, { w with textEditTrackers := trackers })
  | .typeName name => (.done, { w with lineEditName := name })
  | .new => w.pushButtonNew maker
  | .close => w.close maker

/-- One event, which never faults. -/
def step (e : FormEvent) : Except Empty (FormReply × MakeTorrentWindow) := .ok (w.slot maker e)

end Slots

/-! ## The trackers -/

/-- **Trackers that are typed one in a line are the trackers.** -/
theorem trackersOf_joined {trackers : List QString} (hplain : Plain (unit '\n') trackers)
    (hne : ∀ t ∈ trackers, t ≠ []) : trackersOf (joined (unit '\n') trackers) = trackers := by
  rcases eq_or_ne trackers [] with rfl | hcons
  · rfl
  · rw [trackersOf, joined, List.splitOn_intercalate (unit '\n') hplain hcons, List.filter_eq_self]
    exact fun t ht => decide_eq_true (hne t ht)

/-- No tracker is empty, and none has a line break. -/
theorem mem_trackersOf {plainText t : QString} (ht : t ∈ trackersOf plainText) :
    t ≠ [] ∧ unit '\n' ∉ t := by
  obtain ⟨hsplit, hne⟩ := List.mem_filter.1 ht
  exact ⟨of_decide_eq_true hne, plain_splitOn (unit '\n') plainText t hsplit⟩

/-! ## The history

A choice is overwritten by the next choice of its kind, and a text by the next text.  So what the
form has of each is the last in its history. -/

/-- The last text that `f` finds in a history; before the first there is none. -/
def last (f : FormEvent → Option QString) (tr : List (FormEvent × FormReply)) : QString :=
  (tr.filterMap fun x => f x.1).getLast?.getD []

/-- The last of a longer history. -/
theorem last_snoc (f : FormEvent → Option QString) (tr : List (FormEvent × FormReply))
    (x : FormEvent × FormReply) : last f (tr ++ [x]) = (f x.1).getD (last f tr) := by
  have hsnoc : (tr ++ [x]).filterMap (fun x => f x.1)
      = tr.filterMap (fun x => f x.1) ++ (f x.1).toList := by
    rw [List.filterMap_append]
    cases hx : f x.1 <;> simp [hx]
  rw [last, hsnoc, List.getLast?_append, last]
  cases f x.1 <;> rfl

def chosenSource : FormEvent → Option QString
  | .source _ path => some path
  | _ => none

def chosenSaveDirectory : FormEvent → Option QString
  | .saveLocation _ path => some path
  | _ => none

def typedTrackers : FormEvent → Option QString
  | .typeTrackers trackers => some trackers
  | _ => none

def typedName : FormEvent → Option QString
  | .typeName name => some name
  | _ => none

/-! ## What each slot does -/

section Slots

variable (maker : Maker) (w : MakeTorrentWindow)

/-- A choice is kept, and shown only if it can be read. -/
theorem pushButtonSource_snd (files : FileSystem) (path : QString) :
    (w.pushButtonSource files path).2 = { w with
      pathToSource := path
      textBrowserSource :=
        if path ≠ [] ∧ files.isReadable path then path else w.textBrowserSource } := by
  unfold pushButtonSource
  dsimp only
  by_cases hpath : path = []
  · rw [if_pos hpath, if_neg fun h => h.1 hpath]
  · by_cases hread : files.isReadable path
    · rw [if_neg hpath, if_neg (not_not.2 hread), if_pos ⟨hpath, hread⟩]
    · rw [if_neg hpath, if_pos hread, if_neg fun h : _ ∧ _ => hread h.2]

/-- A choice is kept, and shown only if it can be written to. -/
theorem pushButtonSaveLocation_snd (files : FileSystem) (path : QString) :
    (w.pushButtonSaveLocation files path).2 = { w with
      pathToSaveDirectory := path
      textBrowserSaveLocation :=
        if path ≠ [] ∧ files.isWritable path then path else w.textBrowserSaveLocation } := by
  rw [pushButtonSaveLocation]
  by_cases hpath : path = []
  · rw [if_pos hpath, if_neg fun h => h.1 hpath]
  · by_cases hwrite : files.isWritable path
    · rw [if_neg hpath, if_neg (not_not.2 hwrite), if_pos ⟨hpath, hwrite⟩]
    · rw [if_neg hpath, if_pos hwrite, if_neg fun h => hwrite h.2]

/-- Nothing is missing. -/
def Complete : Prop :=
  w.pathToSaveDirectory ≠ [] ∧ w.pathToSource ≠ [] ∧ trackersOf w.textEditTrackers ≠ [] ∧
    w.lineEditName ≠ []

/-- The trackers and the name are read in any case. -/
def readForm : MakeTorrentWindow :=
  { w with trackers := trackersOf w.textEditTrackers, name := w.lineEditName }

/-- **A complete form closes, and one with something missing stays open** with a warning. -/
theorem pushButtonNew_cases :
    (w.Complete ∧ w.pushButtonNew maker = close maker { w.readForm with good := true }) ∨
    (¬ w.Complete ∧ ∃ message, w.pushButtonNew maker = (.warning message, w.readForm)) := by
  rw [pushButtonNew]
  by_cases hsave : w.pathToSaveDirectory = []
  · rw [if_pos hsave]
    exact .inr ⟨fun h => h.1 hsave, _, rfl⟩
  rw [if_neg hsave]
  by_cases hsource : w.pathToSource = []
  · rw [if_pos hsource]
    exact .inr ⟨fun h => h.2.1 hsource, _, rfl⟩
  rw [if_neg hsource]
  by_cases htrackers : trackersOf w.textEditTrackers = []
  · rw [if_pos htrackers]
    exact .inr ⟨fun h => h.2.2.1 htrackers, _, rfl⟩
  rw [if_neg htrackers]
  by_cases hname : w.lineEditName = []
  · rw [if_pos hname]
    exact .inr ⟨fun h => h.2.2.2 hname, _, rfl⟩
  rw [if_neg hname]
  exact .inl ⟨⟨hsave, hsource, htrackers, hname⟩, rfl⟩

/-- **One event** writes what it chooses or types, and nothing else. -/
theorem slot_writes (e : FormEvent) :
    (w.slot maker e).2.pathToSource = (chosenSource e).getD w.pathToSource ∧
    (w.slot maker e).2.pathToSaveDirectory = (chosenSaveDirectory e).getD w.pathToSaveDirectory ∧
    (w.slot maker e).2.textEditTrackers = (typedTrackers e).getD w.textEditTrackers ∧
    (w.slot maker e).2.lineEditName = (typedName e).getD w.lineEditName := by
  cases e with
  | source files path =>
    rw [slot, pushButtonSource_snd]
    exact ⟨rfl, rfl, rfl, rfl⟩
  | saveLocation files path =>
    rw [slot, pushButtonSaveLocation_snd]
    exact ⟨rfl, rfl, rfl, rfl⟩
  | new =>
    rw [slot]
    obtain ⟨-, hw⟩ | ⟨-, _, hw⟩ := w.pushButtonNew_cases maker <;> rw [hw] <;>
      exact ⟨rfl, rfl, rfl, rfl⟩
  | _ => exact ⟨rfl, rfl, rfl, rfl⟩

/-- Choosing a path does not close the form. -/
theorem pushButtonSource_fst_ne (files : FileSystem) (path : QString)
    (torrent : Option MadeTorrent) :
    (w.pushButtonSource files path).1 ≠ .closed torrent := by
  unfold pushButtonSource
  split_ifs <;> nofun

theorem pushButtonSaveLocation_fst_ne (files : FileSystem) (path : QString)
    (torrent : Option MadeTorrent) :
    (w.pushButtonSaveLocation files path).1 ≠ .closed torrent := by
  unfold pushButtonSaveLocation
  split_ifs <;> nofun

/-- **What closes a form**, and with which torrent: nothing is made unless it is asked for. -/
theorem slot_closed_iff (hgood : w.good = false) {e : FormEvent} {torrent : Option MadeTorrent} :
    (w.slot maker e).1 = .closed torrent ↔
      e = .close ∧ torrent = none ∨
      e = .new ∧ w.Complete ∧ torrent = created maker { w.readForm with good := true } := by
  cases e with
  | source files path =>
    exact iff_of_false (w.pushButtonSource_fst_ne files path torrent) (by simp)
  | saveLocation files path =>
    exact iff_of_false (w.pushButtonSaveLocation_fst_ne files path torrent) (by simp)
  | close =>
    have hnone : w.created maker = none := if_neg (by simp [hgood])
    rw [slot, close, hnone, FormReply.closed.injEq]
    simp [eq_comm]
  | new =>
    rw [slot]
    obtain ⟨hcomplete, hw⟩ | ⟨hcomplete, message, hw⟩ := w.pushButtonNew_cases maker
    · rw [hw, close, FormReply.closed.injEq]
      simp [hcomplete, eq_comm]
    · rw [hw]
      simp [hcomplete]
  | _ => simp [slot]

/-- The form is open until it closes, and as long as it is open it is not good. -/
theorem slot_opened (hgood : w.good = false) {e : FormEvent} (hopened : (w.slot maker e).2.opened) :
    (w.slot maker e).2.good = false ∧ ∀ torrent, (w.slot maker e).1 ≠ .closed torrent := by
  cases e with
  | source files path =>
    refine ⟨?_, w.pushButtonSource_fst_ne files path⟩
    rw [slot, pushButtonSource_snd]
    exact hgood
  | saveLocation files path =>
    refine ⟨?_, w.pushButtonSaveLocation_fst_ne files path⟩
    rw [slot, pushButtonSaveLocation_snd]
    exact hgood
  | close => cases hopened
  | new =>
    rw [slot] at hopened ⊢
    obtain ⟨-, hw⟩ | ⟨-, message, hw⟩ := w.pushButtonNew_cases maker
    · rw [hw] at hopened
      cases hopened
    · rw [hw]
      exact ⟨hgood, nofun⟩
  | _ => exact ⟨hgood, nofun⟩

end Slots

/-! ## What a run does -/

/-- The form is what its history says; as long as it is open, it has not made a torrent. -/
structure Agrees (tr : List (FormEvent × FormReply)) (w : MakeTorrentWindow) : Prop where
  source : w.pathToSource = last chosenSource tr
  saveDirectory : w.pathToSaveDirectory = last chosenSaveDirectory tr
  trackers : w.textEditTrackers = last typedTrackers tr
  name : w.lineEditName = last typedName tr
  good : w.opened → w.good = false
  opened : w.opened → ∀ y ∈ tr, ∀ torrent, y.2 ≠ .closed torrent

/-- A history with which the form is complete. -/
def Filled (tr : List (FormEvent × FormReply)) : Prop :=
  last chosenSaveDirectory tr ≠ [] ∧ last chosenSource tr ≠ [] ∧
    trackersOf (last typedTrackers tr) ≠ [] ∧ last typedName tr ≠ []

instance (tr : List (FormEvent × FormReply)) : Decidable (Filled tr) :=
  inferInstanceAs (Decidable (_ ∧ _))

/-- The torrent of a history. -/
def torrentOf (maker : Maker) (tr : List (FormEvent × FormReply)) : MadeTorrent :=
  makeTorrent maker (toStdString (last chosenSource tr))
    ((trackersOf (last typedTrackers tr)).map toStdString)
    (toStdString (last chosenSaveDirectory tr)) (toStdString (last typedName tr))

variable {maker : Maker} {w : MakeTorrentWindow} {tr : List (FormEvent × FormReply)}

namespace Agrees

/-- The form is complete if its history is. -/
theorem complete_iff (h : Agrees tr w) : w.Complete ↔ Filled tr := by
  rw [Complete, h.source, h.saveDirectory, h.trackers, h.name, Filled]

/-- The torrent it makes is that of its history. -/
theorem created_eq (h : Agrees tr w) :
    created maker { w.readForm with good := true } = some (torrentOf maker tr) := by
  rw [created, readForm, torrentOf, h.source, h.saveDirectory, h.trackers, h.name]
  rfl

/-- **One event more** of an open form. -/
theorem snoc (h : Agrees tr w) (hopened : w.opened) (e : FormEvent) :
    Agrees (tr ++ [(e, (w.slot maker e).1)]) (w.slot maker e).2 := by
  obtain ⟨hsource, hsave, htrackers, hname⟩ := w.slot_writes maker e
  have hgood := h.good hopened
  exact {
    source := by rw [hsource, h.source, last_snoc]
    saveDirectory := by rw [hsave, h.saveDirectory, last_snoc]
    trackers := by rw [htrackers, h.trackers, last_snoc]
    name := by rw [hname, h.name, last_snoc]
    good := fun hlast => (w.slot_opened maker hgood hlast).1
    opened := fun hlast => List.forall_mem_append.2 ⟨h.opened hopened,
      List.forall_mem_singleton.2 (w.slot_opened maker hgood hlast).2⟩ }

end Agrees

/-- **The form is what its history says.** -/
theorem agrees_of_run (hr : Run (step maker) {} tr w)
    (hopened : EveryStep (step maker) {} (fun _ w _ _ => w.opened) tr) : Agrees tr w := by
  induction hr with
  | nil => exact ⟨rfl, rfl, rfl, rfl, fun _ => rfl, fun _ => nofun⟩
  | @snoc tr t u e o hr hs ih =>
    obtain ⟨hpre, hlast⟩ := (everyStep_snoc (x := (e, o)) hr hs).1 hopened
    obtain ⟨rfl, rfl⟩ := Prod.mk.inj (Except.ok.inj hs)
    exact (ih hpre).snoc hlast e

/-- The form shows what a torrent is made from. -/
def Shows (w : MakeTorrentWindow) : Prop :=
  w.textBrowserSource = w.pathToSource ∧ w.textBrowserSaveLocation = w.pathToSaveDirectory

/-- The choice is accepted, or it is shown already. -/
def Accepts (w : MakeTorrentWindow) : FormEvent → Prop
  | .source files path => (path ≠ [] ∧ files.isReadable path) ∨ path = w.textBrowserSource
  | .saveLocation files path =>
    (path ≠ [] ∧ files.isWritable path) ∨ path = w.textBrowserSaveLocation
  | _ => True

theorem ite_eq_iff_or {p : Prop} [Decidable p] {path shown : QString} :
    (if p then path else shown) = path ↔ p ∨ path = shown := by
  by_cases hp : p
  · rw [if_pos hp]
    exact iff_of_true rfl (.inl hp)
  · rw [if_neg hp, or_iff_right hp, eq_comm]

/-- **One event** keeps the form showing what it has exactly if its choice is accepted. -/
theorem shows_slot_iff (h : w.Shows) (e : FormEvent) : (w.slot maker e).2.Shows ↔ w.Accepts e := by
  cases e with
  | source files path =>
    rw [slot, pushButtonSource_snd, Shows, and_iff_left h.2, Accepts]
    exact ite_eq_iff_or
  | saveLocation files path =>
    rw [slot, pushButtonSaveLocation_snd, Shows, and_iff_right h.1, Accepts]
    exact ite_eq_iff_or
  | new =>
    rw [slot]
    obtain ⟨-, hw⟩ | ⟨-, message, hw⟩ := w.pushButtonNew_cases maker <;> rw [hw] <;>
      exact iff_of_true h trivial
  | _ => exact iff_of_true h trivial

/-- **What is shown is what is made**, exactly as long as each choice is accepted or shown already:
one that is refused, or cancelled, is kept all the same. -/
theorem shows_iff (hr : Run (step maker) {} tr w) :
    EveryState (step maker) {} (fun _ w => w.Shows) tr ↔
      EveryStep (step maker) {} (fun _ w x _ => w.Accepts x.1) tr := by
  refine everyState_iff_everyStep ⟨rfl, rfl⟩ (fun {_ t x u} _ hs h => ?_) hr
  obtain rfl : (t.slot maker x.1).2 = u := congrArg Prod.snd (Except.ok.inj hs)
  exact shows_slot_iff h x.1

end MakeTorrentWindow

end TorrentX
