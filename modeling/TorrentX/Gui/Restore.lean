import TorrentX.Client.TreeBounds
import TorrentX.Gui.Database

/-!
# Gui/Restore — what a restart does with the database

An entry is added without an incident when its file is a torrent with few enough prefixes, when its
marks are for rows that are there, and when the session takes it (`Loads`); everything that can
happen otherwise is in `addTorrent_cases`.  So a mark is replayed out of range exactly when an entry
that the reader gets to has more marks than its torrent has rows (`replayedInRange_iff`) — the
validator does not compare the two.

What is written is accepted, and read back entry by entry; the list survives exactly when every
entry that can be restored loads (`survivesRestart_iff`).
-/

namespace TorrentX

open Json FilesPicker
open QString (unit toStdString number toInt isDigit toInt_number number_injective
  all_isDigit_number)

/-! ## Rows and marks -/

/-- The files of what is prepared under a name, unless preparing it throws or leaves `ti` null. -/
def filesOf {Rest : Type} (lt : Libtorrent Rest) (name : Bytes) : Option (List Bytes) :=
  if TorrentAPI.IsMagnet name then (lt.parseMagnetUri name).bind AddTorrentParams.ti
  else lt.torrentInfo name

/-- The file info of the parameters is that of what is prepared. -/
theorem ti_setFile {Rest : Type} (lt : Libtorrent Rest) (params : AddTorrentParams Rest)
    (name : Bytes) :
    (TorrentAPI.setFile lt params name).bind AddTorrentParams.ti = filesOf lt name := by
  rw [TorrentAPI.setFile, filesOf]
  split
  · rfl
  · cases lt.torrentInfo name <;> rfl

namespace MainWindow

variable {Rest : Type} (env : Restart Rest)

/-! ## The calls for one entry -/

section Calls

variable (api : TorrentAPI Rest)

/-- Preparing a download leaves no row, and the files of the torrent. -/
theorem perform_prepareDownload (name path : Bytes) :
    (∃ api', perform env api (.prepareDownload name path) = .ok api' ∧ api'.holder = [] ∧
        api'.params.ti = filesOf env.lt name) ∨
      filesOf env.lt name = none ∧
        perform env api (.prepareDownload name path) = .error .threw := by
  have hti := ti_setFile env.lt api.params name
  rw [perform, TorrentAPI.step, TorrentAPI.prepareDownload]
  cases hfile : TorrentAPI.setFile env.lt api.params name with
  | none => exact .inr ⟨by rw [← hti, hfile]; rfl, rfl⟩
  | some params => exact .inl ⟨_, rfl, rfl, by rw [← hti, hfile]; rfl⟩

/-- Files with few enough prefixes are picked, a row for each prefix. -/
theorem perform_pickDownloadFiles {files : List Bytes} (hholder : api.holder = [])
    (hti : api.params.ti = some files) (hrows : rowCount files < maxFiles) :
    ∃ api', perform env api .pickDownloadFiles = .ok api' ∧
      api'.holder.length = rowCount files := by
  obtain ⟨r, hr, hlength⟩ := exists_pickDownloadFiles [] hrows
  refine ⟨{ api with holder := r }, ?_, hlength.trans (Nat.zero_add _)⟩
  rw [perform, TorrentAPI.step, TorrentAPI.pickDownloadFiles, hti, hholder]
  dsimp only
  rw [hr]
  rfl

/-- Without files a null pointer is read. -/
theorem perform_pickDownloadFiles_of_none (hti : api.params.ti = none) :
    perform env api .pickDownloadFiles = .error (.fault .nullInfo) := by
  rw [perform, TorrentAPI.step, TorrentAPI.pickDownloadFiles, hti]
  rfl

/-- Files with too many prefixes run out of `tree`. -/
theorem perform_pickDownloadFiles_of_le {files : List Bytes} (hti : api.params.ti = some files)
    (hrows : maxFiles ≤ rowCount files) :
    perform env api .pickDownloadFiles = .error (.fault (.tree .treeRange)) := by
  rw [perform, TorrentAPI.step, TorrentAPI.pickDownloadFiles, hti]
  dsimp only
  rw [pickDownloadFiles_eq_treeRange api.holder hrows]
  rfl

/-- A mark is set in place. -/
theorem perform_setMark {index : ℕ} (pastLevel : ℤ) (h : index < api.holder.length) :
    ∃ api', perform env api (.setMark index true pastLevel) = .ok api' ∧
      api'.holder.length = api.holder.length := by
  refine ⟨{ api with holder := setMark pastLevel api.holder index true }, ?_, length_setMark _ _ h⟩
  rw [perform, TorrentAPI.step, TorrentAPI.setMark, if_pos h]
  rfl

/-- A mark for no row is out of range. -/
theorem perform_setMark_of_le {index : ℕ} (pastLevel : ℤ) (h : api.holder.length ≤ index) :
    perform env api (.setMark index true pastLevel) = .error (.fault .rowRange) := by
  rw [perform, TorrentAPI.step, TorrentAPI.setMark, if_neg (Nat.not_lt.2 h)]
  rfl

/-- **The replay is in range** exactly when each mark that is set is for a row. -/
theorem replayMarks_cases (pastLevel : ℕ → ℤ) (i : ℕ) (marks : QString) :
    (∃ api', replayMarks env pastLevel i marks api = .ok api' ∧
        ∀ k, marks[k]? = some (unit '1') → i + k < api.holder.length) ∨
      replayMarks env pastLevel i marks api = .error (.fault .rowRange) ∧
        ∃ k, marks[k]? = some (unit '1') ∧ api.holder.length ≤ i + k := by
  induction marks generalizing i api with
  | nil => exact .inl ⟨api, rfl, by simp⟩
  | cons c marks ih =>
    rw [replayMarks]
    by_cases hc : c = unit '1'
    · rw [if_pos hc]
      rcases Nat.lt_or_ge i api.holder.length with hi | hi
      · obtain ⟨api', hmark, hlength⟩ := perform_setMark env api (pastLevel i) hi
        rw [bind_of_eq_ok hmark, ← hlength]
        rcases ih api' (i + 1) with ⟨api'', hreplay, hrange⟩ | ⟨hreplay, k, hk, hout⟩
        · refine .inl ⟨api'', hreplay, fun k hk => ?_⟩
          cases k with
          | zero => rwa [hlength]
          | succ k => have := hrange k hk; omega
        · exact .inr ⟨hreplay, k + 1, hk, by omega⟩
      · refine .inr ⟨?_, 0, congrArg some hc, hi⟩
        rw [perform_setMark_of_le env api (pastLevel i) hi]
        rfl
    · rw [if_neg hc, bind_of_eq_ok rfl]
      rcases ih api (i + 1) with ⟨api'', hreplay, hrange⟩ | ⟨hreplay, k, hk, hout⟩
      · refine .inl ⟨api'', hreplay, fun k hk => ?_⟩
        cases k with
        | zero => exact absurd (Option.some.inj hk) hc
        | succ k => have := hrange k hk; omega
      · exact .inr ⟨hreplay, k + 1, hk, by omega⟩

/-- The session takes the torrent, or throws. -/
theorem perform_createDownload (name : Bytes) (answer : Option (TorrentStatus Rest)) :
    (∃ api', perform env api (.createDownload name answer) = .ok api' ∧ answer.isSome) ∨
      perform env api (.createDownload name answer) = .error .threw ∧ answer = none := by
  cases answer with
  | none => exact .inr ⟨rfl, rfl⟩
  | some status => exact .inl ⟨_, rfl, rfl⟩

end Calls

/-! ## One entry -/

/-- Each mark of an entry is for a row of the torrent that is found now. -/
def MarksInRange (t : Torrent) : Prop :=
  ∀ files, filesOf env.lt (toStdString t.name) = some files → rowCount files < maxFiles →
    ∀ k, t.marks[k]? = some (unit '1') → k < rowCount files

/-- Nothing keeps the entry `i` from being added: libtorrent finds the torrent, `pickDownloadFiles`
has room for it, the marks are for rows, and the session takes it. -/
def Loads (i : ℕ) (t : Torrent) : Prop :=
  (∃ files, filesOf env.lt (toStdString t.name) = some files ∧ rowCount files < maxFiles ∧
    ∀ k, t.marks[k]? = some (unit '1') → k < rowCount files) ∧ (env.answer i).isSome

section FilesOf

variable {t : Torrent} {files : List Bytes}

theorem marksInRange_of_none (h : filesOf env.lt (toStdString t.name) = none) :
    MarksInRange env t := by
  simp [MarksInRange, h]

theorem not_loads_of_none (h : filesOf env.lt (toStdString t.name) = none) (i : ℕ) :
    ¬ Loads env i t := by
  simp [Loads, h]

theorem marksInRange_of_some (h : filesOf env.lt (toStdString t.name) = some files) :
    MarksInRange env t ↔
      (rowCount files < maxFiles → ∀ k, t.marks[k]? = some (unit '1') → k < rowCount files) := by
  simp [MarksInRange, h]

theorem loads_of_some (h : filesOf env.lt (toStdString t.name) = some files) (i : ℕ) :
    Loads env i t ↔
      (rowCount files < maxFiles ∧ ∀ k, t.marks[k]? = some (unit '1') → k < rowCount files) ∧
        (env.answer i).isSome := by
  simp [Loads, h]

end FilesOf

/-- **All that can happen to an entry**: it is added, or a mark is out of range, or something else
ends the reader. -/
theorem addTorrent_cases (i : ℕ) (t : Torrent) (api : TorrentAPI Rest) :
    (∃ api', addTorrent env i t api = .ok api') ∧ Loads env i t ∨
      addTorrent env i t api = .error (.fault .rowRange) ∧ ¬ MarksInRange env t ∧
        ¬ Loads env i t ∨
      (∃ fault, addTorrent env i t api = .error fault ∧ fault ≠ .fault .rowRange) ∧
        MarksInRange env t ∧ ¬ Loads env i t := by
  let name := toStdString t.name
  rcases perform_prepareDownload env api name (toStdString t.locate) with
    ⟨api₁, hprepare, hholder, hti⟩ | ⟨hnone, hprepare⟩
  · have hadd : addTorrent env i t api = _ := bind_of_eq_ok hprepare _
    cases hfiles : filesOf env.lt name with
    | none =>
      rw [perform_pickDownloadFiles_of_none env api₁ (hti.trans hfiles)] at hadd
      exact .inr (.inr ⟨⟨_, hadd, nofun⟩, marksInRange_of_none env hfiles,
        not_loads_of_none env hfiles i⟩)
    | some files =>
      rw [marksInRange_of_some env hfiles, loads_of_some env hfiles]
      rcases Nat.lt_or_ge (rowCount files) maxFiles with hlt | hge
      · obtain ⟨api₂, hpick, hlength⟩ :=
          perform_pickDownloadFiles env api₁ hholder (hti.trans hfiles) hlt
        rw [bind_of_eq_ok hpick] at hadd
        rcases replayMarks_cases env api₂ (env.pastLevel i) 0 t.marks with
          ⟨api₃, hreplay, hrange⟩ | ⟨hreplay, k, hk, hout⟩
        · simp only [hlength, Nat.zero_add] at hrange
          rw [bind_of_eq_ok hreplay] at hadd
          rcases perform_createDownload env api₃ name (env.answer i) with
            ⟨api₄, hcreate, hanswer⟩ | ⟨hcreate, hanswer⟩
          · exact .inl ⟨⟨api₄, hadd.trans hcreate⟩, ⟨hlt, hrange⟩, hanswer⟩
          · exact .inr (.inr ⟨⟨_, hadd.trans hcreate, nofun⟩, fun _ => hrange, by simp [hanswer]⟩)
        · rw [hlength, Nat.zero_add] at hout
          rw [hreplay] at hadd
          exact .inr (.inl ⟨hadd, fun h => Nat.not_lt.2 hout (h hlt k hk),
            fun h => Nat.not_lt.2 hout (h.1.2 k hk)⟩)
      · rw [perform_pickDownloadFiles_of_le env api₁ (hti.trans hfiles) hge] at hadd
        exact .inr (.inr ⟨⟨_, hadd, nofun⟩, fun hlt => absurd hlt (Nat.not_lt.2 hge),
          fun h => Nat.not_lt.2 hge h.1.1⟩)
  · refine .inr (.inr ⟨⟨.threw, ?_, nofun⟩, marksInRange_of_none env hnone,
      not_loads_of_none env hnone i⟩)
    rw [addTorrent, hprepare]
    rfl

/-- An entry is added exactly if it loads. -/
theorem addTorrent_eq_ok_iff (i : ℕ) (t : Torrent) (api : TorrentAPI Rest) :
    (∃ api', addTorrent env i t api = .ok api') ↔ Loads env i t := by
  rcases addTorrent_cases env i t api with ⟨hok, h⟩ | ⟨herr, -, h⟩ | ⟨⟨_, herr, -⟩, -, h⟩
  · exact iff_of_true hok h
  · exact iff_of_false (by rw [herr]; exact nofun) h
  · exact iff_of_false (by rw [herr]; exact nofun) h

/-- A mark is out of range exactly if an entry has one. -/
theorem addTorrent_eq_rowRange_iff (i : ℕ) (t : Torrent) (api : TorrentAPI Rest) :
    addTorrent env i t api = .error (.fault .rowRange) ↔ ¬ MarksInRange env t := by
  rcases addTorrent_cases env i t api with ⟨⟨_, hok⟩, h⟩ | ⟨herr, h, -⟩ | ⟨⟨_, herr, hne⟩, h, -⟩
  · obtain ⟨⟨files, hfiles, -, hrange⟩, -⟩ := h
    refine iff_of_false (by rw [hok]; exact nofun) (not_not.2 ?_)
    exact (marksInRange_of_some env hfiles).2 fun _ => hrange
  · exact iff_of_true herr h
  · exact iff_of_false (fun h => hne (Except.error.inj (herr.symm.trans h))) (not_not.2 h)

/-! ## The entries one after another

An entry adds nothing to the next but the state of the client, and an entry loads or not whatever
this state is.  So whether the reader gets to an entry is a matter of the entries before it, each on
its own. -/

variable (json : Members QString)

/-- The entry is passed over, or it loads. -/
def Passes (i : ℕ) : Prop :=
  Restorable env.files (readTorrent json i) → Loads env i (readTorrent json i)

/-- The reader goes on after an entry that passes. -/
theorem readEntry_eq_ok_iff (w : MainWindow Rest) (i : ℕ) :
    (∃ w', readEntry env json w i = .ok w') ↔ Passes env json i := by
  rw [readEntry, Passes]
  split
  · next h =>
    rw [← addTorrent_eq_ok_iff env i (readTorrent json i) w.api]
    constructor
    · rintro ⟨w', hw'⟩ -
      obtain ⟨api', hadd, -⟩ := exists_of_bind_eq_ok hw'
      exact ⟨api', hadd⟩
    · intro hloads
      obtain ⟨api', hadd⟩ := hloads h
      exact ⟨_, bind_of_eq_ok hadd _⟩
  · next h => exact iff_of_true ⟨w, rfl⟩ fun h' => absurd h' h

theorem readEntry_eq_rowRange_iff (w : MainWindow Rest) (i : ℕ) :
    readEntry env json w i = .error (.fault .rowRange) ↔
      Restorable env.files (readTorrent json i) ∧ ¬ MarksInRange env (readTorrent json i) := by
  rw [readEntry]
  split
  · next h =>
    rw [and_iff_right h, ← addTorrent_eq_rowRange_iff env i (readTorrent json i) w.api]
    cases addTorrent env i (readTorrent json i) w.api with
    | ok api' => exact iff_of_false nofun nofun
    | error fault => exact ⟨fun h => congrArg _ (Except.error.inj h), fun h => by rw [h]; rfl⟩
  · next h => exact iff_of_false nofun fun h' => h h'.1

/-- What an entry that is passed adds to the list. -/
theorem curTorrens_readEntry {w w' : MainWindow Rest} {i : ℕ}
    (h : readEntry env json w i = .ok w') :
    w'.curTorrens = w.curTorrens ++ [readTorrent json i].filter (Restorable env.files) := by
  rw [readEntry] at h
  split at h
  · next hrestorable =>
    obtain ⟨api', -, hw'⟩ := exists_of_bind_eq_ok h
    obtain rfl := Except.ok.inj hw'
    simp [hrestorable]
  · next hnot =>
    obtain rfl := Except.ok.inj h
    simp [hnot]

/-- The list grows by the entries that can be restored. -/
theorem curTorrens_foldlM {w w' : MainWindow Rest} {n : ℕ}
    (h : (List.range n).foldlM (readEntry env json) w = .ok w') :
    w'.curTorrens = w.curTorrens ++
      ((List.range n).map (readTorrent json)).filter (Restorable env.files) := by
  induction n generalizing w' with
  | zero =>
    obtain rfl := Except.ok.inj h
    exact (List.append_nil _).symm
  | succ n ih =>
    rw [foldlM_range_succ] at h
    obtain ⟨w₁, hw₁, h⟩ := exists_of_bind_eq_ok h
    rw [curTorrens_readEntry env json h, ih hw₁, List.range_succ, List.map_append,
      List.filter_append, List.append_assoc, List.map_singleton]

/-! ## Replaying in range

The reader numbers the marks as it finds them in the text, so what counts is the position of a mark
among the units of the text. -/

/-- If the database is accepted, no mark is replayed out of range. -/
def ReplayedInRange (w : MainWindow Rest) : Prop :=
  checkDatabase (some json) = true → readDatabase env json w ≠ .error (.fault .rowRange)

/-- **No mark is replayed out of range** exactly when the marks of each entry that is restored, with
every entry before it passed over or loaded, are for rows. -/
theorem replayedInRange_iff (w : MainWindow Rest) :
    ReplayedInRange env json w ↔
      (checkDatabase (some json) = true → ∀ i < countTorrent json,
        (∀ j < i, Passes env json j) → Restorable env.files (readTorrent json i) →
          MarksInRange env (readTorrent json i)) := by
  refine imp_congr_right fun _ => ?_
  rw [Ne, readDatabase, foldlM_range_eq_error_iff (readEntry_eq_ok_iff env json)
    (readEntry_eq_rowRange_iff env json)]
  push Not
  rfl

/-- Every path is a file, and a directory, that can be read and written. -/
def allThere : FileSystem := ⟨fun _ => true, fun _ => true, fun _ => true, fun _ => true⟩

/-- A restart where `a.torrent` is a torrent of one file, no other file is a torrent, and the
session takes what it gets. -/
def oneTorrentLeft : Restart Unit where
  files := allThere
  lt := {
    torrentInfo := fun file => if file = Wire.text "a.torrent" then some [Wire.text "x"] else none
    parseMagnetUri := fun _ => none }
  answer := fun i => some { handle := some i }
  pastLevel := fun _ _ => 0

/-- The torrent `a.torrent` had two rows when the list was saved, the second of them marked. -/
theorem not_replayedInRange_replaced :
    ¬ ReplayedInRange oneTorrentLeft
      (writeDatabase [⟨.of "a.torrent", .of "/", .of "01"⟩]) ⟨[], TorrentAPI.fresh⟩ :=
  fun h => h rfl rfl

/-- One character that is two units stands before the mark, and two rows are too few for it. -/
example (first second : FileNode) : replayMarks oneTorrentLeft (fun _ => 0) 0
    [0xD83D, 0xDE00, unit '1'] { TorrentAPI.fresh with holder := [first, second] } =
      .error (.fault .rowRange) := rfl

/-! ## The database that is written -/

theorem number_ne_count (i : ℕ) : number i ≠ .of "count" := fun h =>
  absurd (h ▸ all_isDigit_number i) (by decide)

/-- The members under other keys stay. -/
theorem member_insertTorrents_of_ne {key : QString} {i : ℕ} (h : ∀ j, i ≤ j → key ≠ number j)
    (ts : List Torrent) (database : Members QString) :
    member (insertTorrents i ts database) key = member database key := by
  induction ts generalizing i database with
  | nil => rfl
  | cons t ts ih =>
    rw [insertTorrents, ih fun j hj => h j (Nat.le_of_succ_le hj),
      member_insert_of_ne (h i le_rfl)]

/-- Each torrent is under its number. -/
theorem member_insertTorrents {i k : ℕ} {ts : List Torrent} {t : Torrent} (h : ts[k]? = some t)
    (database : Members QString) :
    member (insertTorrents i ts database) (number (i + k)) = ofTorrent t := by
  induction ts generalizing i k database with
  | nil => cases h
  | cons t' ts ih =>
    rw [insertTorrents]
    cases k with
    | zero =>
      obtain rfl := Option.some.inj h
      have hne : ∀ j, i + 1 ≤ j → number (i + 0) ≠ number j := fun j hj heq => by
        have := number_injective heq
        omega
      rw [member_insertTorrents_of_ne hne]
      exact member_insert_self _ _ _
    | succ k =>
      rw [show i + (k + 1) = i + 1 + k by omega]
      exact ih h _

section Written

variable (ts : List Torrent)

/-- The count is under its own key. -/
theorem member_writeDatabase_count :
    member (writeDatabase ts) (.of "count") = .string (number ts.length) := by
  rw [writeDatabase, member_insertTorrents_of_ne fun j _ => (number_ne_count j).symm,
    member_insert_self]

/-- Each torrent is under its number. -/
theorem member_writeDatabase {ts : List Torrent} {i : ℕ} {t : Torrent} (h : ts[i]? = some t) :
    member (writeDatabase ts) (number i) = ofTorrent t := by
  have hmember := @member_insertTorrents 0 i ts t h
    (insert (.of "count") (.string (number ts.length)) [])
  rwa [Nat.zero_add] at hmember

/-- The count is the length, unless this is too large for an `int`. -/
theorem countTorrent_writeDatabase :
    countTorrent (writeDatabase ts) = if ts.length < 2 ^ 31 then ts.length else 0 := by
  rw [countTorrent, member_writeDatabase_count, toText, toInt_number]

theorem countTorrent_le : countTorrent (writeDatabase ts) ≤ ts.length := by
  rw [countTorrent_writeDatabase]
  split
  · exact le_rfl
  · exact Nat.zero_le _

/-- The entries read back are those that were written. -/
theorem readTorrent_writeDatabase {ts : List Torrent} {i : ℕ} {t : Torrent} (h : ts[i]? = some t) :
    readTorrent (writeDatabase ts) i = t := by
  rw [readTorrent, member_writeDatabase h]
  rfl

/-- All entries are read back, in their order. -/
theorem map_readTorrent_writeDatabase :
    (List.range ts.length).map (readTorrent (writeDatabase ts)) = ts := by
  refine List.ext_getElem? fun i => ?_
  rcases Nat.lt_or_ge i ts.length with hi | hi
  · have ht : ts[i]? = some ts[i] := List.getElem?_eq_getElem hi
    rw [List.getElem?_map, List.getElem?_range hi, ht, Option.map_some,
      readTorrent_writeDatabase ht]
  · simp [hi]

/-- **What is written is accepted.** -/
theorem checkDatabase_writeDatabase : checkDatabase (some (writeDatabase ts)) = true := by
  have hentry : ∀ i ∈ List.range (countTorrent (writeDatabase ts)),
      ∃ t, member (writeDatabase ts) (number i) = ofTorrent t := by
    intro i hi
    have hlt := (List.mem_range.1 hi).trans_le (countTorrent_le ts)
    exact ⟨ts[i], member_writeDatabase (List.getElem?_eq_getElem hlt)⟩
  rw [checkDatabase, Bool.and_eq_true, Bool.and_eq_true, Bool.and_eq_true,
    member_writeDatabase_count]
  refine ⟨⟨⟨rfl, all_isDigit_number _⟩, List.all_eq_true.2 fun i hi => ?_⟩,
    List.all_eq_true.2 fun i hi => ?_⟩
  · obtain ⟨t, ht⟩ := hentry i hi
    rw [ht]
    rfl
  · obtain ⟨t, ht⟩ := hentry i hi
    rw [ht]
    rfl

end Written

/-! ## A restart

Both sides of what is said here are about the list that was saved.  An entry whose file is gone is
dropped by the reader on purpose; an entry that is tried and does not load ends it. -/

/-- What is written is accepted, and read back as the entries that can be restored, in their order
and each as it was. -/
def SurvivesRestart (ts : List Torrent) (api : TorrentAPI Rest) : Prop :=
  checkDatabase (some (writeDatabase ts)) = true ∧
    ∃ api', readDatabase env (writeDatabase ts) ⟨[], api⟩ =
      .ok ⟨ts.filter (Restorable env.files), api'⟩

/-- The reader passes every entry that is written exactly when those that can be restored load. -/
theorem forall_passes_writeDatabase_iff (ts : List Torrent) :
    (∀ i < ts.length, Passes env (writeDatabase ts) i) ↔
      ∀ i t, ts[i]? = some t → Restorable env.files t → Loads env i t := by
  constructor
  · intro h i t ht hrestorable
    have hpass := h i (List.getElem?_eq_some_iff.1 ht).1
    rw [Passes, readTorrent_writeDatabase ht] at hpass
    exact hpass hrestorable
  · intro h i hi hrestorable
    have ht : ts[i]? = some ts[i] := List.getElem?_eq_getElem hi
    rw [readTorrent_writeDatabase ht] at hrestorable ⊢
    exact h i _ ht hrestorable

/-- **The list survives a restart** exactly when each entry that can be restored loads — and the
count fits an `int`, if there is such an entry. -/
theorem survivesRestart_iff (ts : List Torrent) (api : TorrentAPI Rest) :
    SurvivesRestart env ts api ↔
      ∀ i t, ts[i]? = some t → Restorable env.files t →
        ts.length < 2 ^ 31 ∧ Loads env i t := by
  rw [SurvivesRestart, and_iff_right (checkDatabase_writeDatabase ts), readDatabase,
    countTorrent_writeDatabase]
  by_cases hlength : ts.length < 2 ^ 31
  · rw [if_pos hlength]
    simp only [hlength, true_and]
    rw [← forall_passes_writeDatabase_iff, ← foldlM_range_eq_ok_iff
      (readEntry_eq_ok_iff env (writeDatabase ts)) ts.length ⟨[], api⟩]
    constructor
    · exact fun ⟨api', h⟩ => ⟨_, h⟩
    · rintro ⟨⟨curTorrens, api'⟩, h⟩
      have hcur : curTorrens = _ := curTorrens_foldlM env _ h
      rw [map_readTorrent_writeDatabase, List.nil_append] at hcur
      exact ⟨api', hcur ▸ h⟩
  · rw [if_neg hlength]
    -- The count is read as zero, and nothing is restored.
    constructor
    · rintro ⟨api', h⟩ i t ht hrestorable
      have hnil : [] = ts.filter (Restorable env.files) :=
        congrArg MainWindow.curTorrens (Except.ok.inj h)
      have hmem : t ∈ ts.filter (Restorable env.files) :=
        List.mem_filter.2 ⟨List.mem_of_getElem? ht, decide_eq_true hrestorable⟩
      rw [← hnil] at hmem
      exact absurd hmem List.not_mem_nil
    · intro h
      have hnil : ts.filter (Restorable env.files) = [] := by
        refine List.filter_eq_nil_iff.2 fun t ht hrestorable => ?_
        obtain ⟨i, hi⟩ := List.getElem?_of_mem ht
        exact hlength (h i t hi (of_decide_eq_true hrestorable)).1
      exact ⟨api, by rw [hnil]; rfl⟩

/-- The first of two entries is a readable file that is no torrent, or a torrent that has lost a
marked row: it ends the reader, and the second entry is not restored. -/
theorem not_survivesRestart_first :
    ¬ SurvivesRestart oneTorrentLeft
        [⟨.of "b.torrent", .of "/", .of "0"⟩, ⟨.of "a.torrent", .of "/", .of "1"⟩]
        TorrentAPI.fresh ∧
      ¬ SurvivesRestart oneTorrentLeft
        [⟨.of "a.torrent", .of "/", .of "01"⟩,
          ⟨.of "a.torrent", .of "/", .of "1"⟩] TorrentAPI.fresh := by
  constructor
  · rintro ⟨-, api', h⟩
    have herr : readDatabase oneTorrentLeft
        (writeDatabase [⟨.of "b.torrent", .of "/", .of "0"⟩,
          ⟨.of "a.torrent", .of "/", .of "1"⟩]) ⟨[], TorrentAPI.fresh⟩ =
        .error .threw := rfl
    exact absurd (herr.symm.trans h) nofun
  · rintro ⟨-, api', h⟩
    have herr : readDatabase oneTorrentLeft
        (writeDatabase [⟨.of "a.torrent", .of "/", .of "01"⟩,
          ⟨.of "a.torrent", .of "/", .of "1"⟩]) ⟨[], TorrentAPI.fresh⟩ =
        .error (.fault .rowRange) := rfl
    exact absurd (herr.symm.trans h) nofun

end MainWindow

end TorrentX
