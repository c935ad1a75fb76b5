import TorrentX.Client.Calls

/-!
# Client/Prepare — what earlier downloads leave for the next

`prepareDownload` clears the rows, and a magnet link replaces all of the parameters; a torrent file
sets its files and the path, and appends to the priorities.  So a torrent file is prepared as by a
fresh client exactly when the calls before left no priority and nothing in the other fields
(`preparesAsFresh_iff`).
-/

namespace TorrentX

open Wire

namespace TorrentAPI

variable {Rest : Type} [Inhabited Rest]

/-! ## Preparing as a fresh client does -/

/-- If the call returns, the parameters and the rows are those of a fresh client after the same
call, and so is what `createDownload` then hands to the session; a torrent file has one priority for
each of its files. -/
def PreparesAsFresh (lt : Libtorrent Rest) (api : TorrentAPI Rest) (file path : Bytes) : Prop :=
  (prepareDownload lt api file path).1 = .done →
    let used := (prepareDownload lt api file path).2
    let new := (prepareDownload lt fresh file path).2
    used.params = new.params ∧ used.holder = new.holder ∧
      (∀ name answer, (createDownload used name answer).1 = (createDownload new name answer).1) ∧
      (¬ IsMagnet file → ∀ files, used.params.ti = some files →
        used.params.filePriorities.length = files.length)

/-- The parameters have no priority, and nothing in the other fields. -/
def Untouched (params : AddTorrentParams Rest) : Prop :=
  params.filePriorities = [] ∧ params.rest = default

/-- Whether the parameters are untouched after a call, if before it they were `clean`. -/
def leaves (lt : Libtorrent Rest) (clean : Prop) : ApiCall Rest → Prop
  | .prepareDownload file _ =>
    if IsMagnet file then
      match lt.parseMagnetUri file with
      | none => clean
      | some params => Untouched params
    else
      match lt.torrentInfo file with
      | none => clean
      | some files => clean ∧ files = []
  | _ => clean

/-- **Nothing is left of the calls**: since the last magnet link, which left nothing itself, every
torrent file that was prepared is without files. -/
def NothingLeft (lt : Libtorrent Rest) (tr : List (ApiCall Rest × ApiReply Rest)) : Prop :=
  tr.foldl (fun clean x => leaves lt clean x.1) True

/-! ## When is nothing left?

Only `prepareDownload` writes the parameters, and it writes priorities and the other fields together
only for a magnet link.  So whether anything is left can be followed call by call. -/

variable {lt : Libtorrent Rest} {api : TorrentAPI Rest} {tr : List (ApiCall Rest × ApiReply Rest)}

/-- **One call** leaves the parameters untouched as `leaves` has it. -/
theorem untouched_after (params : AddTorrentParams Rest) (c : ApiCall Rest) :
    Untouched (params.after lt c) ↔ leaves lt (Untouched params) c := by
  cases c with
  | prepareDownload file path =>
    rw [AddTorrentParams.after, setFile, leaves]
    by_cases hmagnet : IsMagnet file
    · rw [if_pos hmagnet, if_pos hmagnet]
      cases lt.parseMagnetUri file <;> exact Iff.rfl
    · rw [if_neg hmagnet, if_neg hmagnet]
      cases lt.torrentInfo file with
      | none => exact Iff.rfl
      | some files =>
        simp only [Option.map_some, Option.getD_some, Untouched, List.append_eq_nil_iff,
          List.replicate_eq_nil_iff, List.length_eq_zero_iff]
        exact and_right_comm
  | _ => exact Iff.rfl

/-- After a run the parameters are untouched exactly if its calls have left nothing. -/
theorem untouched_iff (hr : Run (step lt) fresh tr api) :
    Untouched api.params ↔ NothingLeft lt tr := by
  induction hr with
  | nil => exact iff_of_true ⟨rfl, rfl⟩ trivial
  | @snoc tr t u c r _ hs ih =>
    rw [(step_spec hs).1, untouched_after, propext ih, NothingLeft, NothingLeft, List.foldl_append]
    rfl

/-! ## The exact condition -/

/-- The parameters with the files of a torrent, and a priority more for each of them. -/
def withFiles (params : AddTorrentParams Rest) (files : List Bytes) : AddTorrentParams Rest :=
  { params with
    ti := some files
    filePriorities := params.filePriorities ++ List.replicate files.length .default }

omit [Inhabited Rest] in
/-- A torrent file adds to what is there. -/
theorem setFile_of_not_isMagnet {file : Bytes} (h : ¬ IsMagnet file)
    (params : AddTorrentParams Rest) :
    setFile lt params file = (lt.torrentInfo file).map (withFiles params) := by
  rw [setFile, if_neg h]
  rfl

omit [Inhabited Rest] in
/-- What is handed to the session is in the parameters and the rows. -/
theorem createDownload_fst_congr {used new : TorrentAPI Rest} (hparams : used.params = new.params)
    (hholder : used.holder = new.holder) (name : Bytes) (answer : Option (TorrentStatus Rest)) :
    (createDownload used name answer).1 = (createDownload new name answer).1 := by
  cases answer with
  | none => rfl
  | some status => rw [createDownload, createDownload, hparams, hholder]

/-- A call that throws hands nothing on. -/
theorem preparesAsFresh_of_setFile_eq_none {file : Bytes} (h : setFile lt api.params file = none)
    (path : Bytes) : PreparesAsFresh lt api file path := by
  intro hdone
  rw [prepareDownload, h] at hdone
  cases hdone

/-- A call that returns is as on a fresh client when the parameters are. -/
theorem preparesAsFresh_iff_of_setFile {file : Bytes} {params new : AddTorrentParams Rest}
    (h : setFile lt api.params file = some params) (hnew : setFile lt default file = some new)
    (hlength : ¬ IsMagnet file → ∀ files, new.ti = some files →
      new.filePriorities.length = files.length) (path : Bytes) :
    PreparesAsFresh lt api file path ↔
      { params with savePath := path } = { new with savePath := path } := by
  have hused : prepareDownload lt api file path = (.done, { api with
      holder := [], params := { params with savePath := path } }) := by rw [prepareDownload, h]
  have hfresh : prepareDownload lt fresh file path = (.done, { (fresh : TorrentAPI Rest) with
      holder := [], params := { new with savePath := path } }) := by
    rw [prepareDownload, show setFile lt (fresh : TorrentAPI Rest).params file = some new from hnew]
  rw [PreparesAsFresh, hused, hfresh]
  refine ⟨fun h => (h rfl).1, fun hparams _ => ⟨hparams, rfl, ?_, fun hmagnet files hfiles => ?_⟩⟩
  · exact createDownload_fst_congr hparams rfl
  · have hpriorities := congrArg AddTorrentParams.filePriorities hparams
    have hti := congrArg AddTorrentParams.ti hparams
    exact (congrArg List.length hpriorities).trans (hlength hmagnet files (hti.symm.trans hfiles))

/-- **A download is prepared as by a fresh client** exactly when it is a magnet link, or the torrent
file is not one, or the calls before have left nothing. -/
theorem preparesAsFresh_iff (hr : Run (step lt) fresh tr api) (file path : Bytes) :
    PreparesAsFresh lt api file path ↔
      IsMagnet file ∨ lt.torrentInfo file = none ∨ NothingLeft lt tr := by
  rw [← untouched_iff hr]
  by_cases hmagnet : IsMagnet file
  · have hparse (params : AddTorrentParams Rest) :
        setFile lt params file = lt.parseMagnetUri file := if_pos hmagnet
    refine iff_of_true ?_ (.inl hmagnet)
    cases hnew : lt.parseMagnetUri file with
    | none => exact preparesAsFresh_of_setFile_eq_none ((hparse _).trans hnew) path
    | some new =>
      exact (preparesAsFresh_iff_of_setFile ((hparse _).trans hnew) ((hparse _).trans hnew)
        (fun h => absurd hmagnet h) path).2 rfl
  · rw [or_iff_right hmagnet]
    have hfile (params : AddTorrentParams Rest) :
        setFile lt params file = (lt.torrentInfo file).map (withFiles params) :=
      setFile_of_not_isMagnet hmagnet params
    cases hinfo : lt.torrentInfo file with
    | none =>
      rw [hinfo] at hfile
      exact iff_of_true (preparesAsFresh_of_setFile_eq_none (hfile _) path) (.inl rfl)
    | some files =>
      rw [hinfo] at hfile
      have hlength : ¬ IsMagnet file → ∀ files',
          (withFiles (default : AddTorrentParams Rest) files).ti = some files' →
            (withFiles (default : AddTorrentParams Rest) files).filePriorities.length =
              files'.length := by
        rintro - _ ⟨⟩
        exact List.length_replicate
      rw [preparesAsFresh_iff_of_setFile (hfile _) (hfile _) hlength, or_iff_right (by simp)]
      -- The path and the files are the same; the rest is what was there.
      rw [withFiles, withFiles, AddTorrentParams.mk.injEq, Untouched]
      exact ⟨fun h => ⟨List.append_cancel_right h.2.2.1, h.2.2.2⟩,
        fun h => ⟨rfl, rfl, congrArg (· ++ _) h.1, h.2⟩⟩

/-- Two torrent files, and magnet links of which nothing is known but that they are links. -/
def twoTorrents : Libtorrent Unit where
  torrentInfo file :=
    if file = text "a.torrent" then some [text "x"]
    else if file = text "b.torrent" then some [text "y", text "z"]
    else none
  parseMagnetUri _ := some default

/-- A torrent is looked at and leaves a priority; the link after it takes the priority away, and the
next torrent is prepared as by a fresh client. -/
theorem preparesAsFresh_iff_afterMagnet :
    ∃ (tr : List (ApiCall Unit × ApiReply Unit)) (api : TorrentAPI Unit),
      Run (step twoTorrents) fresh tr api ∧
      tr.map Prod.fst = [.prepareDownload (text "a.torrent") (text "/"), .pickDownloadFiles,
        .prepareDownload (text "magnet:?dn=c") (text "/")] ∧
      ¬ NothingLeft twoTorrents (tr.take 2) ∧
      PreparesAsFresh twoTorrents api (text "b.torrent") (text "/") := by
  have h₁ : Run (step twoTorrents) fresh
      [(.prepareDownload (text "a.torrent") (text "/"), .done)] _ := .snoc .nil rfl
  have h₂ : Run (step twoTorrents) fresh (_ ++ [(.pickDownloadFiles, .done)]) _ := .snoc h₁ rfl
  have hr : Run (step twoTorrents) fresh
      (_ ++ [(.prepareDownload (text "magnet:?dn=c") (text "/"), .done)]) _ := .snoc h₂ rfl
  refine ⟨_, _, hr, rfl, fun h => ?_, (preparesAsFresh_iff hr _ _).2 (.inr (.inr ⟨rfl, rfl⟩))⟩
  -- The torrent that is looked at has a file.
  exact absurd h.2 (List.cons_ne_nil _ _)

/-- A torrent of one file is looked at and not added; then one of two files is prepared, with three
priorities. -/
theorem not_preparesAsFresh_afterCancel : ∃ api,
    Run (step twoTorrents) fresh
      [(.prepareDownload (text "a.torrent") (text "/"), .done), (.pickDownloadFiles, .done)] api ∧
    ¬ PreparesAsFresh twoTorrents api (text "b.torrent") (text "/") := by
  have hr : Run (step twoTorrents) fresh
      [(.prepareDownload (text "a.torrent") (text "/"), .done), (.pickDownloadFiles, .done)] _ :=
    .snoc (.snoc .nil rfl) rfl
  refine ⟨_, hr, fun h => ?_⟩
  have hlength := (h rfl).2.2.2 (by decide) [text "y", text "z"] rfl
  revert hlength
  decide

end TorrentAPI

end TorrentX
