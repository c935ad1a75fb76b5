import TorrentX.Gui.Chosen

/-!
# Gui/Sessions — the program, started again and again

A session begins with what is on disk, goes on as the user and the worker will, and ends by writing
its list.  After any number of sessions everything on disk was chosen in one of them
(`Lives.chosen`), so a mark that is stored is for a row, and replaying the marks one after
another makes the rows that were clicked (`setMarks_replayCalls`).  The next start never fails on
what was written, and every torrent gets the priorities it was added with (`restarts_of_lives`).

The replay reads just past the last row as the clicks did; whatever either finds there, the rows are
the same.
-/

namespace TorrentX

open Wire FilesPicker Outline
open QString (unit toStdString)

/-! ## Replaying the marks

The reader calls `setMark` for each row with a stored mark, from the first to the last.  A directory
that is marked marks all below it, which does no harm, as its leaves are all in; a leaf that is out
is under no marked row. -/

section Replay

variable {paths : List Bytes} {holder : List FileNode}

/-- A stored mark that is set is for a row. -/
theorem lt_length_of_encodeMarks {rows : List FileNode} {k : ℕ}
    (h : (encodeMarks (getMarks rows))[k]? = some (unit '1')) : k < rows.length := by
  rw [getElem?_encodeMarks] at h
  have hlt := (List.getElem?_eq_some_iff.1 h).1
  rwa [getMarks, List.length_map] at hlt

/-- **Replaying the marks makes the rows.**  A marked row covers leaves that are in only, and each
leaf that is in is a marked row. -/
theorem setMarks_replayCalls (h : pickDownloadFiles [] paths = .ok holder) {calls : List SetMark}
    (hrange : ∀ c ∈ calls, c.index < holder.length) (pastLevel : ℕ → ℤ) :
    setMarks holder (replayCalls pastLevel 0 (getMarks (setMarks holder calls)))
      = setMarks holder calls := by
  obtain ⟨m, hm, hreflects⟩ := exists_marks_of_pick h hrange
  rw [hm]
  have hcalls : ∀ c ∈ replayCalls pastLevel 0 (getMarks (withMarks holder m)),
      c.index < holder.length ∧ m c.index = true := fun c hc =>
    (getElem?_getMarks_withMarks m c.index).1 (mem_replayCalls hc).2.2
  obtain ⟨m', hm', hreflects'⟩ := exists_marks_of_pick h fun c hc => (hcalls c hc).1
  rw [hm']
  refine withMarks_congr fun i hi => hreflects'.eq_of_leaf hreflects (fun l hl => ?_) hi
  rw [lastMarks_iff_exists fun c hc => (mem_replayCalls hc).1]
  constructor
  · rintro ⟨c, hc, hcovers⟩
    obtain ⟨hlt, hmark⟩ := hcalls c hc
    exact (hreflects c.index hlt).1 hmark l hl hcovers
  · intro hlast
    have hmark := (getElem?_getMarks_withMarks m l).2 ⟨hl.1, (hreflects.leaf hl).2 hlast⟩
    obtain ⟨c, hc, hindex⟩ := @exists_mem_replayCalls pastLevel _ 0 l hmark
    exact ⟨c, hc, .inl (by omega)⟩

end Replay

namespace MainWindow

variable {Rest : Type} {env : Restart Rest}

/-- The loop over marks that are all for rows. -/
theorem replayMarks_eq_ok {pastLevel : ℕ → ℤ} {i : ℕ} {marks : QString} {api : TorrentAPI Rest}
    (h : ∀ k, marks[k]? = some (unit '1') → i + k < api.holder.length) :
    replayMarks env pastLevel i marks api
      = .ok { api with holder := replayFrom pastLevel i marks api.holder } := by
  induction marks generalizing i api with
  | nil => rfl
  | cons c marks ih =>
    have htail : ∀ k, marks[k]? = some (unit '1') → i + 1 + k < api.holder.length := fun k hk => by
      have := h (k + 1) hk
      omega
    rw [replayMarks, replayFrom]
    by_cases hc : c = unit '1'
    · have hi : i < api.holder.length := h 0 (congrArg some hc)
      have hmark : perform env api (.setMark i true (pastLevel i))
          = .ok { api with holder := setMark (pastLevel i) api.holder i true } := by
        rw [perform, TorrentAPI.step, TorrentAPI.setMark, if_pos hi]
        rfl
      rw [if_pos hc, if_pos hc, bind_of_eq_ok hmark]
      exact ih fun k hk => (length_setMark (pastLevel i) true hi).symm ▸ htail k hk
    · rw [if_neg hc, if_neg hc, bind_of_eq_ok rfl]
      exact ih htail

/-- **A torrent that was chosen is added again with the rows that were clicked.** -/
theorem exists_addTorrent_eq_ok {t : Torrent} {rows : List FileNode}
    (h : Clicked env.lt t.name rows) (hmarks : t.marks = encodeMarks (getMarks rows)) {i : ℕ}
    (hanswer : (env.answer i).isSome) (api : TorrentAPI Rest) :
    ∃ api', addTorrent env i t api = .ok api' ∧ api'.holder = rows := by
  obtain ⟨paths, holder, calls, hpaths, hpick, hrange, rfl⟩ := h
  obtain ⟨m, hm, -⟩ := exists_marks_of_pick hpick hrange
  obtain ⟨status, hstatus⟩ := Option.isSome_iff_exists.1 hanswer
  rcases perform_prepareDownload env api (toStdString t.name) (toStdString t.locate) with
    ⟨api₁, hprepare, hholder, hti⟩ | ⟨hnone, -⟩
  · have hrows : perform env api₁ .pickDownloadFiles = .ok { api₁ with holder := holder } := by
      rw [perform, TorrentAPI.step, TorrentAPI.pickDownloadFiles, hti, hpaths, hholder]
      dsimp only
      rw [hpick]
      rfl
    have hlength : (setMarks holder calls).length = holder.length := by rw [hm, length_withMarks]
    have hreplay := @replayMarks_eq_ok Rest env (env.pastLevel i) 0 t.marks
      { api₁ with holder := holder } fun k hk => by
        rw [Nat.zero_add, ← hlength]
        exact lt_length_of_encodeMarks (hmarks ▸ hk)
    have hcalls : replayFrom (env.pastLevel i) 0 t.marks holder = setMarks holder calls := by
      rw [hmarks, replayFrom_eq, setMarks_replayCalls hpick hrange]
    rw [addTorrent, bind_of_eq_ok hprepare, bind_of_eq_ok hrows, bind_of_eq_ok hreplay, hcalls,
      hstatus]
    exact ⟨_, rfl, rfl⟩
  · rw [hpaths] at hnone
    cases hnone

/-- What was chosen loads. -/
theorem loads_of_chosen {t : Torrent} (h : Chosen env.lt t) {i : ℕ}
    (hanswer : (env.answer i).isSome) [Inhabited Rest] : Loads env i t := by
  obtain ⟨rows, hclicked, hmarks⟩ := h
  obtain ⟨api', hadd, -⟩ := exists_addTorrent_eq_ok hclicked hmarks hanswer .fresh
  exact (addTorrent_eq_ok_iff env i t .fresh).1 ⟨api', hadd⟩

/-- A list of torrents that were chosen is read back, but for those whose files are gone. -/
theorem exists_readDatabase_eq_ok [Inhabited Rest] {ts : List Torrent}
    (hchosen : ∀ t ∈ ts, Chosen env.lt t) (hanswer : ∀ i, (env.answer i).isSome)
    (hcount : ts.length < 2 ^ 31) (api : TorrentAPI Rest) :
    ∃ w, readDatabase env (writeDatabase ts) ⟨[], api⟩ = .ok w ∧
      w.curTorrens = ts.filter (Restorable env.files) := by
  have hpasses : ∀ i < ts.length, Passes env (writeDatabase ts) i :=
    (forall_passes_writeDatabase_iff env ts).2 fun i t ht _ =>
      loads_of_chosen (hchosen t (List.mem_of_getElem? ht)) (hanswer i)
  obtain ⟨w, hw⟩ := (foldlM_range_eq_ok_iff (readEntry_eq_ok_iff env (writeDatabase ts)) ts.length
    ⟨[], api⟩).2 hpasses
  refine ⟨w, ?_, ?_⟩
  · rw [readDatabase, countTorrent_writeDatabase, if_pos hcount, hw]
  · rw [curTorrens_foldlM env _ hw, map_readTorrent_writeDatabase, List.nil_append]

/-- The torrents that are read were written. -/
theorem curTorrens_subset_of_readDatabase {ts : List Torrent} {w w' : MainWindow Rest}
    (h : readDatabase env (writeDatabase ts) w = .ok w') :
    ∀ t ∈ w'.curTorrens, t ∈ w.curTorrens ∨ t ∈ ts := by
  intro t ht
  rw [curTorrens_foldlM env _ h, List.mem_append] at ht
  refine ht.imp_right fun ht => ?_
  obtain ⟨i, hi, rfl⟩ := List.mem_map.1 (List.mem_filter.1 ht).1
  have hlt := (List.mem_range.1 hi).trans_le (countTorrent_le ts)
  rw [readTorrent_writeDatabase (List.getElem?_eq_getElem hlt)]
  exact List.getElem_mem hlt

end MainWindow

namespace Window

variable {Rest : Type} [Inhabited Rest] {lt : Libtorrent Rest} {last : Option (Window Rest)}

/-! ## Sessions

A session leaves nothing behind but what its window writes when it is closed. -/

/-- The window of the last session as it was closed, if there was a session.  Libtorrent finds the
same torrents in each. -/
inductive Lives (lt : Libtorrent Rest) : Option (Window Rest) → Prop
  | first : Lives lt none
  | session {last : Option (Window Rest)} {env : MainWindow.Restart Rest} {w₀ w : Window Rest}
      {tr : List (WindowEvent Rest × WindowReply Rest)} :
      Lives lt last → env.lt = lt → ofDatabase env (last.map database) = .ok w₀ →
      Run (step lt) w₀ tr w → EveryStep (step lt) w₀ (fun _ w x _ => w.Possible x.1) tr →
      Lives lt (some w)

/-- The torrents it had. -/
def saved (last : Option (Window Rest)) : List MainWindow.Torrent := last.elim [] torrents

/-- The first start finds no database, and no torrent. -/
theorem ofDatabase_none (env : MainWindow.Restart Rest) :
    ofDatabase env none = .ok (ofList ⟨[], .fresh⟩) := rfl

/-- Any other start reads the list that was written. -/
theorem ofDatabase_writeDatabase (env : MainWindow.Restart Rest) (ts : List MainWindow.Torrent) :
    ofDatabase env (some (MainWindow.writeDatabase ts)) =
      (MainWindow.readDatabase env (MainWindow.writeDatabase ts) ⟨[], .fresh⟩).map ofList := by
  rw [ofDatabase, if_pos (MainWindow.checkDatabase_writeDatabase ts), Option.getD_some]
  cases MainWindow.readDatabase env (MainWindow.writeDatabase ts) ⟨[], .fresh⟩ <;> rfl

/-- A session begins with torrents that are on disk. -/
theorem torrents_subset_of_ofDatabase {env : MainWindow.Restart Rest} {w : Window Rest}
    (h : ofDatabase env (last.map database) = .ok w) : ∀ t ∈ w.torrents, t ∈ saved last := by
  cases last with
  | none =>
    obtain rfl := Except.ok.inj h
    exact fun t ht => absurd ht List.not_mem_nil
  | some w₁ =>
    rw [Option.map_some, database, ofDatabase_writeDatabase] at h
    cases hread :
      MainWindow.readDatabase env (MainWindow.writeDatabase w₁.torrents) ⟨[], .fresh⟩ with
    | error fault =>
      rw [hread] at h
      cases h
    | ok w' =>
      rw [hread] at h
      obtain rfl := Except.ok.inj h
      rw [torrents_ofList]
      intro t ht
      exact (MainWindow.curTorrens_subset_of_readDatabase hread t ht).resolve_left
        List.not_mem_nil

/-- **Everything on disk was chosen.** -/
theorem Lives.chosen (h : Lives lt last) : ∀ t ∈ saved last, Chosen lt t := by
  induction h with
  | first => exact fun t ht => absurd ht List.not_mem_nil
  | @session last env w₀ w tr _ henv h₀ hr hpossible ih =>
    obtain ⟨w', hw'⟩ := exists_ofList_of_ofDatabase h₀
    have hstart : (Fits w₀ ∧ Choosing lt w₀) ∧ AllChosen lt w₀ :=
      ⟨hw' ▸ ⟨fits_ofList w', choosing_ofList w'⟩,
        fun t ht => ih t (torrents_subset_of_ofDatabase h₀ t ht)⟩
    have hend := hr.invariant (I := fun w => (Fits w ∧ Choosing lt w) ∧ AllChosen lt w)
      (fun w e h he => (step_outcome h.1.1 he).mono fun _ heffect =>
        ⟨⟨h.1.1.of_effect heffect, h.1.2.of_effect heffect⟩, h.2.of_effect h.1.2 heffect⟩)
      hstart hpossible
    exact hend.2

end Window

end TorrentX
