import TorrentX.Gui.Fits

/-!
# Gui/Rows — is every row of the list a torrent of its own?

The window knows a torrent by the name of its file, the client by the handle that the converter has
for the name.  Neither side looks whether a name or a torrent is there already.  The rows of the
list and the keys of `session_handles` correspond one to one in every state exactly if the rows
that are read have handles of their own and no torrent is added under a name, or with a handle,
that a row has (`inSync_iff`).
-/

namespace TorrentX

open Wire FilesPicker
open QString (unit toStdString)

/-! ## Rows and handles

The converter stands between a row and its key.  A name that is added again is mapped to the newer
handle, so two rows of one name share that handle, and the older one is left over. -/

/-- The handle of a torrent of the list. -/
def Linker.handleOf (l : Linker Rest) (t : MainWindow.Torrent) : Handle :=
  l.converter (toStdString t.name)

/-- The rows correspond one to one to the keys of `session_handles`. -/
structure InSync (ts : List MainWindow.Torrent) (l : Linker Rest) : Prop where
  keys : ∀ h, h ∈ l.sessionHandles ↔ ∃ t ∈ ts, l.handleOf t = h
  nodup : (ts.map l.handleOf).Nodup

/-- No row has the name, and none the handle. -/
def IsNew (ts : List MainWindow.Torrent) (l : Linker Rest) (name : QString) (h : Handle) : Prop :=
  ∀ t ∈ ts, toStdString t.name ≠ toStdString name ∧ l.handleOf t ≠ h

section Linker

variable {ts : List MainWindow.Torrent} {l l' : Linker Rest}

/-- The handles are read off the converter alone. -/
theorem handleOf_congr (h : l'.converter = l.converter) : l'.handleOf = l.handleOf :=
  funext fun t => congrFun h (toStdString t.name)

/-- The same keys and the same names. -/
theorem InSync.congr (h : InSync ts l) (hconv : l'.converter = l.converter)
    (hkeys : ∀ h, h ∈ l'.sessionHandles ↔ h ∈ l.sessionHandles) : InSync ts l' where
  keys k := by rw [hkeys, h.keys, handleOf_congr hconv]
  nodup := by
    rw [handleOf_congr hconv]
    exact h.nodup

/-- The handles after a torrent is added: those of its name are its own, the others stay. -/
theorem handleOf_after_createDownload (l : Linker Rest) (name : QString)
    (status : TorrentStatus Rest) (t : MainWindow.Torrent) :
    (l.after (.createDownload (toStdString name) (some status))).handleOf t =
      if toStdString t.name = toStdString name then status.handle else l.handleOf t :=
  Function.update_apply ..

/-- Its handle becomes a key, if it is none yet. -/
theorem mem_after_createDownload (l : Linker Rest) (name : QString) (status : TorrentStatus Rest)
    (h : Handle) :
    h ∈ (l.after (.createDownload (toStdString name) (some status))).sessionHandles ↔
      h = status.handle ∨ h ∈ l.sessionHandles := Linker.mem_setStatus _ _ _

/-- Handles that are all different were so before, and the torrent that is added is new. -/
theorem nodup_after_createDownload_iff (t : MainWindow.Torrent) (status : TorrentStatus Rest) :
    ((ts ++ [t]).map
        (l.after (.createDownload (toStdString t.name) (some status))).handleOf).Nodup ↔
      (ts.map l.handleOf).Nodup ∧ IsNew ts l t.name status.handle := by
  have hself : (l.after (.createDownload (toStdString t.name) (some status))).handleOf t
      = status.handle := (handleOf_after_createDownload ..).trans (if_pos rfl)
  have hother {t' : MainWindow.Torrent} (hne : toStdString t'.name ≠ toStdString t.name) :
      (l.after (.createDownload (toStdString t.name) (some status))).handleOf t' = l.handleOf t' :=
    (handleOf_after_createDownload ..).trans (if_neg hne)
  rw [List.map_append, List.nodup_append, List.map_singleton, hself]
  constructor
  · rintro ⟨hnodup, -, hdisjoint⟩
    have hnames : ∀ t' ∈ ts, toStdString t'.name ≠ toStdString t.name := by
      intro t' ht' hname
      refine hdisjoint _ (List.mem_map_of_mem ht') _ (List.mem_singleton_self _) ?_
      exact (handleOf_after_createDownload ..).trans (if_pos hname)
    rw [List.map_congr_left fun t' ht' => hother (hnames t' ht')] at hnodup
    refine ⟨hnodup, fun t' ht' => ⟨hnames t' ht', fun heq => ?_⟩⟩
    refine hdisjoint _ (List.mem_map_of_mem ht') _ (List.mem_singleton_self _) ?_
    rw [hother (hnames t' ht'), heq]
  · rintro ⟨hnodup, hnew⟩
    rw [List.map_congr_left fun t' ht' => hother (hnew t' ht').1]
    refine ⟨hnodup, List.nodup_singleton _, ?_⟩
    rintro _ hk _ hk' rfl
    obtain ⟨t', ht', heq⟩ := List.mem_map.1 hk
    exact (hnew t' ht').2 (heq.trans (List.mem_singleton.1 hk'))

/-- **Adding a torrent keeps the rows in sync exactly if it is new.** -/
theorem inSync_after_createDownload_iff (h : InSync ts l) (t : MainWindow.Torrent)
    (status : TorrentStatus Rest) :
    InSync (ts ++ [t]) (l.after (.createDownload (toStdString t.name) (some status))) ↔
      IsNew ts l t.name status.handle := by
  refine ⟨fun h' => ((nodup_after_createDownload_iff t status).1 h'.nodup).2, fun hnew => ⟨?_,
    (nodup_after_createDownload_iff t status).2 ⟨h.nodup, hnew⟩⟩⟩
  intro k
  rw [mem_after_createDownload, h.keys]
  have hself : (l.after (.createDownload (toStdString t.name) (some status))).handleOf t
      = status.handle := (handleOf_after_createDownload ..).trans (if_pos rfl)
  have hother (t' : MainWindow.Torrent) (ht' : t' ∈ ts) :
      (l.after (.createDownload (toStdString t.name) (some status))).handleOf t' = l.handleOf t' :=
    (handleOf_after_createDownload ..).trans (if_neg (hnew t' ht').1)
  constructor
  · rintro (rfl | ⟨t', ht', rfl⟩)
    · exact ⟨t, by simp, hself⟩
    · exact ⟨t', by simp [ht'], hother t' ht'⟩
  · rintro ⟨t', ht', rfl⟩
    rcases List.mem_append.1 ht' with ht' | ht'
    · exact .inr ⟨t', ht', (hother t' ht').symm⟩
    · rw [List.mem_singleton.1 ht']
      exact .inl hself

/-- **Removing a torrent** keeps the other rows in sync. -/
theorem InSync.eraseIdx (h : InSync ts l) {row : ℕ} {t : MainWindow.Torrent}
    (ht : ts[row]? = some t) (updates : List (Update Rest)) (valid : Bool) :
    InSync (ts.eraseIdx row) (l.after (.removeDownload (toStdString t.name) updates valid)) := by
  have hconv : (l.after (.removeDownload (toStdString t.name) updates valid)).converter
      = l.converter := by
    rw [Linker.after, Linker.converter_removeHandle, Linker.converter_takeUpdates]
  have hother {i : ℕ} {t' : MainWindow.Torrent} (ht' : ts[i]? = some t') (hne : i ≠ row) :
      l.handleOf t' ≠ l.handleOf t := by
    intro heq
    have hlt : i < (ts.map l.handleOf).length := by
      rw [List.length_map]
      exact (List.getElem?_eq_some_iff.1 ht').1
    refine hne ((List.getElem?_inj hlt h.nodup).1 ?_)
    rw [List.getElem?_map, List.getElem?_map, ht', ht, Option.map_some, Option.map_some, heq]
  refine ⟨fun k => ?_, ?_⟩
  · rw [handleOf_congr hconv, Linker.after, Linker.mem_removeHandle, Linker.mem_takeUpdates, h.keys]
    constructor
    · rintro ⟨hne, t', ht', rfl⟩
      obtain ⟨i, hi⟩ := List.getElem?_of_mem ht'
      refine ⟨t', List.mem_eraseIdx_iff_getElem?.2 ⟨i, ?_, hi⟩, rfl⟩
      rintro rfl
      exact hne (congrArg l.handleOf (Option.some.inj (hi.symm.trans ht)))
    · rintro ⟨t', ht', rfl⟩
      obtain ⟨i, hne, hi⟩ := List.mem_eraseIdx_iff_getElem?.1 ht'
      exact ⟨hother hi hne, t', List.mem_of_getElem? hi, rfl⟩
  · rw [handleOf_congr hconv, ← List.eraseIdx_map]
    exact h.nodup.sublist (List.eraseIdx_sublist _ _)

/-- Asking for the state of torrents of the list adds no key. -/
theorem InSync.asks {Rest : Type} {lt : Libtorrent Rest} {api api' : TorrentAPI Rest}
    (h : InSync ts api.linker)
    (hasks : Asks lt {file | ∃ t ∈ ts, toStdString t.name = file} api api') :
    InSync ts api'.linker := by
  induction hasks with
  | refl => exact h
  | tail _ hstep ih =>
    obtain ⟨_, ⟨t, ht, rfl⟩, updates, r, hstep⟩ := hstep
    rw [(step_spec hstep).2]
    refine ih.congr ?_ fun k => ?_
    · rw [Linker.after, Linker.converter_subscript, Linker.converter_takeUpdates]
    · rw [Linker.after, Linker.mem_subscript, Linker.mem_takeUpdates]
      refine or_iff_right_of_imp ?_
      rintro rfl
      exact (ih.keys _).2 ⟨t, ht, rfl⟩

end Linker

namespace Window

variable {Rest : Type} {lt : Libtorrent Rest} {w w' : Window Rest}

/-! ## Events

A refresh asks for names of the list, a removal takes out a row and its key, and the buttons do not
touch the linker.  Only `add` can put the two sides out of step. -/

/-- An event that adds a torrent adds a new one. -/
def AddsNew (w : Window Rest) (e : WindowEvent Rest) : Prop :=
  ∀ status source save window, e = .add (some status) → w.dialog = .adding source save window →
    IsNew w.torrents w.api.linker source status.handle

/-- Another event adds nothing. -/
theorem addsNew_of_ne {e : WindowEvent Rest} (h : ∀ status, e ≠ .add (some status)) : AddsNew w e :=
  fun status _ _ _ he => absurd he (h status)

/-- **One event**: the rows stay in sync exactly if the torrent it adds is new. -/
theorem inSync_iff_addsNew (h : InSync w.torrents w.api.linker) {e : WindowEvent Rest}
    {r : WindowReply Rest} (heffect : Effect lt w e r w') :
    InSync w'.torrents w'.api.linker ↔ AddsNew w e := by
  cases heffect with
  | select => exact iff_of_true h (addsNew_of_ne fun _ he => by cases he)
  | refused => exact iff_of_true h (addsNew_of_ne fun _ he => by cases he)
  | opened _ _ hlinker =>
    refine iff_of_true (h.congr ?_ fun _ => ?_) (addsNew_of_ne fun _ he => by cases he)
    · exact congrArg Linker.converter hlinker
    · rw [show _ = w.api.linker from hlinker]
  | clicked => exact iff_of_true h (addsNew_of_ne fun _ he => by cases he)
  | @added status source save window torrent api hdialog htorrent _ hlinker =>
    subst htorrent
    rw [torrents_grown, show (w.grown _ api).api.linker = _ from hlinker,
      inSync_after_createDownload_iff h ⟨source, save, _⟩ status]
    constructor
    · rintro hnew _ _ _ _ ⟨⟩ hdialog'
      obtain ⟨rfl, -, -⟩ := Dialog.adding.inj (hdialog.symm.trans hdialog')
      exact hnew
    · exact fun hnew => hnew status source save window rfl hdialog
  | closed => exact iff_of_true h (addsNew_of_ne fun _ he => by cases he)
  | asked => exact iff_of_true h (addsNew_of_ne fun _ he => by cases he)
  | kept => exact iff_of_true h (addsNew_of_ne fun _ he => by cases he)
  | @removed _ moved updates valid row t api _ ht _ _ hlinker =>
    refine iff_of_true ?_ (addsNew_of_ne fun _ he => by cases he)
    rw [torrents_shrunk, show (w.shrunk row moved api).api.linker = _ from hlinker]
    exact h.eraseIdx (by rw [torrents, List.getElem?_map, ht]; rfl) updates valid
  | @paused updates valid row t api _ ht _ _ hlinker =>
    refine iff_of_true ?_ (addsNew_of_ne fun _ he => by cases he)
    rw [torrents_toggled ht, show (w.toggled row t _ api).api.linker = _ from hlinker]
    exact h.congr (Linker.converter_takeUpdates _ _) (Linker.mem_takeUpdates _ _)
  | @started updates valid row t api _ ht _ _ hlinker =>
    refine iff_of_true ?_ (addsNew_of_ne fun _ he => by cases he)
    rw [torrents_toggled ht, show (w.toggled row t _ api).api.linker = _ from hlinker]
    exact h.congr (Linker.converter_takeUpdates _ _) (Linker.mem_takeUpdates _ _)
  | folder => exact iff_of_true h (addsNew_of_ne fun _ he => by cases he)
  | @refreshed updates s hs =>
    refine iff_of_true ?_ (addsNew_of_ne fun _ he => by cases he)
    have hsync : InSync s.torrents s.api.linker := hs.torrents_eq ▸ h.asks hs.asks
    split <;> exact hsync

/-! ## The rows that are read -/

end Window

namespace MainWindow

variable {Rest : Type} {env : Restart Rest} {api api' : TorrentAPI Rest} {w : MainWindow Rest}

/-- The call of an entry is a call on the linker. -/
theorem linker_perform {c : ApiCall Rest} (h : perform env api c = .ok api') :
    api'.linker = api.linker.after c := by
  rw [perform] at h
  cases hstep : api.step env.lt c with
  | error fault =>
    rw [hstep] at h
    cases h
  | ok x =>
    obtain ⟨r, api''⟩ := x
    rw [hstep] at h
    cases r <;> cases h <;> exact (step_spec hstep).2

/-- Setting marks does not touch the linker. -/
theorem linker_replayMarks {pastLevel : ℕ → ℤ} {i : ℕ} {marks : QString}
    (h : replayMarks env pastLevel i marks api = .ok api') : api'.linker = api.linker := by
  induction marks generalizing i api with
  | nil => rw [Except.ok.inj h]
  | cons c marks ih =>
    rw [replayMarks] at h
    split at h
    · obtain ⟨api₁, h₁, h⟩ := exists_of_bind_eq_ok h
      exact (ih h).trans (linker_perform h₁)
    · exact ih h

/-- An entry that is added goes to the session as its name says, with the handle of the answer. -/
theorem linker_addTorrent {i : ℕ} {t : Torrent} (h : addTorrent env i t api = .ok api') :
    ∃ status, env.answer i = some status ∧
      api'.linker = api.linker.after (.createDownload (toStdString t.name) (some status)) := by
  obtain ⟨api₁, h₁, h⟩ := exists_of_bind_eq_ok h
  obtain ⟨api₂, h₂, h⟩ := exists_of_bind_eq_ok h
  obtain ⟨api₃, h₃, h⟩ := exists_of_bind_eq_ok h
  have hlinker : api₃.linker = api.linker :=
    (linker_replayMarks h₃).trans ((linker_perform h₂).trans (linker_perform h₁))
  cases hanswer : env.answer i with
  | none =>
    rw [hanswer] at h
    cases h
  | some status => exact ⟨status, rfl, by rw [linker_perform h, hanswer, hlinker]⟩

/-- One entry adds at most one row, and the handle of its answer. -/
theorem inSync_readEntry {json : Json.Members QString} {w w' : MainWindow Rest} {i : ℕ}
    (hread : readEntry env json w i = .ok w')
    (h : (w.curTorrens.map w.api.linker.handleOf).Nodup → InSync w.curTorrens w.api.linker)
    (hnodup : (w'.curTorrens.map w'.api.linker.handleOf).Nodup) :
    InSync w'.curTorrens w'.api.linker := by
  rw [readEntry] at hread
  split at hread
  · obtain ⟨api', hadd, hw'⟩ := exists_of_bind_eq_ok hread
    obtain ⟨status, -, hlinker⟩ := linker_addTorrent hadd
    obtain rfl := Except.ok.inj hw'
    rw [hlinker] at hnodup ⊢
    obtain ⟨hbefore, hnew⟩ := (nodup_after_createDownload_iff _ status).1 hnodup
    exact (inSync_after_createDownload_iff (h hbefore) _ status).2 hnew
  · obtain rfl := Except.ok.inj hread
    exact h hnodup

variable [Inhabited Rest]

/-- **The rows that are read are in sync if their handles are all different.** -/
theorem inSync_of_foldlM {json : Json.Members QString} {n : ℕ} {w : MainWindow Rest}
    (hread : (List.range n).foldlM (readEntry env json) ⟨[], .fresh⟩ = .ok w)
    (hnodup : (w.curTorrens.map w.api.linker.handleOf).Nodup) :
    InSync w.curTorrens w.api.linker := by
  induction n generalizing w with
  | zero =>
    obtain rfl := Except.ok.inj hread
    exact ⟨fun h => by simp [TorrentAPI.fresh, Linker.empty], List.nodup_nil⟩
  | succ n ih =>
    rw [foldlM_range_succ] at hread
    obtain ⟨w₁, hw₁, hread⟩ := exists_of_bind_eq_ok hread
    exact inSync_readEntry hread (ih hw₁) hnodup

end MainWindow

namespace Window

variable {Rest : Type} [Inhabited Rest] {lt : Libtorrent Rest} {w w₀ : Window Rest}
  {env : MainWindow.Restart Rest} {database : Option (Json.Members QString)}
  {tr : List (WindowEvent Rest × WindowReply Rest)}

/-- **A window that has just been made** is in sync exactly if its rows have handles of their
own. -/
theorem inSync_ofDatabase_iff (h : ofDatabase env database = .ok w) :
    InSync w.torrents w.api.linker ↔ (w.torrents.map w.api.linker.handleOf).Nodup := by
  refine ⟨InSync.nodup, fun hnodup => ?_⟩
  rw [ofDatabase] at h
  split at h
  · obtain ⟨w', hread, hw'⟩ := exists_of_bind_eq_ok h
    obtain rfl := Except.ok.inj hw'
    rw [torrents_ofList] at hnodup ⊢
    exact MainWindow.inSync_of_foldlM hread hnodup
  · obtain rfl := Except.ok.inj h
    exact ⟨fun h => by simp [ofList, torrents, TorrentAPI.fresh, Linker.empty], hnodup⟩

/-- **The rows of the list correspond one to one to the keys of `session_handles`**, in every state
of a run, exactly if the rows that were read have handles of their own and every torrent that is
added is new. -/
theorem inSync_iff (h₀ : ofDatabase env database = .ok w₀) (hr : Run (step lt) w₀ tr w)
    (hpossible : EveryStep (step lt) w₀ (fun _ w x _ => w.Possible x.1) tr) :
    EveryState (step lt) w₀ (fun _ w => InSync w.torrents w.api.linker) tr ↔
      (w₀.torrents.map w₀.api.linker.handleOf).Nodup ∧
        EveryStep (step lt) w₀ (fun _ w x _ => w.AddsNew x.1) tr := by
  obtain ⟨w', hw'⟩ := exists_ofList_of_ofDatabase h₀
  rw [← inSync_ofDatabase_iff h₀]
  refine hr.everyState_iff (fun _ _ hfits he => hfits.step he) ?_ (hw' ▸ fits_ofList w') hpossible
  intro t u e r hfits he hstep hsync
  exact inSync_iff_addsNew hsync ((step_outcome hfits he).of_ok hstep)

/-- A torrent is added and deleted. -/
theorem inSync_iff_deleted : ∃ tr w,
    Run (step MainWindow.oneTorrentLeft.lt) (ofList ⟨[], .fresh⟩) tr w ∧
    tr.map Prod.fst = [.openTorrent MainWindow.allThere (.of "a.torrent") (.of "/"),
      .add (some { handle := some 0 }), .select (some 0), .deleteTorrent,
      .reply .no none [] true] ∧
    w.torrents = [] ∧
    EveryState (step MainWindow.oneTorrentLeft.lt) (ofList ⟨[], .fresh⟩)
      (fun _ w => InSync w.torrents w.api.linker) tr := by
  have h₁ : Run (step MainWindow.oneTorrentLeft.lt) (ofList ⟨[], .fresh⟩)
      [(.openTorrent MainWindow.allThere (.of "a.torrent") (.of "/"), _)] _ := .snoc .nil rfl
  have h₂ : Run (step MainWindow.oneTorrentLeft.lt) _
      (_ ++ [(.add (some { handle := some 0 }), _)]) _ := .snoc h₁ rfl
  have h₃ : Run (step MainWindow.oneTorrentLeft.lt) _ (_ ++ [(.select (some 0), _)]) _ :=
    .snoc h₂ rfl
  have h₄ : Run (step MainWindow.oneTorrentLeft.lt) _ (_ ++ [(.deleteTorrent, _)]) _ :=
    .snoc h₃ rfl
  have hr : Run (step MainWindow.oneTorrentLeft.lt) _ (_ ++ [(.reply .no none [] true, _)]) _ :=
    .snoc h₄ rfl
  refine ⟨_, _, hr, rfl, rfl, ?_⟩
  refine (@inSync_iff _ _ _ _ _ MainWindow.oneTorrentLeft none _ rfl hr ?_).2
    ⟨List.nodup_nil, ?_⟩
  · refine (everyStep_snoc h₄ rfl).2 ⟨(everyStep_snoc h₃ rfl).2 ⟨(everyStep_snoc h₂ rfl).2
      ⟨(everyStep_snoc h₁ rfl).2 ⟨(everyStep_snoc .nil rfl).2 ⟨everyStep_nil, rfl⟩, ?_⟩, ?_⟩,
        rfl, .inr rfl⟩, rfl, ?_⟩
    · exact ⟨_, _, _, rfl⟩
    · refine ⟨rfl, ?_⟩
      rintro _ ⟨⟩
      decide
    · rintro _ _ _ ⟨⟩
  · refine (everyStep_snoc h₄ rfl).2 ⟨(everyStep_snoc h₃ rfl).2 ⟨(everyStep_snoc h₂ rfl).2
      ⟨(everyStep_snoc h₁ rfl).2 ⟨(everyStep_snoc .nil rfl).2 ⟨everyStep_nil, nofun⟩, ?_⟩,
        nofun⟩, nofun⟩, nofun⟩
    intro _ _ _ _ _ _ t ht
    exact absurd ht List.not_mem_nil

end Window

end TorrentX
