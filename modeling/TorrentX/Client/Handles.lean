import TorrentX.Client.Calls

/-!
# Client/Handles — the handles the client keeps

What a sequence of calls should leave is `Downloads`: the handle each name was last given, and the
handles that were added and not removed.  The converter always has the handle a name was last given
(`converter_eq`).  The keys of `session_handles` are the live handles until the state of a name
without a live handle is asked for (`keys_eq_live_iff`).
-/

namespace TorrentX

open Wire TorrentAPI

variable {Rest : Type} {lt : Libtorrent Rest} {api : TorrentAPI Rest}

/-! ## The downloads there should be -/

/-- The downloads after some calls: the handle each name was last given, and the handles that were
added and not removed. -/
structure Downloads where
  handleOf : Bytes → Handle := fun _ => none
  live : Finset Handle := ∅

namespace Downloads

/-- One call more. -/
def after (d : Downloads) : ApiCall Rest → Downloads
  | .createDownload file none => { d with handleOf := Function.update d.handleOf file none }
  | .createDownload file (some status) =>
    { handleOf := Function.update d.handleOf file status.handle
      live := insert status.handle d.live }
  | .removeDownload file _ _ => { d with live := d.live.erase (d.handleOf file) }
  | _ => d

end Downloads

/-- The downloads after a trace. -/
def downloads (tr : List (ApiCall Rest × ApiReply Rest)) : Downloads :=
  tr.foldl (fun d x => d.after x.1) {}

/-- A call after a trace takes its downloads one step on. -/
theorem downloads_snoc (tr : List (ApiCall Rest × ApiReply Rest))
    (x : ApiCall Rest × ApiReply Rest) :
    downloads (tr ++ [x]) = (downloads tr).after x.1 := by
  rw [downloads, List.foldl_append]
  rfl

/-! ## Are the keys the live handles?

Two maps of the client are read with `operator[]`, which inserts what it does not find.  For the
converter this changes nothing, as its default is the handle of no torrent; for `session_handles` it
makes a key. -/

/-- The keys of `session_handles` are the live handles. -/
def KeysLive (d : Downloads) (l : Linker Rest) : Prop := ∀ h, h ∈ l.sessionHandles ↔ h ∈ d.live

/-- A call that asks for the state of a name asks for one with a live handle. -/
def AsksLive (d : Downloads) (c : ApiCall Rest) : Prop :=
  ∀ file updates, c = .getInfo file updates → d.handleOf file ∈ d.live

/-- **One call**: it keeps the keys live exactly if it does not ask for a name that has no live
handle. -/
theorem keysLive_after_iff {d : Downloads} {l : Linker Rest} (hconv : l.converter = d.handleOf)
    (h : KeysLive d l) (c : ApiCall Rest) : KeysLive (d.after c) (l.after c) ↔ AsksLive d c := by
  cases c with
  | createDownload file answer =>
    refine iff_of_true ?_ (by simp [AsksLive])
    cases answer with
    | none => exact h
    | some status =>
      intro k
      rw [Linker.after, Linker.mem_setStatus, Downloads.after, Finset.mem_insert]
      exact or_congr_right (h k)
  | getInfo file updates =>
    have hmem (k : Handle) : k ∈ (l.after (.getInfo file updates)).sessionHandles ↔
        k = d.handleOf file ∨ k ∈ d.live := by
      rw [Linker.after, Linker.mem_subscript, Linker.mem_takeUpdates, h k, hconv]
    constructor
    · rintro hkeys _ _ ⟨⟩
      exact (hkeys _).1 ((hmem _).2 (.inl rfl))
    · intro hasks k
      rw [hmem]
      exact ⟨fun hk => hk.elim (fun hk => hk ▸ hasks file updates rfl) id, .inr⟩
  | pauseDownload file updates valid =>
    exact iff_of_true (fun k => (Linker.mem_takeUpdates _ _ _).trans (h k)) (by simp [AsksLive])
  | resumeDownload file updates valid =>
    exact iff_of_true (fun k => (Linker.mem_takeUpdates _ _ _).trans (h k)) (by simp [AsksLive])
  | removeDownload file updates valid =>
    refine iff_of_true (fun k => ?_) (by simp [AsksLive])
    rw [Linker.after, Linker.mem_removeHandle, Linker.mem_takeUpdates, Downloads.after,
      Finset.mem_erase, hconv, h k]
  | _ => exact iff_of_true h (by simp [AsksLive])

/-! ## Runs -/

variable [Inhabited Rest] {tr : List (ApiCall Rest × ApiReply Rest)}

/-- **The converter has the handle each name was last given.** -/
theorem converter_eq (hr : Run (step lt) fresh tr api) :
    api.linker.converter = (downloads tr).handleOf := by
  induction hr with
  | nil => rfl
  | @snoc tr t u c r _ hs ih =>
    rw [(step_spec hs).2, downloads_snoc]
    cases c with
    | createDownload file answer =>
      cases answer <;> exact congrArg (Function.update · file _) ih
    | getInfo file updates =>
      exact (Linker.converter_subscript _ _).trans ((Linker.converter_takeUpdates _ _).trans ih)
    | pauseDownload file updates valid => exact (Linker.converter_takeUpdates _ _).trans ih
    | resumeDownload file updates valid => exact (Linker.converter_takeUpdates _ _).trans ih
    | removeDownload file updates valid =>
      exact (Linker.converter_removeHandle _ _).trans ((Linker.converter_takeUpdates _ _).trans ih)
    | _ => exact ih

/-- **The keys are the live handles after every call** of a run exactly if no call of it asks for
the state of a name without a live handle. -/
theorem keys_eq_live_iff (hr : Run (step lt) fresh tr api) :
    EveryState (step lt) fresh (fun tr api => KeysLive (downloads tr) api.linker) tr ↔
      EveryStep (step lt) fresh (fun tr _ x _ => AsksLive (downloads tr) x.1) tr := by
  refine everyState_iff_everyStep (by simp [KeysLive, downloads, fresh, Linker.empty]) ?_ hr
  intro tr t x u hr hs h
  rw [downloads_snoc, (step_spec hs).2]
  exact keysLive_after_iff (converter_eq hr) h x.1

/-- A libtorrent that knows no torrents. -/
def noTorrents : Libtorrent Unit := ⟨fun _ => none, fun _ => none⟩

/-- What is shown of a torrent without a report. -/
def nothingKnown : TorrentInfo := ⟨['9', '9', '9', 'd'], 0, 0, [], text "checking resume"⟩

/-- A torrent is added, asked for and removed: it is gone. -/
theorem keys_eq_live_iff_oneTorrent :
    let tr : List (ApiCall Unit × ApiReply Unit) :=
      [(.createDownload (text "a") (some { handle := some 0 }), .added default fun _ => none),
        (.getInfo (text "a") [], .info nothingKnown),
        (.removeDownload (text "a") [] true, .done)]
    EveryState (step noTorrents) fresh (fun tr api => KeysLive (downloads tr) api.linker) tr ∧
      (downloads tr).live = ∅ := by
  intro tr
  have h₁ : Run (step noTorrents) fresh
      [(.createDownload (text "a") (some { handle := some 0 }), .added default fun _ => none)] _ :=
    .snoc .nil rfl
  have h₂ : Run (step noTorrents) fresh (_ ++ [(.getInfo (text "a") [], .info nothingKnown)]) _ :=
    .snoc h₁ rfl
  have hr : Run (step noTorrents) fresh (_ ++ [(.removeDownload (text "a") [] true, .done)]) _ :=
    .snoc h₂ rfl
  refine ⟨(keys_eq_live_iff hr).2 ?_, rfl⟩
  refine (everyStep_snoc h₂ rfl).2 ⟨(everyStep_snoc h₁ rfl).2
    ⟨(everyStep_snoc .nil rfl).2 ⟨everyStep_nil, ?_⟩, ?_⟩, ?_⟩
  · rintro _ _ ⟨⟩
  · rintro _ _ ⟨⟩
    decide
  · rintro _ _ ⟨⟩

/-- Two rows of the list are for one torrent; one is deleted, and the next refresh asks for the
other: the handle that was removed is a key again. -/
theorem not_keysLive_twoRows : ∃ (tr : List (ApiCall Unit × ApiReply Unit)) (api : TorrentAPI Unit),
    Run (step noTorrents) fresh tr api ∧
    tr.map Prod.fst =
      [.createDownload (text "a") (some { handle := some 0 }),
        .createDownload (text "a") (some { handle := some 0 }),
        .removeDownload (text "a") [] true, .getInfo (text "a") []] ∧
    ¬ EveryState (step noTorrents) fresh (fun tr api => KeysLive (downloads tr) api.linker) tr := by
  have hr : Run (step noTorrents) fresh
      [(.createDownload (text "a") (some { handle := some 0 }), .added default fun _ => none),
        (.createDownload (text "a") (some { handle := some 0 }), .added default fun _ => none),
        (.removeDownload (text "a") [] true, .done),
        (.getInfo (text "a") [], .info nothingKnown)] _ :=
    .snoc (.snoc (.snoc (.snoc .nil rfl) rfl) rfl) rfl
  refine ⟨_, _, hr, rfl, fun h => ?_⟩
  have hkeys := h.last hr (some 0)
  revert hkeys
  decide

end TorrentX
