import TorrentX.Client.TorrentAPI

/-!
# Client/Calls — what each call does

Every call does one thing to the linker (`Linker.after`) and one to the parameters
(`AddTorrentParams.after`), whatever it replies (`step_spec`).  The small facts about the operations
of the linker are here too: which handles are keys after each, and that the converter and the cache
stay.
-/

namespace TorrentX

open TorrentAPI

/-! ## What a call does to the linker

A call takes the batches there are, then reads or writes at one handle.  The lemmas of this section
say of each operation which handles are keys after it, and that it leaves the converter or the cache
alone; `after` puts them together, call by call. -/

variable {Rest : Type}

namespace Linker

/-- A batch without a status asks for no rebuild. -/
theorem updateTorrents_of_isEmpty (l : Linker Rest) {u : Update Rest} (h : u.statuses.isEmpty) :
    l.updateTorrents u = l := by
  rw [updateTorrents, List.isEmpty_iff.1 h]
  rfl

/-- Passing over an empty batch is the same as taking it. -/
theorem takeUpdates_eq (l : Linker Rest) (us : List (Update Rest)) :
    l.takeUpdates us = l.updateAll us := by
  refine congrArg (List.foldl · l us) (funext₂ fun l u => ?_)
  split
  · next h => exact (l.updateTorrents_of_isEmpty h).symm
  · rfl

@[simp] theorem converter_takeUpdates (l : Linker Rest) (us : List (Update Rest)) :
    (l.takeUpdates us).converter = l.converter := by
  rw [takeUpdates_eq, converter_updateAll]

@[simp] theorem mem_takeUpdates (l : Linker Rest) (us : List (Update Rest)) (h : Handle) :
    h ∈ (l.takeUpdates us).sessionHandles ↔ h ∈ l.sessionHandles := by
  rw [takeUpdates_eq, mem_updateAll]

/-- Writing back the handle that was read changes nothing, so pausing and resuming do not. -/
theorem setHandle_self (l : Linker Rest) (file : Bytes) :
    l.setHandle file (l.converter file) = l := by
  rw [setHandle, Function.update_eq_self]

/-- Adding a torrent makes its handle a key. -/
@[simp] theorem mem_setStatus (l : Linker Rest) (status : TorrentStatus Rest) (h : Handle) :
    h ∈ (l.setStatus status).sessionHandles ↔ h = status.handle ∨ h ∈ l.sessionHandles :=
  AList.mem_insert _

@[simp] theorem converter_subscript (l : Linker Rest) (handle : Handle) :
    (l.subscript handle).2.converter = l.converter := by
  rw [subscript]
  split <;> rfl

@[simp] theorem currentHandles_subscript (l : Linker Rest) (handle : Handle) :
    (l.subscript handle).2.currentHandles = l.currentHandles := by
  rw [subscript]
  split <;> rfl

/-- Looking a handle up adds it to the keys. -/
@[simp] theorem mem_subscript (l : Linker Rest) (handle h : Handle) :
    h ∈ (l.subscript handle).2.sessionHandles ↔ h = handle ∨ h ∈ l.sessionHandles := by
  rw [subscript]
  split
  · next s hs =>
    refine ⟨.inr, ?_⟩
    rintro (rfl | hh)
    · exact AList.lookup_isSome.1 (Option.isSome_of_mem hs)
    · exact hh
  · exact AList.mem_insert _

@[simp] theorem converter_removeHandle (l : Linker Rest) (handle : Handle) :
    (l.removeHandle handle).converter = l.converter := by
  rw [removeHandle]
  split <;> rfl

@[simp] theorem currentHandles_removeHandle (l : Linker Rest) (handle : Handle) :
    (l.removeHandle handle).currentHandles = l.currentHandles := by
  rw [removeHandle]
  split <;> rfl

/-- Removing a torrent takes its handle out of the keys, if it is one. -/
@[simp] theorem mem_removeHandle (l : Linker Rest) (handle h : Handle) :
    h ∈ (l.removeHandle handle).sessionHandles ↔ h ≠ handle ∧ h ∈ l.sessionHandles := by
  rw [removeHandle]
  split
  · exact AList.mem_erase
  · next hnot =>
    refine ⟨fun hh => ⟨?_, hh⟩, And.right⟩
    rintro rfl
    exact hnot hh

/-- What each call does to the linker. -/
def after (l : Linker Rest) : ApiCall Rest → Linker Rest
  | .createDownload file none => l.setHandle file none
  | .createDownload file (some status) => (l.setHandle file status.handle).setStatus status
  | .getInfo file updates => ((l.takeUpdates updates).subscript (l.converter file)).2
  | .pauseDownload _ updates _ => l.takeUpdates updates
  | .resumeDownload _ updates _ => l.takeUpdates updates
  | .removeDownload file updates _ => (l.takeUpdates updates).removeHandle (l.converter file)
  | _ => l

end Linker

variable {lt : Libtorrent Rest} {api api' : TorrentAPI Rest} {c : ApiCall Rest}
  {r : ApiReply Rest}

/-- What each call does to the parameters: a call that prepares a download writes some of them, if
it returns. -/
def AddTorrentParams.after (lt : Libtorrent Rest) (params : AddTorrentParams Rest) :
    ApiCall Rest → AddTorrentParams Rest
  | .prepareDownload file path =>
    ((setFile lt params file).map fun params => { params with savePath := path }).getD params
  | _ => params

/-- **What a step does.**  What it replies is another matter: a call that throws has done its part
by then. -/
theorem step_spec (h : step lt api c = .ok (r, api')) :
    api'.params = api.params.after lt c ∧ api'.linker = api.linker.after c := by
  cases c with
  | prepareDownload file path =>
    have h : TorrentAPI.prepareDownload lt api file path = (r, api') := Except.ok.inj h
    rw [TorrentAPI.prepareDownload] at h
    rw [AddTorrentParams.after]
    cases hfile : setFile lt api.params file <;> rw [hfile] at h <;> cases h <;> exact ⟨rfl, rfl⟩
  | pickDownloadFiles =>
    obtain ⟨api'', hpick, h⟩ := exists_of_bind_eq_ok h
    obtain ⟨-, rfl⟩ := Prod.mk.inj (Except.ok.inj h)
    rw [TorrentAPI.pickDownloadFiles] at hpick
    split at hpick
    · cases hpick
    · split at hpick <;> cases hpick
      exact ⟨rfl, rfl⟩
  | setMark index mark pastLevel =>
    obtain ⟨api'', hmark, h⟩ := exists_of_bind_eq_ok h
    obtain ⟨-, rfl⟩ := Prod.mk.inj (Except.ok.inj h)
    rw [TorrentAPI.setMark] at hmark
    split at hmark <;> cases hmark
    exact ⟨rfl, rfl⟩
  | createDownload file answer =>
    obtain ⟨-, rfl⟩ := Prod.mk.inj (Except.ok.inj h)
    cases answer <;> exact ⟨rfl, rfl⟩
  | getInfo file updates =>
    rw [step, TorrentAPI.getInfo, Linker.converter_takeUpdates] at h
    dsimp only at h
    split at h <;> cases h
    exact ⟨rfl, rfl⟩
  | pauseDownload file updates valid =>
    obtain ⟨-, rfl⟩ := Prod.mk.inj (Except.ok.inj h)
    exact ⟨rfl, Linker.setHandle_self _ _⟩
  | resumeDownload file updates valid =>
    obtain ⟨-, rfl⟩ := Prod.mk.inj (Except.ok.inj h)
    exact ⟨rfl, Linker.setHandle_self _ _⟩
  | removeDownload file updates valid =>
    obtain ⟨-, rfl⟩ := Prod.mk.inj (Except.ok.inj h)
    refine ⟨rfl, ?_⟩
    rw [Linker.after, ← Linker.converter_takeUpdates api.linker updates]

end TorrentX
