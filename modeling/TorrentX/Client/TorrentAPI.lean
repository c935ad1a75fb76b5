import TorrentX.Machinery.Run
import TorrentX.Client.FileTree
import TorrentX.Client.EndTime
import TorrentX.Client.Linker

/-!
# Client/TorrentAPI — one client, call after call

The model of `TorrentAPI`: the parameters of the download that is prepared, the rows of its files,
and the linker.  Each public call is a step.  What libtorrent does with a file name or a magnet link
is a function of it (`Libtorrent`); what the session answers comes with the call.

An exception is a reply, and the state is what the call has made of it by then.  Undefined behaviour
is a fault.  `createDownload` waits for its alert, and a call that never returns is no step.
-/

namespace TorrentX

open Wire FilesPicker

/-! ## Parameters of a download -/

/-- `lt::add_torrent_params`: the files of the torrent, the two other fields the client writes, and
the rest. -/
structure AddTorrentParams (Rest : Type) where
  ti : Option (List Bytes)
  savePath : Bytes
  filePriorities : List DownloadPriority
  rest : Rest
deriving DecidableEq

instance {Rest : Type} [Inhabited Rest] : Inhabited (AddTorrentParams Rest) :=
  ⟨⟨none, [], [], default⟩⟩

/-- The constructor of `lt::torrent_info`, up to the files it finds, and `lt::parse_magnet_uri`;
`none` when they throw. -/
structure Libtorrent (Rest : Type) where
  torrentInfo : Bytes → Option (List Bytes)
  parseMagnetUri : Bytes → Option (AddTorrentParams Rest)

/-! ## What is shown of a torrent -/

variable {Rest : Type}

namespace InfoHelper

/-- `getState`. -/
def getState : TorrentState → Bytes
  | .checkingFiles => text "checking"
  | .downloadingMetadata => text "dl metadata"
  | .downloading => text "downloading"
  | .finished => text "finished"
  | .seeding => text "seeding"
  | .allocating => text "allocating"
  | .checkingResumeData => text "checking resume"

/-- A conversion to `uint32_t`. -/
def toUInt32 (x : ℤ) : ℕ := (x % 2 ^ 32).toNat

/-- `CONVERT_LT_PPM`. -/
def convertLtPpm : ℤ := 10000

def getPercentDownloadedSize (ts : TorrentStatus Rest) : ℕ :=
  toUInt32 (ts.progressPpm.tdiv convertLtPpm)

def getDownloadRate (ts : TorrentStatus Rest) : ℕ := toUInt32 ts.downloadRate

def getRemainTime (ts : TorrentStatus Rest) : Except TimeFault Text := do
  let remain ← int64 (ts.totalWanted - ts.totalDone)
  endTime remain ts.downloadRate

end InfoHelper

/-- `TorrentInfo`, without the sizes, which are `long double`. -/
structure TorrentInfo where
  remainTime : Text
  downloadRate : ℕ
  percentDownload : ℕ
  fileName : Bytes
  state : Bytes
deriving DecidableEq

/-- The lines of `getInfo` that read the status. -/
def TorrentInfo.ofStatus (ts : TorrentStatus Rest) : Except TimeFault TorrentInfo := do
  let remainTime ← InfoHelper.getRemainTime ts
  return {
    remainTime := remainTime
    downloadRate := InfoHelper.getDownloadRate ts
    percentDownload := InfoHelper.getPercentDownloadedSize ts
    fileName := ts.name
    state := InfoHelper.getState ts.state }

/-! ## The linker under the calls -/

namespace Linker

/-- `takeUpdates`, on the batches of the alerts: those that are empty are passed over. -/
def takeUpdates (l : Linker Rest) (us : List (Update Rest)) : Linker Rest :=
  us.foldl (fun l u => if u.statuses.isEmpty then l else l.updateTorrents u) l

/-- `converter[file_name] = handle`. -/
def setHandle (l : Linker Rest) (file : Bytes) (handle : Handle) : Linker Rest :=
  { l with converter := Function.update l.converter file handle }

/-- `session_handles[handle] = status`, for the handle of the status. -/
def setStatus (l : Linker Rest) (status : TorrentStatus Rest) : Linker Rest :=
  { l with sessionHandles := l.sessionHandles.insert status.handle status }

/-- What `removeDownload` does to the linker.  Its `std::find` compares owning pointers with one
that has just been made, and finds none: nothing leaves `current_handles`. -/
def removeHandle (l : Linker Rest) (handle : Handle) : Linker Rest :=
  if handle ∈ l.sessionHandles then
    { l with sessionHandles := l.sessionHandles.erase handle }
  else l

end Linker

/-! ## The client -/

/-- `TorrentAPI`: `params_`, `picker.download_holder` and `linker_`. -/
structure TorrentAPI (Rest : Type) where
  params : AddTorrentParams Rest
  holder : List FileNode
  linker : Linker Rest

/-- The undefined behaviour of a call. -/
inductive ApiFault
  | nullInfo
  | tree (fault : TreeFault)
  | rowRange
  | time (fault : TimeFault)
deriving DecidableEq

/-- The public calls, with what the session answers: a status, whose handle is that of the alert
`createDownload` waits for, or none when the alert has an error; the batches that are taken; whether
the handle is valid still. -/
inductive ApiCall (Rest : Type)
  | prepareDownload (file path : Bytes)
  | pickDownloadFiles
  | setMark (index : ℕ) (mark : Bool) (pastLevel : ℤ)
  | createDownload (file : Bytes) (answer : Option (TorrentStatus Rest))
  | getInfo (file : Bytes) (updates : List (Update Rest))
  | pauseDownload (file : Bytes) (updates : List (Update Rest)) (valid : Bool)
  | resumeDownload (file : Bytes) (updates : List (Update Rest)) (valid : Bool)
  | removeDownload (file : Bytes) (updates : List (Update Rest)) (valid : Bool)

/-- What a call returns or hands to the session, or that it throws. -/
inductive ApiReply (Rest : Type)
  | done
  | threw
  | added (params : AddTorrentParams Rest) (priority : ℕ → Option DownloadPriority)
  | info (info : TorrentInfo)

/-- A call that uses a handle throws unless it is valid. -/
def ApiReply.ofValid {Rest : Type} (valid : Bool) : ApiReply Rest :=
  if valid then .done else .threw

namespace TorrentAPI

def fresh [Inhabited Rest] : TorrentAPI Rest := ⟨default, [], .empty⟩

/-- `file_identifier.substr(0, 6) == "magnet"`. -/
def IsMagnet (file : Bytes) : Prop := file.take 6 = text "magnet"

instance (file : Bytes) : Decidable (IsMagnet file) := inferInstanceAs (Decidable (_ = _))

/-- `setFile`. -/
def setFile (lt : Libtorrent Rest) (params : AddTorrentParams Rest) (file : Bytes) :
    Option (AddTorrentParams Rest) :=
  if IsMagnet file then lt.parseMagnetUri file
  else (lt.torrentInfo file).map fun files =>
    { params with
      ti := some files
      filePriorities := params.filePriorities ++ List.replicate files.length .default }

/-- `prepareDownload`. -/
def prepareDownload (lt : Libtorrent Rest) (api : TorrentAPI Rest) (file path : Bytes) :
    ApiReply Rest × TorrentAPI Rest :=
  match setFile lt api.params file with
  | none => (.threw, { api with holder := [] })
  | some params => (.done, { api with holder := [], params := { params with savePath := path } })

/-- `pickDownloadFiles`. -/
def pickDownloadFiles (api : TorrentAPI Rest) : Except ApiFault (TorrentAPI Rest) :=
  match api.params.ti with
  | none => .error .nullInfo
  | some files =>
    match TorrentX.pickDownloadFiles api.holder files with
    | .error fault => .error (.tree fault)
    | .ok holder => .ok { api with holder := holder }

/-- `picker.setMark`. -/
def setMark (api : TorrentAPI Rest) (index : ℕ) (mark : Bool) (pastLevel : ℤ) :
    Except ApiFault (TorrentAPI Rest) :=
  if index < api.holder.length then
    .ok { api with holder := FilesPicker.setMark pastLevel api.holder index mark }
  else .error .rowRange

/-- `createDownload`. -/
def createDownload (api : TorrentAPI Rest) (file : Bytes) :
    Option (TorrentStatus Rest) → ApiReply Rest × TorrentAPI Rest
  | none => (.threw, { api with linker := api.linker.setHandle file none })
  | some status =>
    (.added api.params (TorrentX.createDownload api.holder),
      { api with linker := (api.linker.setHandle file status.handle).setStatus status })

/-- `getInfo`.  Of its look-ups the first inserts a handle that is not there. -/
def getInfo (api : TorrentAPI Rest) (file : Bytes) (updates : List (Update Rest)) :
    Except ApiFault (ApiReply Rest × TorrentAPI Rest) :=
  let linker := api.linker.takeUpdates updates
  let (status, linker) := linker.subscript (linker.converter file)
  match TorrentInfo.ofStatus status with
  | .error fault => .error (.time fault)
  | .ok info => .ok (.info info, { api with linker := linker })

/-- `pauseDownload` and `resumeDownload`: the handle they write back is the one they read. -/
def useHandle (api : TorrentAPI Rest) (file : Bytes) (updates : List (Update Rest)) (valid : Bool) :
    ApiReply Rest × TorrentAPI Rest :=
  let linker := api.linker.takeUpdates updates
  (.ofValid valid, { api with linker := linker.setHandle file (linker.converter file) })

/-- `removeDownload`. -/
def removeDownload (api : TorrentAPI Rest) (file : Bytes) (updates : List (Update Rest))
    (valid : Bool) : ApiReply Rest × TorrentAPI Rest :=
  let linker := api.linker.takeUpdates updates
  let handle := linker.converter file
  (if handle ∈ linker.sessionHandles then .ofValid valid else .done,
    { api with linker := linker.removeHandle handle })

/-- One call. -/
def step (lt : Libtorrent Rest) (api : TorrentAPI Rest) :
    ApiCall Rest → Except ApiFault (ApiReply Rest × TorrentAPI Rest)
  | .prepareDownload file path => .ok (prepareDownload lt api file path)
  | .pickDownloadFiles => do return (.done, ← pickDownloadFiles api)
  | .setMark index mark pastLevel => do return (.done, ← setMark api index mark pastLevel)
  | .createDownload file answer => .ok (createDownload api file answer)
  | .getInfo file updates => getInfo api file updates
  | .pauseDownload file updates valid => .ok (useHandle api file updates valid)
  | .resumeDownload file updates valid => .ok (useHandle api file updates valid)
  | .removeDownload file updates valid => .ok (removeDownload api file updates valid)

end TorrentAPI

end TorrentX
