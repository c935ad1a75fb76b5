import TorrentX.Machinery.Json
import TorrentX.Machinery.QString
import TorrentX.Client.TorrentAPI

/-!
# Gui/Database — the list of torrents on disk

The model of `write_database`, `check_database` and `read_database`.  The database is an object with
a count and one member for each torrent, under its number in decimal.  The writer, the validator and
the reader each count for themselves.

The reader makes the calls of the client that add a torrent (`TorrentAPI.step`): an exception leaves
it, since nothing catches one, and undefined behaviour ends it.  Which files are there is a function
of the name; the database is what was written, read back.
-/

namespace TorrentX

open Wire Json
open QString (unit toStdString number toInt isDigit)

/-! ## The model -/

/-- What `QFileInfo` says of a path. -/
structure FileSystem where
  isFile : QString → Bool
  isReadable : QString → Bool
  isDir : QString → Bool
  isWritable : QString → Bool

/-- `QFileInfo::suffix`: what follows the last dot of the file name. -/
def suffix (path : QString) : QString :=
  let fileName := (path.reverse.takeWhile (· ≠ unit '/')).reverse
  if unit '.' ∈ fileName then (fileName.reverse.takeWhile (· ≠ unit '.')).reverse else []

/-- `Torrent`: the name of its file, where it is saved, and the marks of its rows. -/
structure MainWindow.Torrent where
  name : QString
  locate : QString
  marks : QString
deriving DecidableEq

/-- `MainWindow`: `cur_torrens_` and `api_`. -/
structure MainWindow (Rest : Type) where
  curTorrens : List MainWindow.Torrent
  api : TorrentAPI Rest

namespace MainWindow

/-! ## Writing -/

/-- The object `write_database` makes of a torrent. -/
def ofTorrent (t : Torrent) : Json QString :=
  .object (insert (.of "marks") (.string t.marks)
    (insert (.of "location") (.string t.locate) (insert (.of "name") (.string t.name) [])))

/-- The loop of `write_database`, from the number `i` on. -/
def insertTorrents : ℕ → List Torrent → Members QString → Members QString
  | _, [], database => database
  | i, t :: ts, database => insertTorrents (i + 1) ts (insert (number i) (ofTorrent t) database)

/-- `write_database`. -/
def writeDatabase (curTorrens : List Torrent) : Members QString :=
  insertTorrents 0 curTorrens (insert (.of "count") (.string (number curTorrens.length)) [])

/-! ## Checking

The validator looks whether the count is a numeral and whether each entry has its members.  It knows
nothing of torrents, so marks of any length will do. -/

/-- `count_torrent`. -/
def countTorrent (json : Members QString) : ℕ := toInt (member json (.of "count")).toText

/-- `check_database`, on the object in the file; `none` when there is no file. -/
def checkDatabase : Option (Members QString) → Bool
  | none => false
  | some json =>
    !(member json (.of "count")).isNull &&
    (member json (.of "count")).toText.all isDigit &&
    ((List.range (countTorrent json)).all fun i => !(member json (number i)).isNull) &&
    (List.range (countTorrent json)).all fun i =>
      let buffer := (member json (number i)).toObject
      !(member buffer (.of "name")).isNull && !(member buffer (.of "location")).isNull &&
        !(member buffer (.of "marks")).isNull

/-! ## Reading

An entry that fails a check is passed over with a warning.  One that passes them all is added by the
calls that add a torrent by hand, and after these there is no way back. -/

/-- What `read_database` meets: the files, libtorrent on them, what the session answers for each
entry, and the level each read past the last row yields. -/
structure Restart (Rest : Type) where
  files : FileSystem
  lt : Libtorrent Rest
  answer : ℕ → Option (TorrentStatus Rest)
  pastLevel : ℕ → ℕ → ℤ

/-- What ends `read_database` early. -/
inductive DatabaseFault
  | threw
  | fault (fault : ApiFault)
deriving DecidableEq

/-- The checks of an entry: each failed one is a warning and the next entry. -/
def Restorable (files : FileSystem) (t : Torrent) : Prop :=
  files.isFile t.name ∧ toStdString (suffix t.name) = text "torrent" ∧ files.isReadable t.name ∧
    files.isDir t.locate ∧ files.isWritable t.locate

instance (files : FileSystem) (t : Torrent) : Decidable (Restorable files t) :=
  inferInstanceAs (Decidable (_ ∧ _))

section Read

variable {Rest : Type} (env : Restart Rest)

/-- A call of the client, out of which an exception leaves the reader. -/
def perform (api : TorrentAPI Rest) (c : ApiCall Rest) : Except DatabaseFault (TorrentAPI Rest) :=
  match api.step env.lt c with
  | .error fault => .error (.fault fault)
  | .ok (.threw, _) => .error .threw
  | .ok (_, api) => .ok api

/-- The loop over the marks, from the index `i` on. -/
def replayMarks (pastLevel : ℕ → ℤ) :
    ℕ → QString → TorrentAPI Rest → Except DatabaseFault (TorrentAPI Rest)
  | _, [], api => .ok api
  | i, c :: marks, api => do
    let api ← if c = unit '1' then perform env api (.setMark i true (pastLevel i)) else .ok api
    replayMarks pastLevel (i + 1) marks api

/-- The calls for the entry `i`. -/
def addTorrent (i : ℕ) (t : Torrent) (api : TorrentAPI Rest) :
    Except DatabaseFault (TorrentAPI Rest) := do
  let api ← perform env api (.prepareDownload (toStdString t.name) (toStdString t.locate))
  let api ← perform env api .pickDownloadFiles
  let api ← replayMarks env (env.pastLevel i) 0 t.marks api
  perform env api (.createDownload (toStdString t.name) (env.answer i))

/-- The members of the entry `i`. -/
def readTorrent (json : Members QString) (i : ℕ) : Torrent where
  name := (member (member json (number i)).toObject (.of "name")).toText
  locate := (member (member json (number i)).toObject (.of "location")).toText
  marks := (member (member json (number i)).toObject (.of "marks")).toText

/-- The body of the loop of `read_database`. -/
def readEntry (json : Members QString) (w : MainWindow Rest) (i : ℕ) :
    Except DatabaseFault (MainWindow Rest) :=
  let t := readTorrent json i
  if Restorable env.files t then do
    let api ← addTorrent env i t w.api
    return ⟨w.curTorrens ++ [t], api⟩
  else .ok w

/-- `read_database`. -/
def readDatabase (json : Members QString) (w : MainWindow Rest) :
    Except DatabaseFault (MainWindow Rest) :=
  (List.range (countTorrent json)).foldlM (readEntry env json) w

end Read

end MainWindow

end TorrentX
