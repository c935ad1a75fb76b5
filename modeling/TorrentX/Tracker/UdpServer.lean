import TorrentX.Tracker.TorrentDataBase

/-!
# Tracker/UdpServer — one datagram in, one packet out

The model of `Server`: `parse_UDP_request` reads a datagram through a cursor, the handlers read and
update the database, `make_UDP_response` writes the packet into a buffer of `PACKET_SIZE` bytes.
`process_request` is their composition.

A local `Request` leaves most of its scalar fields uninitialised, so the parser takes the values
they happen to have (`Uninit`).
-/

namespace TorrentX

open Wire

def packetSize : ℕ := 1024

def connectRequestSize : ℕ := 16

def announceRequestSize : ℕ := 98

/-! ## The data -/

/-- `enum class ActionType : int32_t`.  A value read off the wire can have any code. -/
structure ActionType where
  code : Int32
deriving DecidableEq

def ActionType.connect : ActionType := ⟨0⟩

def ActionType.announce : ActionType := ⟨1⟩

def ActionType.scrape : ActionType := ⟨2⟩

def ActionType.error : ActionType := ⟨3⟩

instance : Scalar ActionType :=
  ⟨4, ⟨fun a => a.code.toBitVec, fun b => ⟨Int32.ofBitVec b⟩, fun _ => rfl, fun _ => rfl⟩⟩

instance : Scalar EventType :=
  ⟨4, ⟨fun e => e.code.toBitVec, fun b => ⟨Int32.ofBitVec b⟩, fun _ => rfl, fun _ => rfl⟩⟩

@[simp] theorem width_actionType : Scalar.width ActionType = 4 := rfl

@[simp] theorem width_eventType : Scalar.width EventType = 4 := rfl

/-- The address fields of a `sockaddr_in`, as the integers the host reads in them. -/
structure SockaddrIn where
  sAddr : UInt32
  sinPort : UInt16
deriving DecidableEq

structure Request where
  connectionId : Int64
  action : ActionType
  transactionId : Int32
  infoHashes : List Hash
  sender : Peer
  event : EventType
  ip : UInt32
  key : UInt32
  numWant : Int32
  port : UInt16
  errorMessage : Bytes

/-- The values that memory without an initialiser happens to hold: the scalar fields of the local
`Request`, and the bytes of a string buffer that has been freed. -/
structure Uninit where
  connectionId : Int64
  action : ActionType
  transactionId : Int32
  event : EventType
  ip : UInt32
  key : UInt32
  numWant : Int32
  port : UInt16
  freed : ℕ → UInt8

/-- A `Request` as declared: vectors, the peer and the message have initialisers, scalars do not. -/
def Uninit.request (uninit : Uninit) : Request where
  connectionId := uninit.connectionId
  action := uninit.action
  transactionId := uninit.transactionId
  infoHashes := []
  sender := {}
  event := uninit.event
  ip := uninit.ip
  key := uninit.key
  numWant := uninit.numWant
  port := uninit.port
  errorMessage := []

/-- What a view of a destroyed string shows: as many bytes as the string had, none of its own. -/
def Uninit.dangling (uninit : Uninit) (s : Bytes) : Bytes := (List.range s.length).map uninit.freed

/-- `Response::Scrape`. -/
structure Scrape where
  complete : Int32
  downloaded : Int32
  incomplete : Int32
deriving DecidableEq

/-- `Response`.  The defaults are those of `Response()`; a handler's local response starts from
them too, since the encoder reads no field that the handler of its action leaves unset. -/
structure Response where
  action : ActionType := .connect
  transactionId : Int32 := 0
  connectionId : Int64 := 0
  interval : Int32 := 0
  leechers : Int32 := 0
  seeders : Int32 := 0
  peers : List Peer := []
  scrapeInfo : List Scrape := []
  errorMessage : Bytes := []
  sender : Peer := {}

/-! ## Parsing -/

/-- `load_value` for a scalar. -/
def loadValue (T : Type) [Scalar T] (iter : Bytes) : Except Fault (T × Bytes) :=
  load Fault.readPastEnd T iter

/-- `load_value` for a hash. -/
def loadHash (iter : Bytes) : Except Fault (Hash × Bytes) :=
  if h : hashSize ≤ iter.length then
    .ok (⟨iter.take hashSize, List.length_take_of_le h⟩, iter.drop hashSize)
  else .error .readPastEnd

/-- The loop over the hashes of a scrape request. -/
def loadHashes (bytesLeft : ℕ) (iter : Bytes) : Except Fault (List Hash × Bytes) :=
  if 0 < bytesLeft then do
    let (infoHash, iter) ← loadHash iter
    let (infoHashes, iter) ← loadHashes (bytesLeft - hashSize) iter
    return (infoHash :: infoHashes, iter)
  else .ok ([], iter)
termination_by bytesLeft
decreasing_by
  unfold hashSize
  omega

/-- The part of `parse_UDP_request` for an announce, after the header. -/
def parseAnnounce (request : Request) (message iter : Bytes) : Except Fault Request := do
  if message.length < announceRequestSize then
    return { request with
      errorMessage := text "Bad request: request size less than ANNOUNCE_REQUEST_SIZE" }
  let (infoHash, iter) ← loadHash iter
  let (peerId, iter) ← loadHash iter
  let (downloaded, iter) ← loadValue Int64 iter
  let (left, iter) ← loadValue Int64 iter
  let (uploaded, iter) ← loadValue Int64 iter
  let (event, iter) ← loadValue EventType iter
  let request :=
    { request with
      infoHashes := [infoHash]
      sender := { request.sender with peerId, downloaded, left, uploaded }
      event }
  if event.code < EventType.none.code ∨ EventType.stopped.code < event.code then
    return { request with errorMessage := text "Bad request: bad Event field" }
  let (ip, iter) ← loadValue UInt32 iter
  let (key, iter) ← loadValue UInt32 iter
  let (numWant, iter) ← loadValue Int32 iter
  let (port, _) ← loadValue UInt16 iter
  return { request with ip, key, numWant, port }

/-- The part of `parse_UDP_request` for a scrape, after the header. -/
def parseScrape (request : Request) (message iter : Bytes) : Except Fault Request := do
  let bytesLeft := message.length - connectRequestSize
  if bytesLeft = 0 ∨ bytesLeft % hashSize ≠ 0 then
    return { request with errorMessage := text "Bad request: incomplete hash for Scrape" }
  let (infoHashes, _) ← loadHashes bytesLeft iter
  return { request with infoHashes }

def parseUDPRequest (uninit : Uninit) (message : Bytes) (clientEndpoint : SockaddrIn) :
    Except Fault Request := do
  let request := uninit.request
  let request :=
    { request with sender.ip := clientEndpoint.sAddr, sender.port := clientEndpoint.sinPort }
  if message.length < connectRequestSize then
    -- The message is a view of a temporary string, which is gone when anything reads it.
    return { request with
      errorMessage := uninit.dangling (text ("Bad request: request_size="
        ++ toString message.length ++ "  less than CONNECT_REQUEST_SIZE")) }
  let (connectionId, iter) ← loadValue Int64 message
  let (action, iter) ← loadValue ActionType iter
  let request := { request with connectionId, action }
  if action.code < ActionType.connect.code ∨ ActionType.error.code < action.code then
    return { request with errorMessage := text "Bad request: bad Action field" }
  let (transactionId, iter) ← loadValue Int32 iter
  let request := { request with transactionId }
  if action = .announce then parseAnnounce request message iter
  else if action = .scrape then parseScrape request message iter
  else return request

/-! ## Handling -/

def handleConnect (request : Request) : Response where
  action := request.action
  transactionId := request.transactionId
  sender := request.sender
  connectionId := request.connectionId

def handleError (request : Request) : Response where
  action := .error
  transactionId := request.transactionId
  sender := request.sender
  errorMessage := request.errorMessage

def handleAnnounce (requestInterval : Int32) (db : TorrentDataBase) (request : Request) :
    Except Fault (Response × TorrentDataBase) :=
  match request.infoHashes with
  | [] => .error .emptyVector
  | infoHash :: _ => do
    let (leechers, db) := db.countLeechers infoHash
    let (seeders, db) := db.countSeeders infoHash
    let (peers, db) ← db.getPeerList infoHash request.numWant
    let (error, db) ← db.updatePeerList infoHash request.sender request.event
    if error ≠ [] then return (handleError { request with errorMessage := error }, db)
    let response : Response :=
      { action := request.action
        transactionId := request.transactionId
        sender := request.sender
        interval := requestInterval
        leechers, seeders, peers }
    return (response, db)

/-- The loop of `handle_scrape`. -/
def scrapeInfos (db : TorrentDataBase) : List Hash → List Scrape × TorrentDataBase
  | [] => ([], db)
  | infoHash :: infoHashes =>
    let (complete, db) := db.countSeeders infoHash
    let (downloaded, db) := db.countDownloads infoHash
    let (incomplete, db) := db.countLeechers infoHash
    let (infos, db) := scrapeInfos db infoHashes
    ({ complete, downloaded, incomplete } :: infos, db)

def handleScrape (db : TorrentDataBase) (request : Request) : Response × TorrentDataBase :=
  let (scrapeInfo, db) := scrapeInfos db request.infoHashes
  ({ action := request.action
     transactionId := request.transactionId
     sender := request.sender
     scrapeInfo }, db)

/-- The dispatch of `process_request`: four tests in a row, each of which may replace the response
of the one before. -/
def dispatch (requestInterval : Int32) (db : TorrentDataBase) (request : Request) :
    Except Fault (Response × TorrentDataBase) := do
  let response : Response := if request.errorMessage ≠ [] then handleError request else {}
  let response := if request.action = .connect then handleConnect request else response
  let (response, db) ←
    if request.action = .announce then handleAnnounce requestInterval db request
    else pure (response, db)
  if request.action = .scrape then return handleScrape db request
  return (response, db)

/-! ## Encoding

The buffer is a vector of `PACKET_SIZE` bytes and the cursor a pointer into it.  A store that would
pass its end is a fault, although the source does not look. -/

/-- `store_value`. -/
def storeValue {T : Type} [Scalar T] (value : T) (packet : Buffer packetSize) :
    Except Fault (Buffer packetSize) := packet.put .writePastEnd (encode value)

/-- The peers of an announce response. -/
def storePeers (peers : List Peer) (packet : Buffer packetSize) :
    Except Fault (Buffer packetSize) :=
  peers.foldlM (fun packet peer => storeValue peer.ip packet >>= storeValue peer.port) packet

/-- The entries of a scrape response. -/
def storeScrapes (infos : List Scrape) (packet : Buffer packetSize) :
    Except Fault (Buffer packetSize) :=
  infos.foldlM (fun packet info => storeValue info.complete packet >>= storeValue info.downloaded
    >>= storeValue info.incomplete) packet

/-- The text of an error response. -/
def storeText (message : Bytes) (packet : Buffer packetSize) : Except Fault (Buffer packetSize) :=
  message.foldlM (fun packet symbol => storeValue symbol packet) packet

/-- The part of `make_UDP_response` under one of its `if`s. -/
def storeIf (c : Prop) [Decidable c] (store : Buffer packetSize → Except Fault (Buffer packetSize))
    (packet : Buffer packetSize) : Except Fault (Buffer packetSize) :=
  if c then store packet else pure packet

/-- The part of an announce response after its header. -/
def storeAnnounce (response : Response) (packet : Buffer packetSize) :
    Except Fault (Buffer packetSize) :=
  storeValue response.interval packet >>= storeValue response.leechers
    >>= storeValue response.seeders >>= storePeers response.peers

/-- `make_UDP_response`: the packet is cut at the cursor, so it is what was written. -/
def makeUDPResponse (response : Response) : Except Fault Bytes := do
  let packet ← storeValue response.action (.empty packetSize)
  let packet ← storeValue response.transactionId packet
  let packet ← storeIf (response.action = .connect) (storeValue response.connectionId) packet
  let packet ← storeIf (response.action = .announce) (storeAnnounce response) packet
  let packet ← storeIf (response.action = .scrape) (storeScrapes response.scrapeInfo) packet
  let packet ← storeIf (response.action = .error) (storeText response.errorMessage) packet
  return packet.bytes

/-! ## The server -/

/-- A datagram as received, with what its request's uninitialised memory happens to hold. -/
structure Datagram where
  message : Bytes
  clientEndpoint : SockaddrIn
  uninit : Uninit

/-- `process_request`: the packet sent back, and the database after it. -/
def processRequest (requestInterval : Int32) (db : TorrentDataBase) (datagram : Datagram) :
    Except Fault (Bytes × TorrentDataBase) := do
  let request ← parseUDPRequest datagram.uninit datagram.message datagram.clientEndpoint
  let (response, db) ← dispatch requestInterval db request
  let packet ← makeUDPResponse response
  return (packet, db)

end TorrentX
