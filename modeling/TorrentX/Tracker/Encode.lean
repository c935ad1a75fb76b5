import TorrentX.Tracker.UdpServer

/-!
# Tracker/Encode — a reply packet spells its response

`make_UDP_response` writes through a cursor with no bound check.  `makeUDPResponse_eq` replaces it
by the bytes it writes: they are the packet when they fit in the buffer, and a write past its end
otherwise.  `decodePacket` reads a packet by the layout of the protocol and gets the payload back
(`makeUDPResponse_decodes`).
-/

namespace TorrentX

open Wire

/-! ## The bytes written

Four parts of the packet are behind tests on the action, one after another.  As the packet is
written from the front only, each of them is the bytes it appends, or none. -/

def peerEntry (peer : Peer) : Bytes := encode peer.ip ++ encode peer.port

def scrapeEntry (info : Scrape) : Bytes :=
  encode info.complete ++ encode info.downloaded ++ encode info.incomplete

@[simp] theorem length_scrapeEntry (info : Scrape) : (scrapeEntry info).length = 12 := by
  simp [scrapeEntry]

/-- Everything `make_UDP_response` writes, in order: the two header fields, then the part of each
action, empty unless it is the action of the response. -/
def Response.encoded (r : Response) : Bytes :=
  encode r.action ++ encode r.transactionId
    ++ (if r.action = .connect then encode r.connectionId else [])
    ++ (if r.action = .announce then
          encode r.interval ++ encode r.leechers ++ encode r.seeders ++ r.peers.flatMap peerEntry
        else [])
    ++ (if r.action = .scrape then r.scrapeInfo.flatMap scrapeEntry else [])
    ++ (if r.action = .error then r.errorMessage else [])

theorem encode_uint8 (x : UInt8) : encode x = [x] := by
  have h : UInt8.ofNat x.toNat = x := UInt8.ofNat_toNat
  exact congrArg (fun y => [y]) h

section Stores

variable (packet : Buffer packetSize)

/-- A loop of stores is one store. -/
theorem storePeers_eq (peers : List Peer) :
    storePeers peers packet = packet.put .writePastEnd (peers.flatMap peerEntry) := by
  rw [← Buffer.foldlM_put]
  exact congrArg (fun f => peers.foldlM f packet)
    (funext fun b => funext fun p => Buffer.put_bind_put b (encode p.ip) (encode p.port))

theorem storeScrapes_eq (infos : List Scrape) :
    storeScrapes infos packet = packet.put .writePastEnd (infos.flatMap scrapeEntry) := by
  rw [← Buffer.foldlM_put]
  refine congrArg (fun f => infos.foldlM f packet) (funext fun b => funext fun info => ?_)
  rw [scrapeEntry, ← Buffer.put_bind_put, ← Buffer.put_bind_put]
  rfl

theorem storeText_eq (message : Bytes) :
    storeText message packet = packet.put .writePastEnd message := by
  have hm : message.flatMap encode = message := by
    rw [show (encode : UInt8 → Bytes) = fun x => [x] from funext encode_uint8,
      List.flatMap_singleton']
  conv_rhs => rw [← hm]
  exact Buffer.foldlM_put encode message packet

/-- A store that may be skipped writes its bytes or none. -/
theorem storeIf_put (c : Prop) [Decidable c] (bs : Bytes) :
    storeIf c (fun b => b.put .writePastEnd bs) packet
      = packet.put .writePastEnd (if c then bs else []) := by
  rw [storeIf]
  split
  · rfl
  · exact (Buffer.put_nil packet).symm

/-- The part of an announce. -/
theorem storeAnnounce_eq (r : Response) :
    storeAnnounce r packet
      = packet.put .writePastEnd (encode r.interval ++ encode r.leechers ++ encode r.seeders
          ++ r.peers.flatMap peerEntry) := by
  rw [storeAnnounce, funext (storePeers_eq · r.peers), ← Buffer.put_bind_put,
    ← Buffer.put_bind_put, ← Buffer.put_bind_put]
  rfl

end Stores

/-- **The encoder writes the bytes of its response**, or runs past the end of the buffer when they
do not fit. -/
theorem makeUDPResponse_eq (r : Response) :
    makeUDPResponse r
      = if r.encoded.length ≤ packetSize then .ok r.encoded else .error .writePastEnd := by
  have h : makeUDPResponse r
      = ((Buffer.empty packetSize).put Fault.writePastEnd r.encoded >>= fun b => pure b.bytes) := by
    have hv : storeValue r.connectionId
        = fun b => b.put .writePastEnd (encode r.connectionId) := rfl
    rw [makeUDPResponse, hv, funext (storeAnnounce_eq · r), funext (storeScrapes_eq · r.scrapeInfo),
      funext (storeText_eq · r.errorMessage), Response.encoded]
    simp only [storeIf_put]
    simp only [storeValue]
    conv_rhs => simp only [← Buffer.put_bind_put, bind_assoc]
  rw [h]
  split
  · next hle => rw [Buffer.put_empty hle]; rfl
  · next hle => rw [Buffer.put_empty_error hle]; rfl

/-! ## The payload of a response -/

/-- What a reply carries beside its action and transaction. -/
inductive Payload
  | connect (connectionId : Int64)
  | announce (interval leechers seeders : Int32) (peers : List (UInt32 × UInt16))
  | scrape (infos : List Scrape)
  | error (message : Bytes)
deriving DecidableEq

/-- The payload of a response; `none` when its action is none of the protocol's four. -/
def Response.payload (r : Response) : Option Payload :=
  if r.action = .connect then some (.connect r.connectionId)
  else if r.action = .announce then
    some (.announce r.interval r.leechers r.seeders (r.peers.map fun p => (p.ip, p.port)))
  else if r.action = .scrape then some (.scrape r.scrapeInfo)
  else if r.action = .error then some (.error r.errorMessage)
  else none

section Payload

variable {r : Response}

theorem payload_of_connect (h : r.action = .connect) :
    r.payload = some (.connect r.connectionId) := if_pos h

theorem payload_of_announce (h : r.action = .announce) :
    r.payload = some (.announce r.interval r.leechers r.seeders
      (r.peers.map fun p => (p.ip, p.port))) := by
  rw [Response.payload, if_neg (by rw [h]; decide), if_pos h]

theorem payload_of_scrape (h : r.action = .scrape) : r.payload = some (.scrape r.scrapeInfo) := by
  rw [Response.payload, if_neg (by rw [h]; decide), if_neg (by rw [h]; decide), if_pos h]

end Payload

/-- An address as a packet spells it. -/
def addressEntry (address : UInt32 × UInt16) : Bytes := encode address.1 ++ encode address.2

@[simp] theorem length_addressEntry (address : UInt32 × UInt16) :
    (addressEntry address).length = 6 := by simp [addressEntry]

namespace Payload

def action : Payload → ActionType
  | connect _ => .connect
  | announce .. => .announce
  | scrape _ => .scrape
  | error _ => .error

/-- The size of the packet that carries a payload. -/
def packetLength : Payload → ℕ
  | connect _ => 16
  | announce _ _ _ peers => 20 + 6 * peers.length
  | scrape infos => 8 + 12 * infos.length
  | error message => 8 + message.length

/-- The bytes of a payload, as they follow the header. -/
def bytes : Payload → Bytes
  | connect connectionId => encode connectionId
  | announce interval leechers seeders peers =>
    encode interval ++ encode leechers ++ encode seeders ++ peers.flatMap addressEntry
  | scrape infos => infos.flatMap scrapeEntry
  | error message => message

/-- With the header the bytes are as many as the layout has. -/
theorem length_bytes (p : Payload) : 8 + p.bytes.length = p.packetLength := by
  cases p with
  | connect _ => simp [bytes, packetLength]
  | announce _ _ _ peers =>
    simp only [bytes, packetLength, List.length_append, length_encode, width_int32,
      List.length_flatMap, length_addressEntry, List.map_const', List.sum_replicate, smul_eq_mul]
    omega
  | scrape infos =>
    simp only [bytes, packetLength, List.length_flatMap, length_scrapeEntry, List.map_const',
      List.sum_replicate, smul_eq_mul]
    omega
  | error message => rfl

end Payload

/-- The header of a packet. -/
def packetHeader (r : Response) : Bytes := encode r.action ++ encode r.transactionId

@[simp] theorem length_packetHeader (r : Response) : (packetHeader r).length = 8 := by
  simp [packetHeader]

/-- **The bytes written are the header and the payload** — no other action's part adds any. -/
theorem encoded_of_payload {r : Response} {p : Payload} (h : r.payload = some p) :
    r.action = p.action ∧ r.encoded = packetHeader r ++ p.bytes := by
  unfold Response.payload at h
  split_ifs at h with h₀ h₁ h₂ h₃ <;> obtain rfl := Option.some.inj h
  · simp [Response.encoded, packetHeader, Payload.bytes, Payload.action, h₀,
      show ActionType.connect ≠ .announce ∧ ActionType.connect ≠ .scrape
        ∧ ActionType.connect ≠ .error by decide]
  · simp [Response.encoded, packetHeader, Payload.bytes, Payload.action, h₁, List.flatMap_map,
      show ActionType.announce ≠ .connect ∧ ActionType.announce ≠ .scrape
        ∧ ActionType.announce ≠ .error by decide]
    rfl
  · simp [Response.encoded, packetHeader, Payload.bytes, Payload.action, h₂,
      show ActionType.scrape ≠ .connect ∧ ActionType.scrape ≠ .announce
        ∧ ActionType.scrape ≠ .error by decide]
  · simp [Response.encoded, packetHeader, Payload.bytes, Payload.action, h₃,
      show ActionType.error ≠ .connect ∧ ActionType.error ≠ .announce
        ∧ ActionType.error ≠ .scrape by decide]

/-! ## Reading a packet back

The layout has no length of a tail in it: the addresses of an announce and the entries of a scrape
go on to the end of the packet, and so does the text of an error. -/

/-- The address at an entry of a packet. -/
def decodeAddress (entry : Bytes) : UInt32 × UInt16 :=
  (decode UInt32 (slice entry 0 4), decode UInt16 (slice entry 4 6))

def decodeScrape (entry : Bytes) : Scrape :=
  ⟨decode Int32 (slice entry 0 4), decode Int32 (slice entry 4 8), decode Int32 (slice entry 8 12)⟩

/-- The entries of width `w` that fill a tail. -/
def entriesOf (w : ℕ) (tail : Bytes) : List Bytes :=
  (List.range (tail.length / w)).map fun i => slice tail (w * i) (w * i + w)

/-- The payload of a packet by the layout of its action. -/
def decodePayload (a : ActionType) (packet : Bytes) : Option Payload :=
  if a = .connect then some (.connect (decode Int64 (slice packet 8 16)))
  else if a = .announce then
    some (.announce (decode Int32 (slice packet 8 12)) (decode Int32 (slice packet 12 16))
      (decode Int32 (slice packet 16 20)) ((entriesOf 6 (packet.drop 20)).map decodeAddress))
  else if a = .scrape then some (.scrape ((entriesOf 12 (packet.drop 8)).map decodeScrape))
  else if a = .error then some (.error (packet.drop 8))
  else none

/-- A packet read by the layout of the protocol: action, transaction and payload. -/
def decodePacket (packet : Bytes) : Option (ActionType × Int32 × Payload) :=
  (decodePayload (decode ActionType (slice packet 0 4)) packet).map fun p =>
    (decode ActionType (slice packet 0 4), decode Int32 (slice packet 4 8), p)

/-- Entries of one width are cut apart again. -/
theorem entriesOf_flatMap {β : Type*} (f : β → Bytes) {w : ℕ} (hw : 0 < w)
    (hf : ∀ x, (f x).length = w) (xs : List β) : entriesOf w (xs.flatMap f) = xs.map f := by
  have hlen : (xs.flatMap f).length / w = xs.length := by
    rw [List.length_flatMap, funext hf, List.map_const', List.sum_replicate, smul_eq_mul,
      Nat.mul_div_cancel _ hw]
  rw [entriesOf, hlen, map_slice_flatMap f hf]

/-- An address is read back. -/
theorem decodeAddress_addressEntry (address : UInt32 × UInt16) :
    decodeAddress (addressEntry address) = address := by
  simp [decodeAddress, addressEntry, slice_append_left, slice_append_of_le, slice_self]

/-- An entry of a scrape is read back. -/
theorem decodeScrape_scrapeEntry (info : Scrape) : decodeScrape (scrapeEntry info) = info := by
  simp [decodeScrape, scrapeEntry, slice_append_left, slice_append_of_le, slice_self]

/-- Each payload is read back from behind any header of eight bytes. -/
theorem decodePayload_bytes (p : Payload) {header : Bytes} (h : header.length = 8) :
    decodePayload p.action (header ++ p.bytes) = some p := by
  have hdrop : (header ++ p.bytes).drop 8 = p.bytes := by rw [← h, List.drop_left]
  cases p with
  | connect connectionId =>
    simp [decodePayload, Payload.action, Payload.bytes, slice_append_of_le, slice_self, h]
  | announce interval leechers seeders peers =>
    have ht : (header ++ (Payload.announce interval leechers seeders peers).bytes).drop 20
        = peers.flatMap addressEntry := by
      rw [Payload.bytes, ← List.append_assoc, List.drop_left' (by simp [h])]
    have hp : (entriesOf 6 (peers.flatMap addressEntry)).map decodeAddress = peers := by
      rw [entriesOf_flatMap addressEntry (by omega) length_addressEntry, List.map_map]
      exact List.map_id'' decodeAddress_addressEntry peers
    rw [decodePayload, ht, hp]
    simp [Payload.action, Payload.bytes, List.append_assoc, slice_append_of_le,
      slice_append_left, h, show ActionType.announce ≠ .connect by decide]
  | scrape infos =>
    have hp : (entriesOf 12 (infos.flatMap scrapeEntry)).map decodeScrape = infos := by
      rw [entriesOf_flatMap scrapeEntry (by omega) length_scrapeEntry, List.map_map]
      exact List.map_id'' decodeScrape_scrapeEntry infos
    rw [decodePayload, hdrop, Payload.bytes, hp]
    rfl
  | error message =>
    rw [decodePayload, hdrop]
    rfl

/-- A packet that starts with the header of a response is read by the layout of its action. -/
theorem decodePacket_header (r : Response) (b : Bytes) :
    decodePacket (packetHeader r ++ b)
      = (decodePayload r.action (packetHeader r ++ b)).map fun p =>
          (r.action, r.transactionId, p) := by
  have ha : slice (packetHeader r ++ b) 0 4 = encode r.action := by
    rw [slice_append_of_length_le b 0 (by simp)]
    simp [packetHeader, slice_append_left]
  have ht : slice (packetHeader r ++ b) 4 8 = encode r.transactionId := by
    rw [slice_append_of_length_le b 4 (by simp)]
    simp [packetHeader, slice_append_of_le, slice_self]
  rw [decodePacket, ha, ht, decode_encode, decode_encode]

/-! ## The round trip -/

/-- The number of bytes written for a response. -/
theorem length_encoded {r : Response} {p : Payload} (hp : r.payload = some p) :
    r.encoded.length = p.packetLength := by
  rw [(encoded_of_payload hp).2, List.length_append, length_packetHeader, Payload.length_bytes]

/-- The packet of a response that fits: its length, and what it is read as. -/
theorem makeUDPResponse_spells {r : Response} {p : Payload} (hp : r.payload = some p)
    (hfit : p.packetLength ≤ packetSize) :
    ∃ packet, makeUDPResponse r = .ok packet ∧ packet.length = p.packetLength
      ∧ decodePacket packet = some (r.action, r.transactionId, p) := by
  obtain ⟨haction, hencoded⟩ := encoded_of_payload hp
  have hlen := length_encoded hp
  refine ⟨r.encoded, ?_, hlen, ?_⟩
  · rw [makeUDPResponse_eq, if_pos (hlen.trans_le hfit)]
  · rw [hencoded, decodePacket_header, haction, decodePayload_bytes p (length_packetHeader r)]
    rfl

/-- **A reply packet spells its response.**  The packet of a response with a payload that fits in
the buffer has the length of its layout, and reading it by that layout recovers the action, the
transaction and the payload; so two responses with one packet have them in common. -/
theorem makeUDPResponse_decodes {r : Response} {p : Payload} (hp : r.payload = some p)
    (hfit : p.packetLength ≤ packetSize) :
    (∃ packet, makeUDPResponse r = .ok packet ∧ packet.length = p.packetLength
      ∧ decodePacket packet = some (r.action, r.transactionId, p))
    ∧ ∀ r' p', r'.payload = some p' → p'.packetLength ≤ packetSize →
      makeUDPResponse r' = makeUDPResponse r →
        r'.action = r.action ∧ r'.transactionId = r.transactionId ∧ p' = p := by
  refine ⟨makeUDPResponse_spells hp hfit, fun r' p' hp' hfit' heq => ?_⟩
  obtain ⟨packet, hmake, -, hdecode⟩ := makeUDPResponse_spells hp hfit
  obtain ⟨packet', hmake', -, hdecode'⟩ := makeUDPResponse_spells hp' hfit'
  obtain rfl : packet' = packet := Except.ok.inj (hmake'.symm.trans (heq.trans hmake))
  have hsame := Option.some.inj (hdecode'.symm.trans hdecode)
  exact ⟨congrArg Prod.fst hsame, congrArg (·.2.1) hsame, congrArg (·.2.2) hsame⟩

/-- An announce response with one peer. -/
theorem makeUDPResponse_decodes_announce :
    ∃ packet, makeUDPResponse
        { action := .announce, transactionId := 7, interval := 60, leechers := 1, seeders := 2,
          peers := [{ ip := 0x01020304, port := 80 }] } = .ok packet
      ∧ packet.length = 26
      ∧ decodePacket packet
        = some (.announce, 7, .announce 60 1 2 [(0x01020304, 80)]) :=
  (makeUDPResponse_decodes (p := .announce 60 1 2 [(0x01020304, 80)]) rfl (by decide)).1

end TorrentX
