import TorrentX.Tracker.UdpServer

/-!
# Tracker/Parse — the parser reads the announce protocol's request layout

`rejection` says why a message is not a request, by offsets into the message alone.
`parse_rejected` and `parse_accepted` compute the parser's result in every case, and with it the
parser is never unfolded again: no load passes the end of the message, the error message is empty
exactly on well-formed messages (`errorMessage_ne_nil`), and the fields are the big-endian
values at the offsets of the layout.
-/

namespace TorrentX

open Wire

/-! ## The layout -/

def actionAt (m : Bytes) : ActionType := decode ActionType (slice m 8 12)

def transactionIdAt (m : Bytes) : Int32 := decode Int32 (slice m 12 16)

def eventAt (m : Bytes) : EventType := decode EventType (slice m 80 84)

/-- The hash that starts at offset `lo`. -/
def hashAt (m : Bytes) (lo : ℕ) : Hash :=
  if h : (slice m lo (lo + hashSize)).length = hashSize then ⟨_, h⟩
  else .fill 0

/-- In range it is the slice. -/
theorem bytes_hashAt {m : Bytes} {lo : ℕ} (h : lo + hashSize ≤ m.length) :
    (hashAt m lo).bytes = slice m lo (lo + hashSize) := by
  have hl : (slice m lo (lo + hashSize)).length = hashSize := by
    rw [length_slice h, Nat.add_sub_cancel_left]
  rw [hashAt, dif_pos hl]

/-- An enumerator the protocol defines. -/
def Defined (code : Int32) : Prop := 0 ≤ code.toInt ∧ code.toInt ≤ 3

instance (code : Int32) : Decidable (Defined code) := inferInstanceAs (Decidable (_ ∧ _))

/-- There are four of them. -/
theorem defined_iff (code : Int32) :
    Defined code ↔ code = 0 ∨ code = 1 ∨ code = 2 ∨ code = 3 := by
  have h (n : Int32) : code = n ↔ code.toInt = n.toInt := Int32.toInt_inj.symm
  rw [h, h, h, h, Defined]
  have h0 : (0 : Int32).toInt = 0 := rfl
  have h1 : (1 : Int32).toInt = 1 := rfl
  have h2 : (2 : Int32).toInt = 2 := rfl
  have h3 : (3 : Int32).toInt = 3 := rfl
  omega

/-- The range check of the parser, on an enumeration from `0` to `3`. -/
theorem out_of_range_iff (code : Int32) : code < 0 ∨ 3 < code ↔ ¬ Defined code := by
  rw [Int32.lt_iff_toInt_lt, Int32.lt_iff_toInt_lt, Defined]
  have h0 : (0 : Int32).toInt = 0 := rfl
  have h3 : (3 : Int32).toInt = 3 := rfl
  omega

/-- The request format: a header with a defined action, for an announce the whole layout with a
defined event, for a scrape a whole positive number of hashes after the header. -/
def WellFormed (m : Bytes) : Prop :=
  16 ≤ m.length ∧ Defined (actionAt m).code ∧
    (actionAt m = .announce → 98 ≤ m.length ∧ Defined (eventAt m).code) ∧
    (actionAt m = .scrape → 0 < m.length - 16 ∧ 20 ∣ m.length - 16)

/-! ## Why a message is rejected

The parser returns early in five places.  A reason is an early return, and the order of the tests is
that of the source: a message that is short and has a bad action is rejected for being short. -/

/-- The reasons for which the parser returns early. -/
inductive Rejection
  | shortHeader
  | badAction
  | shortAnnounce
  | badEvent
  | incompleteHash
deriving DecidableEq

/-- The first reason that applies to a message. -/
def rejection (m : Bytes) : Option Rejection :=
  if m.length < 16 then some .shortHeader
  else if ¬ Defined (actionAt m).code then some .badAction
  else if actionAt m = .announce then
    if m.length < 98 then some .shortAnnounce
    else if ¬ Defined (eventAt m).code then some .badEvent
    else none
  else if actionAt m = .scrape then
    if m.length - 16 = 0 ∨ (m.length - 16) % 20 ≠ 0 then some .incompleteHash else none
  else none

/-- **No reason applies to the well-formed messages, and to no other.** -/
theorem rejection_eq_none_iff (m : Bytes) : rejection m = none ↔ WellFormed m := by
  unfold rejection WellFormed
  split_ifs with h16 ha hann h98 he hscr hb
  · exact iff_of_false (by simp) fun h => absurd h.1 (by omega)
  · exact iff_of_false (by simp) fun h => absurd (h.2.2.1 hann).1 (by omega)
  · exact iff_of_true rfl ⟨by omega, ha, fun _ => ⟨by omega, he⟩,
      fun hs => absurd (hann.symm.trans hs) (by decide)⟩
  · exact iff_of_false (by simp) fun h => he (h.2.2.1 hann).2
  · exact iff_of_false (by simp) fun h => by
      have := h.2.2.2 hscr
      omega
  · exact iff_of_true rfl ⟨by omega, ha, fun h => absurd h hann, fun _ => by omega⟩
  · exact iff_of_true rfl ⟨by omega, ha, fun h => absurd h hann, fun h => absurd h hscr⟩
  · exact iff_of_false (by simp) fun h => ha h.2.1

/-! ## Reading through the cursor -/

/-- A load at an offset. -/
theorem loadValue_drop {T : Type} [Scalar T] {m : Bytes} {lo : ℕ}
    (h : lo + Scalar.width T ≤ m.length) :
    loadValue T (m.drop lo)
      = .ok (decode T (slice m lo (lo + Scalar.width T)), m.drop (lo + Scalar.width T)) :=
  load_drop _ h

/-- A load at the start. -/
theorem loadValue_start {T : Type} [Scalar T] {m : Bytes} (h : Scalar.width T ≤ m.length) :
    loadValue T m = .ok (decode T (slice m 0 (Scalar.width T)), m.drop (Scalar.width T)) := by
  have hload := loadValue_drop (show 0 + Scalar.width T ≤ m.length by omega)
  rwa [List.drop_zero, Nat.zero_add] at hload

theorem loadHash_drop {m : Bytes} {lo : ℕ} (h : lo + hashSize ≤ m.length) :
    loadHash (m.drop lo) = .ok (hashAt m lo, m.drop (lo + hashSize)) := by
  have hle : hashSize ≤ (m.drop lo).length := by
    rw [List.length_drop]
    omega
  rw [loadHash, dif_pos hle, List.drop_drop]
  have hb : (m.drop lo).take hashSize = (hashAt m lo).bytes := by
    rw [bytes_hashAt h, slice, Nat.add_sub_cancel_left]
  exact congrArg (fun x => Except.ok (x, m.drop (lo + hashSize))) (Hash.ext hb)

/-- **The scrape loop reads every hash up to the end**, counting down from the bytes left. -/
theorem loadHashes_drop {m : Bytes} (k lo : ℕ) (h : lo + hashSize * k = m.length) :
    loadHashes (hashSize * k) (m.drop lo)
      = .ok ((List.range k).map fun i => hashAt m (lo + hashSize * i), []) := by
  induction k generalizing lo with
  | zero =>
    rw [loadHashes, if_neg (by simp), List.drop_of_length_le (by omega)]
    rfl
  | succ k ih =>
    have hk : hashSize * (k + 1) = hashSize * k + hashSize := by rw [Nat.mul_succ]
    have hpos : 0 < hashSize * (k + 1) := by
      unfold hashSize
      omega
    rw [loadHashes, if_pos hpos, loadHash_drop (by omega), hk, Nat.add_sub_cancel]
    simp only [bind, Except.bind, ih (lo + hashSize) (by omega), pure, Except.pure]
    rw [List.range_succ_eq_map, List.map_cons, List.map_map]
    refine congrArg (fun l => Except.ok (hashAt m lo :: l, [])) (List.map_congr_left fun i _ => ?_)
    exact congrArg (hashAt m) (by rw [Nat.mul_succ]; omega)

/-! ## The parser's result

The request is built up load by load, and an early return leaves it as it is then, with an error
message.  So each stage has a name, and the result for a rejected message is the stage the parser
had reached. -/

section Result

variable (uninit : Uninit) (m : Bytes) (ep : SockaddrIn)

/-- The request before the first load: the address of the sender is set. -/
def addressed : Request :=
  { uninit.request with sender.ip := ep.sAddr, sender.port := ep.sinPort }

/-- The request with the two header fields read before the action is checked. -/
def actioned : Request :=
  { addressed uninit ep with connectionId := decode Int64 (slice m 0 8), action := actionAt m }

/-- The request with the whole header. -/
def headed : Request := { actioned uninit m ep with transactionId := transactionIdAt m }

/-- The request with the fields of an announce that precede the check of its event. -/
def announced : Request :=
  { headed uninit m ep with
    infoHashes := [hashAt m 16]
    sender :=
      { ip := ep.sAddr
        port := ep.sinPort
        peerId := hashAt m 36
        downloaded := decode Int64 (slice m 56 64)
        left := decode Int64 (slice m 64 72)
        uploaded := decode Int64 (slice m 72 80) }
    event := eventAt m }

/-- The request the parser returns for a message it rejects. -/
def rejectedRequest : Rejection → Request
  | .shortHeader =>
    { addressed uninit ep with
      errorMessage := uninit.dangling (text ("Bad request: request_size="
        ++ toString m.length ++ "  less than CONNECT_REQUEST_SIZE")) }
  | .badAction =>
    { actioned uninit m ep with errorMessage := text "Bad request: bad Action field" }
  | .shortAnnounce =>
    { headed uninit m ep with
      errorMessage := text "Bad request: request size less than ANNOUNCE_REQUEST_SIZE" }
  | .badEvent => { announced uninit m ep with errorMessage := text "Bad request: bad Event field" }
  | .incompleteHash =>
    { headed uninit m ep with errorMessage := text "Bad request: incomplete hash for Scrape" }

/-- The request the parser returns for a message it accepts. -/
def acceptedRequest : Request :=
  if actionAt m = .announce then
    { announced uninit m ep with
      ip := decode UInt32 (slice m 84 88)
      key := decode UInt32 (slice m 88 92)
      numWant := decode Int32 (slice m 92 96)
      port := decode UInt16 (slice m 96 98) }
  else if actionAt m = .scrape then
    { headed uninit m ep with
      infoHashes := (List.range ((m.length - 16) / 20)).map fun i => hashAt m (16 + 20 * i) }
  else headed uninit m ep

/-- What the parser does with a whole header and a defined action. -/
theorem parse_headed (h16 : 16 ≤ m.length) (ha : Defined (actionAt m).code) :
    parseUDPRequest uninit m ep
      = if actionAt m = .announce then parseAnnounce (headed uninit m ep) m (m.drop 16)
        else if actionAt m = .scrape then parseScrape (headed uninit m ep) m (m.drop 16)
        else .ok (headed uninit m ep) := by
  have e1 : loadValue Int64 m = .ok (decode Int64 (slice m 0 8), m.drop 8) :=
    loadValue_start (by change 8 ≤ _; omega)
  have e2 : loadValue ActionType (m.drop 8) = .ok (actionAt m, m.drop 12) :=
    loadValue_drop (by change 8 + 4 ≤ _; omega)
  have e3 : loadValue Int32 (m.drop 12) = .ok (transactionIdAt m, m.drop 16) :=
    loadValue_drop (by change 12 + 4 ≤ _; omega)
  have hrange : ¬ ((actionAt m).code < ActionType.connect.code
      ∨ ActionType.error.code < (actionAt m).code) := by
    change ¬ ((actionAt m).code < 0 ∨ 3 < (actionAt m).code)
    rw [out_of_range_iff, not_not]
    exact ha
  have hlen : ¬ m.length < connectRequestSize := Nat.not_lt.2 h16
  simp only [parseUDPRequest, if_neg hlen, e1, e2, e3, if_neg hrange, bind, Except.bind, pure,
    Except.pure]
  rfl

/-- What the announce part does with a whole layout: all loads, the event checked between them. -/
theorem parseAnnounce_headed (h98 : 98 ≤ m.length) :
    parseAnnounce (headed uninit m ep) m (m.drop 16)
      = .ok (if Defined (eventAt m).code then
          { announced uninit m ep with
            ip := decode UInt32 (slice m 84 88)
            key := decode UInt32 (slice m 88 92)
            numWant := decode Int32 (slice m 92 96)
            port := decode UInt16 (slice m 96 98) }
        else rejectedRequest uninit m ep .badEvent) := by
  have e1 : loadHash (m.drop 16) = .ok (hashAt m 16, m.drop 36) :=
    loadHash_drop (by change 16 + 20 ≤ _; omega)
  have e2 : loadHash (m.drop 36) = .ok (hashAt m 36, m.drop 56) :=
    loadHash_drop (by change 36 + 20 ≤ _; omega)
  have e3 : loadValue Int64 (m.drop 56) = .ok (decode Int64 (slice m 56 64), m.drop 64) :=
    loadValue_drop (by change 56 + 8 ≤ _; omega)
  have e4 : loadValue Int64 (m.drop 64) = .ok (decode Int64 (slice m 64 72), m.drop 72) :=
    loadValue_drop (by change 64 + 8 ≤ _; omega)
  have e5 : loadValue Int64 (m.drop 72) = .ok (decode Int64 (slice m 72 80), m.drop 80) :=
    loadValue_drop (by change 72 + 8 ≤ _; omega)
  have e6 : loadValue EventType (m.drop 80) = .ok (eventAt m, m.drop 84) :=
    loadValue_drop (by change 80 + 4 ≤ _; omega)
  have e7 : loadValue UInt32 (m.drop 84) = .ok (decode UInt32 (slice m 84 88), m.drop 88) :=
    loadValue_drop (by change 84 + 4 ≤ _; omega)
  have e8 : loadValue UInt32 (m.drop 88) = .ok (decode UInt32 (slice m 88 92), m.drop 92) :=
    loadValue_drop (by change 88 + 4 ≤ _; omega)
  have e9 : loadValue Int32 (m.drop 92) = .ok (decode Int32 (slice m 92 96), m.drop 96) :=
    loadValue_drop (by change 92 + 4 ≤ _; omega)
  have e10 : loadValue UInt16 (m.drop 96) = .ok (decode UInt16 (slice m 96 98), m.drop 98) :=
    loadValue_drop (by change 96 + 2 ≤ _; omega)
  have hrange : (eventAt m).code < EventType.none.code ∨ EventType.stopped.code < (eventAt m).code
      ↔ ¬ Defined (eventAt m).code := out_of_range_iff _
  have hlen : ¬ m.length < announceRequestSize := Nat.not_lt.2 h98
  simp only [parseAnnounce, if_neg hlen, e1, e2, e3, e4, e5, e6, e7, e8, e9, e10, hrange, bind,
    Except.bind, pure, Except.pure]
  by_cases he : Defined (eventAt m).code
  · rw [if_neg (not_not.2 he), if_pos he]
    rfl
  · rw [if_pos he, if_neg he]
    rfl

/-- What the scrape part does with a header and whole hashes after it. -/
theorem parseScrape_headed (hpos : 0 < m.length - 16) (hdvd : (m.length - 16) % 20 = 0) :
    parseScrape (headed uninit m ep) m (m.drop 16)
      = .ok
          { headed uninit m ep with
            infoHashes :=
              (List.range ((m.length - 16) / 20)).map fun i => hashAt m (16 + 20 * i) } := by
  have hlen : m.length - 16 = hashSize * ((m.length - 16) / 20) := by
    change _ = 20 * _
    omega
  have hbad : ¬ (m.length - connectRequestSize = 0
      ∨ (m.length - connectRequestSize) % hashSize ≠ 0) := by
    change ¬ (m.length - 16 = 0 ∨ (m.length - 16) % 20 ≠ 0)
    omega
  have hload := loadHashes_drop (m := m) ((m.length - 16) / 20) 16 (by omega)
  rw [← hlen] at hload
  rw [parseScrape, if_neg hbad]
  change (loadHashes (m.length - 16) (m.drop 16) >>= _) = _
  rw [hload]
  rfl

/-- **The result for a rejected message.** -/
theorem parse_rejected {r : Rejection} (h : rejection m = some r) :
    parseUDPRequest uninit m ep = .ok (rejectedRequest uninit m ep r) := by
  unfold rejection at h
  split_ifs at h with h16 ha hann h98 he hscr hb
  · obtain rfl := Option.some.inj h
    exact if_pos h16
  · obtain rfl := Option.some.inj h
    rw [parse_headed uninit m ep (by omega) ha, if_pos hann]
    exact if_pos h98
  · obtain rfl := Option.some.inj h
    rw [parse_headed uninit m ep (by omega) ha, if_pos hann,
      parseAnnounce_headed uninit m ep (by omega), if_neg he]
  · obtain rfl := Option.some.inj h
    rw [parse_headed uninit m ep (by omega) ha, if_neg hann, if_pos hscr]
    exact if_pos hb
  · obtain rfl := Option.some.inj h
    have e1 : loadValue Int64 m = .ok (decode Int64 (slice m 0 8), m.drop 8) :=
      loadValue_start (by change 8 ≤ _; omega)
    have e2 : loadValue ActionType (m.drop 8) = .ok (actionAt m, m.drop 12) :=
      loadValue_drop (by change 8 + 4 ≤ _; omega)
    have hrange : (actionAt m).code < ActionType.connect.code
        ∨ ActionType.error.code < (actionAt m).code := (out_of_range_iff _).2 ha
    have hlen : ¬ m.length < connectRequestSize := h16
    simp only [parseUDPRequest, if_neg hlen, e1, e2, if_pos hrange, bind, Except.bind, pure,
      Except.pure]
    rfl

/-- **The result for an accepted message.** -/
theorem parse_accepted (h : rejection m = none) :
    parseUDPRequest uninit m ep = .ok (acceptedRequest uninit m ep) := by
  obtain ⟨h16, ha, hann, hscr⟩ := (rejection_eq_none_iff m).1 h
  rw [parse_headed uninit m ep h16 ha, acceptedRequest]
  split_ifs with h1 h2
  · rw [parseAnnounce_headed uninit m ep (hann h1).1, if_pos (hann h1).2]
  · rw [parseScrape_headed uninit m ep (hscr h2).1 (Nat.dvd_iff_mod_eq_zero.1 (hscr h2).2)]
  · rfl

/-- Every early return leaves a message, and no other return does. -/
theorem errorMessage_ne_nil (r : Rejection) :
    (rejectedRequest uninit m ep r).errorMessage ≠ [] := by
  cases r with
  | shortHeader =>
    intro h
    have hl := congrArg List.length h
    simp [rejectedRequest, Uninit.dangling, text] at hl
  | _ => simp [rejectedRequest, text]

theorem errorMessage_accepted : (acceptedRequest uninit m ep).errorMessage = [] := by
  unfold acceptedRequest
  split_ifs <;> rfl

end Result

/-! ## The fields of an accepted message -/

/-- The fields of an announce are the big-endian values at the offsets of the layout. -/
structure AnnounceFields (m : Bytes) (r : Request) : Prop where
  infoHash : r.infoHashes.map Hash.bytes = [slice m 16 36]
  peerId : r.sender.peerId.bytes = slice m 36 56
  downloaded : r.sender.downloaded = decode Int64 (slice m 56 64)
  left : r.sender.left = decode Int64 (slice m 64 72)
  uploaded : r.sender.uploaded = decode Int64 (slice m 72 80)
  event : r.event = decode EventType (slice m 80 84)
  ip : r.ip = decode UInt32 (slice m 84 88)
  key : r.key = decode UInt32 (slice m 88 92)
  numWant : r.numWant = decode Int32 (slice m 92 96)
  port : r.port = decode UInt16 (slice m 96 98)

/-- The fields of a request are those of the layout of its action. -/
structure LayoutFields (m : Bytes) (ep : SockaddrIn) (r : Request) : Prop where
  connectionId : r.connectionId = decode Int64 (slice m 0 8)
  action : r.action = decode ActionType (slice m 8 12)
  transactionId : r.transactionId = decode Int32 (slice m 12 16)
  senderIp : r.sender.ip = ep.sAddr
  senderPort : r.sender.port = ep.sinPort
  announce : r.action = .announce → AnnounceFields m r
  scrape : r.action = .scrape → r.infoHashes.map Hash.bytes
    = (List.range ((m.length - 16) / 20)).map fun i => slice m (16 + 20 * i) (36 + 20 * i)

theorem layoutFields_accepted (uninit : Uninit) {m : Bytes} (ep : SockaddrIn) (h : WellFormed m) :
    LayoutFields m ep (acceptedRequest uninit m ep) := by
  obtain ⟨h16, -, hann, hscr⟩ := h
  unfold acceptedRequest
  split_ifs with h1 h2
  · have h98 := (hann h1).1
    have hhash : (hashAt m 16).bytes = slice m 16 36 := bytes_hashAt (by change 16 + 20 ≤ _; omega)
    have hpeer : (hashAt m 36).bytes = slice m 36 56 := bytes_hashAt (by change 36 + 20 ≤ _; omega)
    exact ⟨rfl, rfl, rfl, rfl, rfl,
      fun _ => ⟨congrArg (fun b => [b]) hhash, hpeer, rfl, rfl, rfl, rfl, rfl, rfl, rfl, rfl⟩,
      fun hs => absurd (h1.symm.trans hs) (by decide)⟩
  · refine ⟨rfl, rfl, rfl, rfl, rfl, fun ha => absurd ha h1, fun _ => ?_⟩
    change ((List.range ((m.length - 16) / 20)).map fun i => hashAt m (16 + 20 * i)).map Hash.bytes
      = _
    rw [List.map_map]
    refine List.map_congr_left fun i hi => ?_
    have hi' := List.mem_range.1 hi
    have hb : (hashAt m (16 + 20 * i)).bytes = slice m (16 + 20 * i) (16 + 20 * i + 20) :=
      bytes_hashAt (by change 16 + 20 * i + 20 ≤ _; omega)
    rw [Function.comp_apply, hb, show 16 + 20 * i + 20 = 36 + 20 * i by omega]
  · exact ⟨rfl, rfl, rfl, rfl, rfl, fun ha => absurd ha h1, fun hs => absurd hs h2⟩

/-! ## The reference encoding -/

/-- A request of the protocol, with the fields its layout has. -/
inductive WireRequest
  | connect (connectionId : Int64) (transactionId : Int32)
  | announce (connectionId : Int64) (transactionId : Int32) (infoHash peerId : Hash)
      (downloaded left uploaded : Int64) (event : EventType) (ip key : UInt32) (numWant : Int32)
      (port : UInt16)
  | scrape (connectionId : Int64) (transactionId : Int32) (infoHashes : List Hash)
  | error (connectionId : Int64) (transactionId : Int32)

namespace WireRequest

/-- The header: connection, action and transaction. -/
def header (c : Int64) (a : ActionType) (t : Int32) : Bytes :=
  Wire.encode c ++ (Wire.encode a ++ Wire.encode t)

/-- The reference encoding: every field big-endian, in the order of the layout. -/
def encode : WireRequest → Bytes
  | connect c t => header c .connect t
  | announce c t infoHash peerId downloaded left uploaded event ip key numWant port =>
    header c .announce t ++ (infoHash.bytes ++ (peerId.bytes ++ (Wire.encode downloaded
      ++ (Wire.encode left ++ (Wire.encode uploaded ++ (Wire.encode event ++ (Wire.encode ip
      ++ (Wire.encode key ++ (Wire.encode numWant ++ Wire.encode port)))))))))
  | scrape c t infoHashes => header c .scrape t ++ infoHashes.flatMap Hash.bytes
  | error c t => header c .error t

/-- A defined event, and at least one hash to scrape. -/
def Valid : WireRequest → Prop
  | announce _ _ _ _ _ _ _ event _ _ _ _ => Defined event.code
  | scrape _ _ infoHashes => infoHashes ≠ []
  | _ => True

end WireRequest

/-- The request of the protocol that a parsed request stands for. -/
def Request.wire (r : Request) : Option WireRequest :=
  if r.action = .connect then some (.connect r.connectionId r.transactionId)
  else if r.action = .announce then
    r.infoHashes.head?.map fun infoHash =>
      .announce r.connectionId r.transactionId infoHash r.sender.peerId r.sender.downloaded
        r.sender.left r.sender.uploaded r.event r.ip r.key r.numWant r.port
  else if r.action = .scrape then some (.scrape r.connectionId r.transactionId r.infoHashes)
  else if r.action = .error then some (.error r.connectionId r.transactionId)
  else none

namespace WireRequest

@[simp] theorem length_header (c : Int64) (a : ActionType) (t : Int32) :
    (header c a t).length = 16 := by simp [header]

theorem actionAt_header (c : Int64) (a : ActionType) (t : Int32) (b : Bytes) :
    actionAt (header c a t ++ b) = a := by
  rw [actionAt, slice_append_of_length_le b 8 (by simp)]
  simp [header, slice_append_of_le, slice_append_left]

/-- The request read back has the header's fields. -/
theorem fields_header {c : Int64} {a : ActionType} {t : Int32} {b : Bytes} {ep : SockaddrIn}
    {r : Request} (h : LayoutFields (header c a t ++ b) ep r) :
    r.connectionId = c ∧ r.action = a ∧ r.transactionId = t := by
  refine ⟨h.connectionId.trans ?_, h.action.trans (actionAt_header c a t b),
    h.transactionId.trans ?_⟩
  · rw [slice_append_of_length_le b 0 (by simp)]
    simp [header, slice_append_left]
  · rw [slice_append_of_length_le b 12 (by simp)]
    simp [header, slice_append_of_le, slice_self]

theorem wellFormed_encode {w : WireRequest} (hw : w.Valid) : WellFormed w.encode := by
  cases w with
  | connect c t =>
    have ha : actionAt (header c .connect t) = .connect := by
      simpa using actionAt_header c .connect t []
    exact ⟨by simp [encode], by rw [encode, ha]; decide,
      fun h => absurd (ha.symm.trans h) (by decide), fun h => absurd (ha.symm.trans h) (by decide)⟩
  | announce c t infoHash peerId downloaded left uploaded event ip key numWant port =>
    have ha := actionAt_header c .announce t (infoHash.bytes ++ (peerId.bytes
      ++ (Wire.encode downloaded ++ (Wire.encode left ++ (Wire.encode uploaded
      ++ (Wire.encode event ++ (Wire.encode ip ++ (Wire.encode key ++ (Wire.encode numWant
      ++ Wire.encode port)))))))))
    refine ⟨by simp [encode], by rw [encode, ha]; decide, fun _ => ⟨?_, ?_⟩,
      fun h => absurd (ha.symm.trans h) (by decide)⟩
    · simp [encode, Hash.length_bytes, hashSize]
    · have he : eventAt (encode (announce c t infoHash peerId downloaded left uploaded event ip key
          numWant port)) = event := by
        simp [eventAt, encode, slice_append_of_le, slice_append_left, Hash.length_bytes, hashSize]
      rw [he]
      exact hw
  | scrape c t infoHashes =>
    have ha := actionAt_header c .scrape t (infoHashes.flatMap Hash.bytes)
    have hlen : (infoHashes.flatMap Hash.bytes).length = 20 * infoHashes.length := by
      simp [List.length_flatMap, Hash.length_bytes, hashSize, Nat.mul_comm]
    have hpos : 0 < infoHashes.length := List.length_pos_iff.2 hw
    refine ⟨by simp [encode], by rw [encode, ha]; decide,
      fun h => absurd (ha.symm.trans h) (by decide), fun _ => ?_⟩
    rw [encode, List.length_append, length_header, hlen, Nat.add_sub_cancel_left]
    exact ⟨by omega, Nat.dvd_mul_right 20 _⟩
  | error c t =>
    have ha : actionAt (header c .error t) = .error := by
      simpa using actionAt_header c .error t []
    exact ⟨by simp [encode], by rw [encode, ha]; decide,
      fun h => absurd (ha.symm.trans h) (by decide), fun h => absurd (ha.symm.trans h) (by decide)⟩

/-- **The layout's fields of a reference encoding are the request that was encoded.** -/
theorem wire_of_layoutFields {w : WireRequest} {ep : SockaddrIn} {r : Request}
    (h : LayoutFields w.encode ep r) : r.wire = some w := by
  cases w with
  | connect c t =>
    obtain ⟨hc, ha, ht⟩ := fields_header (b := []) (by rwa [List.append_nil])
    rw [Request.wire, if_pos ha, hc, ht]
  | announce c t infoHash peerId downloaded left uploaded event ip key numWant port =>
    obtain ⟨hc, ha, ht⟩ := fields_header h
    obtain ⟨hh, hp, hd, hl, hu, he, hi, hk, hn, ho⟩ := h.announce ha
    simp only [encode, slice_append_of_le, slice_append_left, slice_self, decode_encode,
      length_header, length_encode, width_int64, width_uint32, width_int32, width_uint16,
      width_eventType, Hash.length_bytes, hashSize, Nat.reduceLeDiff, Nat.reduceSub]
      at hh hp hd hl hu he hi hk hn ho
    have hh' : r.infoHashes = [infoHash] :=
      List.map_injective_iff.2 Hash.bytes_injective hh
    rw [Request.wire, ha, hc, ht, hh', Hash.ext hp, hd, hl, hu, he, hi, hk, hn, ho]
    rfl
  | scrape c t infoHashes =>
    obtain ⟨hc, ha, ht⟩ := fields_header h
    have hh := h.scrape ha
    have hlen : (infoHashes.flatMap Hash.bytes).length = 20 * infoHashes.length := by
      simp [List.length_flatMap, Hash.length_bytes, hashSize, Nat.mul_comm]
    have hcount : ((encode (scrape c t infoHashes)).length - 16) / 20 = infoHashes.length := by
      rw [encode, List.length_append, length_header, hlen]
      omega
    have hcut : (List.range infoHashes.length).map
        (fun i => slice (encode (scrape c t infoHashes)) (16 + 20 * i) (36 + 20 * i))
        = infoHashes.map Hash.bytes := by
      rw [← map_slice_flatMap Hash.bytes Hash.length_bytes]
      refine List.map_congr_left fun i _ => ?_
      rw [encode, slice_append_of_le _ _ (by rw [length_header]; omega), length_header]
      congr 1 <;> unfold hashSize <;> omega
    have hh' : r.infoHashes = infoHashes :=
      List.map_injective_iff.2 Hash.bytes_injective (by rw [hh, hcount, hcut])
    rw [Request.wire, ha, hc, ht, hh']
    rfl
  | error c t =>
    obtain ⟨hc, ha, ht⟩ := fields_header (b := []) (by rwa [List.append_nil])
    rw [Request.wire, ha, hc, ht]
    rfl

end WireRequest

/-- **The parser accepts exactly the request format and decodes it exactly.**  Every message is
parsed without a load past its end; the error message is empty exactly on the well-formed ones,
whose fields are those of the layout; and the reference encoding of a valid request is read back as
that request. -/
theorem parseUDPRequest_exact (uninit : Uninit) (ep : SockaddrIn) :
    (∀ m, ∃ r, parseUDPRequest uninit m ep = .ok r ∧ (r.errorMessage = [] ↔ WellFormed m) ∧
      (WellFormed m → LayoutFields m ep r)) ∧
    ∀ w : WireRequest, w.Valid → ∃ r, parseUDPRequest uninit w.encode ep = .ok r ∧
      r.errorMessage = [] ∧ r.wire = some w := by
  constructor
  · intro m
    cases h : rejection m with
    | some r =>
      have hw : ¬ WellFormed m := by simp [← rejection_eq_none_iff, h]
      exact ⟨_, parse_rejected uninit m ep h,
        iff_of_false (errorMessage_ne_nil uninit m ep r) hw, fun h => absurd h hw⟩
    | none =>
      have hw : WellFormed m := (rejection_eq_none_iff m).1 h
      exact ⟨_, parse_accepted uninit m ep h,
        iff_of_true (errorMessage_accepted uninit m ep) hw, fun _ =>
          layoutFields_accepted uninit ep hw⟩
  · intro w hw
    have hm := WireRequest.wellFormed_encode hw
    exact ⟨_, parse_accepted uninit _ ep ((rejection_eq_none_iff _).2 hm),
      errorMessage_accepted uninit _ ep,
      WireRequest.wire_of_layoutFields (layoutFields_accepted uninit ep hm)⟩

end TorrentX
