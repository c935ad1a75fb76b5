import TorrentX.Tracker.Parse
import TorrentX.Tracker.Encode

/-!
# Tracker/Dispatch — which handler answers a datagram

`process_request` does not stop at an error of the parser: the tests of the dispatch are
independent, so a rejected request still reaches the handler of whatever action it holds.  The
dispatch is computed by action (`dispatch_of_connect`, …, `dispatch_of_not_handled`), and the header
of a handler's response is described once (`Response.Answers`).

Two theorems: a rejected datagram is answered by an error, with nothing changed, exactly when its
action names no handler (`errorReply_iff`); a reply matches its datagram exactly when the action
names one (`matches_iff`).
-/

namespace TorrentX

open Wire TorrentDataBase

/-! ## The header of a packet -/

/-- The bytes of a response start with its action and its transaction. -/
theorem header_encoded (r : Response) :
    slice r.encoded 0 4 = encode r.action ∧ slice r.encoded 4 8 = encode r.transactionId := by
  simp only [Response.encoded, List.append_assoc]
  refine ⟨slice_append_left _ rfl, ?_⟩
  rw [slice_append_of_le (a := encode r.action) _ 8 (Nat.le_refl 4)]
  exact slice_append_left _ rfl

/-- A packet starts with the action and the transaction of its response. -/
theorem header_of_makeUDPResponse {r : Response} {packet : Bytes}
    (h : makeUDPResponse r = .ok packet) :
    slice packet 0 4 = encode r.action ∧ slice packet 4 8 = encode r.transactionId := by
  rw [makeUDPResponse_eq] at h
  split at h
  · obtain rfl := Except.ok.inj h
    exact header_encoded r
  · cases h

/-! ## The handlers -/

/-- The response of the announce handler to a list drawn and an update done. -/
def announceResponse (requestInterval : Int32) (torrent : Torrent) (request : Request)
    (peers : List Peer) (error : Bytes) : Response :=
  if error ≠ [] then handleError { request with errorMessage := error }
  else
    { action := request.action
      transactionId := request.transactionId
      sender := request.sender
      interval := requestInterval
      leechers := toInt32 torrent.leechers
      seeders := toInt32 torrent.seeders
      peers }

/-- **What the announce handler computes**, from the torrent it names and the draws alone. -/
theorem handleAnnounce_eq (requestInterval : Int32) (db : TorrentDataBase) {request : Request}
    {infoHash : Hash} {rest : List Hash} (h : request.infoHashes = infoHash :: rest) :
    handleAnnounce requestInterval db request
      = (selectPeers (db.torrent infoHash).allPeers
          (clampNumWant request.numWant (db.torrent infoHash).allPeers.size) db.random []
        >>= fun drawn => (db.torrent infoHash).update request.sender request.event
        >>= fun updated => pure
          (announceResponse requestInterval (db.torrent infoHash) request drawn.1 updated.1,
            { db.set infoHash updated.2 with random := drawn.2 })) := by
  simp only [handleAnnounce, h, countLeechers, countSeeders, getPeerList, updatePeerList,
    torrent_touch, touch_touch, bind_assoc, pure_bind]
  refine congrArg _ (funext fun drawn => ?_)
  have htorrent : torrent { db.touch infoHash with random := drawn.2 } = db.torrent :=
    torrent_touch db infoHash
  rw [htorrent]
  refine congrArg _ (funext fun updated => ?_)
  have hset : TorrentDataBase.set { db.touch infoHash with random := drawn.2 } infoHash updated.2
      = { db.set infoHash updated.2 with random := drawn.2 } :=
    congrArg (fun db : TorrentDataBase => { db with random := drawn.2 })
      (set_set db infoHash _ updated.2)
  rw [hset]
  unfold announceResponse
  split <;> rfl

/-- **What the announce handler did when it returns**: it drew a list from the table as it stood,
updated the table, and answered with the list or with the error of the update. -/
theorem handleAnnounce_ok {requestInterval : Int32} {db db' : TorrentDataBase} {request : Request}
    {response : Response} (h : handleAnnounce requestInterval db request = .ok (response, db')) :
    ∃ infoHash rest peers draws err t', request.infoHashes = infoHash :: rest ∧
      selectPeers (db.torrent infoHash).allPeers
        (clampNumWant request.numWant (db.torrent infoHash).allPeers.size) db.random []
          = .ok (peers, draws) ∧
      (db.torrent infoHash).update request.sender request.event = .ok (err, t') ∧
      response = announceResponse requestInterval (db.torrent infoHash) request peers err ∧
      db' = { db.set infoHash t' with random := draws } := by
  cases hh : request.infoHashes with
  | nil => simp [handleAnnounce, hh] at h
  | cons infoHash rest =>
    rw [handleAnnounce_eq requestInterval db hh] at h
    obtain ⟨⟨peers, draws⟩, hdrawn, h⟩ := exists_of_bind_eq_ok h
    obtain ⟨⟨err, t'⟩, hupdated, hret⟩ := exists_of_bind_eq_ok h
    cases hret
    exact ⟨infoHash, rest, peers, draws, err, t', rfl, hdrawn, hupdated, rfl, rfl⟩

/-- A response made for a request: its transaction, and its action or an error. -/
def Response.Answers (response : Response) (request : Request) : Prop :=
  response.transactionId = request.transactionId ∧
    (response.action = request.action ∨ response.action = .error)

/-- Every response of the announce handler answers its request. -/
theorem answers_of_handleAnnounce {requestInterval : Int32} {db db' : TorrentDataBase}
    {request : Request} {response : Response}
    (h : handleAnnounce requestInterval db request = .ok (response, db')) :
    response.Answers request := by
  obtain ⟨infoHash, rest, peers, draws, err, t', -, -, -, rfl, -⟩ := handleAnnounce_ok h
  unfold announceResponse
  split_ifs
  · exact ⟨rfl, .inr rfl⟩
  · exact ⟨rfl, .inl rfl⟩

/-- Only a completion is ever refused by the database. -/
theorem action_of_handleAnnounce {requestInterval : Int32} {db db' : TorrentDataBase}
    {request : Request} {response : Response}
    (h : handleAnnounce requestInterval db request = .ok (response, db'))
    (hevent : request.event ≠ .completed) : response.action = request.action := by
  obtain ⟨infoHash, rest, peers, draws, err, t', -, -, hu, rfl, -⟩ := handleAnnounce_ok h
  have herr : err = [] := by
    cases Torrent.updates_of_update hu with
    | refused _ he => exact absurd he hevent
    | _ => rfl
  rw [announceResponse, if_neg (not_not.2 herr)]

/-! ## The dispatch

The four tests look at the error message first and then three times at the action, with no `else`
between them.  A request with an error goes through the others as well, and the last test that
applies has the reply. -/

section Dispatch

variable (requestInterval : Int32) (db : TorrentDataBase) {request : Request}

/-- A connect is answered by its handler, whatever the parser left. -/
theorem dispatch_of_connect (h : request.action = .connect) :
    dispatch requestInterval db request = .ok (handleConnect request, db) := by
  have h₁ : request.action ≠ .announce := by rw [h]; decide
  have h₂ : request.action ≠ .scrape := by rw [h]; decide
  simp only [dispatch, if_pos h, if_neg h₁, if_neg h₂, pure_bind]
  rfl

/-- An announce is answered by its handler, whatever the parser left. -/
theorem dispatch_of_announce (h : request.action = .announce) :
    dispatch requestInterval db request = handleAnnounce requestInterval db request := by
  have h₂ : request.action ≠ .scrape := by rw [h]; decide
  simp only [dispatch, if_pos h, if_neg h₂]
  exact bind_pure _

/-- A scrape is answered by its handler, whatever the parser left. -/
theorem dispatch_of_scrape (h : request.action = .scrape) :
    dispatch requestInterval db request = .ok (handleScrape db request) := by
  have h₁ : request.action ≠ .announce := by rw [h]; decide
  simp only [dispatch, if_neg h₁, if_pos h, pure_bind]
  rfl

/-- An action with a handler of its own. -/
def Handled (a : ActionType) : Prop := a = .connect ∨ a = .announce ∨ a = .scrape

instance (a : ActionType) : Decidable (Handled a) := inferInstanceAs (Decidable (_ ∨ _))

/-- An action without a handler is answered by the error, if the parser left one, and by the
response as declared otherwise. -/
theorem dispatch_of_not_handled (h : ¬ Handled request.action) :
    dispatch requestInterval db request
      = .ok (if request.errorMessage ≠ [] then handleError request else {}, db) := by
  obtain ⟨h₀, h₁, h₂⟩ : request.action ≠ .connect ∧ request.action ≠ .announce
      ∧ request.action ≠ .scrape := by simpa [Handled] using h
  simp only [dispatch, if_neg h₀, if_neg h₁, if_neg h₂, pure_bind]
  rfl

/-- A handler's response answers its request. -/
theorem answers_of_dispatch {db' : TorrentDataBase} {response : Response}
    (ha : Handled request.action)
    (h : dispatch requestInterval db request = .ok (response, db')) : response.Answers request := by
  rcases ha with ha | ha | ha
  · rw [dispatch_of_connect requestInterval db ha] at h
    cases h
    exact ⟨rfl, .inl rfl⟩
  · rw [dispatch_of_announce requestInterval db ha] at h
    exact answers_of_handleAnnounce h
  · rw [dispatch_of_scrape requestInterval db ha] at h
    cases h
    exact ⟨rfl, .inl rfl⟩

end Dispatch

/-! ## One datagram -/

/-- The parser on a datagram. -/
abbrev Datagram.parse (d : Datagram) : Except Fault Request :=
  parseUDPRequest d.uninit d.message d.clientEndpoint

section Datagram

variable {requestInterval : Int32} {db db' : TorrentDataBase} {datagram : Datagram}
  {request : Request} {packet : Bytes}

/-- What a datagram that gets a reply went through. -/
theorem processRequest_ok
    (hparse : datagram.parse = .ok request)
    (h : processRequest requestInterval db datagram = .ok (packet, db')) :
    ∃ response, dispatch requestInterval db request = .ok (response, db') ∧
      makeUDPResponse response = .ok packet := by
  change (datagram.parse >>= _) = _ at h
  rw [bind_of_eq_ok hparse] at h
  obtain ⟨⟨response, db₁⟩, hd, h⟩ := exists_of_bind_eq_ok h
  obtain ⟨made, hm, hret⟩ := exists_of_bind_eq_ok h
  cases hret
  exact ⟨response, hd, hm⟩

/-- A response that fits is sent. -/
theorem processRequest_of_dispatch {response : Response}
    (hparse : datagram.parse = .ok request)
    (hd : dispatch requestInterval db request = .ok (response, db'))
    (hfit : response.encoded.length ≤ packetSize) :
    processRequest requestInterval db datagram = .ok (response.encoded, db') := by
  simp only [processRequest, hparse, hd, bind, Except.bind, makeUDPResponse_eq, if_pos hfit]
  rfl

end Datagram

/-! ## What the parser leaves for the dispatch -/

/-- What a reason for rejection says of the message. -/
def Rejection.Applies (m : Bytes) : Rejection → Prop
  | .shortHeader => m.length < 16
  | .badAction => 16 ≤ m.length ∧ ¬ Defined (actionAt m).code
  | .shortAnnounce => 16 ≤ m.length ∧ actionAt m = .announce
  | .badEvent => 16 ≤ m.length ∧ actionAt m = .announce ∧ ¬ Defined (eventAt m).code
  | .incompleteHash => 16 ≤ m.length ∧ actionAt m = .scrape

/-- A reason is given only where it applies. -/
theorem applies_of_rejection {m : Bytes} {r : Rejection} (h : rejection m = some r) :
    r.Applies m := by
  unfold rejection at h
  split_ifs at h with h16 ha hann h98 he hscr hb <;> obtain rfl := Option.some.inj h
  · exact h16
  · exact ⟨by omega, hann⟩
  · exact ⟨by omega, hann, he⟩
  · exact ⟨by omega, hscr⟩
  · exact ⟨by omega, ha⟩

/-- The defined actions are those with a handler, and the error. -/
theorem defined_iff_handled (a : ActionType) : Defined a.code ↔ Handled a ∨ a = .error := by
  obtain ⟨code⟩ := a
  simp only [defined_iff, Handled, ActionType.connect, ActionType.announce, ActionType.scrape,
    ActionType.error, ActionType.mk.injEq, or_assoc]

section Parsed

variable {uninit : Uninit} {m : Bytes} {ep : SockaddrIn} {request : Request}

/-- Every message is parsed. -/
theorem exists_parse (uninit : Uninit) (m : Bytes) (ep : SockaddrIn) :
    ∃ request, parseUDPRequest uninit m ep = .ok request := by
  cases hr : rejection m with
  | none => exact ⟨_, parse_accepted uninit m ep hr⟩
  | some r => exact ⟨_, parse_rejected uninit m ep hr⟩

/-- A request with an error message was rejected. -/
theorem exists_rejection (hparse : parseUDPRequest uninit m ep = .ok request)
    (herr : request.errorMessage ≠ []) :
    ∃ r, rejection m = some r ∧ request = rejectedRequest uninit m ep r := by
  cases hr : rejection m with
  | none =>
    rw [parse_accepted uninit m ep hr] at hparse
    cases hparse
    exact absurd (errorMessage_accepted uninit m ep) herr
  | some r =>
    rw [parse_rejected uninit m ep hr] at hparse
    exact ⟨r, rfl, (Except.ok.inj hparse).symm⟩

/-- Every error message of the parser fits in a packet behind the header. -/
theorem length_errorMessage_le {r : Rejection} (h : rejection m = some r) :
    8 + (rejectedRequest uninit m ep r).errorMessage.length ≤ packetSize := by
  cases r with
  | shortHeader =>
    have hdigits : ∀ n < 16, (toString n).length ≤ 2 := by decide
    have hm := hdigits m.length (applies_of_rejection h)
    simp only [rejectedRequest, Uninit.dangling, List.length_map, List.length_range, length_text,
      String.length_append]
    have h₁ : "Bad request: request_size=".length = 26 := rfl
    have h₂ : "  less than CONNECT_REQUEST_SIZE".length = 32 := rfl
    unfold packetSize
    omega
  | _ =>
    simp only [rejectedRequest]
    decide

/-- The header of the request of a message that has one: its transaction was read only if its
action is defined. -/
theorem header_of_parse (h16 : 16 ≤ m.length) (hparse : parseUDPRequest uninit m ep = .ok request) :
    request.action = actionAt m ∧
      request.transactionId
        = (if Defined (actionAt m).code then transactionIdAt m else uninit.transactionId) ∧
      (actionAt m = .error → request.errorMessage = []) ∧
      (¬ Defined (actionAt m).code → request.errorMessage ≠ []) := by
  cases hr : rejection m with
  | none =>
    have ha := ((rejection_eq_none_iff m).1 hr).2.1
    rw [parse_accepted uninit m ep hr] at hparse
    cases hparse
    rw [if_pos ha]
    refine ⟨?_, ?_, fun _ => errorMessage_accepted uninit m ep, fun h => absurd ha h⟩
    all_goals
      unfold acceptedRequest
      split_ifs <;> rfl
  | some r =>
    have happ := applies_of_rejection hr
    rw [parse_rejected uninit m ep hr] at hparse
    cases hparse
    cases r with
    | shortHeader => exact absurd happ (Nat.not_lt.2 h16)
    | badAction =>
      rw [if_neg happ.2]
      exact ⟨rfl, rfl, fun h => absurd (by rw [h]; decide) happ.2,
        fun _ => errorMessage_ne_nil uninit m ep _⟩
    | shortAnnounce =>
      rw [happ.2, if_pos (by decide)]
      exact ⟨happ.2, rfl, fun h => absurd h (by decide), fun h => absurd (by decide) h⟩
    | badEvent =>
      rw [happ.2.1, if_pos (by decide)]
      exact ⟨happ.2.1, rfl, fun h => absurd h (by decide), fun h => absurd (by decide) h⟩
    | incompleteHash =>
      rw [happ.2, if_pos (by decide)]
      exact ⟨happ.2, rfl, fun h => absurd h (by decide), fun h => absurd (by decide) h⟩

end Parsed

/-! ## Rejected datagrams -/

/-- A datagram is answered by an error, and no torrent changes. -/
def ErrorReply (requestInterval : Int32) (db : TorrentDataBase) (datagram : Datagram) : Prop :=
  ∃ packet db', processRequest requestInterval db datagram = .ok (packet, db') ∧
    slice packet 0 4 = encode ActionType.error ∧ db'.torrent = db.torrent

section Rejected

variable {requestInterval : Int32} {db : TorrentDataBase} {datagram : Datagram} {r : Rejection}

/-- The request of a rejected datagram. -/
abbrev Datagram.rejected (datagram : Datagram) (r : Rejection) : Request :=
  rejectedRequest datagram.uninit datagram.message datagram.clientEndpoint r

/-- A rejected datagram that reaches no handler is answered by the parser's error. -/
theorem processRequest_of_not_handled (hr : rejection datagram.message = some r)
    (ha : ¬ Handled (datagram.rejected r).action) :
    processRequest requestInterval db datagram
      = .ok ((handleError (datagram.rejected r)).encoded, db) := by
  have hparse := parse_rejected datagram.uninit _ datagram.clientEndpoint hr
  have hd := dispatch_of_not_handled requestInterval db ha
  rw [if_pos (errorMessage_ne_nil datagram.uninit _ _ r)] at hd
  obtain ⟨-, henc⟩ := encoded_of_payload (r := handleError (datagram.rejected r))
    (p := .error (datagram.rejected r).errorMessage) rfl
  refine processRequest_of_dispatch hparse hd ?_
  rw [henc, List.length_append, length_packetHeader]
  exact length_errorMessage_le hr

theorem errorReply_of_not_handled (hr : rejection datagram.message = some r)
    (ha : ¬ Handled (datagram.rejected r).action) : ErrorReply requestInterval db datagram :=
  ⟨_, db, processRequest_of_not_handled hr ha, (header_encoded _).1, rfl⟩

/-- A rejected announce has no hash, or an event that the database ignores. -/
theorem announce_of_rejection (hr : rejection datagram.message = some r) :
    (datagram.rejected r).infoHashes = [] ∨
      ¬ Defined (datagram.rejected r).event.code := by
  have happ := applies_of_rejection hr
  cases r with
  | badEvent => exact .inr happ.2.2
  | _ => exact .inl rfl

/-- **A rejected datagram that reaches a handler is not answered by an error**: the handler answers
with its own action, or reads the first of no hashes. -/
theorem not_errorReply_of_handled (hr : rejection datagram.message = some r)
    (ha : Handled (datagram.rejected r).action) : ¬ ErrorReply requestInterval db datagram := by
  rintro ⟨packet, db', h, herror, -⟩
  obtain ⟨response, hd, hm⟩ :=
    processRequest_ok (parse_rejected datagram.uninit _ datagram.clientEndpoint hr) h
  have hresp : response.action = .error :=
    encode_injective ((header_of_makeUDPResponse hm).1.symm.trans herror)
  have haction : response.action = (datagram.rejected r).action := by
    rcases ha with ha | ha | ha
    · rw [dispatch_of_connect requestInterval db ha] at hd
      cases hd
      rfl
    · rw [dispatch_of_announce requestInterval db ha] at hd
      rcases announce_of_rejection hr with hnil | hevent
      · obtain ⟨_, _, _, _, _, _, hcons, -⟩ := handleAnnounce_ok hd
        exact absurd (hnil.symm.trans hcons) (by simp)
      · exact action_of_handleAnnounce hd fun he => hevent (by rw [he]; decide)
    · rw [dispatch_of_scrape requestInterval db ha] at hd
      cases hd
      rfl
  rw [← haction, hresp] at ha
  exact absurd ha (by decide)

end Rejected

/-- **When a rejected datagram is answered by an error and changes nothing**: a datagram with a
header, when its action field is out of range; a shorter one, when the value its request's action
happens to hold names no handler. -/
theorem errorReply_iff (requestInterval : Int32) (db : TorrentDataBase) (datagram : Datagram)
    {request : Request}
    (hparse : datagram.parse = .ok request)
    (herr : request.errorMessage ≠ []) :
    ErrorReply requestInterval db datagram ↔
      (16 ≤ datagram.message.length → ¬ Defined (actionAt datagram.message).code) ∧
      (datagram.message.length < 16 → ¬ Handled datagram.uninit.action) := by
  obtain ⟨r, hr, rfl⟩ := exists_rejection hparse herr
  have hreply : ErrorReply requestInterval db datagram ↔ ¬ Handled (datagram.rejected r).action :=
    ⟨fun h ha => not_errorReply_of_handled hr ha h, errorReply_of_not_handled hr⟩
  rw [hreply]
  rcases Nat.lt_or_ge datagram.message.length 16 with hlt | hge
  · have haction : (datagram.rejected r).action = datagram.uninit.action := by
      obtain rfl : r = .shortHeader := by
        rw [rejection, if_pos hlt] at hr
        exact (Option.some.inj hr).symm
      rfl
    rw [haction]
    exact ⟨fun h => ⟨fun hge => absurd hge (by omega), fun _ => h⟩, fun h => h.2 hlt⟩
  · obtain ⟨haction, -, herror, -⟩ := header_of_parse hge hparse
    rw [haction]
    refine ⟨fun h => ⟨fun _ hdef => ?_, fun hlt => absurd hlt (by omega)⟩,
      fun h ha => h.1 hge ((defined_iff_handled _).2 (.inl ha))⟩
    exact herr (herror (((defined_iff_handled _).1 hdef).resolve_left h))

/-- Memory that happens to hold zeros. -/
def Uninit.zeroed : Uninit := ⟨0, .connect, 0, .none, 0, 0, 0, 0, fun _ => 0⟩

/-- A datagram of sixteen bytes, a header with action `a`. -/
def bareHeader (a : ActionType) : Datagram :=
  ⟨encode (0 : Int64) ++ encode a ++ encode (0x01020304 : Int32), ⟨0, 0⟩, .zeroed⟩

/-- An announce of a header only: the parser rejects it, the announce handler is called on it, and
the handler reads the first element of an empty vector. -/
theorem bareAnnounce_not_errorReply : ∃ request,
    (bareHeader .announce).parse = .ok request ∧
    request.errorMessage ≠ [] ∧
    processRequest 60 (.empty []) (bareHeader .announce) = .error .emptyVector ∧
    ¬ ErrorReply 60 (.empty []) (bareHeader .announce) := by
  have hfault : processRequest 60 (.empty []) (bareHeader .announce) = .error .emptyVector := rfl
  refine ⟨_, rfl, by decide, hfault, ?_⟩
  rintro ⟨packet, db', h, -⟩
  exact absurd (hfault.symm.trans h) (by simp)

/-- An action out of range is answered by an error. -/
theorem errorReply_of_action_seven : ErrorReply 60 (.empty []) (bareHeader ⟨7⟩) :=
  (errorReply_iff 60 (.empty []) (bareHeader ⟨7⟩) rfl (by decide)).2
    ⟨fun _ => by decide, fun h => absurd h (by decide)⟩

/-! ## Replies and their datagrams

A client tells replies apart by the transaction, and reads them by the action.  Where the server
never read the transaction, the reply carries what the memory held. -/

/-- A reply carries the transaction of its datagram, and its action or an error. -/
def Matches (m packet : Bytes) : Prop :=
  slice packet 4 8 = slice m 12 16 ∧
    (slice packet 0 4 = slice m 8 12 ∨ slice packet 0 4 = encode ActionType.error)

/-- A reply matches as its response does. -/
theorem matches_iff_response {m packet : Bytes} {response : Response} (h16 : 16 ≤ m.length)
    (h : makeUDPResponse response = .ok packet) :
    Matches m packet ↔ response.transactionId = transactionIdAt m ∧
      (response.action = actionAt m ∨ response.action = .error) := by
  obtain ⟨haction, htransaction⟩ := header_of_makeUDPResponse h
  have hm : slice m 12 16 = encode (transactionIdAt m) :=
    (encode_decode (length_slice h16)).symm
  have ha : slice m 8 12 = encode (actionAt m) :=
    (encode_decode (length_slice (by omega))).symm
  rw [Matches, haction, htransaction, hm, ha, encode_injective.eq_iff, encode_injective.eq_iff,
    encode_injective.eq_iff]

/-- **When a reply matches its datagram**: when the action of the datagram has a handler, or when
it is out of range and the transaction left uninitialised happens to be the one that was sent. -/
theorem matches_iff {requestInterval : Int32} {db db' : TorrentDataBase} {datagram : Datagram}
    {packet : Bytes} (h16 : 16 ≤ datagram.message.length)
    (h : processRequest requestInterval db datagram = .ok (packet, db')) :
    Matches datagram.message packet ↔
      Handled (actionAt datagram.message) ∨
        (¬ Defined (actionAt datagram.message).code ∧
          datagram.uninit.transactionId = transactionIdAt datagram.message) := by
  obtain ⟨request, hparse⟩ := exists_parse datagram.uninit datagram.message datagram.clientEndpoint
  obtain ⟨haction, htransaction, herror, hbad⟩ := header_of_parse h16 hparse
  obtain ⟨response, hd, hm⟩ := processRequest_ok hparse h
  rw [matches_iff_response h16 hm]
  by_cases ha : Handled (actionAt datagram.message)
  · -- a handler copies the header it was given
    obtain ⟨ht, hact⟩ := answers_of_dispatch requestInterval db (haction ▸ ha) hd
    rw [if_pos ((defined_iff_handled _).2 (.inl ha))] at htransaction
    rw [haction] at hact
    exact iff_of_true ⟨ht.trans htransaction, hact⟩ (.inl ha)
  · rw [dispatch_of_not_handled requestInterval db (haction ▸ ha)] at hd
    by_cases hdef : Defined (actionAt datagram.message).code
    · -- the action is the error, which no test of the dispatch looks for
      have he := ((defined_iff_handled _).1 hdef).resolve_left ha
      rw [herror he, if_neg (by simp)] at hd
      cases hd
      rw [he]
      exact iff_of_false (fun hmatch => absurd hmatch.2 (by decide))
        (by rintro (hh | ⟨hh, -⟩) <;> exact absurd hh (by decide))
    · rw [if_pos (hbad hdef)] at hd
      cases hd
      rw [if_neg hdef] at htransaction
      change request.transactionId = _ ∧ (_ ∨ ActionType.error = .error) ↔ _
      rw [htransaction]
      exact ⟨fun hmatch => .inr ⟨hdef, hmatch.1⟩,
        fun hcond => ⟨(hcond.resolve_left ha).2, .inr rfl⟩⟩

/-- A datagram whose action is the error is accepted and answered by sixteen zeros. -/
theorem bareError_not_matches :
    processRequest 60 (.empty []) (bareHeader .error)
      = .ok (List.replicate 16 0, .empty []) ∧
    ¬ Matches (bareHeader .error).message (List.replicate 16 0) :=
  ⟨rfl, fun h => absurd h.1 (by decide)⟩

theorem matches_of_connect : ∃ packet db',
    processRequest 60 (.empty []) (bareHeader .connect) = .ok (packet, db') ∧
    Matches (bareHeader .connect).message packet := by
  have h : processRequest 60 (.empty []) (bareHeader .connect) = .ok _ := rfl
  exact ⟨_, _, h, (matches_iff (by decide) h).2 (.inl (by decide))⟩

end TorrentX
