import TorrentX.Tracker.Dispatch
import TorrentX.Tracker.Sampling

/-!
# Tracker/Initialised — which replies depend on uninitialised memory

The local `Request` of the parser declares its scalars without a value, and every early return
leaves some of them so.  An accepted message sets all that its handler reads.  Of the rejected ones
the incomplete scrape and the short announce are answered alike whatever the memory held: the
handler reads none of it, or fails first.  The others show it: a short header dispatches on the
action, an action out of range echoes the transaction, and an event out of range draws a list of the
size that the memory asks for (`processRequest_badEvent`).
-/

namespace TorrentX

open Wire TorrentDataBase

/-! ## What a datagram shows

The request is a local variable, so its scalars hold what was on the stack.  Two runs of the server
are compared that differ in this memory and in nothing else. -/

/-- The handlers of `process_request`. -/
inductive Handler
  | error
  | connect
  | announce
  | scrape
deriving DecidableEq

/-- The handlers that the four tests of the dispatch call. -/
def handlersOf (request : Request) : List Handler :=
  (if request.errorMessage ≠ [] then [.error] else [])
    ++ (if request.action = .connect then [.connect] else [])
    ++ (if request.action = .announce then [.announce] else [])
    ++ (if request.action = .scrape then [.scrape] else [])

/-- The handlers called on a datagram. -/
def Datagram.handlers (d : Datagram) : Except Fault (List Handler) := handlersOf <$> d.parse

/-- **The scalars left without a value do not show**: whatever they held, the same handlers are
called, the same packet is sent and the same database is left. -/
def Unobserved (requestInterval : Int32) (db : TorrentDataBase) (m : Bytes) (ep : SockaddrIn) :
    Prop :=
  ∀ uninit uninit' : Uninit, uninit.freed = uninit'.freed →
    Datagram.handlers ⟨m, ep, uninit⟩ = Datagram.handlers ⟨m, ep, uninit'⟩ ∧
    processRequest requestInterval db ⟨m, ep, uninit⟩
      = processRequest requestInterval db ⟨m, ep, uninit'⟩

section Fields

variable (requestInterval : Int32) (db : TorrentDataBase)

/-- Outside an announce the dispatch reads none of the fields of an announce. -/
theorem dispatch_of_not_announce {r : Request} (h : r.action ≠ .announce) (event : EventType)
    (ip key : UInt32) (numWant : Int32) (port : UInt16) :
    dispatch requestInterval db { r with event, ip, key, numWant, port }
      = dispatch requestInterval db r := by
  by_cases ha : Handled r.action
  · rcases ha with ha | ha | ha
    · rw [dispatch_of_connect requestInterval db ha]
      exact dispatch_of_connect requestInterval db ha
    · exact absurd ha h
    · rw [dispatch_of_scrape requestInterval db ha]
      exact dispatch_of_scrape requestInterval db ha
  · rw [dispatch_of_not_handled requestInterval db ha]
    exact dispatch_of_not_handled requestInterval db ha

/-- What happens to a datagram once it is parsed. -/
theorem processRequest_of_parse {d : Datagram} {request : Request} (h : d.parse = .ok request) :
    processRequest requestInterval db d = dispatch requestInterval db request >>= fun answer =>
      makeUDPResponse answer.1 >>= fun packet => pure (packet, answer.2) := by
  change (d.parse >>= _) = _
  rw [h]
  rfl

/-- Datagrams whose requests are dispatched alike are answered alike. -/
theorem same_of_parse {d d' : Datagram} {request request' : Request}
    (h : d.parse = .ok request) (h' : d'.parse = .ok request')
    (hhandlers : handlersOf request = handlersOf request')
    (hdispatch : dispatch requestInterval db request = dispatch requestInterval db request') :
    d.handlers = d'.handlers ∧
      processRequest requestInterval db d = processRequest requestInterval db d' := by
  constructor
  · rw [Datagram.handlers, Datagram.handlers, h, h']
    exact congrArg Except.ok hhandlers
  · rw [processRequest_of_parse requestInterval db h, processRequest_of_parse requestInterval db h',
      hdispatch]

end Fields

/-! ## The datagrams that show nothing -/

section Hidden

variable (requestInterval : Int32) (db : TorrentDataBase) {m : Bytes} (ep : SockaddrIn)

/-- **An accepted message has set all that its handler reads.** -/
theorem same_of_accepted (h : rejection m = none) (uninit uninit' : Uninit) :
    Datagram.handlers ⟨m, ep, uninit⟩ = Datagram.handlers ⟨m, ep, uninit'⟩ ∧
    processRequest requestInterval db ⟨m, ep, uninit⟩
      = processRequest requestInterval db ⟨m, ep, uninit'⟩ := by
  refine same_of_parse requestInterval db (parse_accepted uninit m ep h)
    (parse_accepted uninit' m ep h) ?_ ?_
  · unfold acceptedRequest
    split_ifs <;> rfl
  · unfold acceptedRequest
    split_ifs with ha hs
    · rfl
    · exact (dispatch_of_not_announce requestInterval db ha _ _ _ _ _).symm
    · exact (dispatch_of_not_announce requestInterval db ha _ _ _ _ _).symm

/-- An incomplete scrape is answered by the entries of no hash. -/
theorem unobserved_of_incompleteHash (h : rejection m = some .incompleteHash) :
    Unobserved requestInterval db m ep := by
  intro uninit uninit' _
  have ha : actionAt m ≠ .announce := by
    rw [(applies_of_rejection h).2]
    decide
  exact same_of_parse requestInterval db (parse_rejected uninit m ep h)
    (parse_rejected uninit' m ep h) rfl
    (dispatch_of_not_announce requestInterval db ha _ _ _ _ _).symm

/-- A short announce fails on the first of no hashes. -/
theorem unobserved_of_shortAnnounce (h : rejection m = some .shortAnnounce) :
    Unobserved requestInterval db m ep := by
  intro uninit uninit' _
  have hfault : ∀ u : Uninit,
      dispatch requestInterval db (rejectedRequest u m ep .shortAnnounce) = .error .emptyVector :=
    fun u => dispatch_of_announce requestInterval db (applies_of_rejection h).2
  refine same_of_parse requestInterval db (parse_rejected uninit m ep h)
    (parse_rejected uninit' m ep h) rfl ?_
  rw [hfault, hfault]

end Hidden

/-! ## The datagrams that show the action or the transaction -/

section Shown

variable {requestInterval : Int32} {db : TorrentDataBase} {m : Bytes} {ep : SockaddrIn}

/-- The connect handler is called if the action is a connect. -/
theorem connect_mem_handlersOf (request : Request) :
    Handler.connect ∈ handlersOf request ↔ request.action = .connect := by
  simp [handlersOf]

/-- A short header dispatches on the action that the memory held. -/
theorem not_unobserved_of_shortHeader (h : rejection m = some .shortHeader) :
    ¬ Unobserved requestInterval db m ep := by
  intro hall
  obtain ⟨hhandlers, -⟩ := hall .zeroed { Uninit.zeroed with action := .error } rfl
  rw [Datagram.handlers, Datagram.handlers, Datagram.parse, Datagram.parse,
    parse_rejected _ m ep h, parse_rejected _ m ep h] at hhandlers
  have hmem := congrArg (Handler.connect ∈ ·) (Except.ok.inj hhandlers)
  simp only [connect_mem_handlersOf, eq_iff_iff] at hmem
  have haction : ActionType.error = .connect := hmem.1 rfl
  exact absurd haction (by decide)

/-- An action out of range is answered with the transaction that the memory held. -/
theorem not_unobserved_of_badAction (h : rejection m = some .badAction) :
    ¬ Unobserved requestInterval db m ep := by
  intro hall
  obtain ⟨-, hsame⟩ := hall .zeroed { Uninit.zeroed with transactionId := 1 } rfl
  have hnone : ∀ u : Uninit, ¬ Handled (rejectedRequest u m ep .badAction).action :=
    fun _ ha => (applies_of_rejection h).2 ((defined_iff_handled _).2 (.inl ha))
  have hreply : ∀ u : Uninit, processRequest requestInterval db ⟨m, ep, u⟩
      = .ok ((handleError (rejectedRequest u m ep .badAction)).encoded, db) :=
    fun u => processRequest_of_not_handled h (hnone u)
  rw [hreply, hreply] at hsame
  have hpacket := congrArg (fun packet => slice packet 4 8) (Prod.mk.inj (Except.ok.inj hsame)).1
  simp only [(header_encoded _).2] at hpacket
  have htransaction : (0 : Int32) = 1 := encode_injective hpacket
  exact absurd htransaction (by decide)

end Shown

/-! ## The datagrams that show the number of peers asked for -/

section Drawn

variable (requestInterval : Int32) (db : TorrentDataBase) {m : Bytes} (ep : SockaddrIn)

/-- The answer to an announce whose event is out of range, once a list is drawn: the update does
nothing. -/
def badEventReply (requestInterval : Int32) (db : TorrentDataBase) (m : Bytes) (ep : SockaddrIn)
    (drawn : List Peer × List UInt32) : Except Fault (Bytes × TorrentDataBase) :=
  makeUDPResponse (announceResponse requestInterval (db.torrent (hashAt m 16))
      (rejectedRequest .zeroed m ep .badEvent) drawn.1 [])
    >>= fun packet => pure (packet, { db.touch (hashAt m 16) with random := drawn.2 })

/-- **Of the memory only the number of peers shows**, as the size of the list drawn. -/
theorem processRequest_badEvent (h : rejection m = some .badEvent) (uninit : Uninit) :
    processRequest requestInterval db ⟨m, ep, uninit⟩
      = selectPeers (db.torrent (hashAt m 16)).allPeers
          (clampNumWant uninit.numWant (db.torrent (hashAt m 16)).allPeers.size) db.random []
        >>= badEventReply requestInterval db m ep := by
  obtain ⟨-, haction, hevent⟩ := applies_of_rejection h
  have hidle : (db.torrent (hashAt m 16)).update
      (rejectedRequest uninit m ep .badEvent).sender (eventAt m)
        = .ok ([], db.torrent (hashAt m 16)) := by
    rw [Torrent.update, if_neg (fun he => hevent (by rw [he]; decide)),
      if_neg (fun he => hevent (by rw [he]; decide)),
      if_neg (fun he => hevent (by rw [he]; decide))]
  have hcons : (rejectedRequest uninit m ep .badEvent).infoHashes = [hashAt m 16] := rfl
  rw [processRequest_of_parse requestInterval db (d := ⟨m, ep, uninit⟩)
      (parse_rejected uninit m ep h), dispatch_of_announce requestInterval db haction,
    handleAnnounce_eq requestInterval db hcons, bind_assoc]
  refine congrArg _ (funext fun drawn => ?_)
  change ((db.torrent (hashAt m 16)).update
    (rejectedRequest uninit m ep .badEvent).sender (eventAt m) >>= _) >>= _ = _
  rw [hidle]
  rfl

/-- The packet of a list drawn. -/
theorem badEventReply_ok (h : rejection m = some .badEvent) {peers : List Peer}
    (hlen : peers.length ≤ 150) (rest : List UInt32) :
    ∃ packet db', badEventReply requestInterval db m ep (peers, rest) = .ok (packet, db') ∧
      packet.length = 20 + 6 * peers.length := by
  have haction : (announceResponse requestInterval (db.torrent (hashAt m 16))
      (rejectedRequest .zeroed m ep .badEvent) peers []).action = .announce :=
    (applies_of_rejection h).2.1
  obtain ⟨packet, hpacket, hlength, -⟩ := makeUDPResponse_spells (payload_of_announce haction) (by
    rw [Payload.packetLength, List.length_map, packetSize]
    exact (Nat.add_le_add_left (Nat.mul_le_mul_left 6 hlen) 20).trans (by decide))
  refine ⟨packet, { db.touch (hashAt m 16) with random := rest }, ?_, ?_⟩
  · rw [badEventReply, hpacket]
    rfl
  · rw [hlength, Payload.packetLength, List.length_map]
    rfl

/-- The first draw makes a list of one. -/
theorem selectPeers_one {peerSet : PeerSet} {numWant : Int32} (hone : numWant.toInt = 1)
    (hsize : peerSet.size ≠ 0) (draw : UInt32) (draws : List UInt32) :
    ∃ p, selectPeers peerSet numWant (draw :: draws) [] = .ok ([p], draws) := by
  have hrank : draw.toNat % peerSet.size < peerSet.elems.length :=
    Nat.mod_lt _ (Nat.pos_of_ne_zero hsize)
  have hn : peerSet.nth (draw.toNat % peerSet.size)
      = some (peerSet.elems[draw.toNat % peerSet.size]) := List.getElem?_eq_getElem hrank
  have hfirst : Int32.ofNat 0 < numWant := (ofNat_lt_iff (Nat.zero_le _)).2 (by rw [hone]; decide)
  have hsecond : ¬ Int32.ofNat 1 < numWant := by
    rw [ofNat_lt_iff (by rw [hone]; decide), hone]
    decide
  refine ⟨peerSet.elems[draw.toNat % peerSet.size], ?_⟩
  rw [selectPeers, List.length_nil, if_pos hfirst, if_neg hsize]
  simp only [hn]
  cases draws <;> exact if_neg hsecond

/-- One peer at most, or no draw at all, leaves nothing to ask for. -/
theorem unobserved_of_badEvent (h : rejection m = some .badEvent)
    (hfew : (Int32.ofNat (db.torrent (hashAt m 16)).allPeers.size).toInt ≤ 1 ∨ db.random = []) :
    Unobserved requestInterval db m ep := by
  intro uninit uninit' _
  refine ⟨?_, ?_⟩
  · rw [Datagram.handlers, Datagram.handlers, Datagram.parse, Datagram.parse,
      parse_rejected uninit m ep h, parse_rejected uninit' m ep h]
    rfl
  · have hpos := wanted_pos uninit.numWant
    have hpos' := wanted_pos uninit'.numWant
    rw [processRequest_badEvent requestInterval db ep h, processRequest_badEvent requestInterval db
      ep h]
    refine congrArg (· >>= badEventReply requestInterval db m ep) ?_
    rcases hfew with hfew | hnil
    · have hclamp : clampNumWant uninit.numWant (db.torrent (hashAt m 16)).allPeers.size
          = clampNumWant uninit'.numWant (db.torrent (hashAt m 16)).allPeers.size := by
        rw [← Int32.toInt_inj, toInt_clampNumWant, toInt_clampNumWant]
        omega
      rw [hclamp]
    · have hiff :
          Int32.ofNat 0 < clampNumWant uninit.numWant (db.torrent (hashAt m 16)).allPeers.size ↔
            Int32.ofNat 0 <
              clampNumWant uninit'.numWant (db.torrent (hashAt m 16)).allPeers.size := by
        rw [ofNat_lt_iff (Nat.zero_le _), ofNat_lt_iff (Nat.zero_le _), toInt_clampNumWant,
          toInt_clampNumWant]
        omega
      simp only [hnil, selectPeers, List.length_nil, hiff]

/-- Two peers and a draw make lists of two sizes. -/
theorem not_unobserved_of_badEvent (h : rejection m = some .badEvent)
    (hmany : 1 < (Int32.ofNat (db.torrent (hashAt m 16)).allPeers.size).toInt)
    (hrandom : db.random ≠ []) : ¬ Unobserved requestInterval db m ep := by
  intro hall
  obtain ⟨-, hsame⟩ := hall { Uninit.zeroed with numWant := 1 } { Uninit.zeroed with numWant := 2 }
    rfl
  rw [processRequest_badEvent requestInterval db ep h, processRequest_badEvent requestInterval db
    ep h] at hsame
  have hsize : (db.torrent (hashAt m 16)).allPeers.size ≠ 0 := by
    intro hzero
    rw [hzero] at hmany
    exact absurd hmany (by decide)
  have hone : (clampNumWant 1 (db.torrent (hashAt m 16)).allPeers.size).toInt = (1 : ℕ) :=
    toInt_clampNumWant_of_le rfl (by decide) hmany.le
  have htwo : (clampNumWant 2 (db.torrent (hashAt m 16)).allPeers.size).toInt = (2 : ℕ) :=
    toInt_clampNumWant_of_le rfl (by decide) hmany
  obtain ⟨draw, draws, hdraws⟩ := List.exists_cons_of_ne_nil hrandom
  obtain ⟨p, hp⟩ := selectPeers_one hone hsize draw draws
  obtain ⟨packet, db₁, hpacket, hlength⟩ :=
    badEventReply_ok requestInterval db ep h (List.length_singleton.trans_le (by decide)) draws
  rw [hdraws, hp] at hsame
  change badEventReply requestInterval db m ep ([p], draws) = _ at hsame
  rw [hpacket] at hsame
  cases hs : selectPeers (db.torrent (hashAt m 16)).allPeers
      (clampNumWant 2 (db.torrent (hashAt m 16)).allPeers.size) (draw :: draws) [] with
  | error f =>
    rw [hs] at hsame
    cases hsame
  | ok drawn =>
    obtain ⟨peers, rest⟩ := drawn
    have hlen : peers.length = 2 := by
      rw [length_of_selectPeers (Nat.zero_le _) hs, htwo]
      rfl
    obtain ⟨packet', db₂, hpacket', hlength'⟩ :=
      badEventReply_ok requestInterval db ep h (hlen.trans_le (by decide)) rest
    rw [hs] at hsame
    change _ = badEventReply requestInterval db m ep (peers, rest) at hsame
    rw [hpacket'] at hsame
    obtain rfl : packet = packet' := (Prod.mk.inj (Except.ok.inj hsame)).1
    rw [hlength', hlen, List.length_singleton] at hlength
    exact absurd hlength (by decide)

end Drawn

/-! ## Which replies depend on uninitialised memory -/

/-- The datagrams whose replies do not: a whole header with a defined action, and for an announce
whose event is out of range at most one registered peer, or no number to draw.

The last is a matter of the model: the numbers to come are a finite list here, and the generator of
the server always has another.  With none left both runs are still drawing, so neither replies. -/
def Settled (db : TorrentDataBase) (m : Bytes) : Prop :=
  16 ≤ m.length ∧ Defined (actionAt m).code ∧
    (actionAt m = .announce → 98 ≤ m.length → ¬ Defined (eventAt m).code →
      (Int32.ofNat (db.torrent (hashAt m 16)).allPeers.size).toInt ≤ 1 ∨ db.random = [])

/-- Which side of the announce layout's length the two rejections of an announce are on. -/
theorem length_of_rejection (m : Bytes) :
    (rejection m = some .shortAnnounce → m.length < 98) ∧
      (rejection m = some .badEvent → 98 ≤ m.length) := by
  unfold rejection
  split_ifs <;> refine ⟨fun h => ?_, fun h => ?_⟩ <;> first | omega | exact absurd h (by decide)

/-- **When a reply does not depend on uninitialised memory.** -/
theorem unobserved_iff (requestInterval : Int32) (db : TorrentDataBase) (m : Bytes)
    (ep : SockaddrIn) : Unobserved requestInterval db m ep ↔ Settled db m := by
  cases hr : rejection m with
  | none =>
    obtain ⟨h16, ha, hann, -⟩ := (rejection_eq_none_iff m).1 hr
    have hall : Unobserved requestInterval db m ep := fun uninit uninit' _ =>
      same_of_accepted requestInterval db ep hr uninit uninit'
    exact iff_of_true hall ⟨h16, ha, fun h _ he => absurd (hann h).2 he⟩
  | some r =>
    have happ := applies_of_rejection hr
    cases r with
    | shortHeader =>
      exact iff_of_false (not_unobserved_of_shortHeader hr) fun h => absurd h.1 (Nat.not_le.2 happ)
    | badAction => exact iff_of_false (not_unobserved_of_badAction hr) fun h => happ.2 h.2.1
    | shortAnnounce =>
      have hshort := (length_of_rejection m).1 hr
      exact iff_of_true (unobserved_of_shortAnnounce requestInterval db ep hr)
        ⟨happ.1, by rw [happ.2]; decide, fun _ h98 => absurd h98 (Nat.not_le.2 hshort)⟩
    | badEvent =>
      have h98 := (length_of_rejection m).2 hr
      constructor
      · intro hall
        refine ⟨happ.1, by rw [happ.2.1]; decide, fun _ _ _ => ?_⟩
        by_contra hnot
        obtain ⟨hmany, hrandom⟩ := not_or.1 hnot
        exact not_unobserved_of_badEvent requestInterval db ep hr (not_le.1 hmany) hrandom hall
      · intro h
        exact unobserved_of_badEvent requestInterval db ep hr (h.2.2 happ.2.1 h98 happ.2.2)
    | incompleteHash =>
      exact iff_of_true (unobserved_of_incompleteHash requestInterval db ep hr)
        ⟨happ.1, by rw [happ.2]; decide,
          fun ha => absurd (ha.symm.trans happ.2) (by decide)⟩

/-- The packets that answer a header with action seven, when the memory of the transaction held a
zero and when it held a one. -/
theorem bareHeader_not_unobserved :
    (bareHeader ⟨7⟩).message.length ≤ packetSize ∧
    processRequest 60 (.empty []) ⟨(bareHeader ⟨7⟩).message, ⟨0, 0⟩, .zeroed⟩
      = .ok ([0, 0, 0, 3, 0, 0, 0, 0] ++ text "Bad request: bad Action field", .empty []) ∧
    processRequest 60 (.empty [])
        ⟨(bareHeader ⟨7⟩).message, ⟨0, 0⟩, { Uninit.zeroed with transactionId := 1 }⟩
      = .ok ([0, 0, 0, 3, 0, 0, 0, 1] ++ text "Bad request: bad Action field", .empty []) ∧
    ¬ Unobserved 60 (.empty []) (bareHeader ⟨7⟩).message ⟨0, 0⟩ :=
  ⟨by decide, rfl, rfl, not_unobserved_of_badAction (by decide)⟩

end TorrentX
