import TorrentX.Tracker.Addresses

/-!
# Tracker/ReplySize — no accepted datagram overruns the packet buffer

`make_UDP_response` checks no bound.  What it writes is bounded by what the handlers were given: an
announce lists at most the maximum of peers, since the clamps leave no more and the loop selects no
more; a scrape lists one entry for each hash of a datagram that itself fits in a packet; and the one
error of an update is short.  The largest reply is that of a full announce
(`length_encoded_of_dispatch`).
-/

namespace TorrentX

open Wire TorrentDataBase

/-- The size of the largest reply: a header, three counts and the maximum of peers. -/
def largestReply : ℕ := 20 + 6 * 150

/-! ## Announces -/

/-- The errors of an update are no longer than its refusal. -/
theorem Torrent.Updates.length_error_le {t t' : Torrent} {peer : Peer} {event : EventType}
    {err : Bytes} (hu : t.Updates peer event err t') : err.length ≤ 22 := by
  cases hu with
  | refused => decide
  | _ => exact Nat.zero_le _

/-- **An announce is answered within the largest reply.** -/
theorem length_announceResponse_le (requestInterval : Int32) (torrent : Torrent)
    {request : Request} {peers : List Peer} {error : Bytes} (ha : request.action = .announce)
    (hpeers : peers.length ≤ 150) (herror : error.length ≤ 22) :
    (announceResponse requestInterval torrent request peers error).encoded.length
      ≤ largestReply := by
  unfold announceResponse largestReply
  split
  · rw [length_encoded (p := .error error) rfl, Payload.packetLength]
    omega
  · refine (length_encoded (payload_of_announce ha)).trans_le ?_
    rw [Payload.packetLength, List.length_map]
    exact Nat.add_le_add_left (Nat.mul_le_mul_left 6 hpeers) 20

/-- The number of peers listed is that of the clamps, the error that of an update. -/
theorem length_handleAnnounce_le {requestInterval : Int32} {db db' : TorrentDataBase}
    {request : Request} {response : Response} (ha : request.action = .announce)
    (h : handleAnnounce requestInterval db request = .ok (response, db')) :
    response.encoded.length ≤ largestReply := by
  obtain ⟨infoHash, rest, peers, draws, err, t', -, hdrawn, hu, rfl, -⟩ := handleAnnounce_ok h
  refine length_announceResponse_le requestInterval _ ha ?_
    (Torrent.updates_of_update hu).length_error_le
  rw [length_of_selectPeers (Nat.zero_le _) hdrawn]
  exact toNat_clampNumWant_le _ _

/-! ## Scrapes -/

/-- One entry for each hash. -/
theorem length_scrapeInfos (db : TorrentDataBase) (infoHashes : List Hash) :
    (scrapeInfos db infoHashes).1.length = infoHashes.length := by
  induction infoHashes generalizing db with
  | nil => rfl
  | cons infoHash infoHashes ih => exact congrArg (· + 1) (ih _)

/-- A scrape is answered by one entry for each hash. -/
theorem length_handleScrape (db : TorrentDataBase) {request : Request}
    (ha : request.action = .scrape) :
    (handleScrape db request).1.encoded.length = 8 + 12 * request.infoHashes.length := by
  have hinfos : (handleScrape db request).1.scrapeInfo.length = request.infoHashes.length :=
    length_scrapeInfos db request.infoHashes
  rw [length_encoded (payload_of_scrape (r := (handleScrape db request).1) ha),
    Payload.packetLength, hinfos]

/-- The hashes of a scrape that fits in a packet. -/
theorem length_infoHashes_le (uninit : Uninit) {m : Bytes} (ep : SockaddrIn)
    (hs : actionAt m = .scrape) (hsize : m.length ≤ packetSize) :
    (acceptedRequest uninit m ep).infoHashes.length ≤ 50 := by
  have ha : actionAt m ≠ .announce := by
    rw [hs]
    decide
  rw [acceptedRequest, if_neg ha, if_pos hs, List.length_map, List.length_range]
  unfold packetSize at hsize
  omega

/-! ## Every accepted datagram -/

/-- **Accepted datagrams are answered within the largest reply.** -/
theorem length_encoded_of_dispatch {requestInterval : Int32} {db db' : TorrentDataBase}
    {uninit : Uninit} {m : Bytes} {ep : SockaddrIn} {response : Response}
    (hsize : m.length ≤ packetSize)
    (hd : dispatch requestInterval db (acceptedRequest uninit m ep) = .ok (response, db')) :
    response.encoded.length ≤ largestReply := by
  have haction : (acceptedRequest uninit m ep).action = actionAt m := by
    unfold acceptedRequest
    split_ifs <;> rfl
  by_cases ha : Handled (acceptedRequest uninit m ep).action
  · rcases ha with ha | ha | ha
    · rw [dispatch_of_connect requestInterval db ha] at hd
      cases hd
      rw [length_encoded (payload_of_connect ha), Payload.packetLength]
      decide
    · rw [dispatch_of_announce requestInterval db ha] at hd
      exact length_handleAnnounce_le ha hd
    · rw [dispatch_of_scrape requestInterval db ha] at hd
      cases hd
      have hhashes := length_infoHashes_le uninit ep (haction ▸ ha) hsize
      refine (length_handleScrape db ha).trans_le ?_
      unfold largestReply
      omega
  · rw [dispatch_of_not_handled requestInterval db ha,
      if_neg (not_not.2 (errorMessage_accepted uninit m ep))] at hd
    cases hd
    decide

/-- **The packet buffer is never overrun**, whatever the database holds: the response to an accepted
datagram that itself fits in a packet is written inside the buffer, and the packet returned is what
was written. -/
theorem makeUDPResponse_fits {requestInterval : Int32} {db db' : TorrentDataBase}
    {datagram : Datagram} {request : Request} {response : Response}
    (hsize : datagram.message.length ≤ packetSize) (hparse : datagram.parse = .ok request)
    (haccepted : request.errorMessage = [])
    (hd : dispatch requestInterval db request = .ok (response, db')) :
    makeUDPResponse response = .ok response.encoded ∧ response.encoded.length ≤ packetSize := by
  have hm : rejection datagram.message = none := by
    by_contra hrejected
    obtain ⟨r, hr⟩ := Option.ne_none_iff_exists'.1 hrejected
    rw [Datagram.parse, parse_rejected _ _ _ hr] at hparse
    cases hparse
    exact errorMessage_ne_nil _ _ _ r haccepted
  rw [Datagram.parse, parse_accepted _ _ _ hm] at hparse
  cases hparse
  have hfit : response.encoded.length ≤ packetSize :=
    (length_encoded_of_dispatch hsize hd).trans (by decide)
  rw [makeUDPResponse_eq, if_pos hfit]
  exact ⟨rfl, hfit⟩

/-- **A request other than an announce is always answered**: nothing is drawn for it. -/
theorem exists_reply_of_not_announce (requestInterval : Int32) (db : TorrentDataBase)
    (datagram : Datagram) (hm : rejection datagram.message = none)
    (hsize : datagram.message.length ≤ packetSize) (ha : actionAt datagram.message ≠ .announce) :
    ∃ packet db', processRequest requestInterval db datagram = .ok (packet, db') := by
  have hparse := parse_accepted datagram.uninit datagram.message datagram.clientEndpoint hm
  have h16 := ((rejection_eq_none_iff _).1 hm).1
  obtain ⟨haction, -⟩ := header_of_parse h16 hparse
  obtain ⟨response, db', hd⟩ : ∃ response db', dispatch requestInterval db
      (acceptedRequest datagram.uninit datagram.message datagram.clientEndpoint)
        = .ok (response, db') := by
    by_cases hh : Handled (actionAt datagram.message)
    · rcases hh with hh | hh | hh
      · exact ⟨_, _, dispatch_of_connect requestInterval db (haction.trans hh)⟩
      · exact absurd hh ha
      · exact ⟨_, _, dispatch_of_scrape requestInterval db (haction.trans hh)⟩
    · exact ⟨_, _, dispatch_of_not_handled requestInterval db (haction ▸ hh)⟩
  have hfit := (length_encoded_of_dispatch hsize hd).trans
    (show largestReply ≤ packetSize by decide)
  exact ⟨_, db', processRequest_of_dispatch hparse hd hfit⟩

/-- A started announce that asks for as many peers as there can be. -/
def greedyAnnounce : Datagram :=
  ⟨WireRequest.encode (.announce 0 7 (.fill 1) (.fill 9) 0 5 0 .started 0 0 0x7FFFFFFF 6881),
    ⟨0, 0⟩, .zeroed⟩

/-- Three peers have joined, and the draws show them all: the announce lists the three, and the
packet has their entries after a header of twenty bytes. -/
theorem makeUDPResponse_fits_greedyAnnounce : ∃ packet₁ packet₂ packet₃ db request response db',
    Run (processRequest 60) (.empty [0, 1, 0, 1, 0, 2])
      [(startedFrom straight 2, packet₁), (startedFrom straight 3, packet₂),
        (startedFrom straight 4, packet₃)] db ∧
    greedyAnnounce.parse = .ok request ∧ dispatch 60 db request = .ok (response, db') ∧
    response.peers.length = 3 ∧ response.encoded.length = 20 + 6 * 3 ∧
    makeUDPResponse response = .ok response.encoded ∧ response.encoded.length ≤ packetSize := by
  have h₁ : Run (processRequest 60) (.empty [0, 1, 0, 1, 0, 2])
      [(startedFrom straight 2, _)] _ := .snoc .nil rfl
  have h₂ : Run (processRequest 60) _ ([_] ++ [(startedFrom straight 3, _)]) _ := .snoc h₁ rfl
  have hr : Run (processRequest 60) _ ([_, _] ++ [(startedFrom straight 4, _)]) _ := .snoc h₂ rfl
  have hparse : greedyAnnounce.parse
      = .ok (acceptedRequest .zeroed greedyAnnounce.message ⟨0, 0⟩) := rfl
  have hd : dispatch 60 hr.last (acceptedRequest .zeroed greedyAnnounce.message ⟨0, 0⟩)
      = .ok (_, _) := rfl
  exact ⟨_, _, _, _, _, _, _, hr, hparse, hd, rfl, rfl,
    makeUDPResponse_fits (by decide) hparse rfl hd⟩

end TorrentX
