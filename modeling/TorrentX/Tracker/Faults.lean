import TorrentX.Tracker.ReplySize
import TorrentX.Tracker.Service

/-!
# Tracker/Faults — how the server can fail

In a database that runs reach, the selection loop divides by no zero and asks for no rank that no
entry has; it returns exactly when the draws show as many entries as the clamps leave
(`selectPeers_cases`), and else it is still drawing.  No update dereferences an end iterator,
and no reply overruns the packet buffer, whether or not its datagram was accepted.

The text of a datagram below the header size is a view of a string that is gone.  `processRequest`
takes whatever bytes are there; `Checked.processRequest` is the same with each load of them a fault,
and it differs exactly where the text is sent (`Checked.processRequest_eq`).

So a datagram makes the server fail in three ways only: its reply loads the text that is gone, it
reaches the announce handler without a hash, or the draws do not suffice
(`processRequest_error_iff`).
-/

namespace TorrentX

open Wire TorrentDataBase

/-! ## When does the selection loop return?

A draw shows the entry of its rank.  The loop goes on until it has as many entries as the clamps
leave, so all that matters of the draws is which entries they show. -/

section Selection

variable {peerSet : PeerSet} {numWant : Int32} {draws : List UInt32} {selected : List Peer}

/-- The entries that a sequence of draws shows. -/
def drawn (peerSet : PeerSet) (draws : List UInt32) : Finset Peer :=
  (draws.filterMap fun draw => peerSet.nth (draw.toNat % peerSet.size)).toFinset

/-- Selecting an entry adds it and no other, when no two entries share a key. -/
theorem Selected.toFinset_draw (hs : Selected peerSet selected)
    (hkey : peerSet.elems.Pairwise fun p q => p.peerId < q.peerId) {p : Peer}
    (hp : p ∈ peerSet.elems) :
    (OrderedSet.insert Peer.peerId p selected).toFinset = insert p selected.toFinset := by
  ext q
  rw [List.mem_toFinset, Finset.mem_insert, List.mem_toFinset]
  refine ⟨OrderedSet.mem_insert, ?_⟩
  rintro (rfl | hq)
  · exact hs.mem_draw hkey hp
  · exact OrderedSet.mem_insert_of_mem hq

/-- A draw from a table with entries shows one of them. -/
theorem nth_draw (peerSet : PeerSet) (hsize : peerSet.size ≠ 0) (draw : UInt32) :
    ∃ p ∈ peerSet.elems, peerSet.nth (draw.toNat % peerSet.size) = some p := by
  have hrank : draw.toNat % peerSet.size < peerSet.elems.length :=
    Nat.mod_lt _ (Nat.pos_of_ne_zero hsize)
  exact ⟨_, List.getElem_mem hrank, List.getElem?_eq_getElem hrank⟩

/-- One draw more shows one entry more. -/
theorem drawn_cons {draw : UInt32} {p : Peer}
    (h : peerSet.nth (draw.toNat % peerSet.size) = some p) (draws : List UInt32) :
    drawn peerSet (draw :: draws) = insert p (drawn peerSet draws) := by
  have hcons : (draw :: draws).filterMap (fun draw => peerSet.nth (draw.toNat % peerSet.size))
      = p :: draws.filterMap fun draw => peerSet.nth (draw.toNat % peerSet.size) :=
    List.filterMap_cons_some h
  rw [drawn, hcons, List.toFinset_cons]
  rfl

/-- What is selected is part of what is selected and drawn. -/
theorem Selected.length_le (hs : Selected peerSet selected) (shown : Finset Peer) :
    selected.length ≤ (selected.toFinset ∪ shown).card := by
  rw [← List.toFinset_card_of_nodup hs.nodup]
  exact Finset.card_le_card Finset.subset_union_left

/-- **The loop returns or runs out of draws**, and it returns exactly when what is selected and what
is drawn make up as many entries as are asked for. -/
theorem selectPeers_cases (hs : Selected peerSet selected)
    (hkey : peerSet.elems.Pairwise fun p q => p.peerId < q.peerId)
    (hlen : selected.length ≤ numWant.toInt.toNat) (hsize : numWant.toInt.toNat ≤ peerSet.size) :
    (∃ r, selectPeers peerSet numWant draws selected = .ok r) ∧
        numWant.toInt.toNat ≤ (selected.toFinset ∪ drawn peerSet draws).card ∨
      selectPeers peerSet numWant draws selected = .error .drawsExhausted ∧
        (selected.toFinset ∪ drawn peerSet draws).card < numWant.toInt.toNat := by
  induction draws generalizing selected with
  | nil =>
    have hcard : (selected.toFinset ∪ drawn peerSet []).card = selected.length := by
      rw [← List.toFinset_card_of_nodup hs.nodup]
      exact congrArg Finset.card (Finset.union_empty _)
    rw [selectPeers, hcard]
    simp only [ofNat_lt_iff hlen]
    by_cases hlt : selected.length < numWant.toInt.toNat
    · exact .inr ⟨if_pos hlt, hlt⟩
    · exact .inl ⟨⟨_, if_neg hlt⟩, Nat.not_lt.1 hlt⟩
  | cons draw draws ih =>
    rw [selectPeers]
    simp only [ofNat_lt_iff hlen]
    by_cases hlt : selected.length < numWant.toInt.toNat
    · obtain ⟨p, hp, hnth⟩ := nth_draw peerSet (by omega) draw
      have hle := OrderedSet.length_insert_le Peer.peerId p selected
      have hcover : selected.toFinset ∪ drawn peerSet (draw :: draws)
          = (OrderedSet.insert Peer.peerId p selected).toFinset ∪ drawn peerSet draws := by
        rw [hs.toFinset_draw hkey hp, drawn_cons hnth, Finset.insert_union, Finset.union_insert]
      rw [if_pos hlt, if_neg (by omega), hnth, hcover]
      exact ih (hs.draw hp) (by omega)
    · rw [if_neg hlt]
      exact .inl ⟨⟨_, rfl⟩, (Nat.not_lt.1 hlt).trans (hs.length_le _)⟩

/-- The clamps leave no more than there are entries. -/
theorem toNat_clampNumWant_le_size (numWant : Int32) (n : ℕ) :
    (clampNumWant numWant n).toInt.toNat ≤ n := by
  have hwrap : (Int32.ofNat n).toInt ≤ n := by
    rw [Int32.toInt_ofNat', Int.bmod_def]
    have hsize : ((Int32.size : ℕ) : ℤ) = 2 ^ 32 := rfl
    have hmod := Int.emod_add_mul_ediv (n : ℤ) (2 ^ 32)
    rw [hsize]
    split <;> omega
  rw [toInt_clampNumWant]
  omega

end Selection

/-! ## One datagram -/

section Datagram

variable {requestInterval : Int32} {db : TorrentDataBase} {d : Datagram} {request : Request}

/-- A request that does not reach the announce handler has hashes only if it was accepted. -/
theorem infoHashes_of_rejection {uninit : Uninit} {m : Bytes} {ep : SockaddrIn} {r : Rejection}
    (hr : rejection m = some r) (ha : (rejectedRequest uninit m ep r).action ≠ .announce) :
    (rejectedRequest uninit m ep r).infoHashes = [] := by
  cases r with
  | badEvent => exact absurd (applies_of_rejection hr).2.1 ha
  | _ => rfl

/-- **A datagram that does not reach the announce handler is answered**, accepted or not. -/
theorem exists_reply_of_reading (db : TorrentDataBase) (hparse : d.parse = .ok request)
    (ha : request.action ≠ .announce) (hsize : d.message.length ≤ packetSize) :
    ∃ packet db', processRequest requestInterval db d = .ok (packet, db') := by
  cases hr : rejection d.message with
  | none =>
    have h16 := ((rejection_eq_none_iff _).1 hr).1
    rw [(header_of_parse h16 hparse).1] at ha
    exact exists_reply_of_not_announce requestInterval db d hr hsize ha
  | some r =>
    obtain rfl : d.rejected r = request :=
      Except.ok.inj ((parse_rejected d.uninit _ d.clientEndpoint hr).symm.trans hparse)
    by_cases hh : Handled (d.rejected r).action
    · rcases hh with hc | hc | hc
      · have hlen := length_encoded (payload_of_connect (r := handleConnect (d.rejected r)) hc)
        refine ⟨_, _, processRequest_of_dispatch hparse
          (dispatch_of_connect requestInterval db hc) (hlen.trans_le ?_)⟩
        rw [Payload.packetLength]
        decide
      · exact absurd hc ha
      · have hlen := length_handleScrape db hc
        rw [infoHashes_of_rejection hr ha] at hlen
        exact ⟨_, _, processRequest_of_dispatch hparse (dispatch_of_scrape requestInterval db hc)
          (hlen.trans_le (by decide))⟩
    · exact ⟨_, _, processRequest_of_not_handled hr hh⟩

/-- The handler reads the first of no hashes. -/
theorem processRequest_of_no_hash (db : TorrentDataBase) (hparse : d.parse = .ok request)
    (ha : request.action = .announce) (hnil : request.infoHashes = []) :
    processRequest requestInterval db d = .error .emptyVector := by
  rw [processRequest_of_parse requestInterval db hparse, dispatch_of_announce requestInterval db ha,
    handleAnnounce, hnil]
  rfl

/-- The draws show fewer entries than the announce is to list. -/
def Datagram.Starved (db : TorrentDataBase) (d : Datagram) : Prop :=
  d.Announces ∧ (drawn (db.torrent d.infoHash).allPeers db.random).card
    < (clampNumWant d.numWant (db.torrent d.infoHash).allPeers.size).toInt.toNat

instance (db : TorrentDataBase) (d : Datagram) : Decidable (d.Starved db) :=
  inferInstanceAs (Decidable (_ ∧ _))

/-- **What happens to an announce**: it is answered, or the selection runs out of draws. -/
theorem processRequest_announce_cases
    (hkey : (db.torrent d.infoHash).allPeers.elems.Pairwise fun p q => p.peerId < q.peerId)
    (hroom : (db.torrent d.infoHash).allPeers.elems.length < RankedSet.maxSize)
    (hparse : d.parse = .ok request) (hspells : request.Spells d) (hd : d.Announces) :
    (∃ packet db', processRequest requestInterval db d = .ok (packet, db')) ∧ ¬ d.Starved db ∨
      processRequest requestInterval db d = .error .drawsExhausted ∧ d.Starved db := by
  have hselect := @selectPeers_cases _ _ db.random _ (Selected.nil _) hkey (Nat.zero_le _)
    (toNat_clampNumWant_le_size d.numWant (db.torrent d.infoHash).allPeers.size)
  rw [List.toFinset_nil, Finset.empty_union] at hselect
  have hhandle := handleAnnounce_eq requestInterval db hspells.infoHashes
  rw [hspells.numWant] at hhandle
  rcases hselect with ⟨⟨⟨peers, draws⟩, hdrawn⟩, henough⟩ | ⟨hdrawn, hfew⟩
  · refine .inl ⟨?_, fun h => Nat.not_lt.2 henough h.2⟩
    obtain ⟨err, t', hu⟩ :=
      Torrent.exists_update (db.torrent d.infoHash) request.sender request.event hroom
    rw [bind_of_eq_ok hdrawn, bind_of_eq_ok hu] at hhandle
    have hlen := length_of_selectPeers (Nat.zero_le _) hdrawn
    refine ⟨_, _, processRequest_of_dispatch hparse
      ((dispatch_of_announce requestInterval db hspells.action).trans hhandle) ?_⟩
    refine (length_announceResponse_le requestInterval _ hspells.action ?_
      (Torrent.updates_of_update hu).length_error_le).trans (by decide)
    exact hlen.trans_le (toNat_clampNumWant_le _ _)
  · refine .inr ⟨?_, hd, hfew⟩
    rw [hdrawn] at hhandle
    rw [processRequest_of_parse requestInterval db hparse,
      dispatch_of_announce requestInterval db hspells.action, hhandle]
    rfl

end Datagram

/-! ## The text that is gone

`parse_UDP_request` puts the text of a short header together in a temporary string and keeps a view
of it.  The other texts are literals, and so is the one of an update that is refused.  The view is
copied to the response of an error; what loads from it is the loop of `make_UDP_response` over its
bytes, and `print_response`, under the same condition. -/

/-- The loop over the text of an error, with its loads checked. -/
def Checked.storeText (freed : Bool) (message : Bytes) (packet : Buffer packetSize) :
    Except Fault (Buffer packetSize) :=
  message.foldlM (fun packet symbol =>
    if freed then .error .readFreed else storeValue symbol packet) packet

/-- `make_UDP_response`, with the loads from the text checked. -/
def Checked.makeUDPResponse (freed : Bool) (response : Response) : Except Fault Bytes := do
  let packet ← storeValue response.action (.empty packetSize)
  let packet ← storeValue response.transactionId packet
  let packet ← storeIf (response.action = .connect) (storeValue response.connectionId) packet
  let packet ← storeIf (response.action = .announce) (storeAnnounce response) packet
  let packet ← storeIf (response.action = .scrape) (storeScrapes response.scrapeInfo) packet
  let packet ← storeIf (response.action = .error) (Checked.storeText freed response.errorMessage)
    packet
  return packet.bytes

/-- `process_request`, with the loads from the text of the reply checked.  A reply with a text to a
datagram below the header size has the text of its request, which names no torrent to update. -/
def Checked.processRequest (requestInterval : Int32) (db : TorrentDataBase) (datagram : Datagram) :
    Except Fault (Bytes × TorrentDataBase) := do
  let request ← parseUDPRequest datagram.uninit datagram.message datagram.clientEndpoint
  let (response, db) ← dispatch requestInterval db request
  let packet ← Checked.makeUDPResponse (datagram.message.length < connectRequestSize) response
  return (packet, db)

/-- The reply to the datagram has the text that is gone: the header is short, and the memory of the
action names no handler. -/
def Datagram.Dangles (d : Datagram) : Prop :=
  d.message.length < connectRequestSize ∧ ¬ Handled d.uninit.action

instance (d : Datagram) : Decidable d.Dangles := inferInstanceAs (Decidable (_ ∧ _))

/-- With no handler for it a datagram does not reach the one of an announce. -/
theorem not_hashless_of_dangles {d : Datagram} (h : d.Dangles) : ¬ d.Hashless := by
  intro hless
  have haction : d.uninit.action = .announce := (if_pos h.1).symm.trans hless.2
  exact h.2 (.inr (.inl haction))

theorem not_starved_of_dangles {d : Datagram} {db : TorrentDataBase} (h : d.Dangles) :
    ¬ d.Starved db := fun hstarved =>
  absurd (hstarved.1.1.trans_lt h.1) (by decide)

namespace Checked

variable {requestInterval : Int32} {db : TorrentDataBase} {d : Datagram} {response : Response}

/-- A text that is there is loaded as it is. -/
theorem makeUDPResponse_of_live (response : Response) :
    Checked.makeUDPResponse false response = TorrentX.makeUDPResponse response := rfl

/-- A reply that is no error has no text to load. -/
theorem makeUDPResponse_of_ne (freed : Bool) (h : response.action ≠ .error) :
    Checked.makeUDPResponse freed response = TorrentX.makeUDPResponse response := by
  rw [Checked.makeUDPResponse, TorrentX.makeUDPResponse]
  simp only [storeIf, h, if_false]

/-- An error loads its text from the first byte on, after the two stores of its header. -/
theorem makeUDPResponse_of_freed (ha : response.action = .error)
    (htext : response.errorMessage ≠ []) :
    Checked.makeUDPResponse true response = .error .readFreed := by
  obtain ⟨symbol, message, hcons⟩ := List.exists_cons_of_ne_nil htext
  have hloop (packet : Buffer packetSize) :
      Checked.storeText true response.errorMessage packet = .error .readFreed := by
    rw [hcons]
    rfl
  have hheader : ∃ packet, (storeValue response.action (.empty packetSize) >>=
      storeValue response.transactionId) = .ok packet := by
    refine ⟨_, (Buffer.put_bind_put _ _ _).trans (Buffer.put_empty ?_)⟩
    rw [List.length_append, length_encode, length_encode]
    decide
  obtain ⟨packet, hpacket⟩ := hheader
  have hne : response.action ≠ .connect ∧ response.action ≠ .announce ∧
      response.action ≠ .scrape := by rw [ha]; decide
  rw [Checked.makeUDPResponse, ← bind_assoc, bind_of_eq_ok hpacket]
  simp only [storeIf, hne, if_false, pure_bind, if_pos ha, hloop]
  rfl

/-- A checked request sends what it makes of the response. -/
theorem processRequest_of_dispatch {request : Request} {db' : TorrentDataBase}
    (hparse : d.parse = .ok request)
    (hd : dispatch requestInterval db request = .ok (response, db')) :
    Checked.processRequest requestInterval db d
      = Checked.makeUDPResponse (d.message.length < connectRequestSize) response >>=
          fun packet => pure (packet, db') := by
  change d.parse >>= _ = _
  rw [bind_of_eq_ok hparse, bind_of_eq_ok hd]

/-- **The loads are checked exactly where the text is sent.** -/
theorem processRequest_eq (requestInterval : Int32) (db : TorrentDataBase) (d : Datagram) :
    Checked.processRequest requestInterval db d =
      if d.Dangles then .error .readFreed else TorrentX.processRequest requestInterval db d := by
  by_cases h16 : d.message.length < connectRequestSize
  · have hr : rejection d.message = some .shortHeader := if_pos h16
    have hparse : d.parse = .ok (d.rejected .shortHeader) :=
      parse_rejected d.uninit d.message d.clientEndpoint hr
    -- a handler that answers sends no text
    have hquiet {response : Response} {db' : TorrentDataBase} (ha : response.action ≠ .error)
        (hd : dispatch requestInterval db (d.rejected .shortHeader) = .ok (response, db')) :
        Checked.processRequest requestInterval db d
          = TorrentX.processRequest requestInterval db d := by
      rw [processRequest_of_dispatch hparse hd, makeUDPResponse_of_ne _ ha,
        processRequest_of_parse requestInterval db hparse, bind_of_eq_ok hd]
    by_cases hh : Handled d.uninit.action
    · rw [if_neg fun h : d.Dangles => h.2 hh]
      rcases hh with hc | hc | hc
      · exact hquiet (hc.trans_ne (by decide)) (dispatch_of_connect requestInterval db hc)
      · rw [processRequest_of_no_hash db hparse hc rfl]
        change d.parse >>= _ = _
        rw [bind_of_eq_ok hparse, dispatch_of_announce requestInterval db hc]
        rfl
      · exact hquiet (hc.trans_ne (by decide)) (dispatch_of_scrape requestInterval db hc)
    · have htext := errorMessage_ne_nil d.uninit d.message d.clientEndpoint .shortHeader
      rw [if_pos (show d.Dangles from ⟨h16, hh⟩), processRequest_of_dispatch hparse
        (dispatch_of_not_handled requestInterval db hh), if_pos htext, decide_eq_true h16,
        makeUDPResponse_of_freed rfl htext]
      rfl
  · rw [if_neg fun h : d.Dangles => h16 h.1, Checked.processRequest, decide_eq_false h16]
    simp only [makeUDPResponse_of_live]
    rfl

end Checked

/-! ## Any datagram, after any run -/

section Runs

variable {requestInterval : Int32} {random : List UInt32} {tr : List (Datagram × Bytes)}
  {db : TorrentDataBase}

/-- **All that can happen to a datagram**: it is answered, or it has no hash, or the draws do not
suffice. -/
theorem processRequest_cases (hr : Run (processRequest requestInterval) (.empty random) tr db)
    (hroom : tr.length < RankedSet.maxSize) {d : Datagram}
    (hsize : d.message.length ≤ packetSize) :
    (∃ packet db', processRequest requestInterval db d = .ok (packet, db')) ∧
        ¬ d.Hashless ∧ ¬ d.Starved db ∨
      processRequest requestInterval db d = .error .emptyVector ∧ d.Hashless ∧ ¬ d.Starved db ∨
      processRequest requestInterval db d = .error .drawsExhausted ∧ ¬ d.Hashless ∧
        d.Starved db := by
  obtain ⟨request, hparse, ⟨hd, hspells⟩ | ⟨hless, ha, hnil⟩ | ⟨hd, hless, ha⟩⟩ := request_cases d
  · have hless : ¬ d.Hashless := fun h => Nat.not_lt.2 hd.1 h.1
    rcases @processRequest_announce_cases requestInterval _ _ _
        (increasing_of_service hr _) ((length_le_of_service hr _).trans_lt hroom)
        hparse hspells hd with ⟨hok, hfed⟩ | ⟨herr, hstarved⟩
    · exact .inl ⟨hok, hless, hfed⟩
    · exact .inr (.inr ⟨herr, hless, hstarved⟩)
  · have hfed : ¬ d.Starved db := fun h => Nat.not_lt.2 h.1.1 hless.1
    exact .inr (.inl ⟨processRequest_of_no_hash db hparse ha hnil, hless, hfed⟩)
  · exact .inl ⟨exists_reply_of_reading db hparse ha hsize, hless, fun h => hd h.1⟩

/-- **The server fails in three ways only.**  After every run on any datagrams, accepted or not, the
next one makes it fail exactly if its reply loads the text of a short header, which is gone by then;
if it reaches the announce handler without a hash — the handler reads the first element of an empty
vector — or if the draws show fewer entries of the table than the reply is to list.  No other load,
and no store, rank, division or iterator, is ever out of place. -/
theorem processRequest_error_iff (hr : Run (processRequest requestInterval) (.empty random) tr db)
    (hroom : tr.length < RankedSet.maxSize) {d : Datagram}
    (hsize : d.message.length ≤ packetSize) (fault : Fault) :
    Checked.processRequest requestInterval db d = .error fault ↔
      fault = .readFreed ∧ d.Dangles ∨ fault = .emptyVector ∧ d.Hashless ∨
        fault = .drawsExhausted ∧ d.Starved db := by
  rw [Checked.processRequest_eq]
  by_cases hdangles : d.Dangles
  · have hless : ¬ d.Hashless := not_hashless_of_dangles hdangles
    have hfed : ¬ d.Starved db := not_starved_of_dangles hdangles
    rw [if_pos hdangles, Except.error.injEq]
    simp [hdangles, hless, hfed, eq_comm]
  · rw [if_neg hdangles]
    rcases processRequest_cases hr hroom hsize with
      ⟨⟨packet, db', hok⟩, hless, hfed⟩ | ⟨herr, hless, hfed⟩ | ⟨herr, hless, hfed⟩
    · rw [hok]
      simp [hdangles, hless, hfed]
    · rw [herr, Except.error.injEq]
      simp [hdangles, hless, hfed, eq_comm]
    · rw [herr, Except.error.injEq]
      simp [hdangles, hless, hfed, eq_comm]

end Runs

/-- A datagram of seven bytes, in whose request the memory of the action happens to hold `a`. -/
def shortHeader (a : ActionType) : Datagram :=
  ⟨List.replicate 7 0, ⟨0, 0⟩, { Uninit.zeroed with action := a }⟩

/-- One peer has joined.  A header that says announce ends the server, and so does a second announce
of a whole layout when there is no number to draw; the reply to a datagram of seven bytes loads a
text that is gone. -/
theorem processRequest_error_iff_joined : ∃ packet db,
    Run (processRequest 60) (.empty []) [(startedFrom straight 2, packet)] db ∧
    Checked.processRequest 60 db (shortHeader .error) = .error .readFreed ∧
    Checked.processRequest 60 db (bareHeader .announce) = .error .emptyVector ∧
    Checked.processRequest 60 db (startedFrom straight 3) = .error .drawsExhausted := by
  have hr : Run (processRequest 60) (.empty []) [(startedFrom straight 2, _)] _ := .snoc .nil rfl
  refine ⟨_, _, hr, ?_, ?_, ?_⟩
  · exact (processRequest_error_iff hr (by decide) (by decide) _).2 (.inl ⟨rfl, by decide⟩)
  · exact (processRequest_error_iff hr (by decide) (by decide) _).2 (.inr (.inl ⟨rfl, by decide⟩))
  · exact (processRequest_error_iff hr (by decide) (by decide) _).2 (.inr (.inr ⟨rfl, by decide⟩))

end TorrentX
