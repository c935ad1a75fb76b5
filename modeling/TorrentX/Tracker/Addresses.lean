import TorrentX.Tracker.Dispatch
import TorrentX.Tracker.Sampling

/-!
# Tracker/Addresses — the addresses an announce reply hands out

A `sockaddr_in` keeps its address and port in network order.  On a little-endian host the integers
read in those fields have their bytes the other way round, the parser stores these integers as they
are, and the encoder writes them most significant byte first: the entry of a peer is its address
reversed (`peerEntry_eq_reversed`).

The server run of announces is a run of the database on the calls the datagrams spell
(`tracks_of_announces`), so every entry is the reversed address of a registered peer
(`handsOutReversed_of_run`).  The entries are addresses that registered peers were seen at in every
run whose tables hold, with each address, its reversal (`handsOutSeen_of_reversalClosed`).  A table
that does not may still be lucky in its draws; a reply that lists all of it is not
(`reversalClosed_of_handsOutSeen`).
-/

namespace TorrentX

open Wire TorrentDataBase

/-! ## Byte orders

The socket fills in `sockaddr_in` in network order, and `ntohl` is never called.  On a little-endian
host the integer that is read there has the first byte of the address as its lowest, and the encoder
writes that byte last. -/

/-- The six bytes of an endpoint as they lie in its `sockaddr_in` on a little-endian host: address
and port in network order. -/
def networkBytes (ep : SockaddrIn) : Bytes := encodeLE ep.sAddr ++ encodeLE ep.sinPort

/-- The six bytes with address and port each back to front. -/
def reversed (entry : Bytes) : Bytes := (entry.take 4).reverse ++ (entry.drop 4).reverse

/-- **An entry is an address reversed**: the integers of the socket, most significant byte first. -/
theorem peerEntry_eq_reversed {peer : Peer} {ep : SockaddrIn} (hip : peer.ip = ep.sAddr)
    (hport : peer.port = ep.sinPort) : peerEntry peer = reversed (networkBytes ep) := by
  have h4 : (encodeLE ep.sAddr).length = 4 := length_encodeLE _
  rw [reversed, networkBytes, List.take_left' h4, List.drop_left' h4, encodeLE_eq_reverse,
    encodeLE_eq_reverse, List.reverse_reverse, List.reverse_reverse, peerEntry, hip, hport]

/-! ## Announces and their sessions -/

/-- A well-formed announce. -/
def IsAnnounce (m : Bytes) : Prop := WellFormed m ∧ actionAt m = .announce

/-- The torrent an announce names. -/
def Datagram.infoHash (d : Datagram) : Hash := hashAt d.message 16

def Datagram.peerId (d : Datagram) : Hash := hashAt d.message 36

/-- The call an announce makes. -/
def Datagram.call (d : Datagram) : Call where
  infoHash := d.infoHash
  peer := (announced d.uninit d.message d.clientEndpoint).sender
  event := eventAt d.message

/-- A `STARTED` announce opens a session and a `STOPPED` one closes it. -/
def announceSessions : SessionLog Datagram :=
  ⟨sessions.joins ∘ Datagram.call, sessions.leaves ∘ Datagram.call,
    sessions.finishes ∘ Datagram.call⟩

/-- The announce by which a peer joined a torrent, if it has not left since. -/
def joiningAnnounce (log : List Datagram) (infoHash peerId : Hash) : Option Datagram :=
  (announceSessions.session
    (log.filter fun d => d.infoHash = infoHash ∧ d.peerId = peerId)).map Prod.fst

/-- The opening call of a session is that of the joining announce. -/
theorem membership_call (log : List Datagram) (h pid : Hash) :
    (membership (log.map Datagram.call) h pid).map Prod.fst
      = (joiningAnnounce log h pid).map Datagram.call := by
  have hfilter : callsOf (log.map Datagram.call) h pid
      = (log.filter fun d => d.infoHash = h ∧ d.peerId = pid).map Datagram.call :=
    List.filter_map ..
  rw [membership, hfilter, SessionLog.session_map, joiningAnnounce, Option.map_map, Option.map_map]
  rfl

/-! ## One announce

The list of a reply is drawn before the table is updated, so it is a list of entries that were there
when the announce came. -/

variable {requestInterval : Int32} {db db' : TorrentDataBase} {d : Datagram} {packet : Bytes}

/-- The request of a well-formed announce makes the call it spells. -/
theorem request_of_announce (ha : IsAnnounce d.message) : ∃ request,
    parseUDPRequest d.uninit d.message d.clientEndpoint = .ok request ∧
    request.action = .announce ∧ request.infoHashes = [d.infoHash] ∧
    request.sender = d.call.peer ∧ request.event = d.call.event := by
  refine ⟨_, parse_accepted d.uninit d.message d.clientEndpoint
    ((rejection_eq_none_iff _).2 ha.1), ?_⟩
  rw [acceptedRequest, if_pos ha.2]
  exact ⟨ha.2, rfl, rfl, rfl⟩

/-- The entries of an announce packet are those of its peers. -/
theorem entriesOf_announce {r : Response} (hm : makeUDPResponse r = .ok packet)
    (ha : r.action = .announce) : entriesOf 6 (packet.drop 20) = r.peers.map peerEntry := by
  rw [makeUDPResponse_eq, (encoded_of_payload (payload_of_announce ha)).2] at hm
  split at hm
  · obtain rfl := Except.ok.inj hm
    rw [Payload.bytes, ← List.append_assoc, List.drop_left' (by simp),
      entriesOf_flatMap addressEntry (by omega) length_addressEntry, List.map_map]
    rfl
  · cases hm

/-- **What an announce does when it is answered**: it updates the torrent it names by the call it
spells, and an announce reply lists entries of the table before. -/
theorem announce_ok (ha : IsAnnounce d.message)
    (h : processRequest requestInterval db d = .ok (packet, db')) :
    (∃ err t', (db.torrent d.infoHash).Updates d.call.peer d.call.event err t' ∧
      db'.torrent = Function.update db.torrent d.infoHash t') ∧
    (slice packet 0 4 = encode ActionType.announce → ∀ entry ∈ entriesOf 6 (packet.drop 20),
      ∃ p ∈ (db.torrent d.infoHash).allPeers.elems, entry = peerEntry p) := by
  obtain ⟨request, hparse, haction, hhash, hsender, hevent⟩ := request_of_announce ha
  obtain ⟨response, hd, hm⟩ := processRequest_ok hparse h
  rw [dispatch_of_announce requestInterval db haction] at hd
  obtain ⟨infoHash, rest, peers, draws, err, t', hcons, hdrawn, hu, hresp, rfl⟩ :=
    handleAnnounce_ok hd
  obtain rfl : d.infoHash = infoHash := (List.cons.inj (hhash.symm.trans hcons)).1
  rw [hsender, hevent] at hu
  refine ⟨⟨err, t', Torrent.updates_of_update hu, torrent_set db _ t'⟩,
    fun hreply entry hentry => ?_⟩
  have hkind : response.action = .announce :=
    encode_injective ((header_of_makeUDPResponse hm).1.symm.trans hreply)
  rw [entriesOf_announce hm hkind] at hentry
  obtain ⟨p, hpeer, rfl⟩ := List.mem_map.1 hentry
  unfold announceResponse at hresp
  split_ifs at hresp with herr
  · -- an error response is no announce response
    rw [hresp] at hkind
    exact absurd hkind (by simp [handleError, ActionType.error, ActionType.announce])
  · rw [hresp] at hpeer
    exact ⟨p, (selected_of_selectPeers (Selected.nil _) hdrawn).entries p hpeer, rfl⟩

/-! ## Runs of announces -/

/-- The datagrams of a trace. -/
abbrev datagramsIn (tr : List (Datagram × Bytes)) : List Datagram := tr.map Prod.fst

/-- **After a run of announces the tables are the open sessions of their calls.** -/
theorem tracks_of_announces {random : List UInt32} {tr : List (Datagram × Bytes)}
    (hr : Run (processRequest requestInterval) (.empty random) tr db)
    (ha : ∀ d ∈ datagramsIn tr, IsAnnounce d.message) :
    Tracks ((datagramsIn tr).map Datagram.call) db.torrent := by
  induction hr with
  | nil => exact tracks_empty random
  | @snoc tr t u d packet _ hs ih =>
    rw [datagramsIn, List.map_append, List.forall_mem_append] at ha
    obtain ⟨⟨err, t', hu, htorrent⟩, -⟩ := announce_ok (ha.2 d (by simp)) hs
    rw [datagramsIn, List.map_append, List.map_append, htorrent]
    exact tracks_update (ih ha.1) hu

/-- An address at which a registered peer of a torrent was seen when it joined: the peer has an
entry, and the address is that of its joining announce. -/
def SeenAt (log : List Datagram) (db : TorrentDataBase) (infoHash : Hash) (address : Bytes) :
    Prop :=
  ∃ p ∈ (db.torrent infoHash).allPeers.elems, ∃ d,
    joiningAnnounce log infoHash p.peerId = some d ∧ address = networkBytes d.clientEndpoint

/-- An announce reply hands out addresses at which registered peers were seen. -/
def HandsOutSeen (log : List Datagram) (db : TorrentDataBase) (infoHash : Hash) (packet : Bytes) :
    Prop :=
  slice packet 0 4 = encode ActionType.announce →
    ∀ entry ∈ entriesOf 6 (packet.drop 20), SeenAt log db infoHash entry

/-- With each address at which a registered peer was seen, its reversal is one too. -/
def ReversalClosed (log : List Datagram) (db : TorrentDataBase) (infoHash : Hash) : Prop :=
  ∀ address, SeenAt log db infoHash address → SeenAt log db infoHash (reversed address)

/-- The entry of a registered peer is the reversal of the address it was seen at. -/
theorem peerEntry_of_tracks {log : List Datagram} (ht : Tracks (log.map Datagram.call) db.torrent)
    {h : Hash} {p : Peer} (hp : p ∈ (db.torrent h).allPeers.elems) :
    ∃ d, joiningAnnounce log h p.peerId = some d ∧
      peerEntry p = reversed (networkBytes d.clientEndpoint) := by
  have hkey : p ∈ (db.torrent h).allPeers.withKey p.peerId :=
    List.mem_filter.2 ⟨hp, by simp⟩
  rw [ht h p.peerId, Option.mem_toList, Option.map_eq_some_iff] at hkey
  obtain ⟨s, hs, hstored⟩ := hkey
  have hjoin := membership_call log h p.peerId
  rw [hs, Option.map_some, eq_comm, Option.map_eq_some_iff] at hjoin
  obtain ⟨d, hd, hcall⟩ := hjoin
  have hip : p.ip = d.clientEndpoint.sAddr := by
    rw [← hstored]
    exact congrArg (fun c : Call => c.peer.ip) hcall.symm
  have hport : p.port = d.clientEndpoint.sinPort := by
    rw [← hstored]
    exact congrArg (fun c : Call => c.peer.port) hcall.symm
  exact ⟨d, hd, peerEntry_eq_reversed hip hport⟩

/-- An announce reply hands out the reversals of addresses at which registered peers were seen. -/
def HandsOutReversed (log : List Datagram) (db : TorrentDataBase) (infoHash : Hash)
    (packet : Bytes) : Prop :=
  slice packet 0 4 = encode ActionType.announce →
    ∀ entry ∈ entriesOf 6 (packet.drop 20),
      ∃ address, SeenAt log db infoHash address ∧ entry = reversed address

section Runs

variable {random : List UInt32} {tr : List (Datagram × Bytes)}

/-- **Every address is handed out reversed**, in every run of announces. -/
theorem handsOutReversed_of_run (hr : Run (processRequest requestInterval) (.empty random) tr db)
    (ha : ∀ d ∈ datagramsIn tr, IsAnnounce d.message) :
    EveryStep (processRequest requestInterval) (.empty random)
      (fun pre t x _ => HandsOutReversed (datagramsIn pre) t x.1.infoHash x.2) tr := by
  induction hr with
  | nil => exact everyStep_nil
  | @snoc tr t u d packet hr hs ih =>
    rw [datagramsIn, List.map_append, List.forall_mem_append] at ha
    refine (everyStep_snoc (x := (d, packet)) hr hs).2 ⟨ih ha.1, fun hreply entry he => ?_⟩
    obtain ⟨p, hp, rfl⟩ := (announce_ok (ha.2 d (by simp)) hs).2 hreply entry he
    obtain ⟨d', hjoin, hentry⟩ := peerEntry_of_tracks (tracks_of_announces hr ha.1) hp
    exact ⟨_, ⟨p, hp, d', hjoin, rfl⟩, hentry⟩

/-- **When the addresses handed out are those the peers were seen at**: in a run of announces, each
finding with every address of the torrent's registered peers also its reversal, every announce
reply hands out addresses at which registered peers were seen. -/
theorem handsOutSeen_of_reversalClosed
    (hr : Run (processRequest requestInterval) (.empty random) tr db)
    (ha : ∀ d ∈ datagramsIn tr, IsAnnounce d.message)
    (hclosed : EveryStep (processRequest requestInterval) (.empty random)
      (fun pre t x _ => ReversalClosed (datagramsIn pre) t x.1.infoHash) tr) :
    EveryStep (processRequest requestInterval) (.empty random)
      (fun pre t x _ => HandsOutSeen (datagramsIn pre) t x.1.infoHash x.2) tr := by
  intro pre x post t u htr hpre hs hreply entry he
  obtain ⟨address, hseen, rfl⟩ :=
    handsOutReversed_of_run hr ha pre x post t u htr hpre hs hreply entry he
  exact hclosed pre x post t u htr hpre hs address hseen

/-- **A reply that lists the whole table** hands out addresses that were seen only if the table has
the reversal of each. -/
theorem reversalClosed_of_handsOutSeen
    (hr : Run (processRequest requestInterval) (.empty random) tr db)
    (ha : ∀ d ∈ datagramsIn tr, IsAnnounce d.message) {h : Hash}
    (hreply : slice packet 0 4 = encode ActionType.announce)
    (hall : ∀ p ∈ (db.torrent h).allPeers.elems, peerEntry p ∈ entriesOf 6 (packet.drop 20))
    (hseen : HandsOutSeen (datagramsIn tr) db h packet) :
    ReversalClosed (datagramsIn tr) db h := by
  rintro address ⟨p, hp, d, hjoin, rfl⟩
  obtain ⟨d', hjoin', hentry⟩ := peerEntry_of_tracks (tracks_of_announces hr ha) hp
  obtain rfl : d = d' := Option.some.inj (hjoin.symm.trans hjoin')
  exact hentry ▸ hseen hreply _ (hall p hp)

end Runs

/-- A joining announce is in the log. -/
theorem mem_of_joiningAnnounce {log : List Datagram} {h pid : Hash} {d : Datagram}
    (hd : joiningAnnounce log h pid = some d) : d ∈ log := by
  obtain ⟨s, hs, rfl⟩ := Option.map_eq_some_iff.1 hd
  exact List.mem_of_mem_filter (announceSessions.mem_of_session hs)

/-- A started announce of the peer whose id repeats `pid`. -/
def startedRequest (pid : UInt8) : WireRequest :=
  .announce 0 7 (.fill 1) (.fill pid) 0 5 0 .started 0 0 (-1) 6881

def startedFrom (ep : SockaddrIn) (pid : UInt8) : Datagram :=
  ⟨(startedRequest pid).encode, ep, .zeroed⟩

/-- A started announce that is encoded by its layout is well formed. -/
theorem isAnnounce_startedFrom (ep : SockaddrIn) (pid : UInt8) :
    IsAnnounce (startedFrom ep pid).message := by
  have hvalid : (startedRequest pid).Valid := by
    change Defined EventType.started.code
    decide
  exact ⟨WireRequest.wellFormed_encode hvalid, rfl⟩

/-- The endpoint 1.2.3.4:6881 as a little-endian host reads it. -/
def straight : SockaddrIn := ⟨0x04030201, 0xE11A⟩

/-- The peer at 1.2.3.4:6881 is handed out as 4.3.2.1:57626. -/
theorem not_handsOutSeen : ∃ packet₁ packet₂ db,
    Run (processRequest 60) (.empty [0])
      [(startedFrom straight 2, packet₁), (startedFrom straight 3, packet₂)] db ∧
    (∀ d ∈ [startedFrom straight 2, startedFrom straight 3], IsAnnounce d.message) ∧
    ¬ EveryStep (processRequest 60) (.empty [0])
      (fun pre t x _ => HandsOutSeen (datagramsIn pre) t x.1.infoHash x.2)
      [(startedFrom straight 2, packet₁), (startedFrom straight 3, packet₂)] := by
  have h₁ : Run (processRequest 60) (.empty [0]) [(startedFrom straight 2, _)] _ := .snoc .nil rfl
  have h₂ : Run (processRequest 60) (.empty [0]) ([_] ++ [(startedFrom straight 3, _)]) _ :=
    .snoc h₁ rfl
  refine ⟨_, _, _, h₂, ?_, fun hall => ?_⟩
  · intro d hd
    rcases List.mem_pair.1 hd with rfl | rfl <;> exact isAnnounce_startedFrom _ _
  · have hlast := ((everyStep_snoc h₁ rfl).1 hall).2 rfl [4, 3, 2, 1, 0xE1, 0x1A] (by decide)
    obtain ⟨p, -, d, hd, haddress⟩ := hlast
    have hmem : d ∈ [startedFrom straight 2] := mem_of_joiningAnnounce hd
    obtain rfl := List.mem_singleton.1 hmem
    exact absurd haddress (by decide)

/-- The endpoint 1.2.2.1:257, whose address and port read the same both ways. -/
def palindrome : SockaddrIn := ⟨0x01020201, 0x0101⟩

theorem handsOutSeen_palindrome : ∃ packet₁ packet₂ db,
    Run (processRequest 60) (.empty [0])
      [(startedFrom palindrome 2, packet₁), (startedFrom palindrome 3, packet₂)] db ∧
    entriesOf 6 (packet₂.drop 20) = [[1, 2, 2, 1, 1, 1]] ∧
    EveryStep (processRequest 60) (.empty [0])
      (fun pre t x _ => HandsOutSeen (datagramsIn pre) t x.1.infoHash x.2)
      [(startedFrom palindrome 2, packet₁), (startedFrom palindrome 3, packet₂)] := by
  have h₁ : Run (processRequest 60) (.empty [0]) [(startedFrom palindrome 2, _)] _ := .snoc .nil rfl
  have h₂ : Run (processRequest 60) (.empty [0]) ([_] ++ [(startedFrom palindrome 3, _)]) _ :=
    .snoc h₁ rfl
  refine ⟨_, _, _, h₂, rfl, handsOutSeen_of_reversalClosed h₂ ?_ ?_⟩
  · intro d hd
    rcases List.mem_pair.1 hd with rfl | rfl <;> exact isAnnounce_startedFrom _ _
  · refine (everyStep_snoc h₁ rfl).2 ⟨(everyStep_snoc .nil rfl).2 ⟨everyStep_nil, ?_⟩, ?_⟩
    · rintro address ⟨p, hp, -⟩
      exact absurd hp (by simp)
    · rintro address ⟨p, hp, d, hd, rfl⟩
      have hmem : d ∈ [startedFrom palindrome 2] := mem_of_joiningAnnounce hd
      have hreversed :
          reversed (networkBytes d.clientEndpoint) = networkBytes d.clientEndpoint := by
        rw [List.mem_singleton.1 hmem]
        decide
      exact ⟨p, hp, d, hd, hreversed⟩

end TorrentX
