import TorrentX.Tracker.Service

/-!
# Tracker/Replies — the replies of the tracker, from the calls alone

What a tracker should answer is a matter of the calls made so far: who has an open session, at which
address it was opened, and what each peer's own calls come to.  `Replies` says so for every request
of the protocol, without a table, a counter or a draw.

The server refines it (`repliedTo_of_run`): in every run, among any other datagrams, each
well-formed one is answered by a packet that reads as a reply to the request it spells.  Reading the
packet and spelling the request are those of the protocol's layouts, so this is the server as its
clients see it.
-/

namespace TorrentX

open Wire TorrentDataBase

/-! ## The tracker as it should answer

All that is known of a peer is what it called.  Counters are sums over the accounts of the peers,
and the list of an announce is left open as far as draws decide it: any members will do, as many as
there should be. -/

section Abstract

variable (calls : List Call) (infoHash : Hash)

/-- A count of a torrent: the sum over the accounts of its peers. -/
def totalOf (count : Account → UInt64) : UInt64 :=
  Ledger.total Call.peerId (fun log => count (account log)) (callsOn calls infoHash)

/-- The ids with an open session on a torrent. -/
def members : Finset Hash :=
  ((callsOn calls infoHash).map Call.peerId).toFinset.filter fun peerId =>
    (membership calls infoHash peerId).isSome

/-- The address at which the open session of a peer was opened. -/
def addressOf (peerId : Hash) : Option (UInt32 × UInt16) :=
  (membership calls infoHash peerId).map fun s => (s.1.peer.ip, s.1.peer.port)

/-- Addresses of members in the order of their ids, none of them twice, as many as there are and as
the request and the maximum allow. -/
def Lists (numWant : Int32) (addresses : List (UInt32 × UInt16)) : Prop :=
  ∃ peerIds : List Hash, peerIds.Pairwise (· < ·) ∧
    (∀ peerId ∈ peerIds, peerId ∈ members calls infoHash) ∧
    peerIds.length = min (members calls infoHash).card (min 150 (wanted numWant)) ∧
    addresses = peerIds.filterMap (addressOf calls infoHash)

/-- The entry of a scrape. -/
def scrapeFrom : Scrape where
  complete := toInt32 (totalOf calls infoHash Account.seeders)
  downloaded := toInt32 (totalOf calls infoHash Account.downloads)
  incomplete := toInt32 (totalOf calls infoHash Account.leechers)

end Abstract

/-- **The replies to a request**: the transaction and the payload, after some calls.  A completion
with bytes left is refused to a member.  A request with the action of an error is answered as a
connect that was never made. -/
def Replies (requestInterval : Int32) (calls : List Call) :
    WireRequest → Int32 → Payload → Prop
  | .connect connectionId transactionId, t, p => t = transactionId ∧ p = .connect connectionId
  | .announce _ transactionId infoHash peerId _ left _ event _ _ numWant _, t, p =>
    t = transactionId ∧
      if event = .completed ∧ left ≠ 0 ∧ peerId ∈ members calls infoHash then
        p = .error (text "Not completed actually")
      else
        ∃ addresses, Lists calls infoHash numWant addresses ∧
          p = .announce requestInterval (toInt32 (totalOf calls infoHash Account.leechers))
            (toInt32 (totalOf calls infoHash Account.seeders)) addresses
  | .scrape _ transactionId infoHashes, t, p =>
    t = transactionId ∧ p = .scrape (infoHashes.map (scrapeFrom calls))
  | .error _ _, t, p => t = 0 ∧ p = .connect 0

/-- The call that a request makes, when it comes from an endpoint. -/
def WireRequest.call (clientEndpoint : SockaddrIn) : WireRequest → Option Call
  | .announce _ _ infoHash peerId downloaded left uploaded event _ _ _ _ =>
    some ⟨infoHash, ⟨clientEndpoint.sAddr, clientEndpoint.sinPort, peerId, downloaded, left,
      uploaded, false⟩, event⟩
  | _ => none

/-! ## The tables hold what the calls say -/

section Tables

variable {calls : List Call} {torrents : Hash → Torrent} {h : Hash}

/-- A member has an open session. -/
theorem mem_members_iff (calls : List Call) (h pid : Hash) :
    pid ∈ members calls h ↔ ∃ s, membership calls h pid = some s := by
  rw [members, Finset.mem_filter, Option.isSome_iff_exists]
  refine and_iff_right_of_imp ?_
  rintro ⟨s, hs⟩
  have hmem := List.mem_filter.1 (sessions.mem_of_session hs)
  obtain ⟨hh, hp⟩ := of_decide_eq_true hmem.2
  refine List.mem_toFinset.2 (List.mem_map.2 ⟨s.1, ?_, hp⟩)
  exact List.mem_filter.2 ⟨hmem.1, decide_eq_true hh⟩

/-- The entries of a table are those of the open sessions. -/
theorem Tracks.mem_elems_iff (ht : Tracks calls torrents) (h : Hash) (p : Peer) :
    p ∈ (torrents h).allPeers.elems ↔
      ∃ s, membership calls h p.peerId = some s ∧ storedEntry s = p := by
  have hkey : p ∈ (torrents h).allPeers.withKey p.peerId ↔ p ∈ (torrents h).allPeers.elems := by
    rw [RankedSet.mem_withKey]
    exact and_iff_left rfl
  rw [← hkey, ht h p.peerId, Option.mem_toList, Option.map_eq_some_iff]

/-- The entry of a session has the id of its peer. -/
theorem peerId_storedEntry {pid : Hash} {s : Call × Bool} (hs : membership calls h pid = some s) :
    (storedEntry s).peerId = pid :=
  (of_decide_eq_true (List.mem_filter.1 (sessions.mem_of_session hs)).2).2

/-- **A table has as many entries as there are members.** -/
theorem Tracks.size_eq (ht : Tracks calls torrents) (h : Hash) :
    (torrents h).allPeers.size = (members calls h).card := by
  have hlt := RankedSet.pairwise_lt (ht.length_withKey_le h)
  have hnodup : ((torrents h).allPeers.elems.map Peer.peerId).Nodup :=
    List.pairwise_map.2 (hlt.imp ne_of_lt)
  have hids : ((torrents h).allPeers.elems.map Peer.peerId).toFinset = members calls h := by
    ext pid
    rw [List.mem_toFinset, List.mem_map, mem_members_iff]
    constructor
    · rintro ⟨p, hp, rfl⟩
      obtain ⟨s, hs, -⟩ := (ht.mem_elems_iff h p).1 hp
      exact ⟨s, hs⟩
    · rintro ⟨s, hs⟩
      have hpid := peerId_storedEntry hs
      exact ⟨storedEntry s, (ht.mem_elems_iff h _).2 ⟨s, by rwa [hpid], rfl⟩, hpid⟩
  rw [← hids, List.toFinset_card_of_nodup hnodup, List.length_map]
  rfl

/-- **A list drawn lists members at the addresses of their sessions.** -/
theorem Tracks.lists (ht : Tracks calls torrents) {numWant : Int32} {draws rest : List UInt32}
    {peers : List Peer} (hsmall : (torrents h).allPeers.size < 2 ^ 31)
    (hdrawn : selectPeers (torrents h).allPeers
      (clampNumWant numWant (torrents h).allPeers.size) draws [] = .ok (peers, rest)) :
    Lists calls h numWant (peers.map fun p => (p.ip, p.port)) := by
  have hs := selected_of_selectPeers (Selected.nil _) hdrawn
  have hentry : ∀ p ∈ peers, ∃ s, membership calls h p.peerId = some s ∧ storedEntry s = p :=
    fun p hp => (ht.mem_elems_iff h p).1 (hs.entries p hp)
  refine ⟨peers.map Peer.peerId, List.pairwise_map.2 hs.increasing, fun pid hpid => ?_, ?_, ?_⟩
  · obtain ⟨p, hp, rfl⟩ := List.mem_map.1 hpid
    obtain ⟨s, hsession, -⟩ := hentry p hp
    exact (mem_members_iff ..).2 ⟨s, hsession⟩
  · rw [List.length_map, length_of_selectPeers (Nat.zero_le _) hdrawn,
      toNat_clampNumWant numWant hsmall, ht.size_eq h]
  · rw [List.filterMap_map, ← List.filterMap_eq_map]
    refine List.filterMap_congr fun p hp => ?_
    obtain ⟨s, hsession, hstored⟩ := hentry p hp
    rw [Function.comp_apply, Function.comp_apply, addressOf, hsession, ← hstored]
    rfl

/-- The error of an update: a completion of a member that has bytes left. -/
theorem Torrent.Updates.error_eq {t t' : Torrent} {peer : Peer} {event : EventType} {err : Bytes}
    (hu : t.Updates peer event err t') :
    err = if event = .completed ∧ peer.left ≠ 0 ∧ (t.allPeers.find? peer.peerId).isSome then
      text "Not completed actually" else [] := by
  cases hu with
  | idle hc => rw [if_neg fun h => hc h.1]
  | refused old hc hf hleft => rw [if_pos ⟨hc, hleft, by rw [hf]; rfl⟩]
  | unknown _ hf => rw [if_neg fun h => by rw [hf] at h; exact absurd h.2.2 (by simp)]
  | repeated _ _ _ hleft => rw [if_neg fun h => h.2.1 hleft]
  | completes _ _ _ _ hleft => rw [if_neg fun h => h.2.1 hleft]
  | known _ hs => rw [if_neg fun h => absurd (hs.symm.trans h.1) (by decide)]
  | joins _ hs => rw [if_neg fun h => absurd (hs.symm.trans h.1) (by decide)]
  | leaves _ hs => rw [if_neg fun h => absurd (hs.symm.trans h.1) (by decide)]

end Tables

/-! ## What a request spells -/

section Wire

variable {r : Request}

theorem wire_of_connect (h : r.action = .connect) :
    r.wire = some (.connect r.connectionId r.transactionId) := if_pos h

/-- An announce spells its fields. -/
theorem wire_of_announce {infoHash : Hash} (h : r.action = .announce)
    (hh : r.infoHashes = [infoHash]) :
    r.wire = some (.announce r.connectionId r.transactionId infoHash r.sender.peerId
      r.sender.downloaded r.sender.left r.sender.uploaded r.event r.ip r.key r.numWant r.port) := by
  rw [Request.wire, if_neg (by rw [h]; decide), if_pos h, hh]
  rfl

theorem wire_of_scrape (h : r.action = .scrape) :
    r.wire = some (.scrape r.connectionId r.transactionId r.infoHashes) := by
  rw [Request.wire, if_neg (by rw [h]; decide), if_neg (by rw [h]; decide), if_pos h]

theorem wire_of_error (h : r.action = .error) :
    r.wire = some (.error r.connectionId r.transactionId) := by
  rw [Request.wire, if_neg (by rw [h]; decide), if_neg (by rw [h]; decide),
    if_neg (by rw [h]; decide), if_pos h]

/-- The packet of a response reads as its payload. -/
theorem decodePacket_of_make {response : Response} {p : Payload} {packet : Bytes}
    (hp : response.payload = some p) (h : makeUDPResponse response = .ok packet) :
    decodePacket packet = some (p.action, response.transactionId, p) := by
  obtain ⟨haction, hencoded⟩ := encoded_of_payload hp
  rw [makeUDPResponse_eq] at h
  split at h
  · obtain rfl := Except.ok.inj h
    rw [hencoded, decodePacket_header, haction, decodePayload_bytes p (length_packetHeader _)]
    rfl
  · cases h

end Wire

/-! ## One well-formed datagram -/

/-- The datagram spells a request, and the packet reads as a reply to it. -/
def RepliedTo (requestInterval : Int32) (calls : List Call) (d : Datagram) (packet : Bytes) :
    Prop :=
  ∃ request w t p, d.parse = .ok request ∧ request.wire = some w ∧
    d.makes = w.call d.clientEndpoint ∧ decodePacket packet = some (p.action, t, p) ∧
    Replies requestInterval calls w t p

section Step

variable {requestInterval : Int32} {calls : List Call} {db db' : TorrentDataBase} {d : Datagram}
  {packet : Bytes}

/-- An announce is answered by the list drawn from its table, or refused. -/
theorem repliedTo_of_announces (ht : Tracks calls db.torrent)
    (hsums : ∀ h, SumsAccounts calls h (db.torrent h))
    (hsmall : (db.torrent d.infoHash).allPeers.size < 2 ^ 31) (hd : d.Announces)
    (h : processRequest requestInterval db d = .ok (packet, db')) :
    RepliedTo requestInterval calls d packet := by
  obtain ⟨request, peers, draws, err, t', hparse, hspells, hdrawn, hu, hmake, -⟩ :=
    processRequest_of_announces hd h
  have herr := (Torrent.updates_of_update hu).error_eq
  have hmember : ((db.torrent d.infoHash).allPeers.find? d.call.peer.peerId).isSome ↔
      d.call.peer.peerId ∈ members calls d.infoHash := by
    rw [ht.find?, Option.isSome_map, mem_members_iff, Option.isSome_iff_exists]
  simp only [hmember] at herr
  have hsender := hspells.sender
  have hwire := wire_of_announce hspells.action hspells.infoHashes
  rw [hsender, hspells.event] at hwire
  have hmakes : d.makes = some d.call := makes_of_announces hd
  unfold announceResponse at hmake
  split_ifs at herr with hrefused
  · rw [if_pos (by rw [herr]; decide)] at hmake
    exact ⟨request, _, _, _, hparse, hwire, hmakes,
      decodePacket_of_make (p := .error err) rfl hmake, rfl, (if_pos hrefused).mpr (by rw [herr])⟩
  · rw [if_neg (not_not.2 herr)] at hmake
    refine ⟨request, _, _, _, hparse, hwire, hmakes,
      decodePacket_of_make (payload_of_announce hspells.action) hmake, rfl, ?_⟩
    rw [if_neg hrefused]
    refine ⟨peers.map fun p => (p.ip, p.port), ?_, ?_⟩
    · rw [hspells.numWant]
      exact ht.lists hsmall hdrawn
    · rw [(hsums d.infoHash).leechers, (hsums d.infoHash).seeders]
      rfl

/-- **Every well-formed datagram is answered by a reply to its request.** -/
theorem repliedTo_of_wellFormed (ht : Tracks calls db.torrent)
    (hsums : ∀ h, SumsAccounts calls h (db.torrent h))
    (hsmall : (db.torrent d.infoHash).allPeers.size < 2 ^ 31) (hw : WellFormed d.message)
    (h : processRequest requestInterval db d = .ok (packet, db')) :
    RepliedTo requestInterval calls d packet := by
  have hr := (rejection_eq_none_iff d.message).2 hw
  have hparse := parse_accepted d.uninit d.message d.clientEndpoint hr
  obtain ⟨haction, -⟩ := header_of_parse hw.1 hparse
  obtain ⟨response, hdisp, hmake⟩ := processRequest_ok hparse h
  have hmakes (hne : actionAt d.message ≠ .announce) : d.makes = none :=
    makes_of_not_announces fun ha => hne ha.2
  rcases (defined_iff_handled _).1 hw.2.1 with (hc | hc | hc) | hc
  · have ha := haction.trans hc
    rw [dispatch_of_connect requestInterval db ha] at hdisp
    cases hdisp
    exact ⟨_, _, _, _, hparse, wire_of_connect ha, hmakes (by rw [hc]; decide),
      decodePacket_of_make (payload_of_connect (r := handleConnect _) ha) hmake, rfl, rfl⟩
  · exact repliedTo_of_announces ht hsums hsmall ⟨(hw.2.2.1 hc).1, hc⟩ h
  · have ha := haction.trans hc
    rw [dispatch_of_scrape requestInterval db ha] at hdisp
    obtain ⟨rfl, -⟩ := Prod.mk.inj (Except.ok.inj hdisp)
    refine ⟨_, _, _, _, hparse, wire_of_scrape ha, hmakes (by rw [hc]; decide),
      decodePacket_of_make (payload_of_scrape ha) hmake, rfl, ?_⟩
    refine congrArg Payload.scrape ((scrapeInfos_eq db _).1.trans (List.map_congr_left ?_))
    intro infoHash _
    rw [scrapeOf, (hsums infoHash).leechers, (hsums infoHash).seeders, (hsums infoHash).downloads]
    rfl
  · have ha := haction.trans hc
    rw [dispatch_of_not_handled requestInterval db (by rw [ha]; decide),
      if_neg (not_not.2 (errorMessage_accepted ..))] at hdisp
    cases hdisp
    exact ⟨_, _, _, _, hparse, wire_of_error ha, hmakes (by rw [hc]; decide),
      decodePacket_of_make (p := .connect 0) rfl hmake, rfl, rfl⟩

end Step

/-! ## Whole runs -/

/-- **The server is the tracker its clients see.**  In every run of fewer than `2 ^ 31` datagrams of
any kind, each well-formed one is answered by a packet that reads as a reply to the request it
spells, after the calls made before it; and it makes the call of that request. -/
theorem repliedTo_of_run {requestInterval : Int32} {random : List UInt32}
    {tr : List (Datagram × Bytes)} {db : TorrentDataBase}
    (hr : Run (processRequest requestInterval) (.empty random) tr db) (hfew : tr.length < 2 ^ 31) :
    EveryStep (processRequest requestInterval) (.empty random)
      (fun pre _ x _ => WellFormed x.1.message →
        RepliedTo requestInterval (callsMade (datagramsIn pre)) x.1 x.2) tr := by
  induction hr with
  | nil => exact everyStep_nil
  | @snoc tr t u d packet hr hs ih =>
    rw [List.length_append, List.length_singleton] at hfew
    refine (everyStep_snoc (x := (d, packet)) hr hs).2 ⟨ih (by omega), fun hw => ?_⟩
    exact repliedTo_of_wellFormed (tracks_of_service hr) (sumsAccounts_of_service hr)
      ((length_le_of_service hr _).trans_lt (by omega)) hw hs

/-- A peer joins, and the torrent is scraped. -/
theorem repliedTo_of_run_scrapeOne : ∃ packet₁ packet₂ db,
    Run (processRequest 60) (.empty [])
      [(startedFrom straight 2, packet₁), (scrapeOne, packet₂)] db ∧
    RepliedTo 60 (callsMade [startedFrom straight 2]) scrapeOne packet₂ := by
  have hr₁ : Run (processRequest 60) (.empty []) [(startedFrom straight 2, _)] _ := .snoc .nil rfl
  obtain ⟨packet₂, db, h₂⟩ := exists_reply_of_not_announce 60 _ scrapeOne
    ((rejection_eq_none_iff _).2 wellFormed_scrapeOne) (by decide) (by decide)
  have hr := hr₁.snoc h₂
  have htwo : (2 : ℕ) < 2 ^ 31 := by decide
  have hreplies := repliedTo_of_run hr htwo
  exact ⟨_, packet₂, db, hr, ((everyStep_snoc hr₁ h₂).1 hreplies).2 wellFormed_scrapeOne⟩

end TorrentX
