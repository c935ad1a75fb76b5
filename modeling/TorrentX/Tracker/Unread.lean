import TorrentX.Tracker.Replies

/-!
# Tracker/Unread — what no reply depends on

The parser loads a connection id, an address, a key and a port from every announce, and the table
keeps what a peer says it has downloaded, uploaded and has left.  Nothing reads them again, but for
whether something is left.  `observed` puts a fixed value in their place: what the server does to
a request and a database, observed, is what it does to the two of them as they are
(`dispatch_observed`), one square for each function on the way.

So the datagrams that make no call can be left out of a run and the unread fields of the others
replaced, all at once: the rest is answered byte for byte as before (`run_observed`).
-/

namespace TorrentX

open Wire TorrentDataBase

/-! ## What is read -/

/-- A peer with the unread fields fixed. -/
def Peer.observed (p : Peer) : Peer :=
  { p with downloaded := 0, left := if p.left = 0 then 0 else 1, uploaded := 0 }

/-- A peer is observed under its own id. -/
theorem Peer.peerId_observed (p : Peer) : p.observed.peerId = p.peerId := rfl

/-- A table with its entries observed: their order is that of the ids. -/
def PeerSet.observed (peerSet : PeerSet) : PeerSet :=
  peerSet.map Peer.observed Peer.peerId_observed

/-- A torrent with its table observed. -/
def Torrent.observed (t : Torrent) : Torrent := { t with allPeers := t.allPeers.observed }

/-- A database with its torrents observed, an absent one counting as empty. -/
def TorrentDataBase.observed (db : TorrentDataBase) : TorrentDataBase :=
  ⟨db.random, fun h => some (db.torrent h).observed⟩

/-- A request with the unread fields fixed: the connection id is echoed to a connect, and only the
announce handler looks at the event and the number of peers. -/
def Request.observed (r : Request) : Request :=
  { r with
    connectionId := if r.action = .connect then r.connectionId else 0
    sender := r.sender.observed
    event := if r.action = .announce then r.event else .none
    ip := 0
    key := 0
    numWant := if r.action = .announce then r.numWant else 0
    port := 0 }

/-- A response with its peers observed. -/
def Response.observed (r : Response) : Response :=
  { r with peers := r.peers.map Peer.observed, sender := r.sender.observed }

/-- Whether something is left is kept. -/
theorem Peer.left_observed (p : Peer) : p.observed.left ≠ 0 ↔ p.left ≠ 0 := by
  rw [Peer.observed]
  by_cases h : p.left = 0 <;> simp [h]

/-! ## One torrent

The order of a table is that of the ids, and observing a peer leaves its id.  So observing a table
moves no entry, and each operation on it can be made before or after. -/

namespace Torrent

variable (t : Torrent) (p : Peer)

/-- A peer is in the observed table if it is in the table. -/
theorem count_observed : t.observed.allPeers.count p.observed.peerId = t.allPeers.count p.peerId :=
  RankedSet.count_map Peer.observed Peer.peerId_observed t.allPeers p.peerId

/-- The entry of a peer in the observed table is its entry, observed. -/
theorem find?_observed : t.observed.allPeers.find? p.observed.peerId
    = (t.allPeers.find? p.peerId).map Peer.observed :=
  RankedSet.find?_map Peer.observed Peer.peerId_observed t.allPeers p.peerId

/-- Erasing from the observed table is erasing, observed. -/
theorem erase_observed : t.observed.allPeers.erase p.observed.peerId
    = PeerSet.observed (t.allPeers.erase p.peerId) :=
  RankedSet.erase_map Peer.observed Peer.peerId_observed t.allPeers p.peerId

theorem onCompleted_observed :
    t.observed.onCompleted p.observed = Prod.map id observed <$> t.onCompleted p := by
  rw [onCompleted, onCompleted, count_observed, find?_observed, erase_observed]
  simp only [Peer.left_observed]
  split
  · split
    · rfl
    · cases hf : t.allPeers.find? p.peerId with
      | none => rfl
      | some old =>
        have hinsert := RankedSet.insert_map Peer.observed Peer.peerId_observed
          (t.allPeers.erase p.peerId) { old with completed := true }
        change (PeerSet.observed (t.allPeers.erase p.peerId)).insert
          { old.observed with completed := true } = _ at hinsert
        have hcompleted : old.observed.completed = old.completed := rfl
        rw [Option.map_some]
        dsimp only
        rw [hcompleted, hinsert]
        split
        · cases (t.allPeers.erase p.peerId).insert { old with completed := true } <;> rfl
        · rfl
  · rfl

theorem onStarted_observed :
    t.observed.onStarted p.observed = Prod.map id observed <$> t.onStarted p := by
  have hinsert := RankedSet.insert_map Peer.observed Peer.peerId_observed t.allPeers p
  change t.observed.allPeers.insert p.observed = _ at hinsert
  rw [onStarted, onStarted, count_observed, hinsert]
  simp only [Peer.left_observed]
  split
  · cases t.allPeers.insert p with
    | none => rfl
    | some allPeers =>
      dsimp only [Option.map_some]
      split <;> rfl
  · rfl

theorem onStopped_observed :
    t.observed.onStopped p.observed = Prod.map id observed <$> t.onStopped p := by
  rw [onStopped, onStopped, count_observed, find?_observed, erase_observed]
  split
  · cases hf : t.allPeers.find? p.peerId with
    | none => rfl
    | some old =>
      have hcompleted : old.observed.completed = old.completed := rfl
      rw [Option.map_some]
      dsimp only
      rw [hcompleted]
      split <;> rfl
  · rfl

/-- **Updating a torrent** commutes with observing it. -/
theorem update_observed (event : EventType) :
    t.observed.update p.observed event = Prod.map id observed <$> t.update p event := by
  rw [update, update]
  split
  · exact onCompleted_observed t p
  split
  · exact onStarted_observed t p
  split
  · exact onStopped_observed t p
  · rfl

end Torrent

/-! ## The database -/

namespace TorrentDataBase

variable (db : TorrentDataBase)

/-- A look-up does not show. -/
theorem observed_touch (h : Hash) : (db.touch h).observed = db.observed := by
  rw [observed, torrent_touch]
  rfl

/-- What is observed has every torrent there already. -/
theorem touch_observed (h : Hash) : db.observed.touch h = db.observed :=
  congrArg (TorrentDataBase.mk db.random) (Function.update_eq_self h _)

/-- Writing a torrent and observing. -/
theorem observed_set (h : Hash) (t : Torrent) (random : List UInt32) :
    observed { db.set h t with random } = { db.observed.set h t.observed with random } := by
  refine congrArg (TorrentDataBase.mk random) (funext fun h' => ?_)
  change some ((db.set h t).torrent h').observed =
    Function.update db.observed.torrents h (some t.observed) h'
  rw [torrent_set]
  by_cases hh : h' = h
  · rw [hh, Function.update_self, Function.update_self]
  · rw [Function.update_of_ne hh, Function.update_of_ne hh]
    rfl

/-- **The selection** looks at the ids only. -/
theorem selectPeers_observed (peerSet : PeerSet) (numWant : Int32) (draws : List UInt32)
    (selected : List Peer) :
    selectPeers peerSet.observed numWant draws (selected.map Peer.observed)
      = Prod.map (List.map Peer.observed) id <$> selectPeers peerSet numWant draws selected := by
  have hsize : peerSet.observed.size = peerSet.size :=
    RankedSet.size_map Peer.observed Peer.peerId_observed peerSet
  have hnth (n : ℕ) : peerSet.observed.nth n = (peerSet.nth n).map Peer.observed :=
    RankedSet.nth_map Peer.observed Peer.peerId_observed peerSet n
  induction draws generalizing selected with
  | nil =>
    rw [selectPeers, selectPeers, List.length_map]
    split <;> rfl
  | cons draw draws ih =>
    rw [selectPeers, selectPeers, List.length_map, hsize, hnth]
    split
    · split
      · rfl
      · cases peerSet.nth (draw.toNat % peerSet.size) with
        | none => rfl
        | some p =>
          dsimp only [Option.map_some]
          rw [OrderedSet.insert_map Peer.peerId_observed, ih]
    · rfl

end TorrentDataBase

/-! ## The handlers -/

section Handlers

variable (requestInterval : Int32) (db : TorrentDataBase) (request : Request)

/-- The reply to an announce has the counters and the peers. -/
theorem announceResponse_observed (torrent : Torrent) (peers : List Peer) (error : Bytes) :
    announceResponse requestInterval torrent.observed request.observed (peers.map Peer.observed)
        error
      = (announceResponse requestInterval torrent request peers error).observed := by
  rw [announceResponse, announceResponse]
  split <;> rfl

/-- **Announces**: an update, a selection, and a reply made of both. -/
theorem handleAnnounce_observed (ha : request.action = .announce) :
    handleAnnounce requestInterval db.observed request.observed
      = Prod.map Response.observed observed <$> handleAnnounce requestInterval db request := by
  cases hcons : request.infoHashes with
  | nil =>
    have hnil : request.observed.infoHashes = [] := hcons
    rw [handleAnnounce, handleAnnounce, hnil, hcons]
    rfl
  | cons infoHash rest =>
    have hcons' : request.observed.infoHashes = infoHash :: rest := hcons
    have hevent : request.observed.event = request.event := if_pos ha
    have hnum : request.observed.numWant = request.numWant := if_pos ha
    have hselect : selectPeers (db.observed.torrent infoHash).allPeers
          (clampNumWant request.observed.numWant (db.observed.torrent infoHash).allPeers.size)
          db.observed.random []
        = Prod.map (List.map Peer.observed) id <$> selectPeers (db.torrent infoHash).allPeers
          (clampNumWant request.numWant (db.torrent infoHash).allPeers.size) db.random [] := by
      have hsize : (db.observed.torrent infoHash).allPeers.size
          = (db.torrent infoHash).allPeers.size :=
        RankedSet.size_map Peer.observed Peer.peerId_observed _
      rw [hnum, hsize]
      exact selectPeers_observed _ _ db.random []
    have hupdate : (db.observed.torrent infoHash).update request.observed.sender
          request.observed.event
        = Prod.map id Torrent.observed
          <$> (db.torrent infoHash).update request.sender request.event := by
      rw [hevent]
      exact Torrent.update_observed _ _ _
    rw [handleAnnounce_eq requestInterval db.observed hcons',
      handleAnnounce_eq requestInterval db hcons, hselect, bind_map_left, map_bind]
    refine congrArg _ (funext fun drawn => ?_)
    rw [hupdate, bind_map_left, map_bind]
    refine congrArg _ (funext fun updated => ?_)
    rw [map_pure]
    exact congrArg pure (Prod.ext
      (announceResponse_observed requestInterval request (db.torrent infoHash) drawn.1 updated.1)
      (observed_set db infoHash updated.2 drawn.2).symm)

/-- **Scrapes** read the counters. -/
theorem scrapeInfos_observed (infoHashes : List Hash) :
    scrapeInfos db.observed infoHashes = Prod.map id observed (scrapeInfos db infoHashes) := by
  induction infoHashes generalizing db with
  | nil => rfl
  | cons infoHash infoHashes ih =>
    have hrest := ih (((db.touch infoHash).touch infoHash).touch infoHash)
    rw [observed_touch, observed_touch, observed_touch] at hrest
    simp only [scrapeInfos, countSeeders, countDownloads, countLeechers, touch_observed, hrest,
      torrent_touch]
    rfl

/-- **Dispatching a request** commutes with observing it. -/
theorem dispatch_observed :
    dispatch requestInterval db.observed request.observed
      = Prod.map Response.observed observed <$> dispatch requestInterval db request := by
  have haction : request.observed.action = request.action := rfl
  by_cases hh : Handled request.action
  · rcases hh with hc | hc | hc
    · rw [dispatch_of_connect requestInterval _ (haction.trans hc),
        dispatch_of_connect requestInterval _ hc]
      have hconnection : request.observed.connectionId = request.connectionId := if_pos hc
      have hresponse : handleConnect request.observed = (handleConnect request).observed := by
        rw [handleConnect, hconnection]
        rfl
      rw [hresponse]
      rfl
    · rw [dispatch_of_announce requestInterval _ (haction.trans hc),
        dispatch_of_announce requestInterval _ hc]
      exact handleAnnounce_observed requestInterval db request hc
    · rw [dispatch_of_scrape requestInterval _ (haction.trans hc),
        dispatch_of_scrape requestInterval _ hc]
      have hinfos : scrapeInfos db.observed request.observed.infoHashes = _ :=
        scrapeInfos_observed db request.infoHashes
      rw [handleScrape, hinfos]
      rfl
  · have hh' : ¬ Handled request.observed.action := hh
    rw [dispatch_of_not_handled requestInterval _ hh', dispatch_of_not_handled requestInterval _ hh]
    have herror : request.observed.errorMessage = request.errorMessage := rfl
    rw [herror]
    split <;> rfl

/-- **The packet is made of what is observed.** -/
theorem makeUDPResponse_observed (response : Response) :
    makeUDPResponse response.observed = makeUDPResponse response := by
  have hpeers : storePeers (response.peers.map Peer.observed) = storePeers response.peers :=
    funext fun packet => List.foldlM_map ..
  have hannounce : storeAnnounce response.observed = storeAnnounce response := by
    funext packet
    rw [storeAnnounce, storeAnnounce, ← hpeers]
    rfl
  rw [makeUDPResponse, makeUDPResponse, hannounce]
  rfl

end Handlers

/-! ## One datagram

Two datagrams ask for the same if their parses differ in unread fields at most.  Most of them are on
the wire, so there are many: with any connection id, key and address, and anything downloaded and
uploaded, an announce asks for the same. -/

/-- Datagrams that ask for the same: their requests differ in unread fields at most. -/
def Datagram.Asks (d d' : Datagram) : Prop :=
  Request.observed <$> d.parse = Request.observed <$> d'.parse

/-- **What is read of an announce**, by its layout. -/
theorem observed_of_announce (uninit : Uninit) (ep : SockaddrIn) {c : Int64} {t : Int32}
    {infoHash peerId : Hash} {downloaded left uploaded : Int64} {event : EventType}
    {ip key : UInt32} {numWant : Int32} {port : UInt16} (hevent : Defined event.code) :
    Request.observed <$> Datagram.parse
        ⟨WireRequest.encode (.announce c t infoHash peerId downloaded left uploaded event ip key
          numWant port), ep, uninit⟩
      = .ok
        { connectionId := 0
          action := .announce
          transactionId := t
          infoHashes := [infoHash]
          sender :=
            { ip := ep.sAddr
              port := ep.sinPort
              peerId
              downloaded := 0
              left := if left = 0 then 0 else 1
              uploaded := 0 }
          event
          ip := 0
          key := 0
          numWant
          port := 0
          errorMessage := [] } := by
  generalize hm : WireRequest.encode (.announce c t infoHash peerId downloaded left uploaded event
    ip key numWant port) = m
  have hw : WellFormed m := hm ▸ WireRequest.wellFormed_encode hevent
  have ha : actionAt m = .announce := hm ▸ WireRequest.actionAt_header c .announce t _
  have hfields := layoutFields_accepted uninit ep hw
  have hwire := WireRequest.wire_of_layoutFields (hm ▸ hfields)
  have haccepted : acceptedRequest uninit m ep = { announced uninit m ep with
      ip := decode UInt32 (slice m 84 88)
      key := decode UInt32 (slice m 88 92)
      numWant := decode Int32 (slice m 92 96)
      port := decode UInt16 (slice m 96 98) } := if_pos ha
  rw [Datagram.parse, parse_accepted uninit m ep ((rejection_eq_none_iff m).2 hw), haccepted]
  rw [hm, haccepted] at hwire
  obtain ⟨-, ht, hh, hp, -, hl, -, he, -, -, hn, -⟩ :=
    WireRequest.announce.inj (Option.some.inj ((wire_of_announce ha rfl).symm.trans hwire))
  obtain rfl : transactionIdAt m = t := ht
  obtain rfl : hashAt m 16 = infoHash := hh
  obtain rfl : hashAt m 36 = peerId := hp
  obtain rfl : decode Int64 (slice m 64 72) = left := hl
  obtain rfl : eventAt m = event := he
  obtain rfl : decode Int32 (slice m 92 96) = numWant := hn
  change Except.ok (Request.observed _) = _
  simp only [Request.observed, Peer.observed, announced, headed, actioned, addressed, ha,
    show ActionType.announce ≠ .connect by decide, if_true, if_false]
  rfl

/-- Announces that differ in unread fields, and in how much more than nothing is left, ask for the
same. -/
theorem asks_of_announces (uninit uninit' : Uninit) (ep : SockaddrIn) {c c' : Int64} {t : Int32}
    {infoHash peerId : Hash} {downloaded downloaded' left left' uploaded uploaded' : Int64}
    {event : EventType} {ip ip' key key' : UInt32} {numWant : Int32} {port port' : UInt16}
    (hevent : Defined event.code) (hleft : left = 0 ↔ left' = 0) :
    Datagram.Asks
      ⟨WireRequest.encode (.announce c t infoHash peerId downloaded left uploaded event ip key
        numWant port), ep, uninit⟩
      ⟨WireRequest.encode (.announce c' t infoHash peerId downloaded' left' uploaded' event ip' key'
        numWant port'), ep, uninit'⟩ := by
  rw [Datagram.Asks, observed_of_announce uninit ep hevent, observed_of_announce uninit' ep hevent]
  simp only [hleft]

section Step

variable {requestInterval : Int32} {db db' db₁ : TorrentDataBase} {d d' : Datagram} {packet : Bytes}

/-- **One step**: databases that are observed alike answer datagrams that ask for the same alike,
and stay so. -/
theorem exists_processRequest_of_asks (hdb : db.observed = db'.observed) (hd : d.Asks d')
    (h : processRequest requestInterval db d = .ok (packet, db₁)) :
    ∃ db₁', processRequest requestInterval db' d' = .ok (packet, db₁') ∧
      db₁.observed = db₁'.observed := by
  obtain ⟨request, hparse⟩ := exists_parse d.uninit d.message d.clientEndpoint
  obtain ⟨request', hparse'⟩ := exists_parse d'.uninit d'.message d'.clientEndpoint
  have hrequest : request.observed = request'.observed := by
    rw [Datagram.Asks, Datagram.parse, Datagram.parse, hparse, hparse'] at hd
    exact Except.ok.inj hd
  obtain ⟨response, hdisp, hmake⟩ := processRequest_ok hparse h
  have hsame : Prod.map Response.observed observed <$> dispatch requestInterval db request
      = Prod.map Response.observed observed <$> dispatch requestInterval db' request' := by
    rw [← dispatch_observed, ← dispatch_observed, hdb, hrequest]
  rw [hdisp] at hsame
  cases hdisp' : dispatch requestInterval db' request' with
  | error fault =>
    rw [hdisp'] at hsame
    cases hsame
  | ok answer =>
    obtain ⟨response', db₁'⟩ := answer
    rw [hdisp'] at hsame
    obtain ⟨hresponse, hdb₁⟩ := Prod.mk.inj (Except.ok.inj hsame)
    have hresponse' : response.observed = response'.observed := hresponse
    refine ⟨db₁', ?_, hdb₁⟩
    rw [processRequest_of_parse requestInterval db' hparse', bind_of_eq_ok hdisp',
      ← makeUDPResponse_observed, ← hresponse', makeUDPResponse_observed, bind_of_eq_ok hmake]
    rfl

/-- A database that replies do not tell apart from another is observed as that one is. -/
theorem Alike.observed_eq (h : Alike db db') : db.observed = db'.observed := by
  rw [TorrentDataBase.observed, h.random, h.torrent]
  rfl

end Step

/-! ## Whole runs -/

/-- **Replies are made of what is read.**  From a run on any datagrams, any of those that make no
call may be left out, and in the others every unread field may be replaced: the rest runs with the
replies it had, byte for byte, and ends with the same counters and draws, and with the same entries
up to their unread fields. -/
theorem run_observed {requestInterval : Int32} {random : List UInt32}
    {tr tr' : List (Datagram × Bytes)} {db : TorrentDataBase}
    (hr : Run (processRequest requestInterval) (.empty random) tr db)
    (hthin : Thins Datagram.Asks (fun d => ¬ d.Announces) tr tr') :
    ∃ db', Run (processRequest requestInterval) (.empty random) tr' db' ∧
      db'.observed = db.observed := by
  obtain ⟨db', hr', hobserved⟩ := hr.thin (fun a b => a.observed = b.observed) (fun _ => True)
    (fun _ hab hasks h => exists_processRequest_of_asks hab hasks h)
    (fun _ hab hnot h => (alike_of_not_announces hnot h).observed_eq.trans hab)
    rfl hthin fun _ _ => trivial
  exact ⟨db', hr', hobserved.symm⟩

/-- The announce of `startedFrom straight 2`, with other values in its unread fields. -/
def startedOtherwise : Datagram :=
  ⟨WireRequest.encode (.announce 9 7 (.fill 1) (.fill 2) 1 8 3 .started 4 5 (-1) 80),
    straight, .zeroed⟩

/-- A connect and two announces; without the connect and with other values in what the first
announce says of itself, the second is told of the same peer. -/
theorem run_observed_otherFields :
    ∃ packet₁ packet₂ packet₃ db db',
      Run (processRequest 60) (.empty [0]) [(bareHeader .connect, packet₁),
        (startedFrom straight 2, packet₂), (startedFrom straight 3, packet₃)] db ∧
      Run (processRequest 60) (.empty [0]) [(startedOtherwise, packet₂),
        (startedFrom straight 3, packet₃)] db' ∧
      db'.observed = db.observed := by
  have h₁ : Run (processRequest 60) (.empty [0]) [(bareHeader .connect, _)] _ := .snoc .nil rfl
  have h₂ : Run (processRequest 60) (.empty [0]) ([_] ++ [(startedFrom straight 2, _)]) _ :=
    .snoc h₁ rfl
  have h₃ : Run (processRequest 60) (.empty [0]) ([_, _] ++ [(startedFrom straight 3, _)]) _ :=
    .snoc h₂ rfl
  have hthin : ∀ packet₁ packet₂ packet₃ : Bytes,
      Thins Datagram.Asks (fun d => ¬ d.Announces)
        [(bareHeader .connect, packet₁), (startedFrom straight 2, packet₂),
          (startedFrom straight 3, packet₃)]
        [(startedOtherwise, packet₂), (startedFrom straight 3, packet₃)] := by
    intro packet₁ packet₂ packet₃
    have hconnect : Thins Datagram.Asks (fun d => ¬ d.Announces)
        ([] ++ [(bareHeader .connect, packet₁)]) ([] : List (Datagram × Bytes)) :=
      .drop .nil (by decide)
    have hfirst : Thins Datagram.Asks (fun d => ¬ d.Announces)
        ([_] ++ [(startedFrom straight 2, packet₂)]) ([] ++ [(startedOtherwise, packet₂)]) :=
      .keep hconnect (asks_of_announces .zeroed .zeroed straight (by decide) (by decide))
    have hsecond : Thins Datagram.Asks (fun d => ¬ d.Announces)
        ([_, _] ++ [(startedFrom straight 3, packet₃)])
        ([_] ++ [(startedFrom straight 3, packet₃)]) := .keep hfirst rfl
    exact hsecond
  obtain ⟨db', hr', hobserved⟩ := run_observed h₃ (hthin _ _ _)
  exact ⟨_, _, _, _, db', h₃, hr', hobserved⟩

end TorrentX
