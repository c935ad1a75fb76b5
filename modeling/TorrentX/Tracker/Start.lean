import TorrentX.Tracker.Faults

/-!
# Tracker/Start — the server from its start to the signal

The model of `Server::start` with `receive_packet`: what the network does comes with each turn of
the loop.  A turn whose `recvfrom` fails is passed over, and whether `sendto` fails is not looked
at, so the loop is a run on the datagrams received, each cut to the size of the buffer
(`start_eq_ok_iff`).

How many numbers the selection loops draw is not bounded.  But with draws that reach every rank
again and again finitely many serve any datagrams none of which lacks its hash
(`exists_run_of_fair`), and so the server stays up exactly as long as none such arrives
(`staysUp_iff`).
-/

namespace TorrentX

open Wire TorrentDataBase

/-! ## The loop -/

/-- What `recvfrom` finds: a datagram, or a failure and what it sets `errno` to, which is not
zero. -/
inductive Arrival
  | datagram (message : Bytes) (clientEndpoint : SockaddrIn)
  | failed (errno : Int32) (isSet : errno ≠ 0)

/-- One turn of the loop: the value read of `in_process`, what `recvfrom` finds, and what the memory
of the request happens to hold. -/
structure Turn where
  inProcess : Bool
  arrival : Arrival
  uninit : Uninit

/-- `receive_packet`: what it returns, and what it leaves in `message` and `client_endpoint`.  A
datagram is cut to the buffer. -/
def receivePacket (clientEndpoint : SockaddrIn) : Arrival → Int32 × Bytes × SockaddrIn
  | .datagram message clientEndpoint => (0, message.take packetSize, clientEndpoint)
  | .failed errno _ => (errno, List.replicate packetSize 0, clientEndpoint)

/-- `Server::start`: the packets handed to `send_packet`, with where they go, and how it ends.  Of
the network no more is known than the turns. -/
def start (requestInterval : Int32) :
    TorrentDataBase → SockaddrIn → List Turn →
      List (Bytes × SockaddrIn) × Except Fault TorrentDataBase
  | db, _, [] => ([], .ok db)
  | db, clientEndpoint, turn :: turns =>
    if turn.inProcess then
      let (status, message, clientEndpoint) := receivePacket clientEndpoint turn.arrival
      if status = 0 then
        match processRequest requestInterval db ⟨message, clientEndpoint, turn.uninit⟩ with
        | .error fault => ([], .error fault)
        | .ok (packet, db) =>
          let (sent, final) := start requestInterval db clientEndpoint turns
          ((packet, clientEndpoint) :: sent, final)
      else start requestInterval db clientEndpoint turns
    else ([], .ok db)

/-! ## The loop is a run

A signal ends the loop, a failed receive is a turn without a datagram, and a datagram that faults
ends it as well.  What was sent before a fault was sent. -/

/-- The datagram a turn receives, as the buffer has it. -/
def Turn.received (turn : Turn) : Option Datagram :=
  match turn.arrival with
  | .datagram message clientEndpoint => some ⟨message.take packetSize, clientEndpoint, turn.uninit⟩
  | .failed _ _ => none

/-- The datagrams received until the signal. -/
def received (turns : List Turn) : List Datagram :=
  (turns.takeWhile Turn.inProcess).filterMap Turn.received

/-- Each packet of a trace with the sender of its datagram. -/
def repliesTo (tr : List (Datagram × Bytes)) : List (Bytes × SockaddrIn) :=
  tr.map fun x => (x.2, x.1.clientEndpoint)

theorem length_message_of_received {turns : List Turn} :
    ∀ d ∈ received turns, d.message.length ≤ packetSize := by
  intro d hd
  obtain ⟨turn, -, hturn⟩ := List.mem_filterMap.1 hd
  rw [Turn.received] at hturn
  split at hturn
  · cases hturn
    exact (List.length_take_le _ _)
  · cases hturn

variable {requestInterval : Int32} {db db' : TorrentDataBase}

section Turns

variable (requestInterval db) (clientEndpoint : SockaddrIn) {turn : Turn} {ep : SockaddrIn}
  {message : Bytes} (turns : List Turn)

/-- The datagram of a turn that receives one. -/
abbrev Turn.cut (turn : Turn) (message : Bytes) (ep : SockaddrIn) : Datagram :=
  ⟨message.take packetSize, ep, turn.uninit⟩

/-- The signal ends the loop. -/
theorem start_of_signal (h : turn.inProcess = false) :
    start requestInterval db clientEndpoint (turn :: turns) = ([], .ok db) ∧
      received (turn :: turns) = [] := by
  have hneg : ¬ turn.inProcess = true := by simp [h]
  refine ⟨by rw [start, if_neg hneg], ?_⟩
  rw [received, List.takeWhile_cons_of_neg hneg]
  rfl

/-- A failed receive is passed over. -/
theorem start_of_failed {errno : Int32} {isSet : errno ≠ 0} (h : turn.inProcess = true)
    (ha : turn.arrival = .failed errno isSet) :
    start requestInterval db clientEndpoint (turn :: turns)
        = start requestInterval db clientEndpoint turns ∧
      received (turn :: turns) = received turns := by
  refine ⟨by rw [start, if_pos h, ha]; exact if_neg isSet, ?_⟩
  rw [received, List.takeWhile_cons_of_pos h, List.filterMap_cons_none (by rw [Turn.received, ha])]
  rfl

theorem received_of_datagram (h : turn.inProcess = true)
    (ha : turn.arrival = .datagram message ep) :
    received (turn :: turns) = turn.cut message ep :: received turns := by
  rw [received, List.takeWhile_cons_of_pos h]
  exact List.filterMap_cons_some (by rw [Turn.received, ha])

/-- A fault ends the server. -/
theorem start_of_fault {fault : Fault} (h : turn.inProcess = true)
    (ha : turn.arrival = .datagram message ep)
    (hp : processRequest requestInterval db (turn.cut message ep) = .error fault) :
    start requestInterval db clientEndpoint (turn :: turns) = ([], .error fault) := by
  rw [start, if_pos h, ha]
  simp only [receivePacket, hp, if_true]

/-- A reply goes out, and the loop goes on. -/
theorem start_of_reply {packet : Bytes} (h : turn.inProcess = true)
    (ha : turn.arrival = .datagram message ep)
    (hp : processRequest requestInterval db (turn.cut message ep) = .ok (packet, db')) :
    start requestInterval db clientEndpoint (turn :: turns)
      = ((packet, ep) :: (start requestInterval db' ep turns).1,
          (start requestInterval db' ep turns).2) := by
  rw [start, if_pos h, ha]
  simp only [receivePacket, hp, if_true]

end Turns

/-- Nothing is received, nothing is sent. -/
theorem ended_iff (sent : List (Bytes × SockaddrIn)) :
    (([], .ok db) : List (Bytes × SockaddrIn) × Except Fault TorrentDataBase) = (sent, .ok db') ↔
      ∃ tr, Run (processRequest requestInterval) db tr db' ∧ datagramsIn tr = [] ∧
        sent = repliesTo tr := by
  constructor
  · intro h
    cases h
    exact ⟨[], .nil, rfl, rfl⟩
  · rintro ⟨tr, hr, htr, rfl⟩
    obtain rfl := List.map_eq_nil_iff.1 htr
    rw [hr.eq_of_nil]
    rfl

/-- **The loop is a run on the datagrams received**: it ends without a fault exactly when the run
does, and then it has sent one packet for each of them, in their order, to the sender of each. -/
theorem start_eq_ok_iff (clientEndpoint : SockaddrIn) (turns : List Turn)
    (sent : List (Bytes × SockaddrIn)) :
    start requestInterval db clientEndpoint turns = (sent, .ok db') ↔
      ∃ tr, Run (processRequest requestInterval) db tr db' ∧ datagramsIn tr = received turns ∧
        sent = repliesTo tr := by
  induction turns generalizing db clientEndpoint sent with
  | nil => exact ended_iff sent
  | cons turn turns ih =>
    cases hin : turn.inProcess with
    | false =>
      obtain ⟨hstart, hreceived⟩ :=
        start_of_signal requestInterval db clientEndpoint turns hin
      rw [hstart, hreceived]
      exact ended_iff sent
    | true =>
      cases ha : turn.arrival with
      | failed errno isSet =>
        obtain ⟨hstart, hreceived⟩ :=
          start_of_failed requestInterval db clientEndpoint turns hin ha
        rw [hstart, hreceived]
        exact ih clientEndpoint sent
      | datagram message ep =>
        rw [received_of_datagram turns hin ha]
        cases hp : processRequest requestInterval db (turn.cut message ep) with
        | error fault =>
          rw [start_of_fault requestInterval db clientEndpoint turns hin ha hp]
          refine iff_of_false (by simp) ?_
          rintro ⟨tr, hr, htr, -⟩
          obtain ⟨x, tr, rfl, hx, -⟩ := List.map_eq_cons_iff.1 htr
          obtain ⟨t, hs, -⟩ := hr.exists_of_cons
          rw [hx, hp] at hs
          cases hs
        | ok answer =>
          obtain ⟨packet, db₁⟩ := answer
          rw [start_of_reply requestInterval db clientEndpoint turns hin ha hp]
          constructor
          · intro h
            obtain ⟨rfl, hfinal⟩ := Prod.mk.inj h
            obtain ⟨tr, hr, htr, hrest⟩ := (ih ep _).1 (Prod.ext rfl hfinal)
            exact ⟨(_, packet) :: tr, hr.cons hp, congrArg (_ :: ·) htr,
              congrArg ((packet, ep) :: ·) hrest⟩
          · rintro ⟨tr, hr, htr, rfl⟩
            obtain ⟨⟨d, packet'⟩, tr, rfl, rfl, hrest⟩ := List.map_eq_cons_iff.1 htr
            obtain ⟨t, hs, ht⟩ := hr.exists_of_cons
            obtain ⟨rfl, rfl⟩ := Prod.mk.inj (Except.ok.inj (hp.symm.trans hs))
            rw [(ih ep (repliesTo tr)).2 ⟨tr, ht, hrest, rfl⟩]
            rfl

/-! ## Draws that suffice

A run that ended has drawn finitely many numbers, and numbers after these change nothing.  So one
can start with as many as will be needed, although how many these are is known at the end only. -/

/-- The database and one with more draws: the same torrents. -/
structure MoreDraws (more : List UInt32) (db db' : TorrentDataBase) : Prop where
  torrent : db'.torrent = db.torrent
  random : db'.random = db.random ++ more

section MoreDraws

variable {more random : List UInt32} {db₁ : TorrentDataBase} {d : Datagram} {packet : Bytes}
  {tr : List (Datagram × Bytes)}

/-- A database alike to the first, and one alike to the second. -/
theorem MoreDraws.alike {db₁' : TorrentDataBase} (hm : MoreDraws more db db')
    (h : Alike db₁ db) (h' : Alike db₁' db') : MoreDraws more db₁ db₁' :=
  ⟨by rw [h'.torrent, hm.torrent, h.torrent], by rw [h'.random, hm.random, h.random]⟩

/-- A request for a handler that only reads is answered from the torrents alone. -/
theorem dispatch_of_reading {request : Request} {response : Response}
    (ha : request.action ≠ .announce) (ht : db'.torrent = db.torrent)
    (h : dispatch requestInterval db request = .ok (response, db₁)) :
    ∃ db₁', dispatch requestInterval db' request = .ok (response, db₁') ∧ Alike db₁' db' := by
  by_cases hh : Handled request.action
  · rcases hh with hc | hc | hc
    · rw [dispatch_of_connect requestInterval db hc] at h
      cases h
      exact ⟨db', dispatch_of_connect requestInterval db' hc, .refl db'⟩
    · exact absurd hc ha
    · rw [dispatch_of_scrape requestInterval db hc] at h
      cases h
      refine ⟨(handleScrape db' request).2, ?_, alike_handleScrape db' request⟩
      rw [dispatch_of_scrape requestInterval db' hc]
      have hinfos : (scrapeInfos db' request.infoHashes).1
          = (scrapeInfos db request.infoHashes).1 := by
        rw [(scrapeInfos_eq _ _).1, (scrapeInfos_eq _ _).1, ht]
      exact congrArg (fun infos => Except.ok
        (({ action := request.action, transactionId := request.transactionId,
            sender := request.sender, scrapeInfo := infos } : Response),
          (handleScrape db' request).2)) hinfos
  · rw [dispatch_of_not_handled requestInterval db hh] at h
    cases h
    exact ⟨db', dispatch_of_not_handled requestInterval db' hh, .refl db'⟩

/-- **More draws change no reply.** -/
theorem MoreDraws.processRequest (hm : MoreDraws more db db')
    (h : processRequest requestInterval db d = .ok (packet, db₁)) :
    ∃ db₁', TorrentX.processRequest requestInterval db' d = .ok (packet, db₁') ∧
      MoreDraws more db₁ db₁' := by
  obtain ⟨request, hparse, hcases⟩ := request_cases d
  obtain ⟨response, hdisp, hmake⟩ := processRequest_ok hparse h
  have hreply {db₁' : TorrentDataBase}
      (hdisp' : dispatch requestInterval db' request = .ok (response, db₁')) :
      TorrentX.processRequest requestInterval db' d = .ok (packet, db₁') := by
    rw [processRequest_of_parse requestInterval db' hparse, bind_of_eq_ok hdisp',
      bind_of_eq_ok hmake]
    rfl
  by_cases ha : request.action = .announce
  · rw [dispatch_of_announce requestInterval db ha] at hdisp
    obtain ⟨infoHash, rest, peers, draws, err, t', hcons, hdrawn, hu, rfl, rfl⟩ :=
      handleAnnounce_ok hdisp
    refine ⟨{ db'.set infoHash t' with random := draws ++ more }, hreply ?_, ?_, rfl⟩
    · rw [dispatch_of_announce requestInterval db' ha, handleAnnounce_eq requestInterval db' hcons,
        hm.torrent, hm.random, bind_of_eq_ok (selectPeers_append more hdrawn), bind_of_eq_ok hu]
      rfl
    · change (db'.set infoHash t').torrent = (db.set infoHash t').torrent
      rw [torrent_set, torrent_set, hm.torrent]
  · obtain ⟨db₁', hdisp', halike'⟩ := dispatch_of_reading ha hm.torrent hdisp
    exact ⟨db₁', hreply hdisp', hm.alike (alike_of_not_announce ha hdisp) halike'⟩

/-- A run with more draws to its start. -/
theorem MoreDraws.run (more : List UInt32)
    (hr : Run (TorrentX.processRequest requestInterval) (.empty random) tr db) :
    ∃ db', Run (TorrentX.processRequest requestInterval) (.empty (random ++ more)) tr db' ∧
      MoreDraws more db db' := by
  induction hr with
  | nil => exact ⟨_, .nil, rfl, rfl⟩
  | snoc _ hs ih =>
    obtain ⟨db₁, hr₁, hm⟩ := ih
    obtain ⟨db₂, hs₂, hm₂⟩ := hm.processRequest hs
    exact ⟨db₂, .snoc hr₁ hs₂, hm₂⟩

end MoreDraws

/-! ## Fair draws -/

/-- The draws reach every rank of every table that a 32-bit integer can count, again and again. -/
def Fair (draws : ℕ → UInt32) : Prop :=
  ∀ n < 2 ^ 31, ∀ r < n, ∀ k, ∃ i, k ≤ i ∧ (draws i).toNat % n = r

/-- The first `n` draws. -/
def firstDraws (draws : ℕ → UInt32) (n : ℕ) : List UInt32 := (List.range n).map draws

/-- The first draws, and those after them. -/
theorem firstDraws_add (draws : ℕ → UInt32) (k m : ℕ) :
    firstDraws draws (k + m)
      = firstDraws draws k ++ (List.range m).map fun i => draws (k + i) := by
  rw [firstDraws, List.range_add, List.map_append, List.map_map]
  rfl

/-- **Finitely many more draws show every entry of a table.** -/
theorem exists_drawn_of_fair {draws : ℕ → UInt32} (hfair : Fair draws) (peerSet : PeerSet)
    (hsmall : peerSet.size < 2 ^ 31) (k : ℕ) (before : List UInt32) :
    ∃ m, peerSet.elems.toFinset
      ⊆ drawn peerSet (before ++ (List.range m).map fun i => draws (k + i)) := by
  obtain ⟨m, hm⟩ := exists_forall_lt fun r hr =>
    (hfair peerSet.size hsmall r hr k).imp fun i hi => (⟨hi.1, hi.2⟩ : k ≤ i ∧ _)
  refine ⟨m, fun p hp => ?_⟩
  obtain ⟨r, hr, hget⟩ := List.getElem_of_mem (List.mem_toFinset.1 hp)
  obtain ⟨i, hi, hki, hrank⟩ := hm r hr
  refine List.mem_toFinset.2 (List.mem_filterMap.2 ⟨draws i, ?_, ?_⟩)
  · refine List.mem_append_right _ (List.mem_map.2 ⟨i - k, List.mem_range.2 (by omega), ?_⟩)
    rw [Nat.add_sub_cancel' hki]
  · rw [hrank, ← hget]
    exact List.getElem?_eq_getElem hr

section Fair

variable {draws : ℕ → UInt32} {log : List Datagram} {tr : List (Datagram × Bytes)}

/-- **With fair draws every datagram is answered** that does not lack its hash, after finitely many
draws. -/
theorem exists_run_of_fair (requestInterval : Int32) (hfair : Fair draws)
    (hlen : log.length < 2 ^ 31) (hsize : ∀ d ∈ log, d.message.length ≤ packetSize)
    (hless : ∀ d ∈ log, ¬ d.Hashless) :
    ∃ tr k, datagramsIn tr = log ∧ ∀ n, k ≤ n → ∃ db,
      Run (processRequest requestInterval) (.empty (firstDraws draws n)) tr db := by
  induction log using List.reverseRecOn with
  | nil => exact ⟨[], 0, rfl, fun n _ => ⟨_, .nil⟩⟩
  | append_singleton log d ih =>
    rw [List.length_append, List.length_singleton] at hlen
    rw [List.forall_mem_append] at hsize hless
    obtain ⟨tr, k, htr, hrun⟩ := ih (by omega) hsize.1 hless.1
    have hlog : tr.length = log.length := by rw [← htr, List.length_map]
    obtain ⟨db, hr⟩ := hrun k le_rfl
    have hsmall : (db.torrent d.infoHash).allPeers.size < 2 ^ 31 :=
      (length_le_of_service hr d.infoHash).trans_lt (by omega)
    obtain ⟨m, hm⟩ := exists_drawn_of_fair hfair _ hsmall k db.random
    obtain ⟨db₁, hr₁, hmore⟩ := MoreDraws.run ((List.range m).map fun i => draws (k + i)) hr
    rw [← firstDraws_add] at hr₁
    -- every entry is drawn, and the clamps leave no more than there are
    have hfed : ¬ d.Starved db₁ := by
      rintro ⟨-, hlt⟩
      rw [hmore.torrent, hmore.random] at hlt
      have hnodup : (db.torrent d.infoHash).allPeers.elems.Nodup :=
        (increasing_of_service hr d.infoHash).imp fun hpq he => (he ▸ hpq).false
      have hall := Finset.card_le_card hm
      rw [List.toFinset_card_of_nodup hnodup] at hall
      have hclamp := toNat_clampNumWant_le_size d.numWant (db.torrent d.infoHash).allPeers.size
      exact absurd (hclamp.trans hall) (Nat.not_le.2 hlt)
    have hroom : tr.length < RankedSet.maxSize :=
      lt_of_lt_of_le (show tr.length < 2 ^ 31 by omega) (by decide)
    rcases processRequest_cases hr₁ hroom (hsize.2 d (by simp)) with
      ⟨⟨packet, db₂, hok⟩, -⟩ | ⟨-, hcut, -⟩ | ⟨-, -, hstarved⟩
    · refine ⟨tr ++ [(d, packet)], k + m, by rw [datagramsIn, List.map_append, ← htr]; rfl,
        fun n hn => ?_⟩
      obtain ⟨j, rfl⟩ := Nat.exists_eq_add_of_le hn
      obtain ⟨db₃, hr₃, -⟩ :=
        MoreDraws.run ((List.range j).map fun i => draws (k + m + i)) (hr₁.snoc hok)
      rw [← firstDraws_add] at hr₃
      exact ⟨db₃, hr₃⟩
    · exact absurd hcut (hless.2 d (by simp))
    · exact absurd hstarved hfed

/-- No datagram that is answered lacks its hash. -/
theorem not_hashless_of_reply {d : Datagram} {packet : Bytes}
    (h : processRequest requestInterval db d = .ok (packet, db')) : ¬ d.Hashless := by
  intro hless
  obtain ⟨request, hparse, ⟨hd, -⟩ | ⟨-, ha, hnil⟩ | ⟨-, hnot, -⟩⟩ := request_cases d
  · exact Nat.not_lt.2 hd.1 hless.1
  · rw [processRequest_of_no_hash db hparse ha hnil] at h
    cases h
  · exact hnot hless

/-- No datagram of a run lacks its hash. -/
theorem not_hashless_of_run (hr : Run (processRequest requestInterval) db tr db') :
    ∀ d ∈ datagramsIn tr, ¬ d.Hashless := by
  induction hr with
  | nil => exact fun d hd => absurd hd List.not_mem_nil
  | snoc _ hs ih =>
    rw [datagramsIn, List.map_append, List.forall_mem_append]
    refine ⟨ih, fun d hd => ?_⟩
    rw [List.map_singleton, List.mem_singleton] at hd
    exact hd ▸ not_hashless_of_reply hs

end Fair

/-- From some number of draws on, the server gets through the turns, with one reply to the sender of
each datagram received, in their order. -/
def StaysUp (requestInterval : Int32) (draws : ℕ → UInt32) (clientEndpoint : SockaddrIn)
    (turns : List Turn) : Prop :=
  ∃ sent k, sent.map Prod.snd = (received turns).map Datagram.clientEndpoint ∧
    ∀ n, k ≤ n → ∃ db,
      start requestInterval (.empty (firstDraws draws n)) clientEndpoint turns = (sent, .ok db)

/-- **The server stays up exactly as long as no announce without its hash arrives.**  Started on an
empty database with fair draws, through any turns in which fewer than `2 ^ 31` datagrams arrive
before the signal, of any sizes and contents, with any receives that fail, it answers each of them
once and in order if none is cut short in the announce handler, and else it does not get
through. -/
theorem staysUp_iff (requestInterval : Int32) {draws : ℕ → UInt32} (hfair : Fair draws)
    (clientEndpoint : SockaddrIn) {turns : List Turn} (hfew : (received turns).length < 2 ^ 31) :
    StaysUp requestInterval draws clientEndpoint turns ↔ ∀ d ∈ received turns, ¬ d.Hashless := by
  constructor
  · rintro ⟨sent, k, -, hup⟩
    obtain ⟨db, hstart⟩ := hup k le_rfl
    obtain ⟨tr, hr, htr, -⟩ := (start_eq_ok_iff clientEndpoint turns sent).1 hstart
    rw [← htr]
    exact not_hashless_of_run hr
  · intro hless
    obtain ⟨tr, k, htr, hrun⟩ :=
      exists_run_of_fair requestInterval hfair hfew length_message_of_received hless
    refine ⟨repliesTo tr, k, ?_, fun n hn => ?_⟩
    · rw [← htr, repliesTo, datagramsIn, List.map_map, List.map_map]
      rfl
    · obtain ⟨db, hr⟩ := hrun n hn
      exact ⟨db, (start_eq_ok_iff clientEndpoint turns _).2 ⟨tr, hr, htr, rfl⟩⟩

/-- Counting is fair. -/
theorem fair_ofNat : Fair UInt32.ofNat := by
  intro n hn r hr k
  refine ⟨2 ^ 32 * k + r, by omega, ?_⟩
  have hwrap : (UInt32.ofNat (2 ^ 32 * k + r)).toNat = r := by
    rw [UInt32.toNat_ofNat', Nat.mul_add_mod]
    exact Nat.mod_eq_of_lt (by omega)
  rw [hwrap, Nat.mod_eq_of_lt hr]

/-- Two announces, and a receive that is interrupted between them. -/
theorem staysUp_iff_interrupted : StaysUp 60 UInt32.ofNat straight
    [⟨true, .datagram (startedFrom straight 2).message straight, .zeroed⟩,
      ⟨true, .failed 4 (by decide), .zeroed⟩,
      ⟨true, .datagram (startedFrom straight 3).message straight, .zeroed⟩,
      ⟨false, .failed 4 (by decide), .zeroed⟩] :=
  (staysUp_iff 60 fair_ofNat straight (by decide)).2 (by decide)

end TorrentX
