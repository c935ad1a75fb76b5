import TorrentX.Tracker.Addresses
import TorrentX.Tracker.Initialised
import TorrentX.Tracker.ReplySize

/-!
# Tracker/ReadOnly — connects and scrapes change nothing that a reply shows

Every lookup of a torrent inserts it when it is absent, so a scrape does write to the database.
What replies are made of is the torrents, an absent one counting as empty, and the draws to come:
two databases alike in these (`Alike`) answer every datagram alike and stay alike
(`Alike.processRequest`), and a datagram that is no announce leaves a database alike to itself
(`alike_of_not_announce`).  So connects and scrapes can be left out of a run (`run_readOnly`).
-/

namespace TorrentX

open Wire TorrentDataBase

/-- Databases that no reply tells apart: one torrent for each info hash, and one sequence of
draws. -/
structure Alike (db db' : TorrentDataBase) : Prop where
  torrent : db.torrent = db'.torrent
  random : db.random = db'.random

namespace Alike

variable {db db' db₁ : TorrentDataBase}

theorem refl (db : TorrentDataBase) : Alike db db := ⟨rfl, rfl⟩

theorem trans (h : Alike db db') (h' : Alike db' db₁) : Alike db db₁ :=
  ⟨h.torrent.trans h'.torrent, h.random.trans h'.random⟩

theorem symm (h : Alike db db') : Alike db' db := ⟨h.torrent.symm, h.random.symm⟩

/-- A lookup leaves a database alike to itself. -/
theorem touch (db : TorrentDataBase) (h : Hash) : Alike (db.touch h) db := ⟨torrent_touch db h, rfl⟩

/-- An update of one torrent, and the draws made for it. -/
theorem set (h : Alike db db') (infoHash : Hash) (t : Torrent) (random : List UInt32) :
    Alike { db.set infoHash t with random } { db'.set infoHash t with random } := by
  refine ⟨?_, rfl⟩
  change (db.set infoHash t).torrent = (db'.set infoHash t).torrent
  rw [torrent_set, torrent_set, h.torrent]

end Alike

/-! ## Scrapes

`operator[]` is used to read a torrent, so a scrape of an unknown hash leaves an empty torrent
behind.  No reply tells an empty torrent from none. -/

/-- The entry of a scrape for one hash. -/
def scrapeOf (torrents : Hash → Torrent) (infoHash : Hash) : Scrape where
  complete := toInt32 (torrents infoHash).seeders
  downloaded := toInt32 (torrents infoHash).downloads
  incomplete := toInt32 (torrents infoHash).leechers

/-- **A scrape reads each torrent as it stands**, and leaves the database alike to itself. -/
theorem scrapeInfos_eq (db : TorrentDataBase) (infoHashes : List Hash) :
    (scrapeInfos db infoHashes).1 = infoHashes.map (scrapeOf db.torrent) ∧
      Alike (scrapeInfos db infoHashes).2 db := by
  induction infoHashes generalizing db with
  | nil => exact ⟨rfl, .refl db⟩
  | cons infoHash infoHashes ih =>
    have hread : Alike (((db.touch infoHash).touch infoHash).touch infoHash) db :=
      ((Alike.touch _ _).trans (.touch _ _)).trans (.touch _ _)
    obtain ⟨hinfos, halike⟩ := ih (((db.touch infoHash).touch infoHash).touch infoHash)
    constructor
    · rw [List.map_cons, ← hread.torrent, ← hinfos]
      simp only [scrapeInfos, countSeeders, countDownloads, countLeechers, scrapeOf, torrent_touch]
    · exact halike.trans hread

/-- Databases alike answer a scrape alike. -/
theorem Alike.handleScrape {db db' : TorrentDataBase} (ha : Alike db db') (request : Request) :
    (handleScrape db request).1 = (TorrentX.handleScrape db' request).1 := by
  have hinfos : (scrapeInfos db request.infoHashes).1 = (scrapeInfos db' request.infoHashes).1 := by
    rw [(scrapeInfos_eq _ _).1, (scrapeInfos_eq _ _).1, ha.torrent]
  exact congrArg (fun infos : List Scrape =>
    ({ action := request.action, transactionId := request.transactionId, sender := request.sender,
       scrapeInfo := infos } : Response)) hinfos

/-- A scrape leaves a database alike to itself. -/
theorem alike_handleScrape (db : TorrentDataBase) (request : Request) :
    Alike (handleScrape db request).2 db := (scrapeInfos_eq db request.infoHashes).2

/-! ## One datagram -/

section Step

variable {requestInterval : Int32} {db db' db₁ : TorrentDataBase} {request : Request}
  {response : Response} {packet : Bytes}

/-- The announce handler reads the torrent it names and the draws. -/
theorem Alike.handleAnnounce (ha : Alike db db')
    (h : handleAnnounce requestInterval db request = .ok (response, db₁)) :
    ∃ db₁', TorrentX.handleAnnounce requestInterval db' request = .ok (response, db₁') ∧
      Alike db₁ db₁' := by
  obtain ⟨infoHash, rest, peers, draws, err, t', hcons, hdrawn, hu, rfl, rfl⟩ := handleAnnounce_ok h
  rw [ha.torrent, ha.random] at hdrawn
  rw [ha.torrent] at hu
  refine ⟨{ db'.set infoHash t' with random := draws }, ?_, ha.set infoHash t' draws⟩
  rw [handleAnnounce_eq requestInterval db' hcons, bind_of_eq_ok hdrawn, bind_of_eq_ok hu,
    ha.torrent]
  rfl

/-- **Databases alike answer every request alike.** -/
theorem Alike.dispatch (ha : Alike db db')
    (h : dispatch requestInterval db request = .ok (response, db₁)) :
    ∃ db₁', TorrentX.dispatch requestInterval db' request = .ok (response, db₁') ∧
      Alike db₁ db₁' := by
  by_cases hh : Handled request.action
  · rcases hh with hc | hc | hc
    · rw [dispatch_of_connect requestInterval db hc] at h
      cases h
      exact ⟨db', dispatch_of_connect requestInterval db' hc, ha⟩
    · rw [dispatch_of_announce requestInterval db hc] at h
      rw [dispatch_of_announce requestInterval db' hc]
      exact ha.handleAnnounce h
    · rw [dispatch_of_scrape requestInterval db hc] at h
      cases h
      refine ⟨(TorrentX.handleScrape db' request).2, ?_, ?_⟩
      · rw [dispatch_of_scrape requestInterval db' hc]
        exact congrArg (fun response => Except.ok (response, _)) (ha.handleScrape request).symm
      · exact (alike_handleScrape db request).trans (ha.trans (alike_handleScrape db' request).symm)
  · rw [dispatch_of_not_handled requestInterval db hh] at h
    cases h
    exact ⟨db', dispatch_of_not_handled requestInterval db' hh, ha⟩

/-- Only an announce changes what replies are made of. -/
theorem alike_of_not_announce (ha : request.action ≠ .announce)
    (h : TorrentX.dispatch requestInterval db request = .ok (response, db₁)) : Alike db₁ db := by
  by_cases hh : Handled request.action
  · rcases hh with hc | hc | hc
    · rw [dispatch_of_connect requestInterval db hc] at h
      cases h
      exact .refl db
    · exact absurd hc ha
    · rw [dispatch_of_scrape requestInterval db hc] at h
      cases h
      exact alike_handleScrape db request
  · rw [dispatch_of_not_handled requestInterval db hh] at h
    cases h
    exact .refl db

end Step

/-! ## Runs without their connects and scrapes -/

/-- A well-formed connect, announce or scrape. -/
def Datagram.IsRequest (d : Datagram) : Prop := WellFormed d.message ∧ Handled (actionAt d.message)

/-- Datagrams of one message from one endpoint. -/
def Datagram.Same (d d' : Datagram) : Prop :=
  d.message = d'.message ∧ d.clientEndpoint = d'.clientEndpoint

/-- A connect or a scrape. -/
def Datagram.ReadsOnly (d : Datagram) : Prop :=
  actionAt d.message = .connect ∨ actionAt d.message = .scrape

section Datagrams

variable {requestInterval : Int32} {db db' db₁ : TorrentDataBase} {d d' : Datagram} {packet : Bytes}

/-- **Databases alike answer every well-formed datagram alike**, whatever uninitialised memory
holds. -/
theorem Alike.processRequest (ha : Alike db db') (hd : d.IsRequest) (hsame : d.Same d')
    (h : processRequest requestInterval db d = .ok (packet, db₁)) :
    ∃ db₁', TorrentX.processRequest requestInterval db' d' = .ok (packet, db₁') ∧
      Alike db₁ db₁' := by
  obtain ⟨m, ep, uninit⟩ := d
  obtain ⟨m', ep', uninit'⟩ := d'
  obtain ⟨rfl, rfl⟩ : m = m' ∧ ep = ep' := hsame
  have hm : rejection m = none := (rejection_eq_none_iff m).2 hd.1
  have hparse : Datagram.parse ⟨m, ep, uninit⟩ = .ok (acceptedRequest uninit m ep) :=
    parse_accepted uninit m ep hm
  obtain ⟨response, hdisp, hmake⟩ := processRequest_ok hparse h
  obtain ⟨db₁', hdisp', halike⟩ := ha.dispatch hdisp
  refine ⟨db₁', ?_, halike⟩
  rw [(same_of_accepted requestInterval db' ep hm uninit' uninit).2,
    processRequest_of_parse requestInterval db' hparse,
    bind_of_eq_ok hdisp', bind_of_eq_ok hmake]
  rfl

/-- A connect or a scrape leaves a database alike to itself. -/
theorem alike_of_readsOnly (hd : d.IsRequest) (hread : d.ReadsOnly)
    (h : TorrentX.processRequest requestInterval db d = .ok (packet, db₁)) : Alike db₁ db := by
  have hm : rejection d.message = none := (rejection_eq_none_iff _).2 hd.1
  have hparse := parse_accepted d.uninit d.message d.clientEndpoint hm
  obtain ⟨response, hdisp, -⟩ := processRequest_ok hparse h
  refine alike_of_not_announce ?_ hdisp
  rw [(header_of_parse hd.1.1 hparse).1]
  rcases hread with hread | hread <;> rw [hread] <;> decide

end Datagrams

/-- **Connects and scrapes are observably read-only.**  From a run of well-formed connects,
announces and scrapes from the empty database, any of the connects and scrapes may be left out: the
rest runs with the replies it had, and ends with the same torrents. -/
theorem run_readOnly {requestInterval : Int32} {random : List UInt32}
    {tr tr' : List (Datagram × Bytes)} {db : TorrentDataBase}
    (hr : Run (processRequest requestInterval) (.empty random) tr db)
    (hreq : ∀ d ∈ datagramsIn tr, d.IsRequest)
    (hthin : Thins Datagram.Same Datagram.ReadsOnly tr tr') :
    ∃ db', Run (processRequest requestInterval) (.empty random) tr' db' ∧
      ∀ h, db'.torrent h = db.torrent h := by
  have hvalid : ∀ x ∈ tr, x.1.IsRequest := fun x hx => hreq x.1 (List.mem_map_of_mem hx)
  obtain ⟨db', hr', halike⟩ := hr.thin Alike Datagram.IsRequest
    (fun hd ha hsame h => ha.processRequest hd hsame h)
    (fun hd ha hread h => (alike_of_readsOnly hd hread h).trans ha)
    (Alike.refl (.empty random)) hthin hvalid
  exact ⟨db', hr', fun h => congrFun halike.torrent.symm h⟩

/-- A scrape of one hash. -/
def scrapeOne : Datagram := ⟨WireRequest.encode (.scrape 0 9 [.fill 1]), ⟨0, 0⟩, .zeroed⟩

/-- A scrape that is encoded by its layout is well formed. -/
theorem wellFormed_scrapeOne : WellFormed scrapeOne.message := by
  have hvalid : (WireRequest.scrape 0 9 [Hash.fill 1]).Valid := List.cons_ne_nil _ _
  exact WireRequest.wellFormed_encode hvalid

/-- A connect, an announce and a scrape, and the announce alone. -/
theorem run_readOnly_announce : ∃ packet₁ packet₂ packet₃ db db',
    Run (processRequest 60) (.empty [])
      [(bareHeader .connect, packet₁), (startedFrom straight 2, packet₂), (scrapeOne, packet₃)] db ∧
    Run (processRequest 60) (.empty []) [(startedFrom straight 2, packet₂)] db' ∧
    ∀ h, db'.torrent h = db.torrent h := by
  have hr₂ : Run (processRequest 60) (.empty [])
      [(bareHeader .connect, _), (startedFrom straight 2, _)] _ := .snoc (.snoc .nil rfl) rfl
  obtain ⟨packet₃, db, h₃⟩ := exists_reply_of_not_announce 60 _ scrapeOne
    ((rejection_eq_none_iff _).2 wellFormed_scrapeOne) (by decide) (by decide)
  have hr := hr₂.snoc h₃
  have hreq : ∀ d ∈ [bareHeader .connect, startedFrom straight 2, scrapeOne], d.IsRequest := by
    intro d hd
    rcases List.mem_cons.1 hd with rfl | hd
    · exact ⟨WireRequest.wellFormed_encode (w := .connect 0 0x01020304) trivial, by decide⟩
    · rcases List.mem_pair.1 hd with rfl | rfl
      · exact ⟨(isAnnounce_startedFrom _ _).1, .inr (.inl (isAnnounce_startedFrom _ _).2)⟩
      · exact ⟨wellFormed_scrapeOne, .inr (.inr rfl)⟩
  have hsame : (startedFrom straight 2).Same (startedFrom straight 2) := ⟨rfl, rfl⟩
  obtain ⟨db', hr', htorrent⟩ := run_readOnly hr hreq
    (.drop (.keep (.drop .nil (.inl rfl)) hsame) (.inr rfl))
  exact ⟨_, _, packet₃, db, db', hr, hr', htorrent⟩

end TorrentX
