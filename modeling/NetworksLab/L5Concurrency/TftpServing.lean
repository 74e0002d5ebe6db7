import NetworksLab.Core.Reactor
import NetworksLab.L3Protocol.TftpBlocks
import NetworksLab.L3Protocol.TftpStore
import NetworksLab.L5Concurrency.TftpCourse

/-!
# What the TFTP server gives and takes (`udp/lib/Server.cpp`)

Every run of the poll loop, with any number of sessions in both modes, whatever the
clients send, timeouts included. A session is followed through a run of its own
(`shows_reachable`), one step after the other.

Results:
* `downloads_served`: what a session that reads sends is the file, as long as nobody is
  asked to write it.
* `uploads_stored`: what a session that writes has acknowledged is in the file, when it
  is the only one to write it and the disk takes all.
-/
namespace NetworksLab.L5.TftpPoll
open NetworksLab.L1.Packet NetworksLab.L1.NetAscii NetworksLab.L2.Stream NetworksLab.L3.Tftp

variable {K : Type} [DecidableEq K] {S : Setup K} {w w' : World K} {id : Nat} {k : K}

/-! ## How a course begins -/

/-- The course of a session that this request has opened. -/
def Course.Opened (t : Course) (src : Endpoint) (q : TRequestPacket) : Prop :=
  t.events.head?.bind Happening.opener = some (src, q)

omit [DecidableEq K] in
theorem Shows.opened {t : Course} (h : Shows w id k t) {src : Endpoint} {q : TRequestPacket}
    (ho : w.opening id = some (src, q)) : t.Opened src q := by
  rw [Course.Opened, ← h.events]
  exact ho

theorem opened_of_request {fd : Nat} {port : UInt16} {d : Datagram} {e : Env} {events : List Happening}
    {src : Endpoint} {q : TRequestPacket}
    (h : (Happening.request id fd port d e :: events).head?.bind Happening.opener = some (src, q)) :
    d.src = src ∧ d.packet = some (.request q) := by
  simp only [List.head?_cons, Option.bind_some, Happening.opener] at h
  split at h
  · rename_i q' hq
    obtain ⟨rfl, rfl⟩ := Prod.mk.inj (Option.some.inj h)
    exact ⟨rfl, hq⟩
  · cases h

/-- An invariant of the courses that a request opens: it holds behind the request, and
every later step keeps it. -/
theorem course_invariant {P : Course → Prop} {src : Endpoint} {q : TRequestPacket} {file : Option IStream}
    (hfile : S.files k = file)
    (hrequest : ∀ {files : FileSystem K} {fd port d e r} (io : Io), files k = file →
      S.acceptClient files id fd port d e = some (.opened r) → d.src = src → d.packet = some (.request q) →
      P (Course.open_ S k ⟨.unborn, [], [], file⟩ r (.request id fd port d e) io))
    (hdatagram : ∀ {t : Course} {files : FileSystem K} {c : Session} (d : Datagram) (e : Env), P t →
      t.stage = .going c → files k = t.file → P (t.handle k (c.handlePacket S files d e) (.datagram d e)))
    (hlate : ∀ {t : Course} {c : Session}, P t → t.stage = .going c → P { t with stage := .ended c })
    (hsweep : ∀ {t : Course} {c : Session} (io : Io), P t → t.stage = .going c →
      P { t with events := t.events ++ [.sweep io] })
    (hdestroy : ∀ {t : Course} {files : FileSystem K} {c : Session} (io : Io), P t → t.stage = .ended c →
      files k = t.file → P ⟨.gone, t.events ++ [.sweep io], t.sent, c.destroy S files io k⟩)
    {t : Course} (h : (course S id k).Reachable t) (ho : t.Opened src q) : P t := by
  have hind : (course S id k).Inductive fun t => t = ⟨.unborn, [], [], file⟩ ∨
      (t.stage ≠ .unborn ∧ t.events ≠ [] ∧ (t.Opened src q → P t)) := by
    refine ⟨fun t ht => .inl (hfile ▸ ht), fun t _ t' hinv hs => .inr ?_⟩
    have hs : Course.Step S id k t t' := hs
    have hborn {stage : Stage} (hstage : t.stage = stage) (hne : stage ≠ .unborn) :
        t.events ≠ [] ∧ (t.Opened src q → P t) := by
      rcases hinv with rfl | hinv
      · exact absurd hstage.symm hne
      · exact hinv.2
    have hgrow {events : List Happening} (hne : t.events ≠ [])
        (ho : (t.events ++ events).head?.bind Happening.opener = some (src, q)) : t.Opened src q := by
      rwa [List.head?_append_of_ne_nil _ hne] at ho
    cases hs with
    | request hstage hf hr io =>
      rcases hinv with rfl | hinv
      · refine ⟨?_, by simp [Course.open_], fun ho => ?_⟩
        · simp only [Course.open_]
          split <;> simp
        · obtain ⟨hsrc, hq⟩ := opened_of_request ho
          exact hrequest io hf hr hsrc hq
      · exact absurd hstage hinv.1
    | datagram hstage hf d e =>
      obtain ⟨hne, hP⟩ := hborn hstage Stage.noConfusion
      refine ⟨?_, by simp [Course.handle], fun ho => hdatagram d e (hP (hgrow hne ho)) hstage hf⟩
      simp only [Course.handle]
      split <;> simp
    | late hstage =>
      obtain ⟨hne, hP⟩ := hborn hstage Stage.noConfusion
      exact ⟨by simp, hne, fun ho => hlate (hP ho) hstage⟩
    | sweep hstage io =>
      obtain ⟨hne, hP⟩ := hborn hstage Stage.noConfusion
      exact ⟨by simp [hstage], by simp, fun ho => hsweep io (hP (hgrow hne ho)) hstage⟩
    | destroy hstage hf io =>
      obtain ⟨hne, hP⟩ := hborn hstage Stage.noConfusion
      exact ⟨by simp, by simp, fun ho => hdestroy io (hP (hgrow hne ho)) hstage hf⟩
  rcases hind.reachable t h with rfl | hinv
  · cases ho
  · exact hinv.2.2 ho

/-! ## Downloads -/

/-- The number of the block that a packet acknowledges; a request counts as 0. -/
def Happening.answers (x : Happening) : Option UInt16 :=
  match x.packet with
  | some (.request _) => some 0
  | some (.ack p) => some p.blockID
  | _ => none

/-- The number of the last block of a file. -/
def lastBlock (mode : ETransferMode) (F : Bytes) : Nat :=
  match mode with
  | .octet => F.length / 512 + 1
  | .netascii => ((toNetASCII F).length + 511) / 512

/-- The source in front of block `n + 1`. -/
def atBlock (mode : ETransferMode) (F : Bytes) (n : Nat) (src : Source) : Prop :=
  match mode with
  | .octet => ∃ from_, src = .octet from_ ∧ IStream.At 512 F n from_
  | .netascii => src = .netAscii (toNetASCII F) (min (512 * n) (toNetASCII F).length)

theorem mode_cursor (mode : ETransferMode) (F : Bytes) :
    BlockCursor (wireText mode F) (lastBlock mode F) (atBlock mode F) := by
  cases mode with
  | octet => exact octet_cursor F
  | netascii => exact netAscii_cursor (toNetASCII F)

/-- The `n` blocks of the file that a session has sent. -/
structure Downloaded (mode : ETransferMode) (F : Bytes) (src : Endpoint) (events : List Happening) (sends : Sends)
    (n : Nat) : Prop where
  /-- each once and in order, to the client that has asked -/
  sent : dealt sends = (sentBlocks (wireText mode F) n).map fun b => (src, .data b)
  /-- block 1 behind the request, each other one behind an acknowledgement of the one before -/
  heard : Heard Happening.answers events ((List.range n).map UInt16.ofNat)
  bound : n ≤ lastBlock mode F

section
variable {mode : ETransferMode} {F : Bytes} {src : Endpoint} {events : List Happening} {sends : Sends} {n : Nat}

theorem Downloaded.nil : Downloaded mode F src [] [] 0 := ⟨rfl, .nil, Nat.zero_le _⟩

theorem Downloaded.append (h : Downloaded mode F src events sends n) (more : List Happening) :
    Downloaded mode F src (events ++ more) sends n := ⟨h.sent, h.heard.append more, h.bound⟩

/-- Something has happened that the session has not answered with a block. -/
theorem Downloaded.idle (h : Downloaded mode F src events sends n) (x : Happening) {sends' : Sends}
    (hsends : ∀ q ∈ sends', ∃ e, q.2 = .error e) : Downloaded mode F src (events ++ [x]) (sends ++ sends') n where
  sent := by rw [dealt_append, dealt_errors hsends, List.append_nil, h.sent]
  heard := h.heard.append _
  bound := h.bound

theorem answers_of_visit {files : Files} {x : Happening} {p : TPacket} {blockID : UInt16} (hx : x.packet = some p)
    (h : (TReadingClientBase.visitor files).visit p = .got blockID) : x.answers = some blockID := by
  rw [Happening.answers, hx]
  cases p with
  | request q =>
    simp only [Expecting.visit, TReadingClientBase.visitor] at h
    split at h
    · exact congrArg some (Visited.got.inj h)
    · cases h
  | ack p => exact congrArg some (Visited.got.inj h)
  | data p => cases h
  | error e => cases h

/-- Step lemma, for the packet of any event. -/
theorem Downloaded.handle (h : Downloaded mode F src events sends n) {source : Source}
    (hat : atBlock mode F n source) (files : Files) {x : Happening} {p : TPacket} (hx : x.packet = some p) :
    let r := TReadingClientBase.handle files ⟨UInt16.ofNat n, source⟩ p
    ∃ n', Downloaded mode F src (events ++ [x]) (sends ++ r.sends.map fun q => (src, q)) n' ∧
      (r.more = true → ∃ source', r.client = ⟨UInt16.ofNat n', source'⟩ ∧ atBlock mode F n' source') := by
  have ho := TReadingClientBase.handle_outcome files ⟨UInt16.ofNat n, source⟩ p
  generalize TReadingClientBase.handle files ⟨UInt16.ofNat n, source⟩ p = r at ho
  cases ho with
  | ended hmore hsends =>
    refine ⟨n, h.idle x fun q hq => ?_, fun hr => ?_⟩
    · obtain ⟨q', hq', rfl⟩ := List.mem_map.mp hq
      exact hsends q' hq'
    · rw [hmore] at hr
      cases hr
  | stale => exact ⟨n, h.idle x fun q hq => absurd hq List.not_mem_nil, fun _ => ⟨source, rfl, hat⟩⟩
  | next hvisit heof =>
    have hc := mode_cursor mode F
    have hlt : n < lastBlock mode F := by
      by_contra hge
      have := (hc.eof hat).mpr (Nat.le_of_not_lt hge)
      rw [this] at heof
      cases heof
    obtain ⟨hdata, hat'⟩ := hc.next hat hlt
    have hnumber : UInt16.ofNat n + 1 = UInt16.ofNat (n + 1) := (UInt16.ofNat_add n 1).symm
    refine ⟨n + 1, ⟨?_, ?_, hlt⟩, fun _ => ⟨_, by rw [hnumber], hat'⟩⟩
    · simp only [hnumber, hdata]
      rw [dealt_append, h.sent, sentBlocks_succ, List.map_append]
      rfl
    · rw [List.range_succ, List.map_append]
      exact h.heard.next (answers_of_visit hx hvisit)

/-- A session behind `n` blocks. -/
structure Downloading (mode : ETransferMode) (F : Bytes) (src : Endpoint) (n : Nat) (c : Session) : Prop where
  address : c.client.address = src
  role : ∃ source, c.client.role = .reading ⟨UInt16.ofNat n, source⟩ ∧ atBlock mode F n source

theorem Downloaded.datagram (h : Downloaded mode F src events sends n) {c : Session}
    (hc : Downloading mode F src n c) (files : FileSystem K) (d : Datagram) (e : Env) :
    let r := c.handlePacket S files d e
    ∃ n', Downloaded mode F src (events ++ [.datagram d e]) (sends ++ r.sends) n' ∧
      (r.more = true → Downloading mode F src n' r.session) := by
  obtain ⟨source, hrole, hat⟩ := hc.role
  simp only [Session.handlePacket]
  cases hp : (TTransport.receive d.src d.bytes).packet with
  | error err =>
    refine ⟨n, h.idle _ fun q hq => ?_, fun hmore => ?_⟩
    · simp only [IClient.handlePacket, hp, List.mem_singleton] at hq
      exact ⟨_, congrArg (·.2) hq⟩
    · simp only [IClient.handlePacket, hp, Bool.false_eq_true] at hmore
  | ok p =>
    have hx : (Happening.datagram d e).packet = some p := by rw [Happening.packet, Datagram.packet, hp]; rfl
    obtain ⟨n', h', hgoes⟩ := h.handle hat (S.view files) hx
    have heq : TTransport.receive d.src d.bytes = ⟨d.src, .ok p⟩ := by rw [← hp]; rfl
    rw [heq, IClient.handlePacket_reading hrole, hc.address]
    refine ⟨n', h', fun hmore => ⟨rfl, ?_⟩⟩
    obtain ⟨source', hclient, hat'⟩ := hgoes hmore
    exact ⟨source', congrArg Role.reading hclient, hat'⟩

/-- The session that a request opens. -/
theorem newClient_reading {files : Files} {opened : Bool} {q : TRequestPacket} {role : Role} (hread : q.type = .read)
    (hF : files q.filename = some (.ofBytes F)) (h : newClient files opened q = some role) :
    ∃ source, role = .reading ⟨UInt16.ofNat 0, source⟩ ∧ atBlock q.mode F 0 source := by
  unfold newClient at h
  cases hmode : q.mode with
  | octet =>
    simp only [hread, hmode, hF, Option.getD_some, Option.some.injEq] at h
    exact ⟨_, h.symm, _, rfl, .start⟩
  | netascii =>
    simp only [hread, hmode, hF, Option.getD_some, IStream.contents, IStream.ofBytes, Option.map_some,
      Option.some.injEq] at h
    exact ⟨_, h.symm, by simp [atBlock]⟩

theorem Downloaded.request {files : FileSystem K} {fd : Nat} {port : UInt16} {d : Datagram} {e : Env} {r : Reply K}
    {q : TRequestPacket} (hr : S.acceptClient files id fd port d e = some (.opened r))
    (hq : d.packet = some (.request q)) (hread : q.type = .read)
    (hF : files (S.path q.filename) = some (.ofBytes F)) :
    ∃ n, Downloaded q.mode F d.src [.request id fd port d e] r.sends n ∧
      (r.more = true → Downloading q.mode F d.src n r.session) := by
  obtain ⟨q', role, hq', hnew, rfl⟩ := acceptClient_opens hr
  obtain rfl : q = q' := TPacket.request.inj (Option.some.inj (hq.symm.trans hq'))
  obtain ⟨source, rfl, hat⟩ := newClient_reading hread hF hnew
  have hx : (Happening.request id fd port d e).packet = some (.request q) := hq
  have hnil : Downloaded q.mode F d.src [] [] 0 := .nil
  obtain ⟨n, h, hgoes⟩ := hnil.handle hat (S.view files) hx
  refine ⟨n, h, fun hmore => ⟨rfl, ?_⟩⟩
  obtain ⟨source', hclient, hat'⟩ := hgoes hmore
  exact ⟨source', congrArg Role.reading hclient, hat'⟩

end

/-- What a course that begins with the request for a download has come to. -/
structure Serves (S : Setup K) (k : K) (F : Bytes) (src : Endpoint) (q : TRequestPacket) (t : Course) : Prop where
  file : t.file = some (.ofBytes F)
  blocks : ∃ n, Downloaded q.mode F src t.events t.sent n ∧ ∀ c, t.stage = .going c → Downloading q.mode F src n c
  ended : ∀ c, t.stage = .ended c → ¬ c.Writes S k

omit [DecidableEq K] in
theorem Downloading.not_writes {mode : ETransferMode} {F : Bytes} {src : Endpoint} {n : Nat} {c : Session}
    (h : Downloading mode F src n c) : ¬ c.Writes S k := by
  rintro ⟨⟨r, hr⟩, -⟩
  obtain ⟨source, hrole, -⟩ := h.role
  rw [hrole] at hr
  cases hr

theorem request_not_writes {files : FileSystem K} {fd : Nat} {port : UInt16} {d : Datagram} {e : Env} {r : Reply K}
    {q : TRequestPacket} (hr : S.acceptClient files id fd port d e = some (.opened r))
    (hq : d.packet = some (.request q)) (hread : q.type = .read) : ¬ r.session.Writes S k := by
  obtain ⟨q', role, hq', hnew, rfl⟩ := acceptClient_opens hr
  obtain rfl : q = q' := TPacket.request.inj (Option.some.inj (hq.symm.trans hq'))
  rintro ⟨hrole, -⟩
  have hwrite := (newClient_writing hnew).mp ((writing_handle _ _ _ _).mp hrole)
  rw [hread] at hwrite
  cases hwrite

theorem serves_of_course {src : Endpoint} {q : TRequestPacket} {F : Bytes} (hread : q.type = .read)
    (hF : S.files (S.path q.filename) = some (.ofBytes F)) {t : Course}
    (h : (course S id (S.path q.filename)).Reachable t) (ho : t.Opened src q) :
    Serves S (S.path q.filename) F src q t := by
  refine course_invariant (P := Serves S (S.path q.filename) F src q) hF ?_ ?_ ?_ ?_ ?_ h ho
  · intro files fd port d e r io hf hr hsrc hq
    subst hsrc
    obtain ⟨n, hdown, hgoes⟩ := Downloaded.request hr hq hread hf
    have hnot : ¬ r.session.Writes S (S.path q.filename) := request_not_writes hr hq hread
    have hfile := (opened_frame hr hnot).trans hf
    refine ⟨?_, ⟨n, hdown.append [.sweep io], fun c hc => ?_⟩, fun c hc => ?_⟩
    · simp only [Course.open_]
      split
      · exact hfile
      · exact (Session.destroy_frame hnot io).trans hfile
    all_goals
      simp only [Course.open_] at hc
      split at hc
    · rename_i hmore
      exact Stage.going.inj hc ▸ hgoes hmore
    · cases hc
    · cases hc
    · cases hc
  · intro t files c d e h hstage hf
    obtain ⟨n, hdown, hgoing⟩ := h.blocks
    have hc := hgoing c hstage
    obtain ⟨n', hdown', hgoes⟩ := hdown.datagram (S := S) hc files d e
    refine ⟨?_, ⟨n', hdown', fun c' hc' => ?_⟩, fun c' hc' => ?_⟩
    · exact ((Session.handlePacket_frame hc.not_writes d e).trans hf).trans h.file
    all_goals
      simp only [Course.handle] at hc'
      split at hc'
    · rename_i hmore
      exact Stage.going.inj hc' ▸ hgoes hmore
    · cases hc'
    · cases hc'
    · exact Stage.ended.inj hc' ▸ fun hw => hc.not_writes ((Session.handlePacket_writes d e).mp hw)
  · intro t c h hstage
    obtain ⟨n, hdown, hgoing⟩ := h.blocks
    refine ⟨h.file, ⟨n, hdown, fun c' hc' => by cases hc'⟩, fun c' hc' => ?_⟩
    exact Stage.ended.inj hc' ▸ (hgoing c hstage).not_writes
  · intro t c io h hstage
    obtain ⟨n, hdown, hgoing⟩ := h.blocks
    exact ⟨h.file, ⟨n, hdown.append _, hgoing⟩, h.ended⟩
  · intro t files c io h hstage hf
    obtain ⟨n, hdown, hgoing⟩ := h.blocks
    refine ⟨?_, ⟨n, hdown.append _, fun c' hc' => by cases hc'⟩, fun c' hc' => by cases hc'⟩
    exact ((Session.destroy_frame (h.ended c hstage) io).trans hf).trans h.file

/-- **Downloads.** In every run of the server, for each session that reads a file which
nobody has been asked to write: it has sent the first blocks of the file, each once and in
order, to the client that has asked for it, each behind the acknowledgement of the one
before; and the file is what it was. -/
theorem downloads_served (h : (server S).Reachable w) {src : Endpoint} {q : TRequestPacket} {F : Bytes}
    (ho : w.opening id = some (src, q)) (hread : q.type = .read)
    (hF : S.files (S.path q.filename) = some (.ofBytes F)) (hspared : w.Spared S id (S.path q.filename)) :
    w.files (S.path q.filename) = some (.ofBytes F) ∧ ∃ n, Downloaded q.mode F src (w.own id) (w.sent id) n := by
  obtain ⟨-, t, ht, hshows⟩ := shows_reachable h hspared
  have hserves := serves_of_course hread hF ht (hshows.opened ho)
  obtain ⟨n, hdown, -⟩ := hserves.blocks
  rw [hshows.file, hshows.events, hshows.sent]
  exact ⟨hserves.file, n, hdown⟩

theorem downloads_served_two : ∃ w : World Bytes, w.sent 0 = [(reader, .data ⟨1, [0x68, 0x69]⟩)] ∧
    w.files [0x61] = some (.ofBytes [0x68, 0x69]) ∧
    Downloaded .octet [0x68, 0x69] reader (w.own 0) (w.sent 0) 1 := by
  obtain ⟨w, hw, hopenings⟩ := Option.map_eq_some_iff.mp twoRun_openings
  have ho : w.opening 0 = some (reader, ⟨.read, [0x61], .octet⟩) := (Prod.mk.inj (Prod.mk.inj hopenings).2).1
  have hsent := twoRun_sent
  rw [hw, Option.map_some, Option.some.injEq] at hsent
  obtain ⟨hsent, -⟩ := of_decide_eq_true hsent
  obtain ⟨hfile, n, hdown⟩ :=
    downloads_served (twoRun_reachable hw) ho rfl rfl (twoRun_spared hw 0 [0x61] (.inr (by decide)))
  obtain rfl : n = 1 := by
    have hlength := congrArg List.length hdown.sent
    rw [hsent, List.length_map, sentBlocks, List.length_map, List.length_range] at hlength
    exact hlength.symm
  exact ⟨w, hsent, hfile, hdown⟩

/-! ## Uploads -/

/-- The number and the payload of a block; a request counts as an empty block 0. -/
def Happening.offers (x : Happening) : Option (UInt16 × Bytes) :=
  match x.packet with
  | some (.request _) => some (0, [])
  | some (.data p) => some (p.blockID, p.data)
  | _ => none

/-- Files open, and the disk takes what is written. -/
def Happening.Stores : Happening → Prop
  | .request _ _ _ _ e => e.io.opened = true ∧ e.io.disk = .stores
  | .datagram _ e => e.io.disk = .stores
  | .sweep io => io.opened = true ∧ io.disk = .stores

instance : DecidablePred Happening.Stores
  | .request _ _ _ _ e => inferInstanceAs (Decidable (e.io.opened = true ∧ e.io.disk = .stores))
  | .datagram _ e => inferInstanceAs (Decidable (e.io.disk = .stores))
  | .sweep io => inferInstanceAs (Decidable (io.opened = true ∧ io.disk = .stores))

/-- The payloads that a session has taken, the first one that of its request. -/
structure Uploaded (src : Endpoint) (events : List Happening) (sends : Sends) (ds : List Bytes) : Prop where
  heard : Heard Happening.offers events (ds.mapIdx fun i d => (UInt16.ofNat i, d))
  /-- each is acknowledged once, to the client that has asked -/
  acked : dealt sends = (List.range ds.length).map fun i => (src, .ack ⟨UInt16.ofNat i⟩)
  /-- a short one is the last, unless the counter has wrapped there -/
  full : ∀ i d, ds[i]? = some d → i + 1 < ds.length → i % 65536 = 0 ∨ d.length = 512

section
variable {src : Endpoint} {events : List Happening} {sends : Sends} {ds : List Bytes}

theorem Uploaded.nil : Uploaded src [] [] [] := ⟨.nil, rfl, fun _ _ h => by cases h⟩

theorem Uploaded.append (h : Uploaded src events sends ds) (more : List Happening) :
    Uploaded src (events ++ more) sends ds := ⟨h.heard.append more, h.acked, h.full⟩

theorem Uploaded.idle (h : Uploaded src events sends ds) (x : Happening) {sends' : Sends}
    (hsends : ∀ q ∈ sends', ∃ e, q.2 = .error e) : Uploaded src (events ++ [x]) (sends ++ sends') ds where
  heard := h.heard.append _
  acked := by rw [dealt_append, dealt_errors hsends, List.append_nil, h.acked]
  full := h.full

theorem offers_of_visit {x : Happening} {p : TPacket} {blockID : UInt16} {data : Bytes} (hx : x.packet = some p)
    (h : TWritingClientBase.visitor.visit p = .got (blockID, data)) : x.offers = some (blockID, data) := by
  rw [Happening.offers, hx]
  cases p with
  | request q => exact congrArg some (Visited.got.inj h)
  | data p => exact congrArg some (Visited.got.inj h)
  | ack p => cases h
  | error e => cases h

/-- Behind each of these payloads a session goes on. -/
def GoesOn (ds : List Bytes) : Prop := ∀ i d, ds[i]? = some d → i % 65536 = 0 ∨ d.length = 512

/-- One payload more. -/
theorem Uploaded.next (h : Uploaded src events sends ds) (hgoes : GoesOn ds) {x : Happening} {data : Bytes}
    (hx : x.offers = some (UInt16.ofNat ds.length, data)) :
    Uploaded src (events ++ [x]) (sends ++ [(src, .ack ⟨UInt16.ofNat ds.length⟩)]) (ds ++ [data]) where
  heard := by
    rw [List.mapIdx_concat]
    exact h.heard.next hx
  acked := by
    rw [dealt_append, h.acked, List.length_append, List.length_singleton, List.range_succ, List.map_append]
    rfl
  full i d hi hlt := by
    rw [List.length_append, List.length_singleton] at hlt
    exact hgoes i d (by rwa [List.getElem?_append_left (by omega)] at hi)

/-- Step lemma, for the packet of any event. -/
theorem Uploaded.handle (h : Uploaded src events sends ds) (hgoes : GoesOn ds) (sink : Sink) (disk : Disk)
    {x : Happening} {p : TPacket} (hx : x.packet = some p) :
    let r := TWritingClientBase.handle disk ⟨UInt16.ofNat ds.length, sink⟩ p
    (Uploaded src (events ++ [x]) (sends ++ r.sends.map fun q => (src, q)) ds ∧
        r.client = ⟨UInt16.ofNat ds.length, sink⟩) ∨
      ∃ data, Uploaded src (events ++ [x]) (sends ++ r.sends.map fun q => (src, q)) (ds ++ [data]) ∧
        r.client = ⟨UInt16.ofNat (ds.length + 1), sink.append data disk⟩ ∧
        (r.more = true → GoesOn (ds ++ [data])) := by
  have ho := TWritingClientBase.handle_outcome disk ⟨UInt16.ofNat ds.length, sink⟩ p
  generalize TWritingClientBase.handle disk ⟨UInt16.ofNat ds.length, sink⟩ p = r at ho
  cases ho with
  | ended hclient hmore hsends =>
    refine .inl ⟨h.idle x fun q hq => ?_, hclient⟩
    obtain ⟨q', hq', rfl⟩ := List.mem_map.mp hq
    exact hsends q' hq'
  | stale => exact .inl ⟨h.idle x fun q hq => absurd hq List.not_mem_nil, rfl⟩
  | @block data hvisit =>
    have hnumber : UInt16.ofNat ds.length + 1 = UInt16.ofNat (ds.length + 1) := (UInt16.ofNat_add ds.length 1).symm
    refine .inr ⟨data, h.next hgoes (offers_of_visit hx hvisit), by rw [hnumber], fun hmore i d hi => ?_⟩
    rw [TWritingClientBase.counter_wraps_iff, Bool.or_eq_true, decide_eq_true_eq, beq_iff_eq] at hmore
    rcases Nat.lt_trichotomy i ds.length with hlt | rfl | hgt
    · exact hgoes i d (by rwa [List.getElem?_append_left hlt] at hi)
    · rw [List.getElem?_concat_length] at hi
      exact Option.some.inj hi ▸ hmore
    · rw [List.getElem?_eq_none (by simp; omega)] at hi
      cases hi

/-! ### The file -/

/-- The file, as long as the session has this sink: an octet session writes each payload
at once, a NetASCII session none before its end. -/
def Holds (initial : Option IStream) (ds : List Bytes) (file : Option IStream) : ETransferMode → Sink → Prop
  | .octet, .octet out => out.good = true ∧ out.written = ds.flatten ∧ file = some (.ofBytes ds.flatten)
  | .netascii, .netAscii data => data = ds.flatten ∧ file = initial
  | _, _ => False

/-- The file behind the session. -/
def storedText (mode : ETransferMode) (ds : List Bytes) : Bytes :=
  match mode with
  | .octet => ds.flatten
  | .netascii => fromNetASCII ds.flatten

omit [DecidableEq K] in
theorem overlay_end (D data : Bytes) : overlay D D.length data = D ++ data := by
  simp [overlay]

variable {initial file : Option IStream} {mode : ETransferMode} {sink : Sink}

/-- The bytes that a write has got through stand at the end of the file. -/
theorem flushed_end {files : FileSystem K} {out out' : OStream} {D data : Bytes} (hgood : out.good = true)
    (hwritten : out.written = D) (hfile : files k = some (.ofBytes D)) (hafter : out'.written = D ++ data) :
    flushed files k out out' k = some (.ofBytes (D ++ data)) := by
  rw [flushed, if_pos hgood, Function.update_self, overwritten, hfile, hwritten, hafter, List.drop_left']
  · exact congrArg (fun F => some (IStream.ofBytes F)) (overlay_end D data)
  · rfl

/-- A payload that the disk stores. -/
theorem Holds.append {files : FileSystem K} (h : Holds initial ds (files k) mode sink) (blockID blockID' : UInt16)
    (data : Bytes) : Holds initial (ds ++ [data])
      (appended files k (.writing ⟨blockID, sink⟩) (.writing ⟨blockID', sink.append data .stores⟩) k) mode
      (sink.append data .stores) := by
  cases sink with
  | octet out =>
    cases mode with
    | netascii => exact h.elim
    | octet =>
      obtain ⟨hgood, hwritten, hfile⟩ := h
      have hafter : (out.write data .stores).written = ds.flatten ++ data := by
        rw [← hwritten, out.eq_of_good hgood]
        exact (OStream.written_write_iff (out.eq_of_good hgood) data .stores).mpr (.inr ⟨hgood, trivial⟩)
      refine ⟨by rw [OStream.good_write, hgood]; rfl, by rw [hafter, List.flatten_concat], ?_⟩
      rw [List.flatten_concat]
      exact flushed_end hgood hwritten hfile hafter
  | netAscii text =>
    cases mode with
    | octet => exact h.elim
    | netascii => exact ⟨by rw [h.1, List.flatten_concat], h.2⟩

/-- A packet that is not taken. -/
theorem Holds.same {files : FileSystem K} (h : Holds initial ds (files k) mode sink) (blockID : UInt16) :
    Holds initial ds (appended files k (.writing ⟨blockID, sink⟩) (.writing ⟨blockID, sink⟩) k) mode sink := by
  cases sink with
  | octet out =>
    cases mode with
    | netascii => exact h.elim
    | octet =>
      obtain ⟨hgood, hwritten, hfile⟩ := h
      have hsame : flushed files k out out k = some (.ofBytes (ds.flatten ++ [])) :=
        flushed_end hgood hwritten hfile (hwritten.trans (List.append_nil _).symm)
      rw [List.append_nil] at hsame
      exact ⟨hgood, hwritten, hsame⟩
  | netAscii text => exact h

/-- A session that has taken these payloads, going on or not. -/
structure Uploading (initial : Option IStream) (q : TRequestPacket) (src : Endpoint) (ds : List Bytes)
    (file : Option IStream) (c : Session) : Prop where
  address : c.client.address = src
  filename : c.filename = q.filename
  sink : ∃ blockID sink, c.client.role = .writing ⟨blockID, sink⟩ ∧ Holds initial ds file q.mode sink

/-- A session that a datagram does not end. -/
structure Taking (initial : Option IStream) (q : TRequestPacket) (src : Endpoint) (ds : List Bytes)
    (file : Option IStream) (c : Session) : Prop extends Uploading initial q src ds file c where
  number : ∃ sink, c.client.role = .writing ⟨UInt16.ofNat ds.length, sink⟩
  goesOn : GoesOn ds

theorem Taking.datagram {files : FileSystem K} {q : TRequestPacket} {c : Session}
    (hc : Taking initial q src ds (files (S.path q.filename)) c) (h : Uploaded src events sends ds) (d : Datagram)
    {e : Env} (he : e.io.disk = .stores) :
    let r := c.handlePacket S files d e
    ∃ ds', Uploaded src (events ++ [.datagram d e]) (sends ++ r.sends) ds' ∧
      Uploading initial q src ds' (r.files (S.path q.filename)) r.session ∧
      (r.more = true → Taking initial q src ds' (r.files (S.path q.filename)) r.session) := by
  obtain ⟨blockID, sink, hrole, hholds⟩ := hc.sink
  obtain ⟨sink', hrole'⟩ := hc.number
  obtain ⟨rfl, rfl⟩ := TWritingClientBase.mk.inj (Role.writing.inj (hrole.symm.trans hrole'))
  simp only [Session.handlePacket]
  cases hp : (TTransport.receive d.src d.bytes).packet with
  | error err =>
    have hsame : (c.client.handlePacket (S.view files) e.io.disk (TTransport.receive d.src d.bytes)) =
        (c.client, [((TTransport.receive d.src d.bytes).src, .error (.make .illegalOpcode err.message))], false) := by
      simp only [IClient.handlePacket, hp]
    rw [hsame]
    refine ⟨ds, h.idle _ fun q hq => ?_, ⟨hc.address, hc.filename, _, _, hrole, ?_⟩, fun hmore => by cases hmore⟩
    · exact ⟨_, congrArg (·.2) (List.mem_singleton.mp hq)⟩
    · rw [hrole, hc.filename]
      exact hholds.same _
  | ok p =>
    have hx : (Happening.datagram d e).packet = some p := by rw [Happening.packet, Datagram.packet, hp]; rfl
    have heq : TTransport.receive d.src d.bytes = ⟨d.src, .ok p⟩ := by rw [← hp]; rfl
    rw [heq, IClient.handlePacket_writing hrole, hc.address, hrole, hc.filename]
    have hhandle := h.handle hc.goesOn sink .stores hx
    rw [he]
    generalize TWritingClientBase.handle .stores ⟨UInt16.ofNat ds.length, sink⟩ p = r at hhandle
    obtain ⟨client, sends', more⟩ := r
    rcases hhandle with ⟨h', hclient⟩ | ⟨data, h', hclient, hgoes⟩
    · obtain rfl : client = _ := hclient
      refine ⟨ds, h', ?same, fun _ => ⟨?same, ⟨sink, rfl⟩, hc.goesOn⟩⟩
      exact ⟨rfl, rfl, _, sink, rfl, hholds.same _⟩
    · obtain rfl : client = _ := hclient
      refine ⟨ds ++ [data], h', ?next, fun hmore =>
        ⟨?next, ⟨sink.append data .stores, ?number⟩, hgoes hmore⟩⟩
      · exact ⟨rfl, rfl, _, _, rfl, hholds.append _ _ data⟩
      · rw [List.length_append, List.length_singleton]

/-- The request. -/
theorem Taking.request {files : FileSystem K} {fd : Nat} {port : UInt16} {d : Datagram} {e : Env} {r : Reply K}
    {q : TRequestPacket} (hr : S.acceptClient files id fd port d e = some (.opened r))
    (hq : d.packet = some (.request q)) (hwrite : q.type = .write) (he : e.io.opened = true ∧ e.io.disk = .stores) :
    r.more = true ∧ Uploaded d.src [.request id fd port d e] r.sends [[]] ∧
      Taking (files (S.path q.filename)) q d.src [[]] (r.files (S.path q.filename)) r.session := by
  obtain ⟨q', role, hq', hnew, rfl⟩ := acceptClient_opens hr
  obtain rfl : q = q' := TPacket.request.inj (Option.some.inj (hq.symm.trans hq'))
  have hx : (Happening.request id fd port d e).offers = some (UInt16.ofNat 0, []) := by
    rw [Happening.offers, Happening.packet, hq]
    rfl
  have hup : Uploaded d.src [.request id fd port d e] [(d.src, .ack ⟨0⟩)] [[]] :=
    Uploaded.nil.next (fun i d hi => by cases hi) hx
  have hgoes : GoesOn [[]] := fun i d hi => by
    obtain ⟨hlt, -⟩ := List.getElem?_eq_some_iff.mp hi
    exact .inl (by rw [Nat.lt_one_iff.mp hlt])
  unfold newClient at hnew
  cases hmode : q.mode with
  | octet =>
    simp only [hwrite, hmode, he.1, Option.some.injEq] at hnew
    subst hnew
    refine ⟨rfl, hup, ⟨⟨rfl, rfl, _, _, rfl, ?_⟩, ⟨_, rfl⟩, hgoes⟩⟩
    rw [hmode, he.2]
    refine ⟨rfl, rfl, ?_⟩
    simp only [he.1, Role.handle, TWritingClientBase.handle, TWritingClientBase.visitor, Expecting.visit, Sink.append,
      ne_eq, not_true_eq_false, if_false, created, if_true, Function.update_self]
    rfl
  | netascii =>
    simp only [hwrite, hmode, Option.some.injEq] at hnew
    subst hnew
    refine ⟨rfl, hup, ⟨⟨rfl, rfl, _, _, rfl, ?_⟩, ⟨_, rfl⟩, hgoes⟩⟩
    rw [hmode]
    exact ⟨rfl, rfl⟩

/-- The end of the session. -/
theorem Uploading.destroy {files : FileSystem K} {q : TRequestPacket} {c : Session}
    (hc : Uploading initial q src ds (files (S.path q.filename)) c) {io : Io}
    (hio : io.opened = true ∧ io.disk = .stores) :
    c.destroy S files io (S.path q.filename) = some (.ofBytes (storedText q.mode ds)) := by
  obtain ⟨blockID, sink, hrole, hholds⟩ := hc.sink
  unfold Session.destroy
  rw [hrole, hc.filename]
  generalize q.mode = mode at hholds
  cases sink with
  | octet out =>
    cases mode with
    | netascii => exact hholds.elim
    | octet => exact hholds.2.2
  | netAscii text =>
    cases mode with
    | octet => exact hholds.elim
    | netascii =>
      have hwritten (data : Bytes) : ((OStream.ofFile true).write data .stores).written = data := rfl
      simp only [hio.1, hio.2, if_true, Function.update_self, hwritten, hholds.1, storedText]

/-- The session, where a course is, that has taken these payloads. -/
def Stage.Takes (initial : Option IStream) (q : TRequestPacket) (src : Endpoint) (ds : List Bytes)
    (file : Option IStream) : Stage → Prop
  | .unborn => False
  | .going c => Taking initial q src ds file c
  | .ended c => Uploading initial q src ds file c
  | .gone => file = some (.ofBytes (storedText q.mode ds))

end

/-- What a course that begins with the request for an upload has come to, if everything
that was written got through. -/
def Takes (S : Setup K) (src : Endpoint) (q : TRequestPacket) (t : Course) : Prop :=
  (∀ x ∈ t.events, x.Stores) → ∃ ds, Uploaded src t.events t.sent ds ∧
    t.stage.Takes (S.files (S.path q.filename)) q src ds t.file

theorem takes_of_course {src : Endpoint} {q : TRequestPacket} (hwrite : q.type = .write) {t : Course}
    (h : (course S id (S.path q.filename)).Reachable t) (ho : t.Opened src q) : Takes S src q t := by
  have hstores {events : List Happening} {x : Happening} (h : ∀ y ∈ events ++ [x], y.Stores) :
      (∀ y ∈ events, y.Stores) ∧ x.Stores :=
    ⟨fun y hy => h y (List.mem_append_left _ hy), h x (List.mem_append_right _ (List.mem_singleton_self x))⟩
  refine course_invariant (P := Takes S src q) rfl ?_ ?_ ?_ ?_ ?_ h ho
  · intro files fd port d e r io hf hr hsrc hq hall
    subst hsrc
    obtain ⟨hmore, hup, htaking⟩ := Taking.request hr hq hwrite (hall _ List.mem_cons_self)
    refine ⟨[[]], hup.append [.sweep io], ?_⟩
    simp only [Course.open_, hmore, if_true]
    exact hf ▸ htaking
  · intro t files c d e h hstage hf hall
    obtain ⟨hall, he⟩ := hstores hall
    obtain ⟨ds, hup, htakes⟩ := h hall
    rw [hstage, ← hf] at htakes
    obtain ⟨ds', hup', huploading, hgoes⟩ := Taking.datagram htakes hup d he
    refine ⟨ds', hup', ?_⟩
    simp only [Course.handle]
    split
    · rename_i hmore
      exact hgoes hmore
    · exact huploading
  · intro t c h hstage hall
    obtain ⟨ds, hup, htakes⟩ := h hall
    rw [hstage] at htakes
    exact ⟨ds, hup, htakes.toUploading⟩
  · intro t c io h hstage hall
    obtain ⟨ds, hup, htakes⟩ := h (hstores hall).1
    exact ⟨ds, hup.append _, htakes⟩
  · intro t files c io h hstage hf hall
    obtain ⟨hall, hio⟩ := hstores hall
    obtain ⟨ds, hup, htakes⟩ := h hall
    rw [hstage, ← hf] at htakes
    exact ⟨ds, hup.append _, Uploading.destroy htakes hio⟩

/-- **Uploads.** In every run of the server, for each session that writes a file which
nobody else has been asked to write, as long as the disk takes all: the payloads that it
has taken are numbered in order, each acknowledged once, only the last one short. They are
in the file: of an octet session at once, of a NetASCII session when it has ended, for
whatever reason. -/
theorem uploads_stored (h : (server S).Reachable w) {src : Endpoint} {q : TRequestPacket}
    (ho : w.opening id = some (src, q)) (hwrite : q.type = .write) (hspared : w.Spared S id (S.path q.filename))
    (hstores : ∀ x ∈ w.own id, x.Stores) :
    ∃ ds, Uploaded src (w.own id) (w.sent id) ds ∧ w.files (S.path q.filename) =
      if q.mode = .netascii ∧ id ∈ w.clients.map (·.id) then S.files (S.path q.filename)
      else some (.ofBytes (storedText q.mode ds)) := by
  obtain ⟨-, t, ht, hshows⟩ := shows_reachable h hspared
  obtain ⟨ds, hup, htakes⟩ := takes_of_course hwrite ht (hshows.opened ho) (hshows.events ▸ hstores)
  refine ⟨ds, hshows.events ▸ hshows.sent ▸ hup, ?_⟩
  have hstage := hshows.stage
  have hmode : q.mode = .octet ∨ q.mode = .netascii := by cases q.mode <;> simp
  rw [hshows.file]
  generalize t.file = file at htakes
  -- while the session is there, the sink tells what is in the file
  have hlives {c : Session} (hc : Uploading (S.files (S.path q.filename)) q src ds file c) {j : Nat}
      (hj : w.clients[j]? = some c) (hid : c.id = id) : file = if q.mode = .netascii ∧ id ∈ w.clients.map (·.id)
        then S.files (S.path q.filename) else some (.ofBytes (storedText q.mode ds)) := by
    have hmem : id ∈ w.clients.map (·.id) := hid ▸ List.mem_map_of_mem (List.mem_of_getElem? hj)
    obtain ⟨blockID, sink, -, hholds⟩ := hc.sink
    rcases hmode with hmode | hmode
    all_goals
      rw [hmode] at hholds ⊢
      cases sink
    · exact hholds.2.2.trans (if_neg (by simp)).symm
    · exact hholds.elim
    · exact hholds.elim
    · exact hholds.2.trans (if_pos ⟨rfl, hmem⟩).symm
  cases hs : t.stage with
  | unborn => exact (hs ▸ htakes : Stage.Takes _ q src ds file .unborn).elim
  | going c =>
    rw [hs] at htakes hstage
    obtain ⟨hid, j, hj, -⟩ := hstage
    exact hlives htakes.toUploading hj hid
  | ended c =>
    rw [hs] at htakes hstage
    obtain ⟨hid, j, hj, -⟩ := hstage
    exact hlives htakes hj hid
  | gone =>
    rw [hs] at htakes hstage
    exact htakes.trans (if_neg fun hm => hstage.2 hm.2).symm

theorem twoRun_stores : twoRun.map (fun w => decide (∀ x ∈ w.own 1, x.Stores)) = some true := by decide +kernel

theorem uploads_stored_two : ∃ w : World Bytes, w.sent 1 = [(writer, .ack ⟨0⟩), (writer, .ack ⟨1⟩)] ∧
    Uploaded writer (w.own 1) (w.sent 1) [[], [0x78]] ∧ w.files [0x62] = some (.ofBytes [0x78]) := by
  obtain ⟨w, hw, hopenings⟩ := Option.map_eq_some_iff.mp twoRun_openings
  have ho : w.opening 1 = some (writer, ⟨.write, [0x62], .octet⟩) := (Prod.mk.inj (Prod.mk.inj hopenings).2).2
  have hstores := twoRun_stores
  have hsent := twoRun_sent
  have hwriter := twoRun_writer
  rw [hw, Option.map_some, Option.some.injEq] at hstores hsent hwriter
  obtain ⟨-, hsent, -⟩ := of_decide_eq_true hsent
  obtain ⟨ds, hup, hfile⟩ := uploads_stored (twoRun_reachable hw) ho rfl (twoRun_spared hw 1 [0x62] (.inl rfl))
    (of_decide_eq_true hstores)
  -- the request and the block are all that the session has heard, and it has answered both
  obtain rfl : ds = [[], [0x78]] := by
    have hlength := congrArg List.length hup.acked
    rw [hsent, List.length_map, List.length_range] at hlength
    obtain ⟨d, d', rfl⟩ := List.length_eq_two.mp hlength.symm
    have hheard := hup.heard
    rw [(Prod.mk.inj hwriter).1] at hheard
    have hall : [((0 : UInt16), d), (1, d')] = [(0, []), (1, [0x78])] :=
      (hheard.eq_of_length (by rw [List.length_mapIdx]; exact hlength.symm)).trans (by decide)
    simpa using hall
  exact ⟨w, hsent, hup, hfile⟩

end NetworksLab.L5.TftpPoll
