import NetworksLab.L5Concurrency.TftpNet

/-!
# Octet downloads (`TClient::Read` and `TOctetReadingClient`)

Both sides number the blocks of the file `F` from 1: the session in a
`uint16_t`, which is also the number on the wire, and the client in a `size_t`.
The client's number never matches from 65536 on, so it never accepts a block
whose 16-bit number has wrapped; that makes the download safe, and it makes the
download of a long file hang.

Results:
* `download_safe`: over any network, what `Read` has written is a prefix of the
  file, and all of it when `Read` returns.
* `download_completes_iff`: over a reliable network, the download completes
  exactly when the file has at most 65535 blocks.
-/
namespace NetworksLab.L5.TftpNet
open NetworksLab.L1.Packet NetworksLab.L2.Stream NetworksLab.L3.Tftp

/-- All runs of `Read` for `filename` and the server, over any network. -/
def download (S : Setup) (filename : Bytes) : LTS (World (Parties Read) Datagram)
    (NetLabel Arrival Timeout) :=
  (process S readTransfer).lossy (start S (Read.start S.port filename))

/-! ## The invariant -/

/-- The client has written `m` blocks, and waits for the next one if it runs. -/
def Downloaded (F : Bytes) (s : Read) : Prop :=
  ∃ m ≤ 65535, (s.status = .running → s.blockID.toNat = m + 1) ∧ s.out = F.take (512 * m) ∧
    (s.status = .returned → F.length < 512 * m)

/-- The session has read and sent blocks 1 to `n + 1`. -/
def Serves (F : Bytes) (n : Nat) (c : IClient) : Prop :=
  ∃ from_, c.role = .reading ⟨UInt16.ofNat (n + 1), .octet from_⟩ ∧
    IStream.At 512 F (n + 1) from_

/-- A packet of the download: a DATA packet is a block under its number, an ACK
is not for block 0, and a request is for the request port. -/
def InFlight (S : Setup) (filename F : Bytes) (d : Datagram) : Prop :=
  match d.packet with
  | .request r => d.dst = S.main ∧ r = ⟨.read, filename, .octet⟩
  | .data b => ∃ n < 65536, b = ⟨UInt16.ofNat (n + 1), block 512 F n⟩
  | .ack k => k.blockID ≠ 0
  | .error _ => True

structure DownloadInv (F : Bytes) (p : Parties Read) : Prop where
  client : Downloaded F p.client
  sessions : ∀ s ∈ p.sessions, s.alive = true → ∃ n < 65536, Serves F n s.client

variable {S : Setup} {filename F : Bytes}

theorem inFlight_errors {ds : List Datagram} (h : ∀ d ∈ ds, ∃ e, d.packet = .error e) :
    ∀ d ∈ ds, InFlight S filename F d := by
  intro d hd
  obtain ⟨e, he⟩ := h d hd
  simp only [InFlight, he]

/-! ## One packet at the client -/

/-- A 16-bit number meets the client's number only if neither has wrapped. -/
theorem blockID_match {n m : Nat} {id : UInt64} (hn : n < 65536) (hm : id.toNat = m + 1)
    (h : (UInt16.ofNat (n + 1)).toUInt64 = id) : n = m ∧ m + 1 ≤ 65535 := by
  have := congrArg UInt64.toNat h
  rw [UInt16.toNat_toUInt64, UInt16.toNat_ofNat', hm] at this
  omega

/-- Accepting block `m` makes it block `m + 1` that is due, or the end. -/
theorem accept_block {s : Read} (hport : s.serverPort ≠ 0) {m : Nat} (hm : m + 1 ≤ 65535)
    (hid : s.blockID.toNat = m + 1) (hout : s.out = F.take (512 * m)) (id : UInt16) :
    (s.accept ⟨id, block 512 F m⟩).1.blockID.toNat = m + 1 + 1 ∧
      (s.accept ⟨id, block 512 F m⟩).1.out = F.take (512 * (m + 1)) ∧
      (s.accept ⟨id, block 512 F m⟩).1.status =
        if F.length < 512 * (m + 1) then .returned else .running := by
  rw [Read.accept_of_ne hport]
  refine ⟨?_, ?_, ?_⟩
  · have h1 : (1 : UInt64).toNat = 1 := rfl
    simp only [UInt64.toNat_add, hid]
    omega
  · rw [take_succ_block, ← hout]
  · simp only [decide_eq_true_eq, length_block_lt (l := F) (k := 512) (by decide)]

/-- The same without the port: the acknowledgement may not be sent. -/
theorem accept_written {s : Read} {m : Nat} (hm : m + 1 ≤ 65535) (hid : s.blockID.toNat = m + 1)
    (hout : s.out = F.take (512 * m)) (id : UInt16) :
    ((s.accept ⟨id, block 512 F m⟩).1.status = .running →
        (s.accept ⟨id, block 512 F m⟩).1.blockID.toNat = m + 1 + 1) ∧
      (s.accept ⟨id, block 512 F m⟩).1.out = F.take (512 * (m + 1)) ∧
      ((s.accept ⟨id, block 512 F m⟩).1.status = .returned → F.length < 512 * (m + 1)) ∧
      ∀ q ∈ (s.accept ⟨id, block 512 F m⟩).2, q = (s.serverPort, .ack ⟨s.blockID.toUInt16⟩) := by
  have hsends : ∀ q ∈ (s.accept ⟨id, block 512 F m⟩).2, q = (s.serverPort, .ack ⟨s.blockID.toUInt16⟩) :=
    fun q hq => eq_of_mem_sendTo hq
  by_cases hport : s.serverPort = 0
  · obtain ⟨hout', hthrew, -⟩ := Read.accept_zero hport ⟨id, block 512 F m⟩
    rw [hthrew, hout', take_succ_block, ← hout]
    exact ⟨Status.noConfusion, rfl, Status.noConfusion, hsends⟩
  · obtain ⟨hid', hout', hstatus⟩ := accept_block hport hm hid hout id
    refine ⟨fun _ => hid', hout', fun hret => ?_, hsends⟩
    rw [hstatus] at hret
    split at hret
    · assumption
    · cases hret

theorem ack_ne_zero {id : UInt64} {m : Nat} (hm : m + 1 ≤ 65535) (hid : id.toNat = m + 1) :
    id.toUInt16 ≠ 0 := by
  intro h
  have := congrArg UInt16.toNat h
  rw [UInt64.toNat_toUInt16, hid] at this
  have h0 : (0 : UInt16).toNat = 0 := rfl
  omega

theorem client_step {s : Read} (hs : Downloaded F s) {d : Datagram} (hd : InFlight S filename F d)
    (hrun : s.status = .running) :
    Downloaded F (s.receive ⟨d.src, .ok d.packet⟩).1 ∧
      ∀ q ∈ S.fromClient (s.receive ⟨d.src, .ok d.packet⟩).2, InFlight S filename F q := by
  obtain ⟨m, hm, hid, hout, -⟩ := hs
  specialize hid hrun
  rcases s.receive_cases d.src d.packet with hi | ⟨b, hb, hmatch, hr⟩
  · refine ⟨⟨m, hm, fun _ => hi.blockID ▸ hid, hi.out ▸ hout, fun hret => ?_⟩,
      inFlight_errors (fromClient_errors hi.sends)⟩
    rcases hi.status with h | ⟨_, h⟩ <;> rw [h] at hret
    · rw [hrun] at hret; cases hret
    · cases hret
  · simp only [InFlight, hb] at hd
    obtain ⟨n, hn, rfl⟩ := hd
    obtain ⟨rfl, hn'⟩ := blockID_match hn hid hmatch
    rw [hr]
    obtain ⟨hid', hout', hret, hsends⟩ :=
      accept_written (s := { s with serverPort := d.src.port }) hn' hid hout (UInt16.ofNat (n + 1))
    refine ⟨⟨n + 1, hn', hid', hout', hret⟩, fun q hq => ?_⟩
    obtain ⟨x, hx, rfl⟩ := List.mem_map.mp hq
    obtain rfl := hsends x hx
    exact ack_ne_zero hn' hid

/-! ## One packet at a session -/

/-- The block after `n + 1`, under the number after that. -/
theorem serve_next {n : Nat} {from_ : IStream} (hat : IStream.At 512 F (n + 1) from_)
    (he : from_.eofbit = false) (c : IClient) :
    Serves F (n + 1)
      { c with role := .reading ⟨UInt16.ofNat (n + 1) + 1, .octet (from_.read 512).2⟩ } ∧
    TPacket.data ⟨UInt16.ofNat (n + 1) + 1, (from_.read 512).1⟩ =
      .data ⟨UInt16.ofNat (n + 1 + 1), block 512 F (n + 1)⟩ := by
  have hfull : 512 * (n + 1) ≤ F.length := by
    by_contra h
    rw [hat.eofbit.mpr (by omega)] at he
    cases he
  obtain ⟨hblock, hat'⟩ := hat.read hfull
  have hid : UInt16.ofNat (n + 1) + 1 = UInt16.ofNat (n + 1 + 1) := (UInt16.ofNat_add (n + 1) 1).symm
  exact ⟨⟨_, by rw [hid], hat'⟩, by rw [hid, hblock]⟩

/-- At a session, nothing in flight is for block 0. -/
theorem not_got_zero {d : Datagram} (hd : InFlight S filename F d) (hmain : d.dst ≠ S.main) :
    (TReadingClientBase.visitor S.files).visit d.packet ≠ .got 0 := by
  intro hv
  cases hp : d.packet with
  | request r =>
    simp only [InFlight, hp] at hd
    exact hmain hd.1
  | data b => rw [hp] at hv; cases hv
  | ack k =>
    simp only [InFlight, hp] at hd
    rw [hp] at hv
    exact hd (Visited.got.inj hv)
  | error e => rw [hp] at hv; cases hv

theorem session_step {s : Session} {n : Nat} (hn : n < 65536) (hs : Serves F n s.client)
    {d : Datagram} {disk : Disk} (hd : InFlight S filename F d) (hmain : d.dst ≠ S.main) :
    ((s.receive S disk d).1.alive = true → ∃ n < 65536, Serves F n (s.receive S disk d).1.client) ∧
      ∀ q ∈ (s.receive S disk d).2, InFlight S filename F q := by
  have hserves := hs
  obtain ⟨from_, hrole, hat⟩ := hs
  simp only [Session.receive, IClient.handlePacket_reading hrole]
  have ho := TReadingClientBase.handle_outcome S.files ⟨UInt16.ofNat (n + 1), .octet from_⟩ d.packet
  generalize TReadingClientBase.handle _ _ _ = h at ho
  cases ho with
  | ended hmore hsends =>
    exact ⟨fun ha => absurd (hmore.symm.trans ha) Bool.false_ne_true,
      inFlight_errors (sendFrom_peer_errors hsends)⟩
  | stale => exact ⟨fun _ => ⟨n, hn, by rw [← hrole]; exact hserves⟩, by simp [sendFrom]⟩
  | next hv he =>
    have hn' : n + 1 < 65536 := by
      by_contra h
      obtain rfl : n = 65535 := by omega
      exact not_got_zero hd hmain hv
    obtain ⟨hserve, hblock⟩ := serve_next hat he s.client
    refine ⟨fun _ => ⟨n + 1, hn', hserve⟩, fun q hq => ?_⟩
    obtain rfl := List.mem_singleton.mp hq
    exact ⟨n + 1, hn', TPacket.data.inj hblock⟩

/-! ## Every run -/

/-- The request port opens a session that has sent block 1. -/
theorem accept_step (hF : S.files filename = some (.ofBytes F)) (io : Io) (port : UInt16)
    (src : Endpoint) : ∃ c,
    acceptClient S.files io port ⟨src, .ok (.request ⟨.read, filename, .octet⟩)⟩ =
      .opened ⟨src, port, c⟩ [(src, .data ⟨1, block 512 F 0⟩)] true ∧
    Serves F 0 ⟨src, port, c⟩ := by
  obtain ⟨hblock, hat⟩ := IStream.At.start.read (k := 512) (D := F) (Nat.zero_le _)
  refine ⟨.reading ⟨1, .octet ((IStream.ofBytes F).read 512).2⟩, ?_, _, rfl, hat⟩
  have hv : (TReadingClientBase.visitor S.files).visit
      (.request ⟨.read, filename, .octet⟩) = .got 0 := by
    simp [TReadingClientBase.visitor, Expecting.visit, hF]
  have hh := TReadingClientBase.handle_next (c := ⟨0, .octet (.ofBytes F)⟩) hv rfl
  simp only [acceptClient, requestVisitor, Expecting.visit, newClient, hF, Option.getD_some,
    Role.handle, hh, List.map_cons, List.map_nil, ← hblock]
  rfl

theorem accept_cases {d : Datagram} (hF : S.files filename = some (.ofBytes F))
    (hd : InFlight S filename F d) (io : Io) (port : UInt16) :
    (∃ answer, acceptClient S.files io port ⟨d.src, .ok d.packet⟩ = .refused answer ∧
      ∀ q ∈ answer, ∃ e, q.2 = .error e) ∨
    ∃ c sends, acceptClient S.files io port ⟨d.src, .ok d.packet⟩ = .opened c sends true ∧
      Serves F 0 c ∧ ∀ q ∈ sendFrom ⟨S.host, port⟩ sends, InFlight S filename F q := by
  rcases acceptClient_cases S.files io port d.src d.packet with ⟨r, hr⟩ | href
  · simp only [InFlight, hr] at hd
    obtain ⟨-, rfl⟩ := hd
    obtain ⟨c, hc, hserve⟩ := accept_step hF io port d.src
    refine .inr ⟨_, _, by rw [hr]; exact hc, hserve, fun q hq => ?_⟩
    obtain rfl := List.mem_singleton.mp hq
    exact ⟨0, by omega, rfl⟩
  · exact .inl href

theorem download_receive (hF : S.files filename = some (.ofBytes F)) {p : Parties Read}
    {d : Datagram} {a : Arrival} {r : Parties Read × List Datagram} (hp : DownloadInv F p)
    (hd : InFlight S filename F d) (hr : Reception S readTransfer p d a r) :
    DownloadInv F r.1 ∧ ∀ q ∈ r.2, InFlight S filename F q := by
  cases hr with
  | lost => exact ⟨hp, by simp⟩
  | client hme hrun =>
    obtain ⟨hc, hs⟩ := client_step hp.client hd hrun
    exact ⟨⟨hc, hp.sessions⟩, hs⟩
  | refused hmain ha =>
    rcases accept_cases hF hd a.io a.port with ⟨_, h, he⟩ | ⟨_, _, h, -⟩ <;> rw [ha] at h <;> cases h
    exact ⟨hp, inFlight_errors (sendFrom_errors he)⟩
  | opened hmain hfree ha =>
    rcases accept_cases hF hd a.io a.port with ⟨_, h, -⟩ | ⟨c, sends, h, hserve, hsend⟩ <;>
      rw [ha] at h <;> cases h
    refine ⟨⟨hp.client, fun s hs halive => ?_⟩, hsend⟩
    rcases List.mem_append.mp hs with hs | hs
    · exact hp.sessions s hs halive
    · obtain rfl := List.mem_singleton.mp hs
      exact ⟨0, by omega, hserve⟩
  | @session xs ys s hmain hl hsplit =>
    have hmem : ∀ t, t ∈ xs ∨ t = s ∨ t ∈ ys → t ∈ p.sessions := by simp [hsplit]
    obtain ⟨n, hn, hs⟩ := hp.sessions s (hmem s (.inr (.inl rfl))) hl.1
    obtain ⟨hs', hsend⟩ := session_step hn hs hd hmain
    refine ⟨⟨hp.client, fun t ht halive => ?_⟩, hsend⟩
    rcases List.mem_append.mp ht with ht | ht
    · exact hp.sessions t (hmem t (.inl ht)) halive
    · rcases List.mem_cons.mp ht with rfl | ht
      · exact hs' halive
      · exact hp.sessions t (hmem t (.inr (.inr ht))) halive

theorem download_timeout {p : Parties Read} {t : Timeout} {r : Parties Read × List Datagram}
    (hp : DownloadInv F p) (hr : timeout readTransfer p t = some r) : DownloadInv F r.1 ∧ r.2 = [] := by
  cases t with
  | client =>
    simp only [timeout, Option.ite_none_right_eq_some, Option.some.injEq] at hr
    obtain ⟨-, rfl⟩ := hr
    obtain ⟨m, hm, hid, hout, -⟩ := hp.client
    exact ⟨⟨⟨m, hm, (fun h => by cases h), hout, fun h => by cases h⟩, hp.sessions⟩, rfl⟩
  | session j =>
    obtain ⟨s, hs, rfl⟩ := Option.map_eq_some_iff.mp hr
    refine ⟨⟨hp.client, fun t ht halive => ?_⟩, rfl⟩
    rcases List.mem_or_eq_of_mem_set ht with ht | rfl
    · exact hp.sessions t ht halive
    · cases halive

theorem download_invariant (hF : S.files filename = some (.ofBytes F)) :
    (process S readTransfer).Invariant (DownloadInv F) fun _ => InFlight S filename F where
  receive hp hd hr := by
    obtain ⟨h, hs⟩ := download_receive hF hp hd (receive_reception hr)
    exact ⟨h, fun _ h => h, hs⟩
  act hp hr := by
    obtain ⟨h, hs⟩ := download_timeout hp hr
    exact ⟨h, fun _ h => h, by simp [hs]⟩

theorem downloaded_of_reachable (hF : S.files filename = some (.ofBytes F))
    {w : World (Parties Read) Datagram} (h : (download S filename).Reachable w) :
    Downloaded F w.state.client := by
  refine ((download_invariant hF).reachable ⟨⟨?_, by simp [start]⟩, fun d hd => ?_⟩ h).1.client
  · exact ⟨0, by omega, fun _ => rfl, rfl, fun h => by cases h⟩
  · obtain rfl := List.mem_singleton.mp hd
    exact ⟨rfl, rfl⟩

/-- **Safety.** Over any network, what `Read` has written is a prefix of the
file at all times, and the file when `Read` returns. -/
theorem download_safe (hF : S.files filename = some (.ofBytes F))
    {w : World (Parties Read) Datagram} (h : (download S filename).Reachable w) :
    w.state.client.out <+: F ∧ (w.state.client.status = .returned → w.state.client.out = F) := by
  obtain ⟨m, -, -, hout, hret⟩ := downloaded_of_reachable hF h
  rw [hout]
  exact ⟨List.take_prefix _ _, fun hr => take_of_short (hret hr)⟩

/-- The request arrives twice, and the second session answers first. -/
def hiRun : List (NetLabel Arrival Timeout) :=
  [.duplicate 0, .deliver 0 ⟨1024, ⟨true, .stores⟩⟩, .deliver 0 ⟨1025, ⟨true, .stores⟩⟩,
    .deliver 1 ⟨1026, ⟨true, .stores⟩⟩, .deliver 0 ⟨1026, ⟨true, .stores⟩⟩]

theorem hi_reachable : ∃ w, (download hiSetup (ascii "f")).Reachable w ∧
    w.state.client.status = .returned := by
  have hrun : ((LTS.runFn (process hiSetup readTransfer).stepFn (fun _ _ => true)
      (start hiSetup (Read.start 69 (ascii "f"))) hiRun).map
        fun w => w.state.client.status) = some .returned := by decide +kernel
  obtain ⟨w, hw, hs⟩ := Option.map_eq_some_iff.mp hrun
  exact ⟨w, Process.reachable_of_run hw, hs⟩

theorem download_safe_hi : ∃ w, (download hiSetup (ascii "f")).Reachable w ∧
    w.state.client.status = .returned ∧ w.state.client.out = ascii "hi" := by
  obtain ⟨w, hw, hs⟩ := hi_reachable
  exact ⟨w, hw, hs, (download_safe rfl hw).2 hs⟩

/-! ## Reliable networks -/

/-- The runs over a network that delivers every packet once and in order. -/
def reliableDownload (S : Setup) (filename : Bytes) : LTS (World (Parties Read) Datagram)
    (NetLabel Arrival Timeout) :=
  (process S readTransfer).inOrder Datagram.route (start S (Read.start S.port filename))

/-- `Read` has returned with the file, and the session has ended. -/
def Completed (F : Bytes) (w : World (Parties Read) Datagram) : Prop :=
  w.state.client.status = .returned ∧ w.state.client.out = F ∧
    ∃ c, w.state.sessions = [⟨c, false⟩]

/-- The client waits for block `n + 1` from the session's port. -/
structure Awaits (F : Bytes) (n : Nat) (port : UInt16) (s : Read) : Prop where
  status : s.status = .running
  serverPort : s.serverPort = 0 ∨ s.serverPort = port
  blockID : s.blockID.toNat = n + 1
  out : s.out = F.take (512 * n)

/-- The session has sent block `n + 1` to the client, from a port of its own. -/
structure Serving (S : Setup) (F : Bytes) (n : Nat) (c : IClient) : Prop where
  address : c.address = S.me
  port_ne : c.port ≠ S.port
  port_pos : c.port ≠ 0
  me_ne : S.me ≠ ⟨S.host, c.port⟩
  serves : Serves F n c

/-- Block `n + 1` is in flight. -/
def blockSent (S : Setup) (F : Bytes) (n : Nat) (s : Read) (c : IClient) :
    World (Parties Read) Datagram :=
  ⟨⟨s, [⟨c, true⟩]⟩, [⟨⟨S.host, c.port⟩, S.me, .data ⟨UInt16.ofNat (n + 1), block 512 F n⟩⟩]⟩

/-- Its acknowledgement is. -/
def blockAcked (S : Setup) (n : Nat) (s : Read) (c : IClient) : World (Parties Read) Datagram :=
  ⟨⟨s, [⟨c, true⟩]⟩, [⟨S.me, ⟨S.host, c.port⟩, .ack ⟨UInt16.ofNat (n + 1)⟩⟩]⟩

variable {n : Nat} {s : Read} {c : IClient}

/-- The client accepts the block, and goes on if it is full. -/
theorem awaits_accept (hn : n < 65535) (hs : Awaits F n c.port s) (hport : c.port ≠ 0) :
    ∃ s', s.receive ⟨⟨S.host, c.port⟩, .ok (.data ⟨UInt16.ofNat (n + 1), block 512 F n⟩)⟩ =
        (s', [(c.port, .ack ⟨UInt16.ofNat (n + 1)⟩)]) ∧
      (F.length < 512 * (n + 1) → s'.status = .returned ∧ s'.out = F) ∧
      (512 * (n + 1) ≤ F.length → Awaits F (n + 1) c.port s') := by
  have hid : (UInt16.ofNat (n + 1)).toUInt64 = s.blockID := by
    apply UInt64.toNat_inj.mp
    rw [UInt16.toNat_toUInt64, UInt16.toNat_ofNat', hs.blockID]
    omega
  have hack : s.blockID.toUInt16 = UInt16.ofNat (n + 1) := by
    rw [← hid, UInt16.toUInt16_toUInt64]
  obtain ⟨hid', hout', hstatus⟩ := accept_block (s := { s with serverPort := c.port }) hport (by omega)
    hs.blockID hs.out (UInt16.ofNat (n + 1))
  rw [Read.receive_block hs.serverPort hid]
  refine ⟨(Read.accept { s with serverPort := c.port } ⟨UInt16.ofNat (n + 1), block 512 F n⟩).1,
    by simp only [Read.accept_of_ne (s := { s with serverPort := c.port }) hport, hack],
    fun hshort => ?_, fun hfull => ?_⟩
  · exact ⟨by rw [hstatus, if_pos hshort], by rw [hout', take_of_short hshort]⟩
  · exact ⟨by rw [hstatus, if_neg (Nat.not_lt.mpr hfull)], .inr (Read.accept_serverPort _ _), hid', hout'⟩

theorem eventually_blockSent {Q : World (Parties Read) Datagram → Prop}
    (hn : n < 65535) (hs : Awaits F n c.port s) (hport : c.port ≠ 0)
    (hQ : ∀ s', (F.length < 512 * (n + 1) → s'.status = .returned ∧ s'.out = F) →
      (512 * (n + 1) ≤ F.length → Awaits F (n + 1) c.port s') →
      (reliableDownload S filename).Eventually Q (blockAcked S n s' c)) :
    (reliableDownload S filename).Eventually Q (blockSent S F n s c) := by
  obtain ⟨s', hrecv, hend, hnext⟩ := awaits_accept (S := S) hn hs hport
  have hstep (e : Arrival) : receive S readTransfer ⟨s, [⟨c, true⟩]⟩
      ⟨⟨S.host, c.port⟩, S.me, .data ⟨UInt16.ofNat (n + 1), block 512 F n⟩⟩ e =
        some (⟨s', [⟨c, true⟩]⟩, [⟨S.me, ⟨S.host, c.port⟩, .ack ⟨UInt16.ofNat (n + 1)⟩⟩]) := by
    rw [receive_client rfl hs.status]
    simp only [readTransfer, hrecv]
    rfl
  refine Process.eventually_reacts ⟨0, ⟨true, .stores⟩⟩ hstep fun e => ?_
  exact hQ s' hend hnext

/-- The session on the acknowledgement of its last block, and of any other. -/
theorem session_ack (hc : Serving S F n c) (disk : Disk) :
    (F.length < 512 * (n + 1) → ∃ c', Session.receive S disk
        ⟨S.me, ⟨S.host, c.port⟩, .ack ⟨UInt16.ofNat (n + 1)⟩⟩ ⟨c, true⟩ = (⟨c', false⟩, [])) ∧
    (512 * (n + 1) ≤ F.length → ∃ c', c'.port = c.port ∧ Serving S F (n + 1) c' ∧
      Session.receive S disk
        ⟨S.me, ⟨S.host, c.port⟩, .ack ⟨UInt16.ofNat (n + 1)⟩⟩ ⟨c, true⟩ = (⟨c', true⟩,
          [⟨⟨S.host, c.port⟩, S.me, .data ⟨UInt16.ofNat (n + 1 + 1), block 512 F (n + 1)⟩⟩])) := by
  obtain ⟨from_, hrole, hat⟩ := hc.serves
  have hv : (TReadingClientBase.visitor S.files).visit (.ack ⟨UInt16.ofNat (n + 1)⟩) =
    .got (TReadingClientBase.mk (UInt16.ofNat (n + 1)) (.octet from_)).blockID := rfl
  simp only [Session.receive, IClient.handlePacket_reading hrole]
  constructor
  · intro hshort
    rw [TReadingClientBase.handle_last hv (hat.eofbit.mpr hshort)]
    exact ⟨_, rfl⟩
  · intro hfull
    have he : from_.eofbit = false := by
      rw [← Bool.not_eq_true, hat.eofbit]
      omega
    obtain ⟨hserves, hdata⟩ := serve_next hat he c
    rw [TReadingClientBase.handle_next hv he]
    refine ⟨{ c with role := .reading ⟨UInt16.ofNat (n + 1) + 1, .octet (from_.read 512).2⟩ }, rfl,
      ⟨hc.address, hc.port_ne, hc.port_pos, hc.me_ne, hserves⟩, ?_⟩
    simp only [sendFrom, List.map_cons, List.map_nil, hc.address]
    rw [← hdata]
    rfl

theorem eventually_blockAcked {Q : World (Parties Read) Datagram → Prop} (hc : Serving S F n c)
    (hlast : ∀ c', F.length < 512 * (n + 1) → Q ⟨⟨s, [⟨c', false⟩]⟩, []⟩)
    (hnext : ∀ c', 512 * (n + 1) ≤ F.length → c'.port = c.port → Serving S F (n + 1) c' →
      (reliableDownload S filename).Eventually Q (blockSent S F (n + 1) s c')) :
    (reliableDownload S filename).Eventually Q (blockAcked S n s c) := by
  have hmain : (⟨S.host, c.port⟩ : Endpoint) ≠ S.main := fun h => hc.port_ne (Endpoint.mk.inj h).2
  have hstep (e : Arrival) := receive_session (T := readTransfer) (a := e)
    (p := ⟨s, [⟨c, true⟩]⟩) (d := ⟨S.me, ⟨S.host, c.port⟩, .ack ⟨UInt16.ofNat (n + 1)⟩⟩)
    rfl hc.me_ne.symm hmain ⟨rfl, rfl⟩
  refine Process.eventually_reacts ⟨0, ⟨true, .stores⟩⟩ hstep fun e => ?_
  obtain ⟨hshort, hfull⟩ := session_ack hc e.io.disk
  by_cases h : F.length < 512 * (n + 1)
  · obtain ⟨c', hc'⟩ := hshort h
    rw [hc']
    exact .now (hlast c' h)
  · obtain ⟨c', hport, hc'', hc'⟩ := hfull (Nat.not_lt.mp h)
    rw [hc']
    have := hnext c' (Nat.not_lt.mp h) hport hc''
    rwa [blockSent, hport] at this

/-- From block `n + 1` on, by induction on the number of full blocks left. -/
theorem eventually_completed (k : Nat) : ∀ {n : Nat} {s : Read} {c : IClient},
    F.length / 512 = n + k → n + k < 65535 → Awaits F n c.port s → Serving S F n c →
    (reliableDownload S filename).Eventually (Completed F) (blockSent S F n s c) := by
  induction k with
  | zero =>
    intro n s c hk hn hs hc
    have hshort : F.length < 512 * (n + 1) := (lt_mul_iff_div_lt (by decide)).mpr (by omega)
    apply eventually_blockSent hn hs hc.port_pos
    intro s' hend _
    refine eventually_blockAcked hc (fun c' _ => ?_) (fun _ hfull => absurd hfull (by omega))
    exact ⟨(hend hshort).1, (hend hshort).2, c', rfl⟩
  | succ k ih =>
    intro n s c hk hn hs hc
    have hfull : 512 * (n + 1) ≤ F.length :=
      Nat.not_lt.mp fun h => by
        have := (lt_mul_iff_div_lt (by decide)).mp h
        omega
    apply eventually_blockSent (by omega) hs hc.port_pos
    intro s' _ hnext
    refine eventually_blockAcked hc (fun _ h => absurd h (by omega)) (fun c' _ hport hc' => ?_)
    exact ih (by omega) (by omega) (hport ▸ hnext hfull) hc'

/-- The request opens a session on a free port, which has sent block 1. -/
theorem receive_rrq (hF : S.files filename = some (.ofBytes F)) (s : Read) (a : Arrival) :
    ∃ c, (S.Free ⟨s, []⟩ a.port → Serving S F 0 c) ∧
      receive S readTransfer ⟨s, []⟩ ⟨S.me, S.main, .request ⟨.read, filename, .octet⟩⟩ a =
        if S.Free ⟨s, []⟩ a.port then
          some ((blockSent S F 0 s c).state, (blockSent S F 0 s c).net)
        else none := by
  obtain ⟨c, hc, hserves⟩ := accept_step hF a.io a.port S.me
  refine ⟨⟨S.me, a.port, c⟩, fun hfree => ⟨rfl, hfree.2.1, hfree.port_ne_zero, hfree.2.2.1, hserves⟩, ?_⟩
  rw [receive_request rfl, receiveRequest]
  simp only [hc]
  rfl

theorem eventually_start (hF : S.files filename = some (.ofBytes F)) (hlen : F.length < 512 * 65535) :
    (reliableDownload S filename).Eventually (Completed F)
      (start S (Read.start S.port filename)) := by
  have hawaits (port : UInt16) : Awaits F 0 port (Read.start S.port filename).1 :=
    ⟨rfl, .inl rfl, rfl, rfl⟩
  apply Process.eventually_deliver
  · obtain ⟨port, hfree⟩ := exists_free S (Read.start S.port filename).1
    obtain ⟨c, -, hr⟩ := receive_rrq hF (Read.start S.port filename).1 ⟨port, ⟨true, .stores⟩⟩
    exact ⟨_, Option.isSome_of_eq_some (hr.trans (if_pos hfree))⟩
  · intro a r hr
    obtain ⟨c, hc, hr'⟩ := receive_rrq hF (Read.start S.port filename).1 a
    have hsome := hr'.symm.trans hr
    split at hsome
    · rename_i hfree
      obtain rfl := Option.some.inj hsome
      have hk : F.length / 512 < 65535 := (lt_mul_iff_div_lt (by decide)).mp hlen
      exact eventually_completed _ (Nat.zero_add _).symm (by omega) (hawaits c.port) (hc hfree)
    · cases hsome

/-- From block 65536 on the client waits for a number that no packet carries. -/
theorem not_completed (hF : S.files filename = some (.ofBytes F)) (hlen : 512 * 65535 ≤ F.length) :
    ¬ (reliableDownload S filename).Eventually (Completed F)
      (start S (Read.start S.port filename)) := by
  apply LTS.not_eventually_of_unreachable rfl
  intro w hw hdone
  obtain ⟨m, hm, -, -, hret⟩ := downloaded_of_reachable hF hw.of_restrict
  have := hret hdone.1
  omega

/-- **Completeness.** Over a reliable network, the download completes exactly
when the file has at most 65535 blocks, the last one being short. -/
theorem download_completes_iff (hF : S.files filename = some (.ofBytes F)) :
    (reliableDownload S filename).Eventually (Completed F)
      (start S (Read.start S.port filename)) ↔ F.length < 512 * 65535 := by
  constructor
  · intro h
    by_contra hlen
    exact not_completed hF (Nat.not_lt.mp hlen) h
  · exact eventually_start hF

theorem download_completes_iff_hi : (reliableDownload hiSetup (ascii "f")).Eventually
    (Completed (ascii "hi")) (start hiSetup (Read.start 69 (ascii "f"))) :=
  (download_completes_iff (S := hiSetup) rfl).mpr (by decide)

/-- 65535 full blocks and an empty one. -/
def longFile : Bytes := List.replicate (512 * 65535) 0

def longSetup : Setup := { hiSetup with files := fun _ => some (.ofBytes longFile) }

theorem longFile_hangs : ¬ (reliableDownload longSetup (ascii "f")).Eventually
    (Completed longFile) (start longSetup (Read.start 69 (ascii "f"))) :=
  not_completed rfl (Nat.le_of_eq List.length_replicate.symm)

end NetworksLab.L5.TftpNet
