import NetworksLab.L5Concurrency.TftpDownload
import NetworksLab.L5Concurrency.TftpWire

/-!
# Octet downloads over bytes

Block 16 goes out as block 0, which the client takes for a duplicate. It waits for
the block, and the session for its acknowledgement: neither will come. So no
number that is waited for is ever that of another block, and the download is safe;
and it ends only if the file has fewer blocks.

Results:
* `wire_download_safe`: over any network, what `Read` has written is a prefix of
  the file, and all of it when `Read` returns.
* `wire_download_completes_iff`: over a reliable network, the download completes
  exactly when the file has at most 15 blocks.
-/
namespace NetworksLab.L5.TftpNet
open NetworksLab.L1.Packet NetworksLab.L2.Stream NetworksLab.L3.Tftp

/-- All runs of `Read` for `filename` and the server, over any network. -/
def wireDownload (S : Setup) (filename : Bytes) : LTS (World (Parties Read) RawDatagram)
    (NetLabel Arrival Timeout) :=
  (rawProcess S readTransfer).lossy
    (Process.encodedWorld Datagram.send (start S (Read.start S.port filename)))

/-! ## The invariant -/

/-- The client has written `m` blocks, at most 15. -/
def WireRead (F : Bytes) (s : Read) : Prop :=
  ∃ m ≤ 15, (s.status = .running → s.blockID.toNat = m + 1) ∧ s.out = F.take (512 * m) ∧
    (s.status = .returned → F.length < 512 * m)

/-- The session has sent blocks 1 to `n + 1`, at most 16, and has read no more of
the file than there is. -/
def WireServes (F : Bytes) (c : IClient) : Prop := ∃ n ≤ 15, 512 * n ≤ F.length ∧ Serves F n c

structure WireDownloadInv (F : Bytes) (p : Parties Read) : Prop where
  client : WireRead F p.client
  sessions : ∀ s ∈ p.sessions, s.alive = true → WireServes F s.client

/-- A packet as it is sent. -/
def WirePacket (S : Setup) (filename F : Bytes) (d : Datagram) : Prop :=
  match d.packet with
  | .request r => d.dst = S.main ∧ r = ⟨.read, filename, .octet⟩
  | .data b => ∃ n ≤ 15, 512 * n ≤ F.length ∧ b = ⟨UInt16.ofNat (n + 1), block 512 F n⟩
  | .ack k => 1 ≤ k.blockID.toNat ∧ k.blockID.toNat ≤ 15
  | .error _ => True

/-- A packet as it arrives: block 16 has become block 0. -/
def WireArrived (S : Setup) (filename F : Bytes) (d : Datagram) : Prop :=
  match d.packet with
  | .request r => d.dst = S.main ∧ r = ⟨.read, filename, .octet⟩
  | .data b => b.blockID = 0 ∨ ∃ n ≤ 14, b = ⟨UInt16.ofNat (n + 1), block 512 F n⟩
  | .ack k => 1 ≤ k.blockID.toNat ∧ k.blockID.toNat ≤ 15
  | .error _ => True

variable {S : Setup} {filename F : Bytes}

theorem wirePacket_errors {ds : List Datagram} (h : ∀ d ∈ ds, ∃ e, d.packet = .error e) :
    ∀ d ∈ ds, WirePacket S filename F d := by
  intro d hd
  obtain ⟨e, he⟩ := h d hd
  simp only [WirePacket, he]

theorem ofNat_toNat {n : Nat} (h : n ≤ 16) : (UInt16.ofNat n).toNat = n := by
  rw [UInt16.toNat_ofNat']
  omega

theorem WirePacket.arrives (hname : Named filename) {d : Datagram} (h : WirePacket S filename F d) :
    d.Readable ∧ WireArrived S filename F d.arrives := by
  obtain ⟨src, dst, packet⟩ := d
  cases packet with
  | request r =>
    obtain ⟨hdst, rfl⟩ := h
    have hrecv := arrives_named src dst hname .read
    exact ⟨⟨_, hrecv⟩, by rw [Datagram.arrives_eq hrecv]; exact ⟨hdst, rfl⟩⟩
  | data b =>
    obtain ⟨n, hn, hle, rfl⟩ := h
    have hrecv := arrives_data src dst (UInt16.ofNat (n + 1)) (block 512 F n)
      (by rw [length_block]; omega)
    refine ⟨⟨_, hrecv⟩, ?_⟩
    rw [Datagram.arrives_eq hrecv]
    by_cases h15 : n ≤ 14
    · rw [received_of_le (by rw [ofNat_toNat (by omega)]; omega)]
      exact .inr ⟨n, h15, rfl⟩
    · obtain rfl : n = 15 := by omega
      exact .inl received_16
  | ack k =>
    have hrecv := arrives_ack src dst k.blockID
    refine ⟨⟨_, hrecv⟩, ?_⟩
    rw [Datagram.arrives_eq hrecv, received_of_le h.2]
    exact h
  | error e =>
    obtain ⟨e', hrecv⟩ := arrives_error src dst e
    exact ⟨⟨_, hrecv⟩, by rw [Datagram.arrives_eq hrecv]; trivial⟩

/-! ## One packet -/

theorem wire_client_step {s : Read} (hs : WireRead F s) {d : Datagram} (hd : WireArrived S filename F d)
    (hrun : s.status = .running) :
    WireRead F (s.receive ⟨d.src, .ok d.packet⟩).1 ∧
      ∀ q ∈ S.fromClient (s.receive ⟨d.src, .ok d.packet⟩).2, WirePacket S filename F q := by
  obtain ⟨m, hm, hid, hout, -⟩ := hs
  specialize hid hrun
  rcases s.receive_cases d.src d.packet with hi | ⟨b, hb, hmatch, hr⟩
  · refine ⟨⟨m, hm, fun _ => hi.blockID ▸ hid, hi.out ▸ hout, fun hret => ?_⟩,
      wirePacket_errors (fromClient_errors hi.sends)⟩
    rcases hi.status with h | ⟨_, h⟩ <;> rw [h] at hret
    · rw [hrun] at hret; cases hret
    · cases hret
  · simp only [WireArrived, hb] at hd
    obtain h0 | ⟨n, hn, rfl⟩ := hd
    · rw [h0, ← UInt64.toNat_inj, hid] at hmatch
      cases hmatch
    · obtain ⟨rfl, -⟩ := blockID_match (by omega) hid hmatch
      rw [hr]
      obtain ⟨hid', hout', hret, hsends⟩ := accept_written (s := { s with serverPort := d.src.port })
        (by omega) hid hout (UInt16.ofNat (n + 1))
      refine ⟨⟨n + 1, by omega, hid', hout', hret⟩, fun q hq => ?_⟩
      obtain ⟨x, hx, rfl⟩ := List.mem_map.mp hq
      obtain rfl := hsends x hx
      have hack : s.blockID.toUInt16.toNat = n + 1 := by
        rw [UInt64.toNat_toUInt16, hid]
        omega
      exact ⟨by rw [hack]; omega, by rw [hack]; omega⟩

theorem wire_session_step {s : Session} (hs : WireServes F s.client) (disk : Disk) {d : Datagram}
    (hd : WireArrived S filename F d) (hmain : d.dst ≠ S.main) :
    ((s.receive S disk d).1.alive = true → WireServes F (s.receive S disk d).1.client) ∧
      ∀ q ∈ (s.receive S disk d).2, WirePacket S filename F q := by
  have hserves := hs
  obtain ⟨n, hn, hle, from_, hrole, hat⟩ := hs
  simp only [Session.receive, IClient.handlePacket_reading hrole]
  have ho := TReadingClientBase.handle_outcome S.files ⟨UInt16.ofNat (n + 1), .octet from_⟩ d.packet
  generalize TReadingClientBase.handle _ _ _ = h at ho
  cases ho with
  | ended hmore hsends =>
    exact ⟨fun ha => absurd (hmore.symm.trans ha) Bool.false_ne_true,
      wirePacket_errors (sendFrom_peer_errors hsends)⟩
  | stale => exact ⟨fun _ => by rw [← hrole]; exact hserves, by simp [sendFrom]⟩
  | next hv he =>
    -- only an acknowledgement brings the session on, and those have small numbers
    have hn' : n ≤ 14 := by
      cases hp : d.packet with
      | request r =>
        simp only [WireArrived, hp] at hd
        exact absurd hd.1 hmain
      | data b => rw [hp] at hv; cases hv
      | ack k =>
        simp only [WireArrived, hp] at hd
        rw [hp] at hv
        have hk : k.blockID = UInt16.ofNat (n + 1) := Visited.got.inj hv
        rw [hk, ofNat_toNat (by omega)] at hd
        omega
      | error e => rw [hp] at hv; cases hv
    have hfull : 512 * (n + 1) ≤ F.length := Nat.not_lt.mp fun h =>
      absurd (he.symm.trans (hat.eofbit.mpr h)) Bool.false_ne_true
    obtain ⟨hserve, hblock⟩ := serve_next hat he s.client
    refine ⟨fun _ => ⟨n + 1, by omega, hfull, hserve⟩, fun q hq => ?_⟩
    obtain rfl := List.mem_singleton.mp hq
    exact ⟨n + 1, by omega, hfull, TPacket.data.inj hblock⟩

/-- What the request port makes of a packet. -/
theorem wire_accept_cases {d : Datagram} (hF : S.files filename = some (.ofBytes F))
    (hd : WireArrived S filename F d) (io : Io) (port : UInt16) :
    (∃ answer, acceptClient S.files io port ⟨d.src, .ok d.packet⟩ = .refused answer ∧
      ∀ q ∈ answer, ∃ e, q.2 = .error e) ∨
    ∃ c, acceptClient S.files io port ⟨d.src, .ok d.packet⟩ =
        .opened ⟨d.src, port, c⟩ [(d.src, .data ⟨1, block 512 F 0⟩)] true ∧
      WireServes F ⟨d.src, port, c⟩ := by
  rcases acceptClient_cases S.files io port d.src d.packet with ⟨r, hr⟩ | href
  · simp only [WireArrived, hr] at hd
    obtain ⟨c, hc, hserves⟩ := accept_step hF io port d.src
    rw [hr, hd.2]
    exact .inr ⟨c, hc, 0, by omega, by omega, hserves⟩
  · exact .inl href

theorem wire_download_receive (hF : S.files filename = some (.ofBytes F)) {p : Parties Read}
    {d : Datagram} {a : Arrival} {r : Parties Read × List Datagram} (hp : WireDownloadInv F p)
    (hd : WireArrived S filename F d) (hr : Reception S readTransfer p d a r) :
    WireDownloadInv F r.1 ∧ ∀ q ∈ r.2, WirePacket S filename F q := by
  cases hr with
  | lost => exact ⟨hp, by simp⟩
  | client hme hrun =>
    obtain ⟨hc, hs⟩ := wire_client_step hp.client hd hrun
    exact ⟨⟨hc, hp.sessions⟩, hs⟩
  | refused hmain ha =>
    rcases wire_accept_cases hF hd a.io a.port with ⟨_, h, he⟩ | ⟨_, h, -⟩ <;> rw [ha] at h <;> cases h
    exact ⟨hp, wirePacket_errors (sendFrom_errors he)⟩
  | opened hmain hfree ha =>
    rcases wire_accept_cases hF hd a.io a.port with ⟨_, h, -⟩ | ⟨c, h, hserve⟩ <;> rw [ha] at h <;> cases h
    refine ⟨⟨hp.client, fun s hs halive => ?_⟩, fun q hq => ?_⟩
    · rcases List.mem_append.mp hs with hs | hs
      · exact hp.sessions s hs halive
      · obtain rfl := List.mem_singleton.mp hs
        exact hserve
    · obtain rfl := List.mem_singleton.mp hq
      exact ⟨0, by omega, by omega, rfl⟩
  | @session xs ys s hmain hl hsplit =>
    have hmem : ∀ t, t ∈ xs ∨ t = s ∨ t ∈ ys → t ∈ p.sessions := by simp [hsplit]
    have hs := hp.sessions s (hmem s (.inr (.inl rfl))) hl.1
    obtain ⟨hs', hsend⟩ := wire_session_step hs a.io.disk hd hmain
    refine ⟨⟨hp.client, fun t ht halive => ?_⟩, hsend⟩
    rcases List.mem_append.mp ht with ht | ht
    · exact hp.sessions t (hmem t (.inl ht)) halive
    · rcases List.mem_cons.mp ht with rfl | ht
      · exact hs' halive
      · exact hp.sessions t (hmem t (.inr (.inr ht))) halive

theorem wire_download_timeout {p : Parties Read} {t : Timeout} {r : Parties Read × List Datagram}
    (hp : WireDownloadInv F p) (hr : timeout readTransfer p t = some r) :
    WireDownloadInv F r.1 ∧ r.2 = [] := by
  cases t with
  | client =>
    simp only [timeout, Option.ite_none_right_eq_some, Option.some.injEq] at hr
    obtain ⟨-, rfl⟩ := hr
    obtain ⟨m, hm, hid, hout, -⟩ := hp.client
    exact ⟨⟨⟨m, hm, (fun h => by cases h), hout, fun h => by cases h⟩, hp.sessions⟩, rfl⟩
  | session j =>
    obtain ⟨s, hs, rfl⟩ := Option.map_eq_some_iff.mp hr
    refine ⟨⟨hp.client, fun t ht halive => ?_⟩, rfl⟩
    rcases List.mem_or_eq_of_mem_set ht with ht | rfl
    · exact hp.sessions t ht halive
    · cases halive

/-! ## Every run -/

/-- A packet in flight; if it is an error packet, it goes through. -/
def WireSent (S : Setup) (filename F : Bytes) (_ : Parties Read) (d : Datagram) : Prop :=
  WirePacket S filename F d ∧ Goes d.packet

theorem wire_download_carries (S : Setup) (F : Bytes) (hname : Named filename) :
    (process S readTransfer).Carries (rawProcess S readTransfer) Datagram.send Datagram.arrives
      (WireSent S filename F) :=
  carries S readTransfer fun hd => (hd.1.arrives hname).1

theorem wire_download_arriving (hF : S.files filename = some (.ofBytes F)) (hname : Named filename) :
    (process S readTransfer).ArrivingInvariant Datagram.arrives (WireDownloadInv F)
      (WireSent S filename F) where
  receive hp hd hr := by
    have hrec := receive_reception hr
    obtain ⟨h, hs⟩ := wire_download_receive hF hp (hd.1.arrives hname).2 hrec
    exact ⟨h, fun _ h => h, fun q hq => ⟨hs q hq, receive_goes Read.receive_goes hrec q hq⟩⟩
  act hp hr := by
    obtain ⟨h, hs⟩ := wire_download_timeout hp hr
    exact ⟨h, fun _ h => h, by simp [hs]⟩

theorem wire_download_start (S : Setup) (filename F : Bytes) :
    Process.Holds (WireDownloadInv F) (WireSent S filename F) (start S (Read.start S.port filename)) := by
  refine ⟨⟨⟨0, by omega, fun _ => rfl, rfl, fun h => by cases h⟩, by simp [start]⟩, fun d hd => ?_⟩
  obtain rfl := List.mem_singleton.mp hd
  exact ⟨⟨rfl, rfl⟩, trivial⟩

theorem wireRead_of_reachable (hF : S.files filename = some (.ofBytes F)) (hname : Named filename)
    {w : World (Parties Read) RawDatagram} (h : (wireDownload S filename).Reachable w) :
    WireRead F w.state.client := by
  have hinv := (wire_download_carries S F hname).invariant (wire_download_arriving hF hname)
  obtain ⟨h0, hnet⟩ := wire_download_start S filename F
  refine (hinv.reachable ⟨h0, fun b hb => ?_⟩ h).1.client
  obtain ⟨d, hd, rfl⟩ := List.mem_map.mp hb
  exact ⟨d, rfl, hnet d hd⟩

/-- **Safety over bytes.** Over any network, and for a file of any size, what
`Read` has written is a prefix of the file at all times, and the file when `Read`
returns. -/
theorem wire_download_safe (hF : S.files filename = some (.ofBytes F)) (hname : Named filename)
    {w : World (Parties Read) RawDatagram} (h : (wireDownload S filename).Reachable w) :
    w.state.client.out <+: F ∧ (w.state.client.status = .returned → w.state.client.out = F) := by
  obtain ⟨m, -, -, hout, hret⟩ := wireRead_of_reachable hF hname h
  rw [hout]
  exact ⟨List.take_prefix _ _, fun hr => take_of_short (hret hr)⟩

/-- The request, the only block and its acknowledgement arrive. -/
def hiWireRun : List (NetLabel Arrival Timeout) :=
  [.duplicate 0, .deliver 0 ⟨1024, ⟨true, .stores⟩⟩, .deliver 1 ⟨1025, ⟨true, .stores⟩⟩]

theorem wire_hi_reachable : ∃ w, (wireDownload hiSetup (ascii "f")).Reachable w ∧
    w.state.client.status = .returned := by
  have hrun : ((LTS.runFn (rawProcess hiSetup readTransfer).stepFn (fun _ _ => true)
      (Process.encodedWorld Datagram.send (start hiSetup (Read.start 69 (ascii "f")))) hiWireRun).map
        fun w => w.state.client.status) = some .returned := by decide +kernel
  obtain ⟨w, hw, hs⟩ := Option.map_eq_some_iff.mp hrun
  exact ⟨w, Process.reachable_of_run hw, hs⟩

theorem wire_download_safe_hi : ∃ w, (wireDownload hiSetup (ascii "f")).Reachable w ∧
    w.state.client.status = .returned ∧ w.state.client.out = ascii "hi" := by
  obtain ⟨w, hw, hs⟩ := wire_hi_reachable
  exact ⟨w, hw, hs, (wire_download_safe rfl f_named hw).2 hs⟩

/-! ## Reliable networks -/

/-- The runs over a network that delivers every datagram once and in order. -/
def reliableWireDownload (S : Setup) (filename : Bytes) : LTS (World (Parties Read) RawDatagram)
    (NetLabel Arrival Timeout) :=
  (rawProcess S readTransfer).inOrder RawDatagram.route
    (Process.encodedWorld Datagram.send (start S (Read.start S.port filename)))

end NetworksLab.L5.TftpNet
