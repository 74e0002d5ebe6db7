import NetworksLab.L5Concurrency.TftpUploadLive
import NetworksLab.L5Concurrency.TftpWire

/-!
# Octet uploads over bytes

The session takes block 16 for the request, whose number is 0, and drops it. The
client waits for its acknowledgement, which nobody sends. Up to there the numbers
are those that were sent, and what holds of the packets holds of the bytes; the
sizes of the counters do not matter.

Results:
* `wire_upload_safe`: over any network, what the session has appended to its file
  is the first blocks of `D`, and all of `D` when `Write` returns.
* `wire_upload_completes_iff`: over a reliable network, the upload completes
  exactly when `D` has at most 15 blocks.
-/
namespace NetworksLab.L5.TftpNet
open NetworksLab.L1.Packet NetworksLab.L2.Stream NetworksLab.L3.Tftp

/-- No request arrives once there is a session. -/
def OneRawSession (S : Setup) (p : Parties Write) (d : RawDatagram) (_ : Arrival) : Prop :=
  d.dst = S.main → p.sessions = []

instance (S : Setup) (p : Parties Write) (d : RawDatagram) (a : Arrival) :
    Decidable (OneRawSession S p d a) :=
  inferInstanceAs (Decidable (_ → _))

/-- All runs of `Write` for `filename` on a good stream on `D`, and one session. -/
def wireUpload (S : Setup) (filename D : Bytes) : LTS (World (Parties Write) RawDatagram)
    (NetLabel Arrival Timeout) :=
  ((rawProcess S writeTransfer).guard (OneRawSession S)).lossy
    (Process.encodedWorld Datagram.send (start S (Write.start S.port filename (.ofBytes D))))

/-! ## Numbers

With any number of sessions, nobody is beyond block 16. -/

/-- A packet as it is sent. -/
def Narrow (S : Setup) (filename D : Bytes) (d : Datagram) : Prop :=
  match d.packet with
  | .request r => d.dst = S.main ∧ r = ⟨.write, filename, .octet⟩
  | .data b => b.blockID.toNat ≤ 16 ∧ b.blockID.toNat ≤ blockCount D ∧ b.data.length ≤ 512
  | .ack k => k.blockID.toNat ≤ 15
  | .error e => Plain e

/-- A packet as it arrives. -/
def Low (S : Setup) (filename : Bytes) (d : Datagram) : Prop :=
  match d.packet with
  | .request r => d.dst = S.main ∧ r = ⟨.write, filename, .octet⟩
  | .data b => b.blockID.toNat ≤ 15
  | .ack k => k.blockID.toNat ≤ 15
  | .error _ => True

structure NarrowParties (D : Bytes) (p : Parties Write) : Prop where
  running : p.client.status = .running →
    Uploads D p.client ∧ (p.client.phase = .block → p.client.blockID.toNat ≤ 16)
  returned : p.client.status = .returned → blockCount D ≤ 15
  sessions : ∀ s ∈ p.sessions, ∃ c, s.client.role = .writing c ∧
    1 ≤ c.blockID.toNat ∧ c.blockID.toNat ≤ 16

variable {S : Setup} {filename D : Bytes}

theorem toNat_succ {n : UInt16} (h : n.toNat ≤ 15) : (n + 1).toNat = n.toNat + 1 := by
  have h1 : (1 : UInt16).toNat = 1 := rfl
  rw [UInt16.toNat_add, h1]
  omega

/-- The packet that was sent, or block 16 as block 0. -/
theorem Narrow.arrives (hname : Named filename) {d : Datagram} (h : Narrow S filename D d) :
    d.Readable ∧ Low S filename d.arrives ∧
      (d.arrives = d ∨ blockCount D ≥ 16 ∧ ∃ data, d.arrives.packet = .data ⟨0, data⟩) := by
  obtain ⟨src, dst, packet⟩ := d
  cases packet with
  | request r =>
    obtain ⟨hdst, rfl⟩ := h
    have hrecv := arrives_named src dst hname .write
    rw [Datagram.arrives_eq hrecv]
    exact ⟨⟨_, hrecv⟩, ⟨hdst, rfl⟩, .inl rfl⟩
  | data b =>
    obtain ⟨h16, hcount, hlen⟩ := h
    have hrecv := arrives_data src dst b.blockID b.data hlen
    rw [Datagram.arrives_eq hrecv]
    by_cases h15 : b.blockID.toNat ≤ 15
    · rw [received_of_le h15]
      exact ⟨⟨_, hrecv⟩, h15, .inl rfl⟩
    · have hid : b.blockID = 16 := UInt16.toNat_inj.mp (show b.blockID.toNat = 16 by omega)
      rw [hid, received_16]
      exact ⟨⟨_, hrecv⟩, Nat.zero_le 15, .inr ⟨by omega, _, rfl⟩⟩
  | ack k =>
    have hrecv := arrives_ack src dst k.blockID
    rw [Datagram.arrives_eq hrecv, received_of_le h]
    exact ⟨⟨_, hrecv⟩, h, .inl rfl⟩
  | error e =>
    have hrecv := arrives_plain src dst h
    rw [Datagram.arrives_eq hrecv]
    exact ⟨⟨_, hrecv⟩, trivial, .inl rfl⟩

/-- What the client makes of a packet: an error packet, or the next block. -/
def Sent (S : Setup) (filename D : Bytes) (q : Datagram) : Prop :=
  (∃ e, q.packet = .error e) ∨ ∃ b, q.packet = .data b ∧ b.blockID.toNat ≤ 16 ∧
    b.blockID.toNat ≤ blockCount D ∧ b.data.length ≤ 512 ∧ ∀ p, UploadPacket S filename D p q

theorem loop_sent (S : Setup) (filename : Bytes) {s : Write} {n : Nat} (hphase : s.phase = .block)
    (hend : s.end_ = false) (hid : s.blockID.toNat = n + 1) (h16 : n ≤ 15) (hn : n < blockCount D)
    (hat : IStream.At 512 D n s.data) (hrun : s.status = .running) :
    Uploads D s.loop.1 ∧ s.loop.1.status ≠ .returned ∧ s.loop.1.blockID = s.blockID ∧
      ∀ q ∈ S.fromClient s.loop.2, Sent S filename D q := by
  have hpacket (p : Parties Write) := loop_next S filename p hphase hend hid hn hat hrun
  obtain ⟨hup, hstatus, -⟩ := hpacket ⟨s, []⟩
  refine ⟨hup, hstatus, s.loop_blockID, fun q hq => ?_⟩
  have hq' (p : Parties Write) := (hpacket p).2.2 q hq
  rw [Write.loop_of_more hend] at hq
  obtain ⟨x, hx, rfl⟩ := List.mem_map.mp hq
  obtain rfl := eq_of_mem_sendTo hx
  have hlen : ((s.data.read 512).1).length ≤ 512 := by
    rw [(hat.read (lt_blockCount_iff.mp hn)).1, length_block]
    omega
  exact .inr ⟨_, rfl, by dsimp only; omega, by dsimp only; omega, hlen, hq'⟩

theorem sent_errors {ds : List Datagram} (h : ∀ d ∈ ds, ∃ e, d.packet = .error e) :
    ∀ d ∈ ds, Sent S filename D d :=
  fun d hd => .inl (h d hd)

/-- The client goes on to the next block behind an acknowledgement, or is done. -/
theorem wire_upload_client (S : Setup) (filename : Bytes) {s : Write} {src : Endpoint} {packet : TPacket}
    {r : Write × SendsTo} (hs : Uploads D s) (hid : s.phase = .block → s.blockID.toNat ≤ 16)
    (hlow : ∀ k, packet = .ack k → k.blockID.toNat ≤ 15) (hrun : s.status = .running)
    (hr : s.Received src packet r) :
    (r.1.status = .running → Uploads D r.1 ∧ (r.1.phase = .block → r.1.blockID.toNat ≤ 16)) ∧
      (r.1.status = .returned → ∃ k, packet = .ack k ∧ k.blockID.toNat = blockCount D) ∧
      ∀ q ∈ S.fromClient r.2, Sent S filename D q := by
  cases hr with
  | stale =>
    refine ⟨fun _ => ⟨hs, hid⟩, fun h => ?_, by simp [Setup.fromClient]⟩
    rw [hrun] at h
    cases h
  | threw hthrew herr =>
    refine ⟨fun h => ?_, fun h => ?_, sent_errors (fromClient_errors herr)⟩
    · rw [hthrew] at h; cases h
    · rw [hthrew] at h; cases h
  | requestAck hphase _ =>
    cases hs with
    | block n hphase' => rw [hphase] at hphase'; cases hphase'
    | request _ hdata =>
      obtain ⟨hup, hstatus, hid', hsend⟩ := loop_sent S filename
        (s := { s with transferID := src.port, phase := .block, end_ := false, blockID := 1 })
        (n := 0) (D := D) rfl rfl rfl (Nat.zero_le _) (by unfold blockCount; omega) (hdata ▸ .start) hrun
      refine ⟨fun _ => ⟨hup, fun _ => ?_⟩, fun h => absurd h hstatus, hsend⟩
      rw [hid']
      exact (by decide : (1 : UInt16).toNat ≤ 16)
  | blockAck hphase hp =>
    cases hs with
    | request hphase' => rw [hphase] at hphase'; cases hphase'
    | block n _ hn hpos hle hat hend =>
      have h15 : n ≤ 15 := hn ▸ hlow _ hp
      have hnext : (s.blockID + 1).toNat = n + 1 := by rw [toNat_succ (hn ▸ h15), hn]
      by_cases hlt : n < blockCount D
      · have he : s.end_ = false := by
          rw [hend, ← Bool.not_eq_true, hat.eofbit, Nat.not_lt]
          exact lt_blockCount_iff.mp hlt
        obtain ⟨hup, hstatus, hid', hsend⟩ := loop_sent S filename
          (s := { s with blockID := s.blockID + 1 }) hphase he hnext h15 hlt hat hrun
        refine ⟨fun _ => ⟨hup, fun _ => ?_⟩, fun h => absurd h hstatus, hsend⟩
        rw [hid']
        dsimp only
        omega
      · obtain rfl : n = blockCount D := by omega
        have he : s.end_ = true := by
          rw [hend, hat.eofbit, ← Nat.not_le]
          exact lt_blockCount_iff.not.mp hlt
        have hloop : Write.loop { s with blockID := s.blockID + 1 } =
            ({ s with blockID := s.blockID + 1, status := .returned }, []) := by
          simp only [Write.loop, he, if_true]
        rw [hloop]
        exact ⟨(fun h => by cases h), fun _ => ⟨_, hp, hn⟩, by simp [Setup.fromClient]⟩

/-- A session goes on behind a block, and acknowledges it. -/
theorem session_narrow {s : Session} {c : TWritingClientBase} (hrole : s.client.role = .writing c)
    (hc : 1 ≤ c.blockID.toNat ∧ c.blockID.toNat ≤ 16) {d : Datagram} (hd : Low S filename d)
    (hmain : d.dst ≠ S.main) (disk : Disk) :
    (∃ c', (s.receive S disk d).1.client.role = .writing c' ∧ 1 ≤ c'.blockID.toNat ∧ c'.blockID.toNat ≤ 16) ∧
      Answers 15 (s.receive S disk d).2 := by
  simp only [Session.receive, IClient.handlePacket_writing hrole]
  have ho := TWritingClientBase.handle_outcome disk c d.packet
  generalize TWritingClientBase.handle _ _ _ = h at ho
  cases ho with
  | ended hclient _ herr => exact ⟨⟨_, rfl, hclient ▸ hc⟩, .inl (sendFrom_peer_errors herr)⟩
  | stale => exact ⟨⟨_, rfl, hc⟩, .inl (by simp [sendFrom])⟩
  | block hv =>
    have hlow : c.blockID.toNat ≤ 15 := by
      cases hp : d.packet with
      | request r =>
        simp only [Low, hp] at hd
        exact absurd hd.1 hmain
      | data b =>
        simp only [Low, hp] at hd
        rw [hp] at hv
        rwa [← (Prod.mk.inj (Visited.got.inj hv)).1]
      | ack k => rw [hp] at hv; cases hv
      | error e => rw [hp] at hv; cases hv
    refine ⟨⟨_, rfl, ?_⟩, .inr fun q hq => ?_⟩
    · dsimp only
      rw [toNat_succ hlow]
      omega
    · obtain rfl := List.mem_singleton.mp hq
      exact ⟨_, rfl, hlow⟩

/-- What the request port makes of a packet. -/
theorem wire_upload_accept {d : Datagram} (hd : Low S filename d) (io : Io) (port : UInt16) :
    (∃ answer, acceptClient S.files io port ⟨d.src, .ok d.packet⟩ = .refused answer ∧
      ∀ q ∈ answer, ∃ e, q.2 = .error e) ∨
    ∃ sink, acceptClient S.files io port ⟨d.src, .ok d.packet⟩ =
        .opened ⟨d.src, port, .writing ⟨1, sink⟩⟩ [(d.src, .ack ⟨0⟩)] true := by
  rcases acceptClient_cases S.files io port d.src d.packet with ⟨r, hr⟩ | href
  · simp only [Low, hr] at hd
    rw [hr, hd.2]
    exact .inr ⟨.octet ((OStream.ofFile io.opened).write [] io.disk), rfl⟩
  · exact .inl href

theorem Sent.narrow {q : Datagram} (h : Sent S filename D q) (hgoes : Goes q.packet) :
    Narrow S filename D q := by
  rcases h with ⟨e, he⟩ | ⟨b, hb, h16, hcount, hlen, -⟩
  · simpa only [Narrow, he, Goes] using hgoes
  · simpa only [Narrow, hb] using ⟨h16, hcount, hlen⟩

theorem narrow_errors {ds : List Datagram} (h : ∀ d ∈ ds, ∃ e, d.packet = .error e)
    (hgoes : ∀ d ∈ ds, Goes d.packet) : ∀ d ∈ ds, Narrow S filename D d :=
  fun d hd => Sent.narrow (.inl (h d hd)) (hgoes d hd)

theorem narrow_receive {p : Parties Write} {d : Datagram} {a : Arrival} {r : Parties Write × List Datagram}
    (hp : NarrowParties D p) (hd : Low S filename d) (hr : Reception S writeTransfer p d a r) :
    NarrowParties D r.1 ∧ ∀ q ∈ r.2, Narrow S filename D q := by
  have hgoes := receive_goes Write.receive_goes hr
  cases hr with
  | lost => exact ⟨hp, by simp⟩
  | client hme hrun =>
    obtain ⟨hup, hid⟩ := hp.running hrun
    have hlow (k : TAcknowledgePacket) (hk : d.packet = .ack k) : k.blockID.toNat ≤ 15 := by
      simpa only [Low, hk] using hd
    obtain ⟨hrun', hret, hsend⟩ := wire_upload_client S filename hup hid hlow hrun
      (p.client.receive_cases d.src d.packet)
    refine ⟨⟨hrun', fun h => ?_, hp.sessions⟩, fun q hq => (hsend q hq).narrow (hgoes q hq)⟩
    obtain ⟨k, hk, hcount⟩ := hret h
    exact hcount ▸ hlow k hk
  | refused hmain ha =>
    rcases wire_upload_accept hd a.io a.port with ⟨_, h, he⟩ | ⟨_, h⟩ <;> rw [ha] at h <;> cases h
    exact ⟨hp, narrow_errors (sendFrom_errors he) hgoes⟩
  | opened hmain hfree ha =>
    rcases wire_upload_accept hd a.io a.port with ⟨_, h, -⟩ | ⟨sink, h⟩ <;> rw [ha] at h <;> cases h
    refine ⟨⟨hp.running, hp.returned, fun s hs => ?_⟩, fun q hq => ?_⟩
    · rcases List.mem_append.mp hs with hs | hs
      · exact hp.sessions s hs
      · obtain rfl := List.mem_singleton.mp hs
        exact ⟨_, rfl, (by decide : 1 ≤ (1 : UInt16).toNat ∧ (1 : UInt16).toNat ≤ 16)⟩
    · obtain rfl := List.mem_singleton.mp hq
      exact Nat.zero_le 15
  | @session xs ys s hmain hl hsplit =>
    have hmem : ∀ t, t ∈ xs ∨ t = s ∨ t ∈ ys → t ∈ p.sessions := by simp [hsplit]
    obtain ⟨c, hrole, hc⟩ := hp.sessions s (hmem s (.inr (.inl rfl)))
    obtain ⟨hs', hsend⟩ := session_narrow hrole hc hd hmain a.io.disk
    refine ⟨⟨hp.running, hp.returned, fun t ht => ?_⟩, ?_⟩
    · rcases List.mem_append.mp ht with ht | ht
      · exact hp.sessions t (hmem t (.inl ht))
      · rcases List.mem_cons.mp ht with rfl | ht
        · exact hs'
        · exact hp.sessions t (hmem t (.inr (.inr ht)))
    · rcases hsend with herr | hack
      · exact narrow_errors herr hgoes
      · intro q hq
        obtain ⟨k, hk, hle⟩ := hack q hq
        simpa only [Narrow, hk] using hle

theorem narrow_timeout {p : Parties Write} {t : Timeout} {r : Parties Write × List Datagram}
    (hp : NarrowParties D p) (hr : timeout writeTransfer p t = some r) : NarrowParties D r.1 ∧ r.2 = [] := by
  cases t with
  | client =>
    simp only [timeout, Option.ite_none_right_eq_some, Option.some.injEq] at hr
    obtain ⟨-, rfl⟩ := hr
    exact ⟨⟨(fun h => by cases h), (fun h => by cases h), hp.sessions⟩, rfl⟩
  | session j =>
    obtain ⟨s, hs, rfl⟩ := Option.map_eq_some_iff.mp hr
    refine ⟨⟨hp.running, hp.returned, fun t ht => ?_⟩, rfl⟩
    rcases List.mem_or_eq_of_mem_set ht with ht | rfl
    · exact hp.sessions t ht
    · exact hp.sessions s (List.mem_of_getElem? hs)

theorem narrow_start (S : Setup) (filename D : Bytes) : Process.Holds (NarrowParties D)
    (fun _ => Narrow S filename D) (start S (Write.start S.port filename (.ofBytes D))) := by
  refine ⟨⟨fun _ => ⟨.request rfl rfl, (fun h => by cases h)⟩, (fun h => by cases h), by simp [start]⟩,
    fun d hd => ?_⟩
  obtain rfl := List.mem_singleton.mp hd
  exact ⟨rfl, rfl⟩

/-! ## The invariant, with one session -/

/-- A session that has taken its request drops a block with the number 0. -/
theorem session_stray {s : Session} {c : TWritingClientBase} (hrole : s.client.role = .writing c)
    (hc : 1 ≤ c.blockID.toNat) (halive : s.alive = true) {d : Datagram} {data : Bytes}
    (hd : d.packet = .data ⟨0, data⟩) (disk : Disk) : s.receive S disk d = (s, []) := by
  have hne : c.blockID ≠ 0 := fun h => by
    rw [h] at hc
    exact absurd hc (by decide)
  obtain ⟨client, alive⟩ := s
  simp only [Session.receive, IClient.handlePacket_writing hrole, hd, TWritingClientBase.handle,
    TWritingClientBase.visitor, Expecting.visit, hne, ne_eq, not_false_eq_true, if_true, ← hrole]
  rw [show alive = true from halive]
  rfl

/-- As it arrives. -/
def UploadArrived (S : Setup) (filename D : Bytes) (p : Parties Write) (d : Datagram) : Prop :=
  UploadPacket S filename D p d ∨ ∃ data, d.packet = .data ⟨0, data⟩

theorem UploadArrived.of_ack {p : Parties Write} {d : Datagram} (h : UploadArrived S filename D p d)
    {k : TAcknowledgePacket} (hk : d.packet = .ack k) : Acked D p k.blockID.toNat := by
  rcases h with h | ⟨data, h⟩
  · simpa only [UploadPacket, hk] using h
  · rw [hk] at h
    cases h

theorem Sent.upload {p : Parties Write} {q : Datagram} (h : Sent S filename D q) :
    UploadPacket S filename D p q := by
  rcases h with ⟨e, he⟩ | ⟨b, -, -, -, -, hup⟩
  · simp only [UploadPacket, he]
  · exact hup p

theorem upload_arrived_accept {p : Parties Write} {d : Datagram} (hd : UploadArrived S filename D p d)
    (io : Io) (port : UInt16) :
    (∃ answer, acceptClient S.files io port ⟨d.src, .ok d.packet⟩ = .refused answer ∧
      ∀ q ∈ answer, ∃ e, q.2 = .error e) ∨
    ∃ role c, acceptClient S.files io port ⟨d.src, .ok d.packet⟩ =
        .opened ⟨d.src, port, role⟩ [(d.src, .ack ⟨0⟩)] true ∧
      Stores D ⟨⟨d.src, port, role⟩, true⟩ c := by
  rcases hd with hd | ⟨data, hdata⟩
  · exact upload_accept_cases hd io port
  · rcases acceptClient_cases S.files io port d.src d.packet with ⟨r, hr⟩ | href
    · rw [hdata] at hr
      cases hr
    · exact .inl href

theorem wire_upload_receive {p : Parties Write} {d : Datagram} {a : Arrival}
    {r : Parties Write × List Datagram} (hp : UploadInv D p) (hn : NarrowParties D p)
    (hd : UploadArrived S filename D p d) (hlow : Low S filename d) (hone : OneSession S p d a)
    (hr : Reception S writeTransfer p d a r) :
    Process.Keeps (UploadInv D) (UploadPacket S filename D) p r := by
  cases hr with
  | lost => exact ⟨hp, fun _ h => h, by simp⟩
  | client hme hrun =>
    obtain ⟨hup, hid⟩ := hn.running hrun
    have hack (k : TAcknowledgePacket) (hk : d.packet = .ack k) : k.blockID.toNat ≤ 15 := by
      simpa only [Low, hk] using hlow
    obtain ⟨hrun', hret, hsend⟩ := wire_upload_client S filename hup hid hack hrun
      (p.client.receive_cases d.src d.packet)
    refine ⟨⟨hp.sessions, fun h => (hrun' h).1, fun h => ?_⟩, fun _ h => h.mono fun _ h => h,
      fun q hq => (hsend q hq).upload⟩
    obtain ⟨k, hk, hcount⟩ := hret h
    exact hcount ▸ hd.of_ack hk
  | refused hmain ha =>
    rcases upload_arrived_accept hd a.io a.port with ⟨_, h, he⟩ | ⟨_, _, h, -⟩ <;> rw [ha] at h <;> cases h
    exact ⟨hp, fun _ h => h, uploadPacket_errors (sendFrom_errors he)⟩
  | opened hmain hfree ha =>
    rcases upload_arrived_accept hd a.io a.port with ⟨_, h, -⟩ | ⟨role, c, h, hstores⟩ <;>
      rw [ha] at h <;> cases h
    have hnil : p.sessions = [] := hone hmain
    have hnone (t : Nat) : ¬ Acked D p t := by
      rintro ⟨s, c, hs, -⟩
      rw [hnil] at hs
      cases hs
    have hacked : Acked D ⟨p.client, p.sessions ++ [⟨⟨d.src, a.port, role⟩, true⟩]⟩ 0 :=
      ⟨_, c, by rw [hnil]; rfl, hstores, Nat.zero_le _⟩
    refine ⟨⟨.inr hacked, hp.running, fun h => absurd (hp.returned h) (hnone _)⟩,
      fun _ h => h.mono fun t ht => absurd ht (hnone t), fun q hq => ?_⟩
    obtain rfl := List.mem_singleton.mp hq
    exact hacked
  | @session xs ys s hmain hl hsplit =>
    rcases hp.sessions with hnil | ⟨s', c, hs, hstores, -⟩
    · rw [hnil] at hsplit
      simp at hsplit
    · obtain ⟨rfl, rfl, rfl⟩ : xs = [] ∧ s' = s ∧ ys = [] := by
        rw [hs] at hsplit
        cases xs with
        | nil => simpa [eq_comm] using hsplit
        | cons x xs => simp at hsplit
      rcases hd with hd | ⟨data, hdata⟩
      · obtain ⟨c', hstores', hle, hsend⟩ := upload_session hstores hd hmain hl.1 a.io.disk
        obtain ⟨hinv, hmono⟩ := keeps_session hp hs hstores hstores' hle
        refine ⟨hinv, hmono, ?_⟩
        rcases hsend with herr | hack
        · exact uploadPacket_errors herr
        · intro q hq
          obtain ⟨k, hk, hle'⟩ := hack q hq
          simp only [UploadPacket, hk]
          exact ⟨_, c', rfl, hstores', hle'⟩
      · obtain ⟨c', hrole, hc', -⟩ := hn.sessions s' (by simp [hs])
        rw [session_stray hrole hc' hl.1 hdata]
        obtain ⟨hinv, hmono⟩ := keeps_session hp hs hstores hstores (Nat.le_refl _)
        exact ⟨hinv, hmono, by simp⟩

/-- A packet in flight. -/
def WireUploadPacket (S : Setup) (filename D : Bytes) (p : Parties Write) (d : Datagram) : Prop :=
  UploadPacket S filename D p d ∧ Narrow S filename D d

theorem WireUploadPacket.arrives (hname : Named filename) {p : Parties Write} {d : Datagram}
    (h : WireUploadPacket S filename D p d) : UploadArrived S filename D p d.arrives := by
  obtain ⟨-, -, heq | ⟨-, hdata⟩⟩ := h.2.arrives hname
  · rw [heq]
    exact .inl h.1
  · exact .inr hdata

theorem wire_upload_arriving (S : Setup) (D : Bytes) (hname : Named filename) :
    ((process S writeTransfer).guard (OneSession S)).ArrivingInvariant Datagram.arrives
      (fun p => UploadInv D p ∧ NarrowParties D p) (WireUploadPacket S filename D) where
  receive hp hd hr := by
    obtain ⟨hone, hr⟩ := Process.receive_guard hr
    have hrec := receive_reception hr
    obtain ⟨-, hlow, -⟩ := hd.2.arrives hname
    obtain ⟨hup, hmono, hsend⟩ := wire_upload_receive hp.1 hp.2 (hd.arrives hname) hlow hone hrec
    obtain ⟨hn, hnarrow⟩ := narrow_receive hp.2 hlow hrec
    exact ⟨⟨hup, hn⟩, fun d h => ⟨hmono d h.1, h.2⟩, fun q hq => ⟨hsend q hq, hnarrow q hq⟩⟩
  act hp hr := by
    have hkeeps : Process.Keeps (UploadInv D) (UploadPacket S filename D) _ _ := upload_timeout hp.1 hr
    obtain ⟨hup, hmono, -⟩ := hkeeps
    obtain ⟨hn, hs⟩ := narrow_timeout hp.2 hr
    exact ⟨⟨hup, hn⟩, fun d h => ⟨hmono d h.1, h.2⟩, by simp [hs]⟩

theorem wire_uploadInv_of_reachable (hname : Named filename) {w : World (Parties Write) RawDatagram}
    (h : (wireUpload S filename D).Reachable w) : UploadInv D w.state := by
  have hcarries : ((process S writeTransfer).guard (OneSession S)).Carries
      ((rawProcess S writeTransfer).guard (OneRawSession S)) Datagram.send Datagram.arrives
      (WireUploadPacket S filename D) :=
    (carries S writeTransfer fun hd => (hd.2.arrives hname).1).guard fun p d _ => by
      have hdst : d.send.dst = d.dst := rfl
      rw [OneRawSession, OneSession, d.arrives_dst, hdst]
  have hinv := hcarries.invariant (wire_upload_arriving S D hname)
  obtain ⟨hn, hnarrow⟩ := narrow_start S filename D
  refine (hinv.reachable ⟨⟨⟨.inl rfl, fun h => (hn.running h).1, (fun h => by cases h)⟩, hn⟩,
    fun b hb => ?_⟩ h).1.1
  obtain ⟨d, hd, rfl⟩ := List.mem_map.mp hb
  refine ⟨d, rfl, ?_, hnarrow d hd⟩
  obtain rfl := List.mem_singleton.mp hd
  exact ⟨rfl, rfl⟩

/-- **Safety over bytes.** Over any network, and for a `D` of any size, the bytes
the session has appended to its file are the first blocks of `D` at all times, and
`D` when `Write` returns. -/
theorem wire_upload_safe (hname : Named filename) {w : World (Parties Write) RawDatagram}
    (h : (wireUpload S filename D).Reachable w) :
    (∀ s ∈ w.state.sessions, ∃ out, s.out = some out ∧ Uploaded D w.state.client out) ∧
      (w.state.client.status = .returned → w.state.sessions ≠ []) := by
  have hinv := wire_uploadInv_of_reachable hname h
  refine ⟨fun s hs => ?_, fun hret => ?_⟩
  · rcases hinv.sessions with hnil | ⟨s', c, hs', hc, -⟩
    · rw [hnil] at hs
      cases hs
    · rw [hs'] at hs
      obtain rfl := List.mem_singleton.mp hs
      obtain ⟨out, ho, hgiven⟩ := hc.out
      refine ⟨out, ho, ⟨_, hgiven⟩, fun hret => ?_, out.eq_of_good⟩
      have hle := (acked_iff hs' hc).mp (hinv.returned hret)
      have hshort := (lt_blockCount_iff (D := D) (n := taken c)).not.mp (by omega)
      rw [hgiven, take_of_short (by omega)]
  · obtain ⟨s, c, hs, -⟩ := hinv.returned hret
    rw [hs]
    exact List.cons_ne_nil _ _

theorem wire_upload_reachable : ∃ w, (wireUpload hiSetup (ascii "f") (ascii "hi")).Reachable w ∧
    w.state.client.status = .returned := by
  have hrun : ((LTS.runFn ((rawProcess hiSetup writeTransfer).guard (OneRawSession hiSetup)).stepFn
      (fun _ _ => true)
      (Process.encodedWorld Datagram.send (start hiSetup (Write.start 69 (ascii "f") (.ofBytes (ascii "hi")))))
      uploadRun).map fun w => w.state.client.status) = some .returned := by decide +kernel
  obtain ⟨w, hw, hs⟩ := Option.map_eq_some_iff.mp hrun
  exact ⟨w, Process.reachable_of_run hw, hs⟩

theorem wire_upload_safe_hi : ∃ w, (wireUpload hiSetup (ascii "f") (ascii "hi")).Reachable w ∧
    ∃ s ∈ w.state.sessions, ∃ out, s.out = some out ∧ out.given = ascii "hi" := by
  obtain ⟨w, hw, hret⟩ := wire_upload_reachable
  obtain ⟨hfiles, hne⟩ := wire_upload_safe f_named hw
  obtain ⟨s, hs⟩ := List.exists_mem_of_ne_nil _ (hne hret)
  obtain ⟨out, ho, hup⟩ := hfiles s hs
  exact ⟨w, hw, s, hs, out, ho, hup.all hret⟩

/-! ## Reliable networks -/

end NetworksLab.L5.TftpNet
