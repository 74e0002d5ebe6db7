import NetworksLab.L5Concurrency.TftpUpload

/-!
# Octet uploads over a reliable network

Every packet is delivered once and in order, so one is in flight at a time and
none is old: the two block numbers agree as they are, and that they wrap does
not matter. A session goes on behind every full block, so it is there for the
next one. (Behind a last block whose number has wrapped to 0 it goes on as well,
as if it were the request; the client has returned by then.)

Results:
* `upload_completes`: for every `D`, `Write` returns, and what the session has
  appended to its file is `D`.
-/
namespace NetworksLab.L5.TftpNet
open NetworksLab.L1.Packet NetworksLab.L2.Stream NetworksLab.L3.Tftp

/-- The runs of `Write` over a network that delivers every packet once and in order. -/
def reliableUpload (S : Setup) (filename D : Bytes) : LTS (World (Parties Write) Datagram)
    (NetLabel Arrival Timeout) :=
  (process S writeTransfer).inOrder Datagram.route
    (start S (Write.start S.port filename (.ofBytes D)))

/-- `Write` has returned, and the session has appended `D`: the file is `D` if no
write to it has failed. -/
def Stored (D : Bytes) (w : World (Parties Write) Datagram) : Prop :=
  w.state.client.status = .returned ∧ ∃ s out, w.state.sessions = [s] ∧ s.out = some out ∧
    out.given = D ∧ (out.good = true → out.written = D)

/-- The client has sent block `n + 1` and waits for its acknowledgement. -/
structure Sending (D : Bytes) (n : Nat) (port : UInt16) (s : Write) : Prop where
  status : s.status = .running
  phase : s.phase = .block
  transferID : s.transferID = port
  blockID : s.blockID = UInt16.ofNat (n + 1)
  stream : IStream.At 512 D (n + 1) s.data
  end_ : s.end_ = s.data.eofbit

/-- The session has appended the first `n` blocks, on a port of its own. -/
structure Storing (S : Setup) (D : Bytes) (n : Nat) (c : IClient) : Prop where
  address : c.address = S.me
  port_ne : c.port ≠ S.port
  port_pos : c.port ≠ 0
  me_ne : S.me ≠ ⟨S.host, c.port⟩
  role : ∃ out, c.role = .writing ⟨UInt16.ofNat (n + 1), .octet out⟩ ∧ out.given = D.take (512 * n)

/-- Block `n + 1` is in flight. -/
def dataSent (S : Setup) (D : Bytes) (n : Nat) (s : Write) (c : IClient) :
    World (Parties Write) Datagram :=
  ⟨⟨s, [⟨c, true⟩]⟩, [⟨S.me, ⟨S.host, c.port⟩, .data ⟨UInt16.ofNat (n + 1), block 512 D n⟩⟩]⟩

/-- The acknowledgement of block `n` is (block 0 is the request). -/
def dataAcked (S : Setup) (n : Nat) (s : Write) (c : IClient) (alive : Bool) :
    World (Parties Write) Datagram :=
  ⟨⟨s, [⟨c, alive⟩]⟩, [⟨⟨S.host, c.port⟩, S.me, .ack ⟨UInt16.ofNat n⟩⟩]⟩

variable {S : Setup} {filename D : Bytes} {n : Nat} {s : Write} {c : IClient}

/-- The client reads block `n + 1` and sends it. -/
theorem loop_sending {port : UInt16} (hstatus : s.status = .running) (hphase : s.phase = .block)
    (hport : s.transferID = port) (hpos : port ≠ 0) (hid : s.blockID = UInt16.ofNat (n + 1)) (hend : s.end_ = false)
    (hat : IStream.At 512 D n s.data) (hn : 512 * n ≤ D.length) :
    ∃ s', s.loop = (s', [(port, .data ⟨UInt16.ofNat (n + 1), block 512 D n⟩)]) ∧ Sending D n port s' := by
  obtain ⟨hblock, hat'⟩ := hat.read hn
  refine ⟨{ s with data := (s.data.read 512).2, end_ := (s.data.read 512).2.eofbit }, ?_,
    ⟨hstatus, hphase, hport, hid, hat', rfl⟩⟩
  rw [Write.loop_of_more hend, hport, sendTo_of_ne hpos, hblock, hid]

/-- The session appends the block and acknowledges it. -/
theorem session_data (hc : Storing S D n c) (disk : Disk) :
    ∃ c', c'.port = c.port ∧ Storing S D (n + 1) c' ∧ ∃ alive,
      Session.receive S disk ⟨S.me, ⟨S.host, c.port⟩, .data ⟨UInt16.ofNat (n + 1), block 512 D n⟩⟩
          ⟨c, true⟩ = (⟨c', alive⟩, [⟨⟨S.host, c.port⟩, S.me, .ack ⟨UInt16.ofNat (n + 1)⟩⟩]) ∧
        (512 * (n + 1) ≤ D.length → alive = true) := by
  obtain ⟨out, hrole, hout⟩ := hc.role
  have hid : UInt16.ofNat (n + 1) + 1 = UInt16.ofNat (n + 1 + 1) := (UInt16.ofNat_add (n + 1) 1).symm
  have hhandle : TWritingClientBase.handle disk ⟨UInt16.ofNat (n + 1), .octet out⟩
      (.data ⟨UInt16.ofNat (n + 1), block 512 D n⟩) =
        ⟨⟨UInt16.ofNat (n + 1 + 1), .octet (out.write (block 512 D n) disk)⟩,
          [.ack ⟨UInt16.ofNat (n + 1)⟩],
          UInt16.ofNat (n + 1 + 1) == 1 || (block 512 D n).length == 512⟩ := by
    rw [← hid]
    simp [TWritingClientBase.handle, TWritingClientBase.visitor, Expecting.visit, Sink.append]
  refine ⟨{ c with role := .writing ⟨UInt16.ofNat (n + 1 + 1), .octet (out.write (block 512 D n) disk)⟩ },
    rfl, ⟨hc.address, hc.port_ne, hc.port_pos, hc.me_ne, _, rfl, ?_⟩,
    UInt16.ofNat (n + 1 + 1) == 1 || (block 512 D n).length == 512, ?_, fun hfull => ?_⟩
  · rw [OStream.given_write, hout, take_succ_block]
  · simp only [Session.receive, IClient.handlePacket_writing hrole, hhandle, sendFrom, hc.address,
      List.map_cons, List.map_nil]
  · rw [(length_block_eq (by decide)).mpr hfull]
    simp

/-! ## One delivery -/

theorem eventually_dataSent {Q : World (Parties Write) Datagram → Prop} (hc : Storing S D n c)
    (hQ : ∀ c' alive, c'.port = c.port → Storing S D (n + 1) c' →
      (512 * (n + 1) ≤ D.length → alive = true) →
      (reliableUpload S filename D).Eventually Q (dataAcked S (n + 1) s c' alive)) :
    (reliableUpload S filename D).Eventually Q (dataSent S D n s c) := by
  have hmain : (⟨S.host, c.port⟩ : Endpoint) ≠ S.main := fun h => hc.port_ne (Endpoint.mk.inj h).2
  have hstep (e : Arrival) := receive_session (T := writeTransfer) (a := e)
    (p := ⟨s, [⟨c, true⟩]⟩)
    (d := ⟨S.me, ⟨S.host, c.port⟩, .data ⟨UInt16.ofNat (n + 1), block 512 D n⟩⟩)
    rfl hc.me_ne.symm hmain ⟨rfl, rfl⟩
  refine Process.eventually_reacts ⟨0, ⟨true, .stores⟩⟩ hstep fun e => ?_
  obtain ⟨c', hport, hc', alive, hrecv, halive⟩ := session_data hc e.io.disk
  rw [hrecv]
  have := hQ c' alive hport hc' halive
  rwa [dataAcked, hport] at this

/-- The client on an acknowledgement, whatever the session does behind it. -/
theorem eventually_acked {Q : World (Parties Write) Datagram → Prop} {alive : Bool} {s' : Write}
    {sends : SendsTo} (hrun : s.status = .running)
    (hrecv : s.receive ⟨⟨S.host, c.port⟩, .ok (.ack ⟨UInt16.ofNat n⟩)⟩ = (s', sends))
    (hQ : (reliableUpload S filename D).Eventually Q ⟨⟨s', [⟨c, alive⟩]⟩, S.fromClient sends⟩) :
    (reliableUpload S filename D).Eventually Q (dataAcked S n s c alive) := by
  have hstep (e : Arrival) : receive S writeTransfer ⟨s, [⟨c, alive⟩]⟩
      ⟨⟨S.host, c.port⟩, S.me, .ack ⟨UInt16.ofNat n⟩⟩ e =
        some (⟨s', [⟨c, alive⟩]⟩, S.fromClient sends) := by
    rw [receive_client rfl hrun]
    simp only [writeTransfer, hrecv]
  refine Process.eventually_reacts ⟨0, ⟨true, .stores⟩⟩ hstep fun e => ?_
  exact hQ

/-- The acknowledgement of block `n + 1`: the client returns behind the last block,
and sends the next one behind any other. -/
theorem receive_ack (hs : Sending D n c.port s) (hpos : c.port ≠ 0) (S : Setup) :
    (D.length < 512 * (n + 1) → ∃ s', s'.status = .returned ∧
      s.receive ⟨⟨S.host, c.port⟩, .ok (.ack ⟨UInt16.ofNat (n + 1)⟩)⟩ = (s', [])) ∧
    (512 * (n + 1) ≤ D.length → ∃ s', Sending D (n + 1) c.port s' ∧
      s.receive ⟨⟨S.host, c.port⟩, .ok (.ack ⟨UInt16.ofNat (n + 1)⟩)⟩ =
        (s', [(c.port, .data ⟨UInt16.ofNat (n + 1 + 1), block 512 D (n + 1)⟩)])) := by
  have hrecv : s.receive ⟨⟨S.host, c.port⟩, .ok (.ack ⟨UInt16.ofNat (n + 1)⟩)⟩ =
      Write.loop { s with blockID := s.blockID + 1 } := by
    simp [Write.receive, hs.phase, Write.receiveBlockAck, writePacketVisitor_got.mpr rfl, hs.blockID]
  rw [hrecv]
  constructor
  · intro hshort
    have hend : s.end_ = true := hs.end_.trans (hs.stream.eofbit.mpr hshort)
    exact ⟨{ s with blockID := s.blockID + 1, status := .returned }, rfl,
      by simp only [Write.loop, hend, if_true]⟩
  · intro hfull
    have hend : s.end_ = false := by
      rw [hs.end_, ← Bool.not_eq_true, hs.stream.eofbit]
      omega
    have hid : s.blockID + 1 = UInt16.ofNat (n + 1 + 1) := by
      rw [hs.blockID]
      exact (UInt16.ofNat_add (n + 1) 1).symm
    obtain ⟨s', hloop, hs'⟩ := loop_sending (s := { s with blockID := s.blockID + 1 }) hs.status
      hs.phase hs.transferID hpos hid hend hs.stream hfull
    exact ⟨s', hs', hloop⟩

/-- From block `n + 1` on, by induction on the number of full blocks left. -/
theorem eventually_stored (k : Nat) : ∀ {n : Nat} {s : Write} {c : IClient},
    D.length / 512 = n + k → Sending D n c.port s → Storing S D n c →
    (reliableUpload S filename D).Eventually (Stored D) (dataSent S D n s c) := by
  induction k with
  | zero =>
    intro n s c hk hs hc
    have hshort : D.length < 512 * (n + 1) := (lt_mul_iff_div_lt (by decide)).mpr (by omega)
    apply eventually_dataSent hc
    intro c' alive hport hc' _
    obtain ⟨s', hret, hrecv⟩ := (receive_ack (hport ▸ hs) hc'.port_pos S).1 hshort
    refine eventually_acked hs.status hrecv (.now ⟨hret, ⟨c', alive⟩, ?_⟩)
    obtain ⟨out, hrole, hout⟩ := hc'.role
    rw [take_of_short hshort] at hout
    exact ⟨out, rfl, by simp only [Session.out, hrole], hout, fun hgood => (out.eq_of_good hgood).trans hout⟩
  | succ k ih =>
    intro n s c hk hs hc
    have hfull : 512 * (n + 1) ≤ D.length :=
      Nat.not_lt.mp fun h => by
        have := (lt_mul_iff_div_lt (by decide)).mp h
        omega
    apply eventually_dataSent hc
    intro c' alive hport hc' halive
    obtain ⟨s', hs', hrecv⟩ := (receive_ack (hport ▸ hs) hc'.port_pos S).2 hfull
    apply eventually_acked hs.status hrecv
    rw [halive hfull]
    exact ih (by omega) hs' hc'

/-- The request opens a session on a free port, which has acknowledged it. -/
theorem receive_wrq (filename : Bytes) (s : Write) (a : Arrival) (D : Bytes) :
    ∃ c, (S.Free ⟨s, []⟩ a.port → Storing S D 0 c) ∧
      receive S writeTransfer ⟨s, []⟩ ⟨S.me, S.main, .request ⟨.write, filename, .octet⟩⟩ a =
        if S.Free ⟨s, []⟩ a.port then
          some ((dataAcked S 0 s c true).state, (dataAcked S 0 s c true).net)
        else none := by
  let role : Role := .writing ⟨1, .octet ((OStream.ofFile a.io.opened).write [] a.io.disk)⟩
  have haccept : acceptClient S.files a.io a.port ⟨S.me, .ok (.request ⟨.write, filename, .octet⟩)⟩ =
      .opened ⟨S.me, a.port, role⟩ [(S.me, .ack ⟨0⟩)] true := rfl
  refine ⟨⟨S.me, a.port, role⟩, fun hfree => ⟨rfl, hfree.2.1, hfree.port_ne_zero, hfree.2.2.1, _, rfl, ?_⟩, ?_⟩
  · rw [OStream.given_write]
    rfl
  · rw [receive_request rfl, receiveRequest]
    simp only [haccept]
    rfl

/-- **Completeness.** For every `D`, over a reliable network `Write` returns, and
the session has appended `D`. -/
theorem upload_completes (S : Setup) (filename D : Bytes) :
    (reliableUpload S filename D).Eventually (Stored D)
      (start S (Write.start S.port filename (.ofBytes D))) := by
  let s := (Write.start S.port filename (.ofBytes D)).1
  apply Process.eventually_deliver
  · obtain ⟨port, hfree⟩ := exists_free S s
    obtain ⟨c, -, hr⟩ := receive_wrq (S := S) filename s ⟨port, ⟨true, .stores⟩⟩ D
    exact ⟨_, Option.isSome_of_eq_some (hr.trans (if_pos hfree))⟩
  · intro a r hr
    obtain ⟨c, hc, hr'⟩ := receive_wrq (S := S) filename s a D
    have hsome := hr'.symm.trans hr
    split at hsome
    · rename_i hfree
      obtain rfl := Option.some.inj hsome
      obtain ⟨s', hloop, hs'⟩ := loop_sending (D := D) (n := 0)
        (s := { s with transferID := c.port, phase := .block, end_ := false, blockID := 1 })
        rfl rfl rfl (hc hfree).port_pos rfl rfl .start (Nat.zero_le _)
      refine eventually_acked rfl hloop ?_
      exact eventually_stored _ (Nat.zero_add _).symm hs' (hc hfree)
    · cases hsome

end NetworksLab.L5.TftpNet
