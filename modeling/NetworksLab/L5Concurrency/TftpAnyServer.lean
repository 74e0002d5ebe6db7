import NetworksLab.Core.Reactor
import NetworksLab.L5Concurrency.TftpNet

/-!
# The client against any server (`udp/lib/Client.cpp`)

What `TClient::Read` and `TClient::Write` keep to whatever comes: datagrams of any
bytes, from any ports, in any number and order, or nothing in time.

Results:
* `read_any_server`: the output is the data of consecutive blocks from one port, each
  acknowledged once, up to the first short one.
* `write_any_server`: the blocks of the data go out once each and in order, each behind
  the acknowledgement of the one before it; `Write` returns when all of them have been
  acknowledged.
-/
namespace NetworksLab.L5.TftpNet
open NetworksLab.L1.Packet NetworksLab.L2.Stream NetworksLab.L3.Tftp

/-- What a `ReceivePacket` meets. -/
inductive Meeting where
  | datagram (src : Endpoint) (bytes : Bytes)
  /-- nothing comes in time -/
  | nothing
  deriving DecidableEq, Repr

/-- A transfer on its own, with what it sends to ports of the server's host. -/
def Transfer.reactor {σ : Type} (T : Transfer σ) : Reactor σ Meeting (UInt16 × TPacket) where
  react s
    | .datagram src bytes => T.receive s (TTransport.receive src bytes)
    | .nothing => (T.timeout s, [])
  running s := T.status s = .running

/-- The packet that was parsed, with the port it came from. -/
def Meeting.packet : Meeting → Option (UInt16 × TPacket)
  | .datagram src bytes =>
    match parsePacket (bytes.take 520) with
    | .ok p => some (src.port, p)
    | .error _ => none
  | .nothing => none

/-! ## Download -/

/-- The blocks that `Read` has accepted. -/
structure Read.Ledger (port : UInt16) (filename : Bytes) (ms : List Meeting) (r : Read × SendsTo)
    (server : UInt16) (ds : List TDataPacket) : Prop where
  /-- they came from one port, in this order -/
  heard : Heard Meeting.packet ms (ds.map fun d => (server, .data d))
  numbers : ds.map (·.blockID) = (List.range ds.length).map fun n => UInt16.ofNat (n + 1)
  bound : ds.length ≤ 65535
  out : r.1.out = ds.flatMap (·.data)
  /-- the request, and an acknowledgement for each -/
  sent : dealt r.2 = (port, .request ⟨.read, filename, .octet⟩) :: ds.map fun d => (server, .ack ⟨d.blockID⟩)
  /-- `Read` returns at the first short one -/
  short : ∀ d ∈ ds, d.data.length < 512 → r.1.status = .returned ∧ ds.getLast? = some d
  returned : r.1.status = .returned → ∃ d, ds.getLast? = some d ∧ d.data.length < 512

/-- A ledger, and the state that goes with it. -/
structure Read.Kept (port : UInt16) (filename : Bytes) (ms : List Meeting) (r : Read × SendsTo)
    (server : UInt16) (ds : List TDataPacket) : Prop extends Read.Ledger port filename ms r server ds where
  due : r.1.blockID.toNat = ds.length + 1
  known : ds = [] ∨ (r.1.serverPort = server ∧ server ≠ 0)

theorem receive_serverPort (s : Read) (src : Endpoint) (p : TPacket) :
    (s.receive ⟨src, .ok p⟩).1.serverPort = if s.serverPort = 0 then src.port else s.serverPort := by
  unfold Read.receive
  dsimp only [TReceiveResult.transferID]
  split
  · rename_i h
    rw [if_neg h.1]
    exact sendTo_state Read.serverPort (by rfl) _ _
  · rename_i h
    have hport : src.port = if s.serverPort = 0 then src.port else s.serverPort := by
      split
      · rfl
      · rename_i h0
        by_contra hne
        exact h ⟨h0, fun he => hne he.symm⟩
    split
    · exact hport
    · exact (sendTo_state Read.serverPort (by rfl) _ _).trans hport
    · split
      · exact hport
      · exact (Read.accept_serverPort _ _).trans hport

section
variable {port : UInt16} {filename : Bytes} {ms : List Meeting} {r : Read × SendsTo} {server : UInt16}
  {ds : List TDataPacket}

/-- Nothing is accepted. -/
theorem Read.Kept.idle (h : Read.Kept port filename ms r server ds) (hrun : r.1.status = .running) (m : Meeting)
    {s : Read} {sends : SendsTo} (hout : s.out = r.1.out) (hid : s.blockID = r.1.blockID)
    (hport : r.1.serverPort ≠ 0 → s.serverPort = r.1.serverPort)
    (hstatus : s.status = .running ∨ ∃ message, s.status = .threw message) (hsends : ErrorsOnly sends) :
    Read.Kept port filename (ms ++ [m]) (s, r.2 ++ sends) server ds := by
  have hnot : s.status ≠ .returned := by
    rcases hstatus with hs | ⟨message, hs⟩ <;> rw [hs] <;> exact Status.noConfusion
  refine ⟨⟨?_, h.numbers, h.bound, hout.trans h.out, ?_, fun d hd hlt => ?_, fun hr => absurd hr hnot⟩,
    hid ▸ h.due, h.known.imp id fun hk => ⟨?_, hk.2⟩⟩
  · exact h.heard.append _
  · rw [dealt_append, dealt_errors hsends, List.append_nil, h.sent]
  · have := (h.short d hd hlt).1
    rw [hrun] at this
    cases this
  · exact (hport (hk.1 ▸ hk.2)).trans hk.1

/-- The block that is due is accepted. -/
theorem Read.Kept.accept (h : Read.Kept port filename ms r server ds) (hrun : r.1.status = .running) {m : Meeting}
    {p : UInt16} {d : TDataPacket} (hm : m.packet = some (p, .data d)) (hp : p ≠ 0)
    (hport : r.1.serverPort = 0 ∨ r.1.serverPort = p) (hid : d.blockID.toUInt64 = r.1.blockID) :
    Read.Kept port filename (ms ++ [m]) ((Read.accept { r.1 with serverPort := p } d).1,
      r.2 ++ (Read.accept { r.1 with serverPort := p } d).2) p (ds ++ [d]) := by
  have hserver : ds = [] ∨ server = p := by
    refine h.known.imp id fun hk => ?_
    rcases hport with h0 | he
    · exact absurd (hk.1.symm.trans h0) hk.2
    · exact hk.1.symm.trans he
  have hdue : d.blockID.toNat = ds.length + 1 := by
    rw [← h.due, ← hid, UInt16.toNat_toUInt64]
  have hlt := d.blockID.toNat_lt
  have hnumber : d.blockID = UInt16.ofNat (ds.length + 1) := by
    rw [← hdue, UInt16.ofNat_toNat]
  have hfull : ∀ x ∈ ds, ¬ x.data.length < 512 := fun x hx hlt => by
    have := (h.short x hx hlt).1
    rw [hrun] at this
    cases this
  have hlast : (ds ++ [d]).getLast? = some d := List.getLast?_concat ..
  rw [Read.accept_of_ne (s := { r.1 with serverPort := p }) hp]
  refine ⟨⟨?_, ?_, ?_, ?_, ?_, fun x hx hshort => ?_, fun hret => ⟨d, hlast, ?_⟩⟩, ?_, .inr ⟨rfl, hp⟩⟩
  · have hheard : Heard Meeting.packet ms (ds.map fun d => (p, .data d)) := by
      rcases hserver with rfl | rfl
      · exact .nil
      · exact h.heard
    rw [List.map_append]
    exact hheard.next hm
  · rw [List.map_append, h.numbers, List.length_append, List.length_singleton, List.range_succ, List.map_append,
      List.map_singleton, List.map_singleton, hnumber]
  · rw [List.length_append, List.length_singleton]
    omega
  · simp only [h.out, List.flatMap_append, List.flatMap_singleton]
  · have hack : r.1.blockID.toUInt16 = d.blockID := by rw [← hid, UInt16.toUInt16_toUInt64]
    rw [dealt_append, h.sent, List.map_append, List.cons_append]
    simp only [hack]
    rcases hserver with rfl | rfl <;> rfl
  · rcases List.mem_append.mp hx with hx | hx
    · exact absurd hshort (hfull x hx)
    · obtain rfl := List.mem_singleton.mp hx
      exact ⟨by simp [hshort], hlast⟩
  · by_contra hge
    simp [hge] at hret
  · have h1 : (1 : UInt64).toNat = 1 := rfl
    simp only [UInt64.toNat_add, h.due, h1, List.length_append, List.length_singleton]
    omega

/-- Step lemma. -/
theorem Read.Kept.next (h : Read.Kept port filename ms r server ds) (hrun : r.1.status = .running) {m : Meeting}
    (hm : ∀ src bytes, m = .datagram src bytes → src.port ≠ 0) :
    ∃ server ds, Read.Kept port filename (ms ++ [m])
      ((readTransfer.reactor.react r.1 m).1, r.2 ++ (readTransfer.reactor.react r.1 m).2) server ds := by
  cases m with
  | nothing => exact ⟨_, _, h.idle hrun _ rfl rfl (fun _ => rfl) (.inr ⟨_, rfl⟩) errorsOnly_nil⟩
  | datagram src bytes =>
    simp only [Transfer.reactor, readTransfer, TTransport.receive]
    cases hp : parsePacket (bytes.take 520) with
    | error e =>
      obtain ⟨⟨message, hthrew⟩, hsends⟩ := r.1.receive_error src e
      refine ⟨_, _, h.idle hrun _ ?_ ?_ (fun _ => ?_) (.inr ⟨message, ?_⟩) hsends⟩
      all_goals rw [hthrew]; rfl
    | ok p =>
      have hserver := receive_serverPort r.1 src p
      rcases r.1.receive_cases src p with hi | ⟨d, rfl, hid, heq⟩
      · refine ⟨_, _, h.idle hrun _ hi.out hi.blockID (fun h0 => by rw [hserver, if_neg h0]) ?_ hi.sends⟩
        exact hi.status.imp (fun hs => hs.trans hrun) id
      · rw [heq] at hserver ⊢
        refine ⟨_, _, h.accept hrun (by simp [Meeting.packet, hp]) (hm src bytes rfl) ?_ hid⟩
        by_cases h0 : r.1.serverPort = 0
        · exact .inl h0
        · exact .inr (by rw [if_neg h0] at hserver; exact hserver.symm.trans (Read.accept_serverPort _ _))

/-- A transfer that is over. -/
theorem Read.Kept.over (h : Read.Kept port filename ms r server ds) (m : Meeting) :
    Read.Kept port filename (ms ++ [m]) r server ds :=
  ⟨⟨h.heard.append _, h.numbers, h.bound, h.out, h.sent, h.short, h.returned⟩, h.due, h.known⟩

theorem Read.start_kept : Read.Kept port filename [] (Read.start port filename) 0 [] where
  heard := .nil
  numbers := rfl
  bound := Nat.zero_le _
  out := rfl
  sent := rfl
  short _ h := absurd h List.not_mem_nil
  returned h := Status.noConfusion h
  due := rfl
  known := .inl rfl

/-- Run lemma. -/
theorem Read.kept_run (port : UInt16) (filename : Bytes) (ms : List Meeting)
    (hms : ∀ src bytes, .datagram src bytes ∈ ms → src.port ≠ 0) :
    ∃ server ds, Read.Kept port filename ms (readTransfer.reactor.run (Read.start port filename) ms) server ds := by
  have hrun := readTransfer.reactor.run_history (r := Read.start port filename)
    (P := fun ms r => (∀ src bytes, Meeting.datagram src bytes ∈ ms → src.port ≠ 0) →
      ∃ server ds, Read.Kept port filename ms r server ds)
    (fun _ => ⟨_, _, Read.start_kept⟩)
    (fun _ m _ _ ih hms => by
      obtain ⟨server, ds, h⟩ := ih fun src bytes hm => hms src bytes (List.mem_append_left _ hm)
      exact ⟨server, ds, h.over m⟩)
    (fun _ m _ hrun ih hms => by
      obtain ⟨server, ds, h⟩ := ih fun src bytes hm => hms src bytes (List.mem_append_left _ hm)
      exact h.next (of_decide_eq_true hrun) fun src bytes hm =>
        hms src bytes (hm ▸ List.mem_append_right _ (List.mem_singleton_self _)))
    ms
  exact hrun hms

/-- **A download from any server.** Whatever comes, from ports that there are: the
output is the data of blocks 1, 2, 3 and so on from one port, each acknowledged there
once. `Read` returns exactly behind a short block, and there is no block after it. -/
theorem read_any_server (port : UInt16) (filename : Bytes) (ms : List Meeting)
    (hms : ∀ src bytes, .datagram src bytes ∈ ms → src.port ≠ 0) :
    ∃ server ds, Read.Ledger port filename ms (readTransfer.reactor.run (Read.start port filename) ms) server ds := by
  obtain ⟨server, ds, h⟩ := Read.kept_run port filename ms hms
  exact ⟨server, ds, h.toLedger⟩

/-- A block from one port, a stray one from another, and the last one. -/
def strays : List Meeting :=
  [.datagram ⟨0x7f000001, 2000⟩ (TDataPacket.toBytes ⟨1, List.replicate 512 0⟩),
   .datagram ⟨0x7f000001, 3000⟩ (TDataPacket.toBytes ⟨2, ascii "no"⟩),
   .datagram ⟨0x7f000001, 2000⟩ (TDataPacket.toBytes ⟨2, ascii "hi"⟩)]

theorem read_any_server_strays : ∃ server ds, Read.Ledger 69 (ascii "f") strays
    (readTransfer.reactor.run (Read.start 69 (ascii "f")) strays) server ds := by
  refine read_any_server 69 (ascii "f") strays fun src bytes h => ?_
  simp only [strays, List.mem_cons, Meeting.datagram.injEq, List.not_mem_nil, or_false] at h
  rcases h with ⟨rfl, -⟩ | ⟨rfl, -⟩ | ⟨rfl, -⟩ <;> decide

end

/-! ## Upload -/

/-- The first `n` acknowledgements. -/
def acks (n : Nat) : List TPacket := (List.range n).map fun k => .ack ⟨UInt16.ofNat k⟩

/-- The first `n` blocks of the data, as they are sent. -/
def dataTo (server : UInt16) (D : Bytes) (n : Nat) : SendsTo :=
  (List.range n).map fun k => (server, .data ⟨UInt16.ofNat (k + 1), block 512 D k⟩)

theorem acks_succ (n : Nat) : acks (n + 1) = acks n ++ [.ack ⟨UInt16.ofNat n⟩] := by
  simp [acks, List.range_succ]

theorem dataTo_succ (server : UInt16) (D : Bytes) (n : Nat) :
    dataTo server D (n + 1) = dataTo server D n ++ [(server, .data ⟨UInt16.ofNat (n + 1), block 512 D n⟩)] := by
  simp [dataTo, List.range_succ]

/-- The first `n` acknowledgements have come, one behind the other, the first of them
from this port. -/
def AcksHeard (server : UInt16) (n : Nat) (ms : List Meeting) : Prop :=
  ∃ ps, Heard Meeting.packet ms ps ∧ ps.map (·.2) = acks n ∧ ∀ p ∈ ps.head?, p.1 = server

/-- The `n` blocks that `Write` has sent. -/
structure Write.Ledger (port : UInt16) (filename D : Bytes) (ms : List Meeting) (r : Write × SendsTo)
    (server : UInt16) (n : Nat) : Prop where
  /-- the request, and each block once and in order -/
  sent : dealt r.2 = (port, .request ⟨.write, filename, .octet⟩) :: dataTo server D n
  /-- block 1 goes out behind the answer to the request, each other one behind the
  acknowledgement of the one before it -/
  heard : AcksHeard server n ms
  bound : n ≤ D.length / 512 + 1
  /-- `Write` returns when all blocks have been sent and acknowledged -/
  returned : r.1.status = .returned → n = D.length / 512 + 1 ∧ AcksHeard server (n + 1) ms

/-- `Write` in its loop with `n` blocks sent. -/
structure Write.Sending (D : Bytes) (server : UInt16) (n : Nat) (s : Write) : Prop where
  phase : s.phase = .block
  transferID : s.transferID = server
  blockID : s.blockID = UInt16.ofNat n
  data : IStream.At 512 D n s.data
  end_ : s.end_ = s.data.eofbit

/-- A ledger, and the state that goes with it. -/
structure Write.Kept (port : UInt16) (filename D : Bytes) (ms : List Meeting) (r : Write × SendsTo)
    (server : UInt16) (n : Nat) : Prop extends Write.Ledger port filename D ms r server n where
  state : r.1.status = .running →
    (r.1.phase = .request ∧ n = 0 ∧ r.1.data = .ofBytes D) ∨ (0 < n ∧ Write.Sending D server n r.1)

section
variable {port server : UInt16} {filename D : Bytes} {ms : List Meeting} {r : Write × SendsTo} {n : Nat}

theorem AcksHeard.none : AcksHeard server 0 ms := by
  refine ⟨[], .nil, rfl, fun p hp => ?_⟩
  cases hp

theorem AcksHeard.append (h : AcksHeard server n ms) (ms' : List Meeting) : AcksHeard server n (ms ++ ms') := by
  obtain ⟨ps, hheard, hps⟩ := h
  exact ⟨ps, hheard.append ms', hps⟩

theorem AcksHeard.next (h : AcksHeard server n ms) {m : Meeting} {p : UInt16}
    (hm : m.packet = some (p, .ack ⟨UInt16.ofNat n⟩)) (hp : n = 0 → p = server) :
    AcksHeard server (n + 1) (ms ++ [m]) := by
  obtain ⟨ps, hheard, hps, hhead⟩ := h
  refine ⟨ps ++ [(p, .ack ⟨UInt16.ofNat n⟩)], hheard.next hm, ?_, fun q hq => ?_⟩
  · rw [List.map_append, hps, acks_succ]
    rfl
  · cases ps with
    | cons x ps => exact hhead q hq
    | nil =>
      have hn : n = 0 := by simpa [acks] using congrArg List.length hps.symm
      obtain rfl := Option.some.inj hq
      exact hp hn

/-- Behind an acknowledgement: the next block, or the end. -/
theorem Write.Sending.loop (s : Write) (id : UInt16) (h : Write.Sending D server n { s with blockID := id })
    (hrun : s.status = .running) {sends : SendsTo}
    (hsent : dealt sends = (port, .request ⟨.write, filename, .octet⟩) :: dataTo server D n)
    (hheard : AcksHeard server n ms) (hheard' : AcksHeard server (n + 1) ms) (hbound : n ≤ D.length / 512 + 1) :
    ∃ n, Write.Kept port filename D ms
      ((Write.loop { s with blockID := id + 1 }).1, sends ++ (Write.loop { s with blockID := id + 1 }).2) server n := by
  have hend : s.end_ = s.data.eofbit := h.end_
  have hat : IStream.At 512 D n s.data := h.data
  by_cases he : s.end_ = true
  · have hlt := (lt_mul_iff_div_lt (by decide)).mp (hat.eofbit.mp (hend ▸ he))
    simp only [Write.loop, if_pos he, List.append_nil]
    exact ⟨n, ⟨hsent, hheard, hbound, fun _ => ⟨by omega, hheard'⟩⟩, fun hr => Status.noConfusion hr⟩
  · have hmore : 512 * n ≤ D.length := by
      by_contra hlt
      exact he (hend.trans (hat.eofbit.mpr (Nat.not_le.mp hlt)))
    obtain ⟨hread, hat'⟩ := hat.read hmore
    have hid : id + 1 = UInt16.ofNat (n + 1) := by
      rw [show id = UInt16.ofNat n from h.blockID, UInt16.ofNat_add]
      rfl
    have hserver : s.transferID = server := h.transferID
    simp only [Write.loop, if_neg he, hread, hid, hserver]
    by_cases h0 : server = 0
    · -- the first answer came from port 0, and `Write` throws
      rw [sendTo, if_pos h0, List.append_nil]
      exact ⟨n, ⟨hsent, hheard, hbound, fun hr => Status.noConfusion hr⟩, fun hr => Status.noConfusion hr⟩
    rw [sendTo_of_ne h0]
    refine ⟨n + 1, ⟨?_, hheard', by omega, fun hr => ?_⟩, fun _ => .inr ⟨Nat.succ_pos n, h.phase, rfl, rfl, hat', rfl⟩⟩
    · rw [dealt_append, hsent, dataTo_succ, List.cons_append]
      rfl
    · rw [show s.status = .returned from hr] at hrun
      cases hrun

/-- An exception, or nothing. -/
theorem Write.Kept.idle (h : Write.Kept port filename D ms r server n) (m : Meeting) {s : Write} {sends : SendsTo}
    (hs : s = r.1 ∨ ∃ message, s.status = .threw message) (hsends : ErrorsOnly sends) :
    Write.Kept port filename D (ms ++ [m]) (s, r.2 ++ sends) server n := by
  have hsent : dealt (r.2 ++ sends) = dealt r.2 := by
    rw [dealt_append, dealt_errors hsends, List.append_nil]
  rcases hs with rfl | ⟨message, hs⟩
  · refine ⟨⟨hsent.trans h.sent, h.heard.append _, h.bound, fun hr => ?_⟩, h.state⟩
    exact (h.returned hr).imp id fun hheard => hheard.append _
  · refine ⟨⟨hsent.trans h.sent, h.heard.append _, h.bound, fun hr => ?_⟩, fun hr => ?_⟩
    all_goals
      rw [hs] at hr
      cases hr

/-- Step lemma. -/
theorem Write.Kept.next (h : Write.Kept port filename D ms r server n) (hrun : r.1.status = .running) (m : Meeting) :
    ∃ server n, Write.Kept port filename D (ms ++ [m])
      ((writeTransfer.reactor.react r.1 m).1, r.2 ++ (writeTransfer.reactor.react r.1 m).2) server n := by
  cases m with
  | nothing => exact ⟨server, n, h.idle _ (.inr ⟨_, rfl⟩) errorsOnly_nil⟩
  | datagram src bytes =>
    simp only [Transfer.reactor, writeTransfer, TTransport.receive]
    cases hp : parsePacket (bytes.take 520) with
    | error e =>
      obtain ⟨⟨message, hthrew⟩, hsends⟩ := r.1.receive_error src e
      exact ⟨server, n, h.idle _ (.inr ⟨message, congrArg Write.status hthrew⟩) hsends⟩
    | ok p =>
      have hr := r.1.receive_cases src p
      generalize r.1.receive ⟨src, .ok p⟩ = r' at hr ⊢
      cases hr with
      | stale => exact ⟨server, n, h.idle _ (.inl rfl) errorsOnly_nil⟩
      | threw hthrew hsends => exact ⟨server, n, h.idle _ (.inr ⟨_, hthrew⟩) hsends⟩
      | requestAck hphase hack =>
        obtain ⟨-, rfl, hdata⟩ := (h.state hrun).resolve_right fun hs => by
          rw [hs.2.phase] at hphase
          cases hphase
        have hm : (Meeting.datagram src bytes).packet = some (src.port, .ack ⟨UInt16.ofNat 0⟩) := by
          simp [Meeting.packet, hp, hack]
        have hstart : Write.Sending D src.port 0
            { r.1 with transferID := src.port, phase := .block, end_ := false, blockID := 0 } :=
          ⟨rfl, rfl, rfl, hdata ▸ .start, hdata ▸ rfl⟩
        have hsent : dealt r.2 = (port, .request ⟨.write, filename, .octet⟩) :: dataTo src.port D 0 := h.sent
        exact ⟨src.port, hstart.loop { r.1 with transferID := src.port, phase := .block, end_ := false } 0 hrun
          hsent .none (AcksHeard.next .none hm fun _ => rfl) h.bound⟩
      | blockAck hphase hack =>
        obtain ⟨hpos, hsending⟩ := (h.state hrun).resolve_left fun hq => by
          rw [hphase] at hq
          cases hq.1
        have hm : (Meeting.datagram src bytes).packet = some (src.port, .ack ⟨UInt16.ofNat n⟩) := by
          simp [Meeting.packet, hp, hack, hsending.blockID]
        exact ⟨server, hsending.loop r.1 r.1.blockID hrun h.sent (h.heard.append _)
          (h.heard.next hm fun h0 => absurd h0 (Nat.ne_of_gt hpos)) h.bound⟩

theorem Write.Kept.over (h : Write.Kept port filename D ms r server n) (m : Meeting) :
    Write.Kept port filename D (ms ++ [m]) r server n :=
  ⟨⟨h.sent, h.heard.append _, h.bound, fun hr => (h.returned hr).imp id fun hheard => hheard.append _⟩, h.state⟩

theorem Write.start_kept :
    Write.Kept port filename D [] (Write.start port filename (.ofBytes D)) server 0 where
  sent := rfl
  heard := .none
  bound := Nat.zero_le _
  returned h := Status.noConfusion h
  state _ := .inl ⟨rfl, rfl, rfl⟩

end

/-- **An upload to any server.** Whatever comes: the blocks of the data are sent to the
port of the first answer, each once and in order, block `k + 1` behind an acknowledgement
of block `k`; when `Write` returns, all of them have been, and the last one is
acknowledged. (None can be sent if that port is 0: `Write` throws.) -/
theorem write_any_server (port : UInt16) (filename D : Bytes) (ms : List Meeting) :
    ∃ server n, Write.Ledger port filename D ms
      (writeTransfer.reactor.run (Write.start port filename (.ofBytes D)) ms) server n := by
  have hrun := writeTransfer.reactor.run_history (r := Write.start port filename (.ofBytes D))
    (P := fun ms r => ∃ server n, Write.Kept port filename D ms r server n)
    ⟨0, 0, Write.start_kept⟩
    (fun _ m _ _ ih => by
      obtain ⟨server, n, h⟩ := ih
      exact ⟨server, n, h.over m⟩)
    (fun _ m _ hrun ih => by
      obtain ⟨server, n, h⟩ := ih
      exact h.next (of_decide_eq_true hrun) m) ms
  obtain ⟨server, n, h⟩ := hrun
  exact ⟨server, n, h.toLedger⟩

end NetworksLab.L5.TftpNet
