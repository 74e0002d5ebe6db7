import NetworksLab.Core.LTS
import NetworksLab.L3Protocol.TftpServer

/-!
# What a writing session takes, and what of it is stored (`udp/lib/Server.cpp`)

`TWritingClientBase::Handle` tells its request from the blocks by the counter:
behind the request it is 1. But it is 1 again behind block 65536, and then the
session goes on whatever the length of that block was. `Append` has no result,
so a block is acknowledged whether or not the file took it.

Results:
* `endsAtShortBlock_iff`: when a session ends at the short block.
* `acksStored_iff`: when every block that is acknowledged is in the file.
-/
namespace NetworksLab.L3.Tftp
open NetworksLab.L1.Packet NetworksLab.L2.Stream

/-! ## Where a session ends -/

/-- The results of `Handle` for packets in turn, with what becomes of each write. -/
def TWritingClientBase.results : TWritingClientBase → List (TPacket × Disk) → List Bool
  | _, [] => []
  | c, (p, disk) :: packets =>
    let h := c.handle disk p
    h.more :: h.client.results packets

/-- DATA packets in order, the first one with the number `k`. -/
def inOrder (disks : Nat → Disk) : Nat → List Bytes → List (TPacket × Disk)
  | _, [] => []
  | k, data :: payloads => (.data ⟨UInt16.ofNat k, data⟩, disks k) :: inOrder disks (k + 1) payloads

/-- Behind its request, any session answers `true` to a payload of 512 bytes
and `false` to another, as long as those before were of 512 bytes. -/
def EndsAtShortBlock (payloads : List Bytes) : Prop :=
  ∀ (sink : Sink) (request : TRequestPacket) (disk : Disk) (disks : Nat → Disk),
    let opened := TWritingClientBase.handle disk ⟨0, sink⟩ (.request request)
    opened.more = true ∧ ∀ i data, payloads[i]? = some data → (∀ d ∈ payloads.take i, d.length = 512) →
      (opened.client.results (inOrder disks 1 payloads))[i]? = some (decide (data.length = 512))

namespace TWritingClientBase

theorem handle_block {c : TWritingClientBase} {p : TPacket} {data : Bytes} (disk : Disk)
    (h : visitor.visit p = .got (c.blockID, data)) :
    c.handle disk p = ⟨⟨c.blockID + 1, c.sink.append data disk⟩, [.ack ⟨c.blockID⟩],
      c.blockID + 1 == 1 || data.length == 512⟩ := by
  simp [handle, h]

/-- Behind number `k`, the counter looks like that of a request exactly when it
has wrapped. -/
theorem counter_wraps_iff (k : Nat) : (UInt16.ofNat k + 1 == 1) = decide (k % 65536 = 0) := by
  have h1 : (1 : UInt16).toNat = 1 := rfl
  have hk : (UInt16.ofNat k).toNat = k % 65536 := UInt16.toNat_ofNat'
  rw [Bool.eq_iff_iff, beq_iff_eq, decide_eq_true_eq, ← UInt16.toNat_inj, UInt16.toNat_add, hk, h1]
  omega

/-- By induction on the payloads. -/
theorem results_inOrder (disks : Nat → Disk) : ∀ (payloads : List Bytes) (k : Nat) (sink : Sink),
    results ⟨UInt16.ofNat k, sink⟩ (inOrder disks k payloads) =
      payloads.mapIdx fun i data => decide ((k + i) % 65536 = 0) || data.length == 512
  | [], _, _ => rfl
  | data :: payloads, k, sink => by
    have hnext : UInt16.ofNat k + 1 = UInt16.ofNat (k + 1) := (UInt16.ofNat_add k 1).symm
    have hhead := handle_block (c := ⟨UInt16.ofNat k, sink⟩) (p := .data ⟨UInt16.ofNat k, data⟩)
      (disks k) rfl
    have hrest := results_inOrder disks payloads (k + 1) (sink.append data (disks k))
    rw [inOrder, results, hhead, List.mapIdx_cons]
    simp only [hnext, hrest, Nat.add_zero, Nat.add_assoc, Nat.add_comm 1, ← counter_wraps_iff]

theorem opened_client (sink : Sink) (request : TRequestPacket) (disk : Disk) :
    handle disk ⟨0, sink⟩ (.request request) =
      ⟨⟨UInt16.ofNat 1, sink.append [] disk⟩, [.ack ⟨0⟩], true⟩ :=
  handle_block disk rfl

end TWritingClientBase

open TWritingClientBase in
/-- **Where an upload ends.** For every sequence of payloads, of any length:
`Handle` returns `true` for the full blocks and `false` for the first short one
exactly when that is not block 65536, or a multiple of it. -/
theorem endsAtShortBlock_iff (payloads : List Bytes) : EndsAtShortBlock payloads ↔
    ∀ i data, payloads[i]? = some data → (∀ d ∈ payloads.take i, d.length = 512) → data.length ≠ 512 →
      (i + 1) % 65536 ≠ 0 := by
  have hresult (sink : Sink) (request : TRequestPacket) (disk : Disk) (disks : Nat → Disk) (i : Nat)
      (data : Bytes) (hi : payloads[i]? = some data) :
      ((handle disk ⟨0, sink⟩ (.request request)).client.results (inOrder disks 1 payloads))[i]? =
        some (decide ((i + 1) % 65536 = 0) || data.length == 512) := by
    rw [opened_client, results_inOrder, List.getElem?_mapIdx, hi, Nat.add_comm 1 i]
    rfl
  constructor
  · intro h i data hi hfull hne h0
    have hend := (h (.netAscii []) ⟨.write, [], .netascii⟩ .stores fun _ => .stores).2 i data hi hfull
    rw [hresult _ _ _ _ i data hi, Option.some.injEq, decide_eq_true h0, decide_eq_false hne] at hend
    cases hend
  · intro h sink request disk disks
    refine ⟨by rw [opened_client], fun i data hi hfull => ?_⟩
    rw [hresult sink request disk disks i data hi]
    by_cases hlen : data.length = 512
    · simp [hlen]
    · simp [hlen, h i data hi hfull hlen]

/-- 65535 full blocks and an empty one: the session waits for another. -/
theorem block65536_goes_on : ¬ ∀ payloads : List Bytes, (∀ d ∈ payloads, d.length ≤ 512) →
    EndsAtShortBlock payloads := by
  intro h
  have hfull : ∀ d ∈ List.replicate 65535 (List.replicate 512 (0 : UInt8)), d.length = 512 := fun d hd => by
    rw [List.eq_of_mem_replicate hd, List.length_replicate]
  have hends := h (List.replicate 65535 (List.replicate 512 0) ++ [[]]) fun d hd => by
    rcases List.mem_append.mp hd with hd | hd
    · exact Nat.le_of_eq (hfull d hd)
    · rw [List.mem_singleton.mp hd]
      exact Nat.zero_le _
  have hlast : (List.replicate 65535 (List.replicate 512 (0 : UInt8)) ++ [[]])[65535]? = some [] := by
    rw [List.getElem?_append_right (Nat.le_of_eq List.length_replicate), List.length_replicate]
    rfl
  have hend := (hends (.netAscii []) ⟨.write, [], .netascii⟩ .stores fun _ => .stores).2 65535 [] hlast
    fun d hd => by
      rw [List.take_left' List.length_replicate] at hd
      exact hfull d hd
  rw [TWritingClientBase.opened_client, TWritingClientBase.results_inOrder, List.getElem?_mapIdx, hlast] at hend
  exact absurd hend (by decide)

/-! ## What is stored -/

/-- An octet session that writes a file, with a record of its run: the payloads
it has taken, and whether the file was opened and every write to it stored. -/
structure Upload where
  client : IClient
  accepted : List Bytes
  intact : Bool

/-- The payload that a session takes from a datagram. -/
def due (c : IClient) (packet : TReceiveResult) : Option Bytes :=
  match c.role, packet.packet with
  | .writing w, .ok p =>
    match TWritingClientBase.visitor.visit p with
    | .got (blockID, data) => if w.blockID = blockID then some data else none
    | _ => none
  | _, _ => none

/-- What is in the file of an octet session. -/
def IClient.stored (c : IClient) : Bytes :=
  match c.role with
  | .writing ⟨_, .octet out⟩ => out.written
  | _ => []

/-- One datagram, and what becomes of its write. There is no state behind one
that ends the session. -/
def Upload.step (files : Files) (u : Upload) (x : TReceiveResult × Disk) : Option Upload :=
  let r := u.client.handlePacket files x.2 x.1
  if r.2.2 then
    match due u.client x.1 with
    | some data => some ⟨r.1, u.accepted ++ [data], u.intact && decide (x.2 = .stores)⟩
    | none => some { u with client := r.1 }
  else none

/-- A payload that is taken is acknowledged with it and all before it in the
file, or an error is sent instead. -/
def AcksStored (files : Files) (u : Upload) (x : TReceiveResult × Disk) : Prop :=
  let r := u.client.handlePacket files x.2 x.1
  ∀ data, due u.client x.1 = some data →
    (∃ id, r.2.1 = [(u.client.address, .ack ⟨id⟩)] ∧ r.1.stored = (u.accepted ++ [data]).flatten) ∨
      ∃ e, r.2.1 = [(u.client.address, .error e)]

/-- A payload that is taken is empty, or the file was opened, every write before
was stored, and this one is. -/
def Lands (u : Upload) (x : TReceiveResult × Disk) : Prop :=
  ∀ data, due u.client x.1 = some data → data = [] ∨ (u.intact = true ∧ x.2.Keeps data)

/-- The session that the request of an upload opens. -/
def Upload.opened (io : Io) (port : UInt16) (src : Endpoint) : Upload where
  client := ⟨src, port, .writing ⟨1, .octet ((OStream.ofFile io.opened).write [] io.disk)⟩⟩
  accepted := []
  intact := io.opened && decide (io.disk = .stores)

theorem acceptClient_upload (files : Files) (io : Io) (port : UInt16) (src : Endpoint) (filename : Bytes) :
    acceptClient files io port ⟨src, .ok (.request ⟨.write, filename, .octet⟩)⟩ =
      .opened (Upload.opened io port src).client [(src, .ack ⟨0⟩)] true := rfl

variable {files : Files}

/-- What `due` sees is appended and acknowledged. -/
theorem handlePacket_due {c : IClient} {w : TWritingClientBase} {packet : TReceiveResult} {data : Bytes}
    (hrole : c.role = .writing w) (h : due c packet = some data) (disk : Disk) :
    c.handlePacket files disk packet =
      ({ c with role := .writing ⟨w.blockID + 1, w.sink.append data disk⟩ },
        [(c.address, .ack ⟨w.blockID⟩)], w.blockID + 1 == 1 || data.length == 512) := by
  obtain ⟨src, p⟩ := packet
  cases p with
  | error e => simp only [due, hrole, reduceCtorEq] at h
  | ok p =>
    simp only [due, hrole] at h
    split at h
    · rename_i id d hvisit
      split at h
      · rename_i hid
        cases h
        rw [IClient.handlePacket_writing hrole, TWritingClientBase.handle_block disk (hid ▸ hvisit)]
        rfl
      · cases h
    · cases h

/-- Nothing else changes a session. -/
theorem handlePacket_not_due {c : IClient} {w : TWritingClientBase} {packet : TReceiveResult}
    (hrole : c.role = .writing w) (h : due c packet = none) (disk : Disk) :
    (c.handlePacket files disk packet).1 = c := by
  obtain ⟨src, p⟩ := packet
  cases p with
  | error e => rfl
  | ok p =>
    rw [IClient.handlePacket_writing hrole]
    have ho := TWritingClientBase.handle_outcome disk w p
    generalize TWritingClientBase.handle _ _ _ = r at ho
    cases ho with
    | ended hc => rw [hc, ← hrole]
    | stale => rw [← hrole]
    | block hvisit => simp only [due, hrole, hvisit, if_true, reduceCtorEq] at h

/-- All that the session has taken is in the file. -/
def Upload.Whole (u : Upload) : Prop :=
  ∃ id out, u.client.role = .writing ⟨id, .octet out⟩ ∧ out.given = u.accepted.flatten ∧
    out.written = out.given ∧ out.good = u.intact

theorem Upload.opened_whole (io : Io) (port : UInt16) (src : Endpoint) : (Upload.opened io port src).Whole := by
  have hempty : (OStream.ofFile io.opened).written = (OStream.ofFile io.opened).given := rfl
  refine ⟨1, _, rfl, by rw [OStream.given_write]; rfl, ?_, by rw [OStream.good_write]; rfl⟩
  rw [OStream.given_write]
  exact (OStream.written_write_iff hempty [] io.disk).mpr (.inl rfl)

/-- Step lemma: with all that came before in the file, the two conditions are
the same. -/
theorem acksStored_iff_lands {u : Upload} {x : TReceiveResult × Disk} (hu : u.Whole) :
    AcksStored files u x ↔ Lands u x := by
  obtain ⟨id, out, hrole, hgiven, hwritten, hgood⟩ := hu
  refine forall_congr' fun data => imp_congr_right fun hdue => ?_
  rw [handlePacket_due hrole hdue]
  have hflat : (u.accepted ++ [data]).flatten = out.given ++ data := by
    rw [List.flatten_concat, hgiven]
  have hwrite := OStream.written_write_iff hwritten data x.2
  rw [hgood] at hwrite
  rw [hflat, ← hwrite]
  constructor
  · rintro (⟨_, -, h⟩ | ⟨e, he⟩)
    · exact h
    · cases he
  · intro h
    exact .inl ⟨id, rfl, h⟩

theorem Upload.step_whole {u u' : Upload} {x : TReceiveResult × Disk} (hu : u.Whole) (hl : Lands u x)
    (h : u.step files x = some u') : u'.Whole := by
  obtain ⟨id, out, hrole, hgiven, hwritten, hgood⟩ := hu
  unfold step at h
  dsimp only at h
  split at h
  · split at h
    · rename_i data hdue
      rw [handlePacket_due hrole hdue] at h
      cases h
      refine ⟨id + 1, out.write data x.2, rfl, ?_, ?_, ?_⟩
      · rw [OStream.given_write, hgiven, List.flatten_concat]
      · rw [OStream.given_write, OStream.written_write_iff hwritten, hgood]
        exact hl data hdue
      · rw [OStream.good_write, hgood]
    · rename_i hdue
      cases h
      rw [handlePacket_not_due hrole hdue]
      exact ⟨id, out, hrole, hgiven, hwritten, hgood⟩
  · cases h

/-- **When an acknowledged block is stored.** The request of an octet upload
opens a session whether or not its file opens. In every run of it: each block is
acknowledged with all blocks so far in the file, or answered with an error,
exactly when each is empty or written in full, to a file that was opened and has
failed no write before. -/
theorem acksStored_iff (files : Files) (io : Io) (port : UInt16) (src : Endpoint) (filename : Bytes) :
    acceptClient files io port ⟨src, .ok (.request ⟨.write, filename, .octet⟩)⟩ =
      .opened (Upload.opened io port src).client [(src, .ack ⟨0⟩)] true ∧
    ∀ run, LTS.Every (Upload.step files) (AcksStored files) (Upload.opened io port src) run ↔
      LTS.Every (Upload.step files) Lands (Upload.opened io port src) run :=
  ⟨acceptClient_upload files io port src filename, fun _ =>
    LTS.every_congr acksStored_iff_lands Upload.step_whole (Upload.opened_whole io port src)⟩

/-- A file that could not be opened: the block is acknowledged. -/
theorem unopened_acknowledged : ¬ ∀ files io port src run,
    LTS.Every (Upload.step files) (AcksStored files) (Upload.opened io port src) run := by
  intro h
  obtain ⟨hack, -⟩ := h (fun _ => none) ⟨false, .stores⟩ 1024 ⟨0x7F000001, 5000⟩
    [(⟨⟨0x7F000001, 5000⟩, .ok (.data ⟨1, ascii "hi"⟩)⟩, .stores)]
  rcases hack (ascii "hi") rfl with ⟨id, -, hstored⟩ | ⟨e, he⟩
  · exact absurd hstored (by decide)
  · cases he

end NetworksLab.L3.Tftp
