import NetworksLab.L5Concurrency.TftpNet

/-!
# Octet uploads (`TClient::Write` and `TOctetWritingClient`)

Both sides count blocks in a `uint16_t`, and `Write` checks no port. With at
most 65535 blocks no number wraps, so an acknowledgement names a block and a
block names its place: a DATA packet in flight is one block of `D` under its
number, and an ACK in flight is for a block that the session has taken.

Results:
* `upload_safe`: over any network, what the session has appended to its file is
  the first blocks of `D`, and all of `D` when `Write` returns. It is what the
  file holds as long as no write to it has failed.
-/
namespace NetworksLab.L5.TftpNet
open NetworksLab.L1.Packet NetworksLab.L2.Stream NetworksLab.L3.Tftp

/-- There is one session: the request is not delivered again. -/
def OneSession (S : Setup) (p : Parties Write) (d : Datagram) (_ : Arrival) : Prop :=
  d.dst = S.main → p.sessions = []

instance (S : Setup) (p : Parties Write) (d : Datagram) (a : Arrival) :
    Decidable (OneSession S p d a) :=
  inferInstanceAs (Decidable (_ → _))

/-- All runs of `Write` for `filename` on a good stream on `D`, and one session. -/
def upload (S : Setup) (filename D : Bytes) : LTS (World (Parties Write) Datagram)
    (NetLabel Arrival Timeout) :=
  ((process S writeTransfer).guard (OneSession S)).lossy
    (start S (Write.start S.port filename (.ofBytes D)))

/-! ## The invariant -/

/-- The blocks a session has taken: its counter also counts the request. -/
def taken (c : TWritingClientBase) : Nat := (c.blockID - 1).toNat

/-- The number of blocks that `D` is split into; the last one is short. -/
def blockCount (D : Bytes) : Nat := D.length / 512 + 1

/-- A session goes on until it has taken the last block. -/
structure Stores (D : Bytes) (s : Session) (c : TWritingClientBase) : Prop where
  role : s.client.role = .writing c
  le : taken c ≤ blockCount D
  lt : s.alive = true → taken c < blockCount D
  sink : ∃ out, c.sink = .octet out ∧ out.given = D.take (512 * taken c)

/-- The session has taken block `t`. -/
def Acked (D : Bytes) (p : Parties Write) (t : Nat) : Prop :=
  ∃ s c, p.sessions = [s] ∧ Stores D s c ∧ t ≤ taken c

/-- The client has sent its request, or blocks 1 to `n`. -/
inductive Uploads (D : Bytes) (s : Write) : Prop
  | request : s.phase = .request → s.data = .ofBytes D → Uploads D s
  | block (n : Nat) : s.phase = .block → s.blockID.toNat = n → 0 < n → n ≤ blockCount D →
      IStream.At 512 D n s.data → s.end_ = s.data.eofbit → Uploads D s

structure UploadInv (D : Bytes) (p : Parties Write) : Prop where
  sessions : p.sessions = [] ∨ Acked D p 0
  running : p.client.status = .running → Uploads D p.client
  returned : p.client.status = .returned → Acked D p (blockCount D)

/-- A packet of the upload: a DATA packet is a block under its number, an ACK is
for a block that the session has taken, a request is for the request port. -/
def UploadPacket (S : Setup) (filename D : Bytes) (p : Parties Write) (d : Datagram) : Prop :=
  match d.packet with
  | .request r => d.dst = S.main ∧ r = ⟨.write, filename, .octet⟩
  | .data b => 0 < b.blockID.toNat ∧ b.blockID.toNat ≤ blockCount D ∧
      b.data = block 512 D (b.blockID.toNat - 1)
  | .ack k => Acked D p k.blockID.toNat
  | .error _ => True

variable {S : Setup} {filename D : Bytes}

/-- Block `n + 1` is full exactly when it is not the last one. -/
theorem lt_blockCount_iff {n : Nat} : n < blockCount D ↔ 512 * n ≤ D.length := by
  have := lt_mul_iff_div_lt (n := D.length) (i := n) (k := 512) (by decide)
  unfold blockCount
  omega

/-- An acknowledgement that has been sent stays true. -/
theorem UploadPacket.mono {p p' : Parties Write} {d : Datagram} (h : UploadPacket S filename D p d)
    (hp : ∀ t, Acked D p t → Acked D p' t) : UploadPacket S filename D p' d := by
  unfold UploadPacket at *
  split at h
  · exact h
  · exact h
  · exact hp _ h
  · trivial

theorem uploadPacket_errors {p : Parties Write} {ds : List Datagram}
    (h : ∀ d ∈ ds, ∃ e, d.packet = .error e) : ∀ d ∈ ds, UploadPacket S filename D p d := by
  intro d hd
  obtain ⟨e, he⟩ := h d hd
  simp only [UploadPacket, he]

/-! ## One packet at the client -/

/-- The loop of `Write` in front of block `n + 1`, the last one not yet read. -/
theorem loop_next (S : Setup) (filename : Bytes) (p : Parties Write) {s : Write} {n : Nat}
    (hphase : s.phase = .block) (hend : s.end_ = false) (hid : s.blockID.toNat = n + 1)
    (hn : n < blockCount D) (hat : IStream.At 512 D n s.data) (hrun : s.status = .running) :
    Uploads D s.loop.1 ∧ s.loop.1.status ≠ .returned ∧
      ∀ q ∈ S.fromClient s.loop.2, UploadPacket S filename D p q := by
  obtain ⟨hblock, hat'⟩ := hat.read (lt_blockCount_iff.mp hn)
  rw [Write.loop_of_more hend]
  by_cases hport : s.transferID = 0
  · rw [sendTo, if_pos hport]
    exact ⟨.block (n + 1) hphase hid (by omega) hn hat' rfl, Status.noConfusion, by simp [Setup.fromClient]⟩
  rw [sendTo_of_ne hport]
  refine ⟨.block (n + 1) hphase hid (by omega) hn hat' rfl, by rw [hrun]; exact Status.noConfusion, fun q hq => ?_⟩
  obtain rfl := List.mem_singleton.mp hq
  refine ⟨by rw [hid]; omega, by rw [hid]; exact hn, ?_⟩
  rw [hid]
  exact hblock

theorem upload_client {p : Parties Write} {d : Datagram} (hD : blockCount D ≤ 65535)
    (hs : Uploads D p.client) (hd : UploadPacket S filename D p d)
    (hrun : p.client.status = .running) {r : Write × SendsTo}
    (hr : p.client.Received d.src d.packet r) :
    (r.1.status = .running → Uploads D r.1) ∧
    (r.1.status = .returned → Acked D p (blockCount D)) ∧
    ∀ q ∈ S.fromClient r.2, UploadPacket S filename D p q := by
  cases hr with
  | stale =>
    refine ⟨fun _ => hs, fun h => ?_, by simp [Setup.fromClient]⟩
    rw [hrun] at h
    cases h
  | threw hthrew herr =>
    refine ⟨fun h => ?_, fun h => ?_, uploadPacket_errors (fromClient_errors herr)⟩
    · rw [hthrew] at h; cases h
    · rw [hthrew] at h; cases h
  | requestAck hphase hp =>
    cases hs with
    | block n hphase' => rw [hphase] at hphase'; cases hphase'
    | request _ hdata =>
      obtain ⟨hup, hstatus, hsend⟩ := loop_next S filename p
        (s := { p.client with transferID := d.src.port, phase := .block, end_ := false, blockID := 1 })
        (n := 0) (D := D) rfl rfl rfl (by unfold blockCount; omega) (hdata ▸ .start) hrun
      exact ⟨fun _ => hup, fun h => absurd h hstatus, hsend⟩
  | blockAck hphase hp =>
    cases hs with
    | request hphase' => rw [hphase] at hphase'; cases hphase'
    | block n _ hid hpos hn hat hend =>
      simp only [UploadPacket, hp, hid] at hd
      by_cases hlt : n < blockCount D
      · have he : p.client.end_ = false := by
          rw [hend, ← Bool.not_eq_true, hat.eofbit, Nat.not_lt]
          exact lt_blockCount_iff.mp hlt
        have hid' : (p.client.blockID + 1).toNat = n + 1 := by
          have h1 : (1 : UInt16).toNat = 1 := rfl
          rw [UInt16.toNat_add, hid]
          omega
        obtain ⟨hup, hstatus, hsend⟩ := loop_next S filename p
          (s := { p.client with blockID := p.client.blockID + 1 }) hphase he hid' hlt hat hrun
        exact ⟨fun _ => hup, fun h => absurd h hstatus, hsend⟩
      · obtain rfl : n = blockCount D := by omega
        have he : p.client.end_ = true := by
          rw [hend, hat.eofbit, ← Nat.not_le]
          exact lt_blockCount_iff.not.mp hlt
        have hloop : Write.loop { p.client with blockID := p.client.blockID + 1 } =
            ({ p.client with blockID := p.client.blockID + 1, status := .returned }, []) := by
          simp only [Write.loop, he, if_true]
        rw [hloop]
        exact ⟨(fun h => by cases h), fun _ => hd, by simp [Setup.fromClient]⟩

/-! ## One packet at the session -/

theorem taken_succ (c : TWritingClientBase) (sink : Sink) :
    taken ⟨c.blockID + 1, sink⟩ = c.blockID.toNat := by
  rw [taken, UInt16.add_sub_cancel]

theorem taken_eq {c : TWritingClientBase} (h : 0 < c.blockID.toNat) :
    c.blockID.toNat = taken c + 1 := by
  have h1 : (1 : UInt16).toNat = 1 := rfl
  have hle : 1 ≤ c.blockID := UInt16.le_iff_toNat_le.mpr (by rw [h1]; exact h)
  rw [taken, UInt16.toNat_sub_of_le _ _ hle, h1]
  omega

/-- What a session takes is the block that is due. -/
theorem block_due {c : TWritingClientBase} {p : Parties Write} {d : Datagram} {data : Bytes}
    (hd : UploadPacket S filename D p d) (hmain : d.dst ≠ S.main)
    (hv : TWritingClientBase.visitor.visit d.packet = .got (c.blockID, data)) :
    c.blockID.toNat = taken c + 1 ∧ taken c + 1 ≤ blockCount D ∧ data = block 512 D (taken c) := by
  cases hp : d.packet with
  | request r =>
    simp only [UploadPacket, hp] at hd
    exact absurd hd.1 hmain
  | ack k => rw [hp] at hv; cases hv
  | error e => rw [hp] at hv; cases hv
  | data b =>
    simp only [UploadPacket, hp] at hd
    rw [hp] at hv
    obtain ⟨hid, hdata⟩ := Prod.mk.inj (Visited.got.inj hv)
    rw [hid, hdata] at hd
    have htaken := taken_eq hd.1
    rw [htaken] at hd
    exact ⟨htaken, hd.2.1, hd.2.2⟩

/-- Only error packets, or only acknowledgements of what the session has taken. -/
def Answers (t : Nat) (ds : List Datagram) : Prop :=
  (∀ q ∈ ds, ∃ e, q.packet = .error e) ∨
    ∀ q ∈ ds, ∃ k, q.packet = .ack k ∧ k.blockID.toNat ≤ t

theorem upload_session {s : Session} {c : TWritingClientBase} (hs : Stores D s c)
    {p : Parties Write} {d : Datagram} (hd : UploadPacket S filename D p d) (hmain : d.dst ≠ S.main)
    (halive : s.alive = true) (disk : Disk) : ∃ c', Stores D (s.receive S disk d).1 c' ∧
      taken c ≤ taken c' ∧ Answers (taken c') (s.receive S disk d).2 := by
  obtain ⟨out, hsink, hout⟩ := hs.sink
  simp only [Session.receive, IClient.handlePacket_writing hs.role]
  have ho := TWritingClientBase.handle_outcome disk c d.packet
  generalize TWritingClientBase.handle _ _ _ = h at ho
  cases ho with
  | ended hc hmore herr =>
    have hlt (h : _ = true) : taken c < blockCount D := absurd (hmore.symm.trans h) Bool.false_ne_true
    exact ⟨c, ⟨by rw [hc], hs.le, hlt, hs.sink⟩, Nat.le_refl _, .inl (sendFrom_peer_errors herr)⟩
  | stale =>
    exact ⟨c, ⟨rfl, hs.le, fun _ => hs.lt halive, hs.sink⟩, Nat.le_refl _, .inl (by simp [sendFrom])⟩
  | block hv =>
    obtain ⟨hid, hle, rfl⟩ := block_due hd hmain hv
    have htaken := (taken_succ c (c.sink.append (block 512 D (taken c)) disk)).trans hid
    refine ⟨⟨c.blockID + 1, c.sink.append (block 512 D (taken c)) disk⟩,
      ⟨rfl, by rw [htaken]; exact hle, fun hmore => ?_, ?_⟩, by omega, .inr fun q hq => ?_⟩
    · rw [htaken]
      have hne : ¬ (c.blockID + 1 == 1) = true := by
        intro h
        have h0 : c.blockID = 0 := by simpa using h
        rw [h0] at hid
        have : (0 : UInt16).toNat = 0 := rfl
        omega
      have hfull : (block 512 D (taken c)).length = 512 := by simpa [hne] using hmore
      exact lt_blockCount_iff.mpr ((length_block_eq (by decide)).mp hfull)
    · rw [htaken, hsink]
      exact ⟨_, rfl, by rw [OStream.given_write, hout, take_succ_block]⟩
    · obtain rfl := List.mem_singleton.mp hq
      exact ⟨_, rfl, Nat.le_of_eq (hid.trans htaken.symm)⟩

/-- The request opens a session with an empty file. -/
theorem upload_accept (D : Bytes) (files : Files) (io : Io) (port : UInt16) (src : Endpoint)
    (filename : Bytes) : ∃ role c,
    acceptClient files io port ⟨src, .ok (.request ⟨.write, filename, .octet⟩)⟩ =
      .opened ⟨src, port, role⟩ [(src, .ack ⟨0⟩)] true ∧
    Stores D ⟨⟨src, port, role⟩, true⟩ c := by
  let c : TWritingClientBase := ⟨1, .octet ((OStream.ofFile io.opened).write [] io.disk)⟩
  have htaken : taken c = 0 := by simp [taken, c]
  refine ⟨.writing c, c, rfl, rfl, ?_, fun _ => ?_, _, rfl, ?_⟩
  · rw [htaken]; exact Nat.zero_le _
  · rw [htaken]; exact Nat.succ_pos _
  · rw [htaken, OStream.given_write]; rfl

theorem upload_accept_cases {p : Parties Write} {d : Datagram} (hd : UploadPacket S filename D p d)
    (io : Io) (port : UInt16) :
    (∃ answer, acceptClient S.files io port ⟨d.src, .ok d.packet⟩ = .refused answer ∧
      ∀ q ∈ answer, ∃ e, q.2 = .error e) ∨
    ∃ role c, acceptClient S.files io port ⟨d.src, .ok d.packet⟩ =
        .opened ⟨d.src, port, role⟩ [(d.src, .ack ⟨0⟩)] true ∧
      Stores D ⟨⟨d.src, port, role⟩, true⟩ c := by
  rcases acceptClient_cases S.files io port d.src d.packet with ⟨r, hr⟩ | href
  · simp only [UploadPacket, hr] at hd
    rw [hr, hd.2]
    exact .inr (upload_accept D S.files io port d.src filename)
  · exact .inl href

/-! ## Every run -/

theorem acked_iff {p : Parties Write} {s : Session} {c : TWritingClientBase} {t : Nat}
    (hs : p.sessions = [s]) (hc : Stores D s c) : Acked D p t ↔ t ≤ taken c := by
  constructor
  · rintro ⟨s', c', hs', hc', ht⟩
    obtain rfl := List.singleton_inj.mp (hs.symm.trans hs')
    obtain rfl := Role.writing.inj (hc.role.symm.trans hc'.role)
    exact ht
  · intro ht
    exact ⟨s, c, hs, hc, ht⟩

/-- The session may go on. -/
theorem keeps_session {p : Parties Write} {s s' : Session} {c c' : TWritingClientBase}
    (hp : UploadInv D p) (hs : p.sessions = [s]) (hc : Stores D s c) (hc' : Stores D s' c')
    (hle : taken c ≤ taken c') : UploadInv D { p with sessions := [s'] } ∧
      ∀ d, UploadPacket S filename D p d → UploadPacket S filename D { p with sessions := [s'] } d := by
  have hacked (t : Nat) (h : Acked D p t) : Acked D { p with sessions := [s'] } t :=
    ⟨s', c', rfl, hc', Nat.le_trans ((acked_iff hs hc).mp h) hle⟩
  refine ⟨⟨.inr ?_, hp.running, fun h => hacked _ (hp.returned h)⟩, fun d h => h.mono hacked⟩
  exact hacked 0 ⟨s, c, hs, hc, Nat.zero_le _⟩

theorem upload_receive (hD : blockCount D ≤ 65535) {p : Parties Write} {d : Datagram}
    {a : Arrival} {r : Parties Write × List Datagram} (hp : UploadInv D p)
    (hd : UploadPacket S filename D p d) (hone : OneSession S p d a)
    (hr : Reception S writeTransfer p d a r) :
    Process.Keeps (UploadInv D) (UploadPacket S filename D) p r := by
  cases hr with
  | lost => exact ⟨hp, fun _ h => h, by simp⟩
  | client hme hrun =>
    obtain ⟨hup, hret, hsend⟩ := upload_client hD (hp.running hrun) hd hrun
      (p.client.receive_cases d.src d.packet)
    exact ⟨⟨hp.sessions, hup, hret⟩, fun _ h => h.mono fun _ h => h, fun q hq => hsend q hq⟩
  | refused hmain ha =>
    rcases upload_accept_cases hd a.io a.port with ⟨_, h, he⟩ | ⟨_, _, h, -⟩ <;> rw [ha] at h <;> cases h
    exact ⟨hp, fun _ h => h, uploadPacket_errors (sendFrom_errors he)⟩
  | opened hmain hfree ha =>
    rcases upload_accept_cases hd a.io a.port with ⟨_, h, -⟩ | ⟨role, c, h, hstores⟩ <;>
      rw [ha] at h <;> cases h
    have hnil : p.sessions = [] := hone hmain
    have hnone (t : Nat) : ¬ Acked D p t := by
      rintro ⟨s, c, hs, -⟩
      rw [hnil] at hs
      cases hs
    have hacked : Acked D ⟨p.client, p.sessions ++ [⟨⟨d.src, a.port, role⟩, true⟩]⟩ 0 :=
      ⟨_, c, by rw [hnil]; rfl, hstores, Nat.zero_le _⟩
    refine ⟨⟨.inr hacked, hp.running, fun h => absurd (hp.returned h) (hnone _)⟩,
      fun _ h => h.mono fun t ht => absurd ht (hnone t), fun q hq => ?_⟩
    obtain rfl := List.mem_singleton.mp hq
    exact hacked
  | @session xs ys s hmain hl hsplit =>
    rcases hp.sessions with hnil | ⟨s', c, hs, hstores, -⟩
    · rw [hnil] at hsplit
      simp at hsplit
    · obtain ⟨rfl, rfl, rfl⟩ : xs = [] ∧ s' = s ∧ ys = [] := by
        rw [hs] at hsplit
        cases xs with
        | nil => simpa [eq_comm] using hsplit
        | cons x xs => simp at hsplit
      obtain ⟨c', hstores', hle, hsend⟩ := upload_session hstores hd hmain hl.1 a.io.disk
      obtain ⟨hinv, hmono⟩ := keeps_session hp hs hstores hstores' hle
      refine ⟨hinv, hmono, ?_⟩
      rcases hsend with herr | hack
      · exact uploadPacket_errors herr
      · intro q hq
        obtain ⟨k, hk, hle'⟩ := hack q hq
        simp only [UploadPacket, hk]
        exact ⟨_, c', rfl, hstores', hle'⟩

theorem upload_timeout {p : Parties Write} {t : Timeout} {r : Parties Write × List Datagram}
    (hp : UploadInv D p) (hr : timeout writeTransfer p t = some r) :
    Process.Keeps (UploadInv D) (UploadPacket S filename D) p r := by
  cases t with
  | client =>
    simp only [timeout, Option.ite_none_right_eq_some, Option.some.injEq] at hr
    obtain ⟨-, rfl⟩ := hr
    exact ⟨⟨hp.sessions, (fun h => by cases h), (fun h => by cases h)⟩,
      fun _ h => h.mono fun _ h => h, by simp⟩
  | session j =>
    obtain ⟨s, hj, rfl⟩ := Option.map_eq_some_iff.mp hr
    rcases hp.sessions with hnil | ⟨s', c, hs, hstores, -⟩
    · rw [hnil] at hj
      cases hj
    · rw [hs] at hj
      obtain rfl := List.mem_singleton.mp (List.mem_of_getElem? hj)
      have hdead : Stores D { s with alive := false } c :=
        ⟨hstores.role, hstores.le, (fun h => by cases h), hstores.sink⟩
      obtain ⟨hinv, hmono⟩ := keeps_session hp hs hstores hdead (Nat.le_refl _)
      have hset : p.sessions.set j { s with alive := false } = [{ s with alive := false }] := by
        rw [hs]
        cases j with
        | zero => rfl
        | succ j => simp at hj
      simp only [hset]
      exact ⟨hinv, hmono, by simp⟩

theorem upload_invariant (hD : blockCount D ≤ 65535) :
    ((process S writeTransfer).guard (OneSession S)).Invariant (UploadInv D)
      (UploadPacket S filename D) where
  receive hp hd hr := by
    obtain ⟨hone, hr⟩ := Process.receive_guard hr
    exact upload_receive hD hp hd hone (receive_reception hr)
  act hp hr := upload_timeout hp hr

theorem uploadInv_of_reachable (hD : blockCount D ≤ 65535) {w : World (Parties Write) Datagram}
    (h : (upload S filename D).Reachable w) : UploadInv D w.state := by
  have h0 : Process.Holds (UploadInv D) (UploadPacket S filename D)
      (start S (Write.start S.port filename (.ofBytes D))) := by
    refine ⟨⟨.inl rfl, fun _ => .request rfl rfl, fun hret => by cases hret⟩, fun d hd => ?_⟩
    obtain rfl := List.mem_singleton.mp hd
    exact ⟨rfl, rfl⟩
  exact ((upload_invariant hD).reachable h0 h).1

/-- The file of a session that writes one. -/
def Session.out (s : Session) : Option OStream :=
  match s.client.role with
  | .writing ⟨_, .octet out⟩ => some out
  | _ => none

theorem Stores.out {s : Session} {c : TWritingClientBase} (h : Stores D s c) :
    ∃ out, s.out = some out ∧ out.given = D.take (512 * taken c) := by
  obtain ⟨out, hsink, hout⟩ := h.sink
  obtain ⟨id, sink⟩ := c
  obtain rfl : sink = .octet out := hsink
  exact ⟨out, by simp only [Session.out, h.role], hout⟩

/-- What has been appended to the file: whole blocks of `D` from the first on,
and all of them once `Write` has returned. -/
structure Uploaded (D : Bytes) (s : Write) (out : OStream) : Prop where
  blocks : ∃ j, out.given = D.take (512 * j)
  all : s.status = .returned → out.given = D
  file : out.good = true → out.written = out.given

/-- **Safety.** Over any network, the bytes the session has appended to its file
are the first blocks of `D` at all times, and `D` when `Write` returns. -/
theorem upload_safe (hD : blockCount D ≤ 65535) {w : World (Parties Write) Datagram}
    (h : (upload S filename D).Reachable w) :
    (∀ s ∈ w.state.sessions, ∃ out, s.out = some out ∧ Uploaded D w.state.client out) ∧
    (w.state.client.status = .returned → w.state.sessions ≠ []) := by
  have hinv := uploadInv_of_reachable hD h
  refine ⟨fun s hs => ?_, fun hret => ?_⟩
  · rcases hinv.sessions with hnil | ⟨s', c, hs', hc, -⟩
    · rw [hnil] at hs
      cases hs
    · rw [hs'] at hs
      obtain rfl := List.mem_singleton.mp hs
      obtain ⟨out, ho, hgiven⟩ := hc.out
      refine ⟨out, ho, ⟨_, hgiven⟩, fun hret => ?_, out.eq_of_good⟩
      have hle := (acked_iff hs' hc).mp (hinv.returned hret)
      have hshort := (lt_blockCount_iff (D := D) (n := taken c)).not.mp (by omega)
      rw [hgiven, take_of_short (by omega)]
  · obtain ⟨s, c, hs, -⟩ := hinv.returned hret
    rw [hs]
    exact List.cons_ne_nil _ _

/-- Packets are duplicated, and an old acknowledgement arrives before the new one. -/
def uploadRun : List (NetLabel Arrival Timeout) :=
  [.deliver 0 ⟨1024, ⟨true, .stores⟩⟩, .duplicate 0, .deliver 0 ⟨1025, ⟨true, .stores⟩⟩,
    .duplicate 1, .deliver 1 ⟨1025, ⟨true, .stores⟩⟩, .deliver 0 ⟨1025, ⟨true, .stores⟩⟩,
    .deliver 1 ⟨1025, ⟨true, .stores⟩⟩]

theorem upload_reachable : ∃ w, (upload hiSetup (ascii "f") (ascii "hi")).Reachable w ∧
    w.state.client.status = .returned := by
  have hrun : ((LTS.runFn ((process hiSetup writeTransfer).guard (OneSession hiSetup)).stepFn
      (fun _ _ => true) (start hiSetup (Write.start 69 (ascii "f") (.ofBytes (ascii "hi"))))
      uploadRun).map fun w => w.state.client.status) = some .returned := by decide +kernel
  obtain ⟨w, hw, hs⟩ := Option.map_eq_some_iff.mp hrun
  exact ⟨w, Process.reachable_of_run hw, hs⟩

theorem upload_safe_hi : ∃ w, (upload hiSetup (ascii "f") (ascii "hi")).Reachable w ∧
    ∃ s ∈ w.state.sessions, ∃ out, s.out = some out ∧ out.given = ascii "hi" := by
  obtain ⟨w, hw, hret⟩ := upload_reachable
  obtain ⟨hfiles, hne⟩ := upload_safe (by decide) hw
  obtain ⟨s, hs⟩ := List.exists_mem_of_ne_nil _ (hne hret)
  obtain ⟨out, ho, hup⟩ := hfiles s hs
  exact ⟨w, hw, s, hs, out, ho, hup.all hret⟩

end NetworksLab.L5.TftpNet
