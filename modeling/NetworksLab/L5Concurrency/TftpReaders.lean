import NetworksLab.L5Concurrency.TftpAnyServer
import NetworksLab.L5Concurrency.TftpTurn
import NetworksLab.L5Concurrency.TftpWire

/-!
# Many clients that read (`udp/lib/Client.cpp`, `Server.cpp`, `Transport.cpp`)

Any number of `TClient::Read` and the poll loop of the server, over bytes and over a
network that loses, duplicates and reorders datagrams: what has once been sent may come
at any time, any number of times. A port of the server may be used again, so what was
meant for one session may come to another. Others may send the request socket anything,
and any session that does not serve a reader.

Nobody but a reader sends from its address, and it reads once from there.

Result:
* `readers_safe`: what every reader has written is a prefix of its file, and all of it
  when `Read` has returned, as long as nobody is asked to write that file.
-/
namespace NetworksLab.L5.TftpPoll
open NetworksLab.L1.Packet NetworksLab.L1.NetAscii NetworksLab.L2.Stream NetworksLab.L3.Tftp
open NetworksLab.L5.TftpNet (Meeting readTransfer)

/-- The server with its host and the port of `requests`, and which file is read from
which address. -/
structure Readers (K : Type) where
  server : Setup K
  host : UInt32
  port : UInt16
  wants : Endpoint → Option Bytes
  port_ne : port ≠ 0
  named : ∀ src filename, wants src = some filename → TftpNet.Named filename

/-- The server, and what each reader that has started has met. -/
structure Town (K : Type) where
  world : World K
  met : Endpoint → Option (List Meeting)

variable {K : Type} [DecidableEq K]

/-- `Read` on what it has met, with all that it has sent. -/
def Readers.read (R : Readers K) (filename : Bytes) (ms : List Meeting) : Read × SendsTo :=
  readTransfer.reactor.run (Read.start R.port filename) ms

/-- The reader at this address has sent the packet to a port of the server. -/
def Readers.Said (R : Readers K) (met : Endpoint → Option (List Meeting)) (src : Endpoint) (port : UInt16)
    (p : TPacket) : Prop :=
  ∃ filename ms, R.wants src = some filename ∧ met src = some ms ∧ (port, p) ∈ (R.read filename ms).2

/-- What the server has sent. What `AcceptClient` answers to a packet that it refuses is
not recorded, so any error packet may come from the request port. -/
inductive Readers.Travels (R : Readers K) (w : World K) : Endpoint → Endpoint → Bytes → Prop
  | session {id fd : Nat} {port : UInt16} {d : Datagram} {e : Env} {dst : Endpoint} {p : TPacket} :
      .request id fd port d e ∈ w.own id → (dst, p) ∈ w.sent id → Travels R w ⟨R.host, port⟩ dst p.toBytes
  | refusal {dst : Endpoint} {e : TErrorPacket} : Travels R w ⟨R.host, R.port⟩ dst (TPacket.error e).toBytes

/-- The port of a descriptor. -/
def Readers.Bound (R : Readers K) (w : World K) (fd : Nat) (port : UInt16) : Prop :=
  (fd = R.server.requests ∧ port = R.port) ∨ ∃ c ∈ w.clients, c.fd = fd ∧ c.client.port = port

/-- The session was opened from the address of a reader. -/
def Readers.Serves (R : Readers K) (w : World K) (id : Nat) : Prop :=
  ∃ src q, w.opening id = some (src, q) ∧ R.wants src ≠ none

inductive Readers.Step (R : Readers K) : Town K → Town K → Prop
  | start {t : Town K} {src : Endpoint} : R.wants src ≠ none → t.met src = none →
      Step R t { t with met := Function.update t.met src (some []) }
  | hears {t : Town K} {src from_ : Endpoint} {ms : List Meeting} {bytes : Bytes} : t.met src = some ms →
      R.Travels t.world from_ src bytes →
      Step R t { t with met := Function.update t.met src (some (ms ++ [.datagram from_ bytes])) }
  | timeout {t : Town K} {src : Endpoint} {ms : List Meeting} : t.met src = some ms →
      Step R t { t with met := Function.update t.met src (some (ms ++ [.nothing])) }
  /-- a datagram of a reader comes to a socket of the server -/
  | arrive {t : Town K} {src : Endpoint} {port : UInt16} {p : TPacket} {fd : Nat} {w : World K} :
      R.Said t.met src port p → R.Bound t.world fd port → t.world.arrive fd ⟨src, p.toBytes⟩ = some w →
      Step R t { t with world := w }
  /-- somebody else's -/
  | stray {t : Town K} {fd : Nat} {d : Datagram} {w : World K} : R.wants d.src = none →
      (fd = R.server.requests ∨ ∃ c ∈ t.world.clients, c.fd = fd ∧ ¬ R.Serves t.world c.id) →
      t.world.arrive fd d = some w → Step R t { t with world := w }
  | server {t : Town K} {l : Label} {w : World K} : (∀ fd d, l ≠ .arrive fd d) →
      (∀ fd port e io, l = .accept fd port e io → port ≠ 0) → t.world.step R.server l = some w →
      Step R t { t with world := w }

def readers (R : Readers K) : LTS (Town K) Unit where
  init t := t = ⟨.init R.server, fun _ => none⟩
  step t _ t' := R.Step t t'


variable {R : Readers K} {t t' : Town K}

/-! ## Invariant -/

/-- Some reader has sent the bytes. -/
def Readers.Wrote (R : Readers K) (met : Endpoint → Option (List Meeting)) (bytes : Bytes) : Prop :=
  ∃ src port p, R.Said met src port p ∧ bytes = p.toBytes

structure Town.Inv (R : Readers K) (t : Town K) : Prop where
  reached : (server R.server).Reachable t.world
  met : ∀ src ms, t.met src = some ms →
    R.wants src ≠ none ∧ ∀ from_ bytes, .datagram from_ bytes ∈ ms → R.Travels t.world from_ src bytes
  /-- what a reader asks for -/
  requests : ∀ d, t.world.Queued R.server.requests d → R.wants d.src ≠ none →
    ∃ port p, R.Said t.met d.src port p ∧ d.bytes = p.toBytes
  opened : ∀ id src q filename, t.world.opening id = some (src, q) → R.wants src = some filename →
    q = ⟨.read, filename, .octet⟩
  /-- what comes to a session that serves a reader -/
  waiting : ∀ c ∈ t.world.clients, R.Serves t.world c.id → ∀ d, t.world.Queued c.fd d → R.Wrote t.met d.bytes
  handled : ∀ id, R.Serves t.world id → ∀ d e, .datagram d e ∈ t.world.own id → R.Wrote t.met d.bytes
  asked : ∀ id id' fd port d e, .request id' fd port d e ∈ t.world.own id →
    port ≠ 0 ∧ ∃ q, d.packet = some (.request q)

/-! ## What a reader has sent -/

omit [DecidableEq K] in
theorem Readers.read_append (R : Readers K) (filename : Bytes) (ms : List Meeting) (m : Meeting) :
    (R.read filename ms).2 ⊆ (R.read filename (ms ++ [m])).2 := by
  rw [Readers.read, Readers.read, Reactor.run, Reactor.run, List.foldl_append, List.foldl_cons, List.foldl_nil,
    Reactor.next]
  split
  · exact List.subset_append_left _ _
  · exact List.Subset.refl _

/-- Readers go on, and more of them start. -/
def Grows (met met' : Endpoint → Option (List Meeting)) : Prop :=
  ∀ src ms, met src = some ms → ∃ more, met' src = some (ms ++ more) ∧ more.length ≤ 1

omit [DecidableEq K] in
theorem Readers.Said.grows {met met' : Endpoint → Option (List Meeting)} (hg : Grows met met') {src : Endpoint}
    {port : UInt16} {p : TPacket} (h : R.Said met src port p) : R.Said met' src port p := by
  obtain ⟨filename, ms, hwants, hmet, hmem⟩ := h
  obtain ⟨more, hmet', hlen⟩ := hg src ms hmet
  refine ⟨filename, ms ++ more, hwants, hmet', ?_⟩
  match more, hlen with
  | [], _ => rwa [List.append_nil]
  | [m], _ => exact R.read_append filename ms m hmem

omit [DecidableEq K] in
theorem Readers.Said.wants {met : Endpoint → Option (List Meeting)} {src : Endpoint} {port : UInt16} {p : TPacket}
    (h : R.Said met src port p) : ∃ filename, R.wants src = some filename := by
  obtain ⟨filename, -, hwants, -⟩ := h
  exact ⟨filename, hwants⟩

theorem grows_start {met : Endpoint → Option (List Meeting)} {src : Endpoint} (h : met src = none) :
    Grows met (Function.update met src (some [])) := by
  intro src' ms hms
  have hne : src' ≠ src := by
    rintro rfl
    cases h.symm.trans hms
  exact ⟨[], by rw [Function.update_of_ne hne, hms, List.append_nil], Nat.zero_le _⟩

theorem grows_meet {met : Endpoint → Option (List Meeting)} {src : Endpoint} {ms : List Meeting}
    (h : met src = some ms) (m : Meeting) : Grows met (Function.update met src (some (ms ++ [m]))) := by
  intro src' ms' hms'
  by_cases hsrc : src' = src
  · subst hsrc
    obtain rfl := Option.some.inj (h.symm.trans hms')
    exact ⟨[m], Function.update_self .., Nat.le_refl _⟩
  · exact ⟨[], by rw [Function.update_of_ne hsrc, hms', List.append_nil], Nat.zero_le _⟩

/-- Block 16 arrives as another one. -/
theorem received_ne_sixteen (id : UInt16) : received id ≠ 16 := by
  intro h
  have hid := joinBytes_append id
  have h16 : (16 : UInt16).toNat = 16 := rfl
  rw [← received, h, h16] at hid
  omega

/-- The blocks that a reader has accepted were sent by sessions, to this reader. -/
theorem Town.Inv.ledger (h : t.Inv R) {src : Endpoint} {ms : List Meeting} (hmet : t.met src = some ms)
    (filename : Bytes) : ∃ server ds, TftpNet.Read.Kept R.port filename ms (R.read filename ms) server ds ∧
      ds.length ≤ 15 ∧ ∀ d ∈ ds, ∃ id b, (src, .data b) ∈ t.world.sent id ∧
        d = ⟨received b.blockID, b.data.take 516⟩ := by
  obtain ⟨-, htravels⟩ := h.met src ms hmet
  have hports : ∀ from_ bytes, Meeting.datagram from_ bytes ∈ ms → from_.port ≠ 0 := by
    intro from_ bytes hm
    cases htravels from_ bytes hm with
    | session hx _ => exact (h.asked _ _ _ _ _ _ hx).1
    | refusal => exact R.port_ne
  obtain ⟨server, ds, hkept⟩ := TftpNet.Read.kept_run R.port filename ms hports
  have hblocks : ∀ d ∈ ds, ∃ id b, (src, .data b) ∈ t.world.sent id ∧ d = ⟨received b.blockID, b.data.take 516⟩ := by
    intro d hd
    obtain ⟨m, hm, hpacket⟩ := hkept.heard.mem (List.mem_map_of_mem hd)
    cases m with
    | nothing => cases hpacket
    | datagram from_ bytes =>
      simp only [Meeting.packet] at hpacket
      split at hpacket
      · rename_i p hp
        cases hpacket
        cases htravels from_ bytes hm with
        | session _ hsent =>
          obtain ⟨b, rfl, rfl⟩ := TftpNet.data_arrives hp
          exact ⟨_, b, hsent, rfl⟩
        | refusal =>
          obtain ⟨b, hb, -⟩ := TftpNet.data_arrives hp
          cases hb
      · cases hpacket
  refine ⟨server, ds, hkept, ?_, hblocks⟩
  by_contra hlt
  have hget : (ds.map (·.blockID))[15]? = some 16 := by
    rw [hkept.numbers, List.getElem?_map, List.getElem?_range (by omega)]
    rfl
  rw [List.getElem?_map] at hget
  obtain ⟨d, hd, hid⟩ := Option.map_eq_some_iff.mp hget
  obtain ⟨id, b, -, rfl⟩ := hblocks d (List.mem_of_getElem? hd)
  exact received_ne_sixteen _ hid

/-- A reader sends its request, acknowledges blocks 1 to 15, and sends errors. -/
theorem Town.Inv.said (h : t.Inv R) {src : Endpoint} {port : UInt16} {p : TPacket} (hp : R.Said t.met src port p)
    {filename : Bytes} (hwants : R.wants src = some filename) : p = .request ⟨.read, filename, .octet⟩ ∨
      (∃ k : UInt16, k.toNat ≤ 15 ∧ p = .ack ⟨k⟩) ∨ ∃ e, p = .error e := by
  obtain ⟨filename', ms, hwants', hmet, hmem⟩ := hp
  obtain rfl := Option.some.inj (hwants'.symm.trans hwants)
  obtain ⟨server, ds, hkept, hlen, -⟩ := h.ledger hmet filename'
  by_cases herr : ∃ e, p = .error e
  · exact .inr (.inr herr)
  · have hdealt : (port, p) ∈ dealt (R.read filename' ms).2 := by
      refine List.mem_filter.mpr ⟨hmem, ?_⟩
      cases p with
      | error e => exact absurd ⟨e, rfl⟩ herr
      | _ => rfl
    rw [hkept.sent] at hdealt
    rcases List.mem_cons.mp hdealt with heq | hack
    · exact .inl (Prod.mk.inj heq).2
    · obtain ⟨d, hd, heq⟩ := List.mem_map.mp hack
      obtain ⟨-, rfl⟩ := Prod.mk.inj heq
      have hid := List.mem_map_of_mem (f := fun d : TDataPacket => d.blockID) hd
      rw [hkept.numbers] at hid
      obtain ⟨n, hn, hid⟩ := List.mem_map.mp hid
      have hn := List.mem_range.mp hn
      refine .inr (.inl ⟨d.blockID, ?_, rfl⟩)
      rw [← hid, UInt16.toNat_ofNat']
      omega

/-- What the server reads of it. -/
theorem Town.Inv.wrote (h : t.Inv R) {d : Datagram} {src : Endpoint} {port : UInt16} {p : TPacket}
    (hp : R.Said t.met src port p) (hd : d.bytes = p.toBytes) {filename : Bytes}
    (hwants : R.wants src = some filename) :
    (∀ q, d.packet = some (.request q) → q = ⟨.read, filename, .octet⟩) ∧
      ∀ k, d.packet = some (.ack k) → k.blockID.toNat ≤ 15 := by
  have hpacket : d.packet = (parsePacket (p.toBytes.take 520)).toOption := by
    rw [Datagram.packet, TTransport.receive, hd]
  rcases h.said hp hwants with rfl | ⟨k, hk, rfl⟩ | ⟨e, rfl⟩
  · have hparse := TftpNet.arrives_named ⟨0, 0⟩ ⟨0, 0⟩ (R.named src filename hwants) .read
    have hparse : d.packet = some (.request ⟨.read, filename, .octet⟩) := hpacket.trans (congrArg _ hparse)
    rw [hparse]
    refine ⟨fun q hq => (TPacket.request.inj (Option.some.inj hq)).symm, fun k hk => ?_⟩
    cases hk
  · have hparse := TftpNet.arrives_ack ⟨0, 0⟩ ⟨0, 0⟩ k
    rw [TftpNet.received_of_le hk] at hparse
    have hparse : d.packet = some (.ack ⟨k⟩) := hpacket.trans (congrArg _ hparse)
    rw [hparse]
    refine ⟨fun q hq => ?_, fun k' hk' => ?_⟩
    · cases hq
    · cases hk'
      exact hk
  · obtain ⟨e', hparse⟩ := TftpNet.arrives_error ⟨0, 0⟩ ⟨0, 0⟩ e
    have hparse : d.packet = some (.error e') := hpacket.trans (congrArg _ hparse)
    rw [hparse]
    refine ⟨fun q hq => ?_, fun k hk => ?_⟩
    · cases hq
    · cases hk

/-! ## Steps -/

theorem inv_start (R : Readers K) : Town.Inv R ⟨.init R.server, fun _ => none⟩ where
  reached := .of_init rfl
  met _ _ h := by cases h
  requests d h := by
    obtain ⟨queue, hq, hmem⟩ := h
    have hq : Function.update (fun _ => none) R.server.requests (some []) R.server.requests = some queue := hq
    rw [Function.update_self] at hq
    obtain rfl := Option.some.inj hq
    cases hmem
  opened _ _ _ _ h := by cases h
  waiting _ h := absurd h List.not_mem_nil
  handled _ _ _ _ h := absurd h List.not_mem_nil
  asked _ _ _ _ _ _ h := absurd h List.not_mem_nil

/-- The readers go on. -/
theorem Town.Inv.grows (h : t.Inv R) {met : Endpoint → Option (List Meeting)} (hg : Grows t.met met)
    (hmet : ∀ src ms, met src = some ms →
      R.wants src ≠ none ∧ ∀ from_ bytes, .datagram from_ bytes ∈ ms → R.Travels t.world from_ src bytes) :
    Town.Inv R { t with met := met } where
  reached := h.reached
  met := hmet
  requests d hd hw := by
    obtain ⟨port, p, hp, hbytes⟩ := h.requests d hd hw
    exact ⟨port, p, hp.grows hg, hbytes⟩
  opened := h.opened
  waiting c hc hs d hd := by
    obtain ⟨src, port, p, hp, hbytes⟩ := h.waiting c hc hs d hd
    exact ⟨src, port, p, hp.grows hg, hbytes⟩
  handled id hs d e hd := by
    obtain ⟨src, port, p, hp, hbytes⟩ := h.handled id hs d e hd
    exact ⟨src, port, p, hp.grows hg, hbytes⟩
  asked := h.asked

theorem Town.Inv.start (h : t.Inv R) {src : Endpoint} (hw : R.wants src ≠ none) (hn : t.met src = none) :
    Town.Inv R { t with met := Function.update t.met src (some []) } := by
  refine h.grows (grows_start hn) fun src' ms hms => ?_
  by_cases hsrc : src' = src
  · subst hsrc
    rw [Function.update_self] at hms
    obtain rfl := Option.some.inj hms
    exact ⟨hw, fun _ _ hm => absurd hm List.not_mem_nil⟩
  · rw [Function.update_of_ne hsrc] at hms
    exact h.met src' ms hms

theorem Town.Inv.meet (h : t.Inv R) {src : Endpoint} {ms : List Meeting} (hmet : t.met src = some ms) {m : Meeting}
    (hm : ∀ from_ bytes, m = .datagram from_ bytes → R.Travels t.world from_ src bytes) :
    Town.Inv R { t with met := Function.update t.met src (some (ms ++ [m])) } := by
  refine h.grows (grows_meet hmet m) fun src' ms' hms' => ?_
  by_cases hsrc : src' = src
  · subst hsrc
    rw [Function.update_self] at hms'
    obtain rfl := Option.some.inj hms'
    obtain ⟨hw, htravels⟩ := h.met src' ms hmet
    refine ⟨hw, fun from_ bytes hmem => ?_⟩
    rcases List.mem_append.mp hmem with hmem | hmem
    · exact htravels from_ bytes hmem
    · exact hm from_ bytes (List.mem_singleton.mp hmem).symm
  · rw [Function.update_of_ne hsrc] at hms'
    exact h.met src' ms' hms'

/-- Each session has a socket of its own. -/
theorem Owned.fd_inj {S : Setup K} {w : World K} (h : Owned S w) {c c' : Session} (hc : c ∈ w.clients)
    (hc' : c' ∈ w.clients) (hfd : c.fd = c'.fd) : c = c' :=
  List.inj_on_of_nodup_map (List.nodup_cons.mp h.nodup).2 hc hc' hfd

theorem Owned.fd_ne {S : Setup K} {w : World K} (h : Owned S w) {c : Session} (hc : c ∈ w.clients) :
    c.fd ≠ S.requests := fun hfd =>
  (List.nodup_cons.mp h.nodup).1 (hfd ▸ List.mem_map_of_mem hc)

omit [DecidableEq K] in
theorem arrive_queued {w w' : World K} {fd : Nat} {d : Datagram} (hs : w.arrive fd d = some w') {fd' : Nat}
    {d' : Datagram} (h : w'.Queued fd' d') : w.Queued fd' d' ∨ (fd' = fd ∧ d' = d) := by
  obtain ⟨queue, hq, rfl⟩ := Option.map_eq_some_iff.mp hs
  obtain ⟨queue', hq', hmem⟩ := h
  dsimp only at hq'
  by_cases hfd : fd' = fd
  · subst hfd
    rw [Function.update_self] at hq'
    obtain rfl := Option.some.inj hq'
    rcases List.mem_append.mp hmem with hmem | hmem
    · exact .inl ⟨queue, hq, hmem⟩
    · exact .inr ⟨rfl, List.mem_singleton.mp hmem⟩
  · rw [Function.update_of_ne hfd] at hq'
    exact .inl ⟨queue', hq', hmem⟩

/-- A datagram has come to a socket. -/
theorem Town.Inv.arrive (h : t.Inv R) {fd : Nat} {d : Datagram} {w : World K} (hs : t.world.arrive fd d = some w)
    (hrequest : fd = R.server.requests → R.wants d.src ≠ none →
      ∃ port p, R.Said t.met d.src port p ∧ d.bytes = p.toBytes)
    (hsession : ∀ c ∈ t.world.clients, c.fd = fd → R.Serves t.world c.id → R.Wrote t.met d.bytes) :
    Town.Inv R { t with world := w } := by
  have hreached : (server R.server).step t.world (.arrive fd d) w := hs
  have hqueued {fd' : Nat} {d' : Datagram} (hd : w.Queued fd' d') : t.world.Queued fd' d' ∨ (fd' = fd ∧ d' = d) :=
    arrive_queued hs hd
  obtain ⟨queue, -, rfl⟩ := Option.map_eq_some_iff.mp hs
  refine ⟨h.reached.next hreached, fun src ms hmet => ?_, fun d' hd' hw => ?_, h.opened, fun c hc hserves d' hd' => ?_,
    h.handled, h.asked⟩
  · obtain ⟨hw, htravels⟩ := h.met src ms hmet
    refine ⟨hw, fun from_ bytes hm => ?_⟩
    cases htravels from_ bytes hm with
    | session hx hsent => exact .session hx hsent
    | refusal => exact .refusal
  · rcases hqueued hd' with hd' | ⟨hfd, rfl⟩
    · exact h.requests d' hd' hw
    · exact hrequest hfd.symm hw
  · rcases hqueued hd' with hd' | ⟨hfd, rfl⟩
    · exact h.waiting c hc hserves d' hd'
    · exact hsession c hc hfd hserves

/-- A step of the server. -/
theorem Town.Inv.turn (h : t.Inv R) {l : Label} {w : World K} (hl : ∀ fd d, l ≠ .arrive fd d)
    (hport : ∀ fd port e io, l = .accept fd port e io → port ≠ 0) (hs : t.world.step R.server l = some w) :
    Town.Inv R { t with world := w } := by
  have hu := unborn_reachable h.reached
  have hfresh := (owned_reachable h.reached).fresh
  have hturn := step_turn hu hl hs
  -- whom a session serves that has been there before
  have hserves {id : Nat} (hid : id < t.world.next) (hw : R.Serves w id) : R.Serves t.world id := by
    obtain ⟨src, q, ho, hw⟩ := hw
    rcases hturn.opening id with heq | ⟨rfl, -⟩
    · exact ⟨src, q, heq ▸ ho, hw⟩
    · exact absurd hid (Nat.lt_irrefl _)
  have hnext : (server R.server).step t.world l w := hs
  refine ⟨h.reached.next hnext, fun src ms hmet => ?_, fun d hd hw => ?_, fun id src q filename ho hw => ?_,
    fun c hc hw d hd => ?_, fun id hw d e hd => ?_, fun id id' fd port d e hx => ?_⟩
  · obtain ⟨hw, htravels⟩ := h.met src ms hmet
    refine ⟨hw, fun from_ bytes hm => ?_⟩
    cases htravels from_ bytes hm with
    | session hx hsent =>
      exact .session (hturn.own_mono hx) (hturn.sent _ hsent)
    | refusal => exact .refusal
  · exact h.requests d (hturn.queued _ _ hd) hw
  · rcases hturn.opening id with heq | ⟨-, d, q', hd, hpacket, heq⟩
    · exact h.opened id src q filename (heq ▸ ho) hw
    · obtain ⟨rfl, rfl⟩ := Prod.mk.inj (Option.some.inj (heq.symm.trans ho))
      obtain ⟨port, p, hp, hbytes⟩ := h.requests d hd (by rw [hw]; exact Option.some_ne_none _)
      exact (h.wrote hp hbytes hw).1 q' hpacket
  · rcases hturn.client c hc with ⟨c₀, hc₀, hid, hfd⟩ | ⟨-, hnone⟩
    · exact h.waiting c₀ hc₀ (hid ▸ hserves (hid ▸ hfresh c₀ hc₀) hw) d (hfd ▸ hturn.queued _ _ hd)
    · exact absurd hd (hnone d)
  · rcases hturn.happened hd with hd | htaken
    · refine h.handled id (hserves ?_ hw) d e hd
      by_contra hge
      rw [(hu id (Nat.le_of_not_lt hge)).1] at hd
      cases hd
    · cases htaken with
      | datagram hc hid hq =>
        subst hid
        exact h.waiting _ hc (hserves (hfresh _ hc) hw) d hq
  · rcases hturn.happened hx with hx | htaken
    · exact h.asked id id' fd port d e hx
    · cases htaken with
      | request _ hlabel _ hpacket => exact ⟨hport _ _ _ _ hlabel, _, hpacket⟩

theorem Town.Inv.step (h : t.Inv R) (hs : R.Step t t') : t'.Inv R := by
  cases hs with
  | start hw hn => exact h.start hw hn
  | hears hmet htravels =>
    refine h.meet hmet fun from_ bytes heq => ?_
    cases heq
    exact htravels
  | timeout hmet => exact h.meet hmet fun from_ bytes heq => by cases heq
  | @arrive src port p fd w hp _ hs =>
    exact h.arrive hs (fun _ _ => ⟨port, p, hp, rfl⟩) fun c _ _ _ => ⟨src, port, p, hp, rfl⟩
  | stray hw hfd hs =>
    have howned := owned_reachable h.reached
    refine h.arrive hs (fun _ hne => absurd hw hne) fun c hc heq hserves => ?_
    rcases hfd with hfd | ⟨c', hc', hfd, hnot⟩
    · exact absurd (heq.trans hfd) (howned.fd_ne hc)
    · obtain rfl := howned.fd_inj hc hc' (heq.trans hfd.symm)
      exact absurd hserves hnot
  | server hl hport hs => exact h.turn hl hport hs

theorem inv_readers (h : (readers R).Reachable t) : t.Inv R := by
  have hind : (readers R).Inductive (Town.Inv R) :=
    ⟨fun t ht => ht ▸ inv_start R, fun t _ t' hinv hs => hinv.step hs⟩
  exact hind.reachable t h

/-! ## What the blocks are -/

/-- Nobody but the session is asked to write what this reader reads. -/
def Town.Spared (R : Readers K) (t : Town K) (filename : Bytes) : Prop :=
  ∀ id src q, t.world.opening id = some (src, q) → q.type = .write →
    R.server.path q.filename ≠ R.server.path filename

/-- A reader never acknowledges block 16, so its session stops there. -/
theorem Town.Inv.answered (h : t.Inv R) {id : Nat} (hserves : R.Serves t.world id) {n : Nat}
    (hheard : Heard Happening.answers (t.world.own id) ((List.range n).map UInt16.ofNat)) : n ≤ 16 := by
  by_contra hlt
  have h16 : (16 : UInt16) ∈ (List.range n).map UInt16.ofNat :=
    List.mem_map.mpr ⟨16, List.mem_range.mpr (Nat.lt_of_not_le hlt), rfl⟩
  obtain ⟨x, hx, hanswers⟩ := hheard.mem h16
  cases x with
  | request id' fd port d e =>
    obtain ⟨-, q, hpacket⟩ := h.asked _ _ _ _ _ _ hx
    have hx : (Happening.request id' fd port d e).packet = some (.request q) := hpacket
    rw [Happening.answers, hx] at hanswers
    cases hanswers
  | datagram d e =>
    obtain ⟨src, port, p, hp, hbytes⟩ := h.handled id hserves d e hx
    obtain ⟨filename, hwants⟩ := hp.wants
    have hacks := (h.wrote hp hbytes hwants).2
    simp only [Happening.answers, Happening.packet] at hanswers
    split at hanswers
    · cases hanswers
    · rename_i k hk
      have hle := hacks k hk
      rw [Option.some.inj hanswers] at hle
      exact absurd hle (by decide)
    · cases hanswers
  | sweep => cases hanswers

/-- What comes to a reader as data is a block of its file. -/
theorem Town.Inv.block (h : t.Inv R) {src : Endpoint} {filename F : Bytes} (hwants : R.wants src = some filename)
    (hF : R.server.files (R.server.path filename) = some (.ofBytes F)) (hspared : t.Spared R filename) {id : Nat}
    {b : TDataPacket} (hb : (src, .data b) ∈ t.world.sent id) : ∃ i ≤ 15, b = dataPacket F i := by
  have hothers : t.world.Spared R.server id (R.server.path filename) := fun id' src q _ => hspared id' src q
  obtain ⟨-, c, hc, hshows⟩ := shows_reachable h.reached hothers
  rw [hshows.sent] at hb
  rcases course_addressed hc with ⟨-, -, hnone⟩ | ⟨-, -, src', q, ho, haddress, -⟩
  · rw [hnone] at hb
    cases hb
  · obtain rfl : src = src' := (haddress _ hb).resolve_right fun ⟨_, he⟩ => by cases he
    have hopening : t.world.opening id = some (src, q) := by
      rw [World.opening, hshows.events]
      exact ho
    obtain rfl := h.opened id src q filename hopening hwants
    have hserved := serves_of_course rfl hF hc ho
    obtain ⟨n, hdown, -⟩ := hserved.blocks
    have hle : n ≤ 16 := h.answered ⟨src, _, hopening, hwants ▸ Option.some_ne_none _⟩ (hshows.events ▸ hdown.heard)
    have hdealt : (src, .data b) ∈ dealt c.sent := List.mem_filter.mpr ⟨hb, rfl⟩
    rw [hdown.sent] at hdealt
    obtain ⟨b', hb', heq⟩ := List.mem_map.mp hdealt
    obtain rfl := TPacket.data.inj (Prod.mk.inj heq).2
    obtain ⟨i, hi, rfl⟩ := List.mem_map.mp hb'
    exact ⟨i, by have := List.mem_range.mp hi; omega, rfl⟩

/-- A block that arrives with a number that a reader waits for is that block. -/
theorem received_block {F : Bytes} {i j : Nat} (hi : i ≤ 15) (hj : j < 15)
    (h : received (dataPacket F i).blockID = UInt16.ofNat (j + 1)) :
    (⟨received (dataPacket F i).blockID, (dataPacket F i).data.take 516⟩ : TDataPacket) = dataPacket F j := by
  have hij : i = j := by
    have hid : (dataPacket F i).blockID = UInt16.ofNat (i + 1) := rfl
    rw [hid] at h
    by_cases h15 : i = 15
    · subst h15
      have h0 := TftpNet.received_16.symm.trans h
      have := congrArg UInt16.toNat h0
      rw [UInt16.toNat_ofNat'] at this
      simp at this
      omega
    · rw [TftpNet.received_of_le (by rw [UInt16.toNat_ofNat']; omega)] at h
      have := congrArg UInt16.toNat h
      rw [UInt16.toNat_ofNat', UInt16.toNat_ofNat'] at this
      omega
  subst hij
  have hlen : (L3.Tftp.dataPacket F i).data.length ≤ 516 := by
    rw [dataPacket, length_block]
    omega
  rw [h, List.take_of_length_le hlen]
  rfl

/-- What a reader has accepted, as long as nobody is asked to write its file. -/
theorem Town.Inv.accepted (h : t.Inv R) {src : Endpoint} {filename F : Bytes} {ms : List Meeting}
    (hmet : t.met src = some ms) (hwants : R.wants src = some filename)
    (hF : R.server.files (R.server.path filename) = some (.ofBytes F)) (hspared : t.Spared R filename) :
    ∃ server m, m ≤ 15 ∧
      TftpNet.Read.Kept R.port filename ms (R.read filename ms) server (sentBlocks F m) := by
  obtain ⟨server, ds, hkept, hlen, hblocks⟩ := h.ledger hmet filename
  have hds : ds = sentBlocks F ds.length := by
    refine List.ext_getElem (by simp [sentBlocks]) fun j hj hj' => ?_
    obtain ⟨id, b, hb, hd⟩ := hblocks _ (List.getElem_mem hj)
    obtain ⟨i, hi, rfl⟩ := h.block hwants hF hspared hb
    have hnumber : (ds[j]).blockID = UInt16.ofNat (j + 1) := by
      have := congrArg (·[j]?) hkept.numbers
      simpa [hj] using this
    rw [hd] at hnumber
    rw [hd, received_block hi (by omega) hnumber]
    simp [sentBlocks]
  exact ⟨server, ds.length, hlen, hds ▸ hkept⟩

/-- **Readers.** In every run of the server and of any number of readers, over a network
that loses, duplicates and reorders: what a reader has written is the beginning of its
file, as long as nobody is asked to write that file. When its `Read` has returned, it is
all of it. -/
theorem readers_safe (h : (readers R).Reachable t) {src : Endpoint} {filename F : Bytes} {ms : List Meeting}
    (hmet : t.met src = some ms) (hwants : R.wants src = some filename)
    (hF : R.server.files (R.server.path filename) = some (.ofBytes F)) (hspared : t.Spared R filename) :
    (∃ m ≤ 15, (R.read filename ms).1.out = F.take (512 * m)) ∧
      ((R.read filename ms).1.status = .returned → (R.read filename ms).1.out = F) := by
  obtain ⟨server, m, hm, hkept⟩ := (inv_readers h).accepted hmet hwants hF hspared
  have hout : (R.read filename ms).1.out = F.take (512 * m) := calc
    _ = (sentBlocks F m).flatMap (·.data) := hkept.out
    _ = ((sentBlocks F m).map (·.data)).flatten := List.flatMap_def ..
    _ = F.take (512 * m) := by rw [sentBlocks_data, flatten_blocks]
  refine ⟨⟨m, hm, hout⟩, fun hreturned => ?_⟩
  obtain ⟨d, hlast, hshort⟩ := hkept.returned hreturned
  cases m with
  | zero => cases hlast
  | succ m =>
    rw [sentBlocks_succ, List.getLast?_concat, Option.some.injEq] at hlast
    subst hlast
    exact hout.trans (take_of_short ((length_block_lt (by decide)).mp hshort))

/-! ### One reader -/

/-- A step that the server takes by itself. -/
def Label.own : Label → Bool
  | .arrive _ _ => false
  | .accept _ port _ _ => port != 0
  | _ => true

theorem readers_run (h : (readers R).Reachable t) {I : World K → Prop} {w : World K}
    (hr : ((LTS.ofFn I (World.step R.server)).restrict fun _ l => l.own = true).Reach t.world w) :
    (readers R).Reachable { t with world := w } := by
  induction hr with
  | refl => exact h
  | @tail w₂ w₃ l _ hs ih =>
    have hstep : R.Step { t with world := w₂ } { t with world := w₃ } := by
      refine .server (fun fd d hl => ?_) (fun fd port e io hl => ?_) hs.2
      · cases hl ▸ hs.1
      · have hport := hs.1
        rw [hl] at hport
        exact bne_iff_ne.mp hport
    exact ih.next (l := ()) hstep

def oneReader : Readers Bytes where
  server := twoSetup
  host := 0x7f000001
  port := 69
  wants src := if src = reader then some [0x61] else none
  port_ne := by decide
  named src filename h := by
    split at h
    · cases h
      exact ⟨by decide, by decide, by decide⟩
    · cases h

/-- The request arrives, and the server opens a session. -/
def openedRun : Option (World Bytes) :=
  (World.arrive (.init twoSetup) 3 ⟨reader, TPacket.toBytes (.request ⟨.read, [0x61], .octet⟩)⟩).bind fun w =>
    LTS.runFn (World.step twoSetup) (fun _ l => l.own) w
      [.poll [true] 0, .compact fun _ => calm.io, .accept 4 1069 calm calm.io]

def Happening.port : Happening → Option (Nat × UInt16)
  | .request id _ port _ _ => some (id, port)
  | _ => none

theorem openedRun_opening : openedRun.map (fun w => (w.next, w.opening 0)) =
    some (1, some (reader, ⟨.read, [0x61], .octet⟩)) := by decide +kernel

theorem openedRun_sent : openedRun.map (fun w => (w.sent 0, (w.own 0).filterMap Happening.port)) =
    some ([(reader, .data ⟨1, [0x68, 0x69]⟩)], [(0, 1069)]) := by decide +kernel

/-- The block that it answers. -/
def blockComes : Meeting := .datagram ⟨0x7f000001, 1069⟩ (TDataPacket.toBytes ⟨1, [0x68, 0x69]⟩)

theorem oneReader_hears : ∃ t : Town Bytes, (readers oneReader).Reachable t ∧ t.met reader = some [blockComes] ∧
    t.Spared oneReader [0x61] := by
  obtain ⟨w, hw, hopening⟩ := Option.map_eq_some_iff.mp openedRun_opening
  have hsent := openedRun_sent
  rw [hw, Option.map_some, Option.some.injEq, Prod.mk.injEq] at hsent
  obtain ⟨hnext, hopening⟩ := Prod.mk.inj hopening
  obtain ⟨hsent, hport⟩ := hsent
  obtain ⟨w₁, harrive, hrun⟩ := Option.bind_eq_some_iff.mp hw
  have hwants : oneReader.wants reader = some [0x61] := rfl
  have hinit : (readers oneReader).Reachable ⟨.init twoSetup, fun _ => none⟩ := .of_init rfl
  have hstart := hinit.next (l := ()) (.start (hwants ▸ Option.some_ne_none _) rfl)
  have hmet : Function.update (fun _ => none) reader (some []) reader = some ([] : List Meeting) :=
    Function.update_self ..
  have hsaid := List.mem_singleton_self ((69, .request ⟨.read, [0x61], .octet⟩) : UInt16 × TPacket)
  have harrived := hstart.next (l := ()) (.arrive ⟨[0x61], [], hwants, hmet, hsaid⟩ (.inl ⟨rfl, rfl⟩) harrive)
  have hopened := readers_run (I := fun _ => True) harrived (LTS.reach_of_runFn (fun _ _ h => h) hrun)
  obtain ⟨x, hx, hxport⟩ := List.mem_filterMap.mp (hport ▸ List.mem_singleton_self (0, 1069))
  cases x with
  | datagram => cases hxport
  | sweep => cases hxport
  | request id fd port d e =>
    obtain ⟨rfl, rfl⟩ := Prod.mk.inj (Option.some.inj hxport)
    have hheard := hopened.next (l := ()) (.hears hmet (.session hx (hsent ▸ List.mem_singleton_self _)))
    refine ⟨_, hheard, ?_, fun id src q ho hwrite => ?_⟩
    · dsimp only
      rw [Function.update_self]
      rfl
    · by_cases hid : id = 0
      · subst hid
        obtain ⟨-, rfl⟩ := Prod.mk.inj (Option.some.inj (hopening.symm.trans ho))
        cases hwrite
      · have hown := (unborn_reachable (inv_readers hheard).reached id (by rw [hnext]; omega)).1
        rw [World.opening, hown] at ho
        cases ho

theorem readers_safe_one : ∃ t : Town Bytes, (readers oneReader).Reachable t ∧ t.met reader = some [blockComes] ∧
    (oneReader.read [0x61] [blockComes]).1.status = .returned ∧
    (oneReader.read [0x61] [blockComes]).1.out = [0x68, 0x69] := by
  obtain ⟨t, ht, hmet, hspared⟩ := oneReader_hears
  have hreturned : (oneReader.read [0x61] [blockComes]).1.status = .returned := by decide +kernel
  exact ⟨t, ht, hmet, hreturned, (readers_safe ht hmet rfl rfl hspared).2 hreturned⟩

end NetworksLab.L5.TftpPoll
