import NetworksLab.Core.Network
import NetworksLab.L3Protocol.TftpClient

/-!
# A TFTP client and the server, packet by packet

One client transfer and the sessions of one server as a `Process`. A datagram
carries the packet object that was sent. What is for the client's address goes
to the client, what is for the request port goes to `AcceptClient`, and what is
for the port of a session that is alive goes to that session; anything else is
lost, and so is what comes to a client that no longer receives.

The server's loop handles one datagram at a time, so one delivery is one step;
the order of the deliveries is the network's. Both sides may time out at any
moment. A session that has ended stays in the list, with its socket closed.

Results:
* `receive_reception`: what one delivered datagram can do (`Reception`).
* `receive_client`, `receive_request`, `receive_session`: where it goes.
* `acceptClient_cases`: only requests open sessions.
-/
namespace NetworksLab.L5.TftpNet
open NetworksLab.L1.Packet NetworksLab.L2.Stream NetworksLab.L3.Tftp

structure Datagram where
  src : Endpoint
  dst : Endpoint
  packet : TPacket
  deriving DecidableEq, Repr

/-- The client's socket, the server's host and request port, and the server's
files. -/
structure Setup where
  me : Endpoint
  host : UInt32
  port : UInt16
  files : Files
  me_ne : me ≠ ⟨host, port⟩

def Setup.main (S : Setup) : Endpoint := ⟨S.host, S.port⟩

/-- A function of the client: what it does with a packet, its timeout and
whether it still runs. -/
structure Transfer (σ : Type) where
  receive : σ → TReceiveResult → σ × SendsTo
  timeout : σ → σ
  status : σ → Status

def readTransfer : Transfer Read := ⟨Read.receive, Read.timeout, Read.status⟩
def writeTransfer : Transfer Write := ⟨Write.receive, Write.timeout, Write.status⟩

structure Session where
  client : IClient
  alive : Bool
  deriving DecidableEq, Repr

structure Parties (σ : Type) where
  client : σ
  sessions : List Session

/-- What the operating system decides when a datagram arrives: the port of a
new session's socket and the fate of the output file. -/
structure Arrival where
  port : UInt16
  io : Io

inductive Timeout where
  | client
  | session (j : Nat)

variable {σ : Type}

/-- `Send` to a port of the server's host. -/
def Setup.fromClient (S : Setup) (sends : SendsTo) : List Datagram :=
  sends.map fun q => ⟨S.me, ⟨S.host, q.1⟩, q.2⟩

def sendFrom (src : Endpoint) (sends : Sends) : List Datagram :=
  sends.map fun q => ⟨src, q.1, q.2⟩

/-- The port of a new session's socket, as it is assumed to be: from 1024 on, as
`TTransport::Open()` has it, and not one that is in use. `SO_REUSEPORT` is set on all
sockets, so `bind` alone does not see to that. -/
def Setup.Free (S : Setup) (p : Parties σ) (port : UInt16) : Prop :=
  1024 ≤ port ∧ port ≠ S.port ∧ S.me ≠ ⟨S.host, port⟩ ∧
    ∀ s ∈ p.sessions, s.alive = true → s.client.port ≠ port

instance (S : Setup) (p : Parties σ) (port : UInt16) : Decidable (S.Free p port) :=
  inferInstanceAs (Decidable (_ ∧ _ ∧ _ ∧ _))

theorem Setup.Free.port_ne_zero {S : Setup} {p : Parties σ} {port : UInt16} (h : S.Free p port) : port ≠ 0 := by
  rintro rfl
  exact absurd h.1 (by decide)

def Session.Listens (S : Setup) (dst : Endpoint) (s : Session) : Prop :=
  s.alive = true ∧ ⟨S.host, s.client.port⟩ = dst

instance (S : Setup) (dst : Endpoint) (s : Session) : Decidable (s.Listens S dst) :=
  inferInstanceAs (Decidable (_ ∧ _))

/-- The session handles a datagram on its own socket. -/
def Session.receive (S : Setup) (disk : Disk) (d : Datagram) (s : Session) :
    Session × List Datagram :=
  let h := s.client.handlePacket S.files disk ⟨d.src, .ok d.packet⟩
  (⟨h.1, h.2.2⟩, sendFrom ⟨S.host, s.client.port⟩ h.2.1)

/-- The session that listens on the datagram's address, if any, handles it. -/
def receiveSession (S : Setup) (disk : Disk) (d : Datagram) :
    List Session → List Session × List Datagram
  | [] => ([], [])
  | s :: ss =>
    if s.Listens S d.dst then
      let r := s.receive S disk d
      (r.1 :: ss, r.2)
    else
      let r := receiveSession S disk d ss
      (s :: r.1, r.2)

/-- mirrors udp/lib/Server.cpp:413-418 -/
def receiveRequest (S : Setup) (p : Parties σ) (d : Datagram) (a : Arrival) :
    Option (Parties σ × List Datagram) :=
  match acceptClient S.files a.io a.port ⟨d.src, .ok d.packet⟩ with
  | .refused answer => some (p, sendFrom S.main answer)
  | .opened client sends more =>
    if S.Free p a.port then
      some ({ p with sessions := p.sessions ++ [⟨client, more⟩] }, sendFrom ⟨S.host, a.port⟩ sends)
    else none
  | .threw => none

def receive (S : Setup) (T : Transfer σ) (p : Parties σ) (d : Datagram) (a : Arrival) :
    Option (Parties σ × List Datagram) :=
  if d.dst = S.me then
    if T.status p.client = .running then
      let r := T.receive p.client ⟨d.src, .ok d.packet⟩
      some ({ p with client := r.1 }, S.fromClient r.2)
    else some (p, [])
  else if d.dst = S.main then receiveRequest S p d a
  else
    let r := receiveSession S a.io.disk d p.sessions
    some ({ p with sessions := r.1 }, r.2)

/-- A client that waits, and a session that has been idle, may time out.
mirrors udp/lib/Server.cpp:400-403 -/
def timeout (T : Transfer σ) (p : Parties σ) : Timeout → Option (Parties σ × List Datagram)
  | .client =>
    if T.status p.client = .running then some ({ p with client := T.timeout p.client }, [])
    else none
  | .session j => p.sessions[j]?.map fun s =>
    ({ p with sessions := p.sessions.set j { s with alive := false } }, [])

def process (S : Setup) (T : Transfer σ) : Process (Parties σ) Datagram Arrival Timeout :=
  ⟨receive S T, timeout T⟩

/-- The client has sent its request, and the server waits. -/
def start (S : Setup) (r : σ × SendsTo) : World (Parties σ) Datagram :=
  ⟨⟨r.1, []⟩, S.fromClient r.2⟩

/-- The route of a datagram, for `inOrder`. -/
def Datagram.route (d : Datagram) : Endpoint × Endpoint := (d.src, d.dst)

/-- A server with one small file. -/
def hiSetup : Setup where
  me := ⟨0x7f000001, 5000⟩
  host := 0x7f000001
  port := 69
  files := fun f => if f = ascii "f" then some (.ofBytes (ascii "hi")) else none
  me_ne := by decide

/-! ## One datagram -/

/-- What a delivered datagram does. -/
inductive Reception (S : Setup) (T : Transfer σ) (p : Parties σ) (d : Datagram) (a : Arrival) :
    Parties σ × List Datagram → Prop
  | lost : Reception S T p d a (p, [])
  | client : d.dst = S.me → T.status p.client = .running →
      Reception S T p d a
        ({ p with client := (T.receive p.client ⟨d.src, .ok d.packet⟩).1 },
          S.fromClient (T.receive p.client ⟨d.src, .ok d.packet⟩).2)
  | refused {answer : Sends} : d.dst = S.main →
      acceptClient S.files a.io a.port ⟨d.src, .ok d.packet⟩ = .refused answer →
      Reception S T p d a (p, sendFrom S.main answer)
  | opened {client : IClient} {sends : Sends} {more : Bool} : d.dst = S.main → S.Free p a.port →
      acceptClient S.files a.io a.port ⟨d.src, .ok d.packet⟩ = .opened client sends more →
      Reception S T p d a ({ p with sessions := p.sessions ++ [⟨client, more⟩] },
        sendFrom ⟨S.host, a.port⟩ sends)
  | session {xs ys : List Session} {s : Session} : d.dst ≠ S.main → s.Listens S d.dst →
      p.sessions = xs ++ s :: ys →
      Reception S T p d a ({ p with sessions := xs ++ (s.receive S a.io.disk d).1 :: ys },
        (s.receive S a.io.disk d).2)

theorem receiveSession_cases (S : Setup) (disk : Disk) (d : Datagram) : ∀ ss : List Session,
    receiveSession S disk d ss = (ss, []) ∨
      ∃ xs s ys, ss = xs ++ s :: ys ∧ s.Listens S d.dst ∧
        receiveSession S disk d ss = (xs ++ (s.receive S disk d).1 :: ys, (s.receive S disk d).2)
  | [] => .inl rfl
  | s :: ss => by
    rw [receiveSession]
    split
    · rename_i hs
      exact .inr ⟨[], s, ss, rfl, hs, rfl⟩
    · rcases receiveSession_cases S disk d ss with h | ⟨xs, t, ys, rfl, ht, h⟩
      · exact .inl (by rw [h])
      · exact .inr ⟨s :: xs, t, ys, rfl, ht, by rw [h]; rfl⟩

theorem receive_reception {S : Setup} {T : Transfer σ} {p : Parties σ} {d : Datagram} {a : Arrival}
    {r : Parties σ × List Datagram} (h : receive S T p d a = some r) : Reception S T p d a r := by
  unfold receive at h
  split at h
  · rename_i hme
    split at h
    · rename_i hr
      exact Option.some.inj h ▸ .client hme hr
    · exact Option.some.inj h ▸ .lost
  · split at h
    · rename_i hmain
      unfold receiveRequest at h
      split at h
      · rename_i answer ha
        exact Option.some.inj h ▸ .refused hmain ha
      · rename_i client sends more ha
        split at h
        · rename_i hfree
          exact Option.some.inj h ▸ .opened hmain hfree ha
        · cases h
      · cases h
    · rename_i hmain
      obtain rfl := Option.some.inj h
      rcases receiveSession_cases S a.io.disk d p.sessions with hs | ⟨xs, s, ys, hp, hl, hs⟩
      · rw [hs]; exact .lost
      · rw [hs]; exact .session hmain hl hp

section
variable {S : Setup} {T : Transfer σ} {p : Parties σ} {d : Datagram} {a : Arrival}

theorem receive_client (hd : d.dst = S.me) (hr : T.status p.client = .running) :
    receive S T p d a = some ({ p with client := (T.receive p.client ⟨d.src, .ok d.packet⟩).1 },
      S.fromClient (T.receive p.client ⟨d.src, .ok d.packet⟩).2) := by
  simp only [receive, if_pos hd, if_pos hr]

theorem receive_request (hd : d.dst = S.main) : receive S T p d a = receiveRequest S p d a := by
  have hne : d.dst ≠ S.me := fun h => S.me_ne (h.symm.trans hd)
  simp only [receive, if_neg hne, if_pos hd]

theorem receive_session {c : Session} (hp : p.sessions = [c]) (hme : d.dst ≠ S.me)
    (hmain : d.dst ≠ S.main) (hl : c.Listens S d.dst) :
    receive S T p d a = some ({ p with sessions := [(c.receive S a.io.disk d).1] },
      (c.receive S a.io.disk d).2) := by
  simp only [receive, if_neg hme, if_neg hmain, hp, receiveSession, if_pos hl]

end

/-- One of three ports is not in use. -/
theorem exists_free (S : Setup) (s : σ) : ∃ port, S.Free ⟨s, []⟩ port := by
  by_contra h
  have hport (port : UInt16) (h0 : 1024 ≤ port) : port = S.port ∨ S.me.port = port := by
    by_contra hne
    refine h ⟨port, h0, fun he => hne (.inl he), fun he => hne (.inr ?_), by simp⟩
    rw [he]
  have h1 := hport 1024 (by decide)
  have h2 := hport 1025 (by decide)
  have h3 := hport 1026 (by decide)
  grind

/-- A packet that is no request opens no session. -/
theorem acceptClient_cases (files : Files) (io : Io) (port : UInt16) (src : Endpoint) (p : TPacket) :
    (∃ r, p = .request r) ∨ ∃ answer,
      acceptClient files io port ⟨src, .ok p⟩ = .refused answer ∧
      ∀ q ∈ answer, ∃ e, q.2 = .error e := by
  cases p with
  | request r => exact .inl ⟨r, rfl⟩
  | data d => exact .inr ⟨_, rfl, by simp⟩
  | ack k => exact .inr ⟨_, rfl, by simp⟩
  | error e => exact .inr ⟨_, rfl, by simp⟩

theorem fromClient_errors {S : Setup} {sends : SendsTo} (h : ErrorsOnly sends) :
    ∀ d ∈ S.fromClient sends, ∃ e, d.packet = .error e := by
  intro d hd
  obtain ⟨q, hq, rfl⟩ := List.mem_map.mp hd
  exact h q hq

theorem sendFrom_errors {src : Endpoint} {sends : Sends} (h : ∀ q ∈ sends, ∃ e, q.2 = .error e) :
    ∀ d ∈ sendFrom src sends, ∃ e, d.packet = .error e := by
  intro d hd
  obtain ⟨q, hq, rfl⟩ := List.mem_map.mp hd
  exact h q hq

/-- The same for what a session sends to its peer. -/
theorem sendFrom_peer_errors {src dst : Endpoint} {ps : List TPacket} (h : ∀ p ∈ ps, ∃ e, p = .error e) :
    ∀ d ∈ sendFrom src (ps.map fun p => (dst, p)), ∃ e, d.packet = .error e := by
  apply sendFrom_errors
  intro q hq
  obtain ⟨p, hp, rfl⟩ := List.mem_map.mp hq
  exact h p hp

end NetworksLab.L5.TftpNet
