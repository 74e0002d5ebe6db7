import NetworksLab.Core.Family
import NetworksLab.Core.LTS
import NetworksLab.Core.SwapPop
import NetworksLab.L3Protocol.TftpServer

/-!
# The poll loop of the TFTP server (`udp/lib/Server.cpp`)

`TServer::TImpl::Run` as an LTS over the file system, the descriptors with what
has arrived on them, and the vector `clients`. A round is a `poll`, which fills
`toPoll`; one `visit` for each index of the loop; the `compact` step, which
builds `newClients` and destroys the other sessions; and `accept`. Datagrams
arrive at any time, on any open descriptor: which socket a datagram belongs to is
the kernel's business (`SO_REUSEPORT` lets sockets share a port). A poll may
report any of the descriptors on which something waits. A call that throws has
no step.

Files are looked up under `path`, so two names may be one file. The stream on
a file that is read has the contents that the file had when it was opened;
nobody else writes it in the runs that the result is about.

`log` has what has happened to each session: the request that opened it, its
datagrams, and every look at its `stillAlive`. `Life` is a session on its own:
what becomes of it when only this happens.

Results:
* `refines_fed`: the server refines a family of such lives, with the file system
  as the store (`Component`), and hands each session what arrives for it.
* `family_named`: a session uses only files that its requests name.
* `sessions_independent`: without timeouts and shared files, each session is as
  if it had been alone.
-/
namespace NetworksLab.L5.TftpPoll
open NetworksLab.L1.Packet NetworksLab.L1.NetAscii NetworksLab.L2.Stream NetworksLab.L3.Tftp

/-! ## Sessions and the file system -/

/-- `IClient` with the descriptor of its `Transport`, the name that it was
constructed with and `Last`. `id` counts the sessions. -/
structure Session where
  id : Nat
  fd : Nat
  client : IClient
  filename : Bytes
  last : Int
  deriving DecidableEq, Repr

structure Datagram where
  src : Endpoint
  bytes : Bytes
  deriving DecidableEq, Repr

/-- What a call finds: the fate of its output, and the time. -/
structure Env where
  io : Io
  now : Int
  deriving DecidableEq, Repr

/-- The files that exist. -/
abbrev FileSystem (K : Type) := K → Option IStream

/-- The server: which file a name is, the files at the start, the descriptor of
`requests`, and `Timeout_`. -/
structure Setup (K : Type) where
  path : Bytes → K
  files : FileSystem K
  requests : Nat
  timeout : Int

variable {K : Type} [DecidableEq K]

def Setup.view (S : Setup K) (files : FileSystem K) : Files := fun name => files (S.path name)

/-- `data` at offset `n` of a file. -/
def overlay (contents : Bytes) (n : Nat) (data : Bytes) : Bytes :=
  contents.take n ++ List.replicate (n - contents.length) 0 ++ data ++ contents.drop (n + data.length)

/-- A file behind a write to its stream: the bytes that got through stand behind
those that the stream had written before. -/
def overwritten (before after : OStream) (file : Option IStream) : IStream :=
  .ofBytes (overlay ((file.map (·.rest)).getD []) before.written.length
    (after.written.drop before.written.length))

def flushed (files : FileSystem K) (k : K) (before after : OStream) : FileSystem K :=
  if before.good then Function.update files k (some (overwritten before after (files k))) else files

/-- `Append` on disk. -/
def appended (files : FileSystem K) (k : K) : Role → Role → FileSystem K
  | .writing ⟨_, .octet out⟩, .writing ⟨_, .octet out'⟩ => flushed files k out out'
  | _, _ => files

/-- Whether the packet is one that could be parsed. -/
def parsed (r : TReceiveResult) : Bool :=
  match r.packet with
  | .ok _ => true
  | .error _ => false

/-- The session, the files, what has been sent, and whether it goes on. -/
structure Reply (K : Type) where
  session : Session
  files : FileSystem K
  sends : Sends
  more : Bool

/-- `HandlePacket` on what `Receive` has returned.
mirrors udp/lib/Server.cpp:31-43, 97-130, 236-266 -/
def Session.handlePacket (S : Setup K) (files : FileSystem K) (c : Session) (d : Datagram) (e : Env) :
    Reply K :=
  let packet := TTransport.receive d.src d.bytes
  let h := c.client.handlePacket (S.view files) e.io.disk packet
  { session := { c with client := h.1, last := if parsed packet then e.now else c.last }
    files := appended files (S.path c.filename) c.client.role h.1.role
    sends := h.2.1
    more := h.2.2 }

/-- The constructors truncate an output file that opens. -/
def created (files : FileSystem K) (k : K) (opened : Bool) : Role → FileSystem K
  | .writing ⟨_, .octet _⟩ => if opened then Function.update files k (some (.ofBytes [])) else files
  | _ => files

/-- The destructors. The one of `TNetAsciiWritingClient` writes the file.
mirrors udp/lib/Server.cpp:308-312 -/
def Session.destroy (S : Setup K) (files : FileSystem K) (c : Session) (io : Io) : FileSystem K :=
  match c.client.role with
  | .writing ⟨_, .netAscii data⟩ =>
    if io.opened then
      Function.update files (S.path c.filename)
        (some (.ofBytes ((OStream.ofFile true).write (fromNetASCII data) io.disk).written))
    else files
  | _ => files

/-- The file that a request names. -/
def requested (r : TReceiveResult) : Bytes :=
  match r.packet with
  | .ok (.request p) => p.filename
  | _ => []

/-- What `AcceptClient` has made of a packet. -/
inductive Opening (K : Type) where
  | refused (answer : Sends)
  | opened (r : Reply K)

/-- `AcceptClient` up to the result of `Handle`. `none`: it throws.
mirrors udp/lib/Server.cpp:427-521 -/
def Setup.acceptClient (S : Setup K) (files : FileSystem K) (id fd : Nat) (port : UInt16) (d : Datagram)
    (e : Env) : Option (Opening K) :=
  let packet := TTransport.receive d.src d.bytes
  match L3.Tftp.acceptClient (S.view files) e.io port packet with
  | .threw => none
  | .refused answer => some (.refused answer)
  | .opened client sends more => some (.opened
    { session := ⟨id, fd, client, requested packet, e.now⟩
      files := created files (S.path (requested packet)) e.io.opened client.role
      sends, more })

/-! ## The server -/

structure PollFD where
  fd : Nat
  revents : Bool
  deriving DecidableEq, Repr

/-- The locals of the loop over the sessions. -/
structure Round where
  i : Nat
  toPoll : List PollFD
  pollTime : Int
  stillAlive : List Bool
  deriving DecidableEq, Repr

/-- The next index; the session at this one has ended if not `alive`. -/
def Round.next (r : Round) (alive : Bool) : Round :=
  { r with
    i := r.i + 1
    stillAlive := if alive then r.stillAlive else r.stillAlive.set (r.i - 1) false }

/-- Where `Run` is: in `poll`; in the loop; behind it. -/
inductive Phase where
  | polling
  | visiting (r : Round)
  | accepting (revents : Bool)
  deriving DecidableEq, Repr

/-- What has happened to one session. -/
inductive Happening where
  | request (id fd : Nat) (port : UInt16) (d : Datagram) (e : Env)
  | datagram (d : Datagram) (e : Env)
  | sweep (io : Io)
  deriving DecidableEq, Repr

/-- `sockets` are the open descriptors with what waits on them. The last four
fields only record: the number of sessions so far, what each has sent, what has
arrived for each, and what has happened to each. -/
structure World (K : Type) where
  files : FileSystem K
  clients : List Session
  sockets : Nat → Option (List Datagram)
  phase : Phase
  next : Nat
  sent : Nat → Sends
  arrived : Nat → List Datagram
  log : List (Nat × Happening)

inductive Label where
  | arrive (fd : Nat) (d : Datagram)
  | poll (ready : List Bool) (pollTime : Int)
  | visit (e : Env)
  | compact (io : Nat → Io)
  | accept (fd : Nat) (port : UInt16) (e : Env) (io : Io)

namespace World

def init (S : Setup K) : World K where
  files := S.files
  clients := []
  sockets := Function.update (fun _ => none) S.requests (some [])
  phase := .polling
  next := 0
  sent := fun _ => []
  arrived := fun _ => []
  log := []

def happened (w : World K) (id : Nat) (h : Happening) : World K :=
  { w with log := w.log ++ [(id, h)] }

def send (w : World K) (id : Nat) (sends : Sends) : World K :=
  { w with sent := Function.update w.sent id (w.sent id ++ sends) }

def arrive (w : World K) (fd : Nat) (d : Datagram) : Option (World K) :=
  (w.sockets fd).map fun queue =>
    { w with
      sockets := Function.update w.sockets fd (some (queue ++ [d]))
      arrived := match w.clients.find? (·.fd = fd) with
        | some c => Function.update w.arrived c.id (w.arrived c.id ++ [d])
        | none => w.arrived }

/-- Something waits on the descriptor. -/
def waits (w : World K) (fd : Nat) : Bool :=
  match w.sockets fd with
  | some (_ :: _) => true
  | _ => false

/-- `recvfrom` on a descriptor. -/
def recv (w : World K) (fd : Nat) : Option (Datagram × World K) :=
  match w.sockets fd with
  | some (d :: queue) => some (d, { w with sockets := Function.update w.sockets fd (some queue) })
  | _ => none

/-- mirrors udp/lib/Server.cpp:370-391 -/
def poll (S : Setup K) (w : World K) (ready : List Bool) (pollTime : Int) : Option (World K) :=
  let fds := S.requests :: w.clients.map (·.fd)
  let toPoll := List.zipWith PollFD.mk fds ready
  if w.phase = .polling ∧ ready.length = fds.length ∧ toPoll.all fun p => !p.revents || w.waits p.fd then
    some { w with phase := .visiting ⟨1, toPoll, pollTime, List.replicate w.clients.length true⟩ }
  else none

/-- The session `c` at the index handles a datagram. -/
def handlePacket (S : Setup K) (w : World K) (r : Round) (c : Session) (d : Datagram) (e : Env) :
    World K :=
  let reply := c.handlePacket S w.files d e
  { (w.send c.id reply.sends).happened c.id (.datagram d e) with
    files := reply.files
    clients := w.clients.set (r.i - 1) reply.session
    phase := .visiting (r.next reply.more) }

/-- One pass of the loop over the sessions.
mirrors udp/lib/Server.cpp:393-405 -/
def visit (S : Setup K) (w : World K) (e : Env) : Option (World K) :=
  match w.phase with
  | .visiting r =>
    match r.toPoll[r.i]?, w.clients[r.i - 1]? with
    | some p, some c =>
      if p.revents then (w.recv c.fd).map fun (d, w) => w.handlePacket S r c d e
      else some { w with phase := .visiting (r.next !(r.pollTime - c.last > S.timeout)) }
    | _, _ => none
  | _ => none

/-- The destructors of the sessions that are not in `newClients`. -/
def destroyAll (S : Setup K) (io : Nat → Io) (files : FileSystem K) (cs : List Session) : FileSystem K :=
  cs.foldl (fun files c => c.destroy S files (io c.id)) files

def closeAll (sockets : Nat → Option (List Datagram)) (cs : List Session) :
    Nat → Option (List Datagram) :=
  cs.foldl (fun sockets c => Function.update sockets c.fd none) sockets

/-- mirrors udp/lib/Server.cpp:407-413 -/
def compact (S : Setup K) (w : World K) (io : Nat → Io) : Option (World K) :=
  match w.phase with
  | .visiting r =>
    if r.i < w.clients.length + 1 then none
    else
      let marked := w.clients.zip r.stillAlive
      let newClients := (marked.filter (·.2)).map (·.1)
      let ended := (marked.filter (!·.2)).map (·.1)
      some { w with
        files := destroyAll S io w.files ended
        clients := newClients
        sockets := closeAll w.sockets ended
        phase := .accepting ((r.toPoll[0]?.map (·.revents)).getD false)
        log := w.log ++ w.clients.map fun c => (c.id, .sweep (io c.id)) }
  | _ => none

/-- `AcceptClient` has opened a session on the descriptor `fd`. One whose `Handle`
has returned false is destroyed at once. -/
def addClient (S : Setup K) (w : World K) (fd : Nat) (r : Reply K) (x : Happening) (io : Io) : World K :=
  let w := ((w.send w.next r.sends).happened w.next x).happened w.next (.sweep io)
  { w with
    files := if r.more then r.files else r.session.destroy S r.files io
    clients := if r.more then w.clients ++ [r.session] else w.clients
    sockets := if r.more then Function.update w.sockets fd (some []) else w.sockets
    phase := .polling
    next := w.next + 1 }

/-- The rest of the round. `fd` and `port` are what `answer.Open()` finds.
mirrors udp/lib/Server.cpp:415-420, 427-527 -/
def accept (S : Setup K) (w : World K) (fd : Nat) (port : UInt16) (e : Env) (io : Io) :
    Option (World K) :=
  match w.phase with
  | .accepting false => some { w with phase := .polling }
  | .accepting true =>
    (w.recv S.requests).bind fun (d, w) =>
      match S.acceptClient w.files w.next fd port d e with
      | none => none
      | some (.refused _) => some { w with phase := .polling }
      | some (.opened r) =>
        if (w.sockets fd).isSome then none
        else some (w.addClient S fd r (.request w.next fd port d e) io)
  | _ => none

def step (S : Setup K) (w : World K) : Label → Option (World K)
  | .arrive fd d => w.arrive fd d
  | .poll ready pollTime => w.poll S ready pollTime
  | .visit e => w.visit S e
  | .compact io => w.compact S io
  | .accept fd port e io => w.accept S fd port e io

end World

def server (S : Setup K) : LTS (World K) Label :=
  .ofFn (· = .init S) (World.step S)

/-! ## A session on its own -/

/-- The session as long as its object exists, what it has sent, and whether it
goes on. -/
structure Life where
  session : Option Session
  sent : Sends
  alive : Bool

namespace Life

def init : Life := ⟨none, [], false⟩

def reply (l : Life) (r : Reply K) : Life × FileSystem K := (⟨some r.session, l.sent ++ r.sends, r.more⟩, r.files)

def step (S : Setup K) (l : Life) (files : FileSystem K) : Happening → Life × FileSystem K
  | .request id fd port d e =>
    match S.acceptClient files id fd port d e with
    | some (.opened r) => l.reply r
    | _ => (l, files)
  | .datagram d e =>
    match l.session with
    | some c => l.reply (c.handlePacket S files d e)
    | none => (l, files)
  | .sweep io =>
    match l.session with
    | some c => if l.alive then (l, files) else ({ l with session := none }, c.destroy S files io)
    | none => (l, files)

/-- The files that a session uses: its own, and those that it looks up for
requests that arrive on its socket. -/
def Uses (S : Setup K) (l : Life) : Happening → K → Prop
  | .request _ _ _ d _, k =>
    ∃ p, (TTransport.receive d.src d.bytes).packet = .ok (.request p) ∧ k = S.path p.filename
  | .datagram d _, k => ∃ c, l.session = some c ∧ (k = S.path c.filename ∨
      ∃ r p, c.client.role = .reading r ∧
        (TTransport.receive d.src d.bytes).packet = .ok (.request p) ∧ k = S.path p.filename)
  | .sweep _, k => ∃ c, l.session = some c ∧ k = S.path c.filename

end Life

theorem flushed_at (k : K) (before after : OStream) :
    OnlyAt k fun files => flushed files k before after :=
  .ite (.update k fun file => some (overwritten before after file)) (.id k)

theorem appended_at (k : K) (before after : Role) : OnlyAt k fun files => appended files k before after := by
  unfold appended
  split
  · exact flushed_at ..
  · exact .id k

theorem created_at (k : K) (opened : Bool) (role : Role) : OnlyAt k fun files => created files k opened role := by
  unfold created
  split
  · exact .ite (.update k fun _ => _) (.id k)
  · exact .id k

theorem Session.destroy_at (S : Setup K) (c : Session) (io : Io) :
    OnlyAt (S.path c.filename) fun files => c.destroy S files io := by
  unfold destroy
  split
  · exact .ite (.update _ fun _ => _) (.id _)
  · exact .id _

/-- Only a request opens a session. -/
theorem acceptClient_opened {files : Files} {io : Io} {port : UInt16} {packet : TReceiveResult}
    {client : IClient} {sends : Sends} {more : Bool}
    (h : L3.Tftp.acceptClient files io port packet = .opened client sends more) :
    ∃ p, packet.packet = .ok (.request p) := by
  unfold L3.Tftp.acceptClient at h
  cases hp : packet.packet with
  | error e => simp [hp] at h
  | ok p =>
    cases p with
    | request p => exact ⟨p, rfl⟩
    | data => simp [hp, Expecting.visit, requestVisitor, illegal] at h
    | ack => simp [hp, Expecting.visit, requestVisitor, illegal] at h
    | error => simp [hp, Expecting.visit] at h

namespace Life

variable {S : Setup K} {l : Life}

theorem step_frame (files : FileSystem K) (h : Happening) {k : K} (hk : ¬ l.Uses S h k) :
    (l.step S files h).2 k = files k := by
  cases h with
  | request id fd port d e =>
    simp only [step, Setup.acceptClient]
    cases ha : L3.Tftp.acceptClient (S.view files) e.io port (TTransport.receive d.src d.bytes) with
    | refused => rfl
    | threw => rfl
    | opened client sends more =>
      obtain ⟨p, hp⟩ := acceptClient_opened ha
      exact (created_at _ _ _).frame _ _ fun hkp => hk ⟨p, hp, by rw [hkp, requested, hp]⟩
  | datagram d e =>
    simp only [step]
    cases hs : l.session with
    | none => rfl
    | some c => exact (appended_at _ _ _).frame _ _ fun hkp => hk ⟨c, hs, .inl hkp⟩
  | sweep io =>
    simp only [step]
    cases hs : l.session with
    | none => rfl
    | some c =>
      cases ha : l.alive with
      | true => rfl
      | false => exact (c.destroy_at S io).frame _ _ fun hkp => hk ⟨c, hs, hkp⟩

theorem step_local {files files' : FileSystem K} (h : Happening)
    (heq : ∀ k, l.Uses S h k → files k = files' k) :
    (l.step S files h).1 = (l.step S files' h).1 ∧
    ∀ k, l.Uses S h k → (l.step S files h).2 k = (l.step S files' h).2 k := by
  cases h with
  | request id fd port d e =>
    have hcongr : L3.Tftp.acceptClient (S.view files) e.io port (TTransport.receive d.src d.bytes) =
        L3.Tftp.acceptClient (S.view files') e.io port (TTransport.receive d.src d.bytes) :=
      acceptClient_congr (fun q hq => heq _ ⟨q, hq, rfl⟩) _ _
    simp only [step, Setup.acceptClient, hcongr]
    cases ha : L3.Tftp.acceptClient (S.view files') e.io port (TTransport.receive d.src d.bytes) with
    | refused => exact ⟨rfl, heq⟩
    | threw => exact ⟨rfl, heq⟩
    | opened client sends more =>
      obtain ⟨p, hp⟩ := acceptClient_opened ha
      have hown := heq _ ⟨p, hp, rfl⟩
      have hk : requested (TTransport.receive d.src d.bytes) = p.filename := by rw [requested, hp]
      exact ⟨rfl, fun k hu => (created_at _ _ _).agree (hk ▸ hown) (heq k hu)⟩
  | datagram d e =>
    simp only [step]
    cases hs : l.session with
    | none => exact ⟨rfl, heq⟩
    | some c =>
      have hcongr :
          c.client.handlePacket (S.view files) e.io.disk (TTransport.receive d.src d.bytes) =
            c.client.handlePacket (S.view files') e.io.disk (TTransport.receive d.src d.bytes) :=
        IClient.handlePacket_congr (fun r p hr hp => heq _ ⟨c, hs, .inr ⟨r, p, hr, hp, rfl⟩⟩) _
      simp only [Session.handlePacket, hcongr]
      exact ⟨rfl, fun k hu => (appended_at _ _ _).agree (heq _ ⟨c, hs, .inl rfl⟩) (heq k hu)⟩
  | sweep io =>
    simp only [step]
    cases hs : l.session with
    | none => exact ⟨rfl, heq⟩
    | some c =>
      cases ha : l.alive with
      | true => exact ⟨rfl, heq⟩
      | false => exact ⟨rfl, fun k hu => (c.destroy_at S io).agree (heq _ ⟨c, hs, rfl⟩) (heq k hu)⟩

end Life

/-- Sessions as components; the store is the file system. -/
def lives (S : Setup K) : Component Life Happening K (Option IStream) where
  step l files h := l.step S files h
  uses := Life.Uses S
  frame _ files h _ hk := Life.step_frame files h hk
  local_ _ _ _ h heq := Life.step_local h heq

/-- All sessions, after what has happened to them. -/
def family (S : Setup K) (log : List (Nat × Happening)) : Family Nat Life K (Option IStream) :=
  (lives S).run .init S.files log

/-- The session to which only `happenings` happens, and its files. -/
def alone (S : Setup K) (happenings : List Happening) : Life × FileSystem K :=
  (lives S).alone .init S.files happenings

theorem family_append (S : Setup K) (log log' : List (Nat × Happening)) :
    family S (log ++ log') = (lives S).runFrom (family S log) log' :=
  Component.run_append log log'

theorem family_append_singleton (S : Setup K) (log : List (Nat × Happening)) (id : Nat) (x : Happening) :
    family S (log ++ [(id, x)]) = (lives S).next (family S log) id x :=
  Component.run_append_singleton log id x

/-! ## The loop refines the family -/

/-- `stillAlive`, where there is one. -/
def World.marks (w : World K) : List Bool :=
  match w.phase with
  | .visiting r => r.stillAlive
  | _ => List.replicate w.clients.length true

/-- The sessions from index `i - 1` on have not been marked. -/
def World.Unvisited (w : World K) : Prop :=
  match w.phase with
  | .visiting r => 1 ≤ r.i ∧ ∀ j, r.i ≤ j + 1 → j < w.clients.length → r.stillAlive[j]? = some true
  | _ => True

/-- Every element of `clients`, with its mark, is the session of its life; lives
without such an element have no session. -/
structure Refines (S : Setup K) (w : World K) : Prop where
  files : w.files = (family S w.log).store
  sent : ∀ id, w.sent id = ((family S w.log).comps id).sent
  length : w.marks.length = w.clients.length
  unvisited : w.Unvisited
  clients : ∀ (j : Nat) (c : Session) (b : Bool), w.clients[j]? = some c → w.marks[j]? = some b →
    ((family S w.log).comps c.id).session = some c ∧ ((family S w.log).comps c.id).alive = b
  others : ∀ id, id ∉ w.clients.map (·.id) →
    ((family S w.log).comps id).session = none ∧ ((family S w.log).comps id).alive = false
  nodup : (w.clients.map (·.id)).Nodup
  fresh : ∀ id ∈ w.clients.map (·.id), id < w.next

variable {S : Setup K} {w w' : World K}

omit [DecidableEq K] in
theorem World.marks_visiting {r : Round} (h : w.phase = .visiting r) : w.marks = r.stillAlive := by
  rw [World.marks, h]

omit [DecidableEq K] in
theorem World.marks_accepting {b : Bool} (h : w.phase = .accepting b) :
    w.marks = List.replicate w.clients.length true := by
  rw [World.marks, h]

theorem refines_init (S : Setup K) : Refines S (.init S) where
  files := rfl
  sent _ := rfl
  length := rfl
  unvisited := trivial
  clients _ _ _ h := by cases h
  others _ _ := ⟨rfl, rfl⟩
  nodup := List.nodup_nil
  fresh _ h := by cases h

/-- What is not recorded does not matter. -/
theorem Refines.of_eq (h : Refines S w) (hfiles : w'.files = w.files) (hsent : w'.sent = w.sent)
    (hlog : w'.log = w.log) (hclients : w'.clients = w.clients) (hnext : w'.next = w.next)
    (hmarks : w'.marks = w.marks) (hunvisited : w'.Unvisited) : Refines S w' where
  files := by rw [hfiles, hlog, h.files]
  sent := by rw [hsent, hlog]; exact h.sent
  length := by rw [hmarks, hclients, h.length]
  unvisited := hunvisited
  clients := by rw [hlog, hclients, hmarks]; exact h.clients
  others := by rw [hlog, hclients]; exact h.others
  nodup := by rw [hclients]; exact h.nodup
  fresh := by rw [hclients, hnext]; exact h.fresh

/-- Two places of `clients` with one `id` are the same. -/
theorem Refines.index_inj (h : Refines S w) {i j : Nat} {c c' : Session} (hi : w.clients[i]? = some c)
    (hj : w.clients[j]? = some c') (hid : c.id = c'.id) : i = j := by
  have hlt : i < (w.clients.map (·.id)).length := by
    rw [List.length_map]
    exact (List.getElem?_eq_some_iff.mp hi).1
  refine (List.getElem?_inj hlt h.nodup).mp ?_
  rw [List.getElem?_map, List.getElem?_map, hi, hj, Option.map_some, Option.map_some, hid]

theorem arrive_refines (h : Refines S w) {fd : Nat} {d : Datagram} (hs : w.arrive fd d = some w') :
    Refines S w' := by
  obtain ⟨queue, -, rfl⟩ := Option.map_eq_some_iff.mp hs
  exact h.of_eq rfl rfl rfl rfl rfl rfl h.unvisited

theorem poll_refines (h : Refines S w) {ready : List Bool} {pollTime : Int}
    (hs : w.poll S ready pollTime = some w') : Refines S w' := by
  simp only [World.poll] at hs
  split at hs
  · rename_i hc
    cases hs
    have hmarks : w.marks = List.replicate w.clients.length true := by rw [World.marks, hc.1]
    refine h.of_eq rfl rfl rfl rfl rfl hmarks.symm ⟨Nat.le_refl 1, fun j _ hj => ?_⟩
    exact List.getElem?_replicate_of_lt hj
  · cases hs

/-- The loop finds a session idle for too long. -/
def World.timesOut (S : Setup K) (w : World K) (l : Label) : Bool :=
  match l, w.phase with
  | .visit _, .visiting r =>
    match r.toPoll[r.i]?, w.clients[r.i - 1]? with
    | some p, some c => !p.revents && r.pollTime - c.last > S.timeout
    | _, _ => false
  | _, _ => false

omit [DecidableEq K] in
theorem recv_some {fd : Nat} {d : Datagram} (h : w.recv fd = some (d, w')) :
    ∃ queue, w.sockets fd = some (d :: queue) ∧
      w' = { w with sockets := Function.update w.sockets fd (some queue) } := by
  simp only [World.recv] at h
  split at h
  · rename_i d' queue hq
    cases h
    exact ⟨queue, hq, rfl⟩
  · cases h

/-- What a pass of the loop does: the session at its index handles what waits on
its own socket, or nothing happens. -/
theorem visit_cases {e : Env} (hs : w.visit S e = some w') (ht : w.timesOut S (.visit e) = false) :
    ∃ r c, w.phase = .visiting r ∧ w.clients[r.i - 1]? = some c ∧
      (w' = { w with phase := .visiting (r.next true) } ∨
        ∃ d w₁, w.recv c.fd = some (d, w₁) ∧ w' = w₁.handlePacket S r c d e) := by
  simp only [World.visit] at hs
  split at hs
  · rename_i r hphase
    split at hs
    · rename_i p c hp hc
      refine ⟨r, c, hphase, hc, ?_⟩
      split at hs
      · obtain ⟨⟨d, w₁⟩, hr, rfl⟩ := Option.map_eq_some_iff.mp hs
        exact .inr ⟨d, w₁, hr, rfl⟩
      · rename_i hrevents
        cases hs
        simp only [World.timesOut, hphase, hp, hc, Bool.eq_false_iff.mpr hrevents, Bool.not_false,
          Bool.true_and] at ht
        exact .inl (by rw [ht, Bool.not_false])
    · cases hs
  · cases hs

/-- A session that is there, behind a datagram. -/
theorem datagram_family {c : Session} (h : ((family S w.log).comps c.id).session = some c)
    (hfiles : w.files = (family S w.log).store) (d : Datagram) (e : Env) :
    (family S (w.log ++ [(c.id, .datagram d e)])).store = (c.handlePacket S w.files d e).files ∧
    (family S (w.log ++ [(c.id, .datagram d e)])).comps = Function.update (family S w.log).comps c.id
      (((family S w.log).comps c.id).reply (c.handlePacket S w.files d e)).1 := by
  have hstep : (lives S).step ((family S w.log).comps c.id) (family S w.log).store (.datagram d e) =
      ((family S w.log).comps c.id).reply (c.handlePacket S w.files d e) := by
    simp only [lives, Life.step, h, hfiles]
  rw [family_append_singleton, Component.next_store, Component.next_comps, hstep]
  exact ⟨rfl, rfl⟩

/-- The mark at the index is the result of `Handle`. -/
theorem Round.next_marks {r : Round} (h : r.stillAlive[r.i - 1]? = some true) (b : Bool) :
    (r.next b).stillAlive = r.stillAlive.set (r.i - 1) b := by
  cases b with
  | false => rfl
  | true =>
    obtain ⟨hlt, hmark⟩ := List.getElem?_eq_some_iff.mp h
    have hself := List.set_getElem_self hlt
    rw [hmark] at hself
    exact hself.symm

theorem handlePacket_refines (h : Refines S w) {r : Round} (hphase : w.phase = .visiting r) {c : Session}
    (hc : w.clients[r.i - 1]? = some c) (d : Datagram) (e : Env) :
    Refines S (w.handlePacket S r c d e) := by
  have hmarks := World.marks_visiting hphase
  have hlength := hmarks ▸ h.length
  have hunvisited := h.unvisited
  simp only [World.Unvisited, hphase] at hunvisited
  obtain ⟨hi, hunvisited⟩ := hunvisited
  have hlt := (List.getElem?_eq_some_iff.mp hc).1
  have hmark : r.stillAlive[r.i - 1]? = some true := hunvisited (r.i - 1) (by omega) hlt
  obtain ⟨hsession, -⟩ := h.clients (r.i - 1) c true hc (by rw [hmarks, hmark])
  obtain ⟨hstore, hcomps⟩ := datagram_family hsession h.files d e
  have hid : (c.handlePacket S w.files d e).session.id = c.id := rfl
  have hids : (w.clients.set (r.i - 1) (c.handlePacket S w.files d e).session).map (·.id) =
      w.clients.map (·.id) := map_set_of_eq hc hid
  have hnext := Round.next_marks hmark (c.handlePacket S w.files d e).more
  exact
    { files := hstore.symm
      sent := fun id => by
        simp only [World.handlePacket, World.happened, World.send, hcomps, Function.update_apply]
        split
        · rw [Life.reply, h.sent]
        · exact h.sent id
      length := by
        simp only [World.handlePacket, World.marks, hnext, List.length_set]
        exact hlength
      unvisited := ⟨by simp only [Round.next]; omega, fun j hj hjl => by
        simp only [Round.next] at hj
        simp only [World.handlePacket, List.length_set] at hjl
        rw [hnext, List.getElem?_set_ne (by omega)]
        exact hunvisited j (by omega) hjl⟩
      clients := by
        simp only [World.handlePacket, World.happened, World.send, World.marks, hnext, hcomps]
        intro j c' b hc' hb
        by_cases hj : r.i - 1 = j
        · subst hj
          rw [List.getElem?_set_self hlt] at hc'
          rw [List.getElem?_set_self (by rwa [hlength])] at hb
          cases hc'
          cases hb
          rw [hid, Function.update_self]
          exact ⟨rfl, rfl⟩
        · rw [List.getElem?_set_ne hj] at hc' hb
          have hne : c'.id ≠ c.id := fun h' => hj (h.index_inj hc hc' h'.symm)
          rw [Function.update_of_ne hne]
          exact h.clients j c' b hc' (by rw [hmarks, hb])
      others := by
        simp only [World.handlePacket, World.happened, World.send, hids, hcomps]
        intro id hmem
        have hne : id ≠ c.id := fun hid => hmem (hid ▸ List.mem_map_of_mem (List.mem_of_getElem? hc))
        rw [Function.update_of_ne hne]
        exact h.others id hmem
      nodup := by simpa only [World.handlePacket, hids] using h.nodup
      fresh := by
        simp only [World.handlePacket, hids]
        exact h.fresh }

theorem visit_refines (h : Refines S w) {e : Env} (hs : w.visit S e = some w')
    (ht : w.timesOut S (.visit e) = false) : Refines S w' := by
  obtain ⟨r, c, hphase, hc, rfl | ⟨d, w₁, hr, rfl⟩⟩ := visit_cases hs ht
  · have hmarks := World.marks_visiting hphase
    have hunvisited := h.unvisited
    simp only [World.Unvisited, hphase] at hunvisited
    refine h.of_eq rfl rfl rfl rfl rfl hmarks.symm ⟨Nat.le_add_left 1 r.i, fun j hj => ?_⟩
    exact hunvisited.2 j (Nat.le_of_succ_le hj)
  · obtain ⟨queue, -, rfl⟩ := recv_some hr
    have h₁ : Refines S { w with sockets := Function.update w.sockets c.fd (some queue) } :=
      h.of_eq rfl rfl rfl rfl rfl rfl h.unvisited
    exact handlePacket_refines h₁ hphase hc d e

/-! ### The sessions that have ended -/

/-- What a look at `stillAlive` makes of a life. -/
def Life.swept (l : Life) (alive : Bool) : Life :=
  if alive then l else { l with session := none }

theorem sweep_next {F : Family Nat Life K (Option IStream)} {c : Session} {alive : Bool}
    (h : (F.comps c.id).session = some c ∧ (F.comps c.id).alive = alive) (io : Io) :
    ((lives S).next F c.id (.sweep io)).comps =
        Function.update F.comps c.id ((F.comps c.id).swept alive) ∧
      ((lives S).next F c.id (.sweep io)).store =
        if alive then F.store else c.destroy S F.store io := by
  have hstep : (lives S).step (F.comps c.id) F.store (.sweep io) =
      ((F.comps c.id).swept alive, if alive then F.store else c.destroy S F.store io) := by
    simp only [lives, Life.step, h.1, h.2, Life.swept]
    cases alive <;> rfl
  rw [Component.next_comps, Component.next_store, hstep]
  exact ⟨rfl, rfl⟩

/-- The whole vector, one element after the other. -/
theorem sweeps_family (io : Nat → Io) : ∀ (xs : List (Session × Bool))
    (F : Family Nat Life K (Option IStream)), (xs.map (·.1.id)).Nodup →
    (∀ x ∈ xs, (F.comps x.1.id).session = some x.1 ∧ (F.comps x.1.id).alive = x.2) →
    let F' := (lives S).runFrom F (xs.map fun x => (x.1.id, .sweep (io x.1.id)))
    F'.store = World.destroyAll S io F.store ((xs.filter (!·.2)).map (·.1)) ∧
    (∀ x ∈ xs, F'.comps x.1.id = (F.comps x.1.id).swept x.2) ∧
    ∀ id, id ∉ xs.map (·.1.id) → F'.comps id = F.comps id
  | [], _, _, _ => ⟨rfl, nofun, fun _ _ => rfl⟩
  | (c, alive) :: xs, F, hnodup, hxs => by
    rw [List.map_cons, List.nodup_cons] at hnodup
    obtain ⟨hnot, hnodup⟩ := hnodup
    obtain ⟨hcomps, hstore⟩ := sweep_next (S := S) (hxs (c, alive) List.mem_cons_self) (io c.id)
    have hold : ∀ x ∈ xs, ((lives S).next F c.id (.sweep (io c.id))).comps x.1.id = F.comps x.1.id := by
      intro x hx
      have hne : x.1.id ≠ c.id := fun hid => hnot (List.mem_map.mpr ⟨x, hx, hid⟩)
      rw [hcomps, Function.update_of_ne hne]
    obtain ⟨hs, hin, hout⟩ := sweeps_family io xs ((lives S).next F c.id (.sweep (io c.id))) hnodup
      fun x hx => by rw [hold x hx]; exact hxs x (List.mem_cons_of_mem _ hx)
    rw [List.map_cons, Component.runFrom_cons]
    refine ⟨?_, ?_, ?_⟩
    · rw [hs, hstore]
      cases alive <;> rfl
    · intro x hx
      rcases List.mem_cons.mp hx with rfl | hx
      · rw [hout _ hnot, hcomps, Function.update_self]
      · rw [hin x hx, hold x hx]
    · intro id hid
      rw [List.map_cons, List.mem_cons, not_or] at hid
      rw [hout id hid.2, hcomps, Function.update_of_ne hid.1]

theorem Life.swept_sent (l : Life) (alive : Bool) : (l.swept alive).sent = l.sent := by
  cases alive <;> rfl

theorem Life.swept_alive (l : Life) (alive : Bool) : (l.swept alive).alive = l.alive := by
  cases alive <;> rfl

/-- The marked sessions of the loop, with their lives. -/
theorem Refines.marked (h : Refines S w) {x : Session × Bool} (hx : x ∈ w.clients.zip w.marks) :
    ((family S w.log).comps x.1.id).session = some x.1 ∧ ((family S w.log).comps x.1.id).alive = x.2 := by
  obtain ⟨j, hj⟩ := List.mem_iff_getElem?.mp hx
  obtain ⟨hc, hb⟩ := List.getElem?_zip_eq_some.mp hj
  exact h.clients j x.1 x.2 hc hb

theorem Refines.map_marked (h : Refines S w) {β : Type} (f : Session → β) :
    (w.clients.zip w.marks).map (fun x => f x.1) = w.clients.map f := by
  have hfst : (w.clients.zip w.marks).map (·.1) = w.clients := List.map_fst_zip (Nat.le_of_eq h.length.symm)
  conv_rhs => rw [← hfst, List.map_map]
  rfl

theorem compact_refines (h : Refines S w) {io : Nat → Io} (hs : w.compact S io = some w') :
    Refines S w' := by
  simp only [World.compact] at hs
  split at hs
  · rename_i r hphase
    have hmarks := World.marks_visiting hphase
    rw [← hmarks] at hs
    split at hs
    · cases hs
    · cases hs
      have hids := h.map_marked (·.id)
      obtain ⟨hstore, hin, hout⟩ := sweeps_family io _ (family S w.log) (hids ▸ h.nodup) fun x => h.marked
      rw [h.map_marked fun c => (c.id, Happening.sweep (io c.id)), ← family_append] at hstore hin hout
      have hlives := fun x => h.marked (x := x)
      generalize w.clients.zip w.marks = xs at hids hstore hin hout hlives
      have hsub : (((xs.filter (·.2)).map (·.1)).map (·.id)).Sublist (w.clients.map (·.id)) := by
        rw [← hids, List.map_map]
        exact List.filter_sublist.map _
      exact
        { files := by rw [h.files]; exact hstore.symm
          sent := fun id => by
            by_cases hid : id ∈ xs.map (·.1.id)
            · obtain ⟨x, hx, rfl⟩ := List.mem_map.mp hid
              rw [hin x hx, Life.swept_sent, ← h.sent]
            · rw [hout id hid, ← h.sent]
          length := List.length_replicate
          unvisited := trivial
          clients := fun j c b hc hb => by
            obtain ⟨x, hx, rfl⟩ := List.mem_map.mp (List.mem_of_getElem? hc)
            obtain ⟨hx, halive⟩ := List.mem_filter.mp hx
            have hb := List.eq_of_mem_replicate (List.mem_of_getElem? hb)
            rw [hin x hx, hb, Life.swept, if_pos halive]
            exact halive ▸ hlives x hx
          others := fun id hid => by
            by_cases hmem : id ∈ xs.map (·.1.id)
            · obtain ⟨x, hx, rfl⟩ := List.mem_map.mp hmem
              have hdead : x.2 = false := Bool.eq_false_iff.mpr fun halive =>
                hid (List.mem_map_of_mem (List.mem_map_of_mem (List.mem_filter.mpr ⟨hx, halive⟩)))
              rw [hin x hx, Life.swept_alive, (hlives x hx).2, hdead]
              exact ⟨rfl, rfl⟩
            · rw [hout id hmem]
              exact h.others id (hids ▸ hmem)
          nodup := h.nodup.sublist hsub
          fresh := fun id hid => h.fresh id (hsub.subset hid) }
  · cases hs

/-! ### A new session -/

theorem acceptClient_session {files : FileSystem K} {id fd : Nat} {port : UInt16} {d : Datagram} {e : Env}
    {r : Reply K} (h : S.acceptClient files id fd port d e = some (.opened r)) :
    r.session.id = id ∧ r.session.fd = fd := by
  simp only [Setup.acceptClient] at h
  split at h
  · cases h
  · cases h
  · cases h
    exact ⟨rfl, rfl⟩

theorem mem_addClient {fd : Nat} {r : Reply K} {x : Happening} {io : Io} {c : Session} :
    c ∈ (w.addClient S fd r x io).clients ↔ c ∈ w.clients ∨ (r.more = true ∧ c = r.session) := by
  change c ∈ (if r.more then w.clients ++ [r.session] else w.clients) ↔ _
  split
  · rename_i hmore
    simp [hmore]
  · rename_i hmore
    simp [hmore]

/-- What tells sessions apart goes on to do so if the new one differs. -/
theorem addClient_nodup {fd : Nat} {r : Reply K} {x : Happening} {io : Io} {f : Session → Nat}
    (h : (w.clients.map f).Nodup) (hnew : ∀ c ∈ w.clients, f c ≠ f r.session) :
    ((w.addClient S fd r x io).clients.map f).Nodup := by
  change ((if r.more then w.clients ++ [r.session] else w.clients).map f).Nodup
  split
  · rw [List.map_append, List.map_singleton, ← List.concat_eq_append]
    refine h.concat fun hmem => ?_
    obtain ⟨c, hc, hf⟩ := List.mem_map.mp hmem
    exact hnew c hc hf
  · exact h

theorem opened_family {id fd : Nat} {port : UInt16} {d : Datagram} {e : Env} {r : Reply K}
    (h : S.acceptClient w.files id fd port d e = some (.opened r))
    (hfiles : w.files = (family S w.log).store) (io : Io) :
    (family S (w.log ++ [(id, .request id fd port d e)] ++ [(id, .sweep io)])).store =
        (if r.more then r.files else r.session.destroy S r.files io) ∧
      (family S (w.log ++ [(id, .request id fd port d e)] ++ [(id, .sweep io)])).comps =
        Function.update (family S w.log).comps id
          ((((family S w.log).comps id).reply r).1.swept r.more) := by
  obtain ⟨hid, -⟩ := acceptClient_session h
  subst hid
  have hstep : (lives S).step ((family S w.log).comps r.session.id) (family S w.log).store
      (.request r.session.id fd port d e) = ((family S w.log).comps r.session.id).reply r := by
    simp only [lives, Life.step, ← hfiles, h]
  rw [family_append_singleton S (w.log ++ _), family_append_singleton]
  generalize hF : (lives S).next (family S w.log) r.session.id (.request r.session.id fd port d e) = F
  have hstore : F.store = r.files := by rw [← hF, Component.next_store, hstep]; rfl
  have hcomps : F.comps = Function.update (family S w.log).comps r.session.id
      (((family S w.log).comps r.session.id).reply r).1 := by rw [← hF, Component.next_comps, hstep]
  have hlife : (F.comps r.session.id).session = some r.session ∧ (F.comps r.session.id).alive = r.more := by
    rw [hcomps, Function.update_self]
    exact ⟨rfl, rfl⟩
  obtain ⟨hcomps', hstore'⟩ := sweep_next (S := S) hlife io
  rw [hcomps', hstore', hstore, hcomps, Function.update_self, Function.update_idem]
  exact ⟨rfl, rfl⟩

theorem accept_cases {fd : Nat} {port : UInt16} {e : Env} {io : Io}
    (hs : w.accept S fd port e io = some w') : ∃ b, w.phase = .accepting b ∧
      (w' = { w with phase := .polling } ∨ ∃ d w₁, w.recv S.requests = some (d, w₁) ∧
        (w' = { w₁ with phase := .polling } ∨ ∃ r, S.acceptClient w₁.files w₁.next fd port d e =
          some (.opened r) ∧ w₁.sockets fd = none ∧
            w' = w₁.addClient S fd r (.request w₁.next fd port d e) io)) := by
  simp only [World.accept] at hs
  split at hs
  · rename_i hphase
    cases hs
    exact ⟨false, hphase, .inl rfl⟩
  · rename_i hphase
    obtain ⟨⟨d, w₁⟩, hr, hs⟩ := Option.bind_eq_some_iff.mp hs
    refine ⟨true, hphase, .inr ⟨d, w₁, hr, ?_⟩⟩
    dsimp only at hs
    split at hs
    · cases hs
    · cases hs
      exact .inl rfl
    · rename_i r hr
      split at hs
      · cases hs
      · rename_i hfd
        cases hs
        exact .inr ⟨r, hr, Option.not_isSome_iff_eq_none.mp hfd, rfl⟩
  · cases hs

theorem addClient_refines (h : Refines S w) {b : Bool} (hphase : w.phase = .accepting b) {fd : Nat}
    {port : UInt16} {d : Datagram} {e : Env} {r : Reply K}
    (hr : S.acceptClient w.files w.next fd port d e = some (.opened r)) (io : Io) :
    Refines S (w.addClient S fd r (.request w.next fd port d e) io) := by
  obtain ⟨hstore, hcomps⟩ := opened_family hr h.files io
  obtain ⟨hid, -⟩ := acceptClient_session hr
  have hmarks := World.marks_accepting hphase
  have hnew : ∀ c ∈ w.clients, c.id ≠ w.next := fun c hc =>
    Nat.ne_of_lt (h.fresh _ (List.mem_map_of_mem hc))
  have hold {j : Nat} {c : Session} (hc : w.clients[j]? = some c) (l : Life) :
      (Function.update (family S w.log).comps w.next l c.id).session = some c ∧
        (Function.update (family S w.log).comps w.next l c.id).alive = true := by
    rw [Function.update_of_ne (hnew c (List.mem_of_getElem? hc))]
    refine h.clients j c true hc ?_
    rw [hmarks, List.getElem?_replicate_of_lt (List.getElem?_eq_some_iff.mp hc).1]
  have hsent (id : Nat) : (w.addClient S fd r (.request w.next fd port d e) io).sent id =
      ((family S (w.log ++ [(w.next, .request w.next fd port d e)] ++ [(w.next, .sweep io)])).comps id).sent := by
    simp only [World.addClient, World.happened, World.send, hcomps, Function.update_apply]
    split
    · rw [Life.swept_sent, Life.reply, h.sent]
    · exact h.sent id
  have hlog : (w.addClient S fd r (.request w.next fd port d e) io).log =
      w.log ++ [(w.next, .request w.next fd port d e)] ++ [(w.next, .sweep io)] := rfl
  have hclients : (w.addClient S fd r (.request w.next fd port d e) io).clients =
      if r.more then w.clients ++ [r.session] else w.clients := rfl
  refine ⟨hstore.symm, hsent, List.length_replicate, trivial, fun j c b hc hb => ?_, fun id hmem => ?_,
    addClient_nodup h.nodup fun c hc => hid ▸ hnew c hc, fun id hmem => ?_⟩
  · obtain rfl := List.eq_of_mem_replicate (List.mem_of_getElem? hb)
    rw [hlog, hcomps]
    cases hmore : r.more with
    | false =>
      rw [hclients, hmore] at hc
      exact hold hc _
    | true =>
      rw [hclients, hmore, if_pos rfl, List.getElem?_append] at hc
      split at hc
      · exact hold hc _
      · obtain rfl := List.mem_singleton.mp (List.mem_of_getElem? hc)
        rw [hid, Function.update_self]
        exact ⟨rfl, hmore⟩
  · rw [hlog, hcomps]
    by_cases hn : id = w.next
    · subst hn
      rw [Function.update_self]
      cases hmore : r.more with
      | false => exact ⟨rfl, hmore⟩
      | true => exact absurd (List.mem_map.mpr ⟨_, mem_addClient.mpr (.inr ⟨hmore, rfl⟩), hid⟩) hmem
    · rw [Function.update_of_ne hn]
      refine h.others id fun hold => hmem ?_
      obtain ⟨c, hc, rfl⟩ := List.mem_map.mp hold
      exact List.mem_map_of_mem (mem_addClient.mpr (.inl hc))
  · obtain ⟨c, hc, rfl⟩ := List.mem_map.mp hmem
    rcases mem_addClient.mp hc with hc | ⟨-, rfl⟩
    · exact Nat.lt_succ_of_lt (h.fresh _ (List.mem_map_of_mem hc))
    · rw [hid]
      exact Nat.lt_succ_self _

theorem accept_refines (h : Refines S w) {fd : Nat} {port : UInt16} {e : Env} {io : Io}
    (hs : w.accept S fd port e io = some w') : Refines S w' := by
  obtain ⟨b, hphase, rfl | ⟨d, w₁, hr, hs⟩⟩ := accept_cases hs
  · have hmarks := World.marks_accepting hphase
    exact h.of_eq rfl rfl rfl rfl rfl hmarks.symm trivial
  · obtain ⟨queue, -, rfl⟩ := recv_some hr
    obtain rfl | ⟨r, hr, -, rfl⟩ := hs
    · have hmarks := World.marks_accepting hphase
      exact h.of_eq rfl rfl rfl rfl rfl hmarks.symm trivial
    · have h₁ : Refines S { w with sockets := Function.update w.sockets S.requests (some queue) } :=
        h.of_eq rfl rfl rfl rfl rfl rfl h.unvisited
      exact addClient_refines h₁ hphase hr io

theorem step_refines (h : Refines S w) {l : Label} (hs : w.step S l = some w') (ht : w.timesOut S l = false) :
    Refines S w' := by
  cases l with
  | arrive fd d => exact arrive_refines h hs
  | poll ready pollTime => exact poll_refines h hs
  | visit e => exact visit_refines h hs ht
  | compact io => exact compact_refines h hs
  | accept fd port e io => exact accept_refines h hs

/-! ## What arrives for whom -/

def datagrams (happenings : List Happening) : List Datagram :=
  happenings.filterMap fun
    | .datagram d _ => some d
    | _ => none

/-- Each session has a socket of its own, and has handled what has arrived there
up to what waits. -/
structure Fed (S : Setup K) (w : World K) : Prop where
  requests : w.sockets S.requests ≠ none
  fd_ne : ∀ c ∈ w.clients, c.fd ≠ S.requests
  nodup : (w.clients.map (·.fd)).Nodup
  queue : ∀ c ∈ w.clients, ∃ queue, w.sockets c.fd = some queue ∧
    datagrams (ownEvents c.id w.log) ++ queue = w.arrived c.id
  handled : ∀ id, datagrams (ownEvents id w.log) <+: w.arrived id
  unborn : ∀ id, w.next ≤ id → ownEvents id w.log = [] ∧ w.arrived id = []

section
omit [DecidableEq K]

theorem fed_init (S : Setup K) : Fed S (.init S) where
  requests := by simp [World.init]
  fd_ne _ h := by cases h
  nodup := List.nodup_nil
  queue _ h := by cases h
  handled _ := List.prefix_rfl
  unborn _ _ := ⟨rfl, rfl⟩

theorem Fed.of_eq (h : Fed S w) (hsockets : w'.sockets = w.sockets) (hclients : w'.clients = w.clients)
    (hlog : w'.log = w.log) (harrived : w'.arrived = w.arrived) (hnext : w'.next = w.next) : Fed S w' where
  requests := by rw [hsockets]; exact h.requests
  fd_ne := by rw [hclients]; exact h.fd_ne
  nodup := by rw [hclients]; exact h.nodup
  queue := by rw [hclients, hsockets, hlog, harrived]; exact h.queue
  handled := by rw [hlog, harrived]; exact h.handled
  unborn := by rw [hlog, harrived, hnext]; exact h.unborn

theorem Fed.fd_inj (h : Fed S w) {c c' : Session} (hc : c ∈ w.clients) (hc' : c' ∈ w.clients)
    (hfd : c.fd = c'.fd) : c = c' :=
  List.inj_on_of_nodup_map h.nodup hc hc' hfd

end

theorem Refines.id_inj (h : Refines S w) {c c' : Session} (hc : c ∈ w.clients) (hc' : c' ∈ w.clients)
    (hid : c.id = c'.id) : c = c' :=
  List.inj_on_of_nodup_map h.nodup hc hc' hid

theorem arrive_fed (h : Fed S w) (hw : Refines S w) {fd : Nat} {d : Datagram}
    (hs : w.arrive fd d = some w') : Fed S w' := by
  obtain ⟨queue, hq, rfl⟩ := Option.map_eq_some_iff.mp hs
  have hrequests : Function.update w.sockets fd (some (queue ++ [d])) S.requests ≠ none := by
    rw [Function.update_apply]
    split
    · simp
    · exact h.requests
  clear hs
  cases hf : w.clients.find? (·.fd = fd) with
  | none =>
    have hne : ∀ c ∈ w.clients, c.fd ≠ fd := by simpa using hf
    refine ⟨hrequests, h.fd_ne, h.nodup, fun c hc => ?_, h.handled, h.unborn⟩
    dsimp only
    rw [Function.update_of_ne (hne c hc)]
    exact h.queue c hc
  | some c =>
    have hfd : c.fd = fd := by simpa using List.find?_some hf
    have hc := List.mem_of_find?_eq_some hf
    refine ⟨hrequests, h.fd_ne, h.nodup, fun c' hc' => ?_, fun id => ?_, fun id hid => ?_⟩ <;>
      dsimp only at *
    · by_cases heq : c' = c
      · subst heq
        obtain ⟨queue', hq', harrived⟩ := h.queue c' hc
        cases hq.symm.trans (hfd ▸ hq')
        exact ⟨queue ++ [d], by rw [hfd, Function.update_self],
          by rw [Function.update_self, ← List.append_assoc, harrived]⟩
      · rw [Function.update_of_ne fun hfd' => heq (h.fd_inj hc' hc (hfd'.trans hfd.symm)),
          Function.update_of_ne fun hid => heq (hw.id_inj hc' hc hid)]
        exact h.queue c' hc'
    · rw [Function.update_apply]
      split
      · rename_i hid
        exact hid ▸ (h.handled id).trans (List.prefix_append _ _)
      · exact h.handled id
    · have hlt := hw.fresh c.id (List.mem_map_of_mem hc)
      rw [Function.update_of_ne (by omega)]
      exact h.unborn id hid

theorem datagrams_append (xs ys : List Happening) :
    datagrams (xs ++ ys) = datagrams xs ++ datagrams ys := List.filterMap_append

/-- A session takes the first datagram from its socket. -/
theorem handlePacket_fed (h : Fed S w) (hw : Refines S w) {r : Round} {c : Session}
    (hc : w.clients[r.i - 1]? = some c) {d : Datagram} {queue : List Datagram}
    (hq : w.sockets c.fd = some (d :: queue)) (e : Env) :
    Fed S (World.handlePacket S
      { w with sockets := Function.update w.sockets c.fd (some queue) } r c d e) := by
  have hmem := List.mem_of_getElem? hc
  have hself : ownEvents c.id (w.log ++ [(c.id, .datagram d e)]) = ownEvents c.id w.log ++ [.datagram d e] := by
    rw [ownEvents_append, ownEvents_self, ownEvents_nil]
  have hother {id : Nat} (hid : id ≠ c.id) :
      ownEvents id (w.log ++ [(c.id, .datagram d e)]) = ownEvents id w.log := by
    rw [ownEvents_append, ownEvents_ne hid.symm, ownEvents_nil, List.append_nil]
  obtain ⟨queue', hq', harrived⟩ := h.queue c hmem
  cases hq.symm.trans hq'
  have hfed : datagrams (ownEvents c.id (w.log ++ [(c.id, .datagram d e)])) ++ queue = w.arrived c.id := by
    rw [hself, datagrams_append, List.append_assoc, ← harrived]
    rfl
  generalize hr : c.handlePacket S w.files d e = reply
  have hfd : reply.session.fd = c.fd := by rw [← hr]; rfl
  have hid : reply.session.id = c.id := by rw [← hr]; rfl
  refine ⟨?_, fun c' hc' => ?_, ?_, fun c' hc' => ?_, fun id => ?_, fun id hid => ?_⟩ <;>
    simp only [World.handlePacket, World.happened, World.send, hr] at *
  · rw [Function.update_of_ne (h.fd_ne c hmem).symm]
    exact h.requests
  · rcases List.mem_or_eq_of_mem_set hc' with hc' | rfl
    · exact h.fd_ne c' hc'
    · rw [hfd]
      exact h.fd_ne c hmem
  · rw [map_set_of_eq hc hfd]
    exact h.nodup
  · by_cases hcc : c'.id = c.id
    · have hfd' : c'.fd = c.fd := by
        rcases List.mem_or_eq_of_mem_set hc' with hc' | rfl
        · rw [hw.id_inj hc' hmem hcc]
        · exact hfd
      rw [hcc, hfd', Function.update_self]
      exact ⟨queue, rfl, hfed⟩
    · have hc' : c' ∈ w.clients := (List.mem_or_eq_of_mem_set hc').resolve_right fun heq => hcc (heq ▸ hid)
      rw [hother hcc, Function.update_of_ne fun hfd' => hcc (by rw [h.fd_inj hc' hmem hfd'])]
      exact h.queue c' hc'
  · by_cases hid : id = c.id
    · rw [hid, ← hfed]
      exact List.prefix_append _ _
    · rw [hother hid]
      exact h.handled id
  · have hlt := hw.fresh c.id (List.mem_map_of_mem hmem)
    rw [hother (by omega)]
    exact h.unborn id hid

theorem visit_fed (h : Fed S w) (hw : Refines S w) {e : Env} (hs : w.visit S e = some w')
    (ht : w.timesOut S (.visit e) = false) : Fed S w' := by
  obtain ⟨r, c, -, hc, rfl | ⟨d, w₁, hr, rfl⟩⟩ := visit_cases hs ht
  · exact h.of_eq rfl rfl rfl rfl rfl
  · obtain ⟨queue, hq, rfl⟩ := recv_some hr
    exact handlePacket_fed h hw hc hq e

theorem closeAll_of_not_mem {fd : Nat} : ∀ {cs : List Session} {sockets : Nat → Option (List Datagram)},
    fd ∉ cs.map (·.fd) → World.closeAll sockets cs fd = sockets fd
  | [], _, _ => rfl
  | c :: cs, sockets, h => by
    rw [List.map_cons, List.mem_cons, not_or] at h
    rw [World.closeAll, List.foldl_cons, ← World.closeAll, closeAll_of_not_mem h.2,
      Function.update_of_ne h.1]

theorem datagrams_sweeps (io : Nat → Io) (id : Nat) (cs : List Session) :
    datagrams (ownEvents id (cs.map fun c => (c.id, .sweep (io c.id)))) = [] := by
  induction cs with
  | nil => rfl
  | cons c cs ih =>
    rw [List.map_cons]
    by_cases hid : c.id = id
    · rw [hid, ownEvents_self]
      exact ih
    · rw [ownEvents_ne hid]
      exact ih

theorem ownEvents_sweeps (io : Nat → Io) {id : Nat} {cs : List Session} (h : id ∉ cs.map (·.id)) :
    ownEvents id (cs.map fun c => (c.id, Happening.sweep (io c.id))) = [] := by
  induction cs with
  | nil => rfl
  | cons c cs ih =>
    rw [List.map_cons, List.mem_cons, not_or] at h
    rw [List.map_cons, ownEvents_ne (Ne.symm h.1), ih h.2]

theorem compact_fed (h : Fed S w) (hw : Refines S w) {io : Nat → Io} (hs : w.compact S io = some w') :
    Fed S w' := by
  simp only [World.compact] at hs
  split at hs
  · rename_i r hphase
    have hmarks := World.marks_visiting hphase
    rw [← hmarks] at hs
    split at hs
    · cases hs
    · cases hs
      have hsame (id : Nat) : datagrams (ownEvents id (w.log ++ w.clients.map fun c =>
          (c.id, .sweep (io c.id)))) = datagrams (ownEvents id w.log) := by
        rw [ownEvents_append, datagrams_append, datagrams_sweeps, List.append_nil]
      have hends (c : Session) (hc : c ∈ ((w.clients.zip w.marks).filter (·.2)).map (·.1)) :
          c ∈ w.clients ∧ c.fd ∉ (((w.clients.zip w.marks).filter (!·.2)).map (·.1)).map (·.fd) := by
        obtain ⟨x, hx, rfl⟩ := List.mem_map.mp hc
        obtain ⟨hx, halive⟩ := List.mem_filter.mp hx
        refine ⟨(List.of_mem_zip hx).1, fun hfd => ?_⟩
        obtain ⟨y, hy, hfd⟩ := List.mem_map.mp (List.map_map ▸ hfd)
        obtain ⟨hy, hdead⟩ := List.mem_filter.mp hy
        have hyx := h.fd_inj (List.of_mem_zip hy).1 (List.of_mem_zip hx).1 hfd
        rw [← (hw.marked hx).2, ← hyx, (hw.marked hy).2] at halive
        exact absurd halive (by simpa using hdead)
      have hrequests : S.requests ∉ (((w.clients.zip w.marks).filter (!·.2)).map (·.1)).map (·.fd) := by
        intro hfd
        obtain ⟨x, hx, hfd⟩ := List.mem_map.mp (List.map_map ▸ hfd)
        exact h.fd_ne x.1 (List.of_mem_zip (List.mem_filter.mp hx).1).1 hfd
      refine ⟨?_, fun c hc => h.fd_ne c (hends c hc).1, ?_, fun c hc => ?_, fun id => ?_, fun id hid => ?_⟩ <;>
        dsimp only at *
      · rw [closeAll_of_not_mem hrequests]
        exact h.requests
      · refine h.nodup.sublist ?_
        rw [← hw.map_marked (·.fd), List.map_map]
        exact List.filter_sublist.map _
      · rw [closeAll_of_not_mem (hends c hc).2, hsame]
        exact h.queue c (hends c hc).1
      · rw [hsame]
        exact h.handled id
      · have hnew : id ∉ w.clients.map (·.id) := fun hmem => Nat.not_le_of_lt (hw.fresh id hmem) hid
        rw [ownEvents_append, ownEvents_sweeps io hnew, List.append_nil]
        exact h.unborn id hid
  · cases hs

theorem addClient_fed (h : Fed S w) {fd : Nat} {port : UInt16} {d : Datagram} {e : Env} {r : Reply K}
    (hr : S.acceptClient w.files w.next fd port d e = some (.opened r))
    (hfd : w.sockets fd = none) (io : Io) :
    Fed S (w.addClient S fd r (.request w.next fd port d e) io) := by
  obtain ⟨hid, hrfd⟩ := acceptClient_session hr
  have hsame (id : Nat) : datagrams (ownEvents id (w.log ++ [(w.next, .request w.next fd port d e)] ++
      [(w.next, .sweep io)])) = datagrams (ownEvents id w.log) := by
    rw [List.append_assoc, ownEvents_append, datagrams_append]
    by_cases hn : w.next = id
    · rw [List.singleton_append, hn, ownEvents_self, ownEvents_self]
      exact List.append_nil _
    · rw [List.singleton_append, ownEvents_ne hn, ownEvents_ne hn]
      exact List.append_nil _
  have hopen (c : Session) (hc : c ∈ w.clients) : w.sockets c.fd ≠ none := by
    obtain ⟨queue, hq, -⟩ := h.queue c hc
    simp [hq]
  have hnew := h.unborn w.next (Nat.le_refl _)
  have hsockets : (w.addClient S fd r (.request w.next fd port d e) io).sockets =
      if r.more then Function.update w.sockets fd (some []) else w.sockets := rfl
  have hlog : (w.addClient S fd r (.request w.next fd port d e) io).log =
      w.log ++ [(w.next, .request w.next fd port d e)] ++ [(w.next, .sweep io)] := rfl
  have harrived : (w.addClient S fd r (.request w.next fd port d e) io).arrived = w.arrived := rfl
  have hsocket {fd' : Nat} (hopen : w.sockets fd' ≠ none) :
      (w.addClient S fd r (.request w.next fd port d e) io).sockets fd' = w.sockets fd' := by
    rw [hsockets]
    split
    · have hne : fd' ≠ fd := fun heq => hopen (heq ▸ hfd)
      exact Function.update_of_ne hne ..
    · rfl
  refine ⟨?_, fun c hc => ?_, addClient_nodup h.nodup fun c hc heq => ?_, fun c hc => ?_, fun id => ?_,
    fun id hid' => ?_⟩
  · rw [hsocket h.requests]
    exact h.requests
  · rcases mem_addClient.mp hc with hc | ⟨-, rfl⟩
    · exact h.fd_ne c hc
    · rw [hrfd]
      exact fun heq => h.requests (heq ▸ hfd)
  · exact hopen c hc (by rw [heq, hrfd, hfd])
  · rw [hlog, hsame, harrived]
    rcases mem_addClient.mp hc with hc | ⟨hmore, rfl⟩
    · rw [hsocket (hopen c hc)]
      exact h.queue c hc
    · refine ⟨[], ?_, ?_⟩
      · rw [hsockets, if_pos hmore, hrfd, Function.update_self]
      · rw [hid, hnew.1, hnew.2]
        rfl
  · rw [hlog, hsame, harrived]
    exact h.handled id
  · have hlt : w.next < id := hid'
    rw [hlog, List.append_assoc, ownEvents_append, List.singleton_append, ownEvents_ne (Nat.ne_of_lt hlt),
      ownEvents_ne (Nat.ne_of_lt hlt), ownEvents_nil, List.append_nil]
    exact h.unborn id (Nat.le_of_lt hlt)

theorem accept_fed (h : Fed S w) {fd : Nat} {port : UInt16} {e : Env} {io : Io}
    (hs : w.accept S fd port e io = some w') : Fed S w' := by
  obtain ⟨b, hphase, rfl | ⟨d, w₁, hr, hs⟩⟩ := accept_cases hs
  · exact h.of_eq rfl rfl rfl rfl rfl
  · obtain ⟨queue, hq, rfl⟩ := recv_some hr
    have h₁ : Fed S { w with sockets := Function.update w.sockets S.requests (some queue) } := by
      refine ⟨by simp, h.fd_ne, h.nodup, fun c hc => ?_, h.handled, h.unborn⟩
      dsimp only
      rw [Function.update_of_ne (h.fd_ne c hc)]
      exact h.queue c hc
    obtain rfl | ⟨r, hr, hfd, rfl⟩ := hs
    · exact h₁.of_eq rfl rfl rfl rfl rfl
    · exact addClient_fed h₁ hr hfd io

theorem step_fed (h : Fed S w) (hw : Refines S w) {l : Label} (hs : w.step S l = some w')
    (ht : w.timesOut S l = false) : Fed S w' := by
  cases l with
  | arrive fd d => exact arrive_fed h hw hs
  | poll ready pollTime =>
    simp only [World.step, World.poll] at hs
    split at hs
    · cases hs
      exact h.of_eq rfl rfl rfl rfl rfl
    · cases hs
  | visit e => exact visit_fed h hw hs ht
  | compact io => exact compact_fed h hw hs
  | accept fd port e io => exact accept_fed h hs

/-! ## Which files a session uses -/

/-- The name in a request that the session gets. -/
def named : Happening → Option Bytes
  | .request _ _ _ d _ | .datagram d _ =>
    match (TTransport.receive d.src d.bytes).packet with
    | .ok (.request p) => some p.filename
    | _ => none
  | .sweep _ => none

theorem named_of_request {d : Datagram} {p : TRequestPacket}
    (h : (TTransport.receive d.src d.bytes).packet = .ok (.request p)) (e : Env) :
    named (.datagram d e) = some p.filename ∧
      ∀ id fd port, named (.request id fd port d e) = some p.filename := by
  simp only [named, h, implies_true, and_self]

/-- What a life has used, and the name that its session was constructed with, have
been named. -/
structure Named (S : Setup K) (happenings : List Happening) (l : Life) (used : K → Prop) : Prop where
  used : ∀ k, used k → ∃ x ∈ happenings, ∃ name, named x = some name ∧ k = S.path name
  session : ∀ c, l.session = some c → ∃ x ∈ happenings, named x = some c.filename

theorem Named.step {happenings : List Happening} {l : Life} {used : K → Prop}
    (h : Named S happenings l used) (files : FileSystem K) (x : Happening) :
    Named S (happenings ++ [x]) (l.step S files x).1 fun k => used k ∨ l.Uses S x k := by
  have hx : x ∈ happenings ++ [x] := List.mem_append_right _ (List.mem_singleton_self x)
  have hold (c : Session) (hc : l.session = some c) :
      ∃ y ∈ happenings ++ [x], named y = some c.filename := by
    obtain ⟨y, hy, hname⟩ := h.session c hc
    exact ⟨y, List.mem_append_left _ hy, hname⟩
  refine ⟨fun k hk => ?_, ?_⟩
  · rcases hk with hk | hk
    · obtain ⟨y, hy, hname⟩ := h.used k hk
      exact ⟨y, List.mem_append_left _ hy, hname⟩
    · cases x with
      | request id fd port d e =>
        obtain ⟨p, hp, rfl⟩ := hk
        exact ⟨_, hx, p.filename, (named_of_request hp e).2 id fd port, rfl⟩
      | datagram d e =>
        obtain ⟨c, hc, rfl | ⟨r, p, -, hp, rfl⟩⟩ := hk
        · obtain ⟨y, hy, hname⟩ := hold c hc
          exact ⟨y, hy, c.filename, hname, rfl⟩
        · exact ⟨_, hx, p.filename, (named_of_request hp e).1, rfl⟩
      | sweep io =>
        obtain ⟨c, hc, rfl⟩ := hk
        obtain ⟨y, hy, hname⟩ := hold c hc
        exact ⟨y, hy, c.filename, hname, rfl⟩
  · cases x with
    | request id fd port d e =>
      simp only [Life.step, Setup.acceptClient]
      cases ha : L3.Tftp.acceptClient (S.view files) e.io port (TTransport.receive d.src d.bytes) with
      | refused => exact hold
      | threw => exact hold
      | opened client sends more =>
        obtain ⟨p, hp⟩ := acceptClient_opened ha
        intro c hc
        cases hc
        exact ⟨_, hx, by rw [(named_of_request hp e).2, requested, hp]⟩
    | datagram d e =>
      simp only [Life.step]
      cases hs : l.session with
      | none => exact fun c hc => hold c hc
      | some c =>
        intro c' hc'
        cases hc'
        exact hold c hs
    | sweep io =>
      simp only [Life.step]
      cases hs : l.session with
      | none => exact fun c hc => hold c (hs ▸ hc)
      | some c =>
        cases l.alive with
        | true => exact fun c hc => hold c (hs ▸ hc)
        | false => rintro c' ⟨⟩

/-- A session uses only files that have been named to it in a request. -/
theorem family_named (S : Setup K) (log : List (Nat × Happening)) (id : Nat) :
    Named S (ownEvents id log) ((family S log).comps id) ((family S log).used id) := by
  induction log using List.reverseRecOn with
  | nil => exact ⟨nofun, nofun⟩
  | append_singleton log x ih =>
    obtain ⟨j, x⟩ := x
    rw [family_append_singleton, ownEvents_append]
    by_cases hj : j = id
    · subst hj
      rw [ownEvents_self, ownEvents_nil, Component.next_self]
      have h := ih.step (family S log).store x
      exact ⟨fun k hk => h.used k (hk.imp_right And.right), h.session⟩
    · rw [ownEvents_ne hj, ownEvents_nil, List.append_nil, Component.next_of_ne (Ne.symm hj)]
      refine ⟨fun k hk => ih.used k ?_, ih.session⟩
      exact hk.resolve_right fun h => hj h.1.symm

/-! ## The result -/

/-- The runs in which no session times out. A call that throws ends a run anyway. -/
def untimed (S : Setup K) : LTS (World K) Label :=
  (server S).restrict fun w l => w.timesOut S l = false

theorem refines_fed (h : (untimed S).Reachable w) : Refines S w ∧ Fed S w := by
  refine LTS.Inductive.reachable (I := fun w => Refines S w ∧ Fed S w) ⟨?_, ?_⟩ w h
  · intro w hw
    subst hw
    exact ⟨refines_init S, fed_init S⟩
  · intro w l w' hinv hstep
    obtain ⟨hw, hf⟩ := hinv
    obtain ⟨ht, hs⟩ := hstep
    exact ⟨step_refines hw hs ht, step_fed hf hw hs ht⟩

/-- The session is in `clients` and has not been marked. -/
def World.alive (w : World K) (id : Nat) : Bool :=
  (w.clients.zip w.marks).any fun x => x.1.id == id && x.2

/-- What has happened to one session. -/
def World.own (w : World K) (id : Nat) : List Happening := ownEvents id w.log

theorem Refines.alive (h : Refines S w) (id : Nat) : w.alive id = ((family S w.log).comps id).alive := by
  rw [Bool.eq_iff_iff, World.alive, List.any_eq_true]
  constructor
  · intro hex
    obtain ⟨x, hx, hid⟩ := hex
    rw [Bool.and_eq_true, beq_iff_eq] at hid
    rw [← hid.1, (h.marked hx).2, hid.2]
  · intro halive
    have hmem : id ∈ w.clients.map (·.id) := by
      by_contra hmem
      rw [(h.others id hmem).2] at halive
      cases halive
    rw [← h.map_marked (·.id)] at hmem
    obtain ⟨x, hx, hid⟩ := List.mem_map.mp hmem
    exact ⟨x, hx, by rw [← hid, (h.marked hx).2] at halive; rw [hid, halive, BEq.rfl]; rfl⟩

/-- **Sessions do not interfere.** In every run of the server without timeouts in
which no two sessions use the same file, what each session has sent, whether it
is alive, and the files that it uses are those of the session alone, to which
only its own request, its own datagrams and the ends of its own rounds happen.
Its datagrams are those that have arrived on its own socket, in their order, up
to what still waits there; once it has ended, the first of them. -/
theorem sessions_independent (S : Setup K) {w : World K} (hr : (untimed S).Reachable w)
    (hd : (family S w.log).Disjoint) (id : Nat) :
    w.sent id = (alone S (w.own id)).1.sent ∧
    w.alive id = (alone S (w.own id)).1.alive ∧
    (∀ k, (family S w.log).used id k → w.files k = (alone S (w.own id)).2 k) ∧
    (∀ c ∈ w.clients, c.id = id → ∃ queue, w.sockets c.fd = some queue ∧
      datagrams (w.own id) ++ queue = w.arrived id) ∧
    datagrams (w.own id) <+: w.arrived id := by
  obtain ⟨hw, hf⟩ := refines_fed hr
  obtain ⟨hlife, hfiles⟩ := Component.run_own (C := lives S) (s := .init) (f := S.files) w.log hd id
  have hlife : (family S w.log).comps id = (alone S (w.own id)).1 := hlife
  refine ⟨?_, ?_, fun k hk => ?_, fun c hc hid => ?_, hf.handled id⟩
  · rw [hw.sent, hlife]
  · rw [hw.alive, hlife]
  · rw [hw.files]
    exact hfiles k fun j hj => hd j id k hj hk
  · subst hid
    exact hf.queue c hc

/-! ### Two sessions at a time -/

/-- The files "a", with two bytes, and nothing else. -/
def twoSetup : Setup Bytes where
  path := id
  files name := if name = [0x61] then some (.ofBytes [0x68, 0x69]) else none
  requests := 3
  timeout := 2000

def reader : Endpoint := ⟨0x7f000001, 5000⟩
def writer : Endpoint := ⟨0x7f000001, 6000⟩

def calm : Env := ⟨⟨true, .stores⟩, 0⟩

/-- One client reads "a", the other one writes "b". The writer's block comes in one
round with a late acknowledgement from the reader. The writer's session ends; the
reader's goes on, and the acknowledgement that it needs waits. -/
def twoLabels : List Label :=
  [.arrive 3 ⟨reader, TPacket.toBytes (.request ⟨.read, [0x61], .octet⟩)⟩, .poll [true] 0, .compact fun _ => calm.io,
    .accept 4 1069 calm calm.io,
    .arrive 3 ⟨writer, TPacket.toBytes (.request ⟨.write, [0x62], .octet⟩)⟩, .poll [true, false] 0, .visit calm,
    .compact fun _ => calm.io, .accept 5 1070 calm calm.io,
    .arrive 5 ⟨writer, TPacket.toBytes (.data ⟨1, [0x78]⟩)⟩, .arrive 4 ⟨reader, TPacket.toBytes (.ack ⟨0⟩)⟩,
    .arrive 4 ⟨reader, TPacket.toBytes (.ack ⟨1⟩)⟩,
    .poll [false, true, true] 0, .visit calm, .visit calm, .compact fun _ => calm.io]

def twoRun : Option (World Bytes) :=
  LTS.runFn (World.step twoSetup) (fun w l => !w.timesOut twoSetup l) (.init twoSetup) twoLabels

theorem twoRun_log : twoRun.map (fun w => (w.next, w.log.all fun x => (named x.2).all fun name =>
    x.1 == if name = [0x61] then 0 else 1)) = some (2, true) := by decide +kernel

theorem twoRun_handled : twoRun.map (fun w => decide (
    datagrams (w.own 0) = [⟨reader, TPacket.toBytes (.ack ⟨0⟩)⟩] ∧
    w.arrived 0 = datagrams (w.own 0) ++ [⟨reader, TPacket.toBytes (.ack ⟨1⟩)⟩] ∧
    datagrams (w.own 1) = [⟨writer, TPacket.toBytes (.data ⟨1, [0x78]⟩)⟩] ∧
    w.clients.map (·.id) = [0] ∧ w.alive 0 = true ∧ w.alive 1 = false)) = some true := by decide +kernel

theorem twoRun_sent : twoRun.map (fun w => decide (
    w.sent 0 = [(reader, .data ⟨1, [0x68, 0x69]⟩)] ∧
    w.sent 1 = [(writer, .ack ⟨0⟩), (writer, .ack ⟨1⟩)] ∧
    w.files [0x62] = some (.ofBytes [0x78]))) = some true := by decide +kernel

theorem sessions_independent_two : ∃ w : World Bytes,
    (datagrams (w.own 0) = [⟨reader, TPacket.toBytes (.ack ⟨0⟩)⟩] ∧
      w.arrived 0 = datagrams (w.own 0) ++ [⟨reader, TPacket.toBytes (.ack ⟨1⟩)⟩] ∧
      datagrams (w.own 1) = [⟨writer, TPacket.toBytes (.data ⟨1, [0x78]⟩)⟩] ∧
      w.clients.map (·.id) = [0] ∧ w.alive 0 = true ∧ w.alive 1 = false) ∧
    (w.sent 0 = [(reader, .data ⟨1, [0x68, 0x69]⟩)] ∧
      w.sent 1 = [(writer, .ack ⟨0⟩), (writer, .ack ⟨1⟩)] ∧
      w.files [0x62] = some (.ofBytes [0x78])) ∧
    ∀ id, w.sent id = (alone twoSetup (w.own id)).1.sent ∧
      w.alive id = (alone twoSetup (w.own id)).1.alive ∧
      (∀ k, (family twoSetup w.log).used id k → w.files k = (alone twoSetup (w.own id)).2 k) ∧
      (∀ c ∈ w.clients, c.id = id → ∃ queue, w.sockets c.fd = some queue ∧
        datagrams (w.own id) ++ queue = w.arrived id) ∧
      datagrams (w.own id) <+: w.arrived id := by
  obtain ⟨w, hw, hlog⟩ := Option.map_eq_some_iff.mp twoRun_log
  rw [Prod.mk.injEq] at hlog
  have hhandled := twoRun_handled
  have hsent := twoRun_sent
  rw [hw, Option.map_some, Option.some.injEq, decide_eq_true_iff] at hhandled hsent
  have hr : (untimed twoSetup).Reachable w :=
    ⟨_, rfl, LTS.reach_of_runFn (fun _ _ h => by simpa using h) hw⟩
  have howner {i : Nat} {k : Bytes} (h : (family twoSetup w.log).used i k) :
      i = if k = [0x61] then 0 else 1 := by
    obtain ⟨x, hx, name, hname, rfl⟩ := (family_named twoSetup w.log i).used k h
    have := List.all_eq_true.mp hlog.2 (i, x) (mem_ownEvents.mp hx)
    simpa [hname] using this
  have hd : (family twoSetup w.log).Disjoint := fun i j k hi hj => (howner hi).trans (howner hj).symm
  exact ⟨w, hhandled, hsent, sessions_independent twoSetup hr hd⟩

end NetworksLab.L5.TftpPoll
