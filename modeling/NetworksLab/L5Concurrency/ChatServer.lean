import Mathlib.Logic.Function.Basic
import NetworksLab.Core.LTS
import NetworksLab.Core.SwapPop
import NetworksLab.L3Protocol.ChatMessage

/-!
# The chat server (`tcp/lib/Server.cpp`)

`TServer::TImpl::Run` polls the accepting socket and the clients, accepts a
client (`AcceptClient` replays the history to it) and takes one message from
a readable client (`AcceptMessage` broadcasts it, or removes the client).

**World.** The server's vectors, the kernel's connections and the index of the
`for` loop. A step is one event of the environment (a peer connects, sends,
closes; the kernel hands its unread bytes out in other pieces), one `poll` or
one iteration of the loop. An iteration whose call does not return is no step:
the server waits, or has died of an exception, until the environment moves.

Results:
* `ClientRule.reachable`: an invariant of single clients, checked event by
  event, holds of every client in every run; the vectors stay parallel.
* `broadcast_history`: every client has been sent the history, over every run
  in which the socket writes succeed.
-/
namespace NetworksLab.L5.ChatServer
open NetworksLab.L2.SocketWrapper
open NetworksLab.L3.ChatMessage

/-! ## The server -/

/-- A `pollfd` whose `events` is `POLLIN`; `revents` is the `POLLIN` bit. -/
structure PollFD where
  fd : Nat
  revents : Bool
  deriving DecidableEq, Repr

/-- A `TFileDescriptorSocket` on the heap: its address and `FD_`.
mirrors tcp/lib/Socket.h:32-41 -/
structure FileDescriptorSocket where
  addr : Nat
  fd : Nat
  deriving DecidableEq, Repr

/-- mirrors tcp/lib/Server.cpp:110,174-177 -/
structure TImpl where
  acceptingSocketFD : Nat
  pollFDs : List PollFD
  clientSockets : List FileDescriptorSocket
  clientWrappers : List TSocketWrapper
  messages : List TMessage
  deriving DecidableEq, Repr

/-- A connection, with all that its peer has sent so far. -/
structure Link where
  conn : Conn
  arrived : Bytes
  deriving DecidableEq, Repr

/-- Connections waiting for `accept`, and the open ones by descriptor. -/
structure Kernel where
  backlog : List Link
  links : Nat → Option Link

/-- `Socket_` of a wrapper: the descriptor, and the link behind it. -/
def TImpl.link (srv : TImpl) (k : Kernel) (w : TSocketWrapper) : Except Stop (Nat × Link) :=
  match srv.clientSockets.find? (fun s => s.addr = w.socket) with
  | none => throw .outOfRange
  | some s =>
    match k.links s.fd with
    | none => throw .outOfRange
    | some l => return (s.fd, l)

/-- The connection of an open descriptor after a call. -/
def Kernel.put (k : Kernel) (fd : Nat) (l : Link) (c : Conn) : Kernel :=
  { k with links := Function.update k.links fd (some { l with conn := c }) }

/-- mirrors tcp/lib/Server.cpp:113-140 (`fd` and `addr` come from `accept` and `new`) -/
def acceptClient (srv : TImpl) (k : Kernel) (fd addr : Nat) : Except Stop (TImpl × Kernel) :=
  match k.backlog with
  | [] => throw .blocked
  | l :: backlog => do
    let c ← serializeAll srv.messages l.conn
    return ({ srv with
        pollFDs := srv.pollFDs ++ [⟨fd, false⟩]
        clientSockets := srv.clientSockets ++ [⟨addr, fd⟩]
        clientWrappers := srv.clientWrappers ++ [.make addr] },
      { k with backlog := backlog }.put fd l c)

/-- The `for` loop of `AcceptMessage`.
mirrors tcp/lib/Server.cpp:167-169 -/
def broadcast (srv : TImpl) (message : TMessage) : List TSocketWrapper → Kernel → Except Stop Kernel
  | [], k => return k
  | client :: clients, k => do
    let (fd, l) ← srv.link k client
    let c ← serialize message l.conn
    broadcast srv message clients (k.put fd l c)

/-- The destructor of a socket, if there is one: `close`.
mirrors tcp/lib/Socket.cpp:23-25 -/
def Kernel.release (k : Kernel) (socket : Option FileDescriptorSocket) : Kernel :=
  { k with links := socket.elim k.links fun s => Function.update k.links s.fd none }

/-- Behind the swap, `clientSockets_` lets go of the socket that stood at `sockId`.
mirrors tcp/lib/Server.cpp:146-159 -/
def bye (srv : TImpl) (k : Kernel) (i sockId : Nat) : TImpl × Kernel :=
  ({ srv with
      clientWrappers := swapPop sockId srv.clientWrappers
      clientSockets := swapPop sockId srv.clientSockets
      pollFDs := swapPop i srv.pollFDs },
    k.release srv.clientSockets[sockId]?)

/-- One loop iteration more than there are pieces is enough for each read of
`ReadMessage`. `time` is the clock.
mirrors tcp/lib/Server.cpp:142-172 -/
def acceptMessage (srv : TImpl) (k : Kernel) (i : Nat) (time unset : Int64) : Except Stop (TImpl × Kernel) := do
  let sockId := i - 1
  match srv.clientWrappers[sockId]? with
  | none => throw .outOfRange
  | some w => do
    let (fd, l) ← srv.link k w
    let (maybeMessage, w, c) ← readMessage unset (l.conn.unread.length + 1) w l.conn
    let srv := { srv with clientWrappers := srv.clientWrappers.set sockId w }
    let k := k.put fd l c
    match maybeMessage with
    | none => return bye srv k i sockId
    | some message => do
      let message := { message with accepted := time }
      let k ← broadcast srv message srv.clientWrappers k
      return ({ srv with messages := srv.messages ++ [message] }, k)

/-- What an unset timestamp holds does not matter: the clock overwrites it. -/
theorem acceptMessage_unset (srv : TImpl) (k : Kernel) (i : Nat) (time unset unset' : Int64) :
    acceptMessage srv k i time unset = acceptMessage srv k i time unset' := by
  rw [acceptMessage, acceptMessage]
  cases srv.clientWrappers[i - 1]? with
  | none => rfl
  | some w =>
    refine bind_congr fun link => ?_
    refine bind_eq_of_map_eq (readMessage_unset unset unset' time _ w link.2.conn) ?_
    intro a b hab
    obtain ⟨r, w', c'⟩ := a
    obtain ⟨r', v', d'⟩ := b
    obtain ⟨hr, hwc⟩ := Prod.mk.inj hab
    obtain ⟨rfl, rfl⟩ := Prod.mk.inj hwc
    cases r with
    | none =>
      cases r' with
      | none => rfl
      | some m => cases hr
    | some m =>
      cases r' with
      | none => cases hr
      | some m' =>
        have hm : ({ m with accepted := time } : TMessage) = { m' with accepted := time } := Option.some.inj hr
        dsimp only
        rw [hm]

/-! ## The world -/

/-- `i` is the index of the `for` loop, `none` in front of `poll`. -/
structure World where
  srv : TImpl
  kernel : Kernel
  i : Option Nat

inductive Label where
  /-- a peer connects; `quota` is how its socket will accept writes -/
  | connect (quota : List Int)
  /-- a peer sends -/
  | arrive (fd : Nat) (p : Piece)
  /-- the kernel hands out the unread bytes in other pieces -/
  | recut (fd : Nat) (ps : List Piece)
  /-- a peer closes, or its connection breaks -/
  | hangup (fd : Nat) (e : PeerEnd)
  | poll
  /-- one iteration, with what `accept`, `new` and `std::time` would return -/
  | visit (fd addr : Nat) (time : Int64)
  deriving DecidableEq, Repr

/-- `POLLIN` is set: a `read` or `accept` would not block. -/
def Kernel.ready (k : Kernel) (acceptingFD fd : Nat) : Bool :=
  if fd = acceptingFD then !k.backlog.isEmpty
  else
    match k.links fd with
    | some l => !l.conn.unread.isEmpty || l.conn.peer != .pending
    | none => false

/-- mirrors tcp/lib/Server.cpp:52 -/
def poll (srv : TImpl) (k : Kernel) : TImpl :=
  { srv with pollFDs := srv.pollFDs.map fun p => { p with revents := k.ready srv.acceptingSocketFD p.fd } }

/-- The body of the `for` loop. What an unset timestamp holds is overwritten
(`acceptMessage_unset`), so it may as well be 0.
mirrors tcp/lib/Server.cpp:59-66 -/
def visit (srv : TImpl) (k : Kernel) (i : Nat) (p : PollFD) (fd addr : Nat) (time : Int64) :
    Except Stop (TImpl × Kernel) :=
  if p.revents = false then return (srv, k)
  else if p.fd = srv.acceptingSocketFD then acceptClient srv k fd addr
  else acceptMessage srv k i time 0

/-- A descriptor from `accept` and an address from `new` are not in use. -/
def Fresh (s : World) (fd addr : Nat) : Prop :=
  fd ≠ s.srv.acceptingSocketFD ∧ s.kernel.links fd = none ∧ ∀ x ∈ s.srv.clientSockets, x.addr ≠ addr

instance (s : World) (fd addr : Nat) : Decidable (Fresh s fd addr) :=
  inferInstanceAs (Decidable (_ ∧ _ ∧ _))

/-- Something happens on a link at the peer's end. -/
def World.feed (s : World) (fd : Nat) (l : Link) : World :=
  { s with kernel := { s.kernel with links := Function.update s.kernel.links fd (some l) } }

/-- mirrors tcp/lib/Server.cpp:51-68 (`visit`, `poll`); the other labels are the
environment's -/
def step (s : World) : Label → Option World
  | .connect quota =>
    some { s with kernel := { s.kernel with backlog := s.kernel.backlog ++ [⟨⟨[], .pending, quota, []⟩, []⟩] } }
  | .arrive fd p =>
    match s.kernel.links fd with
    | some l =>
      if l.conn.peer = .pending then
        some (s.feed fd ⟨l.conn.without (l.conn.unread ++ [p]), l.arrived ++ p.val⟩)
      else none
    | none => none
  | .recut fd ps =>
    match s.kernel.links fd with
    | some l =>
      if bytesOf ps = bytesOf l.conn.unread then some (s.feed fd { l with conn := l.conn.without ps })
      else none
    | none => none
  | .hangup fd e =>
    match s.kernel.links fd with
    | some l =>
      if l.conn.peer = .pending then some (s.feed fd { l with conn := { l.conn with peer := e } })
      else none
    | none => none
  | .poll =>
    match s.i with
    | none =>
      if (poll s.srv s.kernel).pollFDs.any (·.revents) then
        some { s with srv := poll s.srv s.kernel, i := some 0 }
      else none
    | some _ => none
  | .visit fd addr time =>
    match s.i with
    | none => none
    | some i =>
      match s.srv.pollFDs[i]? with
      | none => some { s with i := none }
      | some p =>
        if Fresh s fd addr then
          match visit s.srv s.kernel i p fd addr time with
          | .ok (srv, kernel) => some ⟨srv, kernel, some (i + 1)⟩
          | .error _ => none
        else none

/-- Behind `InitAcceptingSocket`, `listen` and the first `emplace_back`.
mirrors tcp/lib/Server.cpp:36-49 -/
def Init (s : World) : Prop :=
  s.srv.pollFDs = [⟨s.srv.acceptingSocketFD, false⟩] ∧ s.srv.clientSockets = [] ∧
    s.srv.clientWrappers = [] ∧ s.srv.messages = [] ∧ s.kernel.backlog = [] ∧
    (∀ fd, s.kernel.links fd = none) ∧ s.i = none

def server : LTS World Label := .ofFn Init step

/-- All that a step can be. -/
inductive Step (s : World) : Label → World → Prop
  | connect (quota : List Int) : Step s (.connect quota)
      { s with kernel := { s.kernel with backlog := s.kernel.backlog ++ [⟨⟨[], .pending, quota, []⟩, []⟩] } }
  | arrive {fd : Nat} {p : Piece} {l : Link} (hl : s.kernel.links fd = some l)
      (hp : l.conn.peer = .pending) :
      Step s (.arrive fd p) (s.feed fd ⟨l.conn.without (l.conn.unread ++ [p]), l.arrived ++ p.val⟩)
  | recut {fd : Nat} {ps : List Piece} {l : Link} (hl : s.kernel.links fd = some l)
      (hb : bytesOf ps = bytesOf l.conn.unread) :
      Step s (.recut fd ps) (s.feed fd { l with conn := l.conn.without ps })
  | hangup {fd : Nat} {e : PeerEnd} {l : Link} (hl : s.kernel.links fd = some l) :
      Step s (.hangup fd e) (s.feed fd { l with conn := { l.conn with peer := e } })
  | poll (hi : s.i = none) : Step s .poll { s with srv := poll s.srv s.kernel, i := some 0 }
  | roundOver {i fd addr : Nat} {time : Int64} (hi : s.i = some i) (hp : s.srv.pollFDs[i]? = none) :
      Step s (.visit fd addr time) { s with i := none }
  | skip {i fd addr : Nat} {time : Int64} {p : PollFD} (hi : s.i = some i)
      (hp : s.srv.pollFDs[i]? = some p) (hr : p.revents = false) :
      Step s (.visit fd addr time) { s with i := some (i + 1) }
  | accept {i fd addr : Nat} {time : Int64} {p : PollFD} {srv' : TImpl} {k' : Kernel}
      (hi : s.i = some i) (hp : s.srv.pollFDs[i]? = some p) (hfd : p.fd = s.srv.acceptingSocketFD)
      (hf : Fresh s fd addr) (he : acceptClient s.srv s.kernel fd addr = .ok (srv', k')) :
      Step s (.visit fd addr time) ⟨srv', k', some (i + 1)⟩
  | message {i fd addr : Nat} {time : Int64} {p : PollFD} {srv' : TImpl} {k' : Kernel}
      (hi : s.i = some i) (hp : s.srv.pollFDs[i]? = some p) (hfd : p.fd ≠ s.srv.acceptingSocketFD)
      (he : acceptMessage s.srv s.kernel i time 0 = .ok (srv', k')) :
      Step s (.visit fd addr time) ⟨srv', k', some (i + 1)⟩

theorem visit_cases {s s' : World} {i fd addr : Nat} {p : PollFD} {time : Int64} (hi : s.i = some i)
    (hp : s.srv.pollFDs[i]? = some p) (hs : step s (.visit fd addr time) = some s') :
    Step s (.visit fd addr time) s' := by
  simp only [step, hi, hp] at hs
  split at hs
  · rename_i hf
    split at hs <;> cases hs
    rename_i he
    unfold visit at he
    split at he
    · rename_i hr
      cases he
      exact .skip hi hp hr
    · split at he
      · rename_i hfd
        exact .accept hi hp hfd hf he
      · rename_i hfd
        exact .message hi hp hfd he
  · cases hs

theorem step_cases {s s' : World} {a : Label} (hs : step s a = some s') : Step s a s' := by
  cases a with
  | connect quota =>
    cases hs
    exact .connect quota
  | arrive fd p =>
    simp only [step] at hs
    split at hs
    · rename_i l hl
      split at hs <;> cases hs
      rename_i hp
      exact .arrive hl hp
    · cases hs
  | recut fd ps =>
    simp only [step] at hs
    split at hs
    · rename_i l hl
      split at hs <;> cases hs
      rename_i hb
      exact .recut hl hb
    · cases hs
  | hangup fd e =>
    simp only [step] at hs
    split at hs
    · rename_i l hl
      split at hs <;> cases hs
      exact .hangup hl
    · cases hs
  | poll =>
    simp only [step] at hs
    split at hs
    · rename_i hi
      split at hs <;> cases hs
      exact .poll hi
    · cases hs
  | visit fd addr time =>
    cases hi : s.i with
    | none =>
      simp only [step, hi] at hs
      cases hs
    | some i =>
      cases hp : s.srv.pollFDs[i]? with
      | none =>
        simp only [step, hi, hp] at hs
        cases hs
        exact .roundOver hi hp
      | some p => exact visit_cases hi hp hs

/-! ## The vectors stay parallel -/

/-- `pollFDs_` is the accepting socket and then the clients, `clientWrappers_`
has their wrappers in the same order, and nothing occurs twice. -/
structure Parallel (srv : TImpl) : Prop where
  polled : ∃ p ps, srv.pollFDs = p :: ps ∧ p.fd = srv.acceptingSocketFD ∧
    ps.map (·.fd) = srv.clientSockets.map (·.fd)
  wrappers : srv.clientWrappers.map (·.socket) = srv.clientSockets.map (·.addr)
  addrs : (srv.clientSockets.map (·.addr)).Nodup
  fds : (srv.clientSockets.map (·.fd)).Nodup
  accepting : srv.acceptingSocketFD ∉ srv.clientSockets.map (·.fd)

theorem Parallel.length {srv : TImpl} (h : Parallel srv) :
    srv.clientWrappers.length = srv.clientSockets.length := by
  simpa using congrArg List.length h.wrappers

/-- A wrapper's address finds its own socket. -/
theorem Parallel.find {srv : TImpl} (h : Parallel srv) {x : FileDescriptorSocket}
    (hx : x ∈ srv.clientSockets) : srv.clientSockets.find? (fun s => s.addr = x.addr) = some x := by
  obtain ⟨y, hy⟩ : ∃ y, srv.clientSockets.find? (fun s => s.addr = x.addr) = some y :=
    Option.isSome_iff_exists.mp (List.find?_isSome.mpr ⟨x, hx, by simp⟩)
  have haddr : y.addr = x.addr := by simpa using List.find?_some hy
  rw [hy, List.inj_on_of_nodup_map h.addrs (List.mem_of_find?_eq_some hy) hx haddr]

theorem Parallel.link {srv : TImpl} (h : Parallel srv) {k : Kernel} {w : TSocketWrapper}
    {x : FileDescriptorSocket} {l : Link} (hx : x ∈ srv.clientSockets) (ha : w.socket = x.addr)
    (hl : k.links x.fd = some l) : srv.link k w = .ok (x.fd, l) := by
  simp only [TImpl.link, ha, h.find hx, hl]; rfl

/-- The socket at the place of a wrapper. -/
theorem Parallel.socket {srv : TImpl} (h : Parallel srv) {j : Nat} {w : TSocketWrapper}
    (hw : srv.clientWrappers[j]? = some w) : ∃ x, srv.clientSockets[j]? = some x ∧ w.socket = x.addr := by
  obtain ⟨x, hx, ha⟩ := exists_getElem?_of_map_eq h.wrappers hw
  exact ⟨x, hx, ha.symm⟩

theorem Parallel.wrapper {srv : TImpl} (h : Parallel srv) {j : Nat} {x : FileDescriptorSocket}
    (hx : srv.clientSockets[j]? = some x) : ∃ w, srv.clientWrappers[j]? = some w := by
  obtain ⟨w, hw, -⟩ := exists_getElem?_of_map_eq h.wrappers.symm hx
  exact ⟨w, hw⟩

theorem Parallel.poll {srv : TImpl} (h : Parallel srv) (k : Kernel) : Parallel (poll srv k) := by
  obtain ⟨p, ps, hp, hfd, hps⟩ := h.polled
  have hmap := congrArg (List.map fun p =>
    { p with revents := k.ready srv.acceptingSocketFD p.fd : PollFD }) hp
  rw [List.map_cons] at hmap
  refine ⟨⟨_, _, hmap, hfd, ?_⟩, h.wrappers, h.addrs, h.fds, h.accepting⟩
  rw [List.map_map]
  exact hps

theorem Parallel.accept {srv : TImpl} (h : Parallel srv) {fd addr : Nat}
    (hacc : fd ≠ srv.acceptingSocketFD) (hfd : fd ∉ srv.clientSockets.map (·.fd))
    (haddr : ∀ x ∈ srv.clientSockets, x.addr ≠ addr) :
    Parallel { srv with
      pollFDs := srv.pollFDs ++ [⟨fd, false⟩]
      clientSockets := srv.clientSockets ++ [⟨addr, fd⟩]
      clientWrappers := srv.clientWrappers ++ [.make addr] } := by
  obtain ⟨p, ps, hp, hpfd, hps⟩ := h.polled
  have haddr' : addr ∉ srv.clientSockets.map (·.addr) := by
    rw [List.mem_map]; rintro ⟨x, hx, he⟩; exact haddr x hx he
  refine ⟨⟨p, ps ++ [⟨fd, false⟩], by simp [hp], hpfd, by simp [hps]⟩, ?_, ?_, ?_, ?_⟩
  · simp [h.wrappers, TSocketWrapper.make]
  · rw [List.map_append]; exact h.addrs.append (List.nodup_singleton _) (by simpa using haddr')
  · rw [List.map_append]; exact h.fds.append (List.nodup_singleton _) (by simpa using hfd)
  · rw [List.map_append, List.mem_append, not_or]
    exact ⟨h.accepting, by simpa using hacc.symm⟩

/-- The server after a `ReadMessage` on wrapper `j`. -/
def TImpl.setWrapper (srv : TImpl) (j : Nat) (w : TSocketWrapper) : TImpl :=
  { srv with clientWrappers := srv.clientWrappers.set j w }

theorem Parallel.setWrapper {srv : TImpl} (h : Parallel srv) {j : Nat} {w w' : TSocketWrapper}
    (hw : srv.clientWrappers[j]? = some w) (hs : w'.socket = w.socket) :
    Parallel (srv.setWrapper j w') := by
  refine ⟨h.polled, ?_, h.addrs, h.fds, h.accepting⟩
  have hj : (srv.clientWrappers.map (·.socket))[j]? = some w'.socket := by
    rw [List.getElem?_map, hw, Option.map_some, hs]
  obtain ⟨hlt, he⟩ := List.getElem?_eq_some_iff.mp hj
  simp only [TImpl.setWrapper, List.map_set, ← he, List.set_getElem_self]
  exact h.wrappers

theorem Parallel.bye {srv : TImpl} (h : Parallel srv) (k : Kernel) {j : Nat}
    (hj : j < srv.clientSockets.length) : Parallel (bye srv k (j + 1) j).1 := by
  obtain ⟨p, ps, hp, hpfd, hps⟩ := h.polled
  have hlen : j < ps.length := by
    have := congrArg List.length hps
    simp only [List.length_map] at this; omega
  refine ⟨⟨p, swapPop j ps, ?_, hpfd, ?_⟩, ?_, ?_, ?_, fun hm => ?_⟩
  · simp only [ChatServer.bye, hp, swapPop_cons hlen]
  · simp only [ChatServer.bye, map_swapPop, hps]
  · simp only [ChatServer.bye, map_swapPop, h.wrappers]
  · simp only [ChatServer.bye, map_swapPop]
    exact nodup_swapPop (by simpa using hj) h.addrs
  · simp only [ChatServer.bye, map_swapPop]
    exact nodup_swapPop (by simpa using hj) h.fds
  · simp only [ChatServer.bye, map_swapPop] at hm
    exact h.accepting (mem_of_mem_swapPop (by simpa using hj) hm)

/-- The entry of a client in `pollFDs_` is not the first. -/
theorem Parallel.client_index {srv : TImpl} (h : Parallel srv) {i : Nat} {p : PollFD}
    (hp : srv.pollFDs[i]? = some p) (hne : p.fd ≠ srv.acceptingSocketFD) : ∃ j, i = j + 1 := by
  obtain ⟨q, ps, hq, hqfd, -⟩ := h.polled
  cases i with
  | zero =>
    rw [hq, List.getElem?_cons_zero] at hp
    obtain rfl := Option.some.inj hp
    exact absurd hqfd hne
  | succ j => exact ⟨j, rfl⟩

/-! ## The clients -/

/-- `P` holds of every client, as its wrapper and its link. -/
def Clients (P : TSocketWrapper → Link → Prop) (srv : TImpl) (k : Kernel) : Prop :=
  ∀ w x, (w, x) ∈ srv.clientWrappers.zip srv.clientSockets → ∃ l, k.links x.fd = some l ∧ P w l

theorem mem_zip_of_getElem? {α β : Type} {a : List α} {b : List β} {j : Nat} {x : α} {y : β}
    (hx : a[j]? = some x) (hy : b[j]? = some y) : (x, y) ∈ a.zip b :=
  List.mem_of_getElem? (i := j) (List.getElem?_zip_eq_some.mpr ⟨hx, hy⟩)

theorem Kernel.put_self (k : Kernel) (fd : Nat) (l : Link) (c : Conn) :
    (k.put fd l c).links fd = some { l with conn := c } := Function.update_self _ _ _

theorem Kernel.put_of_ne (k : Kernel) {fd fd' : Nat} (l : Link) (c : Conn) (h : fd' ≠ fd) :
    (k.put fd l c).links fd' = k.links fd' := Function.update_of_ne h _ _

section
variable {P : TSocketWrapper → Link → Prop} {srv : TImpl} {k : Kernel}

/-- The descriptors of the clients are open. -/
theorem Clients.opened (h : Clients P srv k) (hp : Parallel srv) {x : FileDescriptorSocket}
    (hx : x ∈ srv.clientSockets) : ∃ w l, k.links x.fd = some l ∧ P w l := by
  obtain ⟨j, hj⟩ := List.mem_iff_getElem?.mp hx
  obtain ⟨w, hw⟩ := hp.wrapper hj
  exact ⟨w, h w x (mem_zip_of_getElem? hw hj)⟩

/-- Something happens at the other end of a link. -/
theorem Clients.relink (h : Clients P srv k) {fd : Nat} {l l' : Link} (hl : k.links fd = some l)
    (hP : ∀ w, P w l → P w l') :
    Clients P srv { k with links := Function.update k.links fd (some l') } := by
  intro w x hx
  obtain ⟨lx, hlx, hPx⟩ := h w x hx
  by_cases he : x.fd = fd
  · subst he
    obtain rfl := Option.some.inj (hl.symm.trans hlx)
    exact ⟨l', Function.update_self _ _ _, hP w hPx⟩
  · exact ⟨lx, (Function.update_of_ne he _ _).trans hlx, hPx⟩

theorem Clients.accept (h : Clients P srv k) (hp : Parallel srv) {fd addr : Nat} {l : Link}
    {c : Conn} (hfd : k.links fd = none) (hP : P (.make addr) { l with conn := c })
    (backlog : List Link) (fds : List PollFD) :
    Clients P { srv with
        pollFDs := fds
        clientSockets := srv.clientSockets ++ [⟨addr, fd⟩]
        clientWrappers := srv.clientWrappers ++ [.make addr] }
      ({ k with backlog := backlog }.put fd l c) := by
  intro w x hx
  simp only [List.zip_append hp.length, List.mem_append, List.zip_cons_cons, List.zip_nil_right,
    List.mem_singleton, Prod.mk.injEq] at hx
  rcases hx with hx | ⟨rfl, rfl⟩
  · obtain ⟨lx, hlx, hPx⟩ := h w x hx
    have hne : x.fd ≠ fd := fun he => by rw [he, hfd] at hlx; cases hlx
    exact ⟨lx, (Kernel.put_of_ne _ l c hne).trans hlx, hPx⟩
  · exact ⟨_, Kernel.put_self _ fd l c, hP⟩

/-- A client reads; the other clients are not concerned. -/
theorem Clients.setWrapper (h : Clients P srv k) (hp : Parallel srv) {j : Nat}
    {x : FileDescriptorSocket} {l : Link} {w' : TSocketWrapper} {c' : Conn}
    (hx : srv.clientSockets[j]? = some x) (hP : P w' { l with conn := c' }) :
    Clients P (srv.setWrapper j w') (k.put x.fd l c') := by
  intro v y hy
  obtain ⟨i, hi⟩ := List.mem_iff_getElem?.mp hy
  obtain ⟨hv, hy⟩ := List.getElem?_zip_eq_some.mp hi
  simp only [TImpl.setWrapper] at hv hy
  rw [List.getElem?_set] at hv
  split at hv
  · rename_i hij
    subst hij
    obtain rfl := Option.some.inj (hx.symm.trans hy)
    split at hv <;> cases hv
    exact ⟨_, Kernel.put_self k _ l c', hP⟩
  · rename_i hij
    obtain ⟨ly, hly, hPy⟩ := h v y (mem_zip_of_getElem? hv hy)
    have hj : j < (srv.clientSockets.map (·.fd)).length := by
      rw [List.length_map]; exact (List.getElem?_eq_some_iff.mp hx).1
    have hne : y.fd ≠ x.fd := fun he => hij ((List.getElem?_inj hj hp.fds).mp (by
      rw [List.getElem?_map, List.getElem?_map, hx, hy, Option.map_some, Option.map_some, he]))
    exact ⟨ly, (Kernel.put_of_ne k l c' hne).trans hly, hPy⟩

theorem Clients.bye (h : Clients P srv k) (hp : Parallel srv) {i j : Nat} {x : FileDescriptorSocket}
    (hx : srv.clientSockets[j]? = some x) :
    Clients P (bye srv k i j).1 (bye srv k i j).2 := by
  intro v y hy
  obtain ⟨hj, hxj⟩ := List.getElem?_eq_some_iff.mp hx
  simp only [ChatServer.bye, zip_swapPop hp.length] at hy
  have hzip : j < (srv.clientWrappers.zip srv.clientSockets).length := by
    rw [List.length_zip, hp.length, Nat.min_self]; exact hj
  obtain ⟨ly, hly, hPy⟩ := h v y (mem_of_mem_swapPop hzip hy)
  have hsnd : (srv.clientWrappers.zip srv.clientSockets).map Prod.snd = srv.clientSockets :=
    List.map_snd_zip (by rw [hp.length])
  have hleft : y ∈ swapPop j srv.clientSockets := by
    have := List.mem_map_of_mem (f := Prod.snd) hy
    rwa [map_swapPop, hsnd] at this
  have hgone : y.fd ≠ x.fd := fun he => by
    have hmem := List.mem_map_of_mem (f := (·.fd)) hleft
    rw [map_swapPop, he] at hmem
    have hnot := not_mem_swapPop (i := j) (by simpa using hj) hp.fds
    simp only [List.getElem_map, hxj] at hnot
    exact hnot hmem
  have hopen : (ChatServer.bye srv k i j).2.links y.fd = k.links y.fd := by
    simp only [ChatServer.bye, hx, Kernel.release, Option.elim_some]
    exact Function.update_of_ne hgone _ _
  exact ⟨ly, hopen.trans hly, hPy⟩

/-- What a client read before it is removed is gone with it. -/
theorem bye_setWrapper (k : Kernel) (i : Nat) {j : Nat} {x : FileDescriptorSocket}
    (hx : srv.clientSockets[j]? = some x) (w : TSocketWrapper) (l : Link) (c : Conn) :
    bye (srv.setWrapper j w) (k.put x.fd l c) i j = bye srv k i j := by
  simp only [ChatServer.bye, TImpl.setWrapper, Kernel.put, swapPop_set, hx, Kernel.release,
    Option.elim_some, Function.update_idem]

/-- The broadcast serializes to every client it is given once, and to nobody else. -/
theorem broadcast_spec (hp : Parallel srv) (m : TMessage) :
    ∀ (xs : List FileDescriptorSocket) (ws : List TSocketWrapper) (k k' : Kernel),
    ws.map (·.socket) = xs.map (·.addr) → xs ⊆ srv.clientSockets → (xs.map (·.fd)).Nodup →
    (∀ x ∈ xs, ∃ l, k.links x.fd = some l) → broadcast srv m ws k = .ok k' →
    k'.backlog = k.backlog ∧ (∀ fd, fd ∉ xs.map (·.fd) → k'.links fd = k.links fd) ∧
      ∀ x ∈ xs, ∀ l, k.links x.fd = some l →
        ∃ c', serialize m l.conn = .ok c' ∧ k'.links x.fd = some { l with conn := c' } := by
  intro xs
  induction xs with
  | nil =>
    intro ws k k' hw _ _ _ h
    obtain rfl : ws = [] := by simpa using hw
    cases h
    exact ⟨rfl, fun _ _ => rfl, by simp⟩
  | cons x xs ih =>
    intro ws k k' hw hsub hnd hg h
    obtain ⟨w, ws, rfl, hwx, hws⟩ := List.map_eq_cons_iff.mp hw
    obtain ⟨l, hl⟩ := hg x List.mem_cons_self
    rw [List.map_cons, List.nodup_cons] at hnd
    have hne : ∀ y ∈ xs, y.fd ≠ x.fd := fun y hy he => hnd.1 (he ▸ List.mem_map_of_mem hy)
    rw [broadcast, ok_bind (hp.link (hsub List.mem_cons_self) hwx hl)] at h
    obtain ⟨c', hc', h⟩ := bind_ok h
    obtain ⟨hb, hrest, hall⟩ := ih ws (k.put x.fd l c') k' hws
      (fun y hy => hsub (List.mem_cons_of_mem _ hy)) hnd.2
      (fun y hy => by
        rw [Kernel.put_of_ne k l c' (hne y hy)]
        exact hg y (List.mem_cons_of_mem _ hy)) h
    refine ⟨hb, fun fd hfd => ?_, fun y hy ly hly => ?_⟩
    · rw [List.map_cons, List.mem_cons, not_or] at hfd
      rw [hrest fd hfd.2, Kernel.put_of_ne k l c' hfd.1]
    · rcases List.mem_cons.mp hy with rfl | hy
      · obtain rfl := Option.some.inj (hl.symm.trans hly)
        exact ⟨c', hc', by rw [hrest _ hnd.1, Kernel.put_self]⟩
      · exact hall y hy ly (by rw [Kernel.put_of_ne k l c' (hne y hy), hly])

theorem Clients.broadcast (h : Clients P srv k) (P' : TSocketWrapper → Link → Prop) {k' : Kernel}
    {m : TMessage} (hp : Parallel srv) (hb : broadcast srv m srv.clientWrappers k = .ok k')
    (hP : ∀ w l c', P w l → serialize m l.conn = .ok c' → P' w { l with conn := c' }) :
    Clients P' srv k' ∧ k'.backlog = k.backlog := by
  have hopen : ∀ x ∈ srv.clientSockets, ∃ l, k.links x.fd = some l := fun x hx => by
    obtain ⟨w, l, hl, -⟩ := h.opened hp hx
    exact ⟨l, hl⟩
  obtain ⟨hbl, -, hall⟩ := broadcast_spec hp m srv.clientSockets _ k k' hp.wrappers
    (List.Subset.refl _) hp.fds hopen hb
  refine ⟨fun w x hx => ?_, hbl⟩
  obtain ⟨l, hl, hPl⟩ := h w x hx
  obtain ⟨c', hc', hl'⟩ := hall x (List.of_mem_zip hx).2 l hl
  exact ⟨_, hl', hP w l c' hPl hc'⟩

end

/-! ## A rule for every run -/

/-- The cases of an invariant `P` of single clients, which may speak of
`Messages_`; `Q` is what holds of a connection before `accept`. -/
structure ClientRule (C : World → Label → Prop) (Q : Link → Prop)
    (P : List TMessage → TSocketWrapper → Link → Prop) : Prop where
  connect : ∀ s quota, C s (.connect quota) → Q ⟨⟨[], .pending, quota, []⟩, []⟩
  accept : ∀ ms addr l c, Q l → serializeAll ms l.conn = .ok c → P ms (.make addr) { l with conn := c }
  arrive : ∀ s fd p l ms w, C s (.arrive fd p) → s.kernel.links fd = some l → l.conn.peer = .pending →
    P ms w l → P ms w ⟨l.conn.without (l.conn.unread ++ [p]), l.arrived ++ p.val⟩
  recut : ∀ ps l ms w, bytesOf ps = bytesOf l.conn.unread → P ms w l →
    P ms w { l with conn := l.conn.without ps }
  hangup : ∀ s fd e l ms w, C s (.hangup fd e) → s.kernel.links fd = some l → P ms w l →
    P ms w { l with conn := { l.conn with peer := e } }
  read : ∀ s fd addr time j x w l m w' c', C s (.visit fd addr time) → s.i = some (j + 1) →
    s.srv.clientWrappers[j]? = some w → s.srv.clientSockets[j]? = some x →
    s.kernel.links x.fd = some l → P s.srv.messages w l →
    readMessage 0 (l.conn.unread.length + 1) w l.conn = .ok (some m, w', c') →
    P s.srv.messages w' { l with conn := c' }
  send : ∀ ms w l m c, P ms w l → serialize m l.conn = .ok c → P (ms ++ [m]) w { l with conn := c }

structure Served (Q : Link → Prop) (P : List TMessage → TSocketWrapper → Link → Prop) (s : World) :
    Prop where
  parallel : Parallel s.srv
  waiting : ∀ l ∈ s.kernel.backlog, Q l
  clients : Clients (P s.srv.messages) s.srv s.kernel

/-- All that `AcceptMessage` can do when it returns. -/
theorem acceptMessage_cases {srv srv' : TImpl} {k k' : Kernel} {j : Nat} {time unset : Int64}
    (hp : Parallel srv) (he : acceptMessage srv k (j + 1) time unset = .ok (srv', k')) :
    ∃ w x l w' c', srv.clientWrappers[j]? = some w ∧ srv.clientSockets[j]? = some x ∧
      k.links x.fd = some l ∧
      ((readMessage unset (l.conn.unread.length + 1) w l.conn = .ok (none, w', c') ∧
          srv' = (bye srv k (j + 1) j).1 ∧ k' = (bye srv k (j + 1) j).2) ∨
        ∃ m, readMessage unset (l.conn.unread.length + 1) w l.conn = .ok (some m, w', c') ∧
          broadcast (srv.setWrapper j w') { m with accepted := time }
            (srv.setWrapper j w').clientWrappers (k.put x.fd l c') = .ok k' ∧
          srv' = { srv.setWrapper j w' with messages := srv.messages ++ [{ m with accepted := time }] }) := by
  unfold acceptMessage at he
  simp only [Nat.add_sub_cancel] at he
  split at he
  · cases he
  · rename_i w hw
    obtain ⟨⟨fd, l⟩, hlink, he⟩ := bind_ok he
    obtain ⟨x, hx, ha⟩ := hp.socket hw
    simp only [TImpl.link, ha, hp.find (List.mem_of_getElem? hx)] at hlink
    split at hlink
    · cases hlink
    · rename_i l' hl
      cases hlink
      obtain ⟨⟨r, w', c'⟩, hread, he⟩ := bind_ok he
      refine ⟨w, x, l, w', c', hw, hx, hl, ?_⟩
      cases r with
      | none =>
        have hbye := bye_setWrapper k (j + 1) hx w' l c'
        rw [← hbye]
        cases he
        exact .inl ⟨hread, rfl, rfl⟩
      | some m =>
        obtain ⟨k'', hk, he⟩ := bind_ok he
        cases he
        exact .inr ⟨m, hread, hk, rfl⟩

/-- The call for the client at index `j`. -/
theorem acceptMessage_eq {srv : TImpl} {k : Kernel} (hp : Parallel srv) {j : Nat} {w : TSocketWrapper}
    {x : FileDescriptorSocket} {l : Link} (time unset : Int64) (hw : srv.clientWrappers[j]? = some w)
    (hx : srv.clientSockets[j]? = some x) (hl : k.links x.fd = some l) :
    acceptMessage srv k (j + 1) time unset = (do
      let (maybeMessage, w', c') ← readMessage unset (l.conn.unread.length + 1) w l.conn
      match maybeMessage with
      | none => return bye (srv.setWrapper j w') (k.put x.fd l c') (j + 1) j
      | some m => do
        let k' ← broadcast (srv.setWrapper j w') { m with accepted := time }
          (srv.setWrapper j w').clientWrappers (k.put x.fd l c')
        return ({ srv.setWrapper j w' with messages := srv.messages ++ [{ m with accepted := time }] }, k')) := by
  obtain ⟨y, hy, ha⟩ := hp.socket hw
  obtain rfl := Option.some.inj (hx.symm.trans hy)
  simp only [acceptMessage, Nat.add_sub_cancel, hw]
  rw [ok_bind (hp.link (List.mem_of_getElem? hx) ha hl)]
  rfl

section
variable {C : World → Label → Prop} {Q : Link → Prop}
  {P : List TMessage → TSocketWrapper → Link → Prop}

theorem Served.feed {s : World} (h : Served Q P s) {fd : Nat} {l l' : Link}
    (hl : s.kernel.links fd = some l) (hP : ∀ w, P s.srv.messages w l → P s.srv.messages w l') :
    Served Q P (s.feed fd l') :=
  ⟨h.parallel, h.waiting, h.clients.relink hl hP⟩

theorem acceptClient_served (hr : ClientRule C Q P) {s : World} (h : Served Q P s) {fd addr : Nat}
    (hf : Fresh s fd addr) {srv' : TImpl} {k' : Kernel} (i' : Option Nat)
    (he : acceptClient s.srv s.kernel fd addr = .ok (srv', k')) : Served Q P ⟨srv', k', i'⟩ := by
  obtain ⟨hacc, hfd, haddr⟩ := hf
  have hnew : fd ∉ s.srv.clientSockets.map (·.fd) := fun hm => by
    obtain ⟨x, hx, rfl⟩ := List.mem_map.mp hm
    obtain ⟨w, l, hl, -⟩ := h.clients.opened h.parallel hx
    rw [hfd] at hl; cases hl
  unfold acceptClient at he
  split at he
  · cases he
  · rename_i l backlog hb
    obtain ⟨c, hc, he⟩ := bind_ok he
    cases he
    have hQ := h.waiting l (by rw [hb]; exact List.mem_cons_self)
    exact ⟨h.parallel.accept hacc hnew haddr,
      fun l' hl' => h.waiting l' (by rw [hb]; exact List.mem_cons_of_mem _ hl'),
      h.clients.accept h.parallel hfd (hr.accept _ addr l c hQ hc) backlog _⟩

theorem acceptMessage_served (hr : ClientRule C Q P) {s : World} (h : Served Q P s) {j fd addr : Nat}
    {time : Int64} (hC : C s (.visit fd addr time)) (hi : s.i = some (j + 1)) {srv' : TImpl}
    {k' : Kernel} (i' : Option Nat)
    (he : acceptMessage s.srv s.kernel (j + 1) time 0 = .ok (srv', k')) : Served Q P ⟨srv', k', i'⟩ := by
  obtain ⟨w, x, l, w', c', hw, hx, hl, hc⟩ := acceptMessage_cases h.parallel he
  rcases hc with ⟨-, rfl, rfl⟩ | ⟨m, hread, hbroad, rfl⟩
  · have hj := (List.getElem?_eq_some_iff.mp hx).1
    exact ⟨h.parallel.bye s.kernel hj, h.waiting,
      h.clients.bye h.parallel hx⟩
  · obtain ⟨l', hl', hP⟩ := h.clients w x (mem_zip_of_getElem? hw hx)
    obtain rfl := Option.some.inj (hl.symm.trans hl')
    have hset := h.parallel.setWrapper hw (readMessage_reads hread).socket
    have hcl := h.clients.setWrapper h.parallel hx
      (hr.read s fd addr time j x w l m w' c' hC hi hw hx hl hP hread)
    obtain ⟨hcl', hb⟩ := hcl.broadcast (P (s.srv.messages ++ [{ m with accepted := time }]))
      hset hbroad fun w l c' => hr.send _ w l _ c'
    exact ⟨⟨hset.polled, hset.wrappers, hset.addrs, hset.fds, hset.accepting⟩,
      fun l' hl' => h.waiting l' (by rw [hb] at hl'; exact hl'), hcl'⟩

/-- Step lemma. -/
theorem served_step (hr : ClientRule C Q P) {s s' : World} {a : Label} (h : Served Q P s) (hC : C s a)
    (hs : step s a = some s') : Served Q P s' := by
  cases step_cases hs with
  | connect quota =>
    refine ⟨h.parallel, fun l hl => ?_, h.clients⟩
    rcases List.mem_append.mp hl with hl | hl
    · exact h.waiting l hl
    · obtain rfl := List.mem_singleton.mp hl
      exact hr.connect s quota hC
  | arrive hl hp => exact h.feed hl fun w => hr.arrive s _ _ _ _ w hC hl hp
  | recut hl hb => exact h.feed hl fun w => hr.recut _ _ _ w hb
  | hangup hl => exact h.feed hl fun w => hr.hangup s _ _ _ _ w hC hl
  | poll hi => exact ⟨h.parallel.poll _, h.waiting, h.clients⟩
  | roundOver hi hp => exact ⟨h.parallel, h.waiting, h.clients⟩
  | skip hi hp hm => exact ⟨h.parallel, h.waiting, h.clients⟩
  | accept hi hp hfd hf he => exact acceptClient_served hr h hf _ he
  | message hi hp hfd he =>
    obtain ⟨j, rfl⟩ := h.parallel.client_index hp hfd
    exact acceptMessage_served hr h hC hi _ he

theorem init_served {s : World} (h : Init s) : Served Q P s := by
  obtain ⟨hp, hs, hw, hm, hb, hl, -⟩ := h
  refine ⟨⟨⟨_, [], hp, rfl, by simp [hs]⟩, by simp [hs, hw], by simp [hs], by simp [hs], by simp [hs]⟩,
    by simp [hb], fun w x hx => by simp [hs] at hx⟩

/-- What the rule checks of single clients holds in every run. -/
theorem ClientRule.reachable (hr : ClientRule C Q P) {s : World}
    (h : (server.restrict C).Reachable s) : Served Q P s := by
  have hind : (server.restrict C).Inductive (Served Q P) :=
    ⟨fun _ => init_served, fun _ _ _ hi hs => served_step hr hi hs.1 hs.2⟩
  exact hind.reachable s h

end

/-! ## What the clients have been sent -/

/-- The condition that the socket writes succeed: every call accepts something. -/
def WritesSucceed (_ : World) : Label → Prop
  | .connect quota => ∀ q ∈ quota, 0 < q
  | _ => True

/-- A link whose writes succeed and whose peer has been sent `b`. -/
def Link.Sent (l : Link) (b : Bytes) : Prop := l.conn.Good ∧ l.conn.taken = b

/-- A client has been sent the history. -/
theorem sent_rule : ClientRule WritesSucceed (·.Sent []) (fun ms _ l => l.Sent (ms.flatMap wire)) where
  connect _ _ hC := ⟨hC, rfl⟩
  accept ms addr l c hQ hc := by
    obtain ⟨hg, ht⟩ := hQ
    obtain ⟨c', hc', hd⟩ := serializeAll_sent ms hg
    obtain rfl := Except.ok.inj (hc.symm.trans hc')
    exact ⟨hd.good hg, by rw [hd.taken, ht, List.nil_append]⟩
  arrive _ _ _ _ _ _ _ _ _ hP := hP
  recut _ _ _ _ _ hP := hP
  hangup _ _ _ _ _ _ _ _ hP := hP
  read s _ _ _ _ _ w l m w' c' _ _ _ _ _ hP hread := by
    obtain ⟨-, hq, ht⟩ := (readMessage_reads hread).keeps
    exact ⟨by rw [Conn.Good, hq]; exact hP.1, ht.trans hP.2⟩
  send ms w l m c hP hc := by
    obtain ⟨hg, ht⟩ := hP
    obtain ⟨c', hc', hd⟩ := serialize_sent m hg.unfailing
    obtain rfl := Except.ok.inj (hc.symm.trans hc')
    refine ⟨hd.good hg, ?_⟩
    rw [hd.taken, ht, List.flatMap_append, List.flatMap_singleton]

/-- **The broadcast invariant.** In every run in which the socket writes
succeed, each connected client has been sent the serializations of all of
`Messages_`, in order, and nothing else. -/
theorem broadcast_history (s : World) (h : (server.restrict WritesSucceed).Reachable s) :
    ∀ x ∈ s.srv.clientSockets, ∃ l, s.kernel.links x.fd = some l ∧
      l.conn.taken = s.srv.messages.flatMap wire := by
  intro x hx
  have hs := sent_rule.reachable h
  obtain ⟨w, l, hl, -, ht⟩ := hs.clients.opened hs.parallel hx
  exact ⟨l, hl, ht⟩

/-- A fresh server that listens on descriptor 3. -/
def listening : World := ⟨⟨3, [⟨3, false⟩], [], [], []⟩, ⟨[], fun _ => none⟩, none⟩

theorem listening_init : Init listening := ⟨rfl, rfl, rfl, rfl, rfl, fun _ => rfl, rfl⟩

/-- Two clients, the second behind a message of the first, whose socket takes
one byte of the answer at first. -/
def twoClients : List Label :=
  [.connect [1], .poll, .visit 4 0 0, .visit 9 9 0, .visit 9 9 0,
   .arrive 4 ⟨ascii "3\nA\n0\nhi\n", by decide⟩, .connect [], .poll,
   .visit 5 1 0, .visit 9 9 77, .visit 9 9 0, .visit 9 9 0]

def positiveQuotas (_ : World) : Label → Bool
  | .connect quota => quota.all (0 < ·)
  | _ => true

theorem broadcast_history_twoClients :
    ∃ s, (server.restrict WritesSucceed).Reachable s ∧
      s.srv.messages = [⟨ascii "A", 77, ascii "hi"⟩] ∧ s.srv.clientSockets = [⟨0, 4⟩, ⟨1, 5⟩] ∧
      ∀ x ∈ s.srv.clientSockets, ∃ l, s.kernel.links x.fd = some l ∧
        l.conn.taken = s.srv.messages.flatMap wire := by
  have hrun : ((LTS.runFn step positiveQuotas listening twoClients).map fun s =>
      (s.srv.messages, s.srv.clientSockets)) =
      some ([⟨ascii "A", 77, ascii "hi"⟩], [⟨0, 4⟩, ⟨1, 5⟩]) := by decide +kernel
  obtain ⟨s, hs, heq⟩ := Option.map_eq_some_iff.mp hrun
  obtain ⟨hm, hc⟩ := Prod.mk.inj heq
  have hchk : ∀ s l, positiveQuotas s l = true → WritesSucceed s l := by
    intro s l h
    cases l with
    | connect quota => simpa [positiveQuotas, WritesSucceed] using h
    | _ => trivial
  have hr : (server.restrict WritesSucceed).Reachable s :=
    ⟨listening, listening_init, LTS.reach_of_runFn hchk hs⟩
  exact ⟨s, hr, hm, hc, broadcast_history s hr⟩

end NetworksLab.L5.ChatServer
