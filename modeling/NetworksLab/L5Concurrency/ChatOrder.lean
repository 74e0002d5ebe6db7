import NetworksLab.Core.Board
import NetworksLab.L5Concurrency.ChatDrain

/-!
# One history (`tcp/lib/Server.cpp`)

The server takes messages from all clients, one at a time, stamps them and keeps
them in `Messages_`. It does not keep who sent what. The ghost `Traced` does: every
connection gets a number when it is accepted (descriptors and addresses are used
again), and every entry of `Messages_` the number of its connection.

What the peers will say is `speech`; what comes from them is, at any time, a
beginning of its serialization, in any pieces.

Results:
* `server_posts`: every run of the server is a run of the board `speech`: messages
  of one connection are taken in their order, each once, and none is invented.
* `traced_world`, `exists_traced`: the ghost does not disturb the server.
-/
namespace NetworksLab.L5.ChatServer
open NetworksLab.L2.SocketWrapper
open NetworksLab.L3.ChatMessage
open NetworksLab.Board (posts board)

/-! ## The ghost -/

/-- The server, the number of the connection behind each descriptor, how many there
have been, and `Messages_` with the connection that each message came from. -/
structure Traced where
  world : World
  owner : Nat → Nat
  count : Nat
  log : List (Nat × TMessage)

/-- The connection that is visited. -/
def Traced.visited (t : Traced) : Nat :=
  match t.world.i.bind (t.world.srv.pollFDs[·]?) with
  | some p => t.owner p.fd
  | none => 0

/-- A visit may accept a connection, which takes `fd`, or take a message. -/
def Traced.after (t : Traced) (s' : World) : Label → Traced
  | .visit fd _ _ =>
    let s := t.world
    let accepted := s.srv.clientSockets.length < s'.srv.clientSockets.length
    { world := s'
      owner := if accepted then Function.update t.owner fd t.count else t.owner
      count := if accepted then t.count + 1 else t.count
      log := t.log ++ (s'.srv.messages.drop s.srv.messages.length).map fun m => (t.visited, m) }
  | _ => { t with world := s' }

def Traced.step (t : Traced) (a : Label) : Option Traced :=
  (ChatServer.step t.world a).map fun s' => t.after s' a

def Traced.Init (t : Traced) : Prop := ChatServer.Init t.world ∧ t.count = 0 ∧ t.log = []

def traced : LTS Traced Label := .ofFn Traced.Init Traced.step

@[simp] theorem Traced.after_world (t : Traced) (s' : World) (a : Label) : (t.after s' a).world = s' := by
  cases a <;> rfl

/-- The ghost adds no run. -/
theorem traced_world {C : World → Label → Prop} {t : Traced}
    (h : (traced.restrict fun t a => C t.world a).Reachable t) : (server.restrict C).Reachable t.world := by
  refine h.simulated (f := Traced.world) (fun t (h : t.Init) => h.1) fun t a t' _ hs => .inr ⟨a, ?_⟩
  obtain ⟨hC, hs⟩ := hs
  obtain ⟨s', hs', rfl⟩ := Option.map_eq_some_iff.mp hs
  exact ⟨hC, by rwa [Traced.after_world]⟩

/-- It takes none away. -/
theorem exists_traced {C : World → Label → Prop} {s : World} (h : (server.restrict C).Reachable s) :
    ∃ t, (traced.restrict fun t a => C t.world a).Reachable t ∧ t.world = s := by
  obtain ⟨s0, h0, hr⟩ := h
  induction hr with
  | refl => exact ⟨⟨_, fun _ => 0, 0, []⟩, .of_init ⟨h0, rfl, rfl⟩, rfl⟩
  | tail _ hs ih =>
    rename_i a _
    obtain ⟨t, ht, rfl⟩ := ih
    exact ⟨t.after _ a, ht.next ⟨hs.1, by simp [traced, LTS.ofFn, Traced.step, show step _ _ = _ from hs.2]⟩,
      t.after_world _ a⟩

/-! ## The clients, with their sockets -/

/-- `P` holds of every client. -/
def Roster (P : FileDescriptorSocket → TSocketWrapper → Link → Prop) (srv : TImpl) (k : Kernel) : Prop :=
  ∀ w x, (w, x) ∈ srv.clientWrappers.zip srv.clientSockets → ∃ l, k.links x.fd = some l ∧ P x w l

section
variable {P P' : FileDescriptorSocket → TSocketWrapper → Link → Prop} {srv : TImpl} {k : Kernel}

/-- Something happens at the other end of a link. -/
theorem Roster.relink (h : Roster P srv k) {fd : Nat} {l l' : Link} (hl : k.links fd = some l)
    (hP : ∀ x w, x.fd = fd → P x w l → P x w l') :
    Roster P srv { k with links := Function.update k.links fd (some l') } := by
  intro w x hx
  obtain ⟨lx, hlx, hPx⟩ := h w x hx
  by_cases he : x.fd = fd
  · have hsame : l = lx := Option.some.inj (hl.symm.trans (he ▸ hlx))
    subst hsame
    exact ⟨l', by rw [he]; exact Function.update_self _ _ _, hP x w he hPx⟩
  · exact ⟨lx, (Function.update_of_ne he _ _).trans hlx, hPx⟩

theorem Roster.accept (h : Roster P srv k) (hp : Parallel srv) {fd addr : Nat} {l : Link} {c : Conn}
    (hfd : k.links fd = none) (hold : ∀ x w l, x.fd ≠ fd → P x w l → P' x w l)
    (hnew : P' ⟨addr, fd⟩ (.make addr) { l with conn := c }) (backlog : List Link) (fds : List PollFD) :
    Roster P' { srv with
        pollFDs := fds
        clientSockets := srv.clientSockets ++ [⟨addr, fd⟩]
        clientWrappers := srv.clientWrappers ++ [.make addr] }
      ({ k with backlog := backlog }.put fd l c) := by
  intro w x hx
  simp only [List.zip_append hp.length, List.mem_append, List.zip_cons_cons, List.zip_nil_right,
    List.mem_singleton, Prod.mk.injEq] at hx
  rcases hx with hx | ⟨rfl, rfl⟩
  · obtain ⟨lx, hlx, hPx⟩ := h w x hx
    have hne : x.fd ≠ fd := fun he => by rw [he, hfd] at hlx; cases hlx
    exact ⟨lx, (Kernel.put_of_ne _ l c hne).trans hlx, hold x w lx hne hPx⟩
  · exact ⟨_, Kernel.put_self _ fd l c, hnew⟩

/-- A client that is removed leaves the others. -/
theorem Roster.bye (h : Roster P srv k) (hp : Parallel srv) {i j : Nat} {x : FileDescriptorSocket}
    (hx : srv.clientSockets[j]? = some x) : Roster P (bye srv k i j).1 (bye srv k i j).2 := by
  have hclients : Clients (fun _ _ => True) srv k := fun w y hy => by
    obtain ⟨l, hl, -⟩ := h w y hy
    exact ⟨l, hl, trivial⟩
  intro v y hy
  obtain ⟨l', hl', -⟩ := hclients.bye hp (i := i) hx v y hy
  have hzip : j < (srv.clientWrappers.zip srv.clientSockets).length := by
    rw [List.length_zip, hp.length, Nat.min_self]
    exact (List.getElem?_eq_some_iff.mp hx).1
  have hold := hy
  simp only [ChatServer.bye, zip_swapPop hp.length] at hold
  obtain ⟨l, hl, hP⟩ := h v y (mem_of_mem_swapPop hzip hold)
  have hsame : (ChatServer.bye srv k i j).2.links y.fd = k.links y.fd := by
    simp only [ChatServer.bye, hx, Kernel.release, Option.elim_some] at hl' ⊢
    exact Function.update_of_ne (fun he => by rw [he, Function.update_self] at hl'; cases hl') _ _
  exact ⟨l, hsame.trans hl, hP⟩

/-- A client has its message taken, and all are sent it. -/
theorem Roster.message (h : Roster P srv k) (hp : Parallel srv) {j : Nat} {w w' : TSocketWrapper}
    {x : FileDescriptorSocket} {l : Link} {c' : Conn} {m : TMessage} {k' : Kernel}
    (hw : srv.clientWrappers[j]? = some w) (hx : srv.clientSockets[j]? = some x)
    (hl : k.links x.fd = some l) (hsock : w'.socket = w.socket)
    (hb : broadcast (srv.setWrapper j w') m (srv.setWrapper j w').clientWrappers (k.put x.fd l c') = .ok k')
    (hspoke : ∀ c, serialize m c' = .ok c → P x w l → P' x w' { l with conn := c })
    (htold : ∀ y v ly c, y ∈ srv.clientSockets → y.fd ≠ x.fd → serialize m ly.conn = .ok c → P y v ly →
      P' y v { ly with conn := c }) :
    Roster P' (srv.setWrapper j w') k' ∧ k'.backlog = k.backlog := by
  have hset := hp.setWrapper hw hsock
  have hfd (i : Nat) (y : FileDescriptorSocket) (hy : srv.clientSockets[i]? = some y) (hne : j ≠ i) :
      y.fd ≠ x.fd := by
    have hj : j < (srv.clientSockets.map (·.fd)).length := by
      rw [List.length_map]
      exact (List.getElem?_eq_some_iff.mp hx).1
    intro he
    refine hne ((List.getElem?_inj hj hp.fds).mp ?_)
    rw [List.getElem?_map, List.getElem?_map, hx, hy, Option.map_some, Option.map_some, he]
  have hopen : ∀ y ∈ srv.clientSockets, ∃ l', (k.put x.fd l c').links y.fd = some l' := fun y hy => by
    obtain ⟨i, hi⟩ := List.mem_iff_getElem?.mp hy
    by_cases hij : j = i
    · obtain rfl := Option.some.inj (hx.symm.trans (hij ▸ hi))
      exact ⟨_, Kernel.put_self k _ l c'⟩
    · obtain ⟨v, hv⟩ := hp.wrapper hi
      obtain ⟨ly, hly, -⟩ := h v y (mem_zip_of_getElem? hv hi)
      exact ⟨ly, (Kernel.put_of_ne k l c' (hfd i y hi hij)).trans hly⟩
  obtain ⟨hbacklog, -, hall⟩ := broadcast_spec hset m srv.clientSockets _ _ k' hset.wrappers
    (List.Subset.refl _) hset.fds hopen hb
  refine ⟨fun v y hy => ?_, hbacklog⟩
  obtain ⟨i, hi⟩ := List.mem_iff_getElem?.mp hy
  obtain ⟨hv, hyi⟩ := List.getElem?_zip_eq_some.mp hi
  simp only [TImpl.setWrapper] at hv hyi
  rw [List.getElem?_set] at hv
  split at hv
  · rename_i hij
    obtain rfl := Option.some.inj (hx.symm.trans (hij ▸ hyi))
    split at hv <;> cases hv
    obtain ⟨c, hc, hl'⟩ := hall x (List.mem_of_getElem? hx) _ (Kernel.put_self k _ l c')
    obtain ⟨l0, hl0, hP⟩ := h w x (mem_zip_of_getElem? hw hx)
    obtain rfl := Option.some.inj (hl.symm.trans hl0)
    exact ⟨_, hl', hspoke c hc hP⟩
  · rename_i hij
    have hne := hfd i y hyi hij
    obtain ⟨ly, hly, hP⟩ := h v y (mem_zip_of_getElem? hv hyi)
    obtain ⟨c, hc, hl'⟩ := hall y (List.mem_of_getElem? hyi) ly ((Kernel.put_of_ne k l c' hne).trans hly)
    exact ⟨_, hl', htold y v ly c (List.mem_of_getElem? hyi) hne hc hP⟩

end

/-- A client's entry in `pollFDs_` has the descriptor of its socket. -/
theorem Parallel.polled_fd {srv : TImpl} (h : Parallel srv) {j : Nat} {p : PollFD} {x : FileDescriptorSocket}
    (hp : srv.pollFDs[j + 1]? = some p) (hx : srv.clientSockets[j]? = some x) : p.fd = x.fd := by
  obtain ⟨q, ps, hq, -, hps⟩ := h.polled
  rw [hq, List.getElem?_cons_succ] at hp
  have hfd := congrArg (·[j]?) hps
  simp only [List.getElem?_map, hp, hx, Option.map_some, Option.some.injEq] at hfd
  exact hfd

/-! ## What the invariant is about -/

/-- What the server keeps of a message: it puts its own time in it. -/
def content (m : TMessage) : Bytes × Bytes := (m.author, m.text)

/-- What has come from the peer of a connection is a beginning of what it will say. -/
def Speaks (speech : Nat → List TMessage) (t : Traced) : Label → Prop
  | .arrive fd p => ∀ l, t.world.kernel.links fd = some l →
      l.arrived ++ p.val <+: (speech (t.owner fd)).flatMap wire
  | _ => True

/-- A client with its peer's `speech`, of which `posted` has been taken: the rest of
what came is still to be read. -/
structure Member (speech posted : List TMessage) (w : TSocketWrapper) (l : Link) : Prop where
  inv : Inv w
  stream : l.arrived <+: speech.flatMap wire
  taken : ∃ done todo, speech = done ++ todo ∧ l.arrived = done.flatMap wire ++ rest w l.conn ∧
    posted.map content = done.map content

structure Tracked (speech : Nat → List TMessage) (t : Traced) : Prop where
  parallel : Parallel t.world.srv
  waiting : ∀ l ∈ t.world.kernel.backlog, Silent l
  roster : Roster (fun x => Member (speech (t.owner x.fd)) (posts (t.owner x.fd) t.log)) t.world.srv
    t.world.kernel
  known : ∀ x ∈ t.world.srv.clientSockets, t.owner x.fd < t.count
  apart : ∀ x ∈ t.world.srv.clientSockets, ∀ y ∈ t.world.srv.clientSockets,
    t.owner x.fd = t.owner y.fd → x.fd = y.fd
  later : ∀ n, t.count ≤ n → posts n t.log = []
  log : t.log.map Prod.snd = t.world.srv.messages

/-- What a step adds to the log: nothing, or the next message of some connection. -/
def Posted (speech : Nat → List TMessage) (log log' : List (Nat × TMessage)) : Prop :=
  log' = log ∨ ∃ n m, log' = log ++ [(n, m)] ∧
    ((speech n).map content)[(posts n log).length]? = some (content m)

section
variable {speech posted : List TMessage} {w w' : TSocketWrapper} {l : Link} {c' : Conn}

/-- Only what is unread matters to a reader. -/
theorem Member.sameInput (h : Member speech posted w l) {c : Conn} (hc : SameInput l.conn c) :
    Member speech posted w { l with conn := c } := by
  have hr : rest w c = rest w l.conn := rest_congr w (by rw [hc.unread])
  exact ⟨h.inv, h.stream, by rw [hr]; exact h.taken⟩

/-- A call that returns a message has taken the next one. -/
theorem Member.read (h : Member speech posted w l) (hs : ∀ m ∈ speech, Readable m) {m : TMessage}
    (hread : readMessage 0 (l.conn.unread.length + 1) w l.conn = .ok (some m, w', c')) :
    ∃ done todo, speech = done ++ m :: todo ∧ Inv w' ∧
      l.arrived = (done ++ [m]).flatMap wire ++ rest w' c' ∧ posted.map content = done.map content := by
  obtain ⟨done, todo, rfl, harr, hposts⟩ := h.taken
  obtain ⟨missing, hmissing⟩ := h.stream
  have hread' : ∀ m ∈ todo, Readable m := fun m hm => hs m (List.mem_append_right _ hm)
  have hframes : rest w l.conn ++ missing = todo.flatMap frame := by
    rw [harr, List.flatMap_append, List.append_assoc] at hmissing
    rw [List.append_cancel_left hmissing]
    exact List.flatMap_congr fun m hm => (hread' m hm).wire_eq
  rcases readMessage_prefix (Nat.lt_succ_self _) h.inv
    (fun m hm => ⟨(hread' m hm).author, (hread' m hm).textLength⟩) hframes hread with
    ⟨hnone, -⟩ | ⟨m', todo', used, rfl, hm, hi, hr, -⟩
  · cases hnone
  · obtain rfl := Option.some.inj hm
    refine ⟨done, todo', rfl, hi, ?_, hposts⟩
    rw [harr, hr, ← (hread' m List.mem_cons_self).wire_eq, List.flatMap_append, List.flatMap_singleton,
      List.append_assoc]

/-- Something comes. -/
theorem Member.arrive (h : Member speech posted w l) {p : Piece}
    (hp : l.arrived ++ p.val <+: speech.flatMap wire) :
    Member speech posted w ⟨l.conn.without (l.conn.unread ++ [p]), l.arrived ++ p.val⟩ := by
  obtain ⟨done, todo, hsplit, harr, hposts⟩ := h.taken
  exact ⟨h.inv, hp, done, todo, hsplit, by rw [rest_arrive, ← List.append_assoc, ← harr], hposts⟩

theorem member_new {l : Link} {c : Conn} (hl : Silent l) (hc : SameInput l.conn c) (addr : Nat) :
    Member speech [] (.make addr) { l with conn := c } := by
  obtain ⟨harr, hu, -⟩ := hl
  refine ⟨make_inv addr, ?_, [], speech, rfl, ?_, rfl⟩
  · rw [harr]
    exact List.nil_prefix
  · rw [rest_make, hc.unread, hu]
    exact harr

end

/-! ## One step -/

section
variable {speech : Nat → List TMessage} {t : Traced} {srv' : TImpl} {k' : Kernel} {i' : Option Nat}

/-- A visit that accepts nobody and takes nothing. -/
theorem Traced.after_quiet (fd addr : Nat) (time : Int64)
    (hlen : srv'.clientSockets.length ≤ t.world.srv.clientSockets.length)
    (hms : srv'.messages = t.world.srv.messages) :
    t.after ⟨srv', k', i'⟩ (.visit fd addr time) = { t with world := ⟨srv', k', i'⟩ } := by
  simp [Traced.after, Nat.not_lt.mpr hlen, hms]

theorem Traced.after_accept (fd addr : Nat) (time : Int64)
    (hlen : t.world.srv.clientSockets.length < srv'.clientSockets.length)
    (hms : srv'.messages = t.world.srv.messages) :
    t.after ⟨srv', k', i'⟩ (.visit fd addr time) =
      { world := ⟨srv', k', i'⟩
        owner := Function.update t.owner fd t.count
        count := t.count + 1
        log := t.log } := by
  simp [Traced.after, hlen, hms]

theorem Traced.after_message (fd addr : Nat) (time : Int64) {m : TMessage}
    (hsockets : srv'.clientSockets = t.world.srv.clientSockets)
    (hms : srv'.messages = t.world.srv.messages ++ [m]) :
    t.after ⟨srv', k', i'⟩ (.visit fd addr time) =
      { t with world := ⟨srv', k', i'⟩, log := t.log ++ [(t.visited, m)] } := by
  simp [Traced.after, hsockets, hms]

/-- The environment moves, or the loop goes on. -/
theorem Tracked.elsewhere {s' : World} (h : Tracked speech t) (hparallel : Parallel s'.srv)
    (hwaiting : ∀ l ∈ s'.kernel.backlog, Silent l)
    (hroster : Roster (fun x => Member (speech (t.owner x.fd)) (posts (t.owner x.fd) t.log)) s'.srv s'.kernel)
    (hsub : ∀ x ∈ s'.srv.clientSockets, x ∈ t.world.srv.clientSockets)
    (hms : s'.srv.messages = t.world.srv.messages) :
    Tracked speech { t with world := s' } ∧ Posted speech t.log t.log :=
  ⟨⟨hparallel, hwaiting, hroster, fun x hx => h.known x (hsub x hx),
    fun x hx y hy => h.apart x (hsub x hx) y (hsub y hy), h.later, h.log.trans hms.symm⟩, .inl rfl⟩

/-- The new connection has the next number, and has said nothing. -/
theorem Tracked.accept (h : Tracked speech t) {fd addr : Nat} {time : Int64} (hf : Fresh t.world fd addr)
    (he : acceptClient t.world.srv t.world.kernel fd addr = .ok (srv', k')) :
    Tracked speech (t.after ⟨srv', k', i'⟩ (.visit fd addr time)) ∧
      Posted speech t.log (t.after ⟨srv', k', i'⟩ (.visit fd addr time)).log := by
  obtain ⟨hacc, hfd, haddr⟩ := hf
  have hclosed (x : FileDescriptorSocket) (hx : x ∈ t.world.srv.clientSockets) : x.fd ≠ fd := fun he => by
    obtain ⟨j, hj⟩ := List.mem_iff_getElem?.mp hx
    obtain ⟨w, hw⟩ := h.parallel.wrapper hj
    obtain ⟨l, hl, -⟩ := h.roster w x (mem_zip_of_getElem? hw hj)
    rw [he, hfd] at hl
    cases hl
  have hnew : fd ∉ t.world.srv.clientSockets.map (·.fd) := fun hm => by
    obtain ⟨x, hx, hxfd⟩ := List.mem_map.mp hm
    exact hclosed x hx hxfd
  unfold acceptClient at he
  split at he
  · cases he
  · rename_i l backlog hb
    obtain ⟨c, hc, he⟩ := bind_ok he
    have hlen : t.world.srv.clientSockets.length < srv'.clientSockets.length := by cases he; simp
    have hms : srv'.messages = t.world.srv.messages := by cases he; rfl
    rw [Traced.after_accept fd addr time hlen hms]
    cases he
    have howner (n : Nat) (hn : n ≠ fd) : Function.update t.owner fd t.count n = t.owner n :=
      Function.update_of_ne hn _ _
    have hmem (x : FileDescriptorSocket) (hx : x ∈ t.world.srv.clientSockets ++ [⟨addr, fd⟩]) :
        x ∈ t.world.srv.clientSockets ∧ Function.update t.owner fd t.count x.fd = t.owner x.fd ∨
          x.fd = fd ∧ Function.update t.owner fd t.count x.fd = t.count := by
      rcases List.mem_append.mp hx with hx | hx
      · exact .inl ⟨hx, howner _ (hclosed x hx)⟩
      · obtain rfl := List.mem_singleton.mp hx
        exact .inr ⟨rfl, Function.update_self _ _ _⟩
    refine ⟨⟨h.parallel.accept hacc hnew haddr,
      fun l' hl' => h.waiting l' (by rw [hb]; exact List.mem_cons_of_mem _ hl'), ?_, fun x hx => ?_,
      fun x hx y hy hxy => ?_, fun n hn => h.later n (by dsimp only at hn; omega), h.log⟩, .inl rfl⟩
    · refine h.roster.accept h.parallel hfd (fun x w l hx hP => ?_) ?_ backlog _
      · dsimp only
        rw [howner _ hx]
        exact hP
      · dsimp only
        rw [Function.update_self, h.later _ (Nat.le_refl _)]
        exact member_new (h.waiting l (by rw [hb]; exact List.mem_cons_self)) (serializeAll_sameInput hc) addr
    · rcases hmem x hx with ⟨hx, ho⟩ | ⟨-, ho⟩ <;> dsimp only <;> rw [ho]
      · exact Nat.lt_succ_of_lt (h.known x hx)
      · exact Nat.lt_succ_self _
    · dsimp only at hxy
      rcases hmem x hx with ⟨hx, hox⟩ | ⟨hxfd, hox⟩ <;> rcases hmem y hy with ⟨hy, hoy⟩ | ⟨hyfd, hoy⟩ <;>
        rw [hox, hoy] at hxy
      · exact h.apart x hx y hy hxy
      · exact absurd hxy (Nat.ne_of_lt (h.known x hx))
      · exact absurd hxy.symm (Nat.ne_of_lt (h.known y hy))
      · rw [hxfd, hyfd]

/-- A message is the next one of its connection; a client that has gone leaves. -/
theorem Tracked.message (h : Tracked speech t) (hs : ∀ n, ∀ m ∈ speech n, Readable m) {j fd addr : Nat}
    {time : Int64} {p : PollFD} (hi : t.world.i = some (j + 1)) (hp : t.world.srv.pollFDs[j + 1]? = some p)
    (he : acceptMessage t.world.srv t.world.kernel (j + 1) time 0 = .ok (srv', k')) :
    Tracked speech (t.after ⟨srv', k', i'⟩ (.visit fd addr time)) ∧
      Posted speech t.log (t.after ⟨srv', k', i'⟩ (.visit fd addr time)).log := by
  obtain ⟨w, x, l, w', c', hw, hx, hl, hc⟩ := acceptMessage_cases h.parallel he
  have hxmem := List.mem_of_getElem? hx
  have hj := (List.getElem?_eq_some_iff.mp hx).1
  rcases hc with ⟨-, hsrv, rfl⟩ | ⟨m, hread, hbroad, hsrv⟩
  · have hsub (y : FileDescriptorSocket) (hy : y ∈ (bye t.world.srv t.world.kernel (j + 1) j).1.clientSockets) :
        y ∈ t.world.srv.clientSockets := mem_of_mem_swapPop hj hy
    have hlen : srv'.clientSockets.length ≤ t.world.srv.clientSockets.length := by
      rw [hsrv, bye, (swapPop_perm hj).length_eq]
      exact List.length_eraseIdx_le _ _
    rw [Traced.after_quiet fd addr time hlen (by rw [hsrv]; rfl)]
    subst hsrv
    exact h.elsewhere (h.parallel.bye t.world.kernel hj) h.waiting (h.roster.bye h.parallel hx) hsub rfl
  · obtain ⟨l', hl', hmember⟩ := h.roster w x (mem_zip_of_getElem? hw hx)
    obtain rfl := Option.some.inj (hl.symm.trans hl')
    obtain ⟨done, todo, hsplit, hinv, harr, hposts⟩ := hmember.read (hs _) hread
    have hvisited : t.visited = t.owner x.fd := by
      simp only [Traced.visited, hi, Option.bind_some, hp, h.parallel.polled_fd hp hx]
    let stamped : TMessage := { m with accepted := time }
    have hms : srv'.messages = t.world.srv.messages ++ [stamped] := by rw [hsrv]
    rw [Traced.after_message fd addr time (by rw [hsrv]; rfl) hms, hvisited]
    subst hsrv
    have hset := h.parallel.setWrapper hw (readMessage_reads hread).socket
    have hown : posts (t.owner x.fd) (t.log ++ [(t.owner x.fd, stamped)]) =
        posts (t.owner x.fd) t.log ++ [stamped] := by
      rw [Board.posts_append, Board.posts_self]
    have hother (n : Nat) (hn : t.owner x.fd ≠ n) :
        posts n (t.log ++ [(t.owner x.fd, stamped)]) = posts n t.log := by
      rw [Board.posts_append, Board.posts_of_ne hn, List.append_nil]
    have hspoke (c : Conn) (hser : serialize stamped c' = .ok c) : Member (speech (t.owner x.fd))
        (posts (t.owner x.fd) (t.log ++ [(t.owner x.fd, stamped)])) w' { l with conn := c } := by
      have hrest : rest w' c = rest w' c' := rest_congr w' (by rw [(serialize_sameInput hser).unread])
      rw [hown]
      refine ⟨hinv, hmember.stream, done ++ [m], todo, by simp [hsplit], hrest ▸ harr, ?_⟩
      rw [List.map_append, List.map_append, hposts]
      rfl
    have htold (y : FileDescriptorSocket) (v : TSocketWrapper) (ly : Link) (c : Conn)
        (hy : y ∈ t.world.srv.clientSockets) (hne : y.fd ≠ x.fd) (hser : serialize stamped ly.conn = .ok c)
        (hP : Member (speech (t.owner y.fd)) (posts (t.owner y.fd) t.log) v ly) : Member (speech (t.owner y.fd))
        (posts (t.owner y.fd) (t.log ++ [(t.owner x.fd, stamped)])) v { ly with conn := c } := by
      rw [hother _ fun ho => hne (h.apart x hxmem y hy ho).symm]
      exact hP.sameInput (serialize_sameInput hser)
    obtain ⟨hroster, hbacklog⟩ := h.roster.message h.parallel hw hx hl (readMessage_reads hread).socket hbroad
      (fun c hser _ => hspoke c hser) htold
    refine ⟨⟨⟨hset.polled, hset.wrappers, hset.addrs, hset.fds, hset.accepting⟩,
      fun l' hl' => h.waiting l' (hbacklog ▸ hl'), hroster, h.known, h.apart, fun n hn => ?_, ?_⟩,
      .inr ⟨t.owner x.fd, stamped, rfl, ?_⟩⟩
    · rw [hother n fun ho => ?_]
      · exact h.later n hn
      · have := h.known x hxmem
        dsimp only at hn
        omega
    · rw [List.map_append, h.log]
      rfl
    · have hlen : (posts (t.owner x.fd) t.log).length = done.length := by
        have := congrArg List.length hposts
        simpa using this
      rw [hsplit, hlen, List.map_append, List.getElem?_append_right (by simp)]
      simp [content, stamped]

/-- Step lemma. -/
theorem tracked_step {t' : Traced} (hs : ∀ n, ∀ m ∈ speech n, Readable m) (h : Tracked speech t) {a : Label}
    (hC : Speaks speech t a) (hstep : t.step a = some t') : Tracked speech t' ∧ Posted speech t.log t'.log := by
  obtain ⟨s', hs', rfl⟩ := Option.map_eq_some_iff.mp hstep
  have hall (x : FileDescriptorSocket) (hx : x ∈ t.world.srv.clientSockets) : x ∈ t.world.srv.clientSockets := hx
  cases step_cases hs' with
  | connect quota =>
    refine h.elsewhere h.parallel (fun l hl => ?_) h.roster hall rfl
    rcases List.mem_append.mp hl with hl | hl
    · exact h.waiting l hl
    · obtain rfl := List.mem_singleton.mp hl
      exact ⟨rfl, rfl, rfl⟩
  | arrive hl hp =>
    refine h.elsewhere h.parallel h.waiting (h.roster.relink hl fun x w hx hP => hP.arrive ?_) hall rfl
    rw [hx]
    exact hC _ hl
  | recut hl hb =>
    refine h.elsewhere h.parallel h.waiting (h.roster.relink hl fun x w _ hP => ?_) hall rfl
    obtain ⟨done, todo, hsplit, harr, hposts⟩ := hP.taken
    exact ⟨hP.inv, hP.stream, done, todo, hsplit, by rw [rest_congr w hb]; exact harr, hposts⟩
  | hangup hl =>
    exact h.elsewhere h.parallel h.waiting
      (h.roster.relink hl fun x w _ hP => ⟨hP.inv, hP.stream, hP.taken⟩) hall rfl
  | poll hi => exact h.elsewhere (h.parallel.poll _) h.waiting h.roster hall rfl
  | @roundOver i fd addr time hi hp =>
    rw [Traced.after_quiet fd addr time (Nat.le_refl _) rfl]
    exact h.elsewhere h.parallel h.waiting h.roster hall rfl
  | @skip i fd addr time p hi hp hr =>
    rw [Traced.after_quiet fd addr time (Nat.le_refl _) rfl]
    exact h.elsewhere h.parallel h.waiting h.roster hall rfl
  | accept hi hp hfd hf he => exact h.accept hf he
  | message hi hp hfd he =>
    obtain ⟨j, rfl⟩ := h.parallel.client_index hp hfd
    exact h.message hs hi hp he

theorem tracked_init (h : t.Init) : Tracked speech t := by
  obtain ⟨⟨hp, hsock, hw, hm, hb, -, -⟩, -, hlog⟩ := h
  exact ⟨⟨⟨_, [], hp, rfl, by simp [hsock]⟩, by simp [hsock, hw], by simp [hsock], by simp [hsock],
    by simp [hsock]⟩, by simp [hb], fun w x hx => by simp [hsock] at hx, by simp [hsock], by simp [hsock],
    by simp [hlog], by simp [hlog, hm]⟩

theorem tracked_of_reachable (hs : ∀ n, ∀ m ∈ speech n, Readable m)
    (h : (traced.restrict (Speaks speech)).Reachable t) : Tracked speech t := by
  have hind : (traced.restrict (Speaks speech)).Inductive (Tracked speech) :=
    ⟨fun _ => tracked_init, fun _ _ _ hi hs' => (tracked_step hs hi hs'.1 hs'.2).1⟩
  exact hind.reachable t h

end

/-! ## Every run -/

/-- What the board shows of the log. -/
def Traced.posted (t : Traced) : List (Nat × Bytes × Bytes) := t.log.map fun e => (e.1, content e.2)

section
variable {speech : Nat → List TMessage} {t : Traced}

/-- Every step posts the next message of a connection, or does not show. -/
theorem posted_reachable (hs : ∀ n, ∀ m ∈ speech n, Readable m)
    (h : (traced.restrict (Speaks speech)).Reachable t) :
    (board fun n => (speech n).map content).Reachable t.posted := by
  refine h.simulated (f := Traced.posted) (fun t h => ?_) fun t a t' ht hstep => ?_
  · rw [Traced.posted, show t.log = [] from h.2.2]
    rfl
  · obtain ⟨hC, hstep⟩ := hstep
    obtain ⟨-, hposted⟩ := tracked_step hs (tracked_of_reachable hs ht) hC hstep
    rcases hposted with heq | ⟨n, m, heq, hnext⟩
    · exact .inl (by rw [Traced.posted, Traced.posted, heq])
    · refine .inr ⟨n, content m, ?_, ?_⟩
      · rw [Traced.posted, Board.posts_map, List.length_map]
        exact hnext
      · rw [Traced.posted, Traced.posted, heq, List.map_append]
        rfl

/-- What is in the log was said. -/
theorem readable_of_log (hs : ∀ n, ∀ m ∈ speech n, Readable m)
    (h : (traced.restrict (Speaks speech)).Reachable t) {e : Nat × TMessage} (he : e ∈ t.log) :
    Readable e.2 := by
  have hmem : (e.1, content e.2) ∈ t.posted := List.mem_map_of_mem (f := fun e => (e.1, content e.2)) he
  have hsaid := (Board.posts_isPrefix (posted_reachable hs h) e.1).subset (Board.mem_posts.mpr hmem)
  obtain ⟨m, hm, hcontent⟩ := List.mem_map.mp hsaid
  obtain ⟨hauthor, htext⟩ := Prod.mk.inj hcontent
  have hread := hs _ m hm
  exact ⟨hauthor ▸ hread.author, hauthor ▸ hread.authorLength, htext ▸ hread.textLength⟩

/-- **One history.** If every peer sends a beginning of its messages serialized, in
any pieces, then `Messages_` is what the connections have posted to a board: each its
messages in order, the authors and texts as they were. -/
theorem server_posts (hs : ∀ n, ∀ m ∈ speech n, Readable m)
    (h : (traced.restrict (Speaks speech)).Reachable t) :
    (board fun n => (speech n).map content).Reachable t.posted ∧
      t.log.map Prod.snd = t.world.srv.messages :=
  ⟨posted_reachable hs h, (tracked_of_reachable hs h).log⟩

end

/-- The first connection says one message, the others nothing. -/
def hiSpeech : Nat → List TMessage
  | 0 => [hi]
  | _ => []

theorem hiSpeech_readable (n : Nat) : ∀ m ∈ hiSpeech n, Readable m := by
  cases n with
  | zero => simpa [hiSpeech] using hi_readable
  | succ n => simp [hiSpeech]

def hiSpeaks (t : Traced) : Label → Bool
  | .arrive fd p => (t.world.kernel.links fd).all fun l =>
      decide (l.arrived ++ p.val <+: (hiSpeech (t.owner fd)).flatMap wire)
  | _ => true

theorem hiSpeaks_sound (t : Traced) (a : Label) (h : hiSpeaks t a = true) : Speaks hiSpeech t a := by
  cases a with
  | arrive fd p =>
    intro l hl
    simpa [hiSpeaks, hl] using h
  | _ => trivial

theorem server_posts_hi : ∃ t, (traced.restrict (Speaks hiSpeech)).Reachable t ∧
    t.log = [(0, ⟨ascii "A", 77, ascii "hi"⟩)] ∧
    (board fun n => (hiSpeech n).map content).Reachable t.posted := by
  have hrun : (LTS.runFn Traced.step hiSpeaks ⟨listening, fun _ => 0, 0, []⟩ (oneClient onePiece)).map
      (·.log) = some [(0, ⟨ascii "A", 77, ascii "hi"⟩)] := by decide +kernel
  obtain ⟨t, ht, hlog⟩ := Option.map_eq_some_iff.mp hrun
  have hr : (traced.restrict (Speaks hiSpeech)).Reachable t :=
    ⟨_, ⟨listening_init, rfl, rfl⟩, LTS.reach_of_runFn hiSpeaks_sound ht⟩
  exact ⟨t, hr, hlog, (server_posts hiSpeech_readable hr).1⟩

end NetworksLab.L5.ChatServer
