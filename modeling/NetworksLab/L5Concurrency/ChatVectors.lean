import NetworksLab.L5Concurrency.ChatServer

/-!
# The three vectors of the chat server (`tcp/lib/Server.cpp`)

A client stands at one index of `clientSockets_` and `clientWrappers_` and at
the next one of `pollFDs_`. `AcceptClient` appends to all three; `AcceptMessage`
takes a client out of each by a swap with the last one, while `Run` is on its
way through `pollFDs_`.

Results:
* `own_rule`: what a wrapper has buffered has come on its own connection.
* `marked_reachable`: a client whose entry is marked was there when the `poll`
  of this round reported it, and has stayed.
* `vectors_aligned`: in every run the vectors stay parallel, `AcceptMessage`
  reads from the client that was reported, and removes that client alone.
-/
namespace NetworksLab.L5.ChatServer
open NetworksLab.L2.SocketWrapper
open NetworksLab.L3.ChatMessage

/-! ## Whose bytes are buffered -/

/-- What is buffered and then what is unread are the last bytes that the peer of
this connection has sent. -/
structure Own (w : TSocketWrapper) (l : Link) : Prop where
  inv : Inv w
  rest : rest w l.conn <:+ l.arrived

theorem own_rule : ClientRule (fun _ _ => True) (fun l => l.arrived = bytesOf l.conn.unread)
    (fun _ => Own) where
  connect _ _ _ := rfl
  accept ms addr l c hQ hc := by
    refine ⟨make_inv addr, ?_⟩
    have hs := serializeAll_sameInput hc
    rw [rest_make, hs.unread, hQ]
  arrive s fd p l ms w _ _ _ h := by
    refine ⟨h.inv, ?_⟩
    rw [rest_arrive]
    exact List.suffix_append_self_iff.mpr h.rest
  recut ps l ms w hb h := by
    refine ⟨h.inv, ?_⟩
    have hr : rest w (l.conn.without ps) = rest w l.conn := rest_congr w hb
    exact hr ▸ h.rest
  hangup _ _ _ _ _ _ _ _ h := ⟨h.inv, h.rest⟩
  read s fd addr time j x w l m w' c' _ _ _ _ _ h hread := by
    have hc := readMessage_consumed (Nat.lt_succ_self _) h.inv hread
    exact ⟨hc.inv, hc.rest.trans h.rest⟩
  send ms w l m c h hc := by
    have hs := serialize_sameInput hc
    have hr : rest w c = rest w l.conn := rest_congr w (by rw [hs.unread])
    exact ⟨h.inv, hr ▸ h.rest⟩

/-! ## The vectors by index -/

/-- At every index the three vectors are about one client. -/
structure Aligned (s : World) : Prop where
  sockets : s.srv.pollFDs.length = s.srv.clientSockets.length + 1
  wrappers : s.srv.pollFDs.length = s.srv.clientWrappers.length + 1
  accepting : ∃ p, s.srv.pollFDs[0]? = some p ∧ p.fd = s.srv.acceptingSocketFD
  distinct : (s.srv.acceptingSocketFD :: s.srv.clientSockets.map (·.fd)).Nodup
  client : ∀ j x, s.srv.clientSockets[j]? = some x → ∃ p w l, s.srv.pollFDs[j + 1]? = some p ∧
    p.fd = x.fd ∧ s.srv.clientWrappers[j]? = some w ∧ w.socket = x.addr ∧
    s.srv.link s.kernel w = .ok (x.fd, l) ∧ Own w l

theorem Parallel.pollFDs_length {srv : TImpl} (h : Parallel srv) :
    srv.pollFDs.length = srv.clientSockets.length + 1 := by
  obtain ⟨p, ps, hp, -, hps⟩ := h.polled
  have hlen := congrArg List.length hps
  rw [List.length_map, List.length_map] at hlen
  rw [hp, List.length_cons, hlen]

theorem Parallel.pollFD {srv : TImpl} (h : Parallel srv) {j : Nat} {x : FileDescriptorSocket}
    (hx : srv.clientSockets[j]? = some x) : ∃ p, srv.pollFDs[j + 1]? = some p ∧ p.fd = x.fd := by
  obtain ⟨p, ps, hp, -, hps⟩ := h.polled
  obtain ⟨q, hq, he⟩ := exists_getElem?_of_map_eq hps.symm hx
  exact ⟨q, by rw [hp, List.getElem?_cons_succ, hq], he⟩

theorem Parallel.socket_of_pollFD {srv : TImpl} (h : Parallel srv) {j : Nat} {p : PollFD}
    (hp : srv.pollFDs[j + 1]? = some p) : ∃ x, srv.clientSockets[j]? = some x ∧ x.fd = p.fd := by
  obtain ⟨q, ps, hq, -, hps⟩ := h.polled
  rw [hq, List.getElem?_cons_succ] at hp
  exact exists_getElem?_of_map_eq hps hp

theorem Parallel.distinct {srv : TImpl} (h : Parallel srv) :
    (srv.acceptingSocketFD :: srv.clientSockets.map (·.fd)).Nodup :=
  List.nodup_cons.mpr ⟨h.accepting, h.fds⟩

theorem Served.aligned {Q : Link → Prop} {s : World} (h : Served Q (fun _ => Own) s) : Aligned s where
  sockets := h.parallel.pollFDs_length
  wrappers := by rw [h.parallel.pollFDs_length, h.parallel.length]
  accepting := by
    obtain ⟨p, ps, hp, hfd, -⟩ := h.parallel.polled
    exact ⟨p, by rw [hp, List.getElem?_cons_zero], hfd⟩
  distinct := h.parallel.distinct
  client j x hx := by
    obtain ⟨p, hp, hfd⟩ := h.parallel.pollFD hx
    obtain ⟨w, hw⟩ := h.parallel.wrapper hx
    obtain ⟨y, hy, ha⟩ := h.parallel.socket hw
    obtain rfl := Option.some.inj (hx.symm.trans hy)
    obtain ⟨l, hl, hown⟩ := h.clients w x (mem_zip_of_getElem? hw hx)
    exact ⟨p, w, l, hp, hfd, hw, ha, h.parallel.link (List.mem_of_getElem? hx) ha hl, hown⟩

theorem served {s : World} (h : server.Reachable s) :
    Served (fun l => l.arrived = bytesOf l.conn.unread) (fun _ => Own) s :=
  own_rule.reachable (h.restrict fun _ _ => trivial)

/-! ## What an iteration does to the vectors -/

/-- Only `poll` marks an entry, and a new client has a descriptor that was not open. -/
structure Kept (s s' : World) : Prop where
  round : s'.i ≠ none → s.i ≠ none
  accepting : s'.srv.acceptingSocketFD = s.srv.acceptingSocketFD
  marked : ∀ p ∈ s'.srv.pollFDs, p.revents = true → p ∈ s.srv.pollFDs
  sockets : ∀ x ∈ s'.srv.clientSockets, x ∈ s.srv.clientSockets ∨ s.kernel.links x.fd = none

theorem Kept.same {s s' : World} (hi : s'.i ≠ none → s.i ≠ none) (h : s'.srv = s.srv) : Kept s s' :=
  ⟨hi, by rw [h], fun _ hp _ => h ▸ hp, fun _ hx => .inl (h ▸ hx)⟩

theorem acceptClient_kept {s : World} {fd addr : Nat} {srv' : TImpl} {k' : Kernel}
    {i : Nat} (hi : s.i = some i) (hf : Fresh s fd addr)
    (he : acceptClient s.srv s.kernel fd addr = .ok (srv', k')) : Kept s ⟨srv', k', some (i + 1)⟩ := by
  unfold acceptClient at he
  split at he
  · cases he
  · obtain ⟨c, -, he⟩ := bind_ok he
    cases he
    refine ⟨fun _ => hi ▸ Option.some_ne_none i, rfl, fun p hp hm => ?_, fun x hx => ?_⟩
    · rcases List.mem_append.mp hp with hp | hp
      · exact hp
      · rw [List.mem_singleton.mp hp] at hm
        cases hm
    · rcases List.mem_append.mp hx with hx | hx
      · exact .inl hx
      · exact .inr (List.mem_singleton.mp hx ▸ hf.2.1)

theorem acceptMessage_kept {s : World} (hp : Parallel s.srv) {j : Nat} {time : Int64} {srv' : TImpl}
    {k' : Kernel} (hi : s.i = some (j + 1))
    (he : acceptMessage s.srv s.kernel (j + 1) time 0 = .ok (srv', k')) :
    Kept s ⟨srv', k', some (j + 2)⟩ := by
  have hround : s.i ≠ none := hi ▸ Option.some_ne_none _
  obtain ⟨w, x, l, w', c', hw, hx, hl, hc⟩ := acceptMessage_cases hp he
  have hj := (List.getElem?_eq_some_iff.mp hx).1
  rcases hc with ⟨-, rfl, -⟩ | ⟨m, -, -, rfl⟩
  · refine ⟨fun _ => hround, rfl, fun p hp' _ => mem_of_mem_swapPop ?_ hp', fun x hx' =>
      .inl (mem_of_mem_swapPop hj hx')⟩
    rw [hp.pollFDs_length]
    omega
  · exact ⟨fun _ => hround, rfl, fun p hp' _ => hp', fun x hx' => .inl hx'⟩

theorem step_kept {s s' : World} {a : Label} (hp : Parallel s.srv) (ha : a ≠ .poll)
    (hs : step s a = some s') : Kept s s' := by
  cases step_cases hs with
  | connect quota => exact .same id rfl
  | arrive hl hpeer => exact .same id rfl
  | recut hl hb => exact .same id rfl
  | hangup hl => exact .same id rfl
  | poll hi => exact absurd rfl ha
  | roundOver hi hpi => exact .same (fun hn => absurd rfl hn) rfl
  | skip hi hpi hm => exact .same (fun _ => hi ▸ Option.some_ne_none _) rfl
  | accept hi hpi hfd hf he => exact acceptClient_kept hi hf he
  | message hi hpi hfd he =>
    obtain ⟨j, rfl⟩ := hp.client_index hpi hfd
    exact acceptMessage_kept hp hi he

/-! ## Who was reported -/

/-- The `poll` of this round found `x` ready, and `x` has been a client ever since. -/
def Reported (x : FileDescriptorSocket) (s : World) : Prop :=
  ∃ s₀ s₁, server.Reachable s₀ ∧ server.step s₀ .poll s₁ ∧
    s₀.kernel.ready s₀.srv.acceptingSocketFD x.fd = true ∧
    (server.restrict fun t a => a ≠ .poll ∧ x ∈ t.srv.clientSockets).Reach s₁ s

/-- The marked entries of a round are of clients that were reported. -/
def Marked (s : World) : Prop :=
  s.i ≠ none → ∀ p ∈ s.srv.pollFDs, p.revents = true → p.fd ≠ s.srv.acceptingSocketFD →
    ∃ x ∈ s.srv.clientSockets, x.fd = p.fd ∧ Reported x s

theorem Parallel.socket_of_mem {srv : TImpl} (h : Parallel srv) {p : PollFD} (hp : p ∈ srv.pollFDs)
    (hfd : p.fd ≠ srv.acceptingSocketFD) : ∃ x ∈ srv.clientSockets, x.fd = p.fd := by
  obtain ⟨i, hi⟩ := List.mem_iff_getElem?.mp hp
  obtain ⟨j, rfl⟩ := h.client_index hi hfd
  obtain ⟨x, hx, he⟩ := h.socket_of_pollFD hi
  exact ⟨x, List.mem_of_getElem? hx, he⟩

theorem poll_marked {s s' : World} (h : server.Reachable s) (hs : step s .poll = some s') : Marked s' := by
  have hp' := (served (h.next hs)).parallel
  intro _ p hp hm hfd
  obtain ⟨x, hx, he⟩ := hp'.socket_of_mem hp hfd
  refine ⟨x, hx, he, s, s', h, hs, ?_, .refl s'⟩
  cases step_cases hs with
  | poll hi =>
    obtain ⟨q, -, rfl⟩ := List.mem_map.mp hp
    rw [he]
    exact hm

/-- Step lemma: the socket of a marked entry is still there, since a new client
has another descriptor. -/
theorem marked_step {s s' : World} {a : Label} (h : server.Reachable s) (hm : Marked s) (ha : a ≠ .poll)
    (hs : step s a = some s') : Marked s' := by
  have hserved := served h
  have hkept := step_kept hserved.parallel ha hs
  intro hi p hp hr hfd
  obtain ⟨x, hx, he, hrep⟩ := hm (hkept.round hi) p (hkept.marked p hp hr) hr (hkept.accepting ▸ hfd)
  obtain ⟨y, hy, hey⟩ := (served (h.next hs)).parallel.socket_of_mem hp hfd
  have hfds : y.fd = x.fd := hey.trans he.symm
  have hyx : y = x := by
    rcases hkept.sockets y hy with hold | hnew
    · exact List.inj_on_of_nodup_map hserved.parallel.fds hold hx hfds
    · obtain ⟨w, l, hl, -⟩ := hserved.clients.opened hserved.parallel hx
      rw [hfds, hl] at hnew
      cases hnew
  obtain ⟨s₀, s₁, h₀, hpoll, hready, hreach⟩ := hrep
  exact ⟨x, hyx ▸ hy, he, s₀, s₁, h₀, hpoll, hready, .tail hreach ⟨⟨ha, hx⟩, hs⟩⟩

theorem marked_reachable {s : World} (h : server.Reachable s) : Marked s := by
  obtain ⟨s₀, h₀, hr⟩ := h
  induction hr with
  | refl => exact fun hi => absurd h₀.2.2.2.2.2.2 hi
  | @tail t u a hr hs ih =>
    have ht : server.Reachable t := ⟨s₀, h₀, hr⟩
    by_cases ha : a = .poll
    · subst ha
      exact poll_marked ht hs
    · exact marked_step ht ih ha hs

/-! ## What `AcceptMessage` does -/

/-- The clients as the three vectors have them. -/
def TImpl.clients (srv : TImpl) : List (PollFD × FileDescriptorSocket × TSocketWrapper) :=
  srv.pollFDs.tail.zip (srv.clientSockets.zip srv.clientWrappers)

/-- Client `j` is removed, and its descriptor closed; the other clients stay as they are. -/
structure Removed (s : World) (j : Nat) (x : FileDescriptorSocket) (s' : World) : Prop where
  clients : s'.srv.clients.Perm (s.srv.clients.eraseIdx j)
  links : s'.kernel.links = Function.update s.kernel.links x.fd none

/-- Client `j` is read from, and nobody else. -/
structure ReadFrom (s : World) (j : Nat) (x : FileDescriptorSocket) (w' : TSocketWrapper) (c' : Conn)
    (s' : World) : Prop where
  pollFDs : s'.srv.pollFDs = s.srv.pollFDs
  clientSockets : s'.srv.clientSockets = s.srv.clientSockets
  clientWrappers : s'.srv.clientWrappers = s.srv.clientWrappers.set j w'
  unread : (s'.kernel.links x.fd).map (·.conn.unread) = some c'.unread
  others : ∀ fd, fd ≠ x.fd →
    (s'.kernel.links fd).map (·.conn.unread) = (s.kernel.links fd).map (·.conn.unread)

theorem clients_bye {srv : TImpl} (h : Parallel srv) (k : Kernel) {j : Nat}
    (hj : j < srv.clientSockets.length) : (bye srv k (j + 1) j).1.clients = swapPop j srv.clients := by
  obtain ⟨p, ps, hp, -, -⟩ := h.polled
  have hlen := h.pollFDs_length
  rw [hp, List.length_cons, Nat.add_right_cancel_iff] at hlen
  have hzip : ps.length = (srv.clientSockets.zip srv.clientWrappers).length := by
    rw [List.length_zip, h.length, Nat.min_self, hlen]
  simp only [TImpl.clients, bye, hp, List.tail_cons]
  rw [swapPop_cons (hlen ▸ hj), List.tail_cons, zip_swapPop h.length.symm, zip_swapPop hzip]

theorem TImpl.clients_length {srv : TImpl} (h : Parallel srv) :
    srv.clients.length = srv.clientSockets.length := by
  rw [TImpl.clients, List.length_zip, List.length_tail, h.pollFDs_length, List.length_zip, h.length,
    Nat.add_sub_cancel, Nat.min_self, Nat.min_self]

theorem removed_bye {s : World} (h : Parallel s.srv) {j : Nat} {x : FileDescriptorSocket}
    (hx : s.srv.clientSockets[j]? = some x) (i' : Option Nat) :
    Removed s j x ⟨(bye s.srv s.kernel (j + 1) j).1, (bye s.srv s.kernel (j + 1) j).2, i'⟩ where
  clients := by
    have hj := (List.getElem?_eq_some_iff.mp hx).1
    rw [clients_bye h s.kernel hj]
    exact swapPop_perm (by rwa [TImpl.clients_length h])
  links := by
    simp only [bye, hx, Kernel.release, Option.elim_some]

/-- A broadcast leaves everything unread that was unread. -/
theorem broadcast_unread {srv : TImpl} {k k' : Kernel} {m : TMessage} (hp : Parallel srv)
    (hopen : ∀ x ∈ srv.clientSockets, ∃ l, k.links x.fd = some l)
    (hb : broadcast srv m srv.clientWrappers k = .ok k') (fd : Nat) :
    (k'.links fd).map (·.conn.unread) = (k.links fd).map (·.conn.unread) := by
  obtain ⟨-, hrest, hall⟩ := broadcast_spec hp m srv.clientSockets _ k k' hp.wrappers
    (List.Subset.refl _) hp.fds hopen hb
  by_cases hfd : fd ∈ srv.clientSockets.map (·.fd)
  · obtain ⟨x, hx, rfl⟩ := List.mem_map.mp hfd
    obtain ⟨l, hl⟩ := hopen x hx
    obtain ⟨c', hc', hl'⟩ := hall x hx l hl
    rw [hl', hl, Option.map_some, Option.map_some, (serialize_sameInput hc').unread]
  · rw [hrest fd hfd]

theorem Kernel.put_open {k : Kernel} {fd fd' : Nat} {l : Link} {c : Conn}
    (h : ∃ l', k.links fd' = some l') : ∃ l', (k.put fd l c).links fd' = some l' := by
  by_cases he : fd' = fd
  · subst he
    exact ⟨_, k.put_self fd' l c⟩
  · rwa [k.put_of_ne l c he]

section
variable {Q : Link → Prop} {P : List TMessage → TSocketWrapper → Link → Prop} {s : World} {j : Nat}
  {x : FileDescriptorSocket} {w : TSocketWrapper} {l : Link}

theorem readFrom_message (h : Served Q P s) (hw : s.srv.clientWrappers[j]? = some w)
    {w' : TSocketWrapper} {c' : Conn} {m m' : TMessage} {k' : Kernel} (i' : Option Nat)
    (hread : readMessage 0 (l.conn.unread.length + 1) w l.conn = .ok (some m, w', c'))
    (hb : broadcast (s.srv.setWrapper j w') m' (s.srv.setWrapper j w').clientWrappers
      (s.kernel.put x.fd l c') = .ok k') :
    ReadFrom s j x w' c'
      ⟨{ s.srv.setWrapper j w' with messages := s.srv.messages ++ [m'] }, k', i'⟩ := by
  have hset := h.parallel.setWrapper hw (readMessage_reads hread).socket
  have hopen : ∀ y ∈ s.srv.clientSockets, ∃ l', (s.kernel.put x.fd l c').links y.fd = some l' :=
    fun y hy => by
      obtain ⟨v, l', hl', -⟩ := h.clients.opened h.parallel hy
      exact Kernel.put_open ⟨l', hl'⟩
  have hunread := broadcast_unread hset hopen hb
  refine ⟨rfl, rfl, rfl, ?_, fun fd hfd => ?_⟩
  · rw [hunread x.fd, Kernel.put_self, Option.map_some]
  · rw [hunread fd, Kernel.put_of_ne _ _ _ hfd]

/-- An iteration at the marked entry of a client is a call of `AcceptMessage`. -/
theorem visit_message {s' : World} {i fd addr : Nat} {p : PollFD} {time : Int64} (hi : s.i = some i)
    (hp : s.srv.pollFDs[i]? = some p) (hm : p.revents = true) (hfd : p.fd ≠ s.srv.acceptingSocketFD)
    (hs : step s (.visit fd addr time) = some s') :
    ∃ srv' k', s' = ⟨srv', k', some (i + 1)⟩ ∧ acceptMessage s.srv s.kernel i time 0 = .ok (srv', k') := by
  cases step_cases hs with
  | roundOver hi' hp' =>
    obtain rfl := Option.some.inj (hi.symm.trans hi')
    rw [hp] at hp'
    cases hp'
  | skip hi' hp' hm' =>
    obtain rfl := Option.some.inj (hi.symm.trans hi')
    obtain rfl := Option.some.inj (hp.symm.trans hp')
    rw [hm] at hm'
    cases hm'
  | accept hi' hp' hfd' _ _ =>
    obtain rfl := Option.some.inj (hi.symm.trans hi')
    obtain rfl := Option.some.inj (hp.symm.trans hp')
    exact absurd hfd' hfd
  | message hi' hp' _ hmsg =>
    obtain rfl := Option.some.inj (hi.symm.trans hi')
    exact ⟨_, _, rfl, hmsg⟩

/-- Where `AcceptMessage` returns, so does the iteration. -/
theorem visit_step {i fd addr : Nat} {p : PollFD} {time : Int64} {srv' : TImpl} {k' : Kernel} (hi : s.i = some i)
    (hp : s.srv.pollFDs[i]? = some p) (hm : p.revents = true) (hfd : p.fd ≠ s.srv.acceptingSocketFD)
    (hf : Fresh s fd addr) (he : acceptMessage s.srv s.kernel i time 0 = .ok (srv', k')) :
    server.step s (.visit fd addr time) ⟨srv', k', some (i + 1)⟩ := by
  have hvisit : visit s.srv s.kernel i p fd addr time = .ok (srv', k') := by
    rw [visit, if_neg (by simp [hm]), if_neg hfd, he]
  change step s (.visit fd addr time) = _
  simp only [step, hi, hp, if_pos hf, hvisit]

/-- By what `ReadMessage` returned. -/
theorem acceptMessage_client (h : Served Q P s) (hx : s.srv.clientSockets[j]? = some x)
    (hw : s.srv.clientWrappers[j]? = some w) (hl : s.kernel.links x.fd = some l) {time : Int64}
    {srv' : TImpl} {k' : Kernel} (i' : Option Nat)
    (he : acceptMessage s.srv s.kernel (j + 1) time 0 = .ok (srv', k')) :
    ∃ r w' c', readMessage 0 (l.conn.unread.length + 1) w l.conn = .ok (r, w', c') ∧
      (r = none → Removed s j x ⟨srv', k', i'⟩) ∧
      ∀ m, r = some m → ReadFrom s j x w' c' ⟨srv', k', i'⟩ := by
  obtain ⟨v, y, ly, w', c', hv, hy, hly, hc⟩ := acceptMessage_cases h.parallel he
  obtain rfl := Option.some.inj (hw.symm.trans hv)
  obtain rfl := Option.some.inj (hx.symm.trans hy)
  obtain rfl := Option.some.inj (hl.symm.trans hly)
  rcases hc with ⟨hread, rfl, rfl⟩ | ⟨m, hread, hb, rfl⟩
  · exact ⟨none, w', c', hread, fun _ => removed_bye h.parallel hx i', fun m hm => by cases hm⟩
  · exact ⟨some m, w', c', hread, fun hm => (by cases hm), fun _ _ => readFrom_message h hw i' hread hb⟩

end

/-- An iteration at the marked entry of client `j`, whose `ReadMessage` returns or not. -/
structure Takes (s : World) (j : Nat) (x : FileDescriptorSocket) (w : TSocketWrapper) (l : Link) (fd addr : Nat)
    (time : Int64) : Prop where
  /-- whenever it is over, the client has been removed, or has been read from -/
  only : ∀ s', server.step s (.visit fd addr time) s' →
    ∃ r w' c', readMessage 0 (l.conn.unread.length + 1) w l.conn = .ok (r, w', c') ∧
      (r = none → Removed s j x s') ∧ ∀ m, r = some m → ReadFrom s j x w' c' s'
  /-- a client that has gone is removed -/
  gone : l.conn.peer = .closed → rest w l.conn = [] →
    ∃ s', server.step s (.visit fd addr time) s' ∧ Removed s j x s'
  /-- as is one of which there is no message -/
  removed : ∀ w' c', readMessage 0 (l.conn.unread.length + 1) w l.conn = .ok (none, w', c') →
    ∃ s', server.step s (.visit fd addr time) s' ∧ Removed s j x s'
  /-- a message is read from it, and put behind the others, if it can be sent to all -/
  read : ∀ m w' c' k', readMessage 0 (l.conn.unread.length + 1) w l.conn = .ok (some m, w', c') →
    broadcast (s.srv.setWrapper j w') { m with accepted := time } (s.srv.setWrapper j w').clientWrappers
      (s.kernel.put x.fd l c') = .ok k' →
    ∃ s', server.step s (.visit fd addr time) s' ∧ ReadFrom s j x w' c' s' ∧
      s'.srv.messages = s.srv.messages ++ [{ m with accepted := time }]

/-- **The vectors stay parallel.** In every run, between the rounds and within
them, every index is of one client, whose wrapper holds bytes of its own
connection. A call of `AcceptMessage(i)` is for a client that the `poll` of this
round reported and that has stayed since; it reads from that client alone, or
removes that client alone, and the latter if the client has gone. -/
theorem vectors_aligned (s : World) (h : server.Reachable s) :
    Aligned s ∧ ∀ i p, s.i = some i → s.srv.pollFDs[i]? = some p → p.revents = true →
      p.fd ≠ s.srv.acceptingSocketFD →
      ∃ j x w l, i = j + 1 ∧ s.srv.clientSockets[j]? = some x ∧ x.fd = p.fd ∧ Reported x s ∧
        s.srv.clientWrappers[j]? = some w ∧ s.srv.link s.kernel w = .ok (x.fd, l) ∧
        ∀ fd addr time, Fresh s fd addr → Takes s j x w l fd addr time := by
  have hs := served h
  refine ⟨hs.aligned, fun i p hi hp hm hfd => ?_⟩
  obtain ⟨j, rfl⟩ := hs.parallel.client_index hp hfd
  obtain ⟨x, hx, he⟩ := hs.parallel.socket_of_pollFD hp
  obtain ⟨w, hw⟩ := hs.parallel.wrapper hx
  obtain ⟨y, hy, ha⟩ := hs.parallel.socket hw
  obtain rfl := Option.some.inj (hx.symm.trans hy)
  obtain ⟨l, hl, hown⟩ := hs.clients w x (mem_zip_of_getElem? hw hx)
  obtain ⟨z, hz, hez, hrep⟩ := marked_reachable h (hi ▸ Option.some_ne_none _) p
    (List.mem_of_getElem? hp) hm hfd
  obtain rfl := List.inj_on_of_nodup_map hs.parallel.fds hz (List.mem_of_getElem? hx) (hez.trans he.symm)
  refine ⟨j, z, w, l, rfl, hx, he, hrep, hw, hs.parallel.link hz ha hl, fun fd addr time hf => ?_⟩
  have hremoved {w' : TSocketWrapper} {c' : Conn}
      (hread : readMessage 0 (l.conn.unread.length + 1) w l.conn = .ok (none, w', c')) :
      ∃ s', server.step s (.visit fd addr time) s' ∧ Removed s j z s' := by
    have hmsg := acceptMessage_eq hs.parallel time 0 hw hx hl
    rw [ok_bind hread] at hmsg
    simp only [bye_setWrapper s.kernel (j + 1) hx w' l c'] at hmsg
    exact ⟨_, visit_step hi hp hm hfd hf hmsg, removed_bye hs.parallel hx _⟩
  refine ⟨fun s' hstep => ?_, fun hpeer hrest => ?_, fun w' c' hread => hremoved hread,
    fun m w' c' k' hread hb => ?_⟩
  · obtain ⟨srv', k', rfl, hmsg⟩ := visit_message hi hp hm hfd hstep
    exact acceptMessage_client hs hx hw hl _ hmsg
  · obtain ⟨w', c', -, hread, -⟩ := readMessage_end (Nat.lt_succ_self _) hown.inv hpeer hrest
    exact hremoved hread
  · have hmsg := acceptMessage_eq hs.parallel time 0 hw hx hl
    rw [ok_bind hread] at hmsg
    simp only [hb] at hmsg
    exact ⟨_, visit_step hi hp hm hfd hf hmsg, readFrom_message hs hw _ hread hb, rfl⟩

/-- Of two clients the first has closed and the second has sent a message. -/
def closing : List Label :=
  [.connect [], .poll, .visit 4 0 0, .visit 9 9 0, .visit 9 9 0,
   .connect [], .poll, .visit 5 1 0, .visit 9 9 0, .visit 9 9 0, .visit 9 9 0,
   .hangup 4 .closed, .arrive 5 ⟨ascii "4\nBob\n0\nbye\n", by decide⟩, .poll, .visit 9 9 0]

/-- The rest of the round, in which the second one now stands behind the loop's index,
and the next one as far as its entry. -/
def behindRemoval : List Label := [.visit 9 9 0, .poll, .visit 9 9 0]

/-- The round in which the first client is removed, the next one, and the iteration in
which the second one is read from. -/
def closingRun : Option (World × World × World × World) :=
  (LTS.runFn step (fun _ _ => true) listening closing).bind fun s =>
    (step s (.visit 9 9 0)).bind fun s₁ =>
      (LTS.runFn step (fun _ _ => true) s₁ behindRemoval).bind fun t =>
        (step t (.visit 9 9 78)).map fun t₁ => (s, s₁, t, t₁)

theorem closingRun_first : closingRun.map (fun r => (decide (Fresh r.1 9 9), r.1.i, r.1.srv, r.1.kernel.links 4)) =
    some (true, some 1, ⟨3, [⟨3, false⟩, ⟨4, true⟩, ⟨5, true⟩], [⟨0, 4⟩, ⟨1, 5⟩], [.make 0, .make 1], []⟩,
      some ⟨⟨[], .closed, [], []⟩, []⟩) := by decide +kernel

theorem closingRun_second : closingRun.map (fun r => (decide (Fresh r.2.2.1 9 9), r.2.2.1.i, r.2.2.1.srv,
    (r.2.2.2.kernel.links 5).isSome, r.2.2.2.srv.messages)) =
    some (true, some 1, ⟨3, [⟨3, false⟩, ⟨5, true⟩], [⟨1, 5⟩], [.make 1], []⟩, true,
      [⟨ascii "Bob", 78, ascii "bye"⟩]) := by decide +kernel

/-- The first client is removed, with the second one marked behind it; the second one is
read from in the next round. -/
theorem vectors_aligned_closing : ∃ s s₁ t t₁ : World,
    (server.Reachable s ∧ s.srv.pollFDs = [⟨3, false⟩, ⟨4, true⟩, ⟨5, true⟩] ∧ Aligned s ∧
      server.step s (.visit 9 9 0) s₁ ∧ Removed s 0 ⟨0, 4⟩ s₁) ∧
    server.Reach s₁ t ∧ t.srv.pollFDs = [⟨3, false⟩, ⟨5, true⟩] ∧ Aligned t ∧ Reported ⟨1, 5⟩ t ∧
      server.step t (.visit 9 9 78) t₁ ∧ (∃ w' c', ReadFrom t 0 ⟨1, 5⟩ w' c' t₁) ∧
      t₁.srv.messages = [⟨ascii "Bob", 78, ascii "bye"⟩] := by
  obtain ⟨⟨s, s₁, t, t₁⟩, hrun, hfirst⟩ := Option.map_eq_some_iff.mp closingRun_first
  have hsecond := closingRun_second
  rw [hrun, Option.map_some, Option.some.injEq] at hsecond
  simp only [Prod.mk.injEq] at hfirst hsecond
  obtain ⟨hfresh, hi, hsrv, hlink⟩ := hfirst
  obtain ⟨hfresh', hi', hsrv', hopen, hmessages⟩ := hsecond
  obtain ⟨v, hclosing, hrun⟩ := Option.bind_eq_some_iff.mp hrun
  obtain ⟨v₁, hremove, hrun⟩ := Option.bind_eq_some_iff.mp hrun
  obtain ⟨u, hbehind, hrun⟩ := Option.bind_eq_some_iff.mp hrun
  obtain ⟨u₁, hread, heq⟩ := Option.map_eq_some_iff.mp hrun
  simp only [Prod.mk.injEq] at heq
  obtain ⟨rfl, rfl, rfl, rfl⟩ := heq
  have hreach {ls : List Label} {a b : World} (h : LTS.runFn step (fun _ _ => true) a ls = some b) :
      server.Reach a b := by
    have hr : (server.restrict fun _ _ => True).Reach a b := LTS.reach_of_runFn (fun _ _ _ => trivial) h
    exact hr.of_restrict
  have hr : server.Reachable v := ⟨listening, listening_init, hreach hclosing⟩
  have hr' : server.Reachable u := (hr.next hremove).trans (hreach hbehind)
  obtain ⟨haligned, hall⟩ := vectors_aligned v hr
  obtain ⟨haligned', hall'⟩ := vectors_aligned u hr'
  refine ⟨v, v₁, u, u₁, ⟨hr, by rw [hsrv], haligned, hremove, ?_⟩, hreach hbehind, by rw [hsrv'], haligned', ?_⟩
  · obtain ⟨j, x, w, l, hj, hx, he, -, hw, hl, htakes⟩ := hall 1 ⟨4, true⟩ hi (by rw [hsrv]; rfl) rfl
      (by rw [hsrv]; decide)
    obtain rfl : j = 0 := by omega
    simp only [hsrv, List.getElem?_cons_zero, Option.some.injEq] at hx hw
    subst hx hw
    have hmem : (⟨0, 4⟩ : FileDescriptorSocket) ∈ v.srv.clientSockets := by simp [hsrv]
    have hfound := (served hr).parallel.link hmem (w := .make 0) rfl hlink
    obtain ⟨-, rfl⟩ := Prod.mk.inj (Except.ok.inj (hfound.symm.trans hl))
    obtain ⟨v', hstep, hremoved⟩ := (htakes 9 9 0 (of_decide_eq_true hfresh)).gone rfl rfl
    obtain rfl := Option.some.inj (hremove.symm.trans hstep)
    exact hremoved
  · obtain ⟨j, x, w, l, hj, hx, he, hrep, -, -, htakes⟩ := hall' 1 ⟨5, true⟩ hi' (by rw [hsrv']; rfl) rfl
      (by rw [hsrv']; decide)
    obtain rfl : j = 0 := by omega
    simp only [hsrv', List.getElem?_cons_zero, Option.some.injEq] at hx
    subst hx
    obtain ⟨r, w', c', -, hnone, hsome⟩ := (htakes 9 9 78 (of_decide_eq_true hfresh')).only u₁ hread
    refine ⟨hrep, hread, ?_, hmessages⟩
    cases r with
    | none =>
      rw [(hnone rfl).links, Function.update_self] at hopen
      cases hopen
    | some m => exact ⟨w', c', hsome m rfl⟩

end NetworksLab.L5.ChatServer
