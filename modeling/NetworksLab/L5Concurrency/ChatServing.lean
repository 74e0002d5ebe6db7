import NetworksLab.L5Concurrency.ChatDrain
import NetworksLab.L5Concurrency.ChatVectors

/-!
# A server that goes on (`tcp/lib/Server.cpp`, `tcp/lib/Message.cpp`)

One thread serves all clients, and `AcceptMessage` reads a whole message: it waits for
a client that is in the middle of one, and nobody else is served meanwhile. With peers
that send serialized messages and do not break, that is the only thing that can stop
the server: `poll` has seen that there is something to read or to accept, and it is
still there when the loop comes to it.

Results:
* `polled_reachable`: what `poll` reported is so until the loop comes to it.
* `loop_serves`: in every reachable state a visit returns, unless the client is in the
  middle of a message; then it waits, and throws nothing.
-/
namespace NetworksLab.L5.ChatServer
open NetworksLab.L2.SocketWrapper
open NetworksLab.L3.ChatMessage

/-- Peers that send serialized messages, close behind one if at all, and do not break;
and socket writes that succeed. -/
def Civil (s : World) (a : Label) : Prop :=
  Framed s a ∧ WritesSucceed s a ∧ ∀ fd, a ≠ .hangup fd .broken

/-! ## One client -/

/-- What the peer has sent is the messages taken so far and what is left to read; it
goes on as a stream of messages. -/
structure Sending (w : TSocketWrapper) (l : Link) : Prop where
  inv : Inv w
  taken : ∃ done : List TMessage, (∀ m ∈ done, Readable m) ∧ l.arrived = done.flatMap wire ++ rest w l.conn
  stream : ∃ t, Stream (l.arrived ++ t) ∧ (l.conn.peer = .closed → t = [])
  unbroken : l.conn.peer ≠ .broken
  good : l.conn.Good

section
variable {w w' : TSocketWrapper} {l : Link} {c' : Conn}

theorem Sending.sameInput {c : Conn} (h : Sending w l) (hc : SameInput l.conn c) (hg : c.Good) :
    Sending w { l with conn := c } := by
  have hr : rest w c = rest w l.conn := rest_congr w (by rw [hc.unread])
  obtain ⟨t, ht, hp⟩ := h.stream
  exact ⟨h.inv, by rw [hr]; exact h.taken, ⟨t, ht, fun hcl => hp (hc.peer.symm.trans hcl)⟩,
    fun hb => h.unbroken (hc.peer.symm.trans hb), hg⟩

/-- The peer is still sending its next message. -/
def Unfinished (w : TSocketWrapper) (l : Link) : Prop :=
  l.conn.peer = .pending ∧ ∃ m y, Readable m ∧ y ≠ [] ∧ rest w l.conn ++ y = wire m

theorem Unfinished.blocked (h : Unfinished w l) (hi : Inv w) :
    readMessage 0 (l.conn.unread.length + 1) w l.conn = .error .blocked := by
  obtain ⟨hp, m, y, hm, hy, hr⟩ := h
  exact readMessage_blocked (Nat.lt_succ_self _) hi hp hm.author hm.textLength hy (hr.trans hm.wire_eq)

/-- A read returns the next message, or nothing at the end; unless the next message is
not finished. -/
theorem Sending.reads (h : Sending w l) : Unfinished w l ∨ ∃ r w' c' used,
    readMessage 0 (l.conn.unread.length + 1) w l.conn = .ok (r, w', c') ∧ Inv w' ∧ Took w l.conn used w' c' ∧
      ∀ m, r = some m → Readable m ∧ rest w l.conn = wire m ++ rest w' c' := by
  obtain ⟨done, hdone, harr⟩ := h.taken
  obtain ⟨t, ht, hclosed⟩ := h.stream
  rw [harr, List.append_assoc] at ht
  obtain ⟨ms, hms, hrest⟩ := ht.drop hdone
  have hpending : l.conn.peer ≠ .closed → l.conn.peer = .pending := by
    intro hne
    cases hp : l.conn.peer with
    | pending => rfl
    | closed => exact absurd hp hne
    | broken => exact absurd hp h.unbroken
  cases ms with
  | nil =>
    obtain ⟨hnil, rfl⟩ := List.append_eq_nil_iff.mp hrest
    by_cases hp : l.conn.peer = .closed
    · obtain ⟨w', c', used, he, hi, -, htook⟩ := readMessage_end (Nat.lt_succ_self _) h.inv hp hnil
      exact .inr ⟨none, w', c', used, he, hi, htook, nofun⟩
    · have hempty : Readable ⟨[], 0, []⟩ := by constructor <;> decide
      exact .inl ⟨hpending hp, _, _, hempty, hempty.wire_ne_nil, by rw [hnil, List.nil_append]⟩
  | cons m ms =>
    have hm := hms m List.mem_cons_self
    -- a whole message, or a beginning of one
    have hwhole : ∀ s, rest w l.conn = wire m ++ s → ∃ r w' c' used,
        readMessage 0 (l.conn.unread.length + 1) w l.conn = .ok (r, w', c') ∧ Inv w' ∧
          Took w l.conn used w' c' ∧ ∀ m, r = some m → Readable m ∧ rest w l.conn = wire m ++ rest w' c' := by
      intro s hs
      obtain ⟨w', c', used, he, hi, hr, htook⟩ := readMessage_frame (Nat.lt_succ_self _) h.inv hm.author
        hm.textLength (hs.trans (by rw [hm.wire_eq]))
      refine ⟨some m, w', c', used, he, hi, htook, fun m' hm' => ?_⟩
      obtain rfl := Option.some.inj hm'
      exact ⟨hm, by rw [hs, hr]⟩
    rw [List.flatMap_cons] at hrest
    rcases List.append_eq_append_iff.mp hrest with ⟨y, hy, ht'⟩ | ⟨s, hs, -⟩
    · by_cases hnil : y = []
      · exact .inr (hwhole [] (by rw [hy, hnil, List.append_nil, List.append_nil]))
      · have hne : l.conn.peer ≠ .closed := fun hp => by
          rw [hclosed hp] at ht'
          exact hnil (List.append_eq_nil_iff.mp ht'.symm).1
        exact .inl ⟨hpending hne, m, y, hm, hnil, hy.symm⟩
    · exact .inr (hwhole s hs)

/-- A call that returns a message has taken it. -/
theorem Sending.read (h : Sending w l) {m : TMessage}
    (hread : readMessage 0 (l.conn.unread.length + 1) w l.conn = .ok (some m, w', c')) :
    Sending w' { l with conn := c' } := by
  obtain ⟨done, hdone, harr⟩ := h.taken
  obtain ⟨t, ht, hclosed⟩ := h.stream
  rcases h.reads with hun | ⟨r, w1, c1, used, he, hi, htook, hm⟩
  · rw [hun.blocked h.inv] at hread
    cases hread
  · obtain ⟨rfl, rfl, rfl⟩ : r = some m ∧ w1 = w' ∧ c1 = c' := by
      simpa using he.symm.trans hread
    obtain ⟨hm, hr⟩ := hm m rfl
    obtain ⟨-, hquota, -⟩ := (readMessage_reads hread).keeps
    refine ⟨hi, ⟨done ++ [m], fun x hx => ?_, ?_⟩, ⟨t, ht, fun hp => hclosed (htook.peer.symm.trans hp)⟩,
      fun hb => h.unbroken (htook.peer.symm.trans hb), by rw [Conn.Good, hquota]; exact h.good⟩
    · rcases List.mem_append.mp hx with hx | hx
      · exact hdone x hx
      · exact List.mem_singleton.mp hx ▸ hm
    · rw [harr, hr, List.flatMap_append, List.flatMap_singleton, List.append_assoc]

end

theorem sending_rule : ClientRule Civil (fun l => Silent l ∧ l.conn.Good) (fun _ w l => Sending w l) where
  connect _ _ hC := ⟨⟨rfl, rfl, rfl⟩, hC.2.1⟩
  accept ms addr l c hQ hc := by
    obtain ⟨⟨harr, hu, hp⟩, hg⟩ := hQ
    have hs := serializeAll_sameInput hc
    obtain ⟨c', hc', hd⟩ := serializeAll_sent ms hg
    obtain rfl := Except.ok.inj (hc.symm.trans hc')
    have hpeer : c.peer = .pending := hs.peer.trans hp
    refine ⟨make_inv addr, ⟨[], by simp, ?_⟩, ⟨[], ⟨[], by simp, by simpa using harr⟩, fun _ => rfl⟩, ?_,
      hd.good hg⟩
    · rw [rest_make, hs.unread, hu]
      exact harr
    · change c.peer ≠ .broken
      rw [hpeer]
      exact PeerEnd.noConfusion
  arrive s fd p l ms w hC hl hp h := by
    obtain ⟨done, hdone, harr⟩ := h.taken
    obtain ⟨t, ht⟩ := hC.1 l hl
    refine ⟨h.inv, ⟨done, hdone, ?_⟩, ⟨t, ht, fun hcl => ?_⟩, h.unbroken, h.good⟩
    · rw [rest_arrive, ← List.append_assoc, ← harr]
    · cases hp.symm.trans hcl
  recut ps l ms w hb h := by
    have hr : rest w (l.conn.without ps) = rest w l.conn := rest_congr w hb
    exact ⟨h.inv, hr ▸ h.taken, h.stream, h.unbroken, h.good⟩
  hangup s fd e l ms w hC hl h := by
    refine ⟨h.inv, h.taken, ?_, fun hb => ?_, h.good⟩
    · by_cases he : e = .closed
      · exact ⟨[], by rw [List.append_nil]; exact hC.1 l hl he, fun _ => rfl⟩
      · obtain ⟨t, ht, -⟩ := h.stream
        exact ⟨t, ht, fun hcl => absurd hcl he⟩
    · obtain rfl : e = .broken := hb
      exact hC.2.2 fd rfl
  read _ _ _ _ _ _ _ _ _ _ _ _ _ _ _ _ h hread := h.read hread
  send _ _ _ _ _ h hc := by
    obtain ⟨c', hc', hd⟩ := serialize_sent _ h.good.unfailing
    obtain rfl := Except.ok.inj (hc.symm.trans hc')
    exact h.sameInput (serialize_sameInput hc) (hd.good h.good)

/-! ## What `poll` has seen -/

/-- A `Read` would not block. -/
def Link.Waits (l : Link) : Prop := l.conn.unread ≠ [] ∨ l.conn.peer ≠ .pending

theorem bytesOf_ne_nil {ps : List Piece} : bytesOf ps ≠ [] ↔ ps ≠ [] := by
  cases ps with
  | nil => simp
  | cons p ps =>
    have hp : p.val ≠ [] := List.ne_nil_of_length_pos p.property.1
    simp [hp]

theorem ready_accepting (k : Kernel) (fd : Nat) : k.ready fd fd = true ↔ k.backlog ≠ [] := by
  simp [Kernel.ready]

theorem ready_client {k : Kernel} {acceptingFD fd : Nat} (hfd : fd ≠ acceptingFD) :
    k.ready acceptingFD fd = true ↔ ∃ l, k.links fd = some l ∧ l.Waits := by
  unfold Kernel.ready
  rw [if_neg hfd]
  cases k.links fd with
  | none => simp
  | some l => simp [Link.Waits]

/-- What `poll` has reported of the descriptors that the loop has still to come to is
so. -/
def Polled (s : World) : Prop :=
  ∀ i, s.i = some i → ∀ j p, i ≤ j → s.srv.pollFDs[j]? = some p → p.revents = true →
    s.kernel.ready s.srv.acceptingSocketFD p.fd = true

theorem Polled.feed {s : World} (h : Polled s) {fd : Nat} {l l' : Link} (hl : s.kernel.links fd = some l)
    (hw : l.Waits → l'.Waits) : Polled (s.feed fd l') := by
  intro i hi j p hj hp hr
  have hready := h i hi j p hj hp hr
  by_cases hacc : p.fd = s.srv.acceptingSocketFD
  · rw [hacc, ready_accepting] at hready
    exact hacc ▸ (ready_accepting (s.feed fd l').kernel _).mpr hready
  · obtain ⟨lp, hlp, hwp⟩ := (ready_client hacc).mp hready
    refine (ready_client hacc).mpr ?_
    by_cases he : p.fd = fd
    · obtain rfl := Option.some.inj (hl.symm.trans (he ▸ hlp))
      exact ⟨l', by rw [he]; exact Function.update_self _ _ _, hw hwp⟩
    · exact ⟨lp, (Function.update_of_ne he _ _).trans hlp, hwp⟩

theorem Parallel.pollFDs_nodup {srv : TImpl} (h : Parallel srv) : (srv.pollFDs.map (·.fd)).Nodup := by
  obtain ⟨p, ps, hp, hfd, hps⟩ := h.polled
  rw [hp, List.map_cons, hfd, hps]
  exact h.distinct

/-- The entries that the loop has still to come to are of other descriptors. -/
theorem Parallel.fd_ne {srv : TImpl} (h : Parallel srv) {i j : Nat} {p q : PollFD} (hij : i < j)
    (hp : srv.pollFDs[i]? = some p) (hq : srv.pollFDs[j]? = some q) : q.fd ≠ p.fd := by
  intro he
  have hj : j < (srv.pollFDs.map (·.fd)).length := by
    rw [List.length_map]
    exact (List.getElem?_eq_some_iff.mp hq).1
  have hji : j = i := (List.getElem?_inj hj h.pollFDs_nodup).mp (by
    rw [List.getElem?_map, List.getElem?_map, hp, hq, Option.map_some, Option.map_some, he])
  omega

theorem Parallel.fd_ne_accepting {srv : TImpl} (h : Parallel srv) {i j : Nat} {q : PollFD} (hij : i < j)
    (hq : srv.pollFDs[j]? = some q) : q.fd ≠ srv.acceptingSocketFD := by
  obtain ⟨p, ps, hp, hfd, -⟩ := h.polled
  exact hfd ▸ h.fd_ne (Nat.zero_lt_of_lt hij) (by rw [hp, List.getElem?_cons_zero]) hq

/-- A broadcast leaves what the clients send as it is. -/
theorem broadcast_sameInput {srv : TImpl} {k k' : Kernel} {m : TMessage} (hp : Parallel srv)
    (hopen : ∀ x ∈ srv.clientSockets, ∃ l, k.links x.fd = some l)
    (hb : broadcast srv m srv.clientWrappers k = .ok k') {fd : Nat} {l : Link}
    (hl : k.links fd = some l) : ∃ c', k'.links fd = some { l with conn := c' } ∧ SameInput l.conn c' := by
  obtain ⟨-, hrest, hall⟩ := broadcast_spec hp m srv.clientSockets _ k k' hp.wrappers
    (List.Subset.refl _) hp.fds hopen hb
  by_cases hfd : fd ∈ srv.clientSockets.map (·.fd)
  · obtain ⟨x, hx, rfl⟩ := List.mem_map.mp hfd
    obtain ⟨c', hc', hl'⟩ := hall x hx l hl
    exact ⟨c', hl', serialize_sameInput hc'⟩
  · exact ⟨l.conn, (hrest fd hfd).trans hl, rfl, rfl⟩

section
variable {Q : Link → Prop} {P : List TMessage → TSocketWrapper → Link → Prop} {s : World}

theorem acceptClient_polled (h : Served Q P s) (hpo : Polled s) {i fd addr : Nat} (hi : s.i = some i)
    (hf : Fresh s fd addr) {srv' : TImpl} {k' : Kernel}
    (he : acceptClient s.srv s.kernel fd addr = .ok (srv', k')) : Polled ⟨srv', k', some (i + 1)⟩ := by
  unfold acceptClient at he
  split at he
  · cases he
  · rename_i l backlog hb
    obtain ⟨c, -, he⟩ := bind_ok he
    cases he
    intro i' hi' j p hj hp hr
    obtain rfl := Option.some.inj hi'
    rw [List.getElem?_append] at hp
    split at hp
    · have hne := h.parallel.fd_ne_accepting (Nat.lt_of_succ_le hj) hp
      obtain ⟨lp, hlp, hwp⟩ := (ready_client hne).mp (hpo i hi j p (by omega) hp hr)
      have hpfd : p.fd ≠ fd := fun hpf => by
        rw [hpf, hf.2.1] at hlp
        cases hlp
      exact (ready_client hne).mpr ⟨lp, (Kernel.put_of_ne _ l c hpfd).trans hlp, hwp⟩
    · -- the new client is not marked
      obtain rfl := List.mem_singleton.mp (List.mem_of_getElem? hp)
      cases hr

theorem acceptMessage_polled (h : Served Q P s) (hpo : Polled s) {j : Nat} (hi : s.i = some (j + 1))
    {time : Int64} {srv' : TImpl} {k' : Kernel}
    (he : acceptMessage s.srv s.kernel (j + 1) time 0 = .ok (srv', k')) :
    Polled ⟨srv', k', some (j + 2)⟩ := by
  obtain ⟨w, x, l, w', c', hw, hx, hl, hc⟩ := acceptMessage_cases h.parallel he
  obtain ⟨q, hq, hqx⟩ := h.parallel.pollFD hx
  -- an entry behind this one was there, and its link is another
  have hbehind : ∀ i p, j + 2 ≤ i → s.srv.pollFDs[i]? = some p → p.revents = true →
      p.fd ≠ s.srv.acceptingSocketFD ∧ p.fd ≠ x.fd ∧ ∃ l, s.kernel.links p.fd = some l ∧ l.Waits := by
    intro i p hji hp hr
    have hne := h.parallel.fd_ne_accepting (Nat.lt_of_succ_le hji) hp
    exact ⟨hne, hqx ▸ h.parallel.fd_ne (Nat.lt_of_succ_le hji) hq hp,
      (ready_client hne).mp (hpo (j + 1) hi i p (by omega) hp hr)⟩
  rcases hc with ⟨-, rfl, rfl⟩ | ⟨m, hread, hb, rfl⟩
  · intro i' hi' i p hji hp hr
    obtain rfl := Option.some.inj hi'
    obtain ⟨hne, hpx, lp, hlp, hwp⟩ := hbehind i p hji (getElem?_of_swapPop (Nat.lt_of_succ_le hji) hp) hr
    refine (ready_client hne).mpr ⟨lp, ?_, hwp⟩
    simp only [bye, hx, Kernel.release, Option.elim_some]
    exact (Function.update_of_ne hpx _ _).trans hlp
  · intro i' hi' i p hji hp hr
    obtain rfl := Option.some.inj hi'
    obtain ⟨hne, hpx, lp, hlp, hwp⟩ := hbehind i p hji hp hr
    have hset := h.parallel.setWrapper hw (readMessage_reads hread).socket
    obtain ⟨c, hl', hsame⟩ := broadcast_sameInput hset (fun y hy => by
      obtain ⟨v, ly, hly, -⟩ := h.clients.opened h.parallel hy
      exact Kernel.put_open ⟨ly, hly⟩) hb ((Kernel.put_of_ne _ l c' hpx).trans hlp)
    refine (ready_client hne).mpr ⟨_, hl', ?_⟩
    rwa [Link.Waits, hsame.unread, hsame.peer]

/-- Step lemma. -/
theorem polled_step {s' : World} {a : Label} (h : Served Q P s) (hpo : Polled s)
    (hs : step s a = some s') : Polled s' := by
  cases step_cases hs with
  | connect quota =>
    intro i hi j p hj hp hr
    have hready := hpo i hi j p hj hp hr
    by_cases hacc : p.fd = s.srv.acceptingSocketFD
    · rw [hacc, ready_accepting]
      exact List.append_ne_nil_of_right_ne_nil _ (List.cons_ne_nil _ _)
    · obtain ⟨l, hl, hw⟩ := (ready_client hacc).mp hready
      exact (ready_client hacc).mpr ⟨l, hl, hw⟩
  | arrive hl hp => exact hpo.feed hl fun _ => .inl (List.append_ne_nil_of_right_ne_nil _ (List.cons_ne_nil _ _))
  | recut hl hb =>
    refine hpo.feed hl fun hw => hw.imp (fun hne => ?_) id
    exact bytesOf_ne_nil.mp (hb ▸ bytesOf_ne_nil.mpr hne)
  | @hangup fd e l hl =>
    simp only [step, hl] at hs
    split at hs
    · rename_i hp
      exact hpo.feed hl fun hw => .inl (hw.resolve_right fun hne => hne hp)
    · cases hs
  | poll hi =>
    intro i _ j p _ hp hr
    obtain ⟨q, -, rfl⟩ := List.mem_map.mp (List.mem_of_getElem? hp)
    exact hr
  | roundOver hi hp =>
    intro i hi
    cases hi
  | skip hi hp hm =>
    intro i' hi' j p hj
    obtain rfl := Option.some.inj hi'
    exact hpo _ hi j p (by omega)
  | accept hi hp hfd hf he => exact acceptClient_polled h hpo hi hf he
  | message hi hp hfd he =>
    obtain ⟨j, rfl⟩ := h.parallel.client_index hp hfd
    exact acceptMessage_polled h hpo hi he

end

theorem polled_reachable {s : World} (h : server.Reachable s) : Polled s := by
  obtain ⟨s₀, h₀, hr⟩ := h
  induction hr with
  | refl =>
    intro i hi
    rw [h₀.2.2.2.2.2.2] at hi
    cases hi
  | tail hr hs ih => exact polled_step (served ⟨s₀, h₀, hr⟩) ih hs

/-! ## The loop goes on -/

/-- A broadcast to sockets whose writes succeed returns. -/
theorem broadcast_returns {srv : TImpl} (hp : Parallel srv) (m : TMessage) :
    ∀ (ws : List TSocketWrapper) (k : Kernel), (∀ w ∈ ws, w ∈ srv.clientWrappers) →
    (∀ x ∈ srv.clientSockets, ∃ l, k.links x.fd = some l ∧ l.conn.Good) →
    ∃ k', broadcast srv m ws k = .ok k'
  | [], k, _, _ => ⟨k, rfl⟩
  | w :: ws, k, hsub, hg => by
    obtain ⟨j, hj⟩ := List.mem_iff_getElem?.mp (hsub w List.mem_cons_self)
    obtain ⟨x, hx, ha⟩ := hp.socket hj
    have hx := List.mem_of_getElem? hx
    obtain ⟨l, hl, hgood⟩ := hg x hx
    obtain ⟨c', hc', hd⟩ := serialize_sent m hgood.unfailing
    rw [broadcast, ok_bind (hp.link hx ha hl)]
    simp only [hc']
    refine broadcast_returns hp m ws (k.put x.fd l c') (fun v hv => hsub v (List.mem_cons_of_mem _ hv)) fun y hy => ?_
    by_cases he : y.fd = x.fd
    · exact ⟨_, by rw [he]; exact Kernel.put_self k _ l c', hd.good hgood⟩
    · obtain ⟨ly, hly, hgy⟩ := hg y hy
      exact ⟨ly, (Kernel.put_of_ne k l c' he).trans hly, hgy⟩

/-- The client of entry `i` has begun a message and not finished it. -/
def Midway (s : World) (i : Nat) : Prop :=
  ∃ j w x l, i = j + 1 ∧ s.srv.clientWrappers[j]? = some w ∧ s.srv.clientSockets[j]? = some x ∧
    s.kernel.links x.fd = some l ∧ rest w l.conn ≠ [] ∧ Unfinished w l

section
variable {s : World} {i : Nat} {p : PollFD}

theorem acceptClient_returns (h : Served (fun l => Silent l ∧ l.conn.Good) (fun _ w l => Sending w l) s)
    (hb : s.kernel.backlog ≠ []) (fd addr : Nat) : ∃ r, acceptClient s.srv s.kernel fd addr = .ok r := by
  obtain ⟨l, backlog, hb⟩ := List.exists_cons_of_ne_nil hb
  obtain ⟨-, hgood⟩ := h.waiting l (by rw [hb]; exact List.mem_cons_self)
  obtain ⟨c, hc, -⟩ := serializeAll_sent s.srv.messages hgood
  unfold acceptClient
  rw [hb]
  simp only [hc]
  exact ⟨_, rfl⟩

theorem acceptMessage_returns (h : Served (fun l => Silent l ∧ l.conn.Good) (fun _ w l => Sending w l) s)
    {j : Nat} {w : TSocketWrapper} {x : FileDescriptorSocket} {l : Link}
    (hw : s.srv.clientWrappers[j]? = some w) (hx : s.srv.clientSockets[j]? = some x)
    (hl : s.kernel.links x.fd = some l) (hun : ¬ Unfinished w l) (time : Int64) :
    ∃ r, acceptMessage s.srv s.kernel (j + 1) time 0 = .ok r := by
  have hsending : ∀ v y, (v, y) ∈ s.srv.clientWrappers.zip s.srv.clientSockets →
      ∃ l, s.kernel.links y.fd = some l ∧ Sending v l := h.clients
  obtain ⟨l', hl', hs⟩ := hsending w x (mem_zip_of_getElem? hw hx)
  obtain rfl := Option.some.inj (hl.symm.trans hl')
  obtain ⟨r, w', c', used, hread, -, htook, -⟩ := hs.reads.resolve_left hun
  rw [acceptMessage_eq h.parallel time 0 hw hx hl, ok_bind hread]
  cases r with
  | none => exact ⟨_, rfl⟩
  | some m =>
    have hset := h.parallel.setWrapper hw htook.socket
    obtain ⟨k', hk⟩ := broadcast_returns hset { m with accepted := time }
      (s.srv.setWrapper j w').clientWrappers (s.kernel.put x.fd l c') (fun _ hv => hv) fun y hy => by
        by_cases he : y.fd = x.fd
        · exact ⟨_, by rw [he]; exact Kernel.put_self _ _ l c', (hs.read hread).good⟩
        · obtain ⟨v, ly, hly, hsy⟩ := h.clients.opened h.parallel hy
          exact ⟨ly, (Kernel.put_of_ne _ l c' he).trans hly, hsy.good⟩
    simp only [hk]
    exact ⟨_, rfl⟩

/-- **The server goes on.** Peers send serialized messages and do not break, and writes
succeed. In every reachable state, what `poll` has reported of the entry that the loop has
come to is still so. The iteration at a reported client that has begun a message waits for
the rest of it; every other iteration returns, and nothing is thrown. -/
theorem loop_serves (h : (server.restrict Civil).Reachable s) (hi : s.i = some i)
    (hp : s.srv.pollFDs[i]? = some p) (fd addr : Nat) (time : Int64) :
    (p.revents = true → s.kernel.ready s.srv.acceptingSocketFD p.fd = true) ∧
      (p.revents = true ∧ Midway s i → visit s.srv s.kernel i p fd addr time = .error .blocked) ∧
      (¬ (p.revents = true ∧ Midway s i) → ∃ r, visit s.srv s.kernel i p fd addr time = .ok r) := by
  have hs := sending_rule.reachable h
  have hpolled := polled_reachable h.of_restrict i hi i p (Nat.le_refl i) hp
  refine ⟨hpolled, ?_, ?_⟩
  · rintro ⟨hr, j, w, x, l, rfl, hw, hx, hl, -, hun⟩
    have hfd := hs.parallel.fd_ne_accepting (Nat.succ_pos j) hp
    obtain ⟨l', hl', hsend⟩ := hs.clients w x (mem_zip_of_getElem? hw hx)
    obtain rfl := Option.some.inj (hl.symm.trans hl')
    rw [visit, if_neg (by simp [hr]), if_neg hfd, acceptMessage_eq hs.parallel time 0 hw hx hl,
      hun.blocked hsend.inv]
    rfl
  · intro hmid
    unfold visit
    split
    · exact ⟨_, rfl⟩
    · rename_i hr
      have hr : p.revents = true := by simpa using hr
      split
      · rename_i hfd
        rw [hfd] at hpolled
        exact acceptClient_returns hs ((ready_accepting _ _).mp (hpolled hr)) fd addr
      · rename_i hfd
        obtain ⟨j, rfl⟩ := hs.parallel.client_index hp hfd
        obtain ⟨x, hx, hxp⟩ := hs.parallel.socket_of_pollFD hp
        obtain ⟨w, hw⟩ := hs.parallel.wrapper hx
        obtain ⟨l, hl, hwaits⟩ := (ready_client hfd).mp (hpolled hr)
        rw [← hxp] at hl
        refine acceptMessage_returns hs hw hx hl (fun hun => hmid ⟨hr, j, w, x, l, rfl, hw, hx, hl, ?_, hun⟩) time
        have hne := bytesOf_ne_nil.mpr (hwaits.resolve_right fun hpeer => hpeer hun.1)
        exact List.append_ne_nil_of_right_ne_nil _ hne

end

/-- All of `hi` but its last two bytes. -/
def halfPiece : Piece := ⟨ascii "3\nA\n0\nh", by decide⟩

/-- The link on which it has come. -/
def halfLink : Link := ⟨⟨[halfPiece], .pending, [], []⟩, halfPiece.val⟩

/-- Behind the `poll` that reports a client with half a message. -/
def halfSent : List Label :=
  [.connect [], .poll, .visit 4 0 0, .visit 9 9 0, .visit 9 9 0, .arrive 4 halfPiece, .poll, .visit 9 9 0]

def civil (s : World) : Label → Bool
  | .connect quota => quota.all (0 < ·)
  | .arrive fd p => (s.kernel.links fd).all (·.arrived == []) && p == halfPiece
  | .hangup _ _ => false
  | _ => true

theorem civil_sound (s : World) (a : Label) (h : civil s a = true) : Civil s a := by
  have hunbroken : ∀ fd, a ≠ .hangup fd .broken := by
    rintro fd rfl
    cases h
  cases a with
  | connect quota => exact ⟨trivial, by simpa [civil, WritesSucceed] using h, hunbroken⟩
  | arrive fd p =>
    refine ⟨fun l hl => ?_, trivial, hunbroken⟩
    simp only [civil, hl, Option.all_some, Bool.and_eq_true, beq_iff_eq] at h
    obtain ⟨harr, rfl⟩ := h
    rw [harr]
    exact ⟨ascii "i\n", [hi], by simp [hi_readable], by decide +kernel⟩
  | hangup fd e => cases h
  | recut fd ps => exact ⟨trivial, trivial, hunbroken⟩
  | poll => exact ⟨trivial, trivial, hunbroken⟩
  | visit fd addr time => exact ⟨trivial, trivial, hunbroken⟩

/-- What was reported has come, and the server waits for the rest of the message. -/
theorem loop_serves_halfSent : ∃ s p, (server.restrict Civil).Reachable s ∧ s.i = some 1 ∧
    s.srv.pollFDs[1]? = some p ∧ s.kernel.ready 3 p.fd = true ∧
    visit s.srv s.kernel 1 p 9 9 0 = .error .blocked := by
  have hrun : (LTS.runFn step civil listening halfSent).map (fun s => (s.i, s.srv, s.kernel.links 4)) =
      some (some 1, ⟨3, [⟨3, false⟩, ⟨4, true⟩], [⟨0, 4⟩], [.make 0], []⟩, some halfLink) := by
    decide +kernel
  obtain ⟨⟨srv, k, i⟩, hs, hend⟩ := Option.map_eq_some_iff.mp hrun
  simp only [Prod.mk.injEq] at hend
  obtain ⟨rfl, rfl, hlink⟩ := hend
  have hr : (server.restrict Civil).Reachable _ :=
    ⟨listening, listening_init, LTS.reach_of_runFn civil_sound hs⟩
  have hun : Unfinished (.make 0) halfLink :=
    ⟨rfl, hi, ascii "i\n", hi_readable, by decide, by decide +kernel⟩
  obtain ⟨hready, hblocked, -⟩ := loop_serves hr rfl rfl 9 9 0
  exact ⟨_, _, hr, rfl, rfl, hready rfl,
    hblocked ⟨rfl, 0, .make 0, ⟨0, 4⟩, halfLink, rfl, rfl, rfl, hlink, by decide, hun⟩⟩

end NetworksLab.L5.ChatServer
