import NetworksLab.L5Concurrency.TftpServing

/-!
# What the TFTP server takes and whom it answers (`udp/lib/Server.cpp`)

Every run of the poll loop, timeouts included.

Results:
* `step_turn`: in a step that is not an arrival, what is handled has waited on the socket
  that it is handled for, and nothing else comes to wait (`Turn`).
* `course_addressed`: a session sends to the client that has opened it, but for the
  answers to datagrams that it cannot parse.
-/
namespace NetworksLab.L5.TftpPoll
open NetworksLab.L1.Packet NetworksLab.L1.NetAscii NetworksLab.L2.Stream NetworksLab.L3.Tftp

variable {K : Type} [DecidableEq K]

/-! ## What a step takes -/

/-- The datagram waits on the descriptor. -/
def World.Queued (w : World K) (fd : Nat) (d : Datagram) : Prop := ∃ queue, w.sockets fd = some queue ∧ d ∈ queue

/-- What may happen to a session in a step: datagrams come from its own socket, and
requests from the request socket. -/
inductive Taken (S : Setup K) (w : World K) (l : Label) (id : Nat) : Happening → Prop
  | request {fd : Nat} {port : UInt16} {d : Datagram} {e : Env} {io : Io} {q : TRequestPacket} : id = w.next →
      l = .accept fd port e io → w.Queued S.requests d → d.packet = some (.request q) →
      Taken S w l id (.request id fd port d e)
  | datagram {c : Session} {d : Datagram} {e : Env} : c ∈ w.clients → c.id = id → w.Queued c.fd d →
      Taken S w l id (.datagram d e)
  | sweep {io : Io} : Taken S w l id (.sweep io)

/-- A step that is not an arrival. -/
structure Turn (S : Setup K) (w : World K) (l : Label) (w' : World K) : Prop where
  queued : ∀ fd d, w'.Queued fd d → w.Queued fd d
  client : ∀ c ∈ w'.clients, (∃ c₀ ∈ w.clients, c₀.id = c.id ∧ c₀.fd = c.fd) ∨
    (w.next ≤ c.id ∧ ∀ d, ¬ w'.Queued c.fd d)
  own : ∀ id, ∃ more, w'.own id = w.own id ++ more ∧ ∀ x ∈ more, Taken S w l id x
  sent : ∀ id, w.sent id ⊆ w'.sent id

section
variable {S : Setup K} {w w' : World K} {l : Label}

omit [DecidableEq K] in
/-- What has happened by the end of the step. -/
theorem Turn.happened (h : Turn S w l w') {id : Nat} {x : Happening} (hx : x ∈ w'.own id) :
    x ∈ w.own id ∨ Taken S w l id x := by
  obtain ⟨more, hown, hmore⟩ := h.own id
  rw [hown] at hx
  exact (List.mem_append.mp hx).imp_right (hmore x)

omit [DecidableEq K] in
/-- What had happened before. -/
theorem Turn.own_mono (h : Turn S w l w') {id : Nat} {x : Happening} (hx : x ∈ w.own id) : x ∈ w'.own id := by
  obtain ⟨more, hown, -⟩ := h.own id
  rw [hown]
  exact List.mem_append_left _ hx

omit [DecidableEq K] in
/-- Nothing happens to any session. -/
theorem Turn.quiet (hqueued : ∀ fd d, w'.Queued fd d → w.Queued fd d) (hclients : w'.clients = w.clients)
    (hlog : w'.log = w.log) (hsent : w'.sent = w.sent) : Turn S w l w' where
  queued := hqueued
  client c hc := .inl ⟨c, hclients ▸ hc, rfl, rfl⟩
  own id := ⟨[], by rw [World.own, hlog, List.append_nil]; rfl, fun x hx => absurd hx List.not_mem_nil⟩
  sent id := by rw [hsent]; exact List.Subset.refl _

omit [DecidableEq K] in
/-- What is left of a queue. -/
theorem queued_update {sockets : Nat → Option (List Datagram)} {fd : Nat} {d : Datagram} {queue : List Datagram}
    (hw : w.sockets = sockets) (hq : sockets fd = some (d :: queue))
    (hw' : w'.sockets = Function.update sockets fd (some queue)) (fd' : Nat) (d' : Datagram)
    (h : w'.Queued fd' d') : w.Queued fd' d' := by
  obtain ⟨queue', hq', hmem⟩ := h
  rw [hw'] at hq'
  by_cases hfd : fd' = fd
  · subst hfd
    rw [Function.update_self] at hq'
    obtain rfl := Option.some.inj hq'
    exact ⟨_, hw ▸ hq, List.mem_cons_of_mem _ hmem⟩
  · rw [Function.update_of_ne hfd] at hq'
    exact ⟨queue', hw ▸ hq', hmem⟩

omit [DecidableEq K] in
theorem poll_turn {ready : List Bool} {pollTime : Int} (hs : w.poll S ready pollTime = some w') :
    Turn S w l w' := by
  simp only [World.poll] at hs
  split at hs
  · cases hs
    exact .quiet (fun _ _ h => h) rfl rfl rfl
  · cases hs

/-- The session `c` at the index handles a datagram. -/
theorem handlePacket_turn {r : Round} {c : Session} (hc : w.clients[r.i - 1]? = some c) {d : Datagram}
    {queue : List Datagram} (hq : w.sockets c.fd = some (d :: queue)) (e : Env) :
    Turn S w l (World.handlePacket S { w with sockets := Function.update w.sockets c.fd (some queue) } r c d e) where
  queued := queued_update rfl hq rfl
  client c' hc' := by
    rcases List.mem_or_eq_of_mem_set hc' with hc' | rfl
    · exact .inl ⟨c', hc', rfl, rfl⟩
    · exact .inl ⟨c, List.mem_of_getElem? hc, rfl, rfl⟩
  own id := by
    refine ⟨ownEvents id [(c.id, .datagram d e)], ownEvents_append .., fun x hx => ?_⟩
    obtain ⟨hid, rfl⟩ := Prod.mk.inj (List.mem_singleton.mp (mem_ownEvents.mp hx))
    exact .datagram (List.mem_of_getElem? hc) hid.symm ⟨_, hq, List.mem_cons_self⟩
  sent id := by
    have hsent : (World.handlePacket S { w with sockets := Function.update w.sockets c.fd (some queue) } r c d e).sent =
      Function.update w.sent c.id (w.sent c.id ++ (c.handlePacket S w.files d e).sends) := rfl
    rw [hsent]
    by_cases hid : id = c.id
    · rw [hid, Function.update_self]
      exact List.subset_append_left _ _
    · rw [Function.update_of_ne hid]
      exact List.Subset.refl _

theorem visit_turn {e : Env} (hs : w.visit S e = some w') : Turn S w l w' := by
  simp only [World.visit] at hs
  split at hs
  · split at hs
    · rename_i hc
      split at hs
      · obtain ⟨⟨d, w₁⟩, hrecv, rfl⟩ := Option.map_eq_some_iff.mp hs
        obtain ⟨queue, hq, rfl⟩ := recv_some hrecv
        exact handlePacket_turn hc hq e
      · cases hs
        exact .quiet (fun _ _ h => h) rfl rfl rfl
    · cases hs
  · cases hs

theorem compact_turn {io : Nat → Io} (hs : w.compact S io = some w') : Turn S w l w' := by
  simp only [World.compact] at hs
  split at hs
  · split at hs
    · cases hs
    · cases hs
      refine ⟨fun fd d h => ?_, fun c hc => ?_, fun id => ?_, fun id => List.Subset.refl _⟩
      · obtain ⟨queue, hq, hmem⟩ := h
        dsimp only at hq
        rw [closeAll_apply] at hq
        split at hq
        · cases hq
        · exact ⟨queue, hq, hmem⟩
      · obtain ⟨x, hx, rfl⟩ := List.mem_map.mp hc
        exact .inl ⟨x.1, (List.of_mem_zip (List.mem_filter.mp hx).1).1, rfl, rfl⟩
      · refine ⟨ownEvents id (w.clients.map fun c => (c.id, Happening.sweep (io c.id))), ?_, fun x hx => ?_⟩
        · exact ownEvents_append ..
        · obtain ⟨c, -, heq⟩ := List.mem_map.mp (mem_ownEvents.mp hx)
          obtain ⟨-, rfl⟩ := Prod.mk.inj heq
          exact .sweep
  · cases hs

theorem addClient_turn (hu : w.Unborn) {queue : List Datagram} {d : Datagram}
    (hq : w.sockets S.requests = some (d :: queue)) {fd : Nat} {port : UInt16} {e : Env} {r : Reply K}
    (hr : S.acceptClient w.files w.next fd port d e = some (.opened r)) (io : Io) :
    Turn S w (.accept fd port e io)
      (World.addClient S { w with sockets := Function.update w.sockets S.requests (some queue) } fd r
        (.request w.next fd port d e) io) := by
  obtain ⟨q, role, hpacket, -, hreply⟩ := acceptClient_opens hr
  have hsockets : (World.addClient S { w with sockets := Function.update w.sockets S.requests (some queue) } fd r
      (.request w.next fd port d e) io).sockets = if r.more then
        Function.update (Function.update w.sockets S.requests (some queue)) fd (some [])
      else Function.update w.sockets S.requests (some queue) := rfl
  refine ⟨fun fd' d' h => ?_, fun c hc => ?_, fun id => ?_, fun id => ?_⟩
  · obtain ⟨queue', hq', hmem⟩ := h
    rw [hsockets] at hq'
    have hrest : Function.update w.sockets S.requests (some queue) fd' = some queue' := by
      split at hq'
      · by_cases hfd : fd' = fd
        · rw [hfd, Function.update_self] at hq'
          obtain rfl := Option.some.inj hq'
          cases hmem
        · rwa [Function.update_of_ne hfd] at hq'
      · exact hq'
    have hqueued : World.Queued { w with sockets := Function.update w.sockets S.requests (some queue) } fd' d' :=
      ⟨queue', hrest, hmem⟩
    exact queued_update rfl hq rfl fd' d' hqueued
  · rcases mem_addClient.mp hc with hc | ⟨hmore, rfl⟩
    · exact .inl ⟨c, hc, rfl, rfl⟩
    · have hfd : r.session.fd = fd := by rw [hreply]
      refine .inr ⟨Nat.le_of_eq (acceptClient_session hr).1.symm, fun d' h => ?_⟩
      obtain ⟨queue', hq', hmem⟩ := h
      rw [hsockets, if_pos hmore, hfd, Function.update_self] at hq'
      obtain rfl := Option.some.inj hq'
      cases hmem
  · have hu' : World.Unborn { w with sockets := Function.update w.sockets S.requests (some queue) } := hu
    rw [own_addClient hu']
    split
    · rename_i hid
      subst hid
      refine ⟨[.request w.next fd port d e, .sweep io], ?_, fun x hx => ?_⟩
      · rw [(hu w.next (Nat.le_refl _)).1]
        rfl
      · rcases List.mem_cons.mp hx with rfl | hx
        · exact .request rfl rfl ⟨_, hq, List.mem_cons_self⟩ hpacket
        · obtain rfl := List.mem_singleton.mp hx
          exact .sweep
    · exact ⟨[], (List.append_nil _).symm, fun x hx => absurd hx List.not_mem_nil⟩
  · have hsent : (World.addClient S { w with sockets := Function.update w.sockets S.requests (some queue) } fd r
      (.request w.next fd port d e) io).sent = Function.update w.sent w.next (w.sent w.next ++ r.sends) := rfl
    rw [hsent]
    by_cases hid : id = w.next
    · rw [hid, Function.update_self]
      exact List.subset_append_left _ _
    · rw [Function.update_of_ne hid]
      exact List.Subset.refl _

theorem accept_turn (hu : w.Unborn) {fd : Nat} {port : UInt16} {e : Env} {io : Io}
    (hs : w.accept S fd port e io = some w') : Turn S w (.accept fd port e io) w' := by
  obtain ⟨b, -, rfl | ⟨d, w₁, hr, hs⟩⟩ := accept_cases hs
  · exact .quiet (fun _ _ h => h) rfl rfl rfl
  · obtain ⟨queue, hq, rfl⟩ := recv_some hr
    obtain rfl | ⟨r, hr, -, rfl⟩ := hs
    · exact .quiet (queued_update rfl hq rfl) rfl rfl rfl
    · exact addClient_turn hu hq hr io

theorem step_turn (hu : w.Unborn) (hl : ∀ fd d, l ≠ .arrive fd d) (hs : w.step S l = some w') : Turn S w l w' := by
  cases l with
  | arrive fd d => exact absurd rfl (hl fd d)
  | poll ready pollTime => exact poll_turn hs
  | visit e => exact visit_turn hs
  | compact io => exact compact_turn hs
  | accept fd port e io => exact accept_turn hu hs

omit [DecidableEq K] in
/-- The request that has opened a session stays; a new one was on the request socket. -/
theorem Turn.opening (h : Turn S w l w') (id : Nat) : w'.opening id = w.opening id ∨
    (id = w.next ∧ ∃ d q, w.Queued S.requests d ∧ d.packet = some (.request q) ∧ w'.opening id = some (d.src, q)) := by
  obtain ⟨more, hown, hmore⟩ := h.own id
  rw [World.opening, World.opening, hown]
  cases hold : w.own id with
  | cons x xs => exact .inl rfl
  | nil =>
    cases more with
    | nil => exact .inl rfl
    | cons x xs =>
      cases hmore x List.mem_cons_self with
      | request hid _ hq hd => exact .inr ⟨hid, _, _, hq, hd, by simp [Happening.opener, hd]⟩
      | datagram => exact .inl rfl
      | sweep => exact .inl rfl

end

/-! ## Whom a session answers -/

section
variable {S : Setup K} {id : Nat} {k : K} {t : Course}

/-- What has been sent, but for error packets, went to the client that had asked. -/
def Course.Addressed (t : Course) : Prop :=
  (t.stage = .unborn ∧ t.events = [] ∧ t.sent = []) ∨ (t.stage ≠ .unborn ∧ t.events ≠ [] ∧ ∃ src q, t.Opened src q ∧
    (∀ x ∈ t.sent, x.1 = src ∨ ∃ e, x.2 = .error e) ∧ ∀ c, t.stage = .going c → c.client.address = src)

theorem Course.Opened.append {src : Endpoint} {q : TRequestPacket} (h : t.Opened src q) (hne : t.events ≠ [])
    (more : List Happening) : (t.events ++ more).head?.bind Happening.opener = some (src, q) := by
  rwa [List.head?_append_of_ne_nil _ hne]

theorem handlePacket_addressed (files : Files) (disk : Disk) (c : IClient) (packet : TReceiveResult) :
    (∀ x ∈ (c.handlePacket files disk packet).2.1, x.1 = c.address ∨ ∃ e, x.2 = .error e) ∧
      (c.handlePacket files disk packet).1.address = c.address := by
  unfold IClient.handlePacket
  split
  · refine ⟨fun x hx => .inr ?_, rfl⟩
    obtain rfl := List.mem_singleton.mp hx
    exact ⟨_, rfl⟩
  · refine ⟨fun x hx => .inl ?_, rfl⟩
    obtain ⟨p, -, rfl⟩ := List.mem_map.mp hx
    rfl

theorem course_addressed (h : (course S id k).Reachable t) : t.Addressed := by
  have hind : (course S id k).Inductive Course.Addressed := by
    refine ⟨fun t ht => .inl (ht ▸ ⟨rfl, rfl, rfl⟩), fun t _ t' hinv hs => .inr ?_⟩
    have hs : Course.Step S id k t t' := hs
    have hborn {stage : Stage} (hstage : t.stage = stage) (hne : stage ≠ .unborn) : t.events ≠ [] ∧
        ∃ src q, t.Opened src q ∧ (∀ x ∈ t.sent, x.1 = src ∨ ∃ e, x.2 = .error e) ∧
          ∀ c, t.stage = .going c → c.client.address = src := by
      rcases hinv with hinv | hinv
      · exact absurd (hstage.symm.trans hinv.1) hne
      · exact hinv.2
    cases hs with
    | request hstage hf hr io =>
      obtain ⟨-, hevents, hsent⟩ | hinv := hinv
      · obtain ⟨q, role, hq, hnew, rfl⟩ := acceptClient_opens hr
        rename_i d _
        refine ⟨?_, by simp [Course.open_], d.src, q, ?_, fun x hx => .inl ?_, fun c hc => ?_⟩
        · simp only [Course.open_]
          split <;> simp
        · simp [Course.Opened, Course.open_, hevents, Happening.opener, hq]
        · simp only [Course.open_, hsent, List.nil_append] at hx
          obtain ⟨p, -, rfl⟩ := List.mem_map.mp hx
          rfl
        · simp only [Course.open_] at hc
          split at hc
          · exact Stage.going.inj hc ▸ rfl
          · cases hc
      · exact absurd hstage hinv.1
    | datagram hstage hf d e =>
      obtain ⟨hne, src, q, ho, hsent, hgoing⟩ := hborn hstage Stage.noConfusion
      rename_i files c
      obtain ⟨hsends, haddress⟩ := handlePacket_addressed (S.view files) e.io.disk c.client
        (TTransport.receive d.src d.bytes)
      have hc := hgoing c hstage
      refine ⟨?_, by simp [Course.handle], src, q, ho.append hne _, fun x hx => ?_, fun c' hc' => ?_⟩
      · simp only [Course.handle]
        split <;> simp
      · rcases List.mem_append.mp hx with hx | hx
        · exact hsent x hx
        · exact hc ▸ hsends x hx
      · simp only [Course.handle] at hc'
        split at hc'
        · exact Stage.going.inj hc' ▸ haddress.trans hc
        · cases hc'
    | late hstage =>
      obtain ⟨hne, src, q, ho, hsent, -⟩ := hborn hstage Stage.noConfusion
      exact ⟨by simp, hne, src, q, ho, hsent, fun c hc => by cases hc⟩
    | sweep hstage io =>
      obtain ⟨hne, src, q, ho, hsent, hgoing⟩ := hborn hstage Stage.noConfusion
      exact ⟨by simp [hstage], by simp, src, q, ho.append hne _, hsent, hgoing⟩
    | destroy hstage hf io =>
      obtain ⟨hne, src, q, ho, hsent, -⟩ := hborn hstage Stage.noConfusion
      exact ⟨by simp, by simp, src, q, ho.append hne _, hsent, fun c hc => by cases hc⟩
  exact hind.reachable t h

end

end NetworksLab.L5.TftpPoll
