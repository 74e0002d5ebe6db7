import NetworksLab.L3Protocol.ChatDisplay
import NetworksLab.L5Concurrency.ChatOrder

/-!
# What the clients see (`tcp/lib/Client.cpp`, `tcp/lib/Server.cpp`)

Every client is sent `Messages_` from the first message on (`sent_rule`), gets a
beginning of it in some pieces and shows what it has read. So all clients show
beginnings of one history; who came later or is slower sees less of it.

Results:
* `clients_agree`: in every run, what any client shows is a beginning of the
  history, all of it if it has read all, and of two clients one shows a beginning of
  what the other shows.
-/
namespace NetworksLab.L5.ChatServer
open NetworksLab.L2.SocketWrapper
open NetworksLab.L3.ChatMessage
open NetworksLab.L3.ChatClient (Ends Event run shown Showing run_showing)
open NetworksLab.Board (posts)

/-- A client that was started on a connection on which it gets `ends.net`: after some
calls of `OnServerRead` and `OnStdinRead`, `out` is on its screen and `left` is still
to be read. -/
def Watches (clock : Int64 → Bytes) (ends : Ends) (out : Bytes) (left : List Piece) : Prop :=
  ∃ (unset : TSocketWrapper → Conn → Int64) (netSocket stdinSocket : Nat) (author : Bytes) (fuel : Nat)
    (events : List Event) (client' : L3.ChatClient.TImpl) (ends' : Ends),
    run clock unset fuel events ⟨.make netSocket, .make stdinSocket, author⟩ ends [] =
      .ok (true, client', ends', out) ∧ ends'.net.unread = left

variable {clock : Int64 → Bytes} {ends : Ends} {out : Bytes} {left : List Piece}

/-- A client that gets a beginning of a history shows a beginning of it, and all of
it behind its end. -/
theorem Watches.shown {msgs : List TMessage} (hs : ∀ m ∈ msgs, Readable m) {missing : Bytes}
    (hb : bytesOf ends.net.unread ++ missing = msgs.flatMap wire) (h : Watches clock ends out left) :
    (∃ k, out = shown clock (msgs.take k)) ∧ (missing = [] → left = [] → out = shown clock msgs) := by
  obtain ⟨unset, netSocket, stdinSocket, author, fuel, events, client', ends', hrun, rfl⟩ := h
  have hframes : bytesOf ends.net.unread ++ missing = msgs.flatMap frame := by
    rw [hb]
    exact List.flatMap_congr fun m hm => (hs m hm).wire_eq
  have hstart : Showing clock ends.net.unread missing [] msgs ⟨.make netSocket, .make stdinSocket, author⟩
      ends [] :=
    ⟨make_inv netSocket, List.suffix_rfl, (rest_make netSocket _).symm, by rw [rest_make]; exact hframes, rfl⟩
  obtain ⟨taken, todo, rfl, hend, hp⟩ :=
    run_showing (fun m hm => ⟨(hs m hm).author, (hs m hm).textLength⟩) hstart rfl hrun
  refine ⟨⟨taken.length, by rw [List.take_left' rfl]; exact hend.out⟩, fun hmissing hleft => ?_⟩
  have htodo := hend.stream
  rw [rest, hp, hleft, bytesOf_nil, hmissing, List.append_nil, List.append_nil] at htodo
  cases todo with
  | nil =>
    rw [List.append_nil]
    exact hend.out
  | cons m todo =>
    rw [List.flatMap_cons] at htodo
    exact absurd (List.append_eq_nil_iff.mp htodo.symm).1 (frame_ne_nil m)

/-- Peers that say their messages, and socket writes that succeed. -/
def Chats (speech : Nat → List TMessage) (t : Traced) (a : Label) : Prop :=
  Speaks speech t a ∧ WritesSucceed t.world a

/-- A client at the other end of a connection that has got a beginning of what it has
been sent may show `out`. -/
def Sees (t : Traced) (clock : Int64 → Bytes) (x : FileDescriptorSocket) (out : Bytes) : Prop :=
  ∃ l ends left, t.world.kernel.links x.fd = some l ∧ bytesOf ends.net.unread <+: l.conn.taken ∧
    Watches clock ends out left

/-- It has got all of that, and read it. -/
def SeesAll (t : Traced) (clock : Int64 → Bytes) (x : FileDescriptorSocket) (out : Bytes) : Prop :=
  ∃ l ends, t.world.kernel.links x.fd = some l ∧ bytesOf ends.net.unread = l.conn.taken ∧
    Watches clock ends out []

section
variable {speech : Nat → List TMessage} {t : Traced}

theorem chats_speaks (h : (traced.restrict (Chats speech)).Reachable t) :
    (traced.restrict (Speaks speech)).Reachable t :=
  h.weaken fun _ _ hC => hC.1

theorem chats_writes (h : (traced.restrict (Chats speech)).Reachable t) :
    (server.restrict WritesSucceed).Reachable t.world :=
  traced_world (h.weaken fun _ _ hC => hC.2)

/-- Every client has been sent the history. -/
theorem history_sent (hs : ∀ n, ∀ m ∈ speech n, Readable m)
    (h : (traced.restrict (Chats speech)).Reachable t) {x : FileDescriptorSocket}
    (hx : x ∈ t.world.srv.clientSockets) {l : Link} (hl : t.world.kernel.links x.fd = some l) :
    l.conn.taken = (t.log.map Prod.snd).flatMap wire := by
  have hserved := sent_rule.reachable (chats_writes h)
  obtain ⟨w, l', hl', -, htaken⟩ := hserved.clients.opened hserved.parallel hx
  obtain rfl := Option.some.inj (hl.symm.trans hl')
  rw [htaken, (tracked_of_reachable hs (chats_speaks h)).log]

theorem history_readable (hs : ∀ n, ∀ m ∈ speech n, Readable m)
    (h : (traced.restrict (Chats speech)).Reachable t) : ∀ m ∈ t.log.map Prod.snd, Readable m := by
  intro m hm
  obtain ⟨e, he, rfl⟩ := List.mem_map.mp hm
  exact readable_of_log hs (chats_speaks h) he

theorem Sees.shown (hs : ∀ n, ∀ m ∈ speech n, Readable m)
    (h : (traced.restrict (Chats speech)).Reachable t) {x : FileDescriptorSocket}
    (hx : x ∈ t.world.srv.clientSockets) (hsees : Sees t clock x out) :
    ∃ k, out = shown clock ((t.log.map Prod.snd).take k) := by
  obtain ⟨l, ends, left, hl, ⟨missing, hmissing⟩, hw⟩ := hsees
  exact (hw.shown (history_readable hs h) (hmissing.trans (history_sent hs h hx hl))).1

theorem shown_mono (clock : Int64 → Bytes) (msgs : List TMessage) {j k : Nat} (hle : j ≤ k) :
    shown clock (msgs.take j) <+: shown clock (msgs.take k) := by
  obtain ⟨s, hs⟩ := List.take_prefix_take_left (l := msgs) hle
  rw [← hs, shown, shown, List.flatMap_append]
  exact List.prefix_append _ _

/-- **Agreement.** In every run in which the peers send their messages, in any pieces,
and the socket writes succeed: the history has the messages of each connection in
their order; what a client shows is a beginning of the history, and the history if it
got and read all of it; and of what two clients show, one is a beginning of the other. -/
theorem clients_agree (hs : ∀ n, ∀ m ∈ speech n, Readable m)
    (h : (traced.restrict (Chats speech)).Reachable t) (clock : Int64 → Bytes) :
    (∀ n, (posts n t.log).map content <+: (speech n).map content) ∧
    (∀ x ∈ t.world.srv.clientSockets, ∀ out,
      (Sees t clock x out → ∃ k, out = shown clock ((t.log.map Prod.snd).take k)) ∧
      (SeesAll t clock x out → out = shown clock (t.log.map Prod.snd))) ∧
    ∀ x ∈ t.world.srv.clientSockets, ∀ y ∈ t.world.srv.clientSockets, ∀ out out',
      Sees t clock x out → Sees t clock y out' → out <+: out' ∨ out' <+: out := by
  refine ⟨fun n => ?_, fun x hx out => ⟨fun hsees => hsees.shown hs h hx, fun hsees => ?_⟩,
    fun x hx y hy out out' hxs hys => ?_⟩
  · have := Board.posts_isPrefix (posted_reachable hs (chats_speaks h)) n
    rwa [Traced.posted, Board.posts_map] at this
  · obtain ⟨l, ends, hl, hb, hw⟩ := hsees
    have hwhole : bytesOf ends.net.unread ++ [] = (t.log.map Prod.snd).flatMap wire := by
      rw [List.append_nil, hb, history_sent hs h hx hl]
    exact (hw.shown (history_readable hs h) hwhole).2 rfl rfl
  · obtain ⟨j, rfl⟩ := hxs.shown hs h hx
    obtain ⟨k, rfl⟩ := hys.shown hs h hy
    exact (Nat.le_total j k).imp (shown_mono clock _) (shown_mono clock _)

end

/-- What the first client has been sent. -/
def hiEnds : Ends := ⟨⟨[⟨ascii "3\nA\n77\nhi\n", by decide⟩], .pending, [], []⟩, .ofPieces []⟩

theorem hiEnds_watched : Watches (fun _ => ascii "19:29") hiEnds (ascii "<19:29> [A] hi\n") [] := by
  have hrun : (run (fun _ => ascii "19:29") (fun _ _ => 0) 2 [.server] ⟨.make 0, .make 1, ascii "A"⟩ hiEnds []).map
      (fun r => (r.1, r.2.2.2, r.2.2.1.net.unread.length)) = .ok (true, ascii "<19:29> [A] hi\n", 0) := by
    decide +kernel
  cases hr : run (fun _ => ascii "19:29") (fun _ _ => 0) 2 [.server] ⟨.make 0, .make 1, ascii "A"⟩ hiEnds [] with
  | error e =>
    rw [hr] at hrun
    cases hrun
  | ok r =>
    rw [hr] at hrun
    obtain ⟨more, client', ends', out⟩ := r
    simp only [Except.map, Except.ok.injEq, Prod.mk.injEq] at hrun
    obtain ⟨rfl, rfl, hlen⟩ := hrun
    exact ⟨_, 0, 1, ascii "A", 2, [.server], client', ends', hr, List.eq_nil_of_length_eq_zero hlen⟩

/-- The client that said the message, and shows it. -/
theorem clients_agree_hi : ∃ t, (traced.restrict (Chats hiSpeech)).Reachable t ∧
    SeesAll t (fun _ => ascii "19:29") ⟨0, 4⟩ (ascii "<19:29> [A] hi\n") ∧
    ∀ out, SeesAll t (fun _ => ascii "19:29") ⟨0, 4⟩ out →
      out = shown (fun _ => ascii "19:29") [⟨ascii "A", 77, ascii "hi"⟩] := by
  have hrun : (LTS.runFn Traced.step (fun t a => hiSpeaks t a && positiveQuotas t.world a)
      ⟨listening, fun _ => 0, 0, []⟩ (oneClient onePiece)).map (fun t =>
      (t.log, t.world.srv.clientSockets, (t.world.kernel.links 4).map (·.conn.taken))) =
      some ([(0, ⟨ascii "A", 77, ascii "hi"⟩)], [⟨0, 4⟩], some (bytesOf hiEnds.net.unread)) := by
    decide +kernel
  obtain ⟨t, ht, heq⟩ := Option.map_eq_some_iff.mp hrun
  simp only [Prod.mk.injEq] at heq
  obtain ⟨hlog, hsockets, htaken⟩ := heq
  obtain ⟨l, hl, htaken⟩ := Option.map_eq_some_iff.mp htaken
  have hr : (traced.restrict (Chats hiSpeech)).Reachable t := by
    refine ⟨_, ⟨listening_init, rfl, rfl⟩, LTS.reach_of_runFn (fun t a h => ?_) ht⟩
    rw [Bool.and_eq_true] at h
    refine ⟨hiSpeaks_sound t a h.1, ?_⟩
    cases a with
    | connect quota => simpa [positiveQuotas, WritesSucceed] using h.2
    | _ => trivial
  refine ⟨t, hr, ⟨l, hiEnds, hl, htaken.symm, hiEnds_watched⟩, fun out hout => ?_⟩
  have hall := ((clients_agree hiSpeech_readable hr _).2.1 ⟨0, 4⟩ (by simp [hsockets]) out).2 hout
  rw [hall, hlog]
  rfl

end NetworksLab.L5.ChatServer
