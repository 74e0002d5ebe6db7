import NetworksLab.L5Concurrency.ChatAgreement

/-!
# From the keyboards to the screens (`tcp/lib/Client.cpp`, `tcp/apps/Client.cpp`)

The peers of the server are clients: each has an author and a standard input, and
does what `poll` says, sending lines and showing messages in any order. It stops at
an empty line. So what it has sent is, at any time, a beginning of its first lines,
serialized, and the runs of the server with clients are among those of `server_posts`.

Results:
* `Types.sent`: what a client sends.
* `typed_history`: in every run of the server with clients, the history is a board of
  the lines that were typed, and every screen shows a beginning of it.
-/
namespace NetworksLab.L5.ChatServer
open NetworksLab.L2.SocketWrapper
open NetworksLab.L3.ChatMessage
open NetworksLab.L3.ChatClient (Ends Event run shown onStdinRead onServerRead lines left)
open NetworksLab.Board (posts)

/-- The lines in front of the first empty one. -/
def spoken (s : Bytes) : List Bytes := (lines s).takeWhile fun text => decide (text ≠ [])

/-- As messages. -/
def speechOf (author s : Bytes) : List TMessage := (spoken s).map fun text => ⟨author, 0, text⟩

/-! ## One client -/

/-- The first `texts` of the input `s` have been sent, and the others are still to be
read. -/
structure Typing (author s : Bytes) (texts : List Bytes) (client : L3.ChatClient.TImpl) (ends : Ends) :
    Prop where
  inv : Inv client.stdinSocket
  name : client.author = author
  unfailing : ends.net.Unfailing
  input : lines s = texts ++ lines (left client ends)
  nonempty : [] ∉ texts
  sent : ends.net.taken = texts.flatMap fun text => wire ⟨author, 0, text⟩

/-- What has been sent is the first lines. -/
def SentLines (author s : Bytes) (ends : Ends) : Prop := ends.net.taken <+: (speechOf author s).flatMap wire

variable {author s : Bytes} {texts : List Bytes} {client client' : L3.ChatClient.TImpl} {ends ends' : Ends}
  {more : Bool} {clock : Int64 → Bytes} {unset : TSocketWrapper → Conn → Int64} {out out' : Bytes}

theorem Typing.sentLines (h : Typing author s texts client ends) : SentLines author s ends := by
  have hspoken : spoken s = texts ++ (lines (left client ends)).takeWhile fun text => decide (text ≠ []) := by
    rw [spoken, h.input, List.takeWhile_append_of_pos]
    intro text ht
    exact decide_eq_true fun he => h.nonempty (he ▸ ht)
  rw [SentLines, h.sent, speechOf, hspoken, List.map_append, List.flatMap_append, List.flatMap_map]
  exact List.prefix_append _ _

/-- A line is sent. -/
theorem Typing.line (h : Typing author s texts client ends) {w : TSocketWrapper} {c net : Conn} {text : Bytes}
    (ht : text ≠ []) (hi : Inv w) (htext : text = (Cursor.readUntil LF (left client ends)).1)
    (hr : rest w c = (Cursor.readUntil LF (left client ends)).2)
    (hnet : Delivered ends.net (wire ⟨author, 0, text⟩) net) :
    Typing author s (texts ++ [text]) { client with stdinSocket := w } ⟨net, c⟩ := by
  have hs : left client ends ≠ [] := by
    intro hs
    rw [hs] at htext
    exact ht htext
  refine ⟨hi, h.name, hnet.unfailing h.unfailing, ?_, ?_, ?_⟩
  · change _ = _ ++ lines (rest w c)
    rw [h.input, lines, Cursor.fields_readUntil LF hs, hr, htext, List.append_assoc]
    rfl
  · simpa [h.nonempty] using Ne.symm ht
  · rw [hnet.taken, h.sent, List.flatMap_append, List.flatMap_singleton]

/-- Step lemma: by induction on the turns of the loop. -/
theorem onStdinRead_typing : ∀ {fuel : Nat} {texts : List Bytes} {client : L3.ChatClient.TImpl} {ends : Ends},
    Typing author s texts client ends → onStdinRead fuel client ends = .ok (more, client', ends') →
    ∃ texts', Typing author s texts' client' ends' ∨ more = false ∧ SentLines author s ends' := by
  intro fuel
  induction fuel with
  | zero => intro _ _ _ _ h; cases h
  | succ fuel ih =>
    intro texts client ends ht h
    rw [onStdinRead] at h
    obtain ⟨⟨text, w, c⟩, hread, h⟩ := bind_ok h
    dsimp only at h
    have hor : LF ∈ rest client.stdinSocket ends.stdin ∨ ends.stdin.peer = .closed := by
      by_contra hno
      rw [not_or] at hno
      have herr : ∃ e, readUntil (ends.stdin.unread.length + 1) client.stdinSocket ends.stdin LF = .error e :=
        readUntil_error ht.inv hno.1 hno.2
      obtain ⟨e, he⟩ := herr
      rw [hread] at he
      cases he
    obtain ⟨w', c', used, e1, i1, r1, t1⟩ := readUntil_spec LF (Nat.lt_succ_self _) ht.inv hor
    obtain ⟨htext, rfl, rfl⟩ :
        text = (Cursor.readUntil LF (rest client.stdinSocket ends.stdin)).1 ∧ w = w' ∧ c = c' := by
      simpa using hread.symm.trans e1
    split at h
    · cases h
      exact ⟨texts, .inr ⟨rfl, ht.sentLines⟩⟩
    · rename_i hne
      obtain ⟨net, hnet, h⟩ := bind_ok h
      obtain ⟨net', hnet', hd⟩ := serialize_sent ⟨client.author, 0, text⟩ ht.unfailing
      obtain rfl := Except.ok.inj (hnet.symm.trans hnet')
      rw [ht.name] at hd
      have hline := ht.line hne i1 htext r1 hd
      split at h
      · exact ih hline h
      · cases h
        exact ⟨_, .inl hline⟩

/-- What is shown changes nothing for the input. -/
theorem onServerRead_typing : ∀ {fuel : Nat} {client : L3.ChatClient.TImpl} {ends : Ends} {out : Bytes},
    Typing author s texts client ends →
    onServerRead clock unset fuel client ends out = .ok (more, client', ends', out') →
    Typing author s texts client' ends' := by
  intro fuel
  induction fuel with
  | zero => intro _ _ _ _ h; cases h
  | succ fuel ih =>
    intro client ends out ht h
    rw [onServerRead] at h
    obtain ⟨⟨r, w, c⟩, hread, h⟩ := bind_ok h
    obtain ⟨⟨used, hconn⟩, -⟩ := readMessage_reads hread
    have hnext : Typing author s texts { client with netSocket := w } { ends with net := c } := by
      refine ⟨ht.inv, ht.name, ?_, ht.input, ht.nonempty, ?_⟩
      · have := ht.unfailing
        rw [hconn] at this
        exact this
      · have := ht.sent
        rw [hconn] at this
        exact this
    cases r with
    | none =>
      cases h
      exact hnext
    | some m =>
      dsimp only at h
      split at h
      · exact ih hnext h
      · cases h
        exact hnext

/-- Run lemma: by induction on the events. -/
theorem run_typing {fuel : Nat} : ∀ {events : List Event} {texts : List Bytes} {client : L3.ChatClient.TImpl}
    {ends : Ends} {out : Bytes}, Typing author s texts client ends →
    run clock unset fuel events client ends out = .ok (more, client', ends', out') → SentLines author s ends'
  | [], _, _, _, _, ht, h => by
    cases h
    exact ht.sentLines
  | .server :: events, _, _, _, _, ht, h => by
    rw [L3.ChatClient.run] at h
    obtain ⟨⟨more, client1, ends1, out1⟩, hcall, h⟩ := bind_ok h
    dsimp only at h
    have ht1 := onServerRead_typing ht hcall
    split at h
    · exact run_typing ht1 h
    · cases h
      exact ht1.sentLines
  | .stdin :: events, _, _, _, _, ht, h => by
    rw [L3.ChatClient.run] at h
    obtain ⟨⟨more, client1, ends1⟩, hcall, h⟩ := bind_ok h
    dsimp only at h
    obtain ⟨texts1, ht1 | ⟨rfl, hsent⟩⟩ := onStdinRead_typing ht hcall
    · split at h
      · exact run_typing ht1 h
      · cases h
        exact ht1.sentLines
    · cases h
      exact hsent

/-- A client with this author and standard input, on a connection whose writes
succeed, whatever it gets there: after some calls it has sent at least `b`. -/
def Types (author s b : Bytes) : Prop :=
  ∃ (clock : Int64 → Bytes) (unset : TSocketWrapper → Conn → Int64) (netSocket stdinSocket fuel : Nat)
    (events : List Event) (ends : Ends) (more : Bool) (client' : L3.ChatClient.TImpl) (ends' : Ends) (out : Bytes),
    ends.net.Unfailing ∧ ends.net.taken = [] ∧ bytesOf ends.stdin.unread = s ∧
    run clock unset fuel events ⟨.make netSocket, .make stdinSocket, author⟩ ends [] =
      .ok (more, client', ends', out) ∧
    b <+: ends'.net.taken

/-- Whatever it is sent, and in whatever order `poll` reports: a client sends its
lines up to the first empty one. -/
theorem Types.sent {b : Bytes} (h : Types author s b) : b <+: (speechOf author s).flatMap wire := by
  obtain ⟨clock, unset, netSocket, stdinSocket, fuel, events, ends, more, client', ends', out, hu, htaken, hs,
    hrun, hb⟩ := h
  refine hb.trans (run_typing ⟨make_inv stdinSocket, rfl, hu, ?_, List.not_mem_nil, htaken⟩ hrun)
  rw [left, rest_make, hs]
  rfl

/-! ## The server and its clients -/

/-- Peers that are clients, each with its author and standard input, and socket
writes that succeed. -/
def FromClients (author input : Nat → Bytes) (t : Traced) (a : Label) : Prop :=
  WritesSucceed t.world a ∧ ∀ fd p, a = .arrive fd p → ∀ l, t.world.kernel.links fd = some l →
    Types (author (t.owner fd)) (input (t.owner fd)) (l.arrived ++ p.val)

theorem FromClients.chats {author input : Nat → Bytes} {t : Traced} {a : Label} (h : FromClients author input t a) :
    Chats (fun n => speechOf (author n) (input n)) t a := by
  refine ⟨?_, h.1⟩
  cases a with
  | arrive fd p => exact fun l hl => (h.2 fd p rfl l hl).sent
  | _ => trivial

/-- A line has no line feed in it, so only the lengths are in question. -/
theorem speechOf_readable (ha : LF ∉ author) (hlen : author.length < 2 ^ 31 - 1)
    (hl : ∀ text ∈ lines s, text.length < 2 ^ 31 - 1) : ∀ m ∈ speechOf author s, Readable m := by
  intro m hm
  obtain ⟨text, htext, rfl⟩ := List.mem_map.mp hm
  exact ⟨ha, hlen, hl text (List.takeWhile_subset _ htext)⟩

/-- **From the keyboards to the screens.** In every run of the server with clients:
the history has of each connection, under its author, a beginning of the lines that
were typed there up to the first empty one; and every screen shows a beginning of the
history. -/
theorem typed_history {author input : Nat → Bytes} {t : Traced}
    (ha : ∀ n, LF ∉ author n ∧ (author n).length < 2 ^ 31 - 1)
    (hl : ∀ n, ∀ text ∈ lines (input n), text.length < 2 ^ 31 - 1)
    (h : (traced.restrict (FromClients author input)).Reachable t) (clock : Int64 → Bytes) :
    (∀ n, (posts n t.log).map content <+: (spoken (input n)).map fun text => (author n, text)) ∧
    ∀ x ∈ t.world.srv.clientSockets, ∀ out, Sees t clock x out →
      ∃ k, out = shown clock ((t.log.map Prod.snd).take k) := by
  have hs : ∀ n, ∀ m ∈ speechOf (author n) (input n), Readable m := fun n =>
    speechOf_readable (ha n).1 (ha n).2 (hl n)
  have hr := h.weaken fun _ _ hC => FromClients.chats hC
  refine ⟨fun n => ?_, fun x hx out hsees => hsees.shown hs hr hx⟩
  have hpre := Board.posts_isPrefix (posted_reachable hs (chats_speaks hr)) n
  rw [Traced.posted, Board.posts_map, speechOf, List.map_map] at hpre
  exact hpre

/-- The first client, at whose keyboard a line is typed. -/
def hiTyped : Ends := ⟨⟨[], .pending, [], []⟩, .ofPieces [⟨ascii "hi\n", by decide⟩]⟩

/-- It has sent the line. -/
theorem hiTyped_types : Types (ascii "A") (ascii "hi\n") hiBytes := by
  have hrun : (run (fun _ => []) (fun _ _ => 0) 2 [.stdin] ⟨.make 0, .make 1, ascii "A"⟩ hiTyped []).map
      (fun r => r.2.2.1.net.taken) = .ok hiBytes := by
    decide +kernel
  cases hr : run (fun _ => []) (fun _ _ => 0) 2 [.stdin] ⟨.make 0, .make 1, ascii "A"⟩ hiTyped [] with
  | error e =>
    rw [hr] at hrun
    cases hrun
  | ok r =>
    rw [hr] at hrun
    obtain ⟨more, client', ends', out⟩ := r
    have htaken := Except.ok.inj hrun
    exact ⟨_, _, 0, 1, 2, [.stdin], hiTyped, more, client', ends', out, fun q hq => absurd hq List.not_mem_nil, rfl,
      by decide +kernel, hr, by rw [← htaken]⟩

/-- What comes is the line. -/
def hiArrives (t : Traced) : Label → Bool
  | .arrive fd p => (t.world.kernel.links fd).all fun l => l.arrived ++ p.val == hiBytes
  | _ => true

theorem hiArrives_sound (t : Traced) (a : Label) (h : (hiArrives t a && positiveQuotas t.world a) = true) :
    FromClients (fun _ => ascii "A") (fun _ => ascii "hi\n") t a := by
  rw [Bool.and_eq_true] at h
  constructor
  · cases a with
    | connect quota => simpa [positiveQuotas, WritesSucceed] using h.2
    | _ => trivial
  · rintro fd p rfl l hl
    have hp : l.arrived ++ p.val = hiBytes := by simpa [hiArrives, hl] using h.1
    rw [hp]
    exact hiTyped_types

/-- The line is in the history. -/
theorem typed_history_hi : ∃ t,
    (traced.restrict (FromClients (fun _ => ascii "A") fun _ => ascii "hi\n")).Reachable t ∧
    t.log = [(0, ⟨ascii "A", 77, ascii "hi"⟩)] ∧
    (posts 0 t.log).map content <+: (spoken (ascii "hi\n")).map fun text => (ascii "A", text) := by
  have hrun : (LTS.runFn Traced.step (fun t a => hiArrives t a && positiveQuotas t.world a)
      ⟨listening, fun _ => 0, 0, []⟩ (oneClient onePiece)).map (·.log) =
      some [(0, ⟨ascii "A", 77, ascii "hi"⟩)] := by
    decide +kernel
  obtain ⟨t, ht, hlog⟩ := Option.map_eq_some_iff.mp hrun
  have hr : (traced.restrict (FromClients (fun _ => ascii "A") fun _ => ascii "hi\n")).Reachable t :=
    ⟨_, ⟨listening_init, rfl, rfl⟩, LTS.reach_of_runFn hiArrives_sound ht⟩
  exact ⟨t, hr, hlog, (typed_history (fun _ => by decide) (fun _ => by decide) hr fun _ => []).1 0⟩

end NetworksLab.L5.ChatServer
