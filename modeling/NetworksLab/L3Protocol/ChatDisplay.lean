import NetworksLab.L3Protocol.ChatClient
import NetworksLab.L3Protocol.ChatReader

/-!
# What the chat client shows (`tcp/lib/Client.cpp`, `tcp/apps/Client.cpp`)

`OnServerRead` reads messages and shows each, as long as there is read-ahead
data. `main` calls it when the connection is readable, and `OnStdinRead` when
there is input. The time of day in front of a message comes from outside.

A read may stop anywhere in a message; the call then waits for the rest of it.
So a call that returns has shown all that was read: `Showing` ties the two
together.

Results:
* `onServerRead_showing`, `run_showing`: what a call keeps, and all calls.
* `displays_of_short`: the output is the messages that were read, if none of
  them is too long for `Write`.
-/
namespace NetworksLab.L3.ChatClient
open NetworksLab.L2.SocketWrapper
open NetworksLab.L3.ChatMessage

section
variable (clock : Int64 → Bytes) (unset : TSocketWrapper → Conn → Int64)

/-- `Show`; `clock` is `std::put_time` with `%H:%M`, of the local time.
mirrors tcp/lib/Message.cpp:17-26 -/
def showMessage (m : TMessage) : Bytes :=
  ascii "<" ++ clock m.accepted ++ ascii "> " ++ ascii "[" ++ m.author ++ ascii "] " ++ m.text

/-- `out` is what has been written to `Out_`, `unset` what a timestamp that is never
set holds in each call.
mirrors tcp/lib/Client.cpp:23-32 -/
def onServerRead : Nat → TImpl → Ends → Bytes → Except Stop (Bool × TImpl × Ends × Bytes)
  | 0, _, _, _ => throw .fuel
  | fuel + 1, client, ends, out => do
    let (message, netSocket, net) ←
      readMessage (unset client.netSocket ends.net) (ends.net.unread.length + 1) client.netSocket ends.net
    let client := { client with netSocket := netSocket }
    let ends := { ends with net := net }
    match message with
    | none => return (false, client, ends, out)
    | some message =>
      let out := out ++ (showMessage clock message ++ [LF])
      if hasCachedInput client.netSocket then onServerRead fuel client ends out
      else return (true, client, ends, out)

/-- What `poll` reports. -/
inductive Event where
  | server
  | stdin
  deriving DecidableEq, Repr

/-- The calls for the events, until one of them returns false.
mirrors tcp/apps/Client.cpp:80-96 -/
def run (fuel : Nat) : List Event → TImpl → Ends → Bytes → Except Stop (Bool × TImpl × Ends × Bytes)
  | [], client, ends, out => return (true, client, ends, out)
  | .server :: events, client, ends, out => do
    let (more, client, ends, out) ← onServerRead clock unset fuel client ends out
    if more then run fuel events client ends out else return (false, client, ends, out)
  | .stdin :: events, client, ends, out => do
    let (more, client, ends) ← onStdinRead fuel client ends
    if more then run fuel events client ends out else return (false, client, ends, out)

/-- Messages as they are shown, one per line. -/
def shown (msgs : List TMessage) : Bytes := msgs.flatMap fun m => showMessage clock m ++ [LF]

/-! ## What has been read has been shown -/

/-- The `done` messages have been shown, and the rest of the stream is the
`todo` ones, as far as it has come: `missing` is not there. -/
structure Showing (pieces : List Piece) (missing : Bytes) (done todo : List TMessage) (client : TImpl)
    (ends : Ends) (out : Bytes) : Prop where
  inv : L2.SocketWrapper.Inv client.netSocket
  unread : ends.net.unread <:+ pieces
  taken : bytesOf pieces = done.flatMap frame ++ rest client.netSocket ends.net
  stream : rest client.netSocket ends.net ++ missing = todo.flatMap frame
  out : out = shown clock done

end

theorem pending_of_not_cached {w : TSocketWrapper} (hi : L2.SocketWrapper.Inv w)
    (h : hasCachedInput w = false) : w.pending = [] := by
  have hlen := pending_length hi
  have hge : ¬ w.bStart < w.buffer.length := of_decide_eq_false h
  exact List.eq_nil_of_length_eq_zero (by omega)

variable {clock : Int64 → Bytes} {unset : TSocketWrapper → Conn → Int64} {pieces : List Piece}
  {missing : Bytes} {done todo : List TMessage} {client client' : TImpl} {ends ends' : Ends} {out out' : Bytes}

/-- One turn of the loop. -/
theorem Showing.message {m : TMessage} {w : TSocketWrapper} {c : Conn} {used : List Piece}
    (hs : Showing clock pieces missing done (m :: todo) client ends out) (hi : L2.SocketWrapper.Inv w)
    (hr : rest client.netSocket ends.net = frame m ++ rest w c) (ht : Took client.netSocket ends.net used w c) :
    Showing clock pieces missing (done ++ [m]) todo { client with netSocket := w } { ends with net := c }
      (out ++ (showMessage clock m ++ [LF])) := by
  refine ⟨hi, ?_, ?_, ?_, ?_⟩
  · have hu : ends.net.unread = used ++ c.unread := congrArg Conn.unread ht.conn
    exact (hu ▸ List.suffix_append used c.unread).trans hs.unread
  · rw [hs.taken, hr, List.flatMap_append, List.flatMap_singleton, List.append_assoc]
  · have hstream := hs.stream
    rw [hr, List.flatMap_cons, List.append_assoc] at hstream
    exact List.append_cancel_left hstream
  · rw [hs.out, shown, shown, List.flatMap_append, List.flatMap_singleton]

/-- Step lemma: by induction on the turns of the loop; behind the last one
nothing is buffered. -/
theorem onServerRead_showing : ∀ {fuel : Nat} {done todo : List TMessage} {client : TImpl} {ends : Ends}
    {out : Bytes}, (∀ m ∈ todo, LF ∉ m.author ∧ m.text.length < 2 ^ 31 - 1) →
    Showing clock pieces missing done todo client ends out →
    onServerRead clock unset fuel client ends out = .ok (true, client', ends', out') →
    ∃ taken todo', todo = taken ++ todo' ∧
      Showing clock pieces missing (done ++ taken) todo' client' ends' out' ∧
      client'.netSocket.pending = [] := by
  intro fuel
  induction fuel with
  | zero => intro _ _ _ _ _ _ _ h; cases h
  | succ fuel ih =>
    intro done todo client ends out hms hs h
    rw [onServerRead] at h
    obtain ⟨⟨r, w, c⟩, hread, h⟩ := bind_ok h
    rcases readMessage_prefix (Nat.lt_succ_self _) hs.inv hms hs.stream hread with
      ⟨rfl, -⟩ | ⟨m, todo1, used, rfl, rfl, i1, r1, t1⟩
    · cases h
    have hshow := hs.message i1 r1 t1
    cases hcached : hasCachedInput w with
    | true =>
      simp only [hcached, if_true] at h
      obtain ⟨taken, todo', rfl, hs', hp⟩ := ih (fun x hx => hms x (List.mem_cons_of_mem _ hx)) hshow h
      rw [List.append_assoc] at hs'
      exact ⟨m :: taken, todo', rfl, hs', hp⟩
    | false =>
      simp only [hcached] at h
      cases h
      exact ⟨[m], todo1, rfl, hshow, pending_of_not_cached i1 hcached⟩

/-- `OnStdinRead` only writes to the connection. -/
theorem onStdinRead_keeps : ∀ {fuel : Nat} {client client' : TImpl} {ends ends' : Ends} {more : Bool},
    onStdinRead fuel client ends = .ok (more, client', ends') →
    client'.netSocket = client.netSocket ∧ SameInput ends.net ends'.net := by
  intro fuel
  induction fuel with
  | zero => intro _ _ _ _ _ h; cases h
  | succ fuel ih =>
    intro client client' ends ends' more h
    rw [onStdinRead] at h
    obtain ⟨⟨text, w, c⟩, -, h⟩ := bind_ok h
    dsimp only at h
    split at h
    · cases h
      exact ⟨rfl, rfl, rfl⟩
    · obtain ⟨net, hnet, h⟩ := bind_ok h
      have hsame := serialize_sameInput hnet
      split at h
      · obtain ⟨hsock, hinput⟩ := ih h
        exact ⟨hsock, hsame.trans hinput⟩
      · cases h
        exact ⟨rfl, hsame⟩

theorem Showing.sameInput (h : Showing clock pieces missing done todo client ends out)
    (hsock : client'.netSocket = client.netSocket) (hc : SameInput ends.net ends'.net) :
    Showing clock pieces missing done todo client' ends' out := by
  have hr : rest client'.netSocket ends'.net = rest client.netSocket ends.net := by
    rw [rest, rest, hsock, hc.unread]
  exact ⟨hsock ▸ h.inv, hc.unread ▸ h.unread, hr ▸ h.taken, hr ▸ h.stream, h.out⟩

/-- Run lemma: by induction on the events. -/
theorem run_showing {fuel : Nat} : ∀ {events : List Event} {done todo : List TMessage} {client : TImpl}
    {ends : Ends} {out : Bytes}, (∀ m ∈ todo, LF ∉ m.author ∧ m.text.length < 2 ^ 31 - 1) →
    Showing clock pieces missing done todo client ends out → client.netSocket.pending = [] →
    run clock unset fuel events client ends out = .ok (true, client', ends', out') →
    ∃ taken todo', todo = taken ++ todo' ∧
      Showing clock pieces missing (done ++ taken) todo' client' ends' out' ∧
      client'.netSocket.pending = []
  | [], done, todo, client, ends, out, _, hs, hp, h => by
    cases h
    exact ⟨[], todo, rfl, by rwa [List.append_nil], hp⟩
  | .server :: events, done, todo, client, ends, out, hms, hs, _, h => by
    rw [run] at h
    obtain ⟨⟨more, client1, ends1, out1⟩, hcall, h⟩ := bind_ok h
    dsimp only at h
    split at h
    · rename_i hmore
      subst hmore
      obtain ⟨a, todo1, rfl, hs1, hp1⟩ := onServerRead_showing hms hs hcall
      obtain ⟨b, todo2, rfl, hs2, hp2⟩ := run_showing (fun m hm => hms m (List.mem_append_right _ hm))
        hs1 hp1 h
      rw [List.append_assoc] at hs2
      exact ⟨a ++ b, todo2, (List.append_assoc _ _ _).symm, hs2, hp2⟩
    · cases h
  | .stdin :: events, done, todo, client, ends, out, hms, hs, hp, h => by
    rw [run] at h
    obtain ⟨⟨more, client1, ends1⟩, hcall, h⟩ := bind_ok h
    dsimp only at h
    split at h
    · obtain ⟨hsock, hinput⟩ := onStdinRead_keeps hcall
      exact run_showing hms (hs.sameInput hsock hinput) (by rwa [hsock]) h
    · cases h

/-! ## The output -/

/-- The whole stream is there: a call with something left to show returns, and
returns true. By induction on the messages. -/
theorem onServerRead_returns : ∀ {todo done : List TMessage} {fuel : Nat} {client : TImpl} {ends : Ends}
    {out : Bytes}, (∀ m ∈ todo, LF ∉ m.author ∧ m.text.length < 2 ^ 31 - 1) → todo ≠ [] →
    Showing clock pieces [] done todo client ends out → todo.length ≤ fuel →
    ∃ client' ends' out', onServerRead clock unset fuel client ends out = .ok (true, client', ends', out')
  | [], _, _, _, _, _, _, hne, _, _ => absurd rfl hne
  | m :: todo, done, 0, _, _, _, _, _, _, hf => absurd hf (Nat.not_succ_le_zero _)
  | m :: todo, done, fuel + 1, client, ends, out, hms, _, hs, hf => by
    obtain ⟨ha, ht⟩ := hms m List.mem_cons_self
    have hr := hs.stream
    rw [List.append_nil, List.flatMap_cons] at hr
    obtain ⟨w, c, used, e1, i1, r1, t1⟩ := readMessage_frame (Nat.lt_succ_self _) hs.inv ha ht hr
    rw [onServerRead, ok_bind e1]
    dsimp only
    cases hcached : hasCachedInput w with
    | false => exact ⟨_, _, _, rfl⟩
    | true =>
      have hne : todo ≠ [] := by
        rintro rfl
        have hpend : w.pending = [] := (List.append_eq_nil_iff.mp r1).1
        have hlen := pending_length i1
        have hlt : w.bStart < w.buffer.length := of_decide_eq_true hcached
        rw [hpend, List.length_nil] at hlen
        omega
      exact onServerRead_returns (fun x hx => hms x (List.mem_cons_of_mem _ hx)) hne
        (hs.message i1 (by rw [hr, r1]) t1) (Nat.le_of_succ_le_succ hf)

/-- Wherever the stream of the messages stops, and however it is cut into reads:
behind any calls that all returned true, what was read are the first so many
messages, which have been shown, and nothing is left in the buffer. -/
def Displays (clock : Int64 → Bytes) (msgs : List TMessage) : Prop :=
  ∀ (unset : TSocketWrapper → Conn → Int64) (netSocket stdinSocket : Nat) (author : Bytes) (ends : Ends)
    (fuel : Nat) (events : List Event) (client' : TImpl) (ends' : Ends) (out : Bytes),
    bytesOf ends.net.unread <+: msgs.flatMap wire →
    run clock unset fuel events ⟨.make netSocket, .make stdinSocket, author⟩ ends [] = .ok (true, client', ends', out) →
    ∃ k used, ends.net.unread = used ++ ends'.net.unread ∧ bytesOf used = (msgs.take k).flatMap wire ∧
      out = shown clock (msgs.take k) ∧ client'.netSocket.pending = []

/-- **What the client shows.** For all messages whose authors have no line feed:
if neither an author nor a text has `2^31 - 1` bytes or more, then at any time,
between two calls, the output is the messages that were read, one per line. -/
theorem displays_of_short (clock : Int64 → Bytes) {msgs : List TMessage} (ha : ∀ m ∈ msgs, LF ∉ m.author)
    (hs : ∀ m ∈ msgs, m.author.length < 2 ^ 31 - 1 ∧ m.text.length < 2 ^ 31 - 1) : Displays clock msgs := by
  intro unset netSocket stdinSocket author ends fuel events client' ends' out hpre hrun
  have hwire : ∀ {ms : List TMessage}, ms ⊆ msgs → ms.flatMap wire = ms.flatMap frame := fun hsub =>
    List.flatMap_congr fun m hm => wire_eq_frame (hs m (hsub hm)).1 (hs m (hsub hm)).2
  obtain ⟨missing, hmissing⟩ := hpre
  rw [hwire (List.Subset.refl _)] at hmissing
  have hstart : Showing clock ends.net.unread missing [] msgs ⟨.make netSocket, .make stdinSocket, author⟩
      ends [] :=
    ⟨make_inv netSocket, List.suffix_rfl, (rest_make netSocket _).symm, by rw [rest_make]; exact hmissing, rfl⟩
  obtain ⟨taken, todo, htodo, hend, hp⟩ := run_showing (fun m hm => ⟨ha m hm, (hs m hm).2⟩) hstart rfl hrun
  subst htodo
  obtain ⟨used, hused⟩ := hend.unread
  have hbytes := hend.taken
  rw [rest, hp, List.nil_append, List.nil_append, ← hused, bytesOf_append] at hbytes
  refine ⟨taken.length, used, hused.symm, ?_, ?_, hp⟩
  · rw [List.take_left' rfl, hwire (List.subset_append_left _ _)]
    exact List.append_cancel_right hbytes
  · rw [List.take_left' rfl]
    exact hend.out

/-- Two messages, the second one read in two pieces. -/
def twoMessages : List TMessage :=
  [⟨ascii "Alice", 1590510550, ascii "Hello!"⟩, ⟨ascii "Bob", 1590510610, ascii "Hi! How are you?"⟩]

theorem displays_of_short_two :
    Displays (fun _ => ascii "19:29") twoMessages ∧
    ((run (fun _ => ascii "19:29") (fun _ _ => 0) 3 [.server] ⟨.make 0, .make 1, ascii "Alice"⟩
        ⟨⟨[⟨ascii "7\nAlice\n1590510550\nHello!\n17\nBo", by decide⟩,
          ⟨ascii "b\n1590510610\nHi! How are you?\n", by decide⟩], .pending, [], []⟩, .ofPieces []⟩ []).map
      fun r => (r.1, r.2.2.2)) =
      .ok (true, ascii "<19:29> [Alice] Hello!\n<19:29> [Bob] Hi! How are you?\n") :=
  ⟨displays_of_short _ (by decide) (by decide), by decide +kernel⟩

/-- The author, and with it the line feed, is not there. -/
theorem wire_longAuthor : wire longAuthor = ascii "4\n0\nHi!\n" := by
  have htext : longAuthor.text.length < 2 ^ 31 - 1 := (by decide : (ascii "Hi!").length < 2 ^ 31 - 1)
  have hlen : longAuthor.author.length = 2 ^ 31 - 1 := List.length_replicate
  have hcut : sent (longAuthor.author ++ [LF]) = [] := by
    have hconcat : (longAuthor.author ++ [LF]).length = 2 ^ 31 := by
      rw [List.length_append, List.length_singleton, hlen]
      omega
    have := sent_length_add_le _ (Nat.le_of_eq hconcat.symm)
    exact List.eq_nil_of_length_eq_zero (by omega)
  rw [wire_eq htext, hcut]
  decide +kernel

/-- A message behind one whose author is cut. -/
def behindLong : TMessage := ⟨ascii "Bob", 0, ascii "Ok"⟩

def cutStream : Bytes := ascii "4\n0\nHi!\n3\nBob\n0\nOk\n"

/-- The timestamp is taken for the author, and the text ends in the next message. -/
theorem longAuthor_misread : (∀ m ∈ [longAuthor, behindLong], LF ∉ m.author) ∧
    ¬ ∀ clock, Displays clock [longAuthor, behindLong] := by
  refine ⟨fun m hm => ?_, fun h => ?_⟩
  · rcases List.mem_cons.mp hm with rfl | hm
    · exact fun hlf => absurd (List.eq_of_mem_replicate hlf) (by decide)
    · rw [List.mem_singleton.mp hm]
      decide
  have hwire : [longAuthor, behindLong].flatMap wire = cutStream := by
    rw [List.flatMap_cons, wire_longAuthor]
    decide +kernel
  have hone : (([longAuthor, behindLong].take 1).flatMap wire).length = 8 := by
    have hhead : [longAuthor, behindLong].take 1 = [longAuthor] := List.take_succ_cons
    rw [hhead, List.flatMap_singleton, wire_longAuthor]
    decide
  have hrun : ((run (fun _ => []) (fun _ _ => 0) 1 [.server] ⟨.make 0, .make 1, []⟩
      ⟨.ofPieces (bytewise cutStream), .ofPieces []⟩ []).map fun r =>
        (r.1, (bytesOf r.2.2.1.net.unread).length)) = .ok (true, 7) := by decide +kernel
  cases hr : run (fun _ => []) (fun _ _ => 0) 1 [.server] ⟨.make 0, .make 1, []⟩
      ⟨.ofPieces (bytewise cutStream), .ofPieces []⟩ [] with
  | error e => rw [hr] at hrun; cases hrun
  | ok r =>
    obtain ⟨more, client, ends, out⟩ := r
    rw [hr] at hrun
    obtain ⟨rfl, hleft⟩ := Prod.mk.inj (Except.ok.inj hrun)
    obtain ⟨k, used, hused, hbytes, -, -⟩ := h _ _ 0 1 [] _ 1 [.server] client ends out
      (by rw [hwire]; exact (bytesOf_bytewise cutStream).symm ▸ List.prefix_rfl) hr
    -- the 12 bytes read are neither no message, nor one, nor both
    have hlen := congrArg (fun ps => (bytesOf ps).length) hused
    simp only [Conn.ofPieces, bytesOf_bytewise, bytesOf_append, List.length_append] at hlen hleft
    have h19 : cutStream.length = 19 := by decide
    rw [hbytes, hleft] at hlen
    obtain rfl | rfl | hk : k = 0 ∨ k = 1 ∨ 2 ≤ k := by omega
    · rw [List.take_zero, List.flatMap_nil, List.length_nil] at hlen
      omega
    · rw [hone] at hlen
      omega
    · rw [List.take_of_length_le hk, hwire] at hlen
      omega

end NetworksLab.L3.ChatClient
