import NetworksLab.L3Protocol.ChatMessage

/-!
# The chat client (`tcp/lib/Client.cpp`)

`OnStdinRead` reads a line and sends it, as long as there is read-ahead data;
`main` calls it until it returns false. It takes an empty string for the end
of the input, and an empty line is read as the same string. `Ends` is what is
behind the two sockets.

Results:
* `onStdinReads_spec`: on any input the calls come to an end, and have sent
  the lines in front of the first empty one.
* `sendsEveryLine_iff`: when that is all of them.
-/
namespace NetworksLab.L3.ChatClient
open NetworksLab.L2.SocketWrapper
open NetworksLab.L3.ChatMessage
open NetworksLab.Numeral (decimal)

/-- mirrors tcp/lib/Client.cpp:51-53 -/
structure TImpl where
  netSocket : TSocketWrapper
  stdinSocket : TSocketWrapper
  author : Bytes
  deriving DecidableEq, Repr

/-- What is behind `NetSocket_` and `StdinSocket_`. -/
structure Ends where
  net : Conn
  stdin : Conn
  deriving DecidableEq, Repr

/-- One loop iteration more than there are pieces is enough for each read.
mirrors tcp/lib/Client.cpp:34-48 -/
def onStdinRead : Nat → TImpl → Ends → Except Stop (Bool × TImpl × Ends)
  | 0, _, _ => throw .fuel
  | fuel + 1, client, ends => do
    let (text, stdinSocket, stdin) ←
      readUntil (ends.stdin.unread.length + 1) client.stdinSocket ends.stdin LF
    let client := { client with stdinSocket := stdinSocket }
    let ends := { ends with stdin := stdin }
    if text = [] then return (false, client, ends)
    else do
      let net ← serialize ⟨client.author, 0, text⟩ ends.net
      let ends := { ends with net := net }
      if hasCachedInput client.stdinSocket then onStdinRead fuel client ends
      else return (true, client, ends)

/-- The calls until one returns false, with `fuel` for each.
mirrors tcp/apps/Client.cpp:91-95 -/
def onStdinReads (fuel : Nat) : Nat → TImpl → Ends → Except Stop (TImpl × Ends)
  | 0, _, _ => throw .fuel
  | calls + 1, client, ends => do
    let (more, client, ends) ← onStdinRead fuel client ends
    if more then onStdinReads fuel calls client ends else return (client, ends)

/-- The lines of the input; the last one may be unterminated. -/
def lines (s : Bytes) : List Bytes := Cursor.fields LF s

/-- The input that is still to be read. -/
def left (client : TImpl) (ends : Ends) : Bytes := rest client.stdinSocket ends.stdin

/-! ## One call -/

/-- The input comes to an end, and the writes do not fail. -/
structure Ready (client : TImpl) (ends : Ends) : Prop where
  inv : L2.SocketWrapper.Inv client.stdinSocket
  closed : ends.stdin.peer = .closed
  unfailing : ends.net.Unfailing

/-- Between the two, the texts were sent; none of them is empty. -/
structure Sent (client : TImpl) (ends : Ends) (texts : List Bytes) (client' : TImpl) (ends' : Ends) :
    Prop where
  ready : Ready client' ends'
  author : client'.author = client.author
  taken : ends'.net.taken = ends.net.taken ++ texts.flatMap fun text => wire ⟨client.author, 0, text⟩
  nonempty : [] ∉ texts

theorem Sent.trans {client client' client'' : TImpl} {ends ends' ends'' : Ends} {a b : List Bytes}
    (h : Sent client ends a client' ends') (h' : Sent client' ends' b client'' ends'') :
    Sent client ends (a ++ b) client'' ends'' := by
  refine ⟨h'.ready, h'.author.trans h.author, ?_, ?_⟩
  · rw [h'.taken, h.taken, h.author, List.flatMap_append, List.append_assoc]
  · rw [List.mem_append, not_or]
    exact ⟨h.nonempty, h'.nonempty⟩

/-- `OnStdinRead` returns false at the end of the input, and at an empty line. -/
def Ended (before : List Bytes) (texts : List Bytes) (after : Bytes) : Prop :=
  (before = texts ∧ after = []) ∨ before = texts ++ [] :: lines after

theorem Ended.append {before texts : List Bytes} {after : Bytes} (h : Ended before texts after)
    (a : List Bytes) : Ended (a ++ before) (a ++ texts) after := by
  rcases h with ⟨rfl, h⟩ | rfl
  · exact .inl ⟨rfl, h⟩
  · exact .inr (List.append_assoc _ _ _).symm

/-- Step lemma: one call, by the lines it takes. -/
theorem onStdinRead_spec : ∀ (fuel : Nat) {client : TImpl} {ends : Ends}, Ready client ends →
    (lines (left client ends)).length < fuel →
    ∃ more client' ends' texts, onStdinRead fuel client ends = .ok (more, client', ends') ∧
      Sent client ends texts client' ends' ∧
      (more = true → texts ≠ [] ∧
        lines (left client ends) = texts ++ lines (left client' ends')) ∧
      (more = false → Ended (lines (left client ends)) texts (left client' ends')) := by
  intro fuel
  induction fuel with
  | zero => intro client ends _ h; exact absurd h (Nat.not_lt_zero _)
  | succ fuel ih =>
    intro client ends hr hf
    obtain ⟨w, c, used, e1, i1, r1, t1⟩ := readUntil_spec LF (Nat.lt_succ_self _) hr.inv (.inr hr.closed)
    change readUntil _ _ _ LF = .ok ((Cursor.readUntil LF (left client ends)).1, w, c) at e1
    change rest w c = (Cursor.readUntil LF (left client ends)).2 at r1
    have hclosed := t1.peer.trans hr.closed
    rw [onStdinRead, ok_bind e1]
    dsimp only
    by_cases ht : (Cursor.readUntil LF (left client ends)).1 = []
    · refine ⟨false, _, _, [], if_pos ht, ⟨⟨i1, hclosed, hr.unfailing⟩, rfl, (List.append_nil _).symm,
        List.not_mem_nil⟩, fun h => Bool.noConfusion h, fun _ => ?_⟩
      by_cases hs : left client ends = []
      · exact .inl ⟨by rw [hs]; rfl, by rw [hs] at r1; exact r1⟩
      · refine .inr ?_
        change lines (left client ends) = [] :: lines (rest w c)
        rw [lines, Cursor.fields_readUntil LF hs, ht, r1]
        rfl
    rw [if_neg ht]
    have hs : left client ends ≠ [] := fun hs => ht (by rw [hs]; rfl)
    obtain ⟨net, e2, d2⟩ := serialize_sent
      ⟨client.author, 0, (Cursor.readUntil LF (left client ends)).1⟩ hr.unfailing
    rw [ok_bind e2]
    have hsent : Sent client ends [(Cursor.readUntil LF (left client ends)).1]
        { client with stdinSocket := w } ⟨net, c⟩ :=
      ⟨⟨i1, hclosed, d2.unfailing hr.unfailing⟩, rfl, by
        rw [d2.taken, List.flatMap_singleton], by
        rw [List.mem_singleton]; exact Ne.symm ht⟩
    have hlines : lines (left client ends) = [(Cursor.readUntil LF (left client ends)).1] ++
        lines (left { client with stdinSocket := w } ⟨net, c⟩) := by
      change _ = _ ++ lines (rest w c)
      rw [r1]
      exact Cursor.fields_readUntil LF hs
    cases hasCachedInput w with
    | true =>
      rw [hlines, List.length_append, List.length_singleton] at hf
      obtain ⟨more, client', ends', texts, e3, h3, hmore, hend⟩ := ih hsent.ready (by omega)
      refine ⟨more, client', ends', _, e3, hsent.trans h3, fun h => ⟨by simp, ?_⟩, fun h => ?_⟩
      · rw [hlines, (hmore h).2, List.append_assoc]
      · rw [hlines]
        exact (hend h).append _
    | false =>
      exact ⟨true, _, _, _, rfl, hsent, fun _ => ⟨List.cons_ne_nil _ _, hlines⟩,
        fun h => Bool.noConfusion h⟩

/-! ## All calls -/

/-- Run lemma: the calls come to an end. -/
theorem onStdinReads_spec (fuel : Nat) : ∀ (calls : Nat) {client : TImpl} {ends : Ends},
    Ready client ends → (lines (left client ends)).length < fuel →
    (lines (left client ends)).length < calls →
    ∃ client' ends' texts, onStdinReads fuel calls client ends = .ok (client', ends') ∧
      Sent client ends texts client' ends' ∧
      Ended (lines (left client ends)) texts (left client' ends') := by
  intro calls
  induction calls with
  | zero => intro client ends _ _ h; exact absurd h (Nat.not_lt_zero _)
  | succ calls ih =>
    intro client ends hr hf hc
    obtain ⟨more, client1, ends1, texts1, e1, h1, hmore, hend⟩ := onStdinRead_spec fuel hr hf
    rw [onStdinReads, ok_bind e1]
    cases more with
    | false => exact ⟨client1, ends1, texts1, rfl, h1, hend rfl⟩
    | true =>
      obtain ⟨hne, hlines⟩ := hmore rfl
      have hpos := List.length_pos_of_ne_nil hne
      rw [hlines, List.length_append] at hf hc
      obtain ⟨client2, ends2, texts2, e2, h2, hend2⟩ := ih h1.ready (by omega) (by omega)
      refine ⟨client2, ends2, texts1 ++ texts2, e2, h1.trans h2, ?_⟩
      rw [hlines]
      exact hend2.append texts1

/-! ## When every line is sent -/

/-- For every standard input on `s`, the calls send one message for each line,
and the last one returns false at the end of the input. -/
def SendsEveryLine (author s : Bytes) : Prop :=
  ∀ (netSocket stdinSocket : Nat) (net : Conn) (pieces : List Piece) (fuel : Nat), net.Unfailing →
    bytesOf pieces = s → s.length < fuel →
    ∃ client ends, onStdinReads fuel fuel ⟨.make netSocket, .make stdinSocket, author⟩
        ⟨net, .ofPieces pieces⟩ = .ok (client, ends) ∧
      ends.net.taken = net.taken ++ (lines s).flatMap (fun text => frame ⟨author, 0, text⟩) ∧
      left client ends = []

/-- No message has a line that `Write` cuts. -/
def Short (author : Bytes) (texts : List Bytes) : Prop :=
  ∀ text ∈ texts, author.length < 2 ^ 31 - 1 ∧ text.length < 2 ^ 31 - 1

/-- What is sent of a message is not longer than the message, and shorter if
something was cut. -/
theorem wire_length (m : TMessage) : (wire m).length ≤ (frame m).length ∧
    ((wire m).length = (frame m).length → m.author.length < 2 ^ 31 - 1 ∧ m.text.length < 2 ^ 31 - 1) := by
  have hle : ∀ x : Bytes, (sent x).length ≤ x.length := fun x => (sent_isPrefix x).length_le
  have hcut : ∀ x : Bytes, 2 ^ 31 - 1 ≤ x.length → (sent (x ++ [LF])).length < (x ++ [LF]).length := by
    intro x hx
    have := sent_length_add_le (x ++ [LF]) (by rw [List.length_append, List.length_singleton]; omega)
    omega
  have h1 := hle (decimal (m.text.length + 1 : Nat) ++ [LF])
  have h2 := hle (m.author ++ [LF])
  have h3 := hle (decimal m.accepted.toInt ++ [LF])
  have h4 := hle (m.text ++ [LF])
  have hframe : (frame m).length = (decimal (m.text.length + 1 : Nat) ++ [LF]).length +
      ((m.author ++ [LF]).length + ((decimal m.accepted.toInt ++ [LF]).length +
        (m.text ++ [LF]).length)) := by
    simp only [frame, List.length_append, List.length_cons, List.length_nil]
    omega
  rw [hframe, wire, List.length_append, List.length_append, List.length_append]
  refine ⟨by omega, fun heq => ⟨?_, ?_⟩⟩
  · by_contra h
    have := hcut m.author (by omega)
    omega
  · by_contra h
    have := hcut m.text (by omega)
    omega

theorem wire_frame_le (author : Bytes) (tail : List Bytes) : ∀ texts : List Bytes,
    (texts.flatMap fun text => wire ⟨author, 0, text⟩).length ≤
      ((texts ++ tail).flatMap fun text => frame ⟨author, 0, text⟩).length
  | [] => Nat.zero_le _
  | text :: texts => by
    have hle := (wire_length ⟨author, 0, text⟩).1
    have ih := wire_frame_le author tail texts
    simp only [List.cons_append, List.flatMap_cons, List.length_append] at ih ⊢
    omega

/-- Messages that were sent, and as many bytes as all of them have: then these
are all, and none was cut. -/
theorem sent_all (author : Bytes) : ∀ (texts tail : List Bytes),
    ((texts ++ tail).flatMap fun text => frame ⟨author, 0, text⟩).length ≤
      (texts.flatMap fun text => wire ⟨author, 0, text⟩).length → tail = [] ∧ Short author texts
  | [], [], _ => ⟨rfl, nofun⟩
  | [], text :: tail, h => by
    have hpos := List.length_pos_of_ne_nil (frame_ne_nil ⟨author, 0, text⟩)
    simp only [List.nil_append, List.flatMap_cons, List.length_append, List.flatMap_nil,
      List.length_nil] at h
    omega
  | text :: texts, tail, h => by
    obtain ⟨hle, hshort⟩ := wire_length ⟨author, 0, text⟩
    have hrest := wire_frame_le author tail texts
    simp only [List.cons_append, List.flatMap_cons, List.length_append] at h
    obtain ⟨htail, hall⟩ := sent_all author texts tail (by omega)
    refine ⟨htail, fun x hx => ?_⟩
    rcases List.mem_cons.mp hx with rfl | hx
    · exact hshort (by omega)
    · exact hall x hx

/-- Without an empty line the input was taken to its end. -/
theorem Ended.all {before texts : List Bytes} {after : Bytes} (h : Ended before texts after)
    (he : [] ∉ before) : before = texts ∧ after = [] := by
  rcases h with h | rfl
  · exact h
  · exact absurd (List.mem_append_right _ List.mem_cons_self) he

theorem Ended.split {before texts : List Bytes} {after : Bytes} (h : Ended before texts after) :
    ∃ tail, before = texts ++ tail := by
  rcases h with ⟨rfl, -⟩ | rfl
  · exact ⟨[], (List.append_nil _).symm⟩
  · exact ⟨_, rfl⟩

/-- The calls of a fresh client, on the input `s`. -/
theorem fresh_spec (author : Bytes) {s : Bytes} (netSocket stdinSocket : Nat) {net : Conn}
    {pieces : List Piece} {fuel : Nat} (hu : net.Unfailing) (hb : bytesOf pieces = s) (hf : s.length < fuel) :
    ∃ client ends texts, onStdinReads fuel fuel ⟨.make netSocket, .make stdinSocket, author⟩
        ⟨net, .ofPieces pieces⟩ = .ok (client, ends) ∧
      ends.net.taken = net.taken ++ texts.flatMap (fun text => wire ⟨author, 0, text⟩) ∧
      [] ∉ texts ∧ Ended (lines s) texts (left client ends) := by
  have hleft : left ⟨.make netSocket, .make stdinSocket, author⟩ ⟨net, .ofPieces pieces⟩ = s :=
    (rest_make stdinSocket (.ofPieces pieces)).trans hb
  have hlen : (lines s).length < fuel := Nat.lt_of_le_of_lt (Cursor.fields_length_le LF s) hf
  rw [← hleft] at hlen
  obtain ⟨client, ends, texts, he, hsent, hend⟩ :=
    onStdinReads_spec fuel fuel ⟨make_inv stdinSocket, rfl, hu⟩ hlen hlen
  rw [hleft] at hend
  exact ⟨client, ends, texts, he, hsent.taken, hsent.nonempty, hend⟩

/-- **When the client sends every line.** On any standard input, however it is
cut into reads: exactly when no line is empty, and neither the author of a
message nor its line has `2^31 - 1` bytes or more. -/
theorem sendsEveryLine_iff (author s : Bytes) :
    SendsEveryLine author s ↔ [] ∉ lines s ∧ Short author (lines s) := by
  constructor
  · intro h
    have hu : (Conn.ofPieces []).Unfailing := fun q hq => absurd hq List.not_mem_nil
    have hb := bytesOf_bytewise s
    obtain ⟨client, ends, he, htaken, -⟩ := h 0 1 (.ofPieces []) (bytewise s) _ hu hb (Nat.lt_succ_self _)
    obtain ⟨client', ends', texts, he', htaken', hne, hend⟩ :=
      fresh_spec author 0 1 hu hb (Nat.lt_succ_self _)
    obtain ⟨rfl, rfl⟩ : client = client' ∧ ends = ends' := by
      simpa using he.symm.trans he'
    obtain ⟨tail, htail⟩ := hend.split
    have hsame := List.append_cancel_left (htaken.symm.trans htaken')
    obtain ⟨rfl, hshort⟩ := sent_all author texts tail (by
      rw [← htail, hsame])
    rw [htail, List.append_nil]
    exact ⟨hne, hshort⟩
  · intro h netSocket stdinSocket net pieces fuel hu hb hf
    obtain ⟨hne, hshort⟩ := h
    obtain ⟨client, ends, texts, he, htaken, -, hend⟩ :=
      fresh_spec author netSocket stdinSocket hu hb hf
    obtain ⟨rfl, hleft⟩ := hend.all hne
    refine ⟨client, ends, he, ?_, hleft⟩
    rw [htaken]
    congr 1
    exact List.flatMap_congr fun text ht => wire_eq_frame (hshort text ht).1 (hshort text ht).2

/-- An empty line, and another one behind it: nothing is sent. -/
theorem emptyLine_exits :
    ((onStdinReads 5 5 ⟨.make 0, .make 1, ascii "Alice"⟩
        ⟨.ofPieces [], .ofPieces [⟨ascii "\nHi\n", by decide⟩]⟩).map fun r =>
      (r.2.net.taken, left r.1 r.2)) = .ok ([], ascii "Hi\n") ∧
    ¬ ∀ author s, SendsEveryLine author s := by
  have hrun : ((onStdinReads 5 5 ⟨.make 0, .make 1, ascii "Alice"⟩
      ⟨.ofPieces [], .ofPieces [⟨ascii "\nHi\n", by decide⟩]⟩).map fun r =>
      (r.2.net.taken, left r.1 r.2)) = .ok ([], ascii "Hi\n") := by decide +kernel
  refine ⟨hrun, fun h => ?_⟩
  obtain ⟨client, ends, he, -, hleft⟩ := h (ascii "Alice") (ascii "\nHi\n") 0 1 (.ofPieces [])
    [⟨ascii "\nHi\n", by decide⟩] 5 (fun q hq => absurd hq List.not_mem_nil) (by decide) (by decide)
  rw [he] at hrun
  simp only [Except.map, Except.ok.injEq, Prod.mk.injEq, hleft] at hrun
  exact absurd hrun.2 (by decide)

end NetworksLab.L3.ChatClient
