import NetworksLab.L3Protocol.ChatReader
import NetworksLab.L5Concurrency.ChatServer

/-!
# Messages the server has read and not taken (`tcp/lib/Server.cpp`)

`TSocketWrapper` reads ahead: a piece may bring the end of one message and
more. `poll` sees only what is left in the kernel, and `AcceptMessage` takes
one message and, unlike `TClient::TImpl::OnServerRead`, does not go on while
`HasCachedInput` holds. So a message that arrived in one piece with the
message before it stays in the wrapper until its client sends again.

Results:
* `second_message_kept`: a run in which that happens.
* `drained_of_single`: in every run in which no piece that is read brings the
  end of two messages, no wrapper is left with a complete message.
-/
namespace NetworksLab.L5.ChatServer
open NetworksLab.L2.SocketWrapper
open NetworksLab.L3.ChatMessage

/-- A message that `ReadMessage` can read back (`roundTrips_iff`). -/
structure Readable (m : TMessage) : Prop where
  author : LF ∉ m.author
  authorLength : m.author.length < 2 ^ 31 - 1
  textLength : m.text.length < 2 ^ 31 - 1

/-- Serialized messages, one behind the other. -/
def Stream (b : Bytes) : Prop := ∃ ms : List TMessage, (∀ m ∈ ms, Readable m) ∧ b = ms.flatMap wire

/-- Every peer sends a stream of serialized messages, and does not close within one. -/
def Framed (s : World) : Label → Prop
  | .arrive fd p => ∀ l, s.kernel.links fd = some l → ∃ t, Stream (l.arrived ++ p.val ++ t)
  | .hangup fd e => ∀ l, s.kernel.links fd = some l → e = .closed → Stream l.arrived
  | _ => True

/-- Behind `b`, no piece brings the end of a first message and of a second. -/
def Single (b : Bytes) (unread : List Piece) : Prop :=
  ∀ ps p qs m m' t, unread = ps ++ p :: qs → Readable m → Readable m' →
    b ++ bytesOf ps ++ p.val = wire m ++ wire m' ++ t → (wire m).length ≤ (b ++ bytesOf ps).length

/-- The pieces that the visited client's `ReadMessage` may read are such. -/
def OneAtATime (s : World) : Label → Prop
  | .visit _ _ _ => ∀ j w x l, s.i = some (j + 1) → s.srv.clientWrappers[j]? = some w →
      s.srv.clientSockets[j]? = some x → s.kernel.links x.fd = some l → Single w.pending l.conn.unread
  | _ => True

/-- When the round is over and nothing is unread in the kernel, no wrapper holds
a complete message. -/
def Drained (s : World) : Prop :=
  s.i = none →
    (∀ x ∈ s.srv.clientSockets, ∀ l, s.kernel.links x.fd = some l → l.conn.unread = []) →
    ∀ w ∈ s.srv.clientWrappers, ∀ m t, Readable m → w.pending ≠ wire m ++ t

/-! ## Streams -/

theorem Readable.wire_eq {m : TMessage} (h : Readable m) : wire m = frame m :=
  wire_eq_frame h.authorLength h.textLength

theorem Readable.wire_ne_nil {m : TMessage} (h : Readable m) : wire m ≠ [] := by
  rw [h.wire_eq]; exact frame_ne_nil m

theorem Readable.append_inj {m m' : TMessage} {s t : Bytes} (h : Readable m) (h' : Readable m')
    (he : wire m ++ s = wire m' ++ t) : m = m' ∧ s = t := by
  rw [h.wire_eq, h'.wire_eq] at he
  exact frame_append_inj h.author h'.author he

theorem Stream.tail {m : TMessage} {b : Bytes} (hm : Readable m) (h : Stream (wire m ++ b)) :
    Stream b := by
  obtain ⟨ms, hms, he⟩ := h
  cases ms with
  | nil => exact absurd (List.append_eq_nil_iff.mp he).1 hm.wire_ne_nil
  | cons m' ms =>
    rw [List.flatMap_cons] at he
    obtain ⟨-, rfl⟩ := hm.append_inj (hms m' List.mem_cons_self) he
    exact ⟨ms, fun m h => hms m (List.mem_cons_of_mem _ h), rfl⟩

theorem Stream.drop : ∀ {done : List TMessage} {b : Bytes}, (∀ m ∈ done, Readable m) →
    Stream (done.flatMap wire ++ b) → Stream b
  | [], _, _, h => h
  | m :: done, b, hd, h => by
    rw [List.flatMap_cons, List.append_assoc] at h
    exact Stream.drop (fun m' h => hd m' (List.mem_cons_of_mem _ h))
      (h.tail (hd m List.mem_cons_self))

/-! ## One client -/

/-- What the peer has sent is the messages taken so far and what is left to read;
it goes on as a stream of messages, and no complete message is buffered. -/
structure Reading (w : TSocketWrapper) (l : Link) : Prop where
  inv : Inv w
  taken : ∃ done : List TMessage, (∀ m ∈ done, Readable m) ∧
    l.arrived = done.flatMap wire ++ rest w l.conn
  stream : ∃ t, Stream (l.arrived ++ t) ∧ (l.conn.peer = .closed → t = [])
  buffered : ∀ m t, Readable m → w.pending ≠ wire m ++ t

theorem Reading.rest_stream {w : TSocketWrapper} {l : Link} (h : Reading w l) :
    ∃ t, Stream (rest w l.conn ++ t) ∧ (l.conn.peer = .closed → t = []) := by
  obtain ⟨done, hdone, harr⟩ := h.taken
  obtain ⟨t, ht, hc⟩ := h.stream
  rw [harr, List.append_assoc] at ht
  exact ⟨t, ht.drop hdone, hc⟩

section
variable {w w' : TSocketWrapper} {l : Link} {m : TMessage} {c' : Conn}

/-- A call that returns a message found it complete. -/
theorem Reading.message (h : Reading w l)
    (hread : readMessage 0 (l.conn.unread.length + 1) w l.conn = .ok (some m, w', c')) :
    Readable m ∧ Inv w' ∧ (∃ used, Took w l.conn used w' c') ∧
      rest w l.conn = wire m ++ rest w' c' := by
  obtain ⟨t, ⟨ms, hms, he⟩, -⟩ := h.rest_stream
  have hframes : rest w l.conn ++ t = ms.flatMap frame := by
    rw [he]
    exact List.flatMap_congr fun m hm => (hms m hm).wire_eq
  rcases readMessage_prefix (Nat.lt_succ_self _) h.inv
    (fun m hm => ⟨(hms m hm).author, (hms m hm).textLength⟩) hframes hread with ⟨h0, -⟩ | hnext
  · cases h0
  · obtain ⟨m', ms', used, rfl, hm, hi, hr, ht⟩ := hnext
    obtain rfl := Option.some.inj hm
    have hm := hms m List.mem_cons_self
    exact ⟨hm, hi, ⟨used, ht⟩, by rw [hm.wire_eq, hr]⟩

/-- A call behind pieces that bring at most one end each leaves no complete
message: the last piece it read brought the end of its own. -/
theorem Reading.buffered_after (h : Reading w l) {used : List Piece} (hm : Readable m)
    (ht : Took w l.conn used w' c') (hr : rest w l.conn = wire m ++ rest w' c')
    (hs : Single w.pending l.conn.unread) : ∀ m' t, Readable m' → w'.pending ≠ wire m' ++ t := by
  intro m' t hm' hp
  have hu : l.conn.unread = used ++ c'.unread := congrArg Conn.unread ht.conn
  have hcut : w.pending ++ bytesOf used = wire m ++ w'.pending := by
    rw [rest, hu, bytesOf_append, ← List.append_assoc, rest, ← List.append_assoc] at hr
    exact List.append_cancel_right hr
  rcases List.eq_nil_or_concat used with rfl | ⟨ps, p, rfl⟩
  · rw [bytesOf_nil, List.append_nil] at hcut
    exact h.buffered m w'.pending hm hcut
  · rw [List.concat_eq_append] at ht hu hcut
    rw [bytesOf_append, bytesOf_cons, bytesOf_nil, List.append_nil, ← List.append_assoc] at hcut
    rw [List.append_assoc, List.singleton_append] at hu
    have hle := hs ps p c'.unread m m' t hu hm hm' (by rw [hcut, hp, List.append_assoc])
    have hlast := ht.last ps p rfl
    have hlen := congrArg List.length hcut
    simp only [List.length_append] at hlen hle
    omega

/-- Only what is unread, and how the stream ends, matters to a reader. -/
theorem Reading.sameInput {c : Conn} (h : Reading w l) (hc : SameInput l.conn c) :
    Reading w { l with conn := c } := by
  have hr : rest w c = rest w l.conn := rest_congr w (by rw [hc.unread])
  obtain ⟨t, ht, hp⟩ := h.stream
  exact ⟨h.inv, by rw [hr]; exact h.taken, ⟨t, ht, fun hcl => hp (hc.peer.symm.trans hcl)⟩,
    h.buffered⟩

end

/-- A connection that waits for `accept`: nothing has come on it. -/
def Silent (l : Link) : Prop := l.arrived = [] ∧ l.conn.unread = [] ∧ l.conn.peer = .pending

theorem reading_rule : ClientRule (fun s a => Framed s a ∧ OneAtATime s a) Silent
    (fun _ w l => Reading w l) where
  connect _ _ _ := ⟨rfl, rfl, rfl⟩
  accept ms addr l c hQ hc := by
    obtain ⟨harr, hu, hp⟩ := hQ
    have hs := serializeAll_sameInput hc
    have hnil : (TSocketWrapper.make addr).pending = [] := rfl
    refine ⟨make_inv addr, ⟨[], by simp, ?_⟩, ⟨[], ⟨[], by simp, by simpa using harr⟩, fun _ => rfl⟩,
      fun m t hm he => ?_⟩
    · rw [rest_make, hs.unread, hu]; exact harr
    · rw [hnil] at he
      exact hm.wire_ne_nil (List.append_eq_nil_iff.mp he.symm).1
  arrive s fd p l ms w hC hl hp h := by
    obtain ⟨done, hdone, harr⟩ := h.taken
    obtain ⟨t, ht⟩ := hC.1 l hl
    refine ⟨h.inv, ⟨done, hdone, ?_⟩, ⟨t, ht, fun hcl => ?_⟩, h.buffered⟩
    · rw [rest_arrive, ← List.append_assoc, ← harr]
    · have hcl : l.conn.peer = .closed := hcl
      rw [hp] at hcl; cases hcl
  recut ps l ms w hb h := by
    refine ⟨h.inv, ?_, h.stream, h.buffered⟩
    have hr : rest w (l.conn.without ps) = rest w l.conn := rest_congr w hb
    exact hr ▸ h.taken
  hangup s fd e l ms w hC hl h := by
    refine ⟨h.inv, h.taken, ?_, h.buffered⟩
    by_cases he : e = .closed
    · exact ⟨[], by rw [List.append_nil]; exact hC.1 l hl he, fun _ => rfl⟩
    · obtain ⟨t, ht, -⟩ := h.stream
      exact ⟨t, ht, fun hcl => absurd hcl he⟩
  read s fd addr time j x w l m w' c' hC hi hw hx hl h hread := by
    obtain ⟨hm, hinv, ⟨used, ht⟩, hr⟩ := h.message hread
    obtain ⟨done, hdone, harr⟩ := h.taken
    refine ⟨hinv, ⟨done ++ [m], ?_, ?_⟩, ?_, ?_⟩
    · intro m' hm'
      rcases List.mem_append.mp hm' with hm' | hm'
      · exact hdone m' hm'
      · exact List.mem_singleton.mp hm' ▸ hm
    · rw [harr, hr, List.flatMap_append, List.flatMap_singleton, List.append_assoc]
    · obtain ⟨t, hst, hcl⟩ := h.stream
      exact ⟨t, hst, fun hp => hcl (ht.peer.symm.trans hp)⟩
    · exact h.buffered_after hm ht hr (hC.2 j w x l hi hw hx hl)
  send _ _ _ _ _ h hc := h.sameInput (serialize_sameInput hc)

/-- **When the server does not sit on a message.** Peers send streams of
serialized messages. In every run in which no piece that is read brings the
end of two of them, every reachable state is drained. -/
theorem drained_of_single (s : World)
    (h : (server.restrict fun s a => Framed s a ∧ OneAtATime s a).Reachable s) : Drained s := by
  intro _ _ w hw m t hm
  have hs := reading_rule.reachable h
  obtain ⟨j, hj⟩ := List.mem_iff_getElem?.mp hw
  obtain ⟨x, hx, -⟩ := hs.parallel.socket hj
  obtain ⟨l, -, hr⟩ := hs.clients w x (mem_zip_of_getElem? hj hx)
  exact hr.buffered m t hm

/-! ## Two runs of one client -/

def hi : TMessage := ⟨ascii "A", 0, ascii "hi"⟩

theorem hi_readable : Readable hi := by constructor <;> decide

/-- The bytes of `hi` on the wire. -/
def hiBytes : Bytes := ascii "3\nA\n0\nhi\n"

theorem hiBytes_length : hiBytes.length = 9 := by decide

/-- One message in a piece. -/
def onePiece : Piece := ⟨hiBytes, by rw [hiBytes_length, bufSize]; omega⟩

/-- Two messages in a piece. -/
def twoPiece : Piece :=
  ⟨hiBytes ++ hiBytes, by rw [List.length_append, hiBytes_length, bufSize]; omega⟩

/-- A client is accepted, sends a piece and has one message of it taken; the
server is in front of `poll` again. -/
def oneClient (p : Piece) : List Label :=
  [.connect [], .poll, .visit 4 0 0, .visit 9 9 0, .visit 9 9 0, .arrive 4 p,
   .poll, .visit 9 9 0, .visit 9 9 77, .visit 9 9 0]

/-- The piece is the first on its connection, and is whole messages. -/
def framed (s : World) : Label → Bool
  | .arrive fd p => (s.kernel.links fd).all (·.arrived == []) && (p == onePiece || p == twoPiece)
  | .hangup _ _ => false
  | _ => true

theorem framed_sound (s : World) (a : Label) (h : framed s a = true) : Framed s a := by
  cases a with
  | arrive fd p =>
    intro l hl
    simp only [framed, hl, Option.all_some, Bool.and_eq_true, Bool.or_eq_true, beq_iff_eq] at h
    obtain ⟨harr, hp⟩ := h
    rw [harr]
    rcases hp with rfl | rfl
    · exact ⟨[], [hi], by simp [hi_readable], by decide +kernel⟩
    · exact ⟨[], [hi, hi], by simp [hi_readable], by decide +kernel⟩
  | hangup fd e => cases h
  | _ => trivial

/-- Every client has at most one message in front of it. -/
def oneMessage (s : World) (_ : Label) : Bool :=
  (s.srv.clientWrappers.zip s.srv.clientSockets).all fun c =>
    (s.kernel.links c.2.fd).all fun l => rest c.1 l.conn == [] || rest c.1 l.conn == wire hi

theorem oneMessage_sound (s : World) (a : Label) (h : oneMessage s a = true) : OneAtATime s a := by
  cases a with
  | visit fd addr time =>
    intro j w x l _ hw hx hl ps p qs m m' t hu hm hm' he
    rw [oneMessage, List.all_eq_true] at h
    have hrest := h (w, x) (mem_zip_of_getElem? hw hx)
    simp only [hl, Option.all_some, Bool.or_eq_true, beq_iff_eq] at hrest
    have hcut : rest w l.conn = wire m ++ (wire m' ++ (t ++ bytesOf qs)) := by
      rw [rest, hu, bytesOf_append, bytesOf_cons, ← List.append_assoc, ← List.append_assoc, he]
      simp only [List.append_assoc]
    rcases hrest with hrest | hrest
    · rw [hrest] at hcut
      exact absurd (List.append_eq_nil_iff.mp hcut.symm).1 hm.wire_ne_nil
    · rw [hrest, ← List.append_nil (wire hi)] at hcut
      obtain ⟨-, hnil⟩ := hi_readable.append_inj hm hcut
      exact absurd (List.append_eq_nil_iff.mp hnil.symm).1 hm'.wire_ne_nil
  | _ => trivial

theorem drained_of_single_onePiece :
    ∃ s, (server.restrict fun s a => Framed s a ∧ OneAtATime s a).Reachable s ∧
      s.srv.messages = [⟨ascii "A", 77, ascii "hi"⟩] ∧ Drained s := by
  have hrun : (LTS.runFn step (fun s a => framed s a && oneMessage s a) listening
      (oneClient onePiece)).map (·.srv.messages) = some [⟨ascii "A", 77, ascii "hi"⟩] := by
    decide +kernel
  obtain ⟨s, hs, hm⟩ := Option.map_eq_some_iff.mp hrun
  have hr : (server.restrict fun s a => Framed s a ∧ OneAtATime s a).Reachable s := by
    refine ⟨listening, listening_init, LTS.reach_of_runFn (fun s a h => ?_) hs⟩
    rw [Bool.and_eq_true] at h
    exact ⟨framed_sound s a h.1, oneMessage_sound s a h.2⟩
  exact ⟨s, hr, hm, drained_of_single s hr⟩

/-- Two messages in one piece: one is broadcast. The round is over, the kernel
has nothing left that `poll` could report, and the wrapper holds the other. -/
theorem second_message_kept : ∃ s, (server.restrict Framed).Reachable s ∧ ¬ Drained s := by
  have hrun : (LTS.runFn step framed listening (oneClient twoPiece)).map (fun s =>
      (s.i, s.srv.clientSockets, (s.kernel.links 4).map (·.conn.unread.length),
        s.srv.clientWrappers.map (·.pending))) = some (none, [⟨0, 4⟩], some 0, [wire hi]) := by
    decide +kernel
  obtain ⟨s, hs, hend⟩ := Option.map_eq_some_iff.mp hrun
  simp only [Prod.mk.injEq] at hend
  obtain ⟨hround, hsock, hunread, hwrap⟩ := hend
  refine ⟨s, ⟨listening, listening_init, LTS.reach_of_runFn framed_sound hs⟩, fun hd => ?_⟩
  obtain ⟨w, hw, hp⟩ : ∃ w ∈ s.srv.clientWrappers, w.pending = wire hi := by
    rw [← List.mem_map, hwrap]; exact List.mem_singleton_self _
  refine hd hround (fun x hx l hl => ?_) w hw hi [] hi_readable (by rw [hp, List.append_nil])
  rw [hsock, List.mem_singleton] at hx
  subst hx
  rw [hl, Option.map_some, Option.some.injEq] at hunread
  exact List.eq_nil_of_length_eq_zero hunread

end NetworksLab.L5.ChatServer
