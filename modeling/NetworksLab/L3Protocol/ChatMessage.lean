import Mathlib.Data.List.Basic
import NetworksLab.Core.Numeral
import NetworksLab.L2Machine.SocketWrapper

/-!
# Chat messages (`tcp/lib/Message.cpp`)

`TMessage::Serialize` writes the length of the text plus one, the author, the
timestamp and the text, each with a line feed behind it; `ReadMessage` reads
three lines and then that many bytes.

`frame` is the format, `wire` the bytes that `Serialize` delivers. They differ
where `TSocketWrapper::Write` truncates a length to `int`: an author of
`2^31 - 1` bytes or more is cut, and its line feed with it.

Results:
* `readMessage_frame`: one call on a stream that starts with a frame returns
  the message and leaves exactly what follows, however the stream is cut.
* `roundTrips_iff`: a list of messages survives the trip exactly when no
  author is too long.
-/
namespace NetworksLab.L3.ChatMessage
open NetworksLab.L2.SocketWrapper
open NetworksLab.Numeral (decimal extract)

/-- mirrors tcp/lib/Message.h:11-33 -/
@[ext] structure TMessage where
  author : Bytes
  accepted : Int64
  text : Bytes
  deriving DecidableEq, Repr

/-- mirrors tcp/lib/Message.cpp:28-33 -/
def serialize (m : TMessage) (socket : Conn) : Except Stop Conn := do
  let socket ← write socket (decimal (m.text.length + 1 : Nat) ++ [LF])
  let socket ← write socket (m.author ++ [LF])
  let socket ← write socket (decimal m.accepted.toInt ++ [LF])
  write socket (m.text ++ [LF])

/-- `ToInt<T>`, with the range of `T`. From a blank line `ret` is never set; `unset`
is what comes of that.
mirrors tcp/lib/Message.cpp:41-47 -/
def toInt (unset : Except Stop Int) (lo hi : Int) (str : Bytes) : Except Stop Int :=
  match extract lo hi str with
  | some ret => return ret
  | none => unset

/-- A length that is never set is a stop, as a count is made of it. A timestamp that
is never set is only stored: it is `unset`, whatever that is.
mirrors tcp/lib/Message.cpp:51-62 -/
def readMessage (unset : Int64) (fuel : Nat) (socket : TSocketWrapper) (c : Conn) :
    Except Stop (Option TMessage × TSocketWrapper × Conn) := do
  let (start, socket, c) ← readUntil fuel socket c LF
  if start = [] then return (none, socket, c)
  else do
    let textLength ← toInt (throw .uninitialised) Int32.minValue.toInt Int32.maxValue.toInt start
    let (author, socket, c) ← readUntil fuel socket c LF
    let (line, socket, c) ← readUntil fuel socket c LF
    let accepted ← toInt (return unset.toInt) Int64.minValue.toInt Int64.maxValue.toInt line
    let (text, socket, c) ← readN fuel socket c (Int32.ofInt textLength)
    if text = [] then throw .emptyPopBack
    else return (some ⟨author, Int64.ofInt accepted, text.dropLast⟩, socket, c)

/-! ## The format -/

def frame (m : TMessage) : Bytes :=
  decimal (m.text.length + 1 : Nat) ++ LF :: (m.author ++ LF :: (decimal m.accepted.toInt ++
    LF :: (m.text ++ [LF])))

/-- What `Serialize` delivers. -/
def wire (m : TMessage) : Bytes :=
  sent (decimal (m.text.length + 1 : Nat) ++ [LF]) ++ (sent (m.author ++ [LF]) ++
    (sent (decimal m.accepted.toInt ++ [LF]) ++ sent (m.text ++ [LF])))

theorem lf_not_mem_decimal (n : Int) : LF ∉ decimal n :=
  Numeral.not_mem_decimal (by decide) (by decide) n

theorem int64_bounds (x : Int64) : Int64.minValue.toInt ≤ x.toInt ∧ x.toInt ≤ Int64.maxValue.toInt :=
  ⟨x.minValue_le_toInt, Int64.toInt_le x⟩

theorem toInt_accepted (unset : Except Stop Int) (x : Int64) :
    toInt unset Int64.minValue.toInt Int64.maxValue.toInt (decimal x.toInt) = .ok x.toInt := by
  obtain ⟨h1, h2⟩ := int64_bounds x
  rw [toInt, Numeral.extract_decimal h1 h2]; rfl

/-- A timestamp is some value in any case. -/
theorem toInt_stored (unset lo hi : Int) (str : Bytes) : ∃ n, toInt (return unset) lo hi str = .ok n := by
  rw [toInt]
  cases extract lo hi str with
  | none => exact ⟨unset, rfl⟩
  | some n => exact ⟨n, rfl⟩

theorem toInt_length (unset : Except Stop Int) {n : Nat} (h : n < 2 ^ 31) :
    toInt unset Int32.minValue.toInt Int32.maxValue.toInt (decimal n) = .ok (n : Int) := by
  rw [toInt, Numeral.extract_decimal]
  · rfl
  · rw [int32_min]; omega
  · rw [int32_max]; omega

theorem toInt32_length {n : Nat} (h : n < 2 ^ 31) : (Int32.ofInt (n : Int)).toInt = n :=
  Int32.toInt_ofInt_of_le (by omega) (by omega)

theorem frame_ne_nil (m : TMessage) : frame m ≠ [] := by
  rw [frame]; exact List.append_ne_nil_of_left_ne_nil (Numeral.decimal_ne_nil _) _

/-- No frame is a beginning of another: a stream is cut into frames in one way. -/
theorem frame_append_inj {m m' : TMessage} {s t : Bytes} (ha : LF ∉ m.author) (ha' : LF ∉ m'.author)
    (h : frame m ++ s = frame m' ++ t) : m = m' ∧ s = t := by
  simp only [frame, List.append_assoc, List.cons_append, List.nil_append] at h
  obtain ⟨hlen, h⟩ := Cursor.split_unique (lf_not_mem_decimal _) (lf_not_mem_decimal _) h
  obtain ⟨hauthor, h⟩ := Cursor.split_unique ha ha' h
  obtain ⟨hacc, h⟩ := Cursor.split_unique (lf_not_mem_decimal _) (lf_not_mem_decimal _) h
  have hlen := Numeral.decimal_inj hlen
  obtain ⟨htext, hrest⟩ := List.append_inj h (by omega)
  exact ⟨TMessage.ext hauthor (Int64.toInt_inj.mp (Numeral.decimal_inj hacc)) htext,
    (List.cons.inj hrest).2⟩

/-! ## One message -/

section
variable {unset : Int64} {fuel : Nat} {w : TSocketWrapper} {c : Conn}

/-- Step lemma: a call on a stream that starts with a frame. The peer may be in
any state. -/
theorem readMessage_frame {m : TMessage} {t : Bytes} (hf : c.unread.length < fuel) (hi : Inv w)
    (ha : LF ∉ m.author) (ht : m.text.length < 2 ^ 31 - 1) (hr : rest w c = frame m ++ t) :
    ∃ w' c' used, readMessage unset fuel w c = .ok (some m, w', c') ∧ Inv w' ∧ rest w' c' = t ∧
      Took w c used w' c' := by
  simp only [frame, List.append_assoc, List.cons_append, List.nil_append] at hr
  obtain ⟨w1, c1, u1, e1, i1, r1, t1⟩ := readUntil_field hf hi (lf_not_mem_decimal _) hr
  have f1 := Nat.lt_of_le_of_lt t1.length_le hf
  obtain ⟨w2, c2, u2, e2, i2, r2, t2⟩ := readUntil_field f1 i1 ha r1
  have f2 := Nat.lt_of_le_of_lt t2.length_le f1
  obtain ⟨w3, c3, u3, e3, i3, r3, t3⟩ := readUntil_field f2 i2 (lf_not_mem_decimal _) r2
  have f3 := Nat.lt_of_le_of_lt t3.length_le f2
  have hn := toInt32_length (n := m.text.length + 1) (by omega)
  obtain ⟨w4, c4, u4, e4, i4, r4, t4⟩ := readN_spec (n := Int32.ofInt (m.text.length + 1 : Nat)) f3 i3
    (by rw [hn]; omega) (by rw [hn, r3]; simp)
  have htake : (m.text ++ LF :: t).take (m.text.length + 1) = m.text ++ [LF] := by
    rw [List.take_append, List.take_of_length_le (by omega)]; simp
  have hdrop : (m.text ++ LF :: t).drop (m.text.length + 1) = t := by
    rw [List.drop_append, List.drop_of_length_le (by omega)]; simp
  rw [hn, r3, Int.toNat_natCast, htake] at e4
  rw [hn, r3, Int.toNat_natCast, hdrop] at r4
  refine ⟨w4, c4, _, ?_, i4, r4, ((t1.trans t2).trans t3).trans t4⟩
  simp only [readMessage, e1, e2, e3, toInt_length _ (show m.text.length + 1 < 2 ^ 31 by omega),
    toInt_accepted, e4, bind, Except.bind, if_neg (Numeral.decimal_ne_nil _)]
  rw [if_neg (by simp), List.dropLast_concat, Int64.ofInt_toInt]
  rfl

/-- At the end of the stream. -/
theorem readMessage_end (hf : c.unread.length < fuel) (hi : Inv w) (hp : c.peer = .closed)
    (hr : rest w c = []) : ∃ w' c' used, readMessage unset fuel w c = .ok (none, w', c') ∧ Inv w' ∧
      rest w' c' = [] ∧ Took w c used w' c' := by
  obtain ⟨w1, c1, u1, e1, i1, r1, t1⟩ := readUntil_end LF hf hi hp hr
  refine ⟨w1, c1, u1, ?_, i1, r1, t1⟩
  simp only [readMessage, e1, bind, Except.bind]
  rfl

/-- With another timestamp. -/
def stamped (time : Int64) (m : TMessage) : TMessage := { m with accepted := time }

/-- What an unset timestamp holds shows in the timestamp only. -/
theorem readMessage_unset (unset unset' time : Int64) (fuel : Nat) (w : TSocketWrapper) (c : Conn) :
    (readMessage unset fuel w c).map (fun r => (r.1.map (stamped time), r.2)) =
      (readMessage unset' fuel w c).map fun r => (r.1.map (stamped time), r.2) := by
  rw [readMessage, readMessage]
  refine map_bind_congr fun start => ?_
  obtain ⟨start, w1, c1⟩ := start
  dsimp only
  split
  · rfl
  refine map_bind_congr fun n => map_bind_congr fun author => map_bind_congr fun line => ?_
  obtain ⟨accepted, ha⟩ := toInt_stored unset.toInt Int64.minValue.toInt Int64.maxValue.toInt line.1
  obtain ⟨accepted', ha'⟩ := toInt_stored unset'.toInt Int64.minValue.toInt Int64.maxValue.toInt line.1
  rw [ok_bind ha, ok_bind ha']
  refine map_bind_congr fun text => ?_
  split
  · rfl
  · rfl

/-- All that a call that returns has done. -/
theorem readMessage_cases {r : Option TMessage} {w' : TSocketWrapper} {c' : Conn}
    (h : readMessage unset fuel w c = .ok (r, w', c')) :
    ∃ start w1 c1, readUntil fuel w c LF = .ok (start, w1, c1) ∧
      ((start = [] ∧ r = none ∧ w1 = w' ∧ c1 = c') ∨
        ∃ n author w2 c2 line w3 c3 accepted text, start ≠ [] ∧
          readUntil fuel w1 c1 LF = .ok (author, w2, c2) ∧
          readUntil fuel w2 c2 LF = .ok (line, w3, c3) ∧ readN fuel w3 c3 n = .ok (text, w', c') ∧
          r = some ⟨author, accepted, text.dropLast⟩) := by
  obtain ⟨⟨start, w1, c1⟩, h1, h⟩ := bind_ok h
  refine ⟨start, w1, c1, h1, ?_⟩
  by_cases hnil : start = []
  · simp only [if_pos hnil] at h
    cases h; exact .inl ⟨hnil, rfl, rfl, rfl⟩
  simp only [if_neg hnil] at h
  obtain ⟨n, -, h⟩ := bind_ok h
  obtain ⟨⟨author, w2, c2⟩, h2, h⟩ := bind_ok h
  obtain ⟨⟨line, w3, c3⟩, h3, h⟩ := bind_ok h
  obtain ⟨accepted, -, h⟩ := bind_ok h
  obtain ⟨⟨text, w4, c4⟩, h4, h⟩ := bind_ok h
  by_cases htext : text = []
  · simp only [if_pos htext] at h; cases h
  · simp only [if_neg htext] at h
    cases h
    exact .inr ⟨_, author, w2, c2, line, w3, c3, _, text, hnil, h2, h3, h4, rfl⟩

/-- Whatever the rest of the stream is, the author read is the second line. -/
theorem readMessage_author {n : Int} {a t : Bytes} {r : Option TMessage} {w' : TSocketWrapper}
    {c' : Conn} (hf : c.unread.length < fuel) (hi : Inv w) (ha : LF ∉ a)
    (hr : rest w c = decimal n ++ LF :: (a ++ LF :: t))
    (h : readMessage unset fuel w c = .ok (r, w', c')) : ∃ m, r = some m ∧ m.author = a := by
  obtain ⟨w1, c1, u1, e1, i1, r1, t1⟩ := readUntil_field hf hi (lf_not_mem_decimal n) hr
  obtain ⟨w2, c2, u2, e2, -, -, -⟩ := readUntil_field (Nat.lt_of_le_of_lt t1.length_le hf) i1 ha r1
  obtain ⟨start, v1, d1, h1, hc⟩ := readMessage_cases h
  obtain ⟨rfl, rfl, rfl⟩ := Except.ok.inj (h1.symm.trans e1)
  rcases hc with ⟨hnil, -⟩ | ⟨_, author, v2, d2, _, _, _, _, _, -, h2, -, -, rfl⟩
  · exact absurd hnil (Numeral.decimal_ne_nil n)
  · obtain ⟨rfl, -⟩ := Except.ok.inj (h2.symm.trans e2)
    exact ⟨_, rfl, rfl⟩

/-- A call on a stream that stops within a frame, and may go on, does not return. -/
theorem readMessage_incomplete {m : TMessage} {x : Bytes} (hf : c.unread.length < fuel) (hi : Inv w)
    (hp : c.peer ≠ .closed) (ha : LF ∉ m.author) (ht : m.text.length < 2 ^ 31 - 1) (hx : x ≠ [])
    (hr : rest w c ++ x = frame m) : ∃ e, readMessage unset fuel w c = .error e := by
  have hxlen := List.length_pos_of_ne_nil hx
  rcases readUntil_prefix hf hi hp (lf_not_mem_decimal _) hr with ⟨e, he⟩ | ⟨w1, c1, u1, e1, i1, r1, t1⟩
  · exact ⟨e, by rw [readMessage, he]; rfl⟩
  have f1 := Nat.lt_of_le_of_lt t1.length_le hf
  have p1 : c1.peer ≠ .closed := t1.peer.symm ▸ hp
  rcases readUntil_prefix f1 i1 p1 ha r1 with ⟨e, he⟩ | ⟨w2, c2, u2, e2, i2, r2, t2⟩
  · refine ⟨e, ?_⟩
    simp only [readMessage, e1, toInt_length _ (show m.text.length + 1 < 2 ^ 31 by omega), he, bind,
      Except.bind, if_neg (Numeral.decimal_ne_nil _)]
  have f2 := Nat.lt_of_le_of_lt t2.length_le f1
  have p2 : c2.peer ≠ .closed := t2.peer.symm ▸ p1
  rcases readUntil_prefix f2 i2 p2 (lf_not_mem_decimal _) r2 with
    ⟨e, he⟩ | ⟨w3, c3, u3, e3, i3, r3, t3⟩
  · refine ⟨e, ?_⟩
    simp only [readMessage, e1, toInt_length _ (show m.text.length + 1 < 2 ^ 31 by omega), e2, he, bind,
      Except.bind, if_neg (Numeral.decimal_ne_nil _)]
  have hn := toInt32_length (n := m.text.length + 1) (by omega)
  have hlen := congrArg List.length r3
  simp only [List.length_append, List.length_singleton] at hlen
  obtain ⟨e, he⟩ : ∃ e, readN fuel w3 c3 (Int32.ofInt (m.text.length + 1 : Nat)) = .error e :=
    ⟨_, readN_short fuel i3 (by rw [hn]; omega)⟩
  refine ⟨e, ?_⟩
  simp only [readMessage, e1, toInt_length _ (show m.text.length + 1 < 2 ^ 31 by omega), e2, e3,
    toInt_accepted, he, bind, Except.bind, if_neg (Numeral.decimal_ne_nil _)]

/-- It waits, if the peer may still send. -/
theorem readMessage_blocked {m : TMessage} {x : Bytes} (hf : c.unread.length < fuel) (hi : Inv w)
    (hp : c.peer = .pending) (ha : LF ∉ m.author) (ht : m.text.length < 2 ^ 31 - 1) (hx : x ≠ [])
    (hr : rest w c ++ x = frame m) : readMessage unset fuel w c = .error .blocked := by
  have hxlen := List.length_pos_of_ne_nil hx
  rcases readUntil_pending hf hi hp (lf_not_mem_decimal _) hr with he | ⟨w1, c1, u1, e1, i1, r1, t1⟩
  · rw [readMessage, he]
    rfl
  have f1 := Nat.lt_of_le_of_lt t1.length_le hf
  have p1 : c1.peer = .pending := t1.peer.trans hp
  rcases readUntil_pending f1 i1 p1 ha r1 with he | ⟨w2, c2, u2, e2, i2, r2, t2⟩
  · simp only [readMessage, e1, toInt_length _ (show m.text.length + 1 < 2 ^ 31 by omega), he, bind,
      Except.bind, if_neg (Numeral.decimal_ne_nil _)]
  have f2 := Nat.lt_of_le_of_lt t2.length_le f1
  have p2 : c2.peer = .pending := t2.peer.trans p1
  rcases readUntil_pending f2 i2 p2 (lf_not_mem_decimal _) r2 with he | ⟨w3, c3, u3, e3, i3, r3, t3⟩
  · simp only [readMessage, e1, toInt_length _ (show m.text.length + 1 < 2 ^ 31 by omega), e2, he, bind,
      Except.bind, if_neg (Numeral.decimal_ne_nil _)]
  have f3 := Nat.lt_of_le_of_lt t3.length_le f2
  have hn := toInt32_length (n := m.text.length + 1) (by omega)
  have hlen := congrArg List.length r3
  simp only [List.length_append, List.length_singleton] at hlen
  have he : readN fuel w3 c3 (Int32.ofInt (m.text.length + 1 : Nat)) = .error .blocked := by
    rw [readN_short fuel i3 (by rw [hn]; omega), if_neg (by omega), t3.peer, p2]
    rfl
  simp only [readMessage, e1, toInt_length _ (show m.text.length + 1 < 2 ^ 31 by omega), e2, e3,
    toInt_accepted, he, bind, Except.bind, if_neg (Numeral.decimal_ne_nil _)]

/-- On any stream, a call only takes pieces off the connection. -/
theorem readMessage_reads {r : Option TMessage} {w' : TSocketWrapper} {c' : Conn}
    (h : readMessage unset fuel w c = .ok (r, w', c')) : Reads w c w' c' := by
  obtain ⟨start, w1, c1, h1, hc⟩ := readMessage_cases h
  have r1 := readUntil_reads h1
  rcases hc with ⟨-, -, rfl, rfl⟩ | ⟨_, _, w2, c2, _, w3, c3, _, _, -, h2, h3, h4, -⟩
  · exact r1
  · exact ((r1.trans (readUntil_reads h2)).trans (readUntil_reads h3)).trans (readN_reads h4)

/-- On any stream, a call that returns has consumed a beginning of it. -/
theorem readMessage_consumed {r : Option TMessage} {w' : TSocketWrapper} {c' : Conn}
    (hf : c.unread.length < fuel) (hi : Inv w) (h : readMessage unset fuel w c = .ok (r, w', c')) :
    Consumed w c w' c' := by
  obtain ⟨start, w1, c1, h1, hc⟩ := readMessage_cases h
  have r1 := readUntil_consumed hf hi h1
  rcases hc with ⟨-, -, rfl, rfl⟩ | ⟨_, _, w2, c2, _, w3, c3, _, _, -, h2, h3, h4, -⟩
  · exact r1
  · have r2 := r1.trans (readUntil_consumed (Nat.lt_of_le_of_lt r1.length_le hf) r1.inv h2)
    have r3 := r2.trans (readUntil_consumed (Nat.lt_of_le_of_lt r2.length_le hf) r2.inv h3)
    exact r3.trans (readN_consumed (Nat.lt_of_le_of_lt r3.length_le hf) r3.inv h4)

end

/-! ## What `Serialize` delivers -/

theorem sent_decimal (n : Int) (h : n.natAbs < 10 ^ 20) : sent (decimal n ++ [LF]) = decimal n ++ [LF] := by
  have := Numeral.decimal_length_le (by omega) h
  exact sent_of_lt _ (by rw [List.length_append, List.length_singleton]; omega)

theorem sent_accepted (x : Int64) :
    sent (decimal x.toInt ++ [LF]) = decimal x.toInt ++ [LF] := by
  have h1 := Int64.le_toInt x
  have h2 := Int64.toInt_lt x
  exact sent_decimal _ (by omega)

/-- Only the author can be cut, when the text is not too long. -/
theorem wire_eq {m : TMessage} (ht : m.text.length < 2 ^ 31 - 1) :
    wire m = decimal (m.text.length + 1 : Nat) ++ LF :: (sent (m.author ++ [LF]) ++
      (decimal m.accepted.toInt ++ LF :: (m.text ++ [LF]))) := by
  have h1 := sent_decimal (m.text.length + 1 : Nat) (by omega)
  have h2 := sent_of_lt (m.text ++ [LF]) (by
    rw [List.length_append, List.length_singleton]; omega)
  rw [wire, h1, h2, sent_accepted]
  simp

theorem wire_eq_frame {m : TMessage} (ha : m.author.length < 2 ^ 31 - 1)
    (ht : m.text.length < 2 ^ 31 - 1) : wire m = frame m := by
  have h := sent_of_lt (m.author ++ [LF]) (by
    rw [List.length_append, List.length_singleton]; omega)
  rw [wire_eq ht, h, frame]
  simp

theorem serialize_sameInput {m : TMessage} {c c' : Conn} (h : serialize m c = .ok c') :
    SameInput c c' := by
  obtain ⟨c1, h1, h⟩ := bind_ok h
  obtain ⟨c2, h2, h⟩ := bind_ok h
  obtain ⟨c3, h3, h⟩ := bind_ok h
  exact (((write_sameInput h1).trans (write_sameInput h2)).trans (write_sameInput h3)).trans
    (write_sameInput h)

/-- A `Serialize` whose `Write` calls do not fail delivers `wire`. -/
theorem serialize_sent (m : TMessage) {c : Conn} (hg : c.Unfailing) :
    ∃ c', serialize m c = .ok c' ∧ Delivered c (wire m) c' := by
  obtain ⟨c1, e1, d1⟩ := write_sent (decimal (m.text.length + 1 : Nat) ++ [LF]) hg
  have hg1 := d1.unfailing hg
  obtain ⟨c2, e2, d2⟩ := write_sent (m.author ++ [LF]) hg1
  have hg2 := d2.unfailing hg1
  obtain ⟨c3, e3, d3⟩ := write_sent (decimal m.accepted.toInt ++ [LF]) hg2
  obtain ⟨c4, e4, d4⟩ := write_sent (m.text ++ [LF]) (d3.unfailing hg2)
  refine ⟨c4, ?_, ?_⟩
  · rw [serialize, ok_bind e1, ok_bind e2, ok_bind e3, e4]
  · unfold wire
    exact d1.trans (d2.trans (d3.trans d4))

def serializeAll : List TMessage → Conn → Except Stop Conn
  | [], socket => return socket
  | m :: ms, socket => do serializeAll ms (← serialize m socket)

theorem serializeAll_sameInput : ∀ {ms : List TMessage} {c c' : Conn},
    serializeAll ms c = .ok c' → SameInput c c'
  | [], _, _, h => by cases h; exact ⟨rfl, rfl⟩
  | m :: ms, c, c', h => by
    obtain ⟨c1, h1, h⟩ := bind_ok h
    exact (serialize_sameInput h1).trans (serializeAll_sameInput h)

theorem serializeAll_sent : ∀ (ms : List TMessage) {c : Conn}, c.Good →
    ∃ c', serializeAll ms c = .ok c' ∧ Delivered c (ms.flatMap wire) c'
  | [], c, _ => ⟨c, rfl, .refl c⟩
  | m :: ms, c, hg => by
    obtain ⟨c1, e1, d1⟩ := serialize_sent m hg.unfailing
    obtain ⟨c2, e2, d2⟩ := serializeAll_sent ms (d1.good hg)
    refine ⟨c2, ?_, ?_⟩
    · rw [serializeAll, ok_bind e1, e2]
    · rw [List.flatMap_cons]
      exact d1.trans d2

/-! ## A stream of messages -/

/-- `n` calls of `ReadMessage`, each with a timestamp of its own where it is never set. -/
def readCalls (unset : TSocketWrapper → Conn → Int64) (fuel : Nat) : Nat → TSocketWrapper → Conn →
    Except Stop (List (Option TMessage) × TSocketWrapper × Conn)
  | 0, socket, c => return ([], socket, c)
  | n + 1, socket, c => do
    let (m, socket, c) ← readMessage (unset socket c) fuel socket c
    let (ms, socket, c) ← readCalls unset fuel n socket c
    return (m :: ms, socket, c)

/-- Sent over any connection that makes progress and read back in any pieces,
the messages are the same, and behind them the stream ends. -/
def RoundTrips (msgs : List TMessage) : Prop :=
  ∀ out : Conn, out.taken = [] → out.Good →
    ∃ out', serializeAll msgs out = .ok out' ∧
      ∀ (unset : TSocketWrapper → Conn → Int64) (socket fuel : Nat) (pieces : List Piece),
        bytesOf pieces = out'.taken → pieces.length < fuel →
        ∃ w c, readCalls unset fuel (msgs.length + 1) (.make socket) (.ofPieces pieces) =
          .ok (msgs.map some ++ [none], w, c)

/-- Run lemma: frames, and then the end of the stream. -/
theorem readCalls_frames (unset : TSocketWrapper → Conn → Int64) (fuel : Nat) :
    ∀ (msgs : List TMessage) (w : TSocketWrapper) (c : Conn),
    c.unread.length < fuel → Inv w → c.peer = .closed →
    (∀ m ∈ msgs, LF ∉ m.author ∧ m.text.length < 2 ^ 31 - 1) → rest w c = msgs.flatMap frame →
    ∃ w' c', readCalls unset fuel (msgs.length + 1) w c = .ok (msgs.map some ++ [none], w', c') := by
  intro msgs
  induction msgs with
  | nil =>
    intro w c hf hi hp _ hr
    obtain ⟨w1, c1, -, e1, -, -, -⟩ := readMessage_end hf hi hp hr
    refine ⟨w1, c1, ?_⟩
    rw [List.length_nil, readCalls, e1]
    rfl
  | cons m ms ih =>
    intro w c hf hi hp hm hr
    obtain ⟨ha, ht⟩ := hm m List.mem_cons_self
    obtain ⟨w1, c1, u1, e1, i1, r1, t1⟩ := readMessage_frame hf hi ha ht hr
    obtain ⟨w2, c2, e2⟩ := ih w1 c1 (Nat.lt_of_le_of_lt t1.length_le hf) i1 (t1.peer.trans hp)
      (fun m' h => hm m' (List.mem_cons_of_mem _ h)) r1
    refine ⟨w2, c2, ?_⟩
    rw [readCalls, e1]
    simp only [bind, Except.bind, List.length_cons, e2]
    rfl

theorem three_lines (x a y z t : Bytes) :
    (x ++ LF :: (a ++ (y ++ LF :: (z ++ [LF])))) ++ t =
      x ++ LF :: ((a ++ y) ++ LF :: (z ++ LF :: t)) := by
  simp

/-- The reader takes what is left of a cut author and the timestamp for one line. -/
theorem wire_append_eq {m : TMessage} (ht : m.text.length < 2 ^ 31 - 1) (t : Bytes) :
    wire m ++ t = decimal (m.text.length + 1 : Nat) ++ LF :: ((sent (m.author ++ [LF]) ++
      decimal m.accepted.toInt) ++ LF :: (m.text ++ LF :: t)) := by
  rw [wire_eq ht, three_lines]

/-- That line is shorter than the author was. -/
theorem cut_author {m : TMessage} (ha : LF ∉ m.author) (hl : 2 ^ 31 - 1 ≤ m.author.length) :
    LF ∉ sent (m.author ++ [LF]) ++ decimal m.accepted.toInt ∧
      (sent (m.author ++ [LF]) ++ decimal m.accepted.toInt).length < m.author.length := by
  have hlen := sent_length_add_le (m.author ++ [LF]) (by
    rw [List.length_append, List.length_singleton]; omega)
  have h1 := Int64.le_toInt m.accepted
  have h2 := Int64.toInt_lt m.accepted
  have hdec := Numeral.decimal_length_le (k := 20) (by omega)
    (show m.accepted.toInt.natAbs < 10 ^ 20 by omega)
  rw [List.length_append, List.length_singleton] at hlen
  constructor
  · rw [List.mem_append, not_or]
    refine ⟨fun h => ?_, lf_not_mem_decimal _⟩
    rw [sent, List.length_take] at hlen
    rw [sent, List.take_append_of_le_length] at h
    · exact ha (List.mem_of_mem_take h)
    · rw [List.length_append, List.length_singleton] at hlen ⊢; omega
  · rw [List.length_append]; omega

/-- A stream with a cut author in it is not read back. -/
theorem readCalls_lost (unset : TSocketWrapper → Conn → Int64) (fuel : Nat) :
    ∀ (msgs : List TMessage) (w : TSocketWrapper) (c : Conn),
    c.unread.length < fuel → Inv w → (∀ m ∈ msgs, LF ∉ m.author ∧ m.text.length < 2 ^ 31 - 1) →
    (∃ m ∈ msgs, 2 ^ 31 - 1 ≤ m.author.length) → rest w c = msgs.flatMap wire →
    ∀ w' c', readCalls unset fuel (msgs.length + 1) w c ≠ .ok (msgs.map some ++ [none], w', c') := by
  intro msgs
  induction msgs with
  | nil => intro _ _ _ _ _ hex; simp at hex
  | cons m ms ih =>
    intro w c hf hi hm hex hr w' c' h
    obtain ⟨ha, ht⟩ := hm m List.mem_cons_self
    rw [List.length_cons, readCalls] at h
    obtain ⟨⟨r, w1, c1⟩, e1, h⟩ := bind_ok h
    obtain ⟨⟨rs, w2, c2⟩, e2, h⟩ := bind_ok h
    simp only [pure, Except.pure, Except.ok.injEq, Prod.mk.injEq, List.map_cons, List.cons_append,
      List.cons.injEq] at h
    obtain ⟨⟨rfl, rfl⟩, rfl, rfl⟩ := h
    rw [List.flatMap_cons] at hr
    by_cases hl : 2 ^ 31 - 1 ≤ m.author.length
    · obtain ⟨hlf, hlt⟩ := cut_author ha hl
      obtain ⟨m', hm', hauth⟩ := readMessage_author hf hi hlf (hr.trans (wire_append_eq ht _)) e1
      obtain rfl := Option.some.inj hm'
      rw [← hauth] at hlt
      exact Nat.lt_irrefl _ hlt
    · rw [wire_eq_frame (by omega) ht] at hr
      obtain ⟨w3, c3, u3, e3, i3, r3, t3⟩ := readMessage_frame hf hi ha ht hr
      obtain ⟨-, rfl, rfl⟩ : some m = some m ∧ w1 = w3 ∧ c1 = c3 := by
        simpa using e1.symm.trans e3
      refine ih w1 c1 (Nat.lt_of_le_of_lt t3.length_le hf) i3
        (fun m' h => hm m' (List.mem_cons_of_mem _ h)) ?_ r3 w2 c2 e2
      obtain ⟨m', hmem, hl'⟩ := hex
      rcases List.mem_cons.mp hmem with rfl | hmem
      · exact absurd hl' hl
      · exact ⟨m', hmem, hl'⟩

/-- A list with a cut author in it does not survive. -/
theorem not_roundTrips {msgs : List TMessage}
    (hm : ∀ m ∈ msgs, LF ∉ m.author ∧ m.text.length < 2 ^ 31 - 1)
    (hl : ∃ m ∈ msgs, 2 ^ 31 - 1 ≤ m.author.length) : ¬ RoundTrips msgs := by
  intro h
  have hg : (Conn.ofPieces []).Good := fun q hq => absurd hq List.not_mem_nil
  obtain ⟨out', he, hp⟩ := h (.ofPieces []) rfl hg
  obtain ⟨c', hs, hd⟩ := serializeAll_sent msgs hg
  obtain rfl := Except.ok.inj (he.symm.trans hs)
  have hb := bytesOf_bytewise (msgs.flatMap wire)
  let pieces := bytewise (msgs.flatMap wire)
  obtain ⟨w, c, hcalls⟩ := hp (fun _ _ => 0) 0 (pieces.length + 1) pieces (hb.trans hd.taken.symm)
    (Nat.lt_succ_self _)
  exact readCalls_lost (fun _ _ => 0) (pieces.length + 1) msgs _ _ (Nat.lt_succ_self _) (make_inv 0) hm hl
    ((rest_make _ _).trans hb) w c hcalls

/-- **When a list of messages survives.** For authors without a line feed and
texts whose length plus one is an `int`, the messages that `Serialize` wrote
come back, in order and before an empty result, if and only if no author has
`2^31 - 1` bytes or more. -/
theorem roundTrips_iff (msgs : List TMessage)
    (hm : ∀ m ∈ msgs, LF ∉ m.author ∧ m.text.length < 2 ^ 31 - 1) :
    RoundTrips msgs ↔ ∀ m ∈ msgs, m.author.length < 2 ^ 31 - 1 := by
  constructor
  · intro h m hmem
    by_contra hl
    exact not_roundTrips hm ⟨m, hmem, by omega⟩ h
  · intro hl out htaken hg
    obtain ⟨out', hs, hd⟩ := serializeAll_sent msgs hg
    refine ⟨_, hs, fun unset socket fuel pieces hb hf => ?_⟩
    have hframes : msgs.flatMap wire = msgs.flatMap frame :=
      List.flatMap_congr fun m h => wire_eq_frame (hl m h) (hm m h).2
    rw [hd.taken, htaken, List.nil_append, hframes] at hb
    exact readCalls_frames unset fuel msgs (.make socket) (.ofPieces pieces) hf (make_inv _) rfl hm
      ((rest_make _ _).trans hb)

/-- Two messages, the text of the second one in two lines. -/
def twoLines : List TMessage :=
  [⟨ascii "Alice", 0, ascii "Hi!"⟩, ⟨ascii "Bob", 1590510550, ascii "Hi!\nHow are you?"⟩]

theorem roundTrips_iff_two_lines : RoundTrips twoLines :=
  (roundTrips_iff twoLines (by decide)).mpr (by decide)

/-- The shortest author that is cut: nothing of it is written, nor its line feed. -/
def longAuthor : TMessage := ⟨List.replicate (2 ^ 31 - 1) 0x61, 0, ascii "Hi!"⟩

theorem longAuthor_lost : (LF ∉ longAuthor.author ∧ longAuthor.text.length < 2 ^ 31 - 1) ∧
    ¬ RoundTrips [longAuthor] := by
  have ha : LF ∉ longAuthor.author := fun h => by
    have := List.eq_of_mem_replicate h
    exact absurd this (by decide)
  have ht : longAuthor.text.length < 2 ^ 31 - 1 := (by decide : (ascii "Hi!").length < 2 ^ 31 - 1)
  have hl : 2 ^ 31 - 1 ≤ longAuthor.author.length := Nat.le_of_eq List.length_replicate.symm
  refine ⟨⟨ha, ht⟩, not_roundTrips ?_ ⟨longAuthor, List.mem_singleton_self _, hl⟩⟩
  intro m hm
  obtain rfl := List.mem_singleton.mp hm
  exact ⟨ha, ht⟩

end NetworksLab.L3.ChatMessage
