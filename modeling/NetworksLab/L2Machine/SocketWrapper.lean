import NetworksLab.Core.Bytes
import NetworksLab.Core.Cursor
import NetworksLab.Core.Result

/-!
# `TSocketWrapper` (`tcp/lib/Socket.h`, `tcp/lib/Socket.cpp`)

A read-ahead buffer over a socket. `Conn` is what stands behind `Socket_`: the
pieces the coming `Read` calls return (each of 1 to `BufSize - 1` bytes, by
type), how the peer's stream ends behind them, the results of the coming
`Write` calls, and the bytes accepted so far. The mock sockets of
`tcp/test/util` are such connections.

Every `while` loop takes a bound on its iterations; `Stop.fuel` says that the
bound was reached. `BStart_` is an `Int`, as in the source, so that its range
is a theorem (`Inv`).

Results:
* `readUntil_spec`, `readN_spec`: one call against the cursor on the bytes
  that are buffered or still unread (`rest`).
* `run_refines`: any program of reads gives the cursor's results, with
  `0 <= BStart_ <= Buffer_.size()` after every call.
* `readN_ends_iff`, `readN_returns_iff`: when the loop of `ReadN` ends, and
  when it has its bytes.
* `write_sent`: a `Write` none of whose calls fails delivers `sent`.
-/
namespace NetworksLab.L2.SocketWrapper

/-- Why a call does not return. -/
inductive Stop where
  /-- the loop bound was reached -/
  | fuel
  /-- `read(2)` waits: nothing unread and the peer has not closed -/
  | blocked
  /-- `std::length_error` from `resize` or `reserve` -/
  | lengthError
  /-- a pointer outside the data -/
  | outOfRange
  /-- a variable is read that was never set -/
  | uninitialised
  /-- `pop_back` on an empty string -/
  | emptyPopBack
  deriving DecidableEq, Repr

/-- mirrors tcp/lib/Socket.h:62 -/
def bufSize : Nat := 256

/-- What one successful `Read(data, BufSize - 1)` returns. -/
abbrev Piece := { b : Bytes // 0 < b.length ∧ b.length ≤ bufSize - 1 }

/-- How the peer's stream goes on behind the unread pieces. -/
inductive PeerEnd where
  /-- still open: `Read` blocks -/
  | pending
  /-- closed: `Read` returns 0 from then on -/
  | closed
  /-- broken: `Read` returns -1 -/
  | broken
  deriving DecidableEq, Repr

/-- The object behind an `ISocket*`. -/
structure Conn where
  unread : List Piece
  peer : PeerEnd
  /-- results of the coming `Write` calls, each cut to the length offered;
  behind the list everything is accepted -/
  quota : List Int
  taken : Bytes
  deriving DecidableEq, Repr

/-- A connection whose peer sends the pieces and closes. -/
def Conn.ofPieces (pieces : List Piece) : Conn := ⟨pieces, .closed, [], []⟩

/-- `Socket_->Read`: the bytes read, `none` for the result -1.
mirrors tcp/lib/Socket.cpp:27-29 -/
def Conn.read (c : Conn) : Except Stop (Option Bytes × Conn) :=
  match c.unread, c.peer with
  | p :: ps, _ => .ok (some p.val, { c with unread := ps })
  | [], .pending => .error .blocked
  | [], .closed => .ok (some [], c)
  | [], .broken => .ok (none, c)

/-- `Socket_->Write` offered `block`: the count accepted, or -1.
mirrors tcp/lib/Socket.cpp:31-33 -/
def Conn.write (c : Conn) (block : Bytes) : Int × Conn :=
  match c.quota with
  | [] => (block.length, { c with taken := c.taken ++ block })
  | q :: qs =>
    if q < 0 then (-1, { c with quota := qs })
    else
      let n := min q.toNat block.length
      (n, { c with quota := qs, taken := c.taken ++ block.take n })

/-- mirrors tcp/lib/Socket.h:44-70 (`Socket_` is the address of the socket
object; the object itself is passed along) -/
structure TSocketWrapper where
  socket : Nat
  buffer : Bytes
  bStart : Int
  deriving DecidableEq, Repr

/-- mirrors tcp/lib/Socket.cpp:35-39 -/
def TSocketWrapper.make (socket : Nat) : TSocketWrapper := ⟨socket, [], 0⟩

/-- The buffered bytes from `BStart_` on. -/
def TSocketWrapper.pending (w : TSocketWrapper) : Bytes := w.buffer.drop w.bStart.toNat

/-- `BStart_ += k`. -/
def TSocketWrapper.advance (w : TSocketWrapper) (k : Int) : TSocketWrapper :=
  { w with bStart := w.bStart + k }

/-- mirrors tcp/lib/Socket.cpp:99-101 -/
def hasCachedInput (w : TSocketWrapper) : Bool := decide (w.bStart < w.buffer.length)

/-- A result of -1 makes `Buffer_.resize(read)` throw.
mirrors tcp/lib/Socket.cpp:103-108 -/
def readBuf (w : TSocketWrapper) (c : Conn) : Except Stop (TSocketWrapper × Conn) := do
  match ← c.read with
  | (some bytes, c) => return ({ w with buffer := bytes, bStart := 0 }, c)
  | (none, _) => throw .lengthError

/-- The `while` loop of `ReadN`; `n` bytes are still wanted.
mirrors tcp/lib/Socket.cpp:55-63 -/
def readNLoop : Nat → TSocketWrapper → Conn → Int → Bytes →
    Except Stop (Bytes × TSocketWrapper × Conn)
  | fuel, w, c, n, ret =>
    if 0 < n then
      match fuel with
      | 0 => throw .fuel
      | fuel + 1 => do
        let (w, c) ← readBuf w c
        let toCopy := min (w.buffer.length : Int) n
        readNLoop fuel (w.advance toCopy) c (n - toCopy) (ret ++ w.buffer.take toCopy.toNat)
    else return (ret, w, c)

/-- `ret.reserve(n)` throws for a negative `n`.
mirrors tcp/lib/Socket.cpp:41-66 -/
def readN (fuel : Nat) (w : TSocketWrapper) (c : Conn) (n : Int32) :
    Except Stop (Bytes × TSocketWrapper × Conn) :=
  if n.toInt < 0 then throw .lengthError
  else
    let bufLen : Int := w.buffer.length - w.bStart
    if 0 < bufLen then
      let toCopy := min bufLen n.toInt
      readNLoop fuel (w.advance toCopy) c (n.toInt - toCopy) (w.pending.take toCopy.toNat)
    else readNLoop fuel w c n.toInt []

/-- `std::find(Buffer_.begin() + BStart_, Buffer_.end(), delimiter)`, as an index. -/
def find (w : TSocketWrapper) (delimiter : UInt8) : Nat :=
  w.bStart.toNat + w.pending.findIdx (· == delimiter)

/-- The `while` loop of `ReadUntil`: `ret`, `it` and the wrapper behind it.
mirrors tcp/lib/Socket.cpp:71-80 -/
def readUntilLoop (delimiter : UInt8) : Nat → TSocketWrapper → Conn → Bytes →
    Except Stop (Bytes × Nat × TSocketWrapper × Conn)
  | fuel, w, c, ret =>
    if find w delimiter = w.buffer.length then
      match fuel with
      | 0 => throw .fuel
      | fuel + 1 => do
        let ret := ret ++ w.pending
        let (w, c) ← readBuf w c
        if w.buffer = [] then return (ret, 0, w, c)
        else readUntilLoop delimiter fuel w c ret
    else return (ret, find w delimiter, w, c)

/-- `ReadUntil` behind its loop.
mirrors tcp/lib/Socket.cpp:82-88 -/
def readUntilTail : Bytes × Nat × TSocketWrapper × Conn → Bytes × TSocketWrapper × Conn
  | (ret, it, w, c) =>
    let ret := ret ++ w.pending.take (it - w.bStart).toNat
    let w := { w with bStart := it + 1 }
    let w := if w.buffer = [] then { w with bStart := 0 } else w
    (ret, w, c)

/-- mirrors tcp/lib/Socket.cpp:68-90 -/
def readUntil (fuel : Nat) (w : TSocketWrapper) (c : Conn) (delimiter : UInt8) :
    Except Stop (Bytes × TSocketWrapper × Conn) :=
  (readUntilLoop delimiter fuel w c []).map readUntilTail

/-- The `while` loop of `Write`. The length is an `int` parameter of
`ISocket::Write`.
mirrors tcp/lib/Socket.cpp:92-97 -/
def writeLoop : Nat → Bytes → Int → Conn → Except Stop Conn
  | fuel, data, written, c =>
    if written < toInt data.length then
      match fuel with
      | 0 => throw .fuel
      | fuel + 1 =>
        if written < 0 then throw .outOfRange
        else
          let len := toInt (data.length - written.toNat)
          let (r, c) := c.write ((data.drop written.toNat).take len.toNat)
          writeLoop fuel data (written + r) c
    else return c

/-- The bound is never reached: see `writeLoop_sent`. -/
def write (c : Conn) (data : Bytes) : Except Stop Conn :=
  writeLoop (c.quota.length + 1) data 0 c

/-! ## What is left to read -/

/-- `0 <= BStart_ <= Buffer_.size()`. -/
def Inv (w : TSocketWrapper) : Prop := 0 ≤ w.bStart ∧ w.bStart ≤ w.buffer.length

/-- The bytes of the pieces. -/
def bytesOf (pieces : List Piece) : Bytes := pieces.flatMap Subtype.val

@[simp] theorem bytesOf_nil : bytesOf [] = [] := rfl

@[simp] theorem bytesOf_cons (p : Piece) (ps : List Piece) : bytesOf (p :: ps) = p.val ++ bytesOf ps := rfl

@[simp] theorem bytesOf_append (ps qs : List Piece) : bytesOf (ps ++ qs) = bytesOf ps ++ bytesOf qs := by
  simp [bytesOf]

/-- Reads of one byte each. -/
def bytewise (s : Bytes) : List Piece := s.map fun b => ⟨[b], by simp, by simp [bufSize]⟩

theorem bytesOf_bytewise (s : Bytes) : bytesOf (bytewise s) = s := by
  induction s with
  | nil => rfl
  | cons b s ih =>
    calc bytesOf (bytewise (b :: s)) = b :: bytesOf (bytewise s) := rfl
      _ = b :: s := by rw [ih]

/-- The stream as the caller sees it: buffered, then unread. -/
def rest (w : TSocketWrapper) (c : Conn) : Bytes := w.pending ++ bytesOf c.unread

theorem make_inv (p : Nat) : Inv (.make p) := by simp [Inv, TSocketWrapper.make]

theorem rest_make (p : Nat) (c : Conn) : rest (.make p) c = bytesOf c.unread := by
  simp [rest, TSocketWrapper.pending, TSocketWrapper.make]

/-- The connection with other pieces unread. -/
def Conn.without (c : Conn) (ps : List Piece) : Conn := { c with unread := ps }

@[simp] theorem without_unread (c : Conn) (ps : List Piece) : (c.without ps).unread = ps := rfl

/-- How the unread bytes are cut does not matter. -/
theorem rest_congr (w : TSocketWrapper) {c c' : Conn} (h : bytesOf c'.unread = bytesOf c.unread) :
    rest w c' = rest w c := by
  rw [rest, rest, h]

theorem rest_arrive (w : TSocketWrapper) (c : Conn) (p : Piece) :
    rest w (c.without (c.unread ++ [p])) = rest w c ++ p.val := by
  simp only [rest, without_unread, bytesOf_append, bytesOf_cons, bytesOf_nil, List.append_nil,
    List.append_assoc]

/-- A call took `used` off the connection, and left nothing else of it changed.
It did not stop before the last piece it read: some of that piece is consumed. -/
structure Took (w : TSocketWrapper) (c : Conn) (used : List Piece) (w' : TSocketWrapper)
    (c' : Conn) : Prop where
  conn : c = c'.without (used ++ c'.unread)
  socket : w'.socket = w.socket
  idle : used = [] → w'.pending <:+ w.pending
  last : ∀ ps p, used = ps ++ [p] → w'.pending.length < p.val.length

theorem Took.refl (w : TSocketWrapper) (c : Conn) : Took w c [] w c :=
  ⟨rfl, rfl, fun _ => List.suffix_rfl, fun ps p h => by simp at h⟩

theorem Took.trans {w w' w'' : TSocketWrapper} {c c' c'' : Conn} {u u' : List Piece}
    (h : Took w c u w' c') (h' : Took w' c' u' w'' c'') : Took w c (u ++ u') w'' c'' := by
  refine ⟨?_, h'.socket.trans h.socket, ?_, ?_⟩
  · rw [h.conn, h'.conn]; simp [Conn.without]
  · intro hu
    obtain ⟨hu, hu'⟩ := List.append_eq_nil_iff.mp hu
    exact (h'.idle hu').trans (h.idle hu)
  · intro ps p hp
    rcases List.eq_nil_or_concat u' with rfl | ⟨qs, q, rfl⟩
    · rw [List.append_nil] at hp
      exact Nat.lt_of_le_of_lt (h'.idle rfl).length_le (h.last ps p hp)
    · rw [List.concat_eq_append] at hp h'
      rw [← List.append_assoc] at hp
      have hq : [q] = [p] := (List.append_inj' hp rfl).2
      obtain rfl : q = p := List.singleton_inj.mp hq
      exact h'.last qs q rfl

theorem Took.peer {w w' : TSocketWrapper} {c c' : Conn} {used : List Piece}
    (h : Took w c used w' c') : c'.peer = c.peer := by
  rw [h.conn]; rfl

theorem Took.length_le {w w' : TSocketWrapper} {c c' : Conn} {used : List Piece}
    (h : Took w c used w' c') : c'.unread.length ≤ c.unread.length := by
  rw [h.conn]; simp

/-- The wrapper and the connection behind a refill with `p`. -/
def refilled (w : TSocketWrapper) (p : Piece) : TSocketWrapper := { w with buffer := p.val, bStart := 0 }

theorem refilled_inv (w : TSocketWrapper) (p : Piece) : Inv (refilled w p) := by simp [Inv, refilled]

theorem rest_refilled (w : TSocketWrapper) (c : Conn) (p : Piece) (ps : List Piece) :
    rest (refilled w p) (c.without ps) = p.val ++ bytesOf ps := rfl

theorem piece_ne_nil (p : Piece) : p.val ≠ [] := List.ne_nil_of_length_pos p.property.1

/-- A call that refills and goes on, and consumes some of what it was given. -/
theorem Took.refill {w w' : TSocketWrapper} {c c' : Conn} {p : Piece} {ps used : List Piece}
    (hu : c.unread = p :: ps) (h : Took (refilled w p) (c.without ps) used w' c')
    (hlt : used = [] → w'.pending.length < p.val.length) : Took w c (p :: used) w' c' := by
  refine ⟨?_, h.socket, fun h => by simp at h, ?_⟩
  · have hps : ps = used ++ c'.unread := congrArg Conn.unread h.conn
    calc c = (c.without ps).without (p :: ps) := by rw [← hu]; rfl
      _ = (c'.without (used ++ c'.unread)).without (p :: ps) := by rw [← h.conn]
      _ = c'.without (p :: used ++ c'.unread) := by rw [hps]; rfl
  · intro qs q hq
    cases qs with
    | nil =>
      simp only [List.nil_append, List.cons.injEq] at hq
      obtain ⟨rfl, hnil⟩ := hq
      exact hlt hnil
    | cons x qs =>
      simp only [List.cons_append, List.cons.injEq] at hq
      exact h.last qs q hq.2

/-- A refill: nothing was pending, and the next piece is. -/
theorem readBuf_piece {w : TSocketWrapper} {c : Conn} {p : Piece} {ps : List Piece}
    (h : c.unread = p :: ps) :
    readBuf w c = .ok (refilled w p, c.without ps) := by
  simp only [readBuf, Conn.read, h]; rfl

theorem readBuf_closed {w : TSocketWrapper} {c : Conn} (h : c.unread = []) (hp : c.peer = .closed) :
    readBuf w c = .ok ({ w with buffer := [], bStart := 0 }, c) := by
  simp only [readBuf, Conn.read, h, hp]; rfl

/-! ## `ReadUntil` -/

section
variable {w : TSocketWrapper} {c : Conn} {d : UInt8} {ret : Bytes}

theorem pending_length (h : Inv w) : (w.pending.length : Int) = w.buffer.length - w.bStart := by
  obtain ⟨h1, h2⟩ := h
  simp only [TSocketWrapper.pending, List.length_drop]; omega

/-- The delimiter is in the buffer: no read. -/
theorem readUntil_hit (fuel : Nat) (ret : Bytes) (hi : Inv w) {a t : Bytes} (ha : d ∉ a)
    (hp : w.pending = a ++ d :: t) :
    (readUntilLoop d fuel w c ret).map readUntilTail =
      .ok (ret ++ a, { w with bStart := w.bStart + a.length + 1 }, c) ∧
    Inv { w with bStart := w.bStart + a.length + 1 } ∧
    ({ w with bStart := w.bStart + a.length + 1 } : TSocketWrapper).pending = t := by
  have hl := pending_length hi
  obtain ⟨h1, h2⟩ := hi
  rw [hp, List.length_append, List.length_cons] at hl
  have hf : find w d = w.bStart.toNat + a.length := by
    rw [find, hp, Cursor.findIdx_split ha]
  have hne : w.buffer ≠ [] := by
    intro he; rw [he] at hl; simp at hl; omega
  refine ⟨?_, ⟨by simp only; omega, by simp only; omega⟩, ?_⟩
  · unfold readUntilLoop
    rw [if_neg (by omega)]
    simp only [pure, Except.pure, Except.map, readUntilTail, if_neg hne, hf, hp]
    rw [show ((w.bStart.toNat + a.length : Nat) - w.bStart).toNat = a.length by omega,
      List.take_left' rfl,
      show ((w.bStart.toNat + a.length : Nat) + 1 : Int) = w.bStart + a.length + 1 by omega]
  · have : w.buffer.drop w.bStart.toNat = a ++ d :: t := hp
    simp only [TSocketWrapper.pending]
    rw [show (w.bStart + a.length + 1).toNat = w.bStart.toNat + (a.length + 1) by omega,
      ← List.drop_drop, this, ← List.drop_drop, List.drop_left' rfl, List.drop_one, List.tail_cons]

theorem readUntilLoop_spec_hit {fuel : Nat} (hi : Inv w) {a t : Bytes} (ha : d ∉ a)
    (hp : w.pending = a ++ d :: t) :
    ∃ w' c' used, (readUntilLoop d fuel w c ret).map readUntilTail =
        .ok (ret ++ (Cursor.readUntil d (rest w c)).1, w', c') ∧
      Inv w' ∧ rest w' c' = (Cursor.readUntil d (rest w c)).2 ∧ Took w c used w' c' ∧
      (used = [] → w.pending ≠ [] → w'.pending.length < w.pending.length) := by
  obtain ⟨h1, h2, h3⟩ := readUntil_hit (c := c) fuel ret hi ha hp
  have hr : rest w c = a ++ d :: (t ++ bytesOf c.unread) := by simp [rest, hp]
  rw [hr, Cursor.readUntil_append_delim ha]
  refine ⟨_, c, [], h1, h2, by rw [rest, h3], ⟨rfl, rfl, fun _ => ?_, fun ps p h => by simp at h⟩, ?_⟩
  · rw [h3, hp]; exact ⟨a ++ [d], by simp⟩
  · intro _ _; rw [h3, hp]; simp; omega

/-- No delimiter in the buffer: one refill. -/
theorem readUntilLoop_miss (fuel : Nat) (hi : Inv w) (hd : d ∉ w.pending) :
    readUntilLoop d (fuel + 1) w c ret = (do
      let (w', c') ← readBuf w c
      if w'.buffer = [] then return (ret ++ w.pending, 0, w', c')
      else readUntilLoop d fuel w' c' (ret ++ w.pending)) := by
  have hl := pending_length hi
  obtain ⟨h1, h2⟩ := hi
  rw [readUntilLoop]
  rw [if_pos (by rw [find, Cursor.findIdx_of_not_mem hd]; omega)]

end

/-- One `ReadUntil` on a stream where the delimiter is still to come or the
peer has closed. -/
theorem readUntilLoop_spec (d : UInt8) : ∀ (unread : List Piece) (fuel : Nat) (w : TSocketWrapper)
    (c : Conn) (ret : Bytes), c.unread = unread → unread.length < fuel → Inv w →
    (d ∈ rest w c ∨ c.peer = .closed) →
    ∃ w' c' used, (readUntilLoop d fuel w c ret).map readUntilTail =
        .ok (ret ++ (Cursor.readUntil d (rest w c)).1, w', c') ∧
      Inv w' ∧ rest w' c' = (Cursor.readUntil d (rest w c)).2 ∧ Took w c used w' c' ∧
      (used = [] → w.pending ≠ [] → w'.pending.length < w.pending.length) := by
  intro unread
  induction unread with
  | nil =>
    intro fuel w c ret hu hf hi hor
    rcases Cursor.mem_or_split d w.pending with hd | ⟨a, t, ha, hp⟩
    · obtain ⟨fuel, rfl⟩ : ∃ n, fuel = n + 1 := ⟨fuel - 1, by simp at hf; omega⟩
      have hr : rest w c = w.pending := by simp [rest, hu]
      rw [hr] at hor ⊢
      have hc := hor.resolve_left hd
      have hnil : ({ w with buffer := [], bStart := 0 } : TSocketWrapper).pending = [] := rfl
      refine ⟨{ w with buffer := [], bStart := 0 }, c, [], ?_, by simp [Inv], ?_, ?_, ?_⟩
      · rw [readUntilLoop_miss fuel hi hd, readBuf_closed hu hc, Cursor.readUntil_of_not_mem hd]
        simp [bind, Except.bind, pure, Except.pure, Except.map, readUntilTail,
          TSocketWrapper.pending]
      · rw [Cursor.readUntil_of_not_mem hd, rest, hu, hnil, bytesOf_nil, List.append_nil]
      · exact ⟨rfl, rfl, fun _ => by simp [hnil], fun ps p h => by simp at h⟩
      · intro _ h; rw [hnil]; exact List.length_pos_of_ne_nil h
    · exact readUntilLoop_spec_hit hi ha hp
  | cons p ps ih =>
    intro fuel w c ret hu hf hi hor
    rcases Cursor.mem_or_split d w.pending with hd | ⟨a, t, ha, hp⟩
    · obtain ⟨fuel, rfl⟩ : ∃ n, fuel = n + 1 := ⟨fuel - 1, by simp at hf; omega⟩
      have hr : rest w c = w.pending ++ rest (refilled w p) (c.without ps) := by
        rw [rest_refilled, rest, hu, bytesOf_cons]
      have hor' : d ∈ rest (refilled w p) (c.without ps) ∨ (c.without ps).peer = .closed := by
        rw [hr, List.mem_append] at hor
        exact hor.imp_left fun h => h.resolve_left hd
      obtain ⟨w', c', used, h1, h2, h3, h4, h5⟩ := ih fuel (refilled w p) (c.without ps)
        (ret ++ w.pending) rfl (by simp only [List.length_cons] at hf; omega) (refilled_inv w p) hor'
      rw [hr, Cursor.readUntil_append hd]
      refine ⟨w', c', p :: used, ?_, h2, h3, h4.refill hu fun h => h5 h (piece_ne_nil p),
        fun h => by simp at h⟩
      rw [readUntilLoop_miss fuel hi hd, readBuf_piece hu, ← List.append_assoc, ← h1]
      have hb : (refilled w p).buffer ≠ [] := piece_ne_nil p
      simp only [bind, Except.bind]
      rw [if_neg hb]
    · exact readUntilLoop_spec_hit hi ha hp

/-- One `ReadUntil`, as a read of the cursor. -/
theorem readUntil_spec {fuel : Nat} {w : TSocketWrapper} {c : Conn} (d : UInt8)
    (hf : c.unread.length < fuel) (hi : Inv w) (hor : d ∈ rest w c ∨ c.peer = .closed) :
    ∃ w' c' used, readUntil fuel w c d = .ok ((Cursor.readUntil d (rest w c)).1, w', c') ∧
      Inv w' ∧ rest w' c' = (Cursor.readUntil d (rest w c)).2 ∧ Took w c used w' c' := by
  obtain ⟨w', c', used, h1, h2, h3, h4, -⟩ := readUntilLoop_spec d c.unread fuel w c [] rfl hf hi hor
  exact ⟨w', c', used, by simpa [readUntil] using h1, h2, h3, h4⟩

/-- `ReadUntil` of a field that is there. -/
theorem readUntil_field {fuel : Nat} {w : TSocketWrapper} {c : Conn} {d : UInt8} {a t : Bytes}
    (hf : c.unread.length < fuel) (hi : Inv w) (ha : d ∉ a) (hr : rest w c = a ++ d :: t) :
    ∃ w' c' used, readUntil fuel w c d = .ok (a, w', c') ∧ Inv w' ∧ rest w' c' = t ∧
      Took w c used w' c' := by
  have := readUntil_spec d hf hi (.inl (by rw [hr]; simp))
  rwa [hr, Cursor.readUntil_append_delim ha] at this

/-- `ReadUntil` at the end of the stream. -/
theorem readUntil_end {fuel : Nat} {w : TSocketWrapper} {c : Conn} (d : UInt8)
    (hf : c.unread.length < fuel) (hi : Inv w) (hp : c.peer = .closed) (hr : rest w c = []) :
    ∃ w' c' used, readUntil fuel w c d = .ok ([], w', c') ∧ Inv w' ∧ rest w' c' = [] ∧
      Took w c used w' c' := by
  have := readUntil_spec d hf hi (.inr hp)
  rwa [hr, Cursor.readUntil_nil] at this

/-! ## `ReadN` -/

theorem advance_inv {w : TSocketWrapper} {k : Int} (hi : Inv w) (h0 : 0 ≤ k)
    (hk : k ≤ w.buffer.length - w.bStart) : Inv (w.advance k) := by
  obtain ⟨h1, h2⟩ := hi
  exact ⟨by simp only [TSocketWrapper.advance]; omega, by simp only [TSocketWrapper.advance]; omega⟩

theorem advance_pending {w : TSocketWrapper} {k : Int} (hi : Inv w) (h0 : 0 ≤ k) :
    (w.advance k).pending = w.pending.drop k.toNat := by
  have h1 := hi.1
  simp only [TSocketWrapper.advance, TSocketWrapper.pending, List.drop_drop]
  rw [show (w.bStart + k).toNat = w.bStart.toNat + k.toNat by omega]

theorem Took.advance {w : TSocketWrapper} (c : Conn) {k : Int} (hi : Inv w) (h0 : 0 ≤ k) :
    Took w c [] (w.advance k) c :=
  ⟨rfl, rfl, fun _ => by rw [advance_pending hi h0]; exact List.drop_suffix _ _,
    fun ps p h => by simp at h⟩

/-- The bytes wanted, cut at the end of what is at hand. -/
theorem take_split (a b : Bytes) {n k : Int} (hk : min (a.length : Int) n = k) :
    a.take k.toNat ++ b.take (n - k).toNat = (a ++ b).take n.toNat := by
  rw [List.take_append]
  congr 1
  · rw [List.take_eq_take_iff]; omega
  · rw [show n.toNat - a.length = (n - k).toNat by omega]

theorem drop_split (a b : Bytes) {n k : Int} (hk : min (a.length : Int) n = k) :
    a.drop k.toNat ++ b.drop (n - k).toNat = (a ++ b).drop n.toNat := by
  rw [List.drop_append]
  rcases Int.le_total a.length n with h | h
  · rw [List.drop_eq_nil_of_le (show a.length ≤ k.toNat by omega),
      List.drop_eq_nil_of_le (show a.length ≤ n.toNat by omega),
      show n.toNat - a.length = (n - k).toNat by omega]
  · rw [show k = n by omega, show n.toNat - a.length = (n - n).toNat by omega]

/-- The loop, entered with an exhausted buffer, or not at all. -/
theorem readNLoop_spec : ∀ (unread : List Piece) (fuel : Nat) (w : TSocketWrapper) (c : Conn)
    (n : Int) (ret : Bytes), c.unread = unread → unread.length < fuel → Inv w → 0 ≤ n →
    n ≤ (bytesOf unread).length → (0 < n → w.pending = []) →
    ∃ w' c' used, readNLoop fuel w c n ret = .ok (ret ++ (bytesOf unread).take n.toNat, w', c') ∧
      Inv w' ∧ rest w' c' = w.pending ++ (bytesOf unread).drop n.toNat ∧ Took w c used w' c' := by
  intro unread
  induction unread with
  | nil =>
    intro fuel w c n ret hu _ hi h0 hn _
    obtain rfl : n = 0 := by simp at hn; omega
    refine ⟨w, c, [], ?_, hi, by simp [rest, hu], .refl w c⟩
    unfold readNLoop
    simp [pure, Except.pure]
  | cons p ps ih =>
    intro fuel w c n ret hu hf hi h0 hn hemp
    by_cases hpos : 0 < n
    · obtain ⟨fuel, rfl⟩ : ∃ m, fuel = m + 1 := ⟨fuel - 1, by simp at hf; omega⟩
      have hplen := p.property.1
      have hri := refilled_inv w p
      generalize hk : min (p.val.length : Int) n = k
      have hadv : Inv ((refilled w p).advance k) :=
        advance_inv hri (by omega) (by simp only [refilled]; omega)
      have hpend : ((refilled w p).advance k).pending = p.val.drop k.toNat :=
        advance_pending hri (by omega)
      simp only [bytesOf_cons, List.length_append] at hn
      obtain ⟨w', c', used, h1, h2, h3, h4⟩ := ih fuel ((refilled w p).advance k) (c.without ps)
        (n - k) (ret ++ p.val.take k.toNat) rfl (by simp only [List.length_cons] at hf; omega) hadv
        (by omega) (by omega) fun h => by
          rw [hpend]; exact List.drop_eq_nil_of_le (by omega)
      have htook := (Took.advance (c.without ps) hri (by omega)).trans h4
      rw [List.nil_append] at htook
      refine ⟨w', c', p :: used, ?_, h2, ?_, htook.refill hu fun hnil => ?_⟩
      · rw [readNLoop, if_pos hpos]
        simp only [readBuf_piece hu, bind, Except.bind]
        have hb : (refilled w p).buffer = p.val := rfl
        rw [hb, hk, h1, List.append_assoc, bytesOf_cons, take_split p.val _ hk]
      · rw [h3, hpend, hemp hpos, List.nil_append, bytesOf_cons, drop_split p.val _ hk]
      · have := (h4.idle hnil).length_le
        rw [hpend, List.length_drop] at this
        omega
    · obtain rfl : n = 0 := by omega
      refine ⟨w, c, [], ?_, hi, by simp [rest, hu], .refl w c⟩
      unfold readNLoop
      simp [pure, Except.pure]

/-- One `ReadN` of no more than is left, as a read of the cursor. -/
theorem readN_spec {fuel : Nat} {w : TSocketWrapper} {c : Conn} {n : Int32}
    (hf : c.unread.length < fuel) (hi : Inv w) (h0 : 0 ≤ n.toInt)
    (hn : n.toInt ≤ (rest w c).length) :
    ∃ w' c' used, readN fuel w c n = .ok ((rest w c).take n.toInt.toNat, w', c') ∧
      Inv w' ∧ rest w' c' = (rest w c).drop n.toInt.toNat ∧ Took w c used w' c' := by
  have hl := pending_length hi
  unfold readN
  rw [if_neg (by omega)]
  generalize n.toInt = n at *
  rw [rest, List.length_append] at hn
  simp only
  by_cases hb : 0 < (w.buffer.length : Int) - w.bStart
  · rw [if_pos hb]
    generalize hk : min ((w.buffer.length : Int) - w.bStart) n = k
    have hpend : (w.advance k).pending = w.pending.drop k.toNat := advance_pending hi (by omega)
    obtain ⟨w', c', used, h1, h2, h3, h4⟩ := readNLoop_spec c.unread fuel (w.advance k) c (n - k)
      (w.pending.take k.toNat) rfl hf (advance_inv hi (by omega) (by omega)) (by omega) (by omega)
      fun h => by rw [hpend]; exact List.drop_eq_nil_of_le (by omega)
    refine ⟨w', c', used, ?_, h2, ?_, by simpa using (Took.advance c hi (by omega)).trans h4⟩
    · rw [h1, rest, take_split w.pending _ (by rw [hl, hk])]
    · rw [h3, hpend, rest, drop_split w.pending _ (by rw [hl, hk])]
  · rw [if_neg hb]
    have hnil : w.pending = [] := List.eq_nil_of_length_eq_zero (by omega)
    obtain ⟨w', c', used, h1, h2, h3, h4⟩ := readNLoop_spec c.unread fuel w c n [] rfl hf hi h0
      (by rw [hnil, List.length_nil] at hn; omega) fun _ => hnil
    refine ⟨w', c', used, ?_, h2, ?_, h4⟩
    · rw [h1, rest, hnil]; rfl
    · rw [h3, rest, hnil]; rfl

/-! ## Reads that do not return -/

/-- A refill when there is nothing unread and the peer has not closed. -/
theorem readBuf_error {w : TSocketWrapper} {c : Conn} (h : c.unread = []) (hp : c.peer ≠ .closed) :
    ∃ e, readBuf w c = .error e := by
  cases hc : c.peer with
  | pending => exact ⟨.blocked, by simp only [readBuf, Conn.read, h, hc]; rfl⟩
  | closed => exact absurd hc hp
  | broken => exact ⟨.lengthError, by simp only [readBuf, Conn.read, h, hc]; rfl⟩

theorem readUntilLoop_error {d : UInt8} : ∀ (fuel : Nat) {w : TSocketWrapper} {c : Conn} (ret : Bytes),
    Inv w → d ∉ rest w c → c.peer ≠ .closed → ∃ e, readUntilLoop d fuel w c ret = .error e := by
  intro fuel
  induction fuel with
  | zero =>
    intro w c ret hi hd _
    have hl := pending_length hi
    have hfind : find w d = w.buffer.length := by
      rw [find, Cursor.findIdx_of_not_mem fun h => hd (List.mem_append_left _ h)]
      obtain ⟨h1, h2⟩ := hi
      omega
    exact ⟨.fuel, by rw [readUntilLoop, if_pos hfind]; rfl⟩
  | succ fuel ih =>
    intro w c ret hi hd hp
    rw [rest, List.mem_append, not_or] at hd
    rw [readUntilLoop_miss fuel hi hd.1]
    cases hu : c.unread with
    | nil =>
      obtain ⟨e, he⟩ := readBuf_error hu hp
      exact ⟨e, by rw [he]; rfl⟩
    | cons p ps =>
      have hd' : d ∉ rest (refilled w p) (c.without ps) := by
        rw [rest_refilled, ← bytesOf_cons, ← hu]; exact hd.2
      obtain ⟨e, he⟩ := ih (c := c.without ps) (ret ++ w.pending) (refilled_inv w p) hd' hp
      refine ⟨e, ?_⟩
      rw [ok_bind (readBuf_piece hu)]
      have hb : (refilled w p).buffer ≠ [] := piece_ne_nil p
      simp only
      rw [if_neg hb, he]

/-- `ReadUntil` of a delimiter that has not come yet. -/
theorem readUntil_error {fuel : Nat} {w : TSocketWrapper} {c : Conn} {d : UInt8} (hi : Inv w)
    (hd : d ∉ rest w c) (hp : c.peer ≠ .closed) : ∃ e, readUntil fuel w c d = .error e := by
  obtain ⟨e, he⟩ := readUntilLoop_error fuel [] hi hd hp
  exact ⟨e, by rw [readUntil, he]; rfl⟩

/-- It waits, if the peer may still send. -/
theorem readUntilLoop_blocked {d : UInt8} : ∀ (fuel : Nat) {w : TSocketWrapper} {c : Conn} (ret : Bytes),
    Inv w → d ∉ rest w c → c.peer = .pending → c.unread.length < fuel →
    readUntilLoop d fuel w c ret = .error .blocked := by
  intro fuel
  induction fuel with
  | zero => intro w c ret _ _ _ hf; exact absurd hf (Nat.not_lt_zero _)
  | succ fuel ih =>
    intro w c ret hi hd hp hf
    rw [rest, List.mem_append, not_or] at hd
    rw [readUntilLoop_miss fuel hi hd.1]
    cases hu : c.unread with
    | nil => simp only [readBuf, Conn.read, hu, hp]; rfl
    | cons p ps =>
      have hd' : d ∉ rest (refilled w p) (c.without ps) := by
        rw [rest_refilled, ← bytesOf_cons, ← hu]; exact hd.2
      have hlen : (c.without ps).unread.length < fuel := by
        rw [hu, List.length_cons] at hf
        exact Nat.lt_of_succ_lt_succ hf
      rw [ok_bind (readBuf_piece hu)]
      have hb : (refilled w p).buffer ≠ [] := piece_ne_nil p
      simp only
      rw [if_neg hb, ih (c := c.without ps) (ret ++ w.pending) (refilled_inv w p) hd' hp hlen]

/-- How a loop that wants more ends behind the last piece: a peer that has
closed gives it nothing, for ever. -/
def PeerEnd.stop : PeerEnd → Stop
  | .pending => .blocked
  | .closed => .fuel
  | .broken => .lengthError

theorem PeerEnd.stop_eq_fuel_iff (p : PeerEnd) : p.stop = .fuel ↔ p = .closed := by
  cases p <;> decide

/-- Step lemma: a refill that meets the end. -/
theorem readNLoop_stop (fuel : Nat) {w : TSocketWrapper} {c : Conn} {n : Int} (ret : Bytes)
    (hu : c.unread = []) (hn : 0 < n) (hp : c.peer ≠ .closed) :
    readNLoop (fuel + 1) w c n ret = .error c.peer.stop := by
  rw [readNLoop, if_pos hn]
  cases hc : c.peer with
  | pending => simp only [readBuf, Conn.read, hu, hc]; rfl
  | closed => exact absurd hc hp
  | broken => simp only [readBuf, Conn.read, hu, hc]; rfl

theorem readNLoop_closed (fuel : Nat) {w : TSocketWrapper} {c : Conn} {n : Int} (ret : Bytes)
    (hu : c.unread = []) (hn : 0 < n) (hp : c.peer = .closed) :
    readNLoop (fuel + 1) w c n ret = readNLoop fuel { w with buffer := [], bStart := 0 } c n ret := by
  have hmin : min (([] : Bytes).length : Int) n = 0 := by rw [List.length_nil]; omega
  rw [readNLoop, if_pos hn, ok_bind (readBuf_closed hu hp)]
  dsimp only
  rw [hmin, Int.sub_zero, Int.toNat_zero, List.take_zero, List.append_nil]
  rfl

theorem readNLoop_piece (fuel : Nat) {w : TSocketWrapper} {c : Conn} {n : Int} {p : Piece}
    {ps : List Piece} (ret : Bytes) (hu : c.unread = p :: ps) (hn : 0 < n) :
    readNLoop (fuel + 1) w c n ret =
      readNLoop fuel ((refilled w p).advance (min (p.val.length : Int) n)) (c.without ps)
        (n - min (p.val.length : Int) n) (ret ++ p.val.take (min (p.val.length : Int) n).toNat) := by
  rw [readNLoop, if_pos hn, ok_bind (readBuf_piece hu)]
  rfl

/-- The loop, when it wants more than there is. -/
theorem readNLoop_short : ∀ (fuel : Nat) {w : TSocketWrapper} {c : Conn} {n : Int} (ret : Bytes),
    ((bytesOf c.unread).length : Int) < n →
    readNLoop fuel w c n ret = .error (if fuel ≤ c.unread.length then .fuel else c.peer.stop) := by
  intro fuel
  induction fuel with
  | zero =>
    intro w c n ret hn
    rw [readNLoop, if_pos (by omega), if_pos (Nat.zero_le _)]
    rfl
  | succ fuel ih =>
    intro w c n ret hn
    cases hu : c.unread with
    | nil =>
      by_cases hp : c.peer = .closed
      · rw [readNLoop_closed fuel ret hu (by omega) hp, ih ret hn, hp]
        simp only [PeerEnd.stop, ite_self]
      · rw [readNLoop_stop fuel ret hu (by omega) hp, List.length_nil, if_neg (by omega)]
    | cons p ps =>
      rw [hu, bytesOf_cons, List.length_append] at hn
      rw [readNLoop_piece fuel ret hu (by omega), ih _ (by rw [without_unread]; omega), without_unread,
        List.length_cons]
      simp only [Nat.add_le_add_iff_right]
      rfl

/-- `ReadN` of more than there is. -/
theorem readN_short (fuel : Nat) {w : TSocketWrapper} {c : Conn} {n : Int32} (hi : Inv w)
    (hn : ((rest w c).length : Int) < n.toInt) :
    readN fuel w c n = .error (if fuel ≤ c.unread.length then .fuel else c.peer.stop) := by
  have hl := pending_length hi
  obtain ⟨h1, h2⟩ := hi
  rw [rest, List.length_append] at hn
  unfold readN
  rw [if_neg (by omega)]
  dsimp only
  split
  · exact readNLoop_short fuel _ (by omega)
  · exact readNLoop_short fuel _ (by omega)

/-- `ReadUntil` on a beginning of `a ++ d :: t`: it reads the field, or the
field is not complete. -/
theorem readUntil_prefix {fuel : Nat} {w : TSocketWrapper} {c : Conn} {d : UInt8} {a t x : Bytes}
    (hf : c.unread.length < fuel) (hi : Inv w) (hp : c.peer ≠ .closed) (ha : d ∉ a)
    (hr : rest w c ++ x = a ++ d :: t) :
    (∃ e, readUntil fuel w c d = .error e) ∨
    ∃ w' c' used, readUntil fuel w c d = .ok (a, w', c') ∧ Inv w' ∧ rest w' c' ++ x = t ∧
      Took w c used w' c' := by
  rcases Cursor.split_of_append ha hr with hd | ⟨s, hs, ht⟩
  · exact .inl (readUntil_error hi hd hp)
  · obtain ⟨w', c', used, h1, h2, h3, h4⟩ := readUntil_field hf hi ha hs
    exact .inr ⟨w', c', used, h1, h2, by rw [h3, ht], h4⟩

/-- `ReadUntil` of a field whose peer may still send: it waits for the delimiter, or
has it. -/
theorem readUntil_pending {fuel : Nat} {w : TSocketWrapper} {c : Conn} {d : UInt8} {a t x : Bytes}
    (hf : c.unread.length < fuel) (hi : Inv w) (hp : c.peer = .pending) (ha : d ∉ a)
    (hr : rest w c ++ x = a ++ d :: t) :
    readUntil fuel w c d = .error .blocked ∨
    ∃ w' c' used, readUntil fuel w c d = .ok (a, w', c') ∧ Inv w' ∧ rest w' c' ++ x = t ∧
      Took w c used w' c' := by
  rcases Cursor.split_of_append ha hr with hd | ⟨s, hs, ht⟩
  · refine .inl ?_
    rw [readUntil, readUntilLoop_blocked fuel [] hi hd hp hf]
    rfl
  · obtain ⟨w', c', used, h1, h2, h3, h4⟩ := readUntil_field hf hi ha hs
    exact .inr ⟨w', c', used, h1, h2, by rw [h3, ht], h4⟩

/-! ## The loop bounds

A call that returns within a bound returns the same within any larger one. -/

theorem readNLoop_mono : ∀ (fuel : Nat) {fuel' : Nat} {w : TSocketWrapper} {c : Conn} {n : Int}
    {ret : Bytes} {r : Bytes × TSocketWrapper × Conn}, fuel ≤ fuel' →
    readNLoop fuel w c n ret = .ok r → readNLoop fuel' w c n ret = .ok r := by
  intro fuel
  induction fuel with
  | zero =>
    intro fuel' w c n ret r _ h
    unfold readNLoop at h ⊢
    split at h <;> cases h
    rename_i hn
    rw [if_neg hn]; rfl
  | succ fuel ih =>
    intro fuel' w c n ret r hle h
    obtain ⟨fuel', rfl⟩ : ∃ m, fuel' = m + 1 := ⟨fuel' - 1, by omega⟩
    rw [readNLoop] at h ⊢
    split at h
    · rename_i hn
      obtain ⟨⟨w1, c1⟩, hb, h⟩ := bind_ok h
      rw [if_pos hn, ok_bind hb]
      exact ih (by omega) h
    · rename_i hn
      rw [if_neg hn]; exact h

theorem readN_mono {fuel fuel' : Nat} {w : TSocketWrapper} {c : Conn} {n : Int32}
    {r : Bytes × TSocketWrapper × Conn} (hle : fuel ≤ fuel') (h : readN fuel w c n = .ok r) :
    readN fuel' w c n = .ok r := by
  unfold readN at h ⊢
  split at h
  · cases h
  · rename_i hn
    rw [if_neg hn]
    dsimp only at h ⊢
    split at h
    · rename_i hb
      rw [if_pos hb]; exact readNLoop_mono fuel hle h
    · rename_i hb
      rw [if_neg hb]; exact readNLoop_mono fuel hle h

theorem readUntilLoop_mono {d : UInt8} : ∀ (fuel : Nat) {fuel' : Nat} {w : TSocketWrapper} {c : Conn}
    {ret : Bytes} {r : Bytes × Nat × TSocketWrapper × Conn}, fuel ≤ fuel' →
    readUntilLoop d fuel w c ret = .ok r → readUntilLoop d fuel' w c ret = .ok r := by
  intro fuel
  induction fuel with
  | zero =>
    intro fuel' w c ret r _ h
    unfold readUntilLoop at h ⊢
    split at h <;> cases h
    rename_i hf
    rw [if_neg hf]; rfl
  | succ fuel ih =>
    intro fuel' w c ret r hle h
    obtain ⟨fuel', rfl⟩ : ∃ m, fuel' = m + 1 := ⟨fuel' - 1, by omega⟩
    rw [readUntilLoop] at h ⊢
    split at h
    · rename_i hf
      obtain ⟨⟨w1, c1⟩, hb, h⟩ := bind_ok h
      rw [if_pos hf]
      dsimp only at h ⊢
      rw [ok_bind hb]
      dsimp only
      split at h
      · rename_i hnil
        rw [if_pos hnil]; exact h
      · rename_i hnil
        rw [if_neg hnil]; exact ih (by omega) h
    · rename_i hf
      rw [if_neg hf]; exact h

theorem readUntil_mono {fuel fuel' : Nat} {w : TSocketWrapper} {c : Conn} {d : UInt8}
    {r : Bytes × TSocketWrapper × Conn} (hle : fuel ≤ fuel') (h : readUntil fuel w c d = .ok r) :
    readUntil fuel' w c d = .ok r := by
  unfold readUntil at h ⊢
  generalize hl : readUntilLoop d fuel w c [] = l at h
  cases l with
  | error e => cases h
  | ok x => rw [readUntilLoop_mono fuel hle hl, ← h]

/-- **When `ReadN` comes to an end** (it may wait for the peer, or throw): it
goes round for ever exactly when the peer has closed too early. -/
theorem readN_ends_iff {w : TSocketWrapper} (hi : Inv w) (c : Conn) (n : Int32) :
    (∃ fuel, readN fuel w c n ≠ .error .fuel) ↔
      (c.peer = .closed → n.toInt ≤ (rest w c).length) := by
  constructor
  · intro hex hp
    obtain ⟨fuel, h⟩ := hex
    by_contra hn
    refine h ?_
    rw [readN_short fuel hi (by omega), hp]
    simp only [PeerEnd.stop, ite_self]
  · intro h
    refine ⟨c.unread.length + 1, ?_⟩
    by_cases h0 : n.toInt < 0
    · rw [readN, if_pos h0]
      exact fun he => absurd (Except.error.inj he) (by decide)
    by_cases hn : n.toInt ≤ (rest w c).length
    · obtain ⟨w', c', used, he, -, -, -⟩ := readN_spec (Nat.lt_succ_self _) hi (by omega) hn
      rw [he]
      exact fun h => by cases h
    · rw [readN_short _ hi (by omega), if_neg (by omega)]
      exact fun he => hn (h (c.peer.stop_eq_fuel_iff.mp (Except.error.inj he)))

/-- **When `ReadN` returns**: at a peer in any state, exactly when `n` bytes are there. -/
theorem readN_returns_iff {w : TSocketWrapper} (hi : Inv w) (c : Conn) (n : Int32) :
    (∃ fuel r, readN fuel w c n = .ok r) ↔ 0 ≤ n.toInt ∧ n.toInt ≤ (rest w c).length := by
  constructor
  · intro hex
    obtain ⟨fuel, r, h⟩ := hex
    by_cases h0 : n.toInt < 0
    · rw [readN, if_pos h0] at h; cases h
    refine ⟨by omega, ?_⟩
    by_contra hn
    rw [readN_short fuel hi (by omega)] at h
    cases h
  · intro h
    obtain ⟨h0, hn⟩ := h
    obtain ⟨w', c', used, he, -, -, -⟩ := readN_spec (Nat.lt_succ_self _) hi h0 hn
    exact ⟨_, _, he⟩

/-! ## What every read leaves alone -/

/-- Between the two, pieces were taken off the connection, and nothing else of
it changed. -/
structure Reads (w : TSocketWrapper) (c : Conn) (w' : TSocketWrapper) (c' : Conn) : Prop where
  conn : ∃ used, c = c'.without (used ++ c'.unread)
  socket : w'.socket = w.socket

theorem Reads.refl (w : TSocketWrapper) (c : Conn) : Reads w c w c := ⟨⟨[], rfl⟩, rfl⟩

theorem Reads.trans {w w' w'' : TSocketWrapper} {c c' c'' : Conn} (h : Reads w c w' c')
    (h' : Reads w' c' w'' c'') : Reads w c w'' c'' := by
  obtain ⟨⟨u, hc⟩, hs⟩ := h
  obtain ⟨⟨u', hc'⟩, hs'⟩ := h'
  refine ⟨⟨u ++ u', ?_⟩, hs'.trans hs⟩
  rw [hc, hc']; simp [Conn.without]

/-- The connection, except for what is unread. -/
theorem Reads.keeps {w w' : TSocketWrapper} {c c' : Conn} (h : Reads w c w' c') :
    c'.peer = c.peer ∧ c'.quota = c.quota ∧ c'.taken = c.taken := by
  obtain ⟨⟨u, hc⟩, -⟩ := h
  rw [hc]; exact ⟨rfl, rfl, rfl⟩

theorem readBuf_reads {w w' : TSocketWrapper} {c c' : Conn} (h : readBuf w c = .ok (w', c')) :
    Reads w c w' c' := by
  obtain ⟨⟨r, c1⟩, hr, h⟩ := bind_ok h
  unfold Conn.read at hr
  split at hr <;> cases hr <;> cases h
  · rename_i p ps hu
    exact ⟨⟨[p], by simp only [Conn.without, List.singleton_append, ← hu]⟩, rfl⟩
  · exact ⟨⟨[], rfl⟩, rfl⟩

theorem readNLoop_reads : ∀ (fuel : Nat) {w w' : TSocketWrapper} {c c' : Conn} {n : Int}
    {ret out : Bytes}, readNLoop fuel w c n ret = .ok (out, w', c') → Reads w c w' c' := by
  intro fuel
  induction fuel with
  | zero =>
    intro w w' c c' n ret out h
    unfold readNLoop at h
    split at h <;> cases h
    exact .refl w c
  | succ fuel ih =>
    intro w w' c c' n ret out h
    unfold readNLoop at h
    split at h
    · obtain ⟨⟨w1, c1⟩, hb, h⟩ := bind_ok h
      have hr := ih h
      exact (readBuf_reads hb).trans ⟨hr.conn, hr.socket⟩
    · cases h; exact .refl w c

theorem readN_reads {fuel : Nat} {w w' : TSocketWrapper} {c c' : Conn} {n : Int32} {out : Bytes}
    (h : readN fuel w c n = .ok (out, w', c')) : Reads w c w' c' := by
  unfold readN at h
  split at h
  · cases h
  · dsimp only at h
    split at h
    · have hr := readNLoop_reads fuel h
      exact ⟨hr.conn, hr.socket⟩
    · exact readNLoop_reads fuel h

theorem readUntilLoop_reads {d : UInt8} : ∀ (fuel : Nat) {w w' : TSocketWrapper} {c c' : Conn}
    {ret out : Bytes} {it : Nat}, readUntilLoop d fuel w c ret = .ok (out, it, w', c') →
    Reads w c w' c' := by
  intro fuel
  induction fuel with
  | zero =>
    intro w w' c c' ret out it h
    unfold readUntilLoop at h
    split at h <;> cases h
    exact .refl w c
  | succ fuel ih =>
    intro w w' c c' ret out it h
    unfold readUntilLoop at h
    split at h
    · obtain ⟨⟨w1, c1⟩, hb, h⟩ := bind_ok h
      have hr := readBuf_reads hb
      dsimp only at h
      split at h
      · cases h; exact hr
      · exact hr.trans (ih h)
    · cases h; exact .refl w c

theorem readUntil_reads {fuel : Nat} {w w' : TSocketWrapper} {c c' : Conn} {d : UInt8} {out : Bytes}
    (h : readUntil fuel w c d = .ok (out, w', c')) : Reads w c w' c' := by
  unfold readUntil at h
  generalize hl : readUntilLoop d fuel w c [] = l at h
  cases l with
  | error e => cases h
  | ok x =>
    obtain ⟨ret, it, w1, c1⟩ := x
    have hr := readUntilLoop_reads fuel hl
    simp only [Except.map, readUntilTail, Except.ok.injEq, Prod.mk.injEq] at h
    obtain ⟨-, rfl, rfl⟩ := h
    refine ⟨hr.conn, ?_⟩
    split <;> exact hr.socket

/-- Between the two, a beginning of the stream was consumed. -/
structure Consumed (w : TSocketWrapper) (c : Conn) (w' : TSocketWrapper) (c' : Conn) : Prop where
  inv : Inv w'
  rest : rest w' c' <:+ rest w c
  length_le : c'.unread.length ≤ c.unread.length

theorem Consumed.trans {w w' w'' : TSocketWrapper} {c c' c'' : Conn} (h : Consumed w c w' c')
    (h' : Consumed w' c' w'' c'') : Consumed w c w'' c'' :=
  ⟨h'.inv, h'.rest.trans h.rest, Nat.le_trans h'.length_le h.length_le⟩

theorem readUntil_consumed {fuel : Nat} {w w' : TSocketWrapper} {c c' : Conn} {d : UInt8} {out : Bytes}
    (hf : c.unread.length < fuel) (hi : Inv w) (h : readUntil fuel w c d = .ok (out, w', c')) :
    Consumed w c w' c' := by
  by_cases hor : d ∈ rest w c ∨ c.peer = .closed
  · obtain ⟨w1, c1, used, h1, hi1, hr1, ht⟩ := readUntil_spec d hf hi hor
    obtain ⟨-, rfl, rfl⟩ := Except.ok.inj (h.symm.trans h1)
    exact ⟨hi1, hr1 ▸ Cursor.readUntil_suffix d _, ht.length_le⟩
  · rw [not_or] at hor
    have herr : ∃ e, readUntil fuel w c d = .error e := readUntil_error hi hor.1 hor.2
    obtain ⟨e, he⟩ := herr
    rw [he] at h
    cases h

theorem readN_consumed {fuel : Nat} {w w' : TSocketWrapper} {c c' : Conn} {n : Int32} {out : Bytes}
    (hf : c.unread.length < fuel) (hi : Inv w) (h : readN fuel w c n = .ok (out, w', c')) :
    Consumed w c w' c' := by
  obtain ⟨h0, hn⟩ := (readN_returns_iff hi c n).mp ⟨fuel, _, h⟩
  obtain ⟨w1, c1, used, h1, hi1, hr1, ht⟩ := readN_spec hf hi h0 hn
  obtain ⟨-, rfl, rfl⟩ := Except.ok.inj (h.symm.trans h1)
  exact ⟨hi1, hr1 ▸ List.drop_suffix _ _, ht.length_le⟩

/-! ## Programs of reads -/

inductive Op where
  | readUntil (d : UInt8)
  | readN (n : Int32)
  deriving DecidableEq, Repr

/-- The same read on the cursor. -/
def Op.abs : Op → Cursor.Op UInt8
  | .readUntil d => .readUntil d
  | .readN n => .readN n.toInt.toNat

def Op.call (fuel : Nat) (w : TSocketWrapper) (c : Conn) :
    Op → Except Stop (Bytes × TSocketWrapper × Conn)
  | .readUntil d => SocketWrapper.readUntil fuel w c d
  | .readN n => SocketWrapper.readN fuel w c n

/-- The calls in turn: what each returned, with the wrapper it left, and what
is left at the end. -/
def run (fuel : Nat) : List Op → TSocketWrapper → Conn →
    Except Stop (List (Bytes × TSocketWrapper) × TSocketWrapper × Conn)
  | [], w, c => return ([], w, c)
  | op :: ops, w, c => do
    let (ret, w, c) ← op.call fuel w c
    let (out, w', c') ← run fuel ops w c
    return ((ret, w) :: out, w', c')

/-- Step lemma: one call that fits. -/
theorem call_refines {fuel : Nat} {w : TSocketWrapper} {c : Conn} (op : Op)
    (hf : c.unread.length < fuel) (hi : Inv w) (hp : c.peer = .closed)
    (hn : ∀ n, op = .readN n → 0 ≤ n.toInt) (hfit : op.abs.Fits (rest w c)) :
    ∃ w' c' used, op.call fuel w c = .ok ((op.abs.step (rest w c)).1, w', c') ∧ Inv w' ∧
      rest w' c' = (op.abs.step (rest w c)).2 ∧ Took w c used w' c' := by
  cases op with
  | readUntil d => exact readUntil_spec d hf hi (.inr hp)
  | readN n =>
    have h0 := hn n rfl
    have hle : n.toInt.toNat ≤ (rest w c).length := hfit
    exact readN_spec hf hi h0 (by omega)

theorem run_spec (fuel : Nat) : ∀ (ops : List Op) (w : TSocketWrapper) (c : Conn),
    c.unread.length < fuel → Inv w → c.peer = .closed → (∀ n, .readN n ∈ ops → 0 ≤ n.toInt) →
    Cursor.Fits (ops.map Op.abs) (rest w c) →
    ∃ out w' c', run fuel ops w c = .ok (out, w', c') ∧
      (out.map Prod.fst, rest w' c') = Cursor.run (ops.map Op.abs) (rest w c) ∧
      ∀ x ∈ out, Inv x.2 := by
  intro ops
  induction ops with
  | nil => intro w c _ _ _ _ _; exact ⟨[], w, c, rfl, rfl, by simp⟩
  | cons op ops ih =>
    intro w c hf hi hp hn hfit
    obtain ⟨w1, c1, used, h1, h2, h3, h4⟩ := call_refines op hf hi hp
      (fun n h => hn n (h ▸ List.mem_cons_self)) hfit.1
    have hfit' := hfit.2
    rw [← h3] at hfit'
    obtain ⟨out, w', c', g1, g2, g3⟩ := ih w1 c1 (Nat.lt_of_le_of_lt h4.length_le hf) h2
      (h4.peer.trans hp) (fun n h => hn n (List.mem_cons_of_mem _ h)) hfit'
    refine ⟨((op.abs.step (rest w c)).1, w1) :: out, w', c', ?_, ?_, ?_⟩
    · simp only [run, h1, bind, Except.bind, g1]; rfl
    · rw [h3, Prod.mk.injEq] at g2
      rw [List.map_cons, List.map_cons, Cursor.run, ← g2.1, ← g2.2]
    · intro x hx
      rcases List.mem_cons.mp hx with rfl | hx
      · exact h2
      · exact g3 x hx

/-- **Refinement of the byte cursor.** On any stream, cut into reads in any
way, any program of `ReadUntil` and fitting `ReadN` calls on a fresh wrapper
returns what the cursor returns and stops where the cursor stops, with
`0 <= BStart_ <= Buffer_.size()` after every call. One loop iteration more
than there are pieces is enough for each call. -/
theorem run_refines (socket : Nat) (pieces : List Piece) (ops : List Op) (fuel : Nat)
    (hfuel : pieces.length < fuel) (hn : ∀ n, .readN n ∈ ops → 0 ≤ n.toInt)
    (hfit : Cursor.Fits (ops.map Op.abs) (bytesOf pieces)) :
    ∃ out w c, run fuel ops (.make socket) (.ofPieces pieces) = .ok (out, w, c) ∧
      (out.map Prod.fst, rest w c) = Cursor.run (ops.map Op.abs) (bytesOf pieces) ∧
      ∀ x ∈ out, 0 ≤ x.2.bStart ∧ x.2.bStart ≤ x.2.buffer.length := by
  have hr : rest (.make socket) (.ofPieces pieces) = bytesOf pieces := rest_make _ _
  have := run_spec fuel ops (.make socket) (.ofPieces pieces) hfuel (make_inv _) rfl hn
    (by rw [hr]; exact hfit)
  rw [hr] at this
  exact this

/-- A line over two reads, then a byte by count. -/
theorem run_refines_split :
    ∃ out w c, run 3 [.readUntil LF, .readN 1] (.make 0)
        (.ofPieces [⟨[0x61], by decide⟩, ⟨[0x62, LF, 0x63], by decide⟩]) = .ok (out, w, c) ∧
      (out.map Prod.fst, rest w c) = ([[0x61, 0x62], [0x63]], []) ∧
      ∀ x ∈ out, 0 ≤ x.2.bStart ∧ x.2.bStart ≤ x.2.buffer.length :=
  run_refines 0 [⟨[0x61], by decide⟩, ⟨[0x62, LF, 0x63], by decide⟩] [.readUntil LF, .readN 1] 3
    (by decide) (by simp) (by decide)

/-! ## `Write` -/

/-- What `Write` delivers when none of its calls fails: all of `data`, unless
`(int)data.size()` is not its size. -/
def sent (data : Bytes) : Bytes := data.take (toInt data.length).toNat

theorem sent_of_lt (data : Bytes) (h : data.length < 2 ^ 31) : sent data = data := by
  rw [sent, toInt_of_lt h]; simp

theorem sent_isPrefix (data : Bytes) : sent data <+: data := List.take_prefix _ _

/-- From `2^31` bytes on, at least that many are lost. -/
theorem sent_length_add_le (data : Bytes) (h : 2 ^ 31 ≤ data.length) :
    (sent data).length + 2 ^ 31 ≤ data.length := by
  rw [sent, List.length_take]
  unfold toInt Int.bmod
  simp only
  omega

/-- The length offered, as an `int`. -/
theorem toInt_sub {n : Nat} {k : Int} (h0 : 0 ≤ k) (hk : k < toInt n) :
    toInt (n - k.toNat) = toInt n - k := by
  unfold toInt Int.bmod at *
  simp only at *
  omega

theorem toInt_le (n : Nat) : toInt n ≤ n := by
  unfold toInt Int.bmod
  simp only
  omega

theorem offered_eq {data : Bytes} {written : Int} (h0 : 0 ≤ written)
    (hlt : written < toInt data.length) :
    (data.drop written.toNat).take (toInt (data.length - written.toNat)).toNat =
      (sent data).drop written.toNat := by
  rw [toInt_sub h0 hlt, sent, List.drop_take]
  generalize toInt data.length = l at *
  rw [show (l - written).toNat = l.toNat - written.toNat by omega]

theorem sent_length (data : Bytes) : (sent data).length = (toInt data.length).toNat := by
  have := toInt_le data.length
  rw [sent, List.length_take]; omega

theorem sent_done {data : Bytes} {written : Int} (h : ¬ written < toInt data.length) :
    (sent data).drop written.toNat = [] := by
  apply List.drop_eq_nil_of_le
  rw [sent_length]; omega

theorem writeLoop_done {fuel : Nat} {data : Bytes} {written : Int} {c : Conn}
    (h : ¬ written < toInt data.length) : writeLoop fuel data written c = .ok c := by
  unfold writeLoop
  rw [if_neg h]; rfl

theorem writeLoop_next (fuel : Nat) {data : Bytes} {written : Int} (c : Conn) (h0 : 0 ≤ written)
    (hlt : written < toInt data.length) :
    writeLoop (fuel + 1) data written c =
      writeLoop fuel data (written + (c.write ((sent data).drop written.toNat)).1)
        (c.write ((sent data).drop written.toNat)).2 := by
  rw [writeLoop, if_pos hlt]
  simp only [if_neg (Int.not_lt.mpr h0), offered_eq h0 hlt]

/-- The loop from `written` on, when no call fails. -/
theorem writeLoop_sent (data : Bytes) : ∀ (quota : List Int) (fuel : Nat) (written : Int) (c : Conn),
    c.quota = quota → quota.length < fuel → 0 ≤ written → (∀ q ∈ quota, 0 ≤ q) →
    ∃ qs, qs <:+ quota ∧ writeLoop fuel data written c =
      .ok { c with quota := qs, taken := c.taken ++ (sent data).drop written.toNat } := by
  have hlen := sent_length data
  intro quota
  induction quota with
  | nil =>
    intro fuel written c hq hf h0 _
    refine ⟨[], List.suffix_rfl, ?_⟩
    by_cases hlt : written < toInt data.length
    · obtain ⟨fuel, rfl⟩ : ∃ m, fuel = m + 1 := ⟨fuel - 1, by simp at hf; omega⟩
      rw [writeLoop_next fuel c h0 hlt, writeLoop_done, Conn.write, hq]
      simp only [Conn.write, hq, List.length_drop, hlen]
      generalize toInt data.length = l at *
      omega
    · rw [writeLoop_done hlt, sent_done hlt, List.append_nil, ← hq]
  | cons q qs ih =>
    intro fuel written c hq hf h0 hpos
    by_cases hlt : written < toInt data.length
    · obtain ⟨fuel, rfl⟩ : ∃ m, fuel = m + 1 := ⟨fuel - 1, by simp at hf; omega⟩
      have hqpos := hpos q List.mem_cons_self
      generalize hn : min q.toNat ((sent data).drop written.toNat).length = n
      have hw : c.write ((sent data).drop written.toNat) = ((n : Int),
          { c with quota := qs, taken := c.taken ++ ((sent data).drop written.toNat).take n }) := by
        simp only [Conn.write, hq, if_neg (show ¬ q < 0 by omega), hn]
      obtain ⟨rs, hsuf, h⟩ := ih fuel (written + n)
        { c with quota := qs, taken := c.taken ++ ((sent data).drop written.toNat).take n } rfl
        (by simp only [List.length_cons] at hf; omega) (by omega)
        fun r hr => hpos r (List.mem_cons_of_mem _ hr)
      refine ⟨rs, hsuf.trans (List.suffix_cons q qs), ?_⟩
      rw [writeLoop_next fuel c h0 hlt, hw]
      simp only [h]
      rw [show (written + n : Int).toNat = written.toNat + n by omega, ← List.drop_drop,
        List.append_assoc, List.take_append_drop]
    · refine ⟨q :: qs, List.suffix_rfl, ?_⟩
      rw [writeLoop_done hlt, sent_done hlt, List.append_nil, ← hq]

/-- What a write leaves alone, whether or not all of it is accepted. -/
structure SameInput (c c' : Conn) : Prop where
  unread : c'.unread = c.unread
  peer : c'.peer = c.peer

theorem SameInput.trans {c c' c'' : Conn} (h : SameInput c c') (h' : SameInput c' c'') :
    SameInput c c'' := ⟨h'.unread.trans h.unread, h'.peer.trans h.peer⟩

theorem Conn.write_sameInput (c : Conn) (block : Bytes) : SameInput c (c.write block).2 := by
  unfold Conn.write
  split
  · exact ⟨rfl, rfl⟩
  · split <;> exact ⟨rfl, rfl⟩

theorem writeLoop_sameInput {data : Bytes} : ∀ (fuel : Nat) {written : Int} {c c' : Conn},
    writeLoop fuel data written c = .ok c' → SameInput c c' := by
  intro fuel
  induction fuel with
  | zero =>
    intro written c c' h
    unfold writeLoop at h
    split at h <;> cases h
    exact ⟨rfl, rfl⟩
  | succ fuel ih =>
    intro written c c' h
    unfold writeLoop at h
    split at h
    · dsimp only at h
      split at h
      · cases h
      · exact (c.write_sameInput _).trans (ih h)
    · cases h; exact ⟨rfl, rfl⟩

theorem write_sameInput {c c' : Conn} {data : Bytes} (h : write c data = .ok c') : SameInput c c' :=
  writeLoop_sameInput _ h

/-- Every coming `Write` call accepts something. -/
def Conn.Good (c : Conn) : Prop := ∀ q ∈ c.quota, 0 < q

/-- No coming `Write` call fails. -/
def Conn.Unfailing (c : Conn) : Prop := ∀ q ∈ c.quota, 0 ≤ q

theorem Conn.Good.unfailing {c : Conn} (hg : c.Good) : c.Unfailing := fun q hq => Int.le_of_lt (hg q hq)

/-- Between `c` and `c'` exactly the bytes `b` were accepted, and nothing was read. -/
def Delivered (c : Conn) (b : Bytes) (c' : Conn) : Prop :=
  ∃ qs, qs <:+ c.quota ∧ c' = { c with quota := qs, taken := c.taken ++ b }

theorem Delivered.refl (c : Conn) : Delivered c [] c := ⟨c.quota, List.suffix_rfl, by simp⟩

theorem Delivered.trans {c c' c'' : Conn} {a b : Bytes} (h : Delivered c a c')
    (h' : Delivered c' b c'') : Delivered c (a ++ b) c'' := by
  obtain ⟨qs, hs, rfl⟩ := h
  obtain ⟨rs, hs', rfl⟩ := h'
  exact ⟨rs, hs'.trans hs, by simp⟩

theorem Delivered.good {c c' : Conn} {b : Bytes} (h : Delivered c b c') (hg : c.Good) : c'.Good := by
  obtain ⟨qs, hs, rfl⟩ := h
  exact fun q hq => hg q (hs.subset hq)

theorem Delivered.unfailing {c c' : Conn} {b : Bytes} (h : Delivered c b c') (hg : c.Unfailing) :
    c'.Unfailing := by
  obtain ⟨qs, hs, rfl⟩ := h
  exact fun q hq => hg q (hs.subset hq)

theorem Delivered.taken {c c' : Conn} {b : Bytes} (h : Delivered c b c') :
    c'.taken = c.taken ++ b := by
  obtain ⟨qs, -, rfl⟩ := h
  rfl

/-- A `Write` none of whose calls fails returns, and has delivered `sent`. -/
theorem write_sent (data : Bytes) {c : Conn} (hg : c.Unfailing) :
    ∃ c', write c data = .ok c' ∧ Delivered c (sent data) c' := by
  obtain ⟨qs, h1, h2⟩ := writeLoop_sent data c.quota (c.quota.length + 1) 0 c rfl (by omega)
    (by omega) hg
  exact ⟨_, h2, qs, h1, by simp⟩

end NetworksLab.L2.SocketWrapper
