import NetworksLab.L3Protocol.ChatReader
import NetworksLab.L5Concurrency.ChatServer

/-!
# A peer that closes (`tcp/lib/Socket.cpp`, `tcp/lib/Message.cpp`, `tcp/lib/Server.cpp`)

`ReadUntil` stops at an empty buffer; the loop of `ReadN` has no such test, and
`Read` returns 0 for ever once the peer has closed. A peer that closes inside a
message keeps `AcceptMessage`, and with it the server, in that loop.

Results:
* `acceptMessage_returns_iff`: on a beginning of a frame `AcceptMessage`
  returns only if nothing of it was sent.
* `returns_iff`: `ReadN`, `ReadMessage` and `AcceptMessage` together.
-/
namespace NetworksLab.L5.ChatServer
open NetworksLab.L2.SocketWrapper
open NetworksLab.L3.ChatMessage

section
variable {unset : Int64} {w : TSocketWrapper} {c : Conn} {m : TMessage} {y : Bytes}

/-- A peer that closes inside a message. -/
theorem readMessage_prefix_iff (hi : L2.SocketWrapper.Inv w) (hp : c.peer = .closed) (ha : LF ∉ m.author)
    (ht : m.text.length < 2 ^ 31 - 1) (hy : y ≠ []) (h : rest w c ++ y = frame m) :
    (∃ fuel r, readMessage unset fuel w c = .ok r) ↔ rest w c = [] := by
  rw [readMessage_returns_iff unset hi hp, complete_frame_iff ha ht hy h]

variable {srv : TImpl} {k : Kernel} {i fd : Nat} {time : Int64} {l : Link}

/-- `AcceptMessage` returns only if its `ReadMessage` does. -/
theorem acceptMessage_reads {r : TImpl × Kernel} (hw : srv.clientWrappers[i - 1]? = some w)
    (hl : srv.link k w = .ok (fd, l)) (h : acceptMessage srv k i time unset = .ok r) :
    ∃ x, readMessage unset (l.conn.unread.length + 1) w l.conn = .ok x := by
  simp only [acceptMessage, hw] at h
  obtain ⟨_, hl', h⟩ := bind_ok h
  obtain rfl := Except.ok.inj (hl.symm.trans hl')
  obtain ⟨x, hx, -⟩ := bind_ok h
  exact ⟨x, hx⟩

/-- A client that has closed, with nothing left to read, is removed. -/
theorem acceptMessage_end (hi : L2.SocketWrapper.Inv w) (hp : l.conn.peer = .closed)
    (hw : srv.clientWrappers[i - 1]? = some w) (hl : srv.link k w = .ok (fd, l))
    (h : rest w l.conn = []) : ∃ r, acceptMessage srv k i time unset = .ok r := by
  obtain ⟨w', c', used, hx, -, -, -⟩ := readMessage_end (Nat.lt_succ_self _) hi hp h
  refine ⟨bye { srv with clientWrappers := srv.clientWrappers.set (i - 1) w' } (k.put fd l c') i
    (i - 1), ?_⟩
  simp only [acceptMessage, hw]
  rw [ok_bind hl]
  dsimp only
  rw [ok_bind hx]
  rfl

theorem acceptMessage_returns_iff (hi : L2.SocketWrapper.Inv w) (hp : l.conn.peer = .closed)
    (ha : LF ∉ m.author) (ht : m.text.length < 2 ^ 31 - 1) (hy : y ≠ [])
    (h : rest w l.conn ++ y = frame m) (hw : srv.clientWrappers[i - 1]? = some w)
    (hl : srv.link k w = .ok (fd, l)) :
    (∃ r, acceptMessage srv k i time unset = .ok r) ↔ rest w l.conn = [] := by
  constructor
  · intro hret
    obtain ⟨r, hr⟩ := hret
    obtain ⟨x, hx⟩ := acceptMessage_reads hw hl hr
    exact (readMessage_prefix_iff hi hp ha ht hy h).mp ⟨_, x, hx⟩
  · exact acceptMessage_end hi hp hw hl

end

/-- **What returns.** `ReadN` returns exactly when its `n` is not negative and
that many bytes are there, and goes round for ever exactly when the peer has
closed with fewer. Of a peer that has closed, `ReadMessage` returns exactly on
a complete stream, whatever a timestamp that is never set holds; where that is a
beginning of a frame, only if it is empty, and `AcceptMessage` likewise. -/
theorem returns_iff {w : TSocketWrapper} (hi : L2.SocketWrapper.Inv w) (c : Conn) (n : Int32) :
    ((∃ fuel r, readN fuel w c n = .ok r) ↔ 0 ≤ n.toInt ∧ n.toInt ≤ (rest w c).length) ∧
    ((∃ fuel, readN fuel w c n ≠ .error .fuel) ↔ (c.peer = .closed → n.toInt ≤ (rest w c).length)) ∧
    (c.peer = .closed → ∀ unset : Int64,
      ((∃ fuel r, readMessage unset fuel w c = .ok r) ↔ Complete (rest w c)) ∧
      ∀ m y, LF ∉ m.author → m.text.length < 2 ^ 31 - 1 → y ≠ [] → rest w c ++ y = frame m →
        ((∃ fuel r, readMessage unset fuel w c = .ok r) ↔ rest w c = []) ∧
        ∀ srv k i time fd l, srv.clientWrappers[i - 1]? = some w → srv.link k w = .ok (fd, l) →
          l.conn = c → ((∃ r, acceptMessage srv k i time unset = .ok r) ↔ rest w c = [])) := by
  refine ⟨readN_returns_iff hi c n, readN_ends_iff hi c n, fun hp unset =>
    ⟨readMessage_returns_iff unset hi hp, fun m y ha ht hy h => ⟨readMessage_prefix_iff hi hp ha ht hy h, ?_⟩⟩⟩
  intro srv k i time fd l hw hl hc
  subst hc
  exact acceptMessage_returns_iff hi hp ha ht hy h hw hl

/-- The peer closes behind the length and half of the author; and behind a message
with a blank line for its timestamp. -/
theorem returns_iff_author : (∀ unset, ¬ ∃ fuel r, readMessage unset fuel (.make 0) (sends "3\nAl") = .ok r) ∧
    ∀ unset, ∃ fuel r, readMessage unset fuel (.make 0) (sends "3\nA\n \nhi\n") = .ok r := by
  constructor
  · intro unset
    have h := ((returns_iff (make_inv 0) (sends "3\nAl") 0).2.2 rfl unset).2 ⟨ascii "Alice", 0, ascii "Hi"⟩
      (ascii "ice\n0\nHi\n") (by decide) (by decide) (by decide) (by decide)
    exact h.1.not.mpr (by decide)
  · intro unset
    exact ((returns_iff (make_inv 0) (sends "3\nA\n \nhi\n") 0).2.2 rfl unset).1.mpr
      (.inr ⟨3, by decide, by decide, by decide⟩)

/-- One byte from a peer that has closed: no number of reads is enough. -/
theorem readN_spins : (∀ fuel, readN fuel (.make 0) (.ofPieces []) 1 = .error .fuel) ∧
    ¬ ∀ (w : TSocketWrapper) (c : Conn) (n : Int32), L2.SocketWrapper.Inv w →
      ∃ fuel r, readN fuel w c n = .ok r := by
  have h : ∀ fuel, readN fuel (.make 0) (.ofPieces []) 1 = .error .fuel := fun fuel => by
    rw [readN_short fuel (make_inv 0) (by decide)]
    split <;> rfl
  refine ⟨h, fun hall => ?_⟩
  obtain ⟨fuel, r, hr⟩ := hall (.make 0) (.ofPieces []) 1 (make_inv 0)
  rw [h fuel] at hr
  cases hr

end NetworksLab.L5.ChatServer
