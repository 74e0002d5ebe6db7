import NetworksLab.L3Protocol.ChatMessage

/-!
# `ReadMessage` on any stream (`tcp/lib/Message.cpp`)

The peer may send any bytes. `messageAt` is `ReadMessage` as a function of the
bytes alone; `readMessage_at` says that the call on the wrapper is that
function, however the bytes are cut into reads, if the peer closes behind them
or they do not end inside a message (`Whole`).

Results:
* `messageAt_ok_iff`: when it returns (`Complete`); `complete_frame_iff`:
  on a beginning of a frame only at its first byte.
* `readMessage_prefix`: so on a stream of messages, wherever it stops, it
  returns the next one or waits.
* `safe_iff`: when what it returns is what the peer declared.
-/
namespace NetworksLab.L3.ChatMessage
open NetworksLab.L2.SocketWrapper
open NetworksLab.Numeral (decimal number extract_eq number_decimal)

/-- Line `k` of the bytes, from 0. -/
def line (k : Nat) (s : Bytes) : Bytes := Cursor.field LF k s

/-- What is behind the first `k` lines. -/
def after (k : Nat) (s : Bytes) : Bytes := Cursor.after LF k s

/-- `ReadN` on the bytes `s` of a peer that has closed. -/
def counted (n : Int) (s : Bytes) : Except Stop Bytes :=
  if n < 0 then throw .lengthError
  else if (s.length : Int) < n then throw .fuel
  else return s.take n.toNat

/-- `ReadMessage` on the bytes `s`: what it returns and what it leaves. -/
def messageAt (unset : Int64) (s : Bytes) : Except Stop (Option TMessage × Bytes) :=
  if line 0 s = [] then return (none, after 1 s)
  else do
    let textLength ← toInt (throw .uninitialised) Int32.minValue.toInt Int32.maxValue.toInt (line 0 s)
    let accepted ← toInt (return unset.toInt) Int64.minValue.toInt Int64.maxValue.toInt (line 2 s)
    let text ← counted textLength (after 3 s)
    if text = [] then throw .emptyPopBack
    else return (some ⟨line 1 s, Int64.ofInt accepted, text.dropLast⟩, (after 3 s).drop textLength.toNat)

/-- The bytes do not end inside a message: its lines are there, and as many
bytes behind them as the first one says. -/
def Whole (s : Bytes) : Prop :=
  LF ∈ s ∧ (line 0 s ≠ [] →
    LF ∈ after 1 s ∧ LF ∈ after 2 s ∧ ∀ d, number (line 0 s) = some d → d ≤ (after 3 s).length)

/-! ## The lines as numbers -/

theorem toInt_eq (unset : Except Stop Int) (lo hi : Int) (s : Bytes) :
    toInt unset lo hi s = match number s with
      | some d => .ok (max lo (min hi d))
      | none => unset := by
  rw [toInt, extract_eq]
  cases number s <;> rfl

theorem toInt_of_number {d : Int} {s : Bytes} (unset : Except Stop Int) (lo hi : Int) (h : number s = some d) :
    toInt unset lo hi s = .ok (max lo (min hi d)) := by
  rw [toInt_eq, h]

/-- A length that is returned has been declared. -/
theorem toInt_ok {lo hi n : Int} {s : Bytes} (h : toInt (throw .uninitialised) lo hi s = .ok n) :
    ∃ d, number s = some d ∧ n = max lo (min hi d) := by
  rw [toInt_eq] at h
  cases hs : number s with
  | none => rw [hs] at h; cases h
  | some d => rw [hs] at h; cases h; exact ⟨d, rfl, rfl⟩

/-- A length is an `int`. -/
theorem toInt_int32 {n : Int} {s : Bytes}
    (h : toInt (throw .uninitialised) Int32.minValue.toInt Int32.maxValue.toInt s = .ok n) :
    (Int32.ofInt n).toInt = n := by
  obtain ⟨d, -, rfl⟩ := toInt_ok h
  rw [int32_min, int32_max]
  exact Int32.toInt_ofInt_of_le (by omega) (by omega)

/-- As many bytes as the line says are as many as `ToInt` says. -/
theorem toInt_le_of {n : Int} {k : Nat} {s : Bytes}
    (h : toInt (throw .uninitialised) Int32.minValue.toInt Int32.maxValue.toInt s = .ok n)
    (hk : ∀ d, number s = some d → d ≤ k) : n ≤ k := by
  obtain ⟨d, hd, rfl⟩ := toInt_ok h
  have := hk d hd
  rw [int32_min, int32_max]
  omega

/-! ## The call on the wrapper -/

/-- A call as a function of the bytes: what it returns and what it leaves. -/
def view {α : Type} (x : Except Stop (α × TSocketWrapper × Conn)) : Except Stop (α × Bytes) :=
  x.map fun r => (r.1, rest r.2.1 r.2.2)

theorem view_error {e : Stop} {x : Except Stop Bytes} {t : Bytes}
    (h : view (.error e) = x.map fun a => (a, t)) : x = .error e := by
  cases x with
  | error e' => cases h; rfl
  | ok a => cases h

theorem view_ok {a t : Bytes} {w : TSocketWrapper} {c : Conn} {x : Except Stop Bytes}
    (h : view (.ok (a, w, c)) = x.map fun a => (a, t)) : x = .ok a ∧ rest w c = t := by
  cases x with
  | error e => cases h
  | ok b => cases h; exact ⟨rfl, rfl⟩

section
variable {fuel : Nat} {w : TSocketWrapper} {c : Conn}

/-- A `ReadUntil` behind `k` lines. -/
theorem readUntil_at {s : Bytes} {k : Nat} (hf : c.unread.length < fuel) (hi : Inv w)
    (hr : rest w c = after k s) (hor : LF ∈ after k s ∨ c.peer = .closed) :
    ∃ w' c' used, readUntil fuel w c LF = .ok (line k s, w', c') ∧ Inv w' ∧
      rest w' c' = after (k + 1) s ∧ Took w c used w' c' := by
  have := readUntil_spec LF hf hi (hr ▸ hor)
  rw [hr] at this
  rwa [after, Cursor.after_succ]

/-- Any `ReadN`, if the peer has closed or has sent enough. -/
theorem readN_at {n : Int32} (hf : c.unread.length < fuel) (hi : Inv w)
    (hor : c.peer = .closed ∨ n.toInt ≤ (rest w c).length) :
    view (readN fuel w c n) =
      (counted n.toInt (rest w c)).map fun t => (t, (rest w c).drop n.toInt.toNat) := by
  unfold counted
  by_cases h0 : n.toInt < 0
  · rw [readN, if_pos h0, if_pos h0]; rfl
  rw [if_neg h0]
  by_cases hn : ((rest w c).length : Int) < n.toInt
  · rw [if_pos hn, readN_short fuel hi hn, if_neg (by omega), hor.resolve_right (by omega)]; rfl
  · obtain ⟨w', c', used, he, -, hr, -⟩ := readN_spec hf hi (by omega) (by omega : n.toInt ≤ _)
    rw [if_neg hn, he, view, Except.map, hr]; rfl

/-- `ReadMessage` is `messageAt`, whatever the cut. -/
theorem readMessage_at (unset : Int64) (hf : c.unread.length < fuel) (hi : Inv w)
    (hor : c.peer = .closed ∨ Whole (rest w c)) :
    view (readMessage unset fuel w c) = messageAt unset (rest w c) := by
  generalize hr : rest w c = s at hor ⊢
  obtain ⟨w1, c1, u1, e1, i1, r1, t1⟩ := readUntil_at (k := 0) hf hi hr (hor.symm.imp_left And.left)
  have f1 := Nat.lt_of_le_of_lt t1.length_le hf
  rw [readMessage, ok_bind e1, messageAt]
  dsimp only
  by_cases hnil : line 0 s = []
  · rw [if_pos hnil, if_pos hnil]
    exact congrArg (fun s => Except.ok (none, s)) r1
  have hor1 : c.peer = .closed ∨ LF ∈ after 1 s ∧ LF ∈ after 2 s ∧
      ∀ d, number (line 0 s) = some d → d ≤ (after 3 s).length := hor.imp_right fun h => h.2 hnil
  rw [if_neg hnil, if_neg hnil]
  obtain ⟨w2, c2, u2, e2, i2, r2, t2⟩ := readUntil_at f1 i1 r1
    (hor1.symm.imp And.left fun h => t1.peer.trans h)
  have f2 := Nat.lt_of_le_of_lt t2.length_le f1
  obtain ⟨w3, c3, u3, e3, i3, r3, t3⟩ := readUntil_at f2 i2 r2
    (hor1.symm.imp (fun h => h.2.1) fun h => (t2.peer.trans t1.peer).trans h)
  have f3 := Nat.lt_of_le_of_lt t3.length_le f2
  -- behind the length the sides agree, or both have stopped
  cases hn : toInt (throw .uninitialised) Int32.minValue.toInt Int32.maxValue.toInt (line 0 s) with
  | error e => rfl
  | ok n =>
    rw [ok_bind rfl, ok_bind rfl, ok_bind e2]
    dsimp only
    rw [ok_bind e3]
    dsimp only
    obtain ⟨accepted, ha⟩ := toInt_stored unset.toInt Int64.minValue.toInt Int64.maxValue.toInt (line 2 s)
    have h32 := toInt_int32 hn
    have hread := readN_at f3 i3 (n := Int32.ofInt n) (by
      rw [h32, r3, t3.peer, t2.peer, t1.peer]
      exact hor1.imp_right fun h => toInt_le_of hn h.2.2)
    rw [h32, r3] at hread
    rw [ok_bind ha, ok_bind ha]
    cases hx : readN fuel w3 c3 (Int32.ofInt n) with
    | error e =>
      rw [hx] at hread
      rw [view_error hread]; rfl
    | ok r =>
      obtain ⟨text, w4, c4⟩ := r
      rw [hx] at hread
      obtain ⟨he, hr⟩ := view_ok hread
      rw [he, ok_bind rfl, ok_bind rfl]
      dsimp only
      by_cases ht : text = []
      · rw [if_pos ht, if_pos ht]; rfl
      · rw [if_neg ht, if_neg ht, ← hr]; rfl

end

/-! ## When it returns -/

/-- `ReadMessage` finds all it wants: an empty line, or a positive length and that
many bytes behind the third line (from the largest `int` on, so many). -/
def Complete (s : Bytes) : Prop :=
  line 0 s = [] ∨
    ∃ d, number (line 0 s) = some d ∧ 1 ≤ d ∧ min Int32.maxValue.toInt d ≤ (after 3 s).length

theorem counted_ok {n : Int} {s t : Bytes} (h : counted n s = .ok t) :
    0 ≤ n ∧ n ≤ s.length ∧ t = s.take n.toNat := by
  unfold counted at h
  split at h
  · cases h
  · split at h <;> cases h
    exact ⟨by omega, by omega, rfl⟩

theorem counted_of_le {n : Int} {s : Bytes} (h0 : 0 ≤ n) (hn : n ≤ s.length) :
    counted n s = .ok (s.take n.toNat) := by
  rw [counted, if_neg (by omega), if_neg (by omega)]; rfl

section
variable {unset : Int64} {s t : Bytes} {r : Option TMessage}

theorem messageAt_of_nil (h : line 0 s = []) : messageAt unset s = .ok (none, after 1 s) := by
  rw [messageAt, if_pos h]; rfl

/-- What is known of a result. -/
theorem messageAt_ok (h : messageAt unset s = .ok (r, t)) :
    (line 0 s = [] ∧ r = none) ∨ ∃ d m, number (line 0 s) = some d ∧ 1 ≤ d ∧
      min Int32.maxValue.toInt d ≤ (after 3 s).length ∧ r = some m ∧
      m.text = ((after 3 s).take (min Int32.maxValue.toInt d).toNat).dropLast := by
  by_cases hnil : line 0 s = []
  · rw [messageAt_of_nil hnil] at h
    cases h
    exact .inl ⟨hnil, rfl⟩
  rw [messageAt, if_neg hnil] at h
  obtain ⟨n, hn, h⟩ := bind_ok h
  obtain ⟨a, -, h⟩ := bind_ok h
  obtain ⟨text, ht, h⟩ := bind_ok h
  obtain ⟨d, hd, rfl⟩ := toInt_ok hn
  obtain ⟨h0, hle, rfl⟩ := counted_ok ht
  have hpos : 1 ≤ d := by
    by_contra hd0
    have h0 : (max Int32.minValue.toInt (min Int32.maxValue.toInt d)).toNat = 0 := by
      rw [int32_min, int32_max]; omega
    rw [h0, List.take_zero, if_pos rfl] at h
    cases h
  split at h <;> cases h
  have hmin : max Int32.minValue.toInt (min Int32.maxValue.toInt d) = min Int32.maxValue.toInt d := by
    rw [int32_min, int32_max]; omega
  rw [hmin] at hle
  exact .inr ⟨d, _, hd, hpos, hle, rfl, by rw [hmin]⟩

theorem messageAt_of_complete (unset : Int64) (h : Complete s) : ∃ r, messageAt unset s = .ok r := by
  by_cases hnil : line 0 s = []
  · exact ⟨_, messageAt_of_nil hnil⟩
  obtain ⟨d, hd, hpos, hle⟩ := h.resolve_left hnil
  have hmin : max Int32.minValue.toInt (min Int32.maxValue.toInt d) = min Int32.maxValue.toInt d := by
    rw [int32_min, int32_max]; omega
  have hn := toInt_of_number (throw .uninitialised) Int32.minValue.toInt Int32.maxValue.toInt hd
  rw [hmin] at hn
  have hmin1 : 1 ≤ min Int32.maxValue.toInt d := by rw [int32_max]; omega
  have hne : (after 3 s).take (min Int32.maxValue.toInt d).toNat ≠ [] := by
    apply List.ne_nil_of_length_pos
    rw [List.length_take]; omega
  obtain ⟨accepted, ha⟩ := toInt_stored unset.toInt Int64.minValue.toInt Int64.maxValue.toInt (line 2 s)
  rw [messageAt, if_neg hnil, ok_bind hn, ok_bind ha, ok_bind (counted_of_le (by omega) hle), if_neg hne]
  exact ⟨_, rfl⟩

theorem messageAt_ok_iff (unset : Int64) (s : Bytes) : (∃ r, messageAt unset s = .ok r) ↔ Complete s := by
  constructor
  · intro hex
    obtain ⟨⟨r, t⟩, h⟩ := hex
    rcases messageAt_ok h with ⟨hnil, -⟩ | ⟨d, m, hd, hpos, hle, -, -⟩
    · exact .inl hnil
    · exact .inr ⟨d, hd, hpos, hle⟩
  · exact messageAt_of_complete unset

end

theorem readMessage_mono {unset : Int64} {fuel fuel' : Nat} {w : TSocketWrapper} {c : Conn}
    {r : Option TMessage × TSocketWrapper × Conn} (hle : fuel ≤ fuel')
    (h : readMessage unset fuel w c = .ok r) : readMessage unset fuel' w c = .ok r := by
  obtain ⟨⟨start, w1, c1⟩, h1, h⟩ := bind_ok h
  rw [readMessage, ok_bind (readUntil_mono hle h1)]
  by_cases hnil : start = []
  · simp only [if_pos hnil] at h ⊢
    exact h
  simp only [if_neg hnil] at h ⊢
  obtain ⟨n, h2, h⟩ := bind_ok h
  obtain ⟨⟨author, w2, c2⟩, h3, h⟩ := bind_ok h
  obtain ⟨⟨stamp, w3, c3⟩, h4, h⟩ := bind_ok h
  obtain ⟨accepted, h5, h⟩ := bind_ok h
  obtain ⟨⟨text, w4, c4⟩, h6, h⟩ := bind_ok h
  rw [ok_bind h2, ok_bind (readUntil_mono hle h3)]
  dsimp only
  rw [ok_bind (readUntil_mono hle h4)]
  dsimp only
  rw [ok_bind h5, ok_bind (readN_mono hle h6)]
  exact h

/-- A peer that has closed: the call returns exactly on a complete stream. -/
theorem readMessage_returns_iff (unset : Int64) {w : TSocketWrapper} {c : Conn} (hi : Inv w) (hp : c.peer = .closed) :
    (∃ fuel r, readMessage unset fuel w c = .ok r) ↔ Complete (rest w c) := by
  have hview := readMessage_at unset (Nat.lt_succ_self _) hi (.inl hp)
  rw [← messageAt_ok_iff unset, ← hview]
  constructor
  · intro hex
    obtain ⟨fuel, r, h⟩ := hex
    have hx := readMessage_mono (Nat.le_max_left fuel (c.unread.length + 1)) h
    have hmax := readMessage_at unset (w := w) (c := c)
      (Nat.lt_of_lt_of_le (Nat.lt_succ_self _) (Nat.le_max_right fuel _)) hi (.inl hp)
    rw [hview, ← hmax, hx]
    exact ⟨_, rfl⟩
  · intro hex
    obtain ⟨r, h⟩ := hex
    cases hx : readMessage unset (c.unread.length + 1) w c with
    | error e => rw [hx] at h; cases h
    | ok x => exact ⟨_, x, hx⟩

/-- A beginning of a frame is not complete, unless it is empty. -/
theorem complete_frame_iff {m : TMessage} {s y : Bytes} (ha : LF ∉ m.author)
    (ht : m.text.length < 2 ^ 31 - 1) (hy : y ≠ []) (h : s ++ y = frame m) : Complete s ↔ s = [] := by
  refine ⟨fun hc => ?_, fun hs => .inl (by rw [hs]; rfl)⟩
  by_contra hs
  -- with fewer than three lines nothing is left for the text
  have hnil : after 3 s = [] → line 0 s = [] := fun hnil => by
    rcases hc with hc | ⟨d, -, hpos, hle⟩
    · exact hc
    · rw [hnil, int32_max, List.length_nil] at hle; omega
  rw [frame] at h
  rcases Cursor.split_of_append (lf_not_mem_decimal _) h with h0 | ⟨s1, rfl, g1⟩
  · have hline : line 0 s = s := congrArg Prod.fst (Cursor.readUntil_of_not_mem h0)
    exact hs (hline.symm.trans (hnil (Cursor.after_of_not_mem h0 2)))
  have h0 := lf_not_mem_decimal (m.text.length + 1 : Nat)
  have hline : line 0 (decimal (m.text.length + 1 : Nat) ++ LF :: s1) = decimal (m.text.length + 1 : Nat) :=
    congrArg Prod.fst (Cursor.readUntil_append_delim h0 s1)
  have hne : Cursor.after LF 2 s1 ≠ [] := fun he => Numeral.decimal_ne_nil _ (hline.symm.trans
    (hnil ((Cursor.after_split h0 s1 2).trans he)))
  rcases Cursor.split_of_append ha g1 with h1 | ⟨s2, rfl, g2⟩
  · exact hne (Cursor.after_of_not_mem h1 1)
  rcases Cursor.split_of_append (lf_not_mem_decimal _) g2 with h2 | ⟨s3, rfl, g3⟩
  · exact hne ((Cursor.after_split ha s2 1).trans (Cursor.after_of_not_mem h2 0))
  -- the whole head is there, and not all of the text
  have hlen := congrArg List.length g3
  have hylen := List.length_pos_of_ne_nil hy
  rw [List.length_append, List.length_append, List.length_singleton] at hlen
  rcases hc with hc | ⟨d, hd, -, hle⟩
  · exact Numeral.decimal_ne_nil _ (hline.symm.trans hc)
  · rw [hline, number_decimal] at hd
    cases hd
    rw [after, Cursor.after_split h0, Cursor.after_split ha, Cursor.after_split (lf_not_mem_decimal _),
      int32_max] at hle
    change _ ≤ ((s3.length : Nat) : Int) at hle
    omega

/-- A call on a stream that goes on as messages, as far as it has come: at the
end of it there is no message, and else it is the first one, which has come whole. -/
theorem readMessage_prefix {unset : Int64} {fuel : Nat} {w w' : TSocketWrapper} {c c' : Conn} {ms : List TMessage}
    {x : Bytes} {r : Option TMessage} (hf : c.unread.length < fuel) (hi : Inv w)
    (hms : ∀ m ∈ ms, LF ∉ m.author ∧ m.text.length < 2 ^ 31 - 1) (hr : rest w c ++ x = ms.flatMap frame)
    (h : readMessage unset fuel w c = .ok (r, w', c')) :
    (r = none ∧ rest w c = []) ∨ ∃ m ms' used, ms = m :: ms' ∧ r = some m ∧ Inv w' ∧
      rest w c = frame m ++ rest w' c' ∧ Took w c used w' c' := by
  -- within a message the call waits, or finds that it is not complete
  have hwhole : ∀ m y, LF ∉ m.author → m.text.length < 2 ^ 31 - 1 → rest w c ++ y = frame m →
      y = [] ∨ (rest w c = [] ∧ c.peer = .closed) := by
    intro m y ha ht hy
    by_cases hnil : y = []
    · exact .inl hnil
    by_cases hp : c.peer = .closed
    · have hc := (readMessage_returns_iff unset hi hp).mp ⟨fuel, _, h⟩
      exact .inr ⟨(complete_frame_iff ha ht hnil hy).mp hc, hp⟩
    · obtain ⟨e, he⟩ := readMessage_incomplete hf hi hp ha ht hnil hy
      rw [he] at h
      cases h
  by_cases hnil : rest w c = []
  · have hempty := hwhole ⟨[], 0, []⟩ (frame ⟨[], 0, []⟩) List.not_mem_nil (by decide) (by rw [hnil]; rfl)
    have hp := (hempty.resolve_left (frame_ne_nil _)).2
    obtain ⟨w1, c1, -, e1, -⟩ := readMessage_end hf hi hp hnil
    rw [e1] at h
    cases h
    exact .inl ⟨rfl, hnil⟩
  cases ms with
  | nil => exact absurd (List.append_eq_nil_iff.mp hr).1 hnil
  | cons m ms =>
    obtain ⟨ha, ht⟩ := hms m List.mem_cons_self
    rw [List.flatMap_cons] at hr
    obtain ⟨t, hframe⟩ : ∃ t, rest w c = frame m ++ t := by
      rcases List.append_eq_append_iff.mp hr with ⟨y, hy, -⟩ | ⟨t, ht, -⟩
      · rcases hwhole m y ha ht hy.symm with rfl | hend
        · exact ⟨[], by rw [List.append_nil, hy, List.append_nil]⟩
        · exact absurd hend.1 hnil
      · exact ⟨t, ht⟩
    obtain ⟨w1, c1, used, e1, i1, r1, t1⟩ := readMessage_frame hf hi ha ht hframe
    rw [e1] at h
    cases h
    exact .inr ⟨m, ms, used, rfl, rfl, i1, by rw [r1, hframe], t1⟩

/-! ## What the peer declares -/

/-- The stream does not end inside a message: it is at its end, or a whole
message is still to come. -/
def Supplied (w : TSocketWrapper) (c : Conn) : Prop :=
  (c.peer = .closed ∧ rest w c = []) ∨ Whole (rest w c)

/-- The call passes no length that is unset or negative, it does not `pop_back` an
empty string, and a message that it returns has the declared number of bytes
minus the trailing one. -/
def Safe (unset : Int64) (fuel : Nat) (w : TSocketWrapper) (c : Conn) : Prop :=
  ∃ r w' c', readMessage unset fuel w c = .ok (r, w', c') ∧
    ∀ m, r = some m → ∃ d, number (line 0 (rest w c)) = some d ∧ (m.text.length : Int) + 1 = d ∧
      m.text <+: after 3 (rest w c)

theorem not_safe_of_error {unset : Int64} {fuel : Nat} {w : TSocketWrapper} {c : Conn} {e : Stop}
    (h : readMessage unset fuel w c = .error e) : ¬ Safe unset fuel w c := by
  intro hs
  obtain ⟨r, w', c', hr, -⟩ := hs
  rw [h] at hr; cases hr

/-- The first line is empty, or its number is a positive `int`. -/
def WellDeclared (s : Bytes) : Prop :=
  line 0 s = [] ∨ ∃ d, number (line 0 s) = some d ∧ 1 ≤ d ∧ d ≤ Int32.maxValue.toInt

theorem WellDeclared.le_max {s : Bytes} {d : Int} (h : WellDeclared s) (hd : number (line 0 s) = some d) :
    d ≤ Int32.maxValue.toInt := by
  rcases h with hnil | ⟨d', hd', -, hle⟩
  · rw [hnil] at hd; cases hd
  · rw [hd] at hd'; cases hd'; exact hle

theorem Supplied.wellDeclared_complete {w : TSocketWrapper} {c : Conn} (h : Supplied w c)
    (hd : WellDeclared (rest w c)) : Complete (rest w c) := by
  rcases hd with hnil | ⟨d, hd, hpos, hle⟩
  · exact .inl hnil
  by_cases hnil : line 0 (rest w c) = []
  · exact .inl hnil
  refine .inr ⟨d, hd, hpos, ?_⟩
  rcases h with ⟨-, h⟩ | h
  · rw [h] at hnil; exact absurd rfl hnil
  · have := (h.2 hnil).2.2 d hd
    omega

/-- **When `ReadMessage` is safe.** Whatever the peer sends and however it is
cut into reads, as long as it does not end inside a message, and whatever a
timestamp that is never set holds: exactly when the first line is empty, or the
declared length is a positive `int`. -/
theorem safe_iff (unset : Int64) {fuel : Nat} {w : TSocketWrapper} {c : Conn} (hf : c.unread.length < fuel)
    (hi : Inv w) (hs : Supplied w c) : Safe unset fuel w c ↔ WellDeclared (rest w c) := by
  have hview := readMessage_at unset hf hi (hs.imp_left And.left)
  constructor
  · intro h
    obtain ⟨r, w', c', hr, hm⟩ := h
    rw [hr] at hview
    rcases messageAt_ok hview.symm with ⟨hnil, -⟩ | ⟨d, m, hd, hpos, hle, rfl, htext⟩
    · exact .inl hnil
    refine .inr ⟨d, hd, hpos, ?_⟩
    obtain ⟨d', hd', hlen, -⟩ := hm m rfl
    obtain rfl := Option.some.inj (hd.symm.trans hd')
    rw [htext, List.length_dropLast, List.length_take, int32_max] at hlen
    rw [int32_max]
    omega
  · intro hd
    obtain ⟨⟨r, t⟩, h⟩ := messageAt_of_complete unset (hs.wellDeclared_complete hd)
    rw [h] at hview
    cases hx : readMessage unset fuel w c with
    | error e => rw [hx] at hview; cases hview
    | ok x =>
      obtain ⟨r', w', c'⟩ := x
      rw [hx] at hview
      cases hview
      refine ⟨_, w', c', hx, fun m hm => ?_⟩
      rcases messageAt_ok h with ⟨-, hnone⟩ | ⟨d, m', hd', hpos, hle, hsome, htext⟩
      · rw [hm] at hnone; cases hnone
      obtain rfl := Option.some.inj (hm.symm.trans hsome)
      refine ⟨d, hd', ?_, htext ▸ (List.dropLast_prefix _).trans (List.take_prefix _ _)⟩
      have hmax := hd.le_max hd'
      rw [htext, List.length_dropLast, List.length_take]
      omega

/-- A peer that sends the text in reads of one byte, and closes. -/
def sends (s : String) : Conn := .ofPieces (bytewise (ascii s))

/-- A number in the first line, and as many bytes behind the third one. -/
theorem Supplied.of_number {w : TSocketWrapper} {c : Conn} {d : Int} (h0 : LF ∈ rest w c) (h1 : LF ∈ after 1 (rest w c))
    (h2 : LF ∈ after 2 (rest w c)) (hd : number (line 0 (rest w c)) = some d)
    (hle : d ≤ (after 3 (rest w c)).length) : Supplied w c :=
  .inr ⟨h0, fun _ => ⟨h1, h2, fun _ hd' => Option.some.inj (hd.symm.trans hd') ▸ hle⟩⟩

/-- A text of four bytes, with a timestamp and with a blank line for it; and a length
that is too short for any text. -/
theorem safe_iff_hello : (∀ unset, Safe unset 13 (.make 0) (sends "5\nA\n0\nHi!?\n")) ∧
    (∀ unset, Safe unset 13 (.make 0) (sends "5\nA\n \nHi!?\n")) ∧
    ∀ unset, ¬ Safe unset 13 (.make 0) (sends "0\nA\n0\nHi!?\n") := by
  have hstamped : Supplied (.make 0) (sends "5\nA\n0\nHi!?\n") :=
    .of_number (d := 5) (by decide) (by decide) (by decide) (by decide) (by decide)
  have hblank : Supplied (.make 0) (sends "5\nA\n \nHi!?\n") :=
    .of_number (d := 5) (by decide) (by decide) (by decide) (by decide) (by decide)
  have hzero : number (line 0 (rest (.make 0) (sends "0\nA\n0\nHi!?\n"))) = some 0 := by decide
  have hshort : Supplied (.make 0) (sends "0\nA\n0\nHi!?\n") :=
    .of_number (by decide) (by decide) (by decide) hzero (by decide)
  refine ⟨fun unset => ?_, fun unset => ?_, fun unset h => ?_⟩
  · exact (safe_iff unset (by decide) (make_inv 0) hstamped).mpr (.inr ⟨5, by decide, by decide, by decide⟩)
  · exact (safe_iff unset (by decide) (make_inv 0) hblank).mpr (.inr ⟨5, by decide, by decide, by decide⟩)
  · rcases (safe_iff unset (by decide) (make_inv 0) hshort).mp h with hnil | ⟨d, hd, hpos, -⟩
    · exact absurd hnil (by decide)
    · rw [hzero] at hd
      obtain rfl := Option.some.inj hd
      exact absurd hpos (by decide)

/-- A length of zero and no text: `pop_back` on an empty string. A negative
length: `reserve` throws. A blank line: no length is set at all. -/
theorem badLength_unsafe :
    (Supplied (.make 0) (sends "0\nA\n0\n") ∧
      readMessage 0 7 (.make 0) (sends "0\nA\n0\n") = .error .emptyPopBack ∧
      readMessage 0 8 (.make 0) (sends "-1\nA\n0\n") = .error .lengthError ∧
      readMessage 0 7 (.make 0) (sends " \nA\n0\n") = .error .uninitialised) ∧
    ¬ ∀ (unset : Int64) (fuel : Nat) (w : TSocketWrapper) (c : Conn), c.unread.length < fuel →
      L2.SocketWrapper.Inv w → Supplied w c → Safe unset fuel w c := by
  have hs : Supplied (.make 0) (sends "0\nA\n0\n") :=
    .of_number (d := 0) (by decide) (by decide) (by decide) (by decide) (by decide)
  have h0 : readMessage 0 7 (.make 0) (sends "0\nA\n0\n") = .error .emptyPopBack := by decide +kernel
  refine ⟨⟨hs, h0, by decide +kernel, by decide +kernel⟩, fun h => ?_⟩
  exact not_safe_of_error h0 (h 0 7 _ _ (by decide) (make_inv 0) hs)

end NetworksLab.L3.ChatMessage
