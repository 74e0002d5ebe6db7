import Mathlib.Order.Monotone.Basic
import NetworksLab.L2Machine.SocketWrapper

/-!
# `TSocketWrapper::Write` over any results (`tcp/lib/Socket.cpp`)

`q n` stands for the result of the `n`-th `Socket_->Write`: -1 if it is
negative, and otherwise that count, cut to the length offered. Every sequence
of results that `write(2)` can give is the sequence of one such `q`. `trace`
is the loop over them: `written`, and the bytes accepted, in front of call `n`.

Results:
* `write_of_delivers`: `trace` is the loop of `SocketWrapper.write`.
* `clean_delivers`: without an error, `Write` delivers its argument.
* `delivers_iff`: that is the only way, for a socket that goes on accepting.
-/
namespace NetworksLab.L2.SocketWrapper

/-- What grows with every result but 0 passes every bound. -/
theorem unbounded_of_lively {q : Nat → Int} {f : Nat → Nat} (hq : ∀ n, ∃ m, n ≤ m ∧ q m ≠ 0)
    (hmono : ∀ n, f n ≤ f (n + 1)) (hgrow : ∀ n, q n ≠ 0 → f n < f (n + 1)) :
    ∀ k, ∃ n, k ≤ f n
  | 0 => ⟨0, Nat.zero_le _⟩
  | k + 1 => by
    obtain ⟨n, hn⟩ := unbounded_of_lively hq hmono hgrow k
    obtain ⟨m, hnm, hm⟩ := hq n
    have h1 : f n ≤ f m := monotone_nat_of_le_succ hmono hnm
    have h2 := hgrow m hm
    exact ⟨m + 1, by omega⟩

/-! ## The loop over its results -/

/-- `written`, and the bytes accepted so far. -/
structure Sending where
  written : Int
  taken : Bytes
  deriving DecidableEq, Repr

/-- The length passed, `data.size() - written` as an `int`. -/
def lengthAt (data : Bytes) (written : Int) : Int := Int.bmod (data.length - written) (2 ^ 32)

/-- One call with the result `q`.
mirrors tcp/lib/Socket.cpp:95 -/
def callWrite (data : Bytes) (q : Int) (s : Sending) : Sending :=
  if q < 0 then { s with written := s.written - 1 }
  else
    -- in front of `data` the source offers other memory; `InRange` has failed then
    let offered := (data.drop s.written.toNat).take (lengthAt data s.written).toNat
    let r := min q.toNat offered.length
    ⟨s.written + r, s.taken ++ offered.take r⟩

/-- mirrors tcp/lib/Socket.cpp:93-96 -/
def trace (data : Bytes) (q : Nat → Int) : Nat → Sending
  | 0 => ⟨0, []⟩
  | n + 1 =>
    if (trace data q n).written < toInt data.length then callWrite data (q n) (trace data q n)
    else trace data q n

/-- The loop makes call `n`; otherwise `Write` has returned. -/
def Called (data : Bytes) (q : Nat → Int) (n : Nat) : Prop :=
  (trace data q n).written < toInt data.length

instance (data : Bytes) (q : Nat → Int) (n : Nat) : Decidable (Called data q n) :=
  inferInstanceAs (Decidable (_ < _))

/-- Pointer and length denote a range inside `data`. -/
def InRange (data : Bytes) (written : Int) : Prop :=
  0 ≤ written ∧ 0 ≤ lengthAt data written ∧ written + lengthAt data written ≤ data.length

/-- Every call is given a range of `data`, what is accepted is a beginning of
it, and all of it once `Write` returns. -/
structure Delivers (data : Bytes) (q : Nat → Int) : Prop where
  range : ∀ n, Called data q n → InRange data (trace data q n).written
  isPrefix : ∀ n, (trace data q n).taken <+: data
  all : ∀ n, ¬ Called data q n → (trace data q n).taken = data

/-- No call that is made fails. -/
def Clean (data : Bytes) (q : Nat → Int) : Prop := ∀ n, Called data q n → 0 ≤ q n

/-- The results are not 0 from some point on. -/
def Lively (q : Nat → Int) : Prop := ∀ n, ∃ m, n ≤ m ∧ q m ≠ 0

/-! ## One call -/

section
variable {data : Bytes} {q : Nat → Int} {n : Nat} {s : Sending}

theorem called_iff {k : Int} {t : Bytes} (h : trace data q n = ⟨k, t⟩) :
    Called data q n ↔ k < toInt data.length := by
  rw [Called, h]

theorem trace_called (h : Called data q n) :
    trace data q (n + 1) = callWrite data (q n) (trace data q n) := if_pos h

theorem trace_returned (h : ¬ Called data q n) : trace data q (n + 1) = trace data q n := if_neg h

theorem lengthAt_eq {written : Int} (h0 : 0 ≤ written) (h : written < toInt data.length) :
    lengthAt data written = toInt (data.length - written.toNat) := by
  have hle := toInt_le data.length
  have hsub : (data.length : Int) - written = (data.length - written.toNat : Nat) := by omega
  unfold lengthAt toInt
  rw [hsub]

theorem callWrite_error (h : q n < 0) : callWrite data (q n) s = ⟨s.written - 1, s.taken⟩ := if_pos h

/-- A call that does not fail accepts some of what is left of `sent`; at least
one byte, if its result is positive. -/
theorem callWrite_accept {r : Int} (hr : 0 ≤ r) (h0 : 0 ≤ s.written) (h : s.written < toInt data.length) :
    ∃ k : Nat, callWrite data r s =
        ⟨s.written + k, s.taken ++ ((sent data).drop s.written.toNat).take k⟩ ∧
      s.written + k ≤ toInt data.length ∧ (0 < r → 0 < k) := by
  have hlen := sent_length data
  unfold callWrite
  rw [if_neg (by omega), lengthAt_eq h0 h, offered_eq h0 h]
  refine ⟨_, rfl, ?_⟩
  rw [List.length_drop, hlen]
  omega

end

/-! ## Without an error -/

section
variable {data : Bytes} {q : Nat → Int}

/-- As long as no call has failed, `written` counts the bytes of `sent` that were accepted. -/
theorem trace_clean (hq : Clean data q) : ∀ n, ∃ k : Nat,
    trace data q n = ⟨k, (sent data).take k⟩ ∧ k ≤ (sent data).length
  | 0 => ⟨0, rfl, Nat.zero_le _⟩
  | n + 1 => by
    obtain ⟨k, hk, hle⟩ := trace_clean hq n
    by_cases hc : Called data q n
    · have hlt := (called_iff hk).mp hc
      obtain ⟨r, hr, hr', -⟩ := callWrite_accept (s := ⟨k, (sent data).take k⟩) (hq n hc)
        (Int.natCast_nonneg k) hlt
      refine ⟨k + r, ?_, by rw [sent_length]; dsimp only at hr'; omega⟩
      rw [trace_called hc, hk, hr, Int.toNat_natCast, ← List.take_add]
      rfl
    · exact ⟨k, by rw [trace_returned hc, hk], hle⟩

/-- **Partial writes.** Whatever the calls accept, as long as none fails. -/
theorem clean_delivers (hl : data.length < 2 ^ 31) (hq : Clean data q) : Delivers data q := by
  have htoInt := toInt_of_lt hl
  have hsent := sent_of_lt data hl
  refine ⟨fun n hc => ?_, fun n => ?_, fun n hc => ?_⟩
  · obtain ⟨k, hk, -⟩ := trace_clean hq n
    have hlt := (called_iff hk).mp hc
    have hoff := toInt_sub (Int.natCast_nonneg k) hlt
    rw [← lengthAt_eq (Int.natCast_nonneg k) hlt] at hoff
    rw [hk]
    refine ⟨Int.natCast_nonneg k, ?_, ?_⟩ <;> dsimp only <;> omega
  · obtain ⟨k, hk, -⟩ := trace_clean hq n
    rw [hk]
    exact (List.take_prefix _ _).trans (sent_isPrefix data)
  · obtain ⟨k, hk, hle⟩ := trace_clean hq n
    rw [called_iff hk] at hc
    rw [hk]
    dsimp only
    rw [hsent, List.take_of_length_le (by omega)]

/-- A socket that goes on accepting: `Write` returns, and has delivered `sent`. -/
theorem clean_returns (hq : Clean data q) (hl : Lively q) :
    ∃ n, ¬ Called data q n ∧ (trace data q n).taken = sent data := by
  obtain ⟨n, hn⟩ : ∃ n, ¬ Called data q n := by
    by_contra hall
    have hall : ∀ n, Called data q n := fun n => not_not.mp fun h => hall ⟨n, h⟩
    have hstep : ∀ n, (trace data q n).written.toNat ≤ (trace data q (n + 1)).written.toNat ∧
        (q n ≠ 0 → (trace data q n).written.toNat < (trace data q (n + 1)).written.toNat) := by
      intro n
      obtain ⟨k, hk, -⟩ := trace_clean hq n
      have h0 := hq n (hall n)
      obtain ⟨r, hr, -, hpos⟩ := callWrite_accept (s := trace data q n) h0
        (by rw [hk]; exact Int.natCast_nonneg k) (hall n)
      rw [trace_called (hall n), hr, hk]
      dsimp only
      omega
    obtain ⟨n, hn⟩ := unbounded_of_lively hl (fun n => (hstep n).1) (fun n => (hstep n).2)
      ((toInt data.length).toNat + 1)
    have := hall n
    unfold Called at this
    omega
  obtain ⟨k, hk, hle⟩ := trace_clean hq n
  refine ⟨n, hn, ?_⟩
  rw [called_iff hk] at hn
  rw [hk]
  dsimp only
  rw [List.take_of_length_le (by rw [sent_length]; omega)]

end

/-! ## Behind an error -/

/-- How far `written` is behind the bytes accepted: one for every failed call. -/
def gap (s : Sending) : Int := s.taken.length - s.written

section
variable {data : Bytes} {q : Nat → Int} {n : Nat}

/-- Step lemma: an error widens the gap, and nothing narrows it. -/
theorem gap_step (hw : Called data q n → 0 ≤ (trace data q n).written) :
    (trace data q n).taken.length ≤ (trace data q (n + 1)).taken.length ∧
    gap (trace data q n) ≤ gap (trace data q (n + 1)) ∧
    (Called data q n → q n < 0 → gap (trace data q n) < gap (trace data q (n + 1))) ∧
    (Called data q n → 0 < q n →
      (trace data q n).taken.length < (trace data q (n + 1)).taken.length) := by
  unfold gap
  by_cases hc : Called data q n
  · by_cases hq : q n < 0
    · rw [trace_called hc, callWrite_error hq]
      dsimp only
      refine ⟨Nat.le_refl _, ?_, ?_, ?_⟩ <;> omega
    · obtain ⟨k, hk, hle, hpos⟩ := callWrite_accept (s := trace data q n) (Int.not_lt.mp hq) (hw hc) hc
      have hlen : (((sent data).drop (trace data q n).written.toNat).take k).length = k := by
        have := hw hc
        rw [List.length_take, List.length_drop, sent_length]
        omega
      rw [trace_called hc, hk]
      dsimp only
      rw [List.length_append, hlen]
      refine ⟨?_, ?_, ?_, ?_⟩ <;> omega
  · rw [trace_returned hc]
    exact ⟨Nat.le_refl _, Int.le_refl _, fun h => absurd h hc, fun h => absurd h hc⟩

theorem called_of_le {m : Nat} (h : ¬ Called data q n) (hle : n ≤ m) : ¬ Called data q m := by
  induction hle with
  | refl => exact h
  | step _ ih =>
    unfold Called
    rw [trace_returned ih]
    exact ih

theorem gap_nonneg (hw : ∀ i, Called data q i → 0 ≤ (trace data q i).written) :
    ∀ i, 0 ≤ gap (trace data q i)
  | 0 => Int.le_refl 0
  | i + 1 => Int.le_trans (gap_nonneg hw i) (gap_step (hw i)).2.1

/-- Behind an error the gap stays open. -/
theorem gap_pos {m : Nat} (hw : ∀ i, Called data q i → 0 ≤ (trace data q i).written)
    (hc : Called data q n) (hq : q n < 0) (hle : n + 1 ≤ m) : 0 < gap (trace data q m) := by
  induction hle with
  | refl => exact Int.lt_of_le_of_lt (gap_nonneg hw n) ((gap_step (hw n)).2.2.1 hc hq)
  | step _ ih => exact Int.lt_of_lt_of_le ih (gap_step (hw _)).2.1

/-- With a gap `Write` cannot stop at the right place. -/
theorem Delivers.called (hl : data.length < 2 ^ 31) (hd : Delivers data q) (hc : Called data q n)
    (hq : q n < 0) (m : Nat) : Called data q m := by
  by_contra hm
  have hend := called_of_le hm (Nat.le_max_left m (n + 1))
  have hgap := gap_pos (fun i hi => (hd.range i hi).1) hc hq (Nat.le_max_right m (n + 1))
  rw [gap, hd.all _ hend] at hgap
  rw [Called, toInt_of_lt hl] at hend
  omega

/-- **Errors.** A socket that fails once and goes on accepting. -/
theorem Delivers.clean (hl : data.length < 2 ^ 31) (hq : Lively q) (hd : Delivers data q) :
    Clean data q := by
  intro n hc
  by_contra hn
  have hall := hd.called hl hc (by omega)
  have hw : ∀ i, 0 ≤ (trace data q i).written := fun i => (hd.range i (hall i)).1
  have hlen : ∀ i, (trace data q i).taken.length ≤ data.length := fun i => (hd.isPrefix i).length_le
  -- both the bytes accepted and the gap stay below the size, and every result but 0 adds to one
  have hstep : ∀ i, ((trace data q i).taken.length + gap (trace data q i)).toNat ≤
        ((trace data q (i + 1)).taken.length + gap (trace data q (i + 1))).toNat ∧
      (q i ≠ 0 → ((trace data q i).taken.length + gap (trace data q i)).toNat <
        ((trace data q (i + 1)).taken.length + gap (trace data q (i + 1))).toNat) := by
    intro i
    obtain ⟨h1, h2, h3, h4⟩ := gap_step fun _ => hw i
    have h0 := gap_nonneg (fun i _ => hw i) i
    have h3 := h3 (hall i)
    have h4 := h4 (hall i)
    omega
  obtain ⟨i, hi⟩ := unbounded_of_lively hq (fun i => (hstep i).1) (fun i => (hstep i).2)
    (2 * data.length + 1)
  unfold gap at hi
  have h1 := hw i
  have h2 := hlen i
  omega

end

/-! ## The code's loop -/

/-- The results of a connection's coming `Write` calls. -/
def Conn.results (c : Conn) (n : Nat) : Int := c.quota[n]?.getD (2 ^ 31)

theorem Conn.write_results (c : Conn) {block : Bytes} (h : block.length < 2 ^ 31) :
    c.write block = if c.results 0 < 0 then ((-1 : Int), { c with quota := c.quota.drop 1 })
      else ((min (c.results 0).toNat block.length : Nat), { c with
        quota := c.quota.drop 1
        taken := c.taken ++ block.take (min (c.results 0).toNat block.length) }) := by
  unfold Conn.write Conn.results
  cases hq : c.quota with
  | nil =>
    have hmin : min ((2 : Int) ^ 31).toNat block.length = block.length := by omega
    simp only [List.getElem?_nil, Option.getD_none, hmin, List.take_length, List.drop_nil]
    rfl
  | cons q qs => rfl

/-- The connection in front of call `n`. -/
def Conn.upTo (c : Conn) (data : Bytes) (n : Nat) : Conn :=
  { c with quota := c.quota.drop n, taken := c.taken ++ (trace data c.results n).taken }

theorem results_upTo (c : Conn) (data : Bytes) (n : Nat) : (c.upTo data n).results 0 = c.results n := by
  simp only [Conn.results, Conn.upTo, List.getElem?_drop, Nat.add_zero]

section
variable {data : Bytes} {n : Nat}

/-- Step lemma: call `n` of the code. -/
theorem write_upTo (c : Conn) (h0 : 0 ≤ (trace data c.results n).written)
    (hc : Called data c.results n) :
    (trace data c.results n).written +
        ((c.upTo data n).write ((sent data).drop (trace data c.results n).written.toNat)).1 =
      (trace data c.results (n + 1)).written ∧
    ((c.upTo data n).write ((sent data).drop (trace data c.results n).written.toNat)).2 =
      c.upTo data (n + 1) := by
  have hlen : ((sent data).drop (trace data c.results n).written.toNat).length < 2 ^ 31 := by
    have := toInt_lt data.length
    rw [List.length_drop, sent_length]
    omega
  rw [Conn.write_results _ hlen, results_upTo]
  unfold Conn.upTo
  rw [trace_called hc, callWrite, lengthAt_eq h0 hc, offered_eq h0 hc]
  split
  · simp only [List.drop_drop]
    exact ⟨rfl, trivial⟩
  · simp only [List.drop_drop, List.append_assoc, and_self]

/-- Run lemma: from call `n` on the code goes along the trace, until `Write`
returns or passes a pointer outside `data`. -/
theorem writeLoop_trace (data : Bytes) (c : Conn) : ∀ (fuel n : Nat) {r : Except Stop Conn},
    writeLoop fuel data (trace data c.results n).written (c.upTo data n) = r → r ≠ .error .fuel →
    (∃ m, ¬ Called data c.results m ∧ r = .ok (c.upTo data m)) ∨
    (∃ m, Called data c.results m ∧ (trace data c.results m).written < 0 ∧ r = .error .outOfRange) := by
  intro fuel
  induction fuel with
  | zero =>
    intro n r h hr
    by_cases hc : Called data c.results n
    · unfold Called at hc
      rw [writeLoop, if_pos hc] at h
      exact absurd h.symm hr
    · rw [writeLoop_done hc] at h
      exact .inl ⟨n, hc, h.symm⟩
  | succ fuel ih =>
    intro n r h hr
    by_cases hc : Called data c.results n
    · by_cases h0 : 0 ≤ (trace data c.results n).written
      · obtain ⟨hw, hn⟩ := write_upTo c h0 hc
        rw [writeLoop_next fuel _ h0 hc, hw, hn] at h
        exact ih (n + 1) h hr
      · have hlt : (trace data c.results n).written < toInt data.length := hc
        rw [writeLoop, if_pos hlt] at h
        simp only [if_pos (Int.not_le.mp h0)] at h
        exact .inr ⟨n, hc, Int.not_le.mp h0, h.symm⟩
    · rw [writeLoop_done hc] at h
      exact .inl ⟨n, hc, h.symm⟩

end

/-- What `Delivers` says of the code: no pointer outside `data`, and once
`Write` returns, all of `data` was accepted. -/
theorem write_of_delivers {c : Conn} {data : Bytes} (h : Delivers data c.results) (fuel : Nat) :
    writeLoop fuel data 0 c ≠ .error .outOfRange ∧
    ∀ c', writeLoop fuel data 0 c = .ok c' → c'.taken = c.taken ++ data := by
  have hstart : c.upTo data 0 = c := by
    simp only [Conn.upTo, trace, List.drop_zero, List.append_nil]
  have hrun := writeLoop_trace data c fuel 0 (r := writeLoop fuel data 0 c)
    (by rw [hstart]; rfl)
  constructor
  · intro he
    rcases hrun (by rw [he]; decide) with ⟨m, -, hm⟩ | ⟨m, hc, hneg, -⟩
    · rw [he] at hm; cases hm
    · have := (h.range m hc).1
      omega
  · intro c' he
    rcases hrun (by rw [he]; exact fun hx => by cases hx) with ⟨m, hc, hm⟩ | ⟨m, -, -, hm⟩
    · rw [he] at hm
      cases hm
      rw [Conn.upTo, h.all m hc]
    · rw [he] at hm; cases hm

/-! ## When `Write` delivers its argument -/

/-- From `2^31` bytes on, some are lost. -/
theorem not_delivers_of_long {data : Bytes} {q : Nat → Int} (hl : 2 ^ 31 ≤ data.length)
    (hc : Clean data q) (hq : Lively q) : ¬ Delivers data q := by
  intro hd
  obtain ⟨n, hn, ht⟩ := clean_returns hc hq
  have hlen := sent_length_add_le data hl
  rw [← ht, hd.all n hn] at hlen
  omega

/-- A socket that only fails. -/
theorem not_delivers_of_error (data : Bytes) (h : data ≠ []) : ¬ Delivers data fun _ => -1 := by
  intro hd
  by_cases h0 : Called data (fun _ => -1) 0
  · have h1 : trace data (fun _ => -1) 1 = ⟨-1, []⟩ := if_pos h0
    have hlt : (0 : Int) < toInt data.length := h0
    have hr := (hd.range 1 ((called_iff h1).mpr (by omega))).1
    rw [h1] at hr
    exact absurd hr (by decide)
  · exact h (hd.all 0 h0).symm

theorem not_called_nil {q : Nat → Int} : ¬ Called [] q 0 := by
  rw [Called, List.length_nil, toInt_of_lt (by decide)]
  exact Int.lt_irrefl 0

/-- **When `Write` delivers its argument.** Over all results: only if there is
nothing to write. Over all results without an error: exactly if `data` is
shorter than `2^31` bytes. Over one sequence of results: if `data` is shorter
than that and no call fails; and only then, if the socket goes on accepting
(long `data` behind an error aside). -/
theorem delivers_iff (data : Bytes) :
    ((∀ q, Delivers data q) ↔ data = []) ∧
    ((∀ q, (∀ n, 0 ≤ q n) → Delivers data q) ↔ data.length < 2 ^ 31) ∧
    ∀ q, (data.length < 2 ^ 31 ∧ Clean data q → Delivers data q) ∧
      (Lively q → data.length < 2 ^ 31 ∨ Clean data q →
        (Delivers data q ↔ data.length < 2 ^ 31 ∧ Clean data q)) := by
  refine ⟨⟨fun h => ?_, fun h q => ?_⟩,
    ⟨fun h => ?_, fun hl q hq => clean_delivers hl fun n _ => hq n⟩,
    fun q => ⟨fun h => clean_delivers h.1 h.2,
      fun hq hor => ⟨fun hd => ?_, fun h => clean_delivers h.1 h.2⟩⟩⟩
  · by_contra hne
    exact not_delivers_of_error data hne (h _)
  · subst h
    exact clean_delivers (by decide) fun n hc => absurd hc (called_of_le not_called_nil (Nat.zero_le n))
  · by_contra hl
    exact not_delivers_of_long (Nat.not_lt.mp hl) (fun _ _ => Int.one_nonneg)
      (fun n => ⟨n, Nat.le_refl n, Int.one_ne_zero⟩) (h (fun _ => 1) fun _ => Int.one_nonneg)
  · rcases hor with hl | hc
    · exact ⟨hl, hd.clean hl hq⟩
    · by_contra hl
      exact not_delivers_of_long (Nat.not_lt.mp fun h => hl ⟨h, hc⟩) hc hq hd

/-- Two bytes, sent one by one. -/
theorem delivers_iff_two : Delivers (ascii "ab") fun _ => 1 :=
  ((delivers_iff (ascii "ab")).2.2 _).1 ⟨by decide, fun _ _ => Int.one_nonneg⟩

/-- One byte, an error, and then all that is offered. -/
def failOnce : Nat → Int
  | 0 => 1
  | 1 => -1
  | _ => 2 ^ 31

/-- An error in front of the first byte: the pointer of the next call is in
front of `data`. An error behind it: it is sent twice. -/
theorem failed_resends :
    ((trace (ascii "ab") (fun _ => -1) 1).written = -1 ∧ Called (ascii "ab") (fun _ => -1) 1) ∧
    ((trace (ascii "ab") failOnce 3).taken = ascii "aab" ∧ ¬ Called (ascii "ab") failOnce 3) ∧
    ¬ ∀ data q, Delivers data q :=
  ⟨⟨by decide +kernel, by decide +kernel⟩, ⟨by decide +kernel, by decide +kernel⟩,
    fun h => not_delivers_of_error (ascii "ab") (by decide) (h _ _)⟩

end NetworksLab.L2.SocketWrapper
