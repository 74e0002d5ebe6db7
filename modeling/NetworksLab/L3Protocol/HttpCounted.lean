import NetworksLab.L3Protocol.HttpRoundTrip

/-!
# Counted reads (`individual/lib/HTTP.cpp`)

A body or a chunk is read by a count that was read before it: `SetN(n)` in one
step, and `N_` goes down in each of the next ones. `WellCounted` is what is
asked of a step: no fault, a positive count, and the end of the counted state
after so many bytes.

The counts come from a signed parser that may fail. `LengthOk` is what a step
needs, said of the texts that it reads a count from.

Results:
* `CountedPhase.ends`: a positive count is taken to its end.
* `well_counted_iff`: in the run over a text each step is well counted exactly
  when each step reads a length that is fine.
-/
namespace NetworksLab.L3.Http
open NetworksLab.Incremental

/-! ## What is asked of a step -/

section
variable {σ : Type} (consume : σ → UInt8 → Except Fault (EParseResult × σ))
variable (counter : σ → Option TNParser)

/-- The counted state that begins in `r` is left with the last of the bytes `t`,
and not before. -/
structure Ends (r : σ) (t : Bytes) : Prop where
  goesOn : ∀ u, u <+: t → u ≠ t → ∃ r', Awaits consume r u r' ∧ counter r' ≠ none
  ends : ∃ r', Completes consume r t r' ∨ (Awaits consume r t r' ∧ counter r' = none)

/-- `counter` is the parser whose `N_` counts in a state, if one does. -/
structure WellCounted (q : σ) (c : UInt8) : Prop where
  /-- no `int` is read that was not set or leaves its range, and `reserve` does not throw -/
  defined : ∃ x, consume q c = .ok x
  /-- `N_` is not negative -/
  natural : ∀ {a r k}, consume q c = .ok (a, r) → counter r = some k → ∃ n : Nat, k.n = some (n : Int)
  /-- `SetN` gets a positive number, and so many bytes follow -/
  counted : ∀ {a r k}, consume q c = .ok (a, r) → counter q = none → counter r = some k →
    ∃ n : Nat, 0 < n ∧ k.n = some (n : Int) ∧ ∀ t : Bytes, t.length = n → Ends consume counter r t

/-- Before each step: what counts has a positive count. -/
def Counting (q : σ) : Prop :=
  ∀ k, counter q = some k → ∃ n : Nat, 0 < n ∧ n < 2 ^ 31 ∧ k.n = some (n : Int)

/-- What a good step does. -/
inductive Outcome (q : σ) : EParseResult → σ → Prop
  | outside {a : EParseResult} {r : σ} : counter r = none → Outcome q a r
  | begins {r : σ} {n : Nat} : 0 < n → n < 2 ^ 31 → counter r = some ⟨some n, []⟩ →
      (∀ t : Bytes, t.length = n → Ends consume counter r t) → Outcome q .await r
  | goesOn {r : σ} {n : Nat} {s : Bytes} : counter q ≠ none → 0 < n → n < 2 ^ 31 →
      counter r = some ⟨some n, s⟩ → Outcome q .await r
  | ends {r : σ} {s : Bytes} : counter q ≠ none → counter r = some ⟨some 0, s⟩ → Outcome q .parsed r

variable {consume counter}

theorem Outcome.wellCounted {q r : σ} {c : UInt8} {a : EParseResult} (hc : consume q c = .ok (a, r))
    (h : Outcome consume counter q a r) : WellCounted consume counter q c where
  defined := ⟨_, hc⟩
  natural hc' hk := by
    rw [hc] at hc'
    cases hc'
    cases h with
    | outside hr => rw [hr] at hk; cases hk
    | begins _ _ hr _ => rw [hr] at hk; cases hk; exact ⟨_, rfl⟩
    | goesOn _ _ _ hr => rw [hr] at hk; cases hk; exact ⟨_, rfl⟩
    | ends _ hr => rw [hr] at hk; cases hk; exact ⟨0, rfl⟩
  counted hc' hq hk := by
    rw [hc] at hc'
    cases hc'
    cases h with
    | outside hr => rw [hr] at hk; cases hk
    | begins hn _ hr hends => rw [hr] at hk; cases hk; exact ⟨_, hn, rfl, hends⟩
    | goesOn hq' _ _ _ => exact absurd hq hq'
    | ends hq' _ => exact absurd hq hq'

theorem Outcome.counting {q r : σ} (h : Outcome consume counter q .await r) : Counting counter r := by
  intro k hk
  cases h with
  | outside hr => rw [hr] at hk; cases hk
  | begins hn hmax hr _ => rw [hr] at hk; cases hk; exact ⟨_, hn, hmax, rfl⟩
  | goesOn _ hn hmax hr => rw [hr] at hk; cases hk; exact ⟨_, hn, hmax, rfl⟩

/-- A phase of a parser in which bytes are counted: behind the last of them the
parser is done, or nothing counts. -/
structure CountedPhase (consume : σ → UInt8 → Except Fault (EParseResult × σ))
    (counter : σ → Option TNParser) (f : TNParser → σ)
    (g : TNParser → Except Fault (EParseResult × σ)) : Prop where
  hosts : Hosts TNParser.consume consume f g
  counts : ∀ k, counter (f k) = some k
  done : ∀ k, ∃ r, (g k = .ok (.parsed, r) ∧ counter r = some k) ∨
    (g k = .ok (.await, r) ∧ counter r = none)

section
variable {f : TNParser → σ} {g : TNParser → Except Fault (EParseResult × σ)}
variable (h : CountedPhase consume counter f g)
include h

/-- A positive count is taken to its end. -/
theorem CountedPhase.ends {t : Bytes} (hpos : 0 < t.length) (hmax : t.length < 2 ^ 31) :
    Ends consume counter (f ⟨some t.length, []⟩) t where
  goesOn u hu hne := by
    have hlt : u.length < t.length := by
      rcases Nat.lt_or_ge u.length t.length with hlt | hge
      · exact hlt
      · exact absurd (hu.eq_of_length (Nat.le_antisymm hu.length_le hge)) hne
    refine ⟨_, h.hosts.awaits (TNParser.awaits u [] t.length hlt hmax), ?_⟩
    rw [h.counts]
    exact Option.some_ne_none _
  ends := by
    have hrun := TNParser.completes (List.ne_nil_of_length_pos hpos) hmax
    obtain ⟨r, ⟨hr, -⟩ | ⟨hr, hnone⟩⟩ := h.done ⟨some 0, t⟩
    · exact ⟨r, .inl (h.hosts.last hrun hr)⟩
    · exact ⟨r, .inr ⟨h.hosts.next hrun hr, hnone⟩⟩

theorem CountedPhase.begins {q : σ} {n : Nat} (hpos : 0 < n) (hmax : n < 2 ^ 31) :
    Outcome consume counter q .await (f ⟨some n, []⟩) := by
  apply Outcome.begins hpos hmax (h.counts _)
  intro t ht
  subst ht
  exact h.ends hpos hmax

/-- One of the counted bytes. -/
theorem CountedPhase.outcome {k : TNParser} (hk : Counting counter (f k)) (c : UInt8) :
    ∃ a r, consume (f k) c = .ok (a, r) ∧ Outcome consume counter (f k) a r := by
  obtain ⟨n, s⟩ := k
  obtain ⟨n, hpos, hmax, rfl⟩ := hk _ (h.counts _)
  have hne : counter (f ⟨some n, s⟩) ≠ none := by
    rw [h.counts]
    exact Option.some_ne_none _
  have hc := TNParser.consume_pos hpos hmax s c
  by_cases h1 : n = 1
  · subst h1
    rw [if_pos rfl] at hc
    obtain ⟨r, ⟨hr, hcount⟩ | ⟨hr, hnone⟩⟩ := h.done ⟨some (0 : Nat), s ++ [c]⟩
    · exact ⟨.parsed, r, (h.hosts.parsed hc).trans hr, .ends hne hcount⟩
    · exact ⟨.await, r, (h.hosts.parsed hc).trans hr, .outside hnone⟩
  · rw [if_neg h1] at hc
    exact ⟨.await, _, h.hosts.await hc,
      .goesOn hne (Nat.sub_pos_of_lt (by omega)) (by omega) (h.counts _)⟩

end

/-- Every step of a run, when what is asked of each keeps the counts positive. -/
theorem along_wellCounted {p : σ} {b : Bytes} {ok : σ → UInt8 → Prop} (hp : Counting counter p)
    (step : ∀ {q c}, Counting counter q → ok q c →
      ∃ a r, consume q c = .ok (a, r) ∧ Outcome consume counter q a r)
    (h : Along consume p b ok) : Along consume p b (WellCounted consume counter) := by
  have hinv := h.invariant hp fun hq hok hc => by
    obtain ⟨a, r, hc', hout⟩ := step hq hok
    rw [hc] at hc'
    cases hc'
    exact hout.counting
  intro s c q hs hq
  obtain ⟨a, r, hc, hout⟩ := step (hinv s c q hs hq) (h s c q hs hq)
  exact hout.wellCounted hc

end

/-! ## Lengths -/

/-- The `Content-Length` that counts is not a negative number; it may be none. -/
def LengthNatural (headers : List THttpHeader) : Prop :=
  ∀ h v, lastLength headers = some h → intFromChars 10 h.value = .ok v → 0 ≤ v

theorem lengthNatural_iff (headers : List THttpHeader) :
    LengthNatural headers ↔ 0 ≤ dataLength (.make headers) := by
  rw [dataLength_eq, LengthNatural]
  simp only [THttpHeaders.make]
  cases lastLength headers with
  | none => simp
  | some x =>
    rw [Option.elim_some, lengthOf]
    constructor
    · intro h
      split
      · rename_i v hv
        exact h x v rfl hv
      · exact Int.le_refl 0
    · intro h y v hy hv
      cases hy
      rw [hv] at h
      exact h

/-! ## Requests -/

namespace THttpRequestParser

/-- The parser that counts. -/
def counter (p : THttpRequestParser) : Option TNParser :=
  match p.state with
  | .data => some p.dataParser
  | _ => none

/-- If the head ends, its length is not negative. -/
def LengthOk (q : THttpRequestParser) (c : UInt8) : Prop :=
  q.state = .headers → ∀ h, q.headersParser.consume c = (.parsed, h) → LengthNatural h.parsed_

theorem counted_data (p : THttpRequestParser) : CountedPhase consume counter
    (fun k => { p with dataParser := k, state := .data })
    (fun k => .ok (.parsed, { p with dataParser := k, state := .data })) :=
  ⟨hosts_data p, fun _ => rfl, fun _ => ⟨_, .inl ⟨rfl, rfl⟩⟩⟩

theorem endHead_outcome {q p : THttpRequestParser} (hs : p.state = .headers)
    (h : LengthNatural p.headersParser.parsed_) :
    ∃ a r, endHead p = .ok (a, r) ∧ Outcome consume counter q a r := by
  have h0 := (lengthNatural_iff _).mp h
  obtain ⟨n, hn⟩ := Int.eq_ofNat_of_zero_le h0
  have hmax : (n : Int) < 2 ^ 31 := hn ▸ dataLength_lt _
  rcases Nat.eq_zero_or_pos n with rfl | hpos
  · exact ⟨_, _, endHead_empty hn, .outside (by simp only [counter, hs])⟩
  · exact ⟨_, _, endHead_counted hpos hn, (counted_data p).begins hpos (by omega)⟩

/-- Step lemma. -/
theorem outcome {q : THttpRequestParser} {c : UInt8} (hq : Counting counter q) (h : LengthOk q c) :
    ∃ a r, consume q c = .ok (a, r) ∧ Outcome consume counter q a r := by
  cases hs : q.state with
  | requestLine =>
    simp only [consume, hs]
    rcases q.requestLineParser.consume c with ⟨_ | _, l⟩
    · exact ⟨_, _, rfl, .outside rfl⟩
    · exact ⟨_, _, rfl, .outside rfl⟩
  | headers =>
    simp only [consume, hs]
    rcases hc : q.headersParser.consume c with ⟨_ | _, l⟩
    · exact ⟨_, _, rfl, .outside rfl⟩
    · exact endHead_outcome rfl (h hs l hc)
  | data =>
    have hphase : q = { q with dataParser := q.dataParser, state := .data } := by rw [← hs]
    rw [hphase] at hq ⊢
    exact (counted_data q).outcome hq c

/-- A step that is well counted has read a length that is fine. -/
theorem lengthOk_of_wellCounted {q : THttpRequestParser} {c : UInt8}
    (h : WellCounted consume counter q c) : LengthOk q c := by
  intro hs l hc
  rw [lengthNatural_iff]
  obtain ⟨x, hx⟩ := h.defined
  simp only [consume, hs, hc] at hx
  obtain ⟨-, h0, -⟩ | ⟨-, hpos, -⟩ := endHead_cases hx
  · exact Int.le_of_eq h0.symm
  · exact Int.le_of_lt hpos

end THttpRequestParser

/-! ## Responses -/

namespace THttpResponseParser

/-- The parser that counts. -/
def counter (p : THttpResponseParser) : Option TNParser :=
  match p.state with
  | .data => some p.dataParser
  | .chunkData => some p.chunkParser
  | _ => none

/-- If the head ends and no chunks follow, its length is not negative; if the
line of a chunk's length ends, it has a number, at least -1, and 2 more is an `int`. -/
structure LengthOk (q : THttpResponseParser) (c : UInt8) : Prop where
  head : q.state = .headers → ∀ h, q.headersParser.consume c = (.parsed, h) →
    HasChunked h.parsed_ ∨ LengthNatural h.parsed_
  chunk : q.state = .chunkLength → ∀ l, q.chunkLengthParser.consume c = (.parsed, l) →
    ∃ v, intFromChars 16 l.parsed = .ok v ∧ -1 ≤ v ∧ v ≤ 2 ^ 31 - 3

theorem counted_data (p : THttpResponseParser) : CountedPhase consume counter
    (fun k => { p with dataParser := k, state := .data })
    (fun k => .ok (.parsed, { p with dataParser := k, state := .data })) :=
  ⟨hosts_data p, fun _ => rfl, fun _ => ⟨_, .inl ⟨rfl, rfl⟩⟩⟩

theorem counted_chunkData (p : THttpResponseParser) : CountedPhase consume counter
    (fun k => { p with chunkParser := k, state := .chunkData })
    (fun k => .ok (.await, { p with
      chunkParser := k, chunkedData := p.chunkedData ++ k.parsed, state := .chunkLength })) :=
  ⟨hosts_chunkData p, fun _ => rfl, fun _ => ⟨_, .inr ⟨rfl, rfl⟩⟩⟩

theorem endHead_outcome {q p : THttpResponseParser} (hs : p.state = .headers)
    (h : HasChunked p.headersParser.parsed_ ∨ LengthNatural p.headersParser.parsed_) :
    ∃ a r, endHead p = .ok (a, r) ∧ Outcome consume counter q a r := by
  have hiff : isChunked p.headersParser.parsed = true ↔ HasChunked p.headersParser.parsed_ :=
    isChunked_iff (THttpHeaders.make_consistent _)
  cases hc : isChunked p.headersParser.parsed with
  | true =>
    refine ⟨.await, { p with state := .chunkLength, chunked := true }, ?_, .outside rfl⟩
    simp only [endHead, hc, Bool.true_eq_false, and_false, if_false]
    rfl
  | false =>
    have hnot : ¬ HasChunked p.headersParser.parsed_ := by
      rw [← hiff, hc]
      exact Bool.false_ne_true
    have h0 := (lengthNatural_iff _).mp (h.resolve_left hnot)
    obtain ⟨n, hn⟩ := Int.eq_ofNat_of_zero_le h0
    have hmax : (n : Int) < 2 ^ 31 := hn ▸ dataLength_lt _
    rcases Nat.eq_zero_or_pos n with rfl | hpos
    · exact ⟨_, _, endHead_empty hc hn, .outside (by simp only [counter, hs])⟩
    · exact ⟨_, _, endHead_counted hpos hc hn, (counted_data p).begins hpos (by omega)⟩

theorem endChunkLength_outcome {q p : THttpResponseParser} (hs : p.state = .chunkLength) {v : Int}
    (hv : intFromChars 16 p.chunkLengthParser.parsed = .ok v) (hmin : -1 ≤ v) (hmax : v ≤ 2 ^ 31 - 3) :
    ∃ a r, endChunkLength p = .ok (a, r) ∧ Outcome consume counter q a r := by
  by_cases h0 : v = 0
  · subst h0
    refine ⟨.parsed, p, ?_, .outside (by simp only [counter, hs])⟩
    simp only [endChunkLength, hv, if_true]
    rfl
  · obtain ⟨n, hn⟩ := Int.eq_ofNat_of_zero_le (a := v + 2) (by omega)
    have hover : ¬ Int32.maxValue.toInt < (n : Int) := by
      rw [int32_max]
      omega
    have hneg : ¬ (n : Int) < 0 := by omega
    refine ⟨_, _, ?_,
      (counted_chunkData { p with chunkLengthParser := p.chunkLengthParser.reset }).begins (n := n)
        (by omega) (by omega)⟩
    simp only [endChunkLength, hv, if_neg h0, hn, if_neg hover, TNParser.setN, if_neg hneg]
    rfl

/-- Step lemma. -/
theorem outcome {q : THttpResponseParser} {c : UInt8} (hq : Counting counter q) (h : LengthOk q c) :
    ∃ a r, consume q c = .ok (a, r) ∧ Outcome consume counter q a r := by
  cases hs : q.state with
  | responseLine =>
    simp only [consume, hs]
    rcases q.responseStatusLineParser.consume c with ⟨_ | _, l⟩
    · exact ⟨_, _, rfl, .outside rfl⟩
    · exact ⟨_, _, rfl, .outside rfl⟩
  | headers =>
    simp only [consume, hs]
    rcases hc : q.headersParser.consume c with ⟨_ | _, l⟩
    · exact ⟨_, _, rfl, .outside rfl⟩
    · exact endHead_outcome rfl (h.head hs l hc)
  | data =>
    have hphase : q = { q with dataParser := q.dataParser, state := .data } := by rw [← hs]
    rw [hphase] at hq ⊢
    exact (counted_data q).outcome hq c
  | chunkLength =>
    simp only [consume, hs]
    rcases hc : q.chunkLengthParser.consume c with ⟨_ | _, l⟩
    · exact ⟨_, _, rfl, .outside rfl⟩
    · obtain ⟨v, hv, hmin, hmax⟩ := h.chunk hs l hc
      exact endChunkLength_outcome rfl hv hmin hmax
  | chunkData =>
    have hphase : q = { q with chunkParser := q.chunkParser, state := .chunkData } := by rw [← hs]
    rw [hphase] at hq ⊢
    exact (counted_chunkData q).outcome hq c

/-- A step that is well counted has read a length that is fine. -/
theorem lengthOk_of_wellCounted {q : THttpResponseParser} {c : UInt8}
    (h : WellCounted consume counter q c) : LengthOk q c := by
  obtain ⟨⟨a, r⟩, hx⟩ := h.defined
  constructor
  · intro hs l hc
    have hiff : isChunked l.parsed = true ↔ HasChunked l.parsed_ :=
      isChunked_iff (THttpHeaders.make_consistent _)
    rw [lengthNatural_iff, ← hiff]
    simp only [consume, hs, hc] at hx
    obtain ⟨-, h0, -⟩ | ⟨-, -, hpos, -⟩ | ⟨-, hchunked, -⟩ := endHead_cases hx
    · exact .inr (Int.le_of_eq h0.symm)
    · exact .inr (Int.le_of_lt hpos)
    · exact .inl hchunked
  · intro hs l hc
    have hstep : consume q c = endChunkLength { q with chunkLengthParser := l } := by
      simp only [consume, hs, hc]
    obtain ⟨v, hv, ⟨-, h0, -⟩ | ⟨-, -, -, hmax, hr⟩⟩ := endChunkLength_cases (hstep ▸ hx)
    · exact ⟨v, hv, by omega, by omega⟩
    · obtain ⟨n, hpos, hn, -⟩ := h.counted hx (by simp only [counter, hs]) (by rw [hr]; rfl)
      rw [int32_max] at hmax
      have hn' : v + 2 = n := Option.some.inj hn
      exact ⟨v, hv, by omega, by omega⟩

end THttpResponseParser

/-- **When counted reads are well defined.** In the run of a new parser over any
text, each step is well counted exactly when each step that reads a length reads
one that is fine. -/
theorem well_counted_iff (b : Bytes) :
    (Along THttpRequestParser.consume .make b
        (WellCounted THttpRequestParser.consume THttpRequestParser.counter) ↔
      Along THttpRequestParser.consume .make b THttpRequestParser.LengthOk) ∧
    (Along THttpResponseParser.consume .make b
        (WellCounted THttpResponseParser.consume THttpResponseParser.counter) ↔
      Along THttpResponseParser.consume .make b THttpResponseParser.LengthOk) := by
  have hnone {σ : Type} {counter : σ → Option TNParser} {q : σ} (h : counter q = none) :
      Counting counter q := fun k hk => by rw [h] at hk; cases hk
  refine ⟨⟨fun h s c q hs hq => ?_, ?_⟩, ⟨fun h s c q hs hq => ?_, ?_⟩⟩
  · exact THttpRequestParser.lengthOk_of_wellCounted (h s c q hs hq)
  · exact along_wellCounted (hnone rfl) THttpRequestParser.outcome
  · exact THttpResponseParser.lengthOk_of_wellCounted (h s c q hs hq)
  · exact along_wellCounted (hnone rfl) THttpResponseParser.outcome

/-- A length of -1. -/
def negativeText : Bytes := ascii "GET / HTTP/1.1\r\nContent-Length: -1\r\n\r\n"

/-- The parser in front of its last byte. -/
def negativeParser : THttpRequestParser :=
  ⟨⟨⟨[SP], ascii "GET"⟩, ⟨[SP], ascii "/"⟩, ⟨CRLF, ascii "HTTP/1.1"⟩, .httpVersion⟩,
    ⟨⟨CRLF, [CR]⟩, [⟨contentLength, ascii "-1"⟩]⟩, .make, .headers⟩

/-- A chunk length without a digit. -/
def digitlessText : Bytes := ascii "HTTP/1.1 200 OK\r\nTransfer-Encoding: chunked\r\n\r\nxy\r\n"

/-- The parser in front of its last byte. -/
def digitlessParser : THttpResponseParser :=
  ⟨⟨⟨[SP], ascii "HTTP/1.1"⟩, ⟨[SP], ascii "200"⟩, ⟨CRLF, ascii "OK"⟩, .reason⟩,
    ⟨⟨CRLF, []⟩, [⟨transferEncoding, ascii "chunked"⟩]⟩, .make, true, ⟨CRLF, ascii "xy\r"⟩, .make, [],
    .chunkLength⟩

theorem not_along_of_fault {σ : Type} {consume : σ → UInt8 → Except Fault (EParseResult × σ)}
    {counter : σ → Option TNParser} {p q : σ} {b s : Bytes} {c : UInt8} {e : Fault} (hb : b = s ++ [c])
    (hrun : Awaits consume p s q) (he : consume q c = .error e) :
    ¬ Along consume p b (WellCounted consume counter) := by
  intro h
  obtain ⟨x, hx⟩ := (h s c q (hb ▸ List.prefix_rfl) hrun).defined
  rw [he] at hx
  cases hx

/-- `reserve` throws for the one, and for the other the length is not set. -/
theorem length_faults :
    ¬ Along THttpRequestParser.consume .make negativeText
        (WellCounted THttpRequestParser.consume THttpRequestParser.counter) ∧
      ¬ Along THttpResponseParser.consume .make digitlessText
        (WellCounted THttpResponseParser.consume THttpResponseParser.counter) := by
  have hnegative : Awaits THttpRequestParser.consume .make negativeText.dropLast negativeParser :=
    awaits_of_feed (by decide +kernel)
  have hdigitless : Awaits THttpResponseParser.consume .make digitlessText.dropLast digitlessParser :=
    awaits_of_feed (by decide +kernel)
  have hthrows : negativeParser.consume LF = .error .lengthError := by decide +kernel
  have hunset : digitlessParser.consume LF = .error .uninitialised := by decide +kernel
  exact ⟨not_along_of_fault (by decide) hnegative hthrows,
    not_along_of_fault (by decide) hdigitless hunset⟩

end NetworksLab.L3.Http
