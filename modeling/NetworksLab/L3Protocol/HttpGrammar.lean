import NetworksLab.L3Protocol.HttpRequestParser

/-!
# What the HTTP parsers accept (`individual/lib/HTTP.cpp`)

A message is a head and a body. The head is a first line of three fields, header
lines that are not empty, and the empty line. From a run that a parser completes
these can be read off, phase by phase (`Incremental.Hosts.completes`): nothing
is lost on the way, and what the parser has kept is what was there.

A header line needs no `: `; without one it is a key (`parseHeader_eq`).

Results:
* `THttpRequestParser.accepted`, `THttpResponseParser.accepted`: the text that a
  parser has completed, and the message it made of it.
* `headerLines_eq`: the header lines can be found in the text without a parser.
-/
namespace NetworksLab.L3.Http
open NetworksLab.Incremental
open NetworksLab.Numeral (decimal)

/-! ## The parsers inside -/

/-- What a field parser has seen without its delimiter. -/
theorem TUntilParser.awaited {d u : Bytes} : ∀ {s : Bytes} {r : TUntilParser},
    Awaits (ε := Fault) (total TUntilParser.consume) ⟨d, s⟩ u r →
    r = ⟨d, s ++ u⟩ ∧ ∀ v, v <+: u → v ≠ [] → ¬ d <:+ s ++ v := by
  induction u with
  | nil =>
    intro s r h
    cases h
    exact ⟨by rw [List.append_nil], fun v hv hne => absurd (List.prefix_nil.mp hv) hne⟩
  | cons c u ih =>
    intro s r h
    cases h with
    | cons hc h =>
      rw [total_eq_ok, consume] at hc
      split at hc
      · cases hc
      · rename_i hend
        obtain rfl := (Prod.mk.inj hc).2
        obtain ⟨hr, hv⟩ := ih h
        refine ⟨by rw [hr, List.append_assoc]; rfl, fun v hpre hne => ?_⟩
        obtain ⟨x, v, rfl⟩ := List.exists_cons_of_ne_nil hne
        obtain ⟨rfl, htail⟩ := List.cons_prefix_cons.mp hpre
        by_cases hv0 : v = []
        · rw [hv0, ← endsWith_iff]
          exact hend
        · have := hv v htail hv0
          rwa [List.append_assoc] at this

theorem TUntilParser.accepted {d s : Bytes} {q : TUntilParser} (hd : d ≠ [])
    (h : Completes (ε := Fault) (total TUntilParser.consume) (.make d) s q) :
    ∃ f, s = f ++ d ∧ Fresh d f ∧ q = ⟨d, f⟩ := by
  obtain ⟨u, c, r, rfl, hu, hc⟩ := h
  obtain ⟨rfl, hnot⟩ := awaited hu
  rw [total_eq_ok, consume] at hc
  split at hc
  · rename_i hend
    obtain ⟨f, hf⟩ := (endsWith_iff _ _).mp hend
    obtain rfl := (Prod.mk.inj hc).2
    simp only [List.nil_append] at hf hnot
    refine ⟨f, hf.symm, fun s hs hsuf => ?_, ?_⟩
    · rw [hf] at hs ⊢
      rcases List.prefix_concat_iff.mp hs with h | h
      · exact h
      · refine absurd hsuf (hnot s h fun h0 => hd ?_)
        rw [h0] at hsuf
        exact List.suffix_nil.mp hsuf
    · rw [List.nil_append, ← hf, List.length_append, Nat.add_sub_cancel, List.take_left' rfl]
  · cases hc

/-- A counted field takes a positive count of bytes. -/
theorem TNParser.accepted : ∀ {s t : Bytes} {n : Int} {q : TNParser},
    Completes TNParser.consume ⟨some n, t⟩ s q → (s.length : Int) = n ∧ q = ⟨some 0, t ++ s⟩
  | [], _, _, _, h => absurd rfl h.ne_nil
  | c :: s, t, n, q, h => by
    have hhead := h.uncons
    simp only [consume] at hhead
    split at hhead
    · rcases hhead with ⟨-, hc⟩ | ⟨_, hc, -⟩ <;> cases hc
    · rcases hhead with ⟨rfl, hc⟩ | ⟨q', hc, h'⟩
      · obtain ⟨hans, rfl⟩ := Prod.mk.inj (Except.ok.inj hc)
        split at hans
        · rename_i h1
          exact ⟨by simp only [List.length_singleton]; omega, by rw [h1]⟩
        · cases hans
      · obtain ⟨-, rfl⟩ := Prod.mk.inj (Except.ok.inj hc)
        obtain ⟨hlen, rfl⟩ := TNParser.accepted h'
        refine ⟨by rw [List.length_cons]; omega, ?_⟩
        rw [List.append_assoc]
        rfl

theorem sp_not_mem {f : Bytes} (h : Fresh [SP] f) : SP ∉ f := by
  intro hm
  obtain ⟨a, b, rfl⟩ := List.append_of_mem hm
  exact h.not_infix (List.cons_ne_nil _ _) ⟨a, b, by simp⟩

/-! ## The first line -/

open THttpResponseStatusLineParser in
theorem statusLine_accepted {s : Bytes} {q : THttpResponseStatusLineParser}
    (h : Completes (ε := Fault) (total consume) make s q) :
    q.parsed.Fine ∧ s = q.parsed.serialize ++ CRLF := by
  have hne : [SP] ≠ ([] : Bytes) := List.cons_ne_nil _ _
  obtain ⟨s₁, t₁, a, rfl, ha, ⟨-, hg⟩ | ⟨_, hg, h⟩⟩ := (hosts_httpVersion _ _).completes h
  · cases hg
  cases hg
  obtain ⟨s₂, t₂, b, rfl, hb, ⟨-, hg⟩ | ⟨_, hg, h⟩⟩ := (hosts_statusCode _ _).completes h
  · cases hg
  cases hg
  obtain ⟨s₃, t₃, c, rfl, hc, ⟨rfl, hg⟩ | ⟨_, hg, -⟩⟩ := (hosts_reason _ _).completes h
  · cases hg
    obtain ⟨f, rfl, hf, rfl⟩ := TUntilParser.accepted hne ha
    obtain ⟨g, rfl, hg, rfl⟩ := TUntilParser.accepted hne hb
    obtain ⟨e, rfl, he, rfl⟩ := TUntilParser.accepted crlf_ne_nil hc
    refine ⟨⟨sp_not_mem hf, sp_not_mem hg, he.not_infix crlf_ne_nil⟩, ?_⟩
    simp only [parsed, THttpResponseStatusLine.serialize, List.append_assoc, List.append_nil]
  · cases hg

open THttpRequestLineParser in
theorem requestLine_accepted {s : Bytes} {q : THttpRequestLineParser}
    (h : Completes (ε := Fault) (total consume) make s q) :
    q.parsed.Fine ∧ s = q.parsed.serialize ++ CRLF := by
  obtain ⟨hf, hs⟩ := statusLine_accepted (hosts_asStatusLine.last h rfl)
  exact ⟨⟨hf.httpVersion, hf.statusCode, hf.reason⟩, hs⟩

/-! ## Header lines -/

/-- A line of the head that is not the end of it. -/
def HeaderLine (x : Bytes) : Prop := x ≠ [] ∧ ¬ CRLF <:+: x

/-- Lines and the empty line behind them. -/
def linesText (lines : List Bytes) : Bytes := (lines.flatMap fun x => x ++ CRLF) ++ CRLF

open THttpHeadersParser in
/-- By induction on the length of the text: behind each line the parser starts anew. -/
theorem headers_accepted (n : Nat) : ∀ {s : Bytes} {acc : List THttpHeader} {q : THttpHeadersParser},
    s.length ≤ n → Completes (ε := Fault) (total consume) ⟨.make CRLF, acc⟩ s q →
    ∃ lines, (∀ x ∈ lines, HeaderLine x) ∧ s = linesText lines ∧
      q.parsed_ = acc ++ lines.map parseHeader := by
  induction n with
  | zero =>
    intro s acc q hn h
    exact absurd (List.eq_nil_of_length_eq_zero (Nat.le_zero.mp hn)) h.ne_nil
  | succ n ih =>
    intro s acc q hn h
    obtain ⟨s₁, s₂, r, rfl, hr, hend⟩ := (hosts_line acc).completes h
    obtain ⟨f, rfl, hf, rfl⟩ := TUntilParser.accepted crlf_ne_nil hr
    by_cases hf0 : f = []
    · subst hf0
      rcases hend with ⟨rfl, hg⟩ | ⟨_, hg, -⟩
      · cases hg
        exact ⟨[], fun _ hx => absurd hx List.not_mem_nil, List.append_nil _, (List.append_nil acc).symm⟩
      · cases hg
    · rw [if_neg hf0] at hend
      rcases hend with ⟨-, hg⟩ | ⟨_, hg, h'⟩
      · cases hg
      · cases hg
        have hlen : s₂.length ≤ n := by
          have hpos := List.length_pos_of_ne_nil hf0
          rw [List.length_append, List.length_append] at hn
          omega
        obtain ⟨lines, hlines, rfl, hq⟩ := ih hlen h'
        refine ⟨f :: lines, ?_, ?_, ?_⟩
        · intro x hx
          rcases List.mem_cons.mp hx with rfl | hx
          · exact ⟨hf0, hf.not_infix crlf_ne_nil⟩
          · exact hlines x hx
        · simp only [linesText, List.flatMap_cons, List.append_assoc]
        · rw [hq, List.append_assoc]
          rfl

/-- The separator of key and value. -/
def SEP : Bytes := [COLON, SP]

theorem sep_ne_nil : SEP ≠ [] := List.cons_ne_nil _ _

theorem parseHeaderLoop_awaits {key key' : TUntilParser} {s : Bytes}
    (h : Awaits (ε := Fault) (total TUntilParser.consume) key s key') :
    parseHeaderLoop s key = ⟨key'.parsed, []⟩ := by
  induction h with
  | nil => rfl
  | cons hc _ ih =>
    rw [total_eq_ok] at hc
    rw [parseHeaderLoop, hc]
    exact ih

/-- A line is a key alone, or a key and a value. -/
theorem parseHeader_eq (x : Bytes) :
    (¬ SEP <:+: x ∧ parseHeader x = ⟨x, []⟩) ∨
      ∃ key value, ¬ SEP <:+: key ∧ x = key ++ SEP ++ value ∧ parseHeader x = ⟨key, value⟩ := by
  by_cases h : SEP <:+: x
  · obtain ⟨key, value, rfl, hf⟩ := exists_fresh sep_ne_nil h
    exact .inr ⟨key, value, hf.not_infix sep_ne_nil, rfl,
      parseHeaderLoop_completes (TUntilParser.completes sep_ne_nil hf)⟩
  · have hrun := TUntilParser.awaits (fresh_pair (by decide) h) x [] SEP sep_ne_nil rfl
    exact .inl ⟨h, parseHeaderLoop_awaits hrun⟩

/-- What a line is parsed to can be a header of its own. -/
theorem parseHeader_fine {x : Bytes} (h : HeaderLine x) : (parseHeader x).Fine := by
  rcases parseHeader_eq x with ⟨hsep, hx⟩ | ⟨key, value, hkey, hx, hp⟩
  · rw [hx]
    exact ⟨hsep, h.2, fun hv => crlf_ne_nil (List.infix_nil.mp hv)⟩
  · rw [hp]
    refine ⟨hkey, fun hk => h.2 (hk.trans ?_), fun hv => h.2 (hv.trans ?_)⟩
    · rw [hx, List.append_assoc]
      exact (List.prefix_append _ _).isInfix
    · rw [hx]
      exact (List.suffix_append _ _).isInfix

/-- A line that is parsed and written again gains a separator if it has none. -/
theorem serialize_parseHeader (x : Bytes) :
    (parseHeader x).serialize = if SEP <:+: x then x else x ++ SEP := by
  rcases parseHeader_eq x with ⟨hsep, hx⟩ | ⟨key, value, -, hx, hp⟩
  · rw [hx, if_neg hsep]
    exact List.append_nil _
  · rw [hp, if_pos ⟨key, value, hx.symm⟩, hx]
    rfl

/-! ## Messages -/

/-- The text of a message behind its first line. -/
def messageText (first : Bytes) (lines : List Bytes) (body : Bytes) : Bytes :=
  first ++ CRLF ++ linesText lines ++ body

/-- What a request parser has completed. -/
structure THttpRequest.Text (r : THttpRequest) (lines : List Bytes) (b : Bytes) : Prop where
  line : r.requestLine.Fine
  headerLine : ∀ x ∈ lines, HeaderLine x
  text : b = messageText r.requestLine.serialize lines r.data
  headers : r.headers = .make (lines.map parseHeader)
  length : dataLength r.headers = r.data.length

/-- What a response parser has completed; a body that came in chunks is not
there as it came. -/
structure THttpResponse.Text (r : THttpResponse) (lines : List Bytes) (b : Bytes) : Prop where
  line : r.statusLine.Fine
  headerLine : ∀ x ∈ lines, HeaderLine x
  text : b = messageText r.statusLine.serialize lines r.data
  headers : r.headers = .make (lines.map parseHeader)
  plain : isChunked r.headers = false
  length : dataLength r.headers = r.data.length

theorem TNParser.setN_ok {n : Int} {q : TNParser} (h : setN n = .ok q) : 0 ≤ n ∧ q = ⟨some n, []⟩ := by
  unfold setN at h
  split at h
  · cases h
  · rename_i hn
    cases h
    exact ⟨by omega, rfl⟩

open THttpRequestParser in
theorem THttpRequestParser.endHead_cases {p q : THttpRequestParser} {a : EParseResult}
    (h : endHead p = .ok (a, q)) :
    (a = .parsed ∧ dataLength p.headersParser.parsed = 0 ∧ q = p) ∨
    (a = .await ∧ 0 < dataLength p.headersParser.parsed ∧ q = { p with
      state := .data, dataParser := ⟨some (dataLength p.headersParser.parsed), []⟩ }) := by
  unfold endHead at h
  dsimp only at h
  split at h
  · rename_i h0
    cases h
    exact .inl ⟨rfl, h0, rfl⟩
  · rename_i h0
    obtain ⟨d, hd, h⟩ := bind_ok h
    obtain ⟨hge, rfl⟩ := TNParser.setN_ok hd
    cases h
    exact .inr ⟨rfl, by omega, rfl⟩

open THttpRequestParser in
theorem THttpRequestParser.accepted {b : Bytes} {p : THttpRequestParser}
    (h : Completes consume make b p) : ∃ lines, p.parsed.Text lines b := by
  obtain ⟨s₁, t₁, l, rfl, hl, ⟨-, hg⟩ | ⟨_, hg, h₁⟩⟩ := (hosts_requestLine make).completes h
  · cases hg
  cases hg
  obtain ⟨hline, rfl⟩ := requestLine_accepted hl
  obtain ⟨s₂, t₂, hs, rfl, hh, hend⟩ :=
    (hosts_headers ⟨l, .make, .make, .headers⟩).completes h₁
  obtain ⟨lines, hlines, rfl, hparsed⟩ := headers_accepted _ (Nat.le_refl _) hh
  rw [List.nil_append] at hparsed
  refine ⟨lines, ?_⟩
  rcases hend with ⟨rfl, hg⟩ | ⟨r, hg, h₂⟩
  · rcases endHead_cases hg with ⟨-, h0, rfl⟩ | ⟨ha, -⟩
    · exact ⟨hline, hlines, by simp [messageText, parsed, TNParser.make],
        congrArg THttpHeaders.make hparsed, h0⟩
    · cases ha
  · rcases endHead_cases hg with ⟨ha, -⟩ | ⟨-, -, rfl⟩
    · cases ha
    · obtain ⟨s₃, t₃, d, rfl, hd, ⟨rfl, hg⟩ | ⟨_, hg, -⟩⟩ := (hosts_data _).completes h₂
      · cases hg
        obtain ⟨hlen, rfl⟩ := TNParser.accepted hd
        exact ⟨hline, hlines, by simp [messageText, parsed],
          congrArg THttpHeaders.make hparsed, hlen.symm⟩
      · cases hg

/-! ## Responses -/

namespace THttpResponseParser

theorem endHead_cases {p q : THttpResponseParser} {a : EParseResult} (h : endHead p = .ok (a, q)) :
    (a = .parsed ∧ dataLength p.headersParser.parsed = 0 ∧
      isChunked p.headersParser.parsed = false ∧ q = p) ∨
    (a = .await ∧ isChunked p.headersParser.parsed = false ∧
      0 < dataLength p.headersParser.parsed ∧ q = { p with
        state := .data, dataParser := ⟨some (dataLength p.headersParser.parsed), []⟩ }) ∨
    (a = .await ∧ isChunked p.headersParser.parsed = true ∧
      q = { p with state := .chunkLength, chunked := true }) := by
  unfold endHead at h
  dsimp only at h
  split at h
  · rename_i h0
    cases h
    exact .inl ⟨rfl, h0.1, h0.2, rfl⟩
  · rename_i h0
    split at h
    · rename_i hplain
      obtain ⟨d, hd, h⟩ := bind_ok h
      obtain ⟨hge, rfl⟩ := TNParser.setN_ok hd
      cases h
      have hne : dataLength p.headersParser.parsed ≠ 0 := fun h => h0 ⟨h, hplain⟩
      exact .inr (.inl ⟨rfl, hplain, by omega, rfl⟩)
    · rename_i hchunked
      cases h
      exact .inr (.inr ⟨rfl, by simpa using hchunked, rfl⟩)

theorem endChunkLength_cases {p q : THttpResponseParser} {a : EParseResult}
    (h : endChunkLength p = .ok (a, q)) :
    ∃ length, intFromChars 16 p.chunkLengthParser.parsed = .ok length ∧
      ((a = .parsed ∧ length = 0 ∧ q = p) ∨
        (a = .await ∧ length ≠ 0 ∧ 0 ≤ length + 2 ∧ length + 2 ≤ Int32.maxValue.toInt ∧ q = { p with
          state := .chunkData, chunkParser := ⟨some (length + 2), []⟩
          chunkLengthParser := p.chunkLengthParser.reset })) := by
  unfold endChunkLength at h
  split at h
  · cases h
  · rename_i length hlength
    refine ⟨length, hlength, ?_⟩
    split at h
    · rename_i h0
      cases h
      exact .inl ⟨rfl, h0, rfl⟩
    · rename_i h0
      split at h
      · cases h
      · rename_i hmax
        obtain ⟨n, hn, h⟩ := bind_ok h
        obtain ⟨hpos, rfl⟩ := TNParser.setN_ok hn
        cases h
        exact .inr ⟨rfl, h0, hpos, by omega, rfl⟩

/-- The head and the kind of a message stay while its chunks are read. -/
structure InChunks (p q : THttpResponseParser) : Prop where
  state : q.state = .chunkLength ∨ q.state = .chunkData
  line : q.responseStatusLineParser = p.responseStatusLineParser
  headers : q.headersParser = p.headersParser
  chunked : q.chunked = p.chunked

/-- Step lemma. -/
theorem InChunks.step {p q r : THttpResponseParser} (h : InChunks p q) {c : UInt8} {a : EParseResult}
    (hc : consume q c = .ok (a, r)) : InChunks p r := by
  have hkeep (s : EResponse) (hs : s = .chunkLength ∨ s = .chunkData) (l : TUntilParser) (n : TNParser)
      (d : Bytes) : InChunks p { q with
        state := s, chunkLengthParser := l, chunkParser := n, chunkedData := d } :=
    ⟨hs, h.line, h.headers, h.chunked⟩
  rcases h.state with hs | hs
  · simp only [consume, hs] at hc
    split at hc
    · obtain ⟨length, -, ⟨-, -, rfl⟩ | ⟨-, -, -, -, rfl⟩⟩ := endChunkLength_cases hc
      · exact hkeep _ (.inl rfl) _ _ _
      · exact hkeep _ (.inr rfl) _ _ _
    · cases hc
      exact hkeep _ (.inl rfl) _ _ _
  · simp only [consume, hs] at hc
    obtain ⟨⟨_ | _, n⟩, -, hc⟩ := bind_ok hc
    · cases hc
      exact hkeep _ (.inr rfl) _ _ _
    · cases hc
      exact hkeep _ (.inl rfl) _ _ _

/-- Run lemma. -/
theorem InChunks.completes {p : THttpResponseParser} : ∀ {s : Bytes} {q r : THttpResponseParser},
    InChunks p q → Completes consume q s r → InChunks p r
  | [], _, _, _, hc => absurd rfl hc.ne_nil
  | c :: s, q, r, h, hc => by
    rcases hc.uncons with ⟨-, hc⟩ | ⟨q', hc, hrest⟩
    · exact h.step hc
    · exact (h.step hc).completes hrest

/-- The message of a chunked response, whatever its chunks were. -/
theorem parsed_chunked {p : THttpResponseParser} (h : p.chunked = true) :
    p.parsed = ⟨p.responseStatusLineParser.parsed,
      ((THttpHeaders.make p.headersParser.parsed_).update
        ⟨contentLength, decimal p.chunkedData.length⟩).remove transferEncoding, p.chunkedData⟩ := by
  simp only [parsed, h, if_true, THttpResponse.updateContentLength]
  rfl

/-- A response is read off from its text; of a chunked one that holds for the head. -/
theorem accepted {b : Bytes} {p : THttpResponseParser} (h : Completes consume make b p) :
    ∃ lines, (∀ x ∈ lines, HeaderLine x) ∧ p.headersParser.parsed_ = lines.map parseHeader ∧
      p.parsed.statusLine.Fine ∧ (p.chunked = false → p.parsed.Text lines b) := by
  obtain ⟨s₁, t₁, l, rfl, hl, ⟨-, hg⟩ | ⟨_, hg, h₁⟩⟩ := (hosts_responseLine make).completes h
  · cases hg
  cases hg
  obtain ⟨hline, rfl⟩ := statusLine_accepted hl
  obtain ⟨s₂, t₂, hs, rfl, hh, hend⟩ :=
    (hosts_headers { make with responseStatusLineParser := l, state := .headers }).completes h₁
  obtain ⟨lines, hlines, rfl, hparsed⟩ := headers_accepted _ (Nat.le_refl _) hh
  rw [List.nil_append] at hparsed
  refine ⟨lines, hlines, ?_⟩
  rcases hend with ⟨rfl, hg⟩ | ⟨r, hg, h₂⟩
  · rcases endHead_cases hg with ⟨-, h0, hplain, rfl⟩ | ⟨ha, -⟩ | ⟨ha, -⟩
    · exact ⟨hparsed, hline, fun _ => ⟨hline, hlines, by simp [messageText, parsed, make, TNParser.make],
        congrArg THttpHeaders.make hparsed, hplain, h0⟩⟩
    · cases ha
    · cases ha
  · rcases endHead_cases hg with ⟨ha, -⟩ | ⟨-, hplain, -, rfl⟩ | ⟨-, -, rfl⟩
    · cases ha
    · obtain ⟨s₃, t₃, d, rfl, hd, ⟨rfl, hg⟩ | ⟨_, hg, -⟩⟩ := (hosts_data _).completes h₂
      · cases hg
        obtain ⟨hlen, rfl⟩ := TNParser.accepted hd
        exact ⟨hparsed, hline, fun _ => ⟨hline, hlines, by simp [messageText, parsed, make],
          congrArg THttpHeaders.make hparsed, hplain, hlen.symm⟩⟩
      · cases hg
    · have hin : InChunks _ p := InChunks.completes ⟨.inl rfl, rfl, rfl, rfl⟩ h₂
      have hchunked : p.chunked = true := hin.chunked
      rw [parsed_chunked hchunked, hin.line, hin.headers]
      exact ⟨hparsed, hline, fun hfalse => by rw [hchunked] at hfalse; cases hfalse⟩

end THttpResponseParser

/-! ## The header lines in a text -/

/-- The lines in front of the first empty one; the number bounds how many. -/
def linesUpTo : Nat → Bytes → List Bytes
  | 0, _ => []
  | n + 1, s =>
    match cut CRLF s with
    | none => []
    | some (x, t) => if x = [] then [] else x :: linesUpTo n t

/-- What is behind the first `d`. -/
def behind (d s : Bytes) : Bytes :=
  match cut d s with
  | none => []
  | some (_, t) => t

/-- The lines between the first line and the first empty one. The first two
fields of the first line end at a space, wherever that is. -/
def headerLines (b : Bytes) : List Bytes :=
  linesUpTo b.length (behind CRLF (behind [SP] (behind [SP] b)))

theorem behind_fresh {d f : Bytes} (hd : d ≠ []) (hf : Fresh d f) (t : Bytes) :
    behind d (f ++ d ++ t) = t := by
  rw [behind, cut_fresh hd hf]

theorem linesUpTo_linesText : ∀ {lines : List Bytes} {n : Nat} (body : Bytes),
    (∀ x ∈ lines, HeaderLine x) → lines.length < n → linesUpTo n (linesText lines ++ body) = lines
  | _, 0, _, _, hn => absurd hn (Nat.not_lt_zero _)
  | [], n + 1, body, _, _ => by
    have hcut := cut_fresh crlf_ne_nil (fresh_nil CRLF) body
    simp only [linesText, List.flatMap_nil, linesUpTo, hcut, if_true]
  | x :: lines, n + 1, body, hlines, hn => by
    have hx := hlines x List.mem_cons_self
    have hrest := linesUpTo_linesText body (fun y hy => hlines y (List.mem_cons_of_mem x hy))
      (Nat.lt_of_succ_lt_succ hn)
    have hcut := cut_fresh crlf_ne_nil (fresh_crlf hx.2) (linesText lines ++ body)
    have htext : linesText (x :: lines) ++ body = x ++ CRLF ++ (linesText lines ++ body) := by
      simp only [linesText, List.flatMap_cons, List.append_assoc]
    rw [htext, linesUpTo, hcut]
    simp only [if_neg hx.1, hrest]

theorem length_lt_linesText (lines : List Bytes) : lines.length < (linesText lines).length := by
  induction lines with
  | nil => decide
  | cons x lines ih =>
    simp only [linesText, List.flatMap_cons, List.append_assoc, List.length_cons,
      List.length_append] at ih ⊢
    have hcrlf : CRLF.length = 2 := rfl
    omega

/-- The header lines of a message are found in its text. -/
theorem headerLines_eq {l : THttpResponseStatusLine} (hl : l.Fine) {lines : List Bytes}
    (hlines : ∀ x ∈ lines, HeaderLine x) (body : Bytes) :
    headerLines (messageText l.serialize lines body) = lines := by
  have hne : [SP] ≠ ([] : Bytes) := List.cons_ne_nil _ _
  have htext : messageText l.serialize lines body = l.httpVersion ++ [SP] ++
      (l.statusCode ++ [SP] ++ (l.reason ++ CRLF ++ (linesText lines ++ body))) := by
    simp only [messageText, THttpResponseStatusLine.serialize, List.append_assoc]
  have hlen : lines.length < (messageText l.serialize lines body).length := by
    have := length_lt_linesText lines
    simp only [messageText, List.length_append]
    omega
  rw [headerLines]
  rw [htext] at hlen ⊢
  rw [behind_fresh hne (fresh_singleton hl.httpVersion), behind_fresh hne (fresh_singleton hl.statusCode),
    behind_fresh crlf_ne_nil (fresh_crlf hl.reason)]
  exact linesUpTo_linesText body hlines hlen

theorem THttpRequest.Text.found {r : THttpRequest} {lines : List Bytes} {b : Bytes}
    (h : r.Text lines b) : headerLines b = lines := by
  rw [h.text]
  exact headerLines_eq h.line.asStatusLine h.headerLine r.data

theorem THttpResponse.Text.found {r : THttpResponse} {lines : List Bytes} {b : Bytes}
    (h : r.Text lines b) : headerLines b = lines := by
  rw [h.text]
  exact headerLines_eq h.line h.headerLine r.data

end NetworksLab.L3.Http
