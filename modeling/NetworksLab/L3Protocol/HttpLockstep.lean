import Mathlib.Data.List.Forall2
import NetworksLab.Core.Lockstep
import NetworksLab.L3Protocol.HttpGrammar

/-!
# Streams with other header names (`individual/lib/HTTP.cpp`)

The code compares header names with a few names of its own, byte by byte. Two
headers are the `Same` for it if they have one value, and their names are both
one of those or both none of them; whatever is done with a name of these is done
alike to `Similar` header lists.

Results:
* `THttpRequestParser.keeps`, `THttpResponseParser.keeps`: the parsers run in
  lockstep if their headers are the same.
* `requests_sameEnd`, `responses_sameEnd`: so they do on streams that differ only
  in the case of header names, if these are the same.
* `recased_refl`: every stream is one of header lines, as the parsers read it.
-/
namespace NetworksLab.L3.Http
open NetworksLab.Incremental

section
variable (names : List Bytes)

/-! ## Headers -/

/-- One value, and the same one of the `names` as a key, or another key. -/
structure SameHeader (h h' : THttpHeader) : Prop where
  value : h.value = h'.value
  key : ∀ n ∈ names, h.key = n ↔ h'.key = n

/-- The same headers in one order, and the same values of the `names`. -/
structure THttpHeaders.Similar (hs hs' : THttpHeaders) : Prop where
  headers : List.Forall₂ (SameHeader names) hs.headers hs'.headers
  values : ∀ n ∈ names, hs.values n = hs'.values n

variable {names}

theorem SameHeader.refl (h : THttpHeader) : SameHeader names h h := ⟨rfl, fun _ _ => Iff.rfl⟩

namespace THttpHeaders

theorem first_similar {l l' : List THttpHeader} (h : List.Forall₂ (SameHeader names) l l') {n : Bytes}
    (hn : n ∈ names) : (first l n).map (·.value) = (first l' n).map (·.value) := by
  induction h with
  | nil => rfl
  | @cons x x' l l' hx _ ih =>
    by_cases hk : x.key = n
    · have hk' := (hx.key n hn).mp hk
      simp [first, hk, hk', hx.value]
    · have hk' := mt (hx.key n hn).mpr hk
      simpa [first, hk, hk'] using ih

theorem Similar.make {l l' : List THttpHeader} (h : List.Forall₂ (SameHeader names) l l') :
    Similar names (make l) (make l') where
  headers := h
  values n hn := by
    rw [make_consistent l n, make_consistent l' n]
    exact first_similar h hn

/-- One key set to one value in both maps. -/
theorem update_same {values values' : Bytes → Option Bytes} (h : ∀ n ∈ names, values n = values' n)
    (key : Bytes) (value : Option Bytes) :
    ∀ n ∈ names, Function.update values key value n = Function.update values' key value n := by
  intro n hn
  by_cases hk : n = key
  · rw [hk, Function.update_self, Function.update_self]
  · rw [Function.update_of_ne hk, Function.update_of_ne hk, h n hn]

variable {hs hs' : THttpHeaders} (h : Similar names hs hs')
include h

theorem Similar.find {n : Bytes} (hn : n ∈ names) : hs.find n = hs'.find n := by
  rw [THttpHeaders.find, THttpHeaders.find, h.values n hn]

theorem Similar.update {header : THttpHeader} (hn : header.key ∈ names) :
    Similar names (hs.update header) (hs'.update header) := by
  unfold THttpHeaders.update
  rw [← h.values _ hn]
  split
  · rename_i hnone
    have hnone' := (h.values _ hn).symm.trans hnone
    refine ⟨List.rel_append h.headers (.cons (.refl header) .nil), ?_⟩
    simp only [append, emplaceValue, if_pos hnone, if_pos hnone']
    exact update_same h.values _ _
  · refine ⟨List.rel_map (fun x x' hx => ?_) h.headers, update_same h.values _ _⟩
    by_cases hk : x.key = header.key
    · rw [if_pos hk, if_pos ((hx.key _ hn).mp hk)]
      exact .refl header
    · rw [if_neg hk, if_neg (mt (hx.key _ hn).mpr hk)]
      exact hx

theorem Similar.remove {key : Bytes} (hn : key ∈ names) :
    Similar names (hs.remove key) (hs'.remove key) where
  headers := by
    refine List.rel_filter (fun x x' hx => ?_) h.headers
    simp only [decide_eq_true_eq, ne_eq, hx.key key hn]
  values := update_same h.values _ _

end THttpHeaders

theorem dataLength_similar {hs hs' : THttpHeaders} (h : hs.Similar names hs')
    (hn : contentLength ∈ names) : dataLength hs = dataLength hs' := by
  refine List.rel_foldl (P := Eq) (fun a a' ha x x' hx => ?_) rfl h.headers
  subst ha
  by_cases hk : x.key = contentLength
  · rw [if_pos hk, if_pos ((hx.key _ hn).mp hk), hx.value]
  · rw [if_neg hk, if_neg (mt (hx.key _ hn).mpr hk)]

theorem isChunked_similar {hs hs' : THttpHeaders} (h : hs.Similar names hs')
    (hn : transferEncoding ∈ names) : isChunked hs = isChunked hs' := by
  rw [isChunked, isChunked, h.find hn]

/-! ## The parsers -/

variable (names) in
/-- The same state, with the same headers. -/
def THttpRequestParser.Alike (p p' : THttpRequestParser) : Prop :=
  ∃ headers, List.Forall₂ (SameHeader names) p.headersParser.parsed_ headers ∧
    p' = { p with headersParser := ⟨p.headersParser.lineParser, headers⟩ }

variable (names) in
/-- The same state, with the same headers. -/
def THttpResponseParser.Alike (p p' : THttpResponseParser) : Prop :=
  ∃ headers, List.Forall₂ (SameHeader names) p.headersParser.parsed_ headers ∧
    p' = { p with headersParser := ⟨p.headersParser.lineParser, headers⟩ }

namespace THttpRequestParser

theorem endHead_alike (hn : contentLength ∈ names) {p p' : THttpRequestParser} (h : p.Alike names p') :
    SameStep (Alike names) (endHead p) (endHead p') := by
  have hlen : dataLength p'.headersParser.parsed = dataLength p.headersParser.parsed := by
    obtain ⟨headers, hrel, rfl⟩ := h
    exact (dataLength_similar (.make hrel) hn).symm
  have hnext (s : ERequest) (d : TNParser) :
      Alike names { p with state := s, dataParser := d } { p' with state := s, dataParser := d } := by
    obtain ⟨headers, hrel, rfl⟩ := h
    exact ⟨headers, hrel, rfl⟩
  simp only [endHead, hlen]
  by_cases h0 : dataLength p.headersParser.parsed = 0
  · simp only [if_pos h0]
    exact .ok _ h
  · simp only [if_neg h0]
    cases TNParser.setN (dataLength p.headersParser.parsed) with
    | error e => exact .error e
    | ok d => exact .ok _ (hnext _ _)

theorem keeps (hn : contentLength ∈ names) : Keeps consume (Alike names) := by
  rintro ⟨l, ⟨line, headers⟩, d, s⟩ _ c ⟨headers', hrel, rfl⟩
  have hsame {l d s line} : Alike names ⟨l, ⟨line, headers⟩, d, s⟩ ⟨l, ⟨line, headers'⟩, d, s⟩ :=
    ⟨headers', hrel, rfl⟩
  cases s with
  | requestLine =>
    simp only [consume]
    rcases l.consume c with ⟨_ | _, q⟩
    · exact .ok _ hsame
    · exact .ok _ hsame
  | headers =>
    simp only [consume, THttpHeadersParser.consume]
    rcases line.consume c with ⟨_ | _, q⟩
    · exact .ok _ hsame
    · by_cases hq : q.parsed = []
      · simp only [if_pos hq]
        exact endHead_alike hn hsame
      · simp only [if_neg hq]
        exact .ok _ ⟨_, List.rel_append hrel (.cons (.refl _) .nil), rfl⟩
  | data =>
    simp only [consume]
    rcases d.consume c with e | ⟨a, q⟩
    · exact .error e
    · exact .ok _ hsame

end THttpRequestParser

namespace THttpResponseParser

theorem endHead_alike (hl : contentLength ∈ names) (hc : transferEncoding ∈ names)
    {p p' : THttpResponseParser} (h : p.Alike names p') :
    SameStep (Alike names) (endHead p) (endHead p') := by
  have hlen : dataLength p'.headersParser.parsed = dataLength p.headersParser.parsed := by
    obtain ⟨headers, hrel, rfl⟩ := h
    exact (dataLength_similar (.make hrel) hl).symm
  have hchunked : isChunked p'.headersParser.parsed = isChunked p.headersParser.parsed := by
    obtain ⟨headers, hrel, rfl⟩ := h
    exact (isChunked_similar (.make hrel) hc).symm
  have hdata (d : TNParser) :
      Alike names { p with state := .data, dataParser := d } { p' with state := .data, dataParser := d } := by
    obtain ⟨headers, hrel, rfl⟩ := h
    exact ⟨headers, hrel, rfl⟩
  have hchunks : Alike names { p with state := .chunkLength, chunked := true }
      { p' with state := .chunkLength, chunked := true } := by
    obtain ⟨headers, hrel, rfl⟩ := h
    exact ⟨headers, hrel, rfl⟩
  simp only [endHead, hlen, hchunked]
  by_cases h0 : dataLength p.headersParser.parsed = 0 ∧ isChunked p.headersParser.parsed = false
  · simp only [if_pos h0]
    exact .ok _ h
  · simp only [if_neg h0]
    by_cases hplain : isChunked p.headersParser.parsed = false
    · simp only [if_pos hplain]
      cases TNParser.setN (dataLength p.headersParser.parsed) with
      | error e => exact .error e
      | ok d => exact .ok _ (hdata d)
    · simp only [if_neg hplain]
      exact .ok _ hchunks

/-- The length of a chunk has nothing to do with the headers. -/
theorem endChunkLength_alike {p p' : THttpResponseParser} (h : p.Alike names p') :
    SameStep (Alike names) (endChunkLength p) (endChunkLength p') := by
  obtain ⟨headers, hrel, rfl⟩ := h
  simp only [endChunkLength]
  cases intFromChars 16 p.chunkLengthParser.parsed with
  | error e => exact .error _
  | ok length =>
    dsimp only
    split
    · exact .ok _ ⟨headers, hrel, rfl⟩
    · split
      · exact .error _
      · cases TNParser.setN (length + 2) with
        | error e => exact .error e
        | ok n => exact .ok _ ⟨headers, hrel, rfl⟩

theorem keeps (hl : contentLength ∈ names) (hc : transferEncoding ∈ names) :
    Keeps consume (Alike names) := by
  rintro ⟨l, ⟨line, headers⟩, d, b, cl, n, cd, s⟩ _ c ⟨headers', hrel, rfl⟩
  have hsame {l line d b cl n cd s} : Alike names ⟨l, ⟨line, headers⟩, d, b, cl, n, cd, s⟩
      ⟨l, ⟨line, headers'⟩, d, b, cl, n, cd, s⟩ := ⟨headers', hrel, rfl⟩
  cases s with
  | responseLine =>
    simp only [consume]
    rcases l.consume c with ⟨_ | _, q⟩
    · exact .ok _ hsame
    · exact .ok _ hsame
  | headers =>
    simp only [consume, THttpHeadersParser.consume]
    rcases line.consume c with ⟨_ | _, q⟩
    · exact .ok _ hsame
    · by_cases hq : q.parsed = []
      · simp only [if_pos hq]
        exact endHead_alike hl hc hsame
      · simp only [if_neg hq]
        exact .ok _ ⟨_, List.rel_append hrel (.cons (.refl _) .nil), rfl⟩
  | data =>
    simp only [consume]
    rcases d.consume c with e | ⟨a, q⟩
    · exact .error e
    · exact .ok _ hsame
  | chunkLength =>
    simp only [consume]
    rcases cl.consume c with ⟨_ | _, q⟩
    · exact .ok _ hsame
    · exact endChunkLength_alike hsame
  | chunkData =>
    simp only [consume]
    rcases n.consume c with e | ⟨_ | _, q⟩
    · exact .error e
    · exact .ok _ hsame
    · exact .ok _ hsame

end THttpResponseParser

/-! ## Streams -/

/-- `std::tolower` in the classic locale. -/
def toLower (c : UInt8) : UInt8 := if 0x41 ≤ c ∧ c ≤ 0x5A then c + 0x20 else c

/-- A header line with its name, and what is behind that. -/
structure Named (x name rest : Bytes) : Prop where
  line : HeaderLine x
  text : x = name ++ rest
  noSep : ¬ SEP <:+: name
  rest : rest = [] ∨ SEP <+: rest

variable (names) in
/-- Lines that differ in the case of the name, which is the same one of the
`names`, or none. -/
def Respelled (x x' : Bytes) : Prop :=
  ∃ name name' rest, Named x name rest ∧ Named x' name' rest ∧
    name.map toLower = name'.map toLower ∧ ∀ n ∈ names, name = n ↔ name' = n

/-- What the parsers take for a first line. -/
def FirstLine (first : Bytes) : Prop := ∃ l : THttpResponseStatusLine, l.Fine ∧ first = l.serialize

variable (names) in
/-- Streams that differ only in the case of header names, each of which is the
same one of the `names`, or none. Either may end anywhere. -/
def Recased (b b' : Bytes) : Prop :=
  ∃ first lines lines' body n, FirstLine first ∧ List.Forall₂ (Respelled names) lines lines' ∧
    b = (messageText first lines body).take n ∧ b' = (messageText first lines' body).take n

theorem Named.parseHeader {x name rest : Bytes} (h : Named x name rest) :
    parseHeader x = ⟨name, rest.drop SEP.length⟩ := by
  have hfresh : Fresh SEP name := fresh_pair (by decide) h.noSep
  rcases h.rest with h0 | ⟨value, hvalue⟩
  · have hrun := TUntilParser.awaits hfresh name [] SEP sep_ne_nil rfl
    rw [h.text, h0, List.append_nil, List.drop_nil]
    exact parseHeaderLoop_awaits hrun
  · rw [h.text, ← hvalue, ← List.append_assoc, List.drop_left]
    exact parseHeaderLoop_completes (TUntilParser.completes sep_ne_nil hfresh)

theorem Respelled.header {x x' : Bytes} (h : Respelled names x x') :
    SameHeader names (parseHeader x) (parseHeader x') := by
  obtain ⟨name, name', rest, hx, hx', -, hnames⟩ := h
  rw [hx.parseHeader, hx'.parseHeader]
  exact ⟨rfl, hnames⟩

theorem Respelled.length {x x' : Bytes} (h : Respelled names x x') : x.length = x'.length := by
  obtain ⟨name, name', rest, hx, hx', hcase, -⟩ := h
  have hlen := congrArg List.length hcase
  rw [List.length_map, List.length_map] at hlen
  rw [hx.text, hx'.text, List.length_append, List.length_append, hlen]

theorem linesText_length {lines lines' : List Bytes} (h : List.Forall₂ (Respelled names) lines lines') :
    (linesText lines).length = (linesText lines').length := by
  induction h with
  | nil => rfl
  | cons hx _ ih =>
    simp only [linesText, List.flatMap_cons, List.length_append, hx.length] at ih ⊢
    omega

theorem forall_headerLine {lines lines' : List Bytes} (h : List.Forall₂ (Respelled names) lines lines') :
    (∀ x ∈ lines, HeaderLine x) ∧ ∀ x ∈ lines', HeaderLine x := by
  induction h with
  | nil => exact ⟨fun _ hx => absurd hx List.not_mem_nil, fun _ hx => absurd hx List.not_mem_nil⟩
  | cons hx _ ih =>
    obtain ⟨name, name', rest, hn, hn', -⟩ := hx
    exact ⟨List.forall_mem_cons.mpr ⟨hn.line, ih.1⟩, List.forall_mem_cons.mpr ⟨hn'.line, ih.2⟩⟩

theorem parseHeader_same {lines lines' : List Bytes} (h : List.Forall₂ (Respelled names) lines lines') :
    List.Forall₂ (SameHeader names) (lines.map parseHeader) (lines'.map parseHeader) :=
  List.rel_map (fun _ _ hx => hx.header) h

/-! ### Every stream -/

theorem HeaderLine.respelled {x : Bytes} (h : HeaderLine x) : Respelled names x x := by
  rcases parseHeader_eq x with ⟨hsep, -⟩ | ⟨key, value, hkey, hx, -⟩
  · have hname : Named x x [] := ⟨h, (List.append_nil x).symm, hsep, .inl rfl⟩
    exact ⟨x, x, [], hname, hname, rfl, fun _ _ => Iff.rfl⟩
  · have hname : Named x key (SEP ++ value) :=
      ⟨h, by rw [hx, List.append_assoc], hkey, .inr (List.prefix_append SEP value)⟩
    exact ⟨key, key, _, hname, hname, rfl, fun _ _ => Iff.rfl⟩

/-- By induction on the length: a line, and what is behind it. -/
theorem exists_lines (n : Nat) : ∀ {b : Bytes}, b.length ≤ n → ∃ lines body m,
    (∀ x ∈ lines, HeaderLine x) ∧ b = (linesText lines ++ body).take m := by
  induction n with
  | zero =>
    intro b hb
    exact ⟨[], [], 0, fun _ hx => absurd hx List.not_mem_nil, List.eq_nil_of_length_eq_zero (by omega)⟩
  | succ n ih =>
    intro b hb
    by_cases hb0 : b = []
    · exact ⟨[], [], 0, fun _ hx => absurd hx List.not_mem_nil, hb0⟩
    by_cases hcrlf : CRLF <:+: b
    · obtain ⟨f, t, rfl, hf⟩ := exists_fresh crlf_ne_nil hcrlf
      by_cases hf0 : f = []
      · subst hf0
        exact ⟨[], t, _, fun _ hx => absurd hx List.not_mem_nil, List.take_length.symm⟩
      · have ht : t.length ≤ n := by
          rw [List.length_append, List.length_append] at hb
          have hpos := List.length_pos_of_ne_nil hf0
          omega
        obtain ⟨lines, body, m, hlines, rfl⟩ := ih ht
        refine ⟨f :: lines, body, (f ++ CRLF).length + m,
          List.forall_mem_cons.mpr ⟨⟨hf0, hf.not_infix crlf_ne_nil⟩, hlines⟩, ?_⟩
        simp only [linesText, List.flatMap_cons, List.append_assoc]
        rw [← List.append_assoc f, ← List.append_assoc f, List.take_length_add_append]
    · refine ⟨[b], [], b.length, fun x hx => ?_, ?_⟩
      · rw [List.mem_singleton.mp hx]
        exact ⟨hb0, hcrlf⟩
      · simp [linesText]

/-- A first line and what is behind it, or no more than a part of a first line. -/
theorem exists_firstLine (b : Bytes) : ∃ first, FirstLine first ∧
    ((∃ t, b = first ++ CRLF ++ t) ∨ ∃ m, m ≤ first.length ∧ b = first.take m) := by
  have hpart (l : THttpResponseStatusLine) (hl : l.Fine) (hb : b <+: l.serialize) :
      ∃ first, FirstLine first ∧
        ((∃ t, b = first ++ CRLF ++ t) ∨ ∃ m, m ≤ first.length ∧ b = first.take m) :=
    ⟨_, ⟨l, hl, rfl⟩, .inr ⟨b.length, hb.length_le, List.prefix_iff_eq_take.mp hb⟩⟩
  have hnil : ¬ CRLF <:+: ([] : Bytes) := by decide
  by_cases h1 : SP ∈ b
  swap
  · refine hpart ⟨b, [], []⟩ ⟨h1, List.not_mem_nil, hnil⟩ ?_
    simp [THttpResponseStatusLine.serialize]
  obtain ⟨f, b, rfl, hf⟩ := List.eq_append_cons_of_mem h1
  by_cases h2 : SP ∈ b
  swap
  · refine hpart ⟨f, b, []⟩ ⟨hf, h2, hnil⟩ ?_
    simp [THttpResponseStatusLine.serialize]
  obtain ⟨g, b, rfl, hg⟩ := List.eq_append_cons_of_mem h2
  by_cases h3 : CRLF <:+: b
  swap
  · refine hpart ⟨f, g, b⟩ ⟨hf, hg, h3⟩ ?_
    simp [THttpResponseStatusLine.serialize]
  obtain ⟨r, t, rfl, hr⟩ := exists_fresh crlf_ne_nil h3
  exact ⟨_, ⟨⟨f, g, r⟩, ⟨hf, hg, hr.not_infix crlf_ne_nil⟩, rfl⟩, .inl ⟨t, by
    simp [THttpResponseStatusLine.serialize]⟩⟩

/-- The relation is about all streams. -/
theorem recased_refl (names : List Bytes) (b : Bytes) : Recased names b b := by
  obtain ⟨first, hfirst, ⟨t, rfl⟩ | ⟨m, hm, rfl⟩⟩ := exists_firstLine b
  · obtain ⟨lines, body, m, hlines, rfl⟩ := exists_lines t.length (Nat.le_refl _)
    have hb : first ++ CRLF ++ (linesText lines ++ body).take m =
        (messageText first lines body).take ((first ++ CRLF).length + m) := by
      rw [messageText, List.append_assoc (first ++ CRLF), List.take_length_add_append]
    exact ⟨first, lines, lines, body, _, hfirst,
      List.forall₂_same.mpr fun x hx => (hlines x hx).respelled, hb, hb⟩
  · have hb : first.take m = (messageText first [] []).take m := by
      rw [messageText, List.append_assoc, List.append_assoc, List.take_append_of_le_length hm]
    exact ⟨first, [], [], [], m, hfirst, .nil, hb, hb⟩

/-- Behind the first line, any parser that hands on to the parser of the headers,
and goes on alike with the same headers. -/
theorem Recased.sameEnd {σ : Type} {consume : σ → UInt8 → Except Fault (Progress × σ)} {start : σ}
    {R : σ → σ → Prop} {b b' : Bytes} (h : Recased names b b') (hkeep : Keeps consume R)
    (hstart : R start start)
    (hline : ∀ first, FirstLine first → ∃ f g, Awaits consume start (first ++ CRLF) (f .make) ∧
      Hosts (total THttpHeadersParser.consume) consume f g ∧
      ∀ line headers headers', List.Forall₂ (SameHeader names) headers headers' →
        SameStep R (g ⟨line, headers⟩) (g ⟨line, headers'⟩)) :
    SameEnd R (doneAt consume 0 start b) (doneAt consume 0 start b') := by
  obtain ⟨first, lines, lines', body, n, hfirst, hlines, rfl, rfl⟩ := h
  have htext (ls : List Bytes) : (messageText first ls body).take n =
      (first ++ CRLF).take n ++ (linesText ls ++ body).take (n - (first ++ CRLF).length) := by
    rw [messageText, List.append_assoc (first ++ CRLF), List.take_append]
  rw [htext, htext]
  by_cases hn : n ≤ (first ++ CRLF).length
  · -- nothing has been respelled yet
    rw [Nat.sub_eq_zero_of_le hn, List.take_zero, List.take_zero]
    exact lockstep hkeep 0 hstart
  · obtain ⟨f, g, hrun, hosts, hg⟩ := hline first hfirst
    obtain ⟨hl, hl'⟩ := forall_headerLine hlines
    rw [List.take_of_length_le (Nat.le_of_not_le hn), hrun.doneAt, hrun.doneAt]
    exact hosts.sameEnd hkeep (lines_completes lines [] hl) (lines_completes lines' [] hl')
      (linesText_length hlines) (hg _ _ _ (parseHeader_same hlines)) _ _ body

open THttpRequestParser in
/-- **Lockstep of requests.** -/
theorem requests_sameEnd {b b' : Bytes} (h : Recased names b b') (hn : contentLength ∈ names) :
    SameEnd (Alike names) (doneAt consume 0 make b) (doneAt consume 0 make b') := by
  refine h.sameEnd (keeps hn) ⟨[], .nil, rfl⟩ fun first hfirst => ?_
  obtain ⟨l, hl, rfl⟩ := hfirst
  have hfine : THttpRequestLine.Fine ⟨l.httpVersion, l.statusCode, l.reason⟩ :=
    ⟨hl.httpVersion, hl.statusCode, hl.reason⟩
  obtain ⟨q, hq, -⟩ := requestLine_completes hfine
  refine ⟨_, _, (hosts_requestLine make).next hq rfl,
    hosts_headers { make with requestLineParser := q, state := .headers }, fun line hs hs' hrel => ?_⟩
  exact endHead_alike hn ⟨hs', hrel, rfl⟩

open THttpResponseParser in
/-- **Lockstep of responses.** -/
theorem responses_sameEnd {b b' : Bytes} (h : Recased names b b') (hl : contentLength ∈ names)
    (hc : transferEncoding ∈ names) :
    SameEnd (Alike names) (doneAt consume 0 make b) (doneAt consume 0 make b') := by
  refine h.sameEnd (keeps hl hc) ⟨[], .nil, rfl⟩ fun first hfirst => ?_
  obtain ⟨l, hfine, rfl⟩ := hfirst
  refine ⟨_, _, line_awaits hfine, hosts_headers (behindLine l), fun line hs hs' hrel => ?_⟩
  exact endHead_alike hl hc ⟨hs', hrel, rfl⟩

end

end NetworksLab.L3.Http
