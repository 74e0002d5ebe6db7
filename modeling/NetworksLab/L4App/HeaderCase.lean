import NetworksLab.L3Protocol.HttpLockstep
import NetworksLab.L4App.Database

/-!
# The case of header names (`individual/lib`)

Every consumer of headers compares their names byte by byte: the parsers look
for `Content-Length` and `Transfer-Encoding`, the cache for `Cache-Control`, the
session for `Accept-Encoding`. Other spellings of these names are other names.

Results:
* `recased_reports`: what is made of a stream stays, if header names are spelled
  in other cases and those that are looked for stay as they are.
* `length_respelled`: and it does not if they are not.
-/
namespace NetworksLab.L4.HeaderCase
open NetworksLab.Incremental NetworksLab.L3.Http NetworksLab.L4.Database
open NetworksLab.Numeral (decimal)

/-! ## Reports -/

/-- Which headers are not there any more. -/
def dropped (before after : List THttpHeader) : List Bool :=
  before.map fun h => decide (∀ x ∈ after, x.key ≠ h.key)

/-- Where the parser of a request is done, and what the session finds then. -/
structure RequestReport where
  position : Nat
  data : Bytes
  compressionSupported : Bool
  dropped : List Bool
  deriving DecidableEq

def RequestReport.of (position : Nat) (p : THttpRequestParser) : RequestReport where
  position := position
  data := p.parsed.data
  compressionSupported := L3.Http.compressionSupported p.parsed
  dropped := HeaderCase.dropped p.parsed.headers.headers (p.parsed.headers.remove acceptEncoding).headers

/-- Where the parser of a response is done, and what is made of it then. -/
structure ResponseReport where
  position : Nat
  data : Bytes
  cacheDuration : Except DurationFault Int
  dropped : List Bool
  deriving DecidableEq

def ResponseReport.of (position : Nat) (p : THttpResponseParser) : ResponseReport where
  position := position
  data := p.parsed.data
  cacheDuration := Database.cacheDuration p.parsed
  dropped := HeaderCase.dropped p.headersParser.parsed_ p.parsed.headers.headers

/-- A request stream of a client; it may end before the request does. -/
def requestReport (b : Bytes) : Except Fault (Option RequestReport) :=
  (doneAt THttpRequestParser.consume 0 .make b).map fun r => r.map fun x => .of x.1 x.2

/-- A response stream of an origin; it may end before the response does. -/
def responseReport (b : Bytes) : Except Fault (Option ResponseReport) :=
  (doneAt THttpResponseParser.consume 0 .make b).map fun r => r.map fun x => .of x.1 x.2

/-! ## What is dropped -/

theorem dropped_self (headers : List THttpHeader) :
    dropped headers headers = List.replicate headers.length false := by
  rw [dropped, List.map_eq_replicate_iff]
  exact fun h hh => decide_eq_false fun hall => hall h hh rfl

theorem dropped_remove {before : List THttpHeader} {hs : THttpHeaders} {key : Bytes}
    (h : ∀ x ∈ before, ∃ y ∈ hs.headers, y.key = x.key) :
    dropped before (hs.remove key).headers = before.map fun x => decide (x.key = key) := by
  refine List.map_congr_left fun x hx => decide_eq_decide.mpr ⟨fun hall => ?_, fun hk y hy he => ?_⟩
  · by_contra hne
    obtain ⟨y, hy, hyx⟩ := h x hx
    exact hall y (THttpHeaders.mem_remove.mpr ⟨hy, hyx ▸ hne⟩) hyx
  · exact (THttpHeaders.mem_remove.mp hy).2 (he.trans hk)

theorem exists_update {hs : THttpHeaders} (header : THttpHeader) {x : THttpHeader}
    (hx : x ∈ hs.headers) : ∃ y ∈ (hs.update header).headers, y.key = x.key := by
  unfold THttpHeaders.update
  split
  · exact ⟨x, List.mem_append_left _ hx, rfl⟩
  · refine ⟨_, List.mem_map_of_mem hx, ?_⟩
    split
    · rename_i hk
      exact hk.symm
    · rfl

theorem dropped_request (p : THttpRequestParser) :
    dropped p.parsed.headers.headers (p.parsed.headers.remove acceptEncoding).headers =
      p.headersParser.parsed_.map fun x => decide (x.key = acceptEncoding) :=
  dropped_remove fun x hx => ⟨x, hx, rfl⟩

theorem parsed_headers (p : THttpResponseParser) : p.parsed.headers =
    if p.chunked = true then
      (p.headersParser.parsed.update ⟨contentLength, decimal p.chunkedData.length⟩).remove transferEncoding
    else p.headersParser.parsed := by
  unfold THttpResponseParser.parsed
  split
  · rfl
  · rfl

theorem parsed_data (p : THttpResponseParser) :
    p.parsed.data = if p.chunked = true then p.chunkedData else p.dataParser.parsed := by
  unfold THttpResponseParser.parsed
  split
  · rfl
  · rfl

theorem dropped_response (p : THttpResponseParser) :
    dropped p.headersParser.parsed_ p.parsed.headers.headers =
      p.headersParser.parsed_.map fun x => decide (p.chunked = true ∧ x.key = transferEncoding) := by
  rw [parsed_headers]
  split
  · rename_i hc
    have hkept : ∀ x ∈ p.headersParser.parsed_, ∃ y ∈ (p.headersParser.parsed.update
        ⟨contentLength, decimal p.chunkedData.length⟩).headers, y.key = x.key :=
      fun x hx => exists_update _ hx
    rw [dropped_remove hkept]
    simp [hc]
  · rename_i hc
    rw [THttpHeadersParser.parsed, THttpHeaders.make, dropped_self]
    simp [hc]

/-! ## The same reports -/

section
variable {names : List Bytes}

theorem map_same {f : THttpHeader → Bool} (hf : ∀ x x', SameHeader names x x' → f x = f x')
    {l l' : List THttpHeader} (h : List.Forall₂ (SameHeader names) l l') : l.map f = l'.map f := by
  induction h with
  | nil => rfl
  | cons hx _ ih => rw [List.map_cons, List.map_cons, ih, hf _ _ hx]

theorem requestReport_same (hn : acceptEncoding ∈ names) {k : Nat} {p p' : THttpRequestParser}
    (h : p.Alike names p') : RequestReport.of k p = RequestReport.of k p' := by
  obtain ⟨headers, hrel, rfl⟩ := h
  have hsim := THttpHeaders.Similar.make hrel
  rw [RequestReport.of, RequestReport.of, dropped_request, dropped_request]
  rw [map_same (fun x x' hx => decide_eq_decide.mpr (hx.key _ hn)) hrel]
  simp only [compressionSupported, THttpRequestParser.parsed, THttpHeadersParser.parsed, hsim.find hn]

theorem parsed_similar (hl : contentLength ∈ names) (ht : transferEncoding ∈ names)
    {p p' : THttpResponseParser} (h : p.Alike names p') : p.parsed.headers.Similar names p'.parsed.headers := by
  obtain ⟨headers, hrel, rfl⟩ := h
  have hsim := THttpHeaders.Similar.make hrel
  rw [parsed_headers, parsed_headers]
  dsimp only
  split
  · exact (hsim.update hl).remove ht
  · exact hsim

theorem responseReport_same (hl : contentLength ∈ names) (ht : transferEncoding ∈ names)
    (hc : cacheControl ∈ names) {k : Nat} {p p' : THttpResponseParser} (h : p.Alike names p') :
    ResponseReport.of k p = ResponseReport.of k p' := by
  have hduration : Database.cacheDuration p.parsed = Database.cacheDuration p'.parsed := by
    rw [Database.cacheDuration, Database.cacheDuration, (parsed_similar hl ht h).find hc]
  rw [ResponseReport.of, ResponseReport.of, hduration, parsed_data, parsed_data, dropped_response,
    dropped_response]
  obtain ⟨headers, hrel, rfl⟩ := h
  rw [map_same (fun x x' hx => decide_eq_decide.mpr (and_congr_right' (hx.key _ ht))) hrel]

theorem requests_recased {b b' : Bytes} (h : Recased names b b') (hl : contentLength ∈ names)
    (ha : acceptEncoding ∈ names) : requestReport b = requestReport b' := by
  have hend := requests_sameEnd h hl
  unfold requestReport
  generalize doneAt THttpRequestParser.consume 0 .make b = x at hend
  generalize doneAt THttpRequestParser.consume 0 .make b' = x' at hend
  cases hend with
  | error e => rfl
  | awaits => rfl
  | done k hp => exact congrArg (Except.ok ∘ some) (requestReport_same ha hp)

theorem responses_recased {b b' : Bytes} (h : Recased names b b') (hl : contentLength ∈ names)
    (ht : transferEncoding ∈ names) (hc : cacheControl ∈ names) : responseReport b = responseReport b' := by
  have hend := responses_sameEnd h hl ht
  unfold responseReport
  generalize doneAt THttpResponseParser.consume 0 .make b = x at hend
  generalize doneAt THttpResponseParser.consume 0 .make b' = x' at hend
  cases hend with
  | error e => rfl
  | awaits => rfl
  | done k hp => exact congrArg (Except.ok ∘ some) (responseReport_same hl ht hc hp)

/-- **What the case of header names changes.** For all streams that differ only
in it: nothing, if the names that a consumer looks for are left as they are. -/
theorem recased_reports {b b' : Bytes} :
    (Recased [contentLength, acceptEncoding] b b' → requestReport b = requestReport b') ∧
    (Recased [contentLength, transferEncoding, cacheControl] b b' →
      responseReport b = responseReport b') :=
  ⟨fun h => requests_recased h (by decide) (by decide),
    fun h => responses_recased h (by decide) (by decide) (by decide)⟩

/-- A message with a body of two bytes. -/
def twoBytes (line : Bytes) : Bytes := messageText (ascii "POST / HTTP/1.1") [line] (ascii "hi")

theorem recased_twoBytes {line line' : Bytes} (h : Respelled names line line') :
    Recased names (twoBytes line) (twoBytes line') := by
  have hlen : (twoBytes line).length = (twoBytes line').length := by
    have hlines := linesText_length (.cons h .nil)
    simp only [twoBytes, messageText, List.length_append, hlines]
  have hfirst : FirstLine (ascii "POST / HTTP/1.1") :=
    ⟨⟨ascii "POST", ascii "/", ascii "HTTP/1.1"⟩, ⟨by decide, by decide, by decide⟩, by decide⟩
  exact ⟨_, [line], [line'], ascii "hi", (twoBytes line).length, hfirst, .cons h .nil,
    List.take_length.symm, by rw [hlen]; exact List.take_length.symm⟩

/-- `CONTENT-LENGTH` is none of the names that are looked for either. -/
theorem recased_reports_upper :
    requestReport (twoBytes (ascii "content-length: 2")) =
        requestReport (twoBytes (ascii "CONTENT-LENGTH: 2")) ∧
      responseReport (twoBytes (ascii "content-length: 2")) =
        responseReport (twoBytes (ascii "CONTENT-LENGTH: 2")) := by
  have hlower : Named (ascii "content-length: 2") (ascii "content-length") (ascii ": 2") :=
    ⟨⟨by decide, by decide⟩, by decide, by decide, .inr (by decide)⟩
  have hupper : Named (ascii "CONTENT-LENGTH: 2") (ascii "CONTENT-LENGTH") (ascii ": 2") :=
    ⟨⟨by decide, by decide⟩, by decide, by decide, .inr (by decide)⟩
  exact ⟨recased_reports.1 (recased_twoBytes ⟨_, _, _, hlower, hupper, by decide, by decide⟩),
    recased_reports.2 (recased_twoBytes ⟨_, _, _, hlower, hupper, by decide, by decide⟩)⟩

/-- The length under another name: the message ends with its head. -/
theorem length_respelled : ¬ ∀ b b', Recased [] b b' →
    requestReport b = requestReport b' ∧ responseReport b = responseReport b' := by
  intro h
  have hknown : Named (ascii "Content-Length: 2") (ascii "Content-Length") (ascii ": 2") :=
    ⟨⟨by decide, by decide⟩, by decide, by decide, .inr (by decide)⟩
  have hlower : Named (ascii "content-length: 2") (ascii "content-length") (ascii ": 2") :=
    ⟨⟨by decide, by decide⟩, by decide, by decide, .inr (by decide)⟩
  have hsame := h _ _ (recased_twoBytes ⟨_, _, _, hknown, hlower, by decide, fun _ hn => absurd hn List.not_mem_nil⟩)
  exact absurd hsame.1 (by decide +kernel)

end

end NetworksLab.L4.HeaderCase
