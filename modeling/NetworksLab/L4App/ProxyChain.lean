import NetworksLab.L3Protocol.HttpForward
import NetworksLab.L4App.Session

/-!
# Proxies in a chain (`individual/lib/Session.cpp`, `HTTP.cpp`, `Compress.cpp`)

A proxy passes a request on without `Accept-Encoding`, and answers with what it has
made of the response. What the host resolves to may be another proxy. An `Origin` is
what a server may answer to the bytes it gets; `Proxied gzip origin` is the server
that a session with nothing in its cache makes of one, in whatever pieces the bytes
come.

Results:
* `passed_asks`, `serialize_answers`: what is passed on, and what is written of a
  response that was read, are read as they were.
* `proxied_iff`: what a proxy makes of a server.
* `chain_agrees`: any number of proxies behind another one do not show.
-/
namespace NetworksLab.L4.Session
open NetworksLab.Incremental
open NetworksLab.L3.Http
open NetworksLab.L4.Database

/-! ## Messages at the beginning of a stream -/

/-- The bytes begin with this request. -/
def Asks (s : Bytes) (request : THttpRequest) : Prop :=
  ∃ b rest p, s = b ++ rest ∧ Completes THttpRequestParser.consume .make b p ∧ request = p.parsed

/-- The bytes begin with this response. -/
def Answers (s : Bytes) (response : THttpResponse) : Prop :=
  ∃ b rest p, s = b ++ rest ∧ Completes THttpResponseParser.consume .make b p ∧ response = p.parsed

theorem Asks.unique {s : Bytes} {r r' : THttpRequest} (h : Asks s r) (h' : Asks s r') : r = r' := by
  obtain ⟨b, rest, p, rfl, hb, rfl⟩ := h
  obtain ⟨b', rest', p', heq, hb', rfl⟩ := h'
  rw [hb.unique hb' heq]

theorem Answers.unique {s : Bytes} {r r' : THttpResponse} (h : Answers s r) (h' : Answers s r') : r = r' := by
  obtain ⟨b, rest, p, rfl, hb, rfl⟩ := h
  obtain ⟨b', rest', p', heq, hb', rfl⟩ := h'
  rw [hb.unique hb' heq]

/-- The list has all there is to headers. -/
theorem eq_make {hs : THttpHeaders} (h : hs.Consistent) : hs = .make hs.headers := by
  have hvalues : hs.values = (THttpHeaders.make hs.headers).values := by
    funext key
    rw [h key, THttpHeaders.make_consistent hs.headers key]
    rfl
  cases hs with
  | mk headers values => exact congrArg (THttpHeaders.mk headers) hvalues

/-! ## What is passed on -/

/-- The request without `Accept-Encoding`. -/
def passed (request : THttpRequest) : THttpRequest :=
  { request with headers := request.headers.remove acceptEncoding }

theorem dataLength_remove {hs : THttpHeaders} {key : Bytes} (h : contentLength ≠ key) :
    dataLength (hs.remove key) = dataLength hs := by
  have hsame : lastLength (hs.remove key).headers = lastLength hs.headers := by
    simp only [lastLength, THttpHeaders.remove, List.filter_filter]
    congr 2
    funext x
    by_cases hx : x.key = contentLength
    · simp [hx, h]
    · simp [hx]
  rw [dataLength_eq, dataLength_eq, hsame]

theorem remove_remove (hs : THttpHeaders) (key : Bytes) : (hs.remove key).remove key = hs.remove key := by
  simp [THttpHeaders.remove]

theorem passed_passed (r : THttpRequest) : passed (passed r) = passed r := by
  unfold passed
  rw [remove_remove]

/-- It asks for no compression. -/
theorem not_supported_passed (r : THttpRequest) : compressionSupported (passed r) = false := by
  simp [compressionSupported, passed, THttpHeaders.find, THttpHeaders.remove]

theorem Asks.consistent {s : Bytes} {r : THttpRequest} (h : Asks s r) : r.headers.Consistent := by
  obtain ⟨b, rest, p, -, hb, rfl⟩ := h
  obtain ⟨lines, htext⟩ := THttpRequestParser.accepted hb
  rw [htext.headers]
  exact THttpHeaders.make_consistent _

theorem Asks.passed_framed {s : Bytes} {r : THttpRequest} (h : Asks s r) : (passed r).Framed := by
  obtain ⟨b, rest, p, -, hb, rfl⟩ := h
  obtain ⟨lines, htext⟩ := THttpRequestParser.accepted hb
  have hfine : ∀ h ∈ p.parsed.headers.headers, h.Fine := by
    rw [htext.headers]
    exact lines_fine htext.headerLine
  exact ⟨htext.line, fun h hh => hfine h (THttpHeaders.mem_remove.mp hh).1,
    (dataLength_remove (by decide)).trans htext.length⟩

/-- **What is passed on** is read as it was meant. -/
theorem passed_asks {s : Bytes} {r : THttpRequest} (h : Asks s r) : Asks (passed r).serialize (passed r) := by
  obtain ⟨p, hp, hparsed⟩ := h.passed_framed.completes
  refine ⟨_, [], p, (List.append_nil _).symm, hp, ?_⟩
  have hmake : (passed r).headers = .make (passed r).headers.headers :=
    eq_make (THttpHeaders.remove_consistent h.consistent acceptEncoding)
  rw [hparsed, ← hmake]

theorem Answers.consistent {s : Bytes} {r : THttpResponse} (h : Answers s r) : r.headers.Consistent := by
  obtain ⟨b, rest, p, -, hb, rfl⟩ := h
  have hcons := THttpHeaders.make_consistent p.headersParser.parsed_
  unfold THttpResponseParser.parsed
  split
  · exact THttpHeaders.remove_consistent (THttpHeaders.update_consistent hcons _) _
  · exact hcons

/-- **What is written of a response** is read as it was. -/
theorem serialize_answers {s : Bytes} {r : THttpResponse} (h : Answers s r) (hmax : r.data.length < 2 ^ 31) :
    Answers r.serialize r := by
  have hcons := h.consistent
  obtain ⟨b, rest, p, -, hb, rfl⟩ := h
  obtain ⟨q, hq, hparsed, -⟩ := (parsed_framed hb hmax).completes
  refine ⟨_, [], q, (List.append_nil _).symm, hq, ?_⟩
  rw [hparsed, ← eq_make hcons]

/-! ## One proxy -/

section
variable (gzip : Bytes → Bytes)

/-- The reads from the client, with their times, until the session does not wait
for another. -/
def readRequest : TSession → TDatabase → List (Int × Bytes) → Except SessionFault (TSession × TDatabase)
  | s, db, [] => return (s, db)
  | s, db, (now, buffer) :: pieces =>
    if s.pending = .readClient then
      match readClient gzip s db now buffer with
      | .error f => throw f
      | .ok (s, db) => readRequest s db pieces
    else return (s, db)

/-- The streams that a server may answer with, by the bytes that it gets. -/
abbrev Origin := Bytes → Bytes → Prop

/-- A session with nothing in the cache reads the request, passes it on to the
server, reads what the server answers, and answers. -/
def Proxied (origin : Origin) : Origin := fun request answer =>
  ∃ asks s db reads s' db', (asks.map Prod.snd).flatten = request ∧
    readRequest gzip .make .make asks = .ok (s, db) ∧ s.pending = .writeForeign ∧
    origin s.request (reads.map Prod.snd).flatten ∧
    readStream gzip s.requestWritten db reads = .ok (s', db') ∧ s'.pending = .writeClient ∧ s'.response = answer

end

variable {gzip : Bytes → Bytes}

theorem readRequest_done {s : TSession} (h : s.pending ≠ .readClient) (db : TDatabase) :
    ∀ pieces, readRequest gzip s db pieces = .ok (s, db)
  | [] => rfl
  | (_, _) :: _ => if_neg h

theorem readStream_done {s : TSession} (h : s.pending ≠ .readForeign) (db : TDatabase) :
    ∀ pieces, readStream gzip s db pieces = .ok (s, db)
  | [] => rfl
  | (_, _) :: _ => if_neg h

/-- The end of a request. -/
theorem writeForeign_passes (gzip : Bytes → Bytes) (s : TSession) (db : TDatabase) (now : Int) :
    ∃ response pending db', writeForeign gzip s db now = ({ s with
        request := (passed s.requestParser.parsed).serialize, response := response, pending := pending }, db') ∧
      (pending = .writeForeign ∨ pending = .writeClient) := by
  simp only [writeForeign]
  rcases db.serveCached s.requestParser.parsed.requestLine.url now with ⟨_ | cached, db'⟩
  · exact ⟨s.response, .writeForeign, db', rfl, .inl rfl⟩
  · exact ⟨_, .writeClient, db', rfl, .inr rfl⟩

/-- A read from the client: the request goes on, or it ends there and is passed on
or answered. -/
theorem readClient_asks {s s' : TSession} {db db' : TDatabase} {now : Int} {buffer : Bytes}
    (h : readClient gzip s db now buffer = .ok (s', db')) :
    (∃ p, Awaits THttpRequestParser.consume s.requestParser buffer p ∧
      s' = { s with requestParser := p, pending := .readClient } ∧ db' = db) ∨
    ∃ t u p response pending, buffer = t ++ u ∧ Completes THttpRequestParser.consume s.requestParser t p ∧
      s' = { s with
        requestParser := p
        request := (passed p.parsed).serialize
        response := response
        pending := pending } ∧ (pending = .writeForeign ∨ pending = .writeClient) := by
  unfold readClient at h
  split at h
  · cases h
  · rename_i p hfeed
    cases h
    exact .inl ⟨p, awaits_of_feedUntil hfeed, rfl, rfl⟩
  · rename_i p hfeed
    obtain ⟨t, u, rfl, ht⟩ := completes_of_feedUntil hfeed
    obtain ⟨response, pending, db₁, heq, hpending⟩ :=
      writeForeign_passes gzip { s with requestParser := p } db now
    rw [heq] at h
    cases h
    exact .inr ⟨t, u, p, response, pending, rfl, ht, rfl, hpending⟩

/-- The request has been read in these pieces. By induction on them. -/
theorem completes_of_readRequest : ∀ {pieces : List (Int × Bytes)} {s s' : TSession} {db db' : TDatabase},
    readRequest gzip s db pieces = .ok (s', db') → s.pending = .readClient → s'.pending = .writeForeign →
    ∃ b rest, (pieces.map Prod.snd).flatten = b ++ rest ∧
      Completes THttpRequestParser.consume s.requestParser b s'.requestParser ∧
      s'.request = (passed s'.requestParser.parsed).serialize ∧ s'.responseParser = s.responseParser
  | [], s, s', db, db', h, hs, hs' => by
    cases h
    rw [hs] at hs'
    cases hs'
  | (now, buffer) :: pieces, s, s', db, db', h, hs, hs' => by
    rw [readRequest, if_pos hs] at h
    split at h
    · cases h
    rename_i s₁ db₁ hread
    obtain ⟨p, hp, rfl, -⟩ | ⟨t, u, p, response, pending, rfl, ht, rfl, hpending⟩ := readClient_asks hread
    · obtain ⟨b, rest, hpieces, hb, hrequest, hresponse⟩ := completes_of_readRequest h rfl hs'
      exact ⟨buffer ++ b, rest, by simp [hpieces], hp.completes hb, hrequest, hresponse⟩
    · rw [readRequest_done (by rcases hpending with rfl | rfl <;> exact Pending.noConfusion)] at h
      cases h
      exact ⟨t, u ++ (pieces.map Prod.snd).flatten, by simp, ht, rfl, rfl⟩

/-- The response has been read in these pieces. By induction on them. -/
theorem completes_of_readStream : ∀ {pieces : List (Int × Bytes)} {s s' : TSession} {db db' : TDatabase},
    readStream gzip s db pieces = .ok (s', db') → s.pending = .readForeign → s'.pending = .writeClient →
    ∃ b rest p, (pieces.map Prod.snd).flatten = b ++ rest ∧
      Completes THttpResponseParser.consume s.responseParser b p ∧
      (∃ duration, cacheDuration p.parsed = .ok duration) ∧
      s'.response = answered gzip s.requestParser.parsed p.parsed
  | [], s, s', db, db', h, hs, hs' => by
    cases h
    rw [hs] at hs'
    cases hs'
  | (now, buffer) :: pieces, s, s', db, db', h, hs, hs' => by
    rw [readStream, if_pos hs] at h
    split at h
    · cases h
    rename_i s₁ db₁ hread
    obtain ⟨p, hfeed, rfl, -⟩ | ⟨p, hfeed, hstore, rfl⟩ := readForeign_cases hread
    · obtain ⟨b, rest, q, hpieces, hb, hd, hresponse⟩ := completes_of_readStream h rfl hs'
      exact ⟨buffer ++ b, rest, q, by simp [hpieces], (awaits_of_feedUntil hfeed).completes hb, hd, hresponse⟩
    · obtain ⟨t, u, rfl, ht⟩ := completes_of_feedUntil hfeed
      obtain ⟨duration, hd, -⟩ := TDatabase.cacheResponse_cases hstore
      rw [readStream_done Pending.noConfusion] at h
      cases h
      exact ⟨t, u ++ (pieces.map Prod.snd).flatten, p, by simp, ht, ⟨duration, hd⟩, rfl⟩

/-- **What a proxy makes of a server.** It answers a request if the server answers
what is passed on of it, with the response, compressed if the client may have it so. -/
theorem proxied_iff {origin : Origin} {request answer : Bytes} :
    Proxied gzip origin request answer ↔ ∃ r stream r', Asks request r ∧
      origin (passed r).serialize stream ∧ Answers stream r' ∧ (∃ duration, cacheDuration r' = .ok duration) ∧
      answer = answered gzip r r' := by
  constructor
  · rintro ⟨asks, s, db, reads, s', db', rfl, hask, hs, horigin, hread, hs', rfl⟩
    obtain ⟨b, rest, hb, hp, hrequest, hresponse⟩ := completes_of_readRequest hask rfl hs
    obtain ⟨b', rest', q, hb', hq, hd, hanswer⟩ := completes_of_readStream hread rfl hs'
    rw [TSession.requestWritten, hresponse] at hq
    exact ⟨_, _, _, ⟨b, rest, _, hb, hp, rfl⟩, hrequest ▸ horigin, ⟨b', rest', q, hb', hq, rfl⟩, hd,
      hanswer⟩
  · rintro ⟨_, _, _, ⟨b, rest, p, rfl, hp, rfl⟩, horigin, ⟨b', rest', q, rfl, hq, rfl⟩, ⟨duration, hd⟩,
      rfl⟩
    have hask : readRequest gzip .make .make [(0, b ++ rest)] = .ok ({ TSession.make with
        requestParser := p, request := (passed p.parsed).serialize, pending := .writeForeign }, .make) := by
      simp only [readRequest, TSession.make, readClient, hp.feedUntil rest]
      rfl
    have hrun : ∃ s' db', readStream gzip (TSession.requestWritten { TSession.make with
          requestParser := p, request := (passed p.parsed).serialize, pending := .writeForeign }) .make
          [(0, b' ++ rest')] = .ok (s', db') ∧ s'.pending = .writeClient ∧
        s'.response = answered gzip p.parsed q.parsed :=
      readStream_completes hd .make rfl hq (List.append_nil _)
    obtain ⟨s', db', hread, hs', hanswer⟩ := hrun
    exact ⟨[(0, b ++ rest)], _, _, [(0, b' ++ rest')], s', db', List.append_nil _, hask, rfl,
      by simpa using horigin, hread, hs', hanswer⟩

/-! ## Several proxies -/

/-- The server answers with bodies whose length is an `int`. -/
def Small (origin : Origin) : Prop :=
  ∀ request stream r, origin request stream → Answers stream r → r.data.length < 2 ^ 31

/-- What is passed on is answered as it came. -/
theorem answered_passed (gzip : Bytes → Bytes) (r : THttpRequest) (response : THttpResponse) :
    answered gzip (passed r) response = response.serialize := by
  rw [answered, not_supported_passed]
  rfl

/-- A proxy behind a proxy does not show. -/
theorem proxied_proxied (gzip gzip' : Bytes → Bytes) {origin : Origin} (hsmall : Small origin) :
    Proxied gzip (Proxied gzip' origin) = Proxied gzip origin := by
  funext request answer
  rw [eq_iff_iff, proxied_iff, proxied_iff]
  constructor
  · rintro ⟨r, stream, r', hask, hproxied, hanswers, hd, rfl⟩
    obtain ⟨r₁, stream₁, r₁', hask₁, horigin, hanswers₁, hd₁, rfl⟩ := proxied_iff.mp hproxied
    obtain rfl := hask₁.unique (passed_asks hask)
    rw [answered_passed] at hanswers
    rw [passed_passed] at horigin
    obtain rfl := hanswers.unique (serialize_answers hanswers₁ (hsmall _ _ _ horigin hanswers₁))
    exact ⟨r, stream₁, _, hask, horigin, hanswers₁, hd, rfl⟩
  · rintro ⟨r, stream, r', hask, horigin, hanswers, hd, rfl⟩
    have hanswer := serialize_answers hanswers (hsmall _ _ _ horigin hanswers)
    refine ⟨r, r'.serialize, r', hask, ?_, hanswer, hd, rfl⟩
    refine proxied_iff.mpr ⟨passed r, stream, r', passed_asks hask, ?_, hanswers, hd, ?_⟩
    · rwa [passed_passed]
    · rw [answered_passed]

/-- **Chains.** A proxy answers in front of any number of other proxies as it does in
front of the server itself, with each its own compressor, and however the bytes are
cut on each connection. -/
theorem chain_agrees (gzip : Bytes → Bytes) {origin : Origin} (hsmall : Small origin) :
    ∀ (gzips : List (Bytes → Bytes)) (request answer : Bytes),
      Proxied gzip (gzips.foldr Proxied origin) request answer ↔ Proxied gzip origin request answer := by
  intro gzips
  induction gzips generalizing gzip with
  | nil => exact fun _ _ => Iff.rfl
  | cons gzip' gzips ih =>
    intro request answer
    have hrest : Proxied gzip' (gzips.foldr Proxied origin) = Proxied gzip' origin := by
      funext request answer
      exact propext (ih gzip' request answer)
    rw [List.foldr_cons, hrest, proxied_proxied gzip gzip' hsmall]

/-- A request of a client that takes gzip. -/
def gzipRequest : THttpRequest :=
  ⟨⟨ascii "GET", ascii "/", ascii "HTTP/1.1"⟩, .make [⟨acceptEncoding, ascii "gzip"⟩], []⟩

theorem gzipRequest_asks : Asks gzipRequest.serialize gzipRequest := by
  have hframed : gzipRequest.Framed := by
    refine ⟨by constructor <;> decide, fun h hh => ?_, by decide +kernel⟩
    obtain rfl := List.mem_singleton.mp hh
    constructor <;> decide
  obtain ⟨p, hp, hparsed⟩ := hframed.completes
  exact ⟨_, [], p, (List.append_nil _).symm, hp, hparsed.symm⟩

theorem hiResponse_answers : Answers hiResponse.serialize hiResponse := by
  obtain ⟨p, hp, hparsed, -⟩ := hiResponse_framed.completes
  exact ⟨_, [], p, (List.append_nil _).symm, hp, hparsed.symm⟩

/-- A server that says `hiResponse` to everything. -/
def hiOrigin : Origin := fun _ stream => stream = hiResponse.serialize

theorem hiOrigin_small : Small hiOrigin := by
  rintro _ _ r rfl hr
  rw [hr.unique hiResponse_answers]
  decide

/-- Three proxies, of which the first one compresses. -/
theorem chain_agrees_hi : Proxied (fun _ => hiGzip) ([id, id].foldr Proxied hiOrigin) gzipRequest.serialize
    (compress (fun _ => hiGzip) hiResponse).serialize :=
  (chain_agrees _ hiOrigin_small [id, id] _ _).mpr
    (proxied_iff.mpr ⟨gzipRequest, _, hiResponse, gzipRequest_asks, rfl, hiResponse_answers,
      ⟨0, by decide +kernel⟩, by rw [answered, if_pos (by decide +kernel)]⟩)

end NetworksLab.L4.Session
