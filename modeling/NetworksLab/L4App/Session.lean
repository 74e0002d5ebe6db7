import NetworksLab.L4App.Database

/-!
# Sessions of the proxy (`individual/lib/Session.cpp`)

A session reads a request from its client and answers it from the cache, or
passes it on, reads the response of the origin, and stores it. Each function
here is one callback; between two of them the session waits for `pending`.
The log and the connection to the origin are left out, and with it the host that
`SplitURL` finds; what the compressor does is a parameter.

Results:
* `readClient_cases`, `readForeign_cases`: what a callback can do.
* `readStream_completes`: a response stream is answered in the same way in
  whatever pieces it comes.
-/
namespace NetworksLab.L4.Session
open NetworksLab.Incremental
open NetworksLab.L3.Http
open NetworksLab.L4.Database

/-- The operation a session waits for. -/
inductive Pending where
  | readClient
  | writeForeign
  | readForeign
  | writeClient
  deriving DecidableEq, Repr

/-- mirrors individual/lib/Session.h:17-57 -/
structure TSession where
  request : Bytes
  response : Bytes
  requestParser : THttpRequestParser
  responseParser : THttpResponseParser
  pending : Pending

/-- mirrors individual/lib/Session.cpp:9-18,24-26 -/
def TSession.make : TSession := ⟨[], [], .make, .make, .readClient⟩

/-- Why a callback does not return. -/
inductive SessionFault where
  | parser (f : Fault)
  | duration (f : DurationFault)
  deriving DecidableEq, Repr

section
variable (gzip : Bytes → Bytes)

/-- mirrors individual/lib/Session.cpp:100-138 -/
def writeForeign (s : TSession) (db : TDatabase) (now : Int) : TSession × TDatabase :=
  let request : THttpRequest :=
    { s.requestParser.parsed with headers := s.requestParser.parsed.headers.remove acceptEncoding }
  let s := { s with request := request.serialize }
  match db.serveCached request.requestLine.url now with
  | (some cached, db) =>
    let cached := if compressionSupported s.requestParser.parsed then compress gzip cached else cached
    ({ s with response := cached.serialize, pending := .writeClient }, db)
  | (none, db) => ({ s with pending := .writeForeign }, db)

/-- mirrors individual/lib/Session.cpp:36-57 -/
def readClient (s : TSession) (db : TDatabase) (now : Int) (buffer : Bytes) :
    Except SessionFault (TSession × TDatabase) :=
  match feedUntil THttpRequestParser.consume s.requestParser buffer with
  | .error f => throw (.parser f)
  | .ok (.await, p) => return ({ s with requestParser := p, pending := .readClient }, db)
  | .ok (.parsed, p) => return writeForeign gzip { s with requestParser := p } db now

/-- The request has been written.
mirrors individual/lib/Session.cpp:129-136 -/
def TSession.requestWritten (s : TSession) : TSession := { s with pending := .readForeign }

/-- mirrors individual/lib/Session.cpp:140-171 -/
def readForeign (s : TSession) (db : TDatabase) (now : Int) (buffer : Bytes) :
    Except SessionFault (TSession × TDatabase) :=
  match feedUntil THttpResponseParser.consume s.responseParser buffer with
  | .error f => throw (.parser f)
  | .ok (.await, p) => return ({ s with responseParser := p, pending := .readForeign }, db)
  | .ok (.parsed, p) =>
    let response := p.parsed
    let response := if compressionSupported s.requestParser.parsed then compress gzip response else response
    match db.cacheResponse s.requestParser.parsed p.parsed now with
    | .error f => throw (.duration f)
    | .ok db =>
      return ({ s with responseParser := p, response := response.serialize, pending := .writeClient }, db)

/-- The reads from the origin, with their times, until the session does not wait
for another. -/
def readStream : TSession → TDatabase → List (Int × Bytes) → Except SessionFault (TSession × TDatabase)
  | s, db, [] => return (s, db)
  | s, db, (now, buffer) :: pieces =>
    if s.pending = .readForeign then
      match readForeign gzip s db now buffer with
      | .error f => throw f
      | .ok (s, db) => readStream s db pieces
    else return (s, db)

/-- What a client gets for a response. -/
def answered (request : THttpRequest) (response : THttpResponse) : Bytes :=
  (if compressionSupported request then compress gzip response else response).serialize

/-! ## Callbacks -/

theorem writeForeign_cases (s : TSession) (db : TDatabase) (now : Int) :
    (∃ cached db', db.serveCached s.requestParser.parsed.requestLine.url now = (some cached, db') ∧
      ∃ out, writeForeign gzip s db now = ({ s with
        request := out, response := answered gzip s.requestParser.parsed cached, pending := .writeClient },
        db')) ∨
    ∃ db', db.serveCached s.requestParser.parsed.requestLine.url now = (none, db') ∧
      ∃ out, writeForeign gzip s db now = ({ s with request := out, pending := .writeForeign }, db') := by
  simp only [writeForeign]
  rcases db.serveCached s.requestParser.parsed.requestLine.url now with ⟨_ | cached, db'⟩
  · exact .inr ⟨db', rfl, _, rfl⟩
  · exact .inl ⟨cached, db', rfl, _, rfl⟩

variable {gzip}

theorem readClient_cases {s s' : TSession} {db db' : TDatabase} {now : Int} {buffer : Bytes}
    (h : readClient gzip s db now buffer = .ok (s', db')) :
    (∃ p, s' = { s with requestParser := p, pending := .readClient } ∧ db' = db) ∨
    ∃ p, feedUntil THttpRequestParser.consume s.requestParser buffer = .ok (.parsed, p) ∧
      (s', db') = writeForeign gzip { s with requestParser := p } db now := by
  unfold readClient at h
  split at h
  · cases h
  · cases h
    exact .inl ⟨_, rfl, rfl⟩
  · rename_i p hp
    exact .inr ⟨p, hp, (Except.ok.inj h).symm⟩

/-- Reading a request leaves the response parser alone, and adds no entry. -/
theorem readClient_keeps {s s' : TSession} {db db' : TDatabase} {now : Int} {buffer : Bytes}
    (h : readClient gzip s db now buffer = .ok (s', db')) :
    s'.responseParser = s.responseParser ∧ s'.pending ≠ .readForeign ∧
      ∀ url entry, db'.savedResponses url = some entry → db.savedResponses url = some entry := by
  rcases readClient_cases h with ⟨p, rfl, rfl⟩ | ⟨p, -, hw⟩
  · exact ⟨rfl, Pending.noConfusion, fun _ _ he => he⟩
  · obtain ⟨cached, db₁, hserve, out, hout⟩ | ⟨db₁, hserve, out, hout⟩ :=
      writeForeign_cases gzip { s with requestParser := p } db now
    · rw [hout] at hw
      cases hw
      exact ⟨rfl, Pending.noConfusion, fun _ _ he => TDatabase.entry_of_serveCached hserve he⟩
    · rw [hout] at hw
      cases hw
      exact ⟨rfl, Pending.noConfusion, fun _ _ he => TDatabase.entry_of_serveCached hserve he⟩

theorem readForeign_cases {s s' : TSession} {db db' : TDatabase} {now : Int} {buffer : Bytes}
    (h : readForeign gzip s db now buffer = .ok (s', db')) :
    (∃ p, feedUntil THttpResponseParser.consume s.responseParser buffer = .ok (.await, p) ∧
      s' = { s with responseParser := p, pending := .readForeign } ∧ db' = db) ∨
    ∃ p, feedUntil THttpResponseParser.consume s.responseParser buffer = .ok (.parsed, p) ∧
      db.cacheResponse s.requestParser.parsed p.parsed now = .ok db' ∧
      s' = { s with
        responseParser := p
        response := answered gzip s.requestParser.parsed p.parsed
        pending := .writeClient } := by
  unfold readForeign at h
  split at h
  · cases h
  · rename_i p hp
    cases h
    exact .inl ⟨p, hp, rfl, rfl⟩
  · rename_i p hp
    dsimp only at h
    split at h
    · cases h
    · rename_i db₁ hdb
      cases h
      exact .inr ⟨p, hp, hdb, rfl⟩

/-! ## Streams in pieces -/

/-- A response that can be stored is. -/
theorem cacheResponse_ok {response : THttpResponse} {duration : Int}
    (hd : cacheDuration response = .ok duration) (db : TDatabase) (request : THttpRequest) (now : Int) :
    ∃ db', db.cacheResponse request response now = .ok db' := by
  by_cases hpos : 0 < duration
  · exact ⟨_, TDatabase.cacheResponse_store hd hpos⟩
  · exact ⟨db, TDatabase.cacheResponse_skip hd hpos⟩

/-- The end of a response. -/
theorem readForeign_completes {s : TSession} {q : THttpResponseParser} {b : Bytes} {duration : Int}
    (hd : cacheDuration q.parsed = .ok duration)
    (hb : Completes THttpResponseParser.consume s.responseParser b q) (gzip : Bytes → Bytes)
    (db : TDatabase) (now : Int) (rest : Bytes) : ∃ db', readForeign gzip s db now (b ++ rest) = .ok ({ s with
      responseParser := q
      response := answered gzip s.requestParser.parsed q.parsed
      pending := .writeClient }, db') := by
  obtain ⟨db', hdb⟩ := cacheResponse_ok hd db s.requestParser.parsed now
  refine ⟨db', ?_⟩
  simp only [readForeign, hb.feedUntil rest, hdb]
  rfl

/-- By induction on the pieces: either the response ends in the first one, or
the rest of it is in the others. -/
theorem readStream_completes {q : THttpResponseParser} {duration : Int}
    (hd : cacheDuration q.parsed = .ok duration) : ∀ {pieces : List (Int × Bytes)} {s : TSession}
    (db : TDatabase) {b rest : Bytes}, s.pending = .readForeign →
    Completes THttpResponseParser.consume s.responseParser b q →
    (pieces.map Prod.snd).flatten = b ++ rest →
    ∃ s' db', readStream gzip s db pieces = .ok (s', db') ∧ s'.pending = .writeClient ∧
      s'.response = answered gzip s.requestParser.parsed q.parsed
  | [], s, db, b, rest, _, hb, hpieces => by
    have hnil := (List.append_eq_nil_iff.mp hpieces.symm).1
    exact absurd hnil hb.ne_nil
  | (now, buffer) :: pieces, s, db, b, rest, hs, hb, hpieces => by
    have hdone : ∀ extra, buffer = b ++ extra → ∃ s' db',
        readStream gzip s db ((now, buffer) :: pieces) = .ok (s', db') ∧ s'.pending = .writeClient ∧
          s'.response = answered gzip s.requestParser.parsed q.parsed := by
      rintro extra rfl
      obtain ⟨db', hread⟩ := readForeign_completes hd hb gzip db now extra
      refine ⟨{ s with
        responseParser := q
        response := answered gzip s.requestParser.parsed q.parsed
        pending := .writeClient }, db', ?_, rfl, rfl⟩
      simp only [readStream, hs, if_true, hread]
      cases pieces with
      | nil => rfl
      | cons x pieces => rfl
    rw [List.map_cons, List.flatten_cons] at hpieces
    rcases List.append_eq_append_iff.mp hpieces with ⟨b₂, rfl, hrest⟩ | ⟨extra, hbuf, -⟩
    · by_cases hnil : b₂ = []
      · exact hdone [] (by rw [hnil, List.append_nil, List.append_nil])
      · obtain ⟨p, hp, hb₂⟩ := hb.split hnil
        obtain ⟨s', db', hrun, hout⟩ := readStream_completes hd db
          (s := { s with responseParser := p, pending := .readForeign }) rfl hb₂ hrest
        refine ⟨s', db', ?_, hout⟩
        simp only [readStream, hs, if_true, readForeign, hp.feedUntil]
        exact hrun
    · exact hdone extra hbuf

end

end NetworksLab.L4.Session
