import NetworksLab.Core.LTS
import NetworksLab.L4App.Session

/-!
# Sessions on one cache (`individual/lib/Session.cpp`, `Server.cpp`)

The proxy runs its sessions on one thread: a step is a callback of one of them,
in any order, and all of them use one database. Whatever the clocks say and
however the streams come in pieces, a session that is answered from the cache
gets what it would have got from the origin.

Ghosts: what each session has received from its origin, and for each URL the
stream whose response was stored last.

Results:
* `inv_reachable`: every entry is the response that was parsed from the stream
  that is told for its URL, not compressed.
* `cached_agrees`: an answer from the cache is the answer to the same request
  with that stream from the origin.
-/
namespace NetworksLab.L5.ProxyCache
open NetworksLab.Incremental
open NetworksLab.L3.Http
open NetworksLab.L4.Database
open NetworksLab.L4.Session

structure Client where
  session : TSession
  /-- ghost: what came from the origin -/
  received : Bytes

structure Proxy where
  database : TDatabase
  clients : Nat → Option Client
  /-- ghost: what came from the origin with the response that was stored last -/
  origin : Bytes → Option Bytes

def Proxy.init : Proxy := ⟨.make, fun _ => none, fun _ => none⟩

/-- The client `i` has changed, or left. -/
def Proxy.set (st : Proxy) (i : Nat) (c : Option Client) : Proxy :=
  { st with clients := Function.update st.clients i c }

/-- The streams told behind a response that has been received. -/
def tell (origin : Bytes → Option Bytes) (url received : Bytes) (response : THttpResponse) :
    Bytes → Option Bytes :=
  match cacheDuration response with
  | .ok duration => if 0 < duration then Function.update origin url (some received) else origin
  | .error _ => origin

inductive Event where
  | accept (i : Nat)
  | readClient (i : Nat) (now : Int) (buffer : Bytes)
  | requestWritten (i : Nat)
  | readForeign (i : Nat) (now : Int) (buffer : Bytes)
  /-- the answer has been written, or an operation has failed -/
  | stop (i : Nat)

inductive Step (gzip : Bytes → Bytes) : Proxy → Event → Proxy → Prop
  | accept {st : Proxy} {i : Nat} : st.clients i = none →
      Step gzip st (.accept i) (st.set i (some ⟨.make, []⟩))
  | readClient {st : Proxy} {i : Nat} {c : Client} {now : Int} {buffer : Bytes} {s : TSession}
      {db : TDatabase} : st.clients i = some c → c.session.pending = .readClient →
      L4.Session.readClient gzip c.session st.database now buffer = .ok (s, db) →
      Step gzip st (.readClient i now buffer) { st.set i (some ⟨s, c.received⟩) with database := db }
  | requestWritten {st : Proxy} {i : Nat} {c : Client} : st.clients i = some c →
      c.session.pending = .writeForeign →
      Step gzip st (.requestWritten i) (st.set i (some ⟨c.session.requestWritten, c.received⟩))
  /-- the response goes on -/
  | readForeign {st : Proxy} {i : Nat} {c : Client} {now : Int} {buffer : Bytes} {s : TSession}
      {db : TDatabase} : st.clients i = some c → c.session.pending = .readForeign →
      L4.Session.readForeign gzip c.session st.database now buffer = .ok (s, db) →
      s.pending = .readForeign →
      Step gzip st (.readForeign i now buffer)
        { st.set i (some ⟨s, c.received ++ buffer⟩) with database := db }
  /-- the response ends -/
  | endForeign {st : Proxy} {i : Nat} {c : Client} {now : Int} {buffer : Bytes} {s : TSession}
      {db : TDatabase} : st.clients i = some c → c.session.pending = .readForeign →
      L4.Session.readForeign gzip c.session st.database now buffer = .ok (s, db) →
      s.pending = .writeClient →
      Step gzip st (.readForeign i now buffer)
        { st.set i (some ⟨s, c.received ++ buffer⟩) with
          database := db
          origin := tell st.origin s.requestParser.parsed.requestLine.url (c.received ++ buffer)
            s.responseParser.parsed }
  | stop {st : Proxy} {i : Nat} : Step gzip st (.stop i) (st.set i none)

def lts (gzip : Bytes → Bytes) : LTS Proxy Event where
  init := (· = .init)
  step := Step gzip

/-! ## Invariant -/

/-- The response that a new parser makes of a stream, if its duration is defined. -/
def Stored (stream : Bytes) (response : THttpResponse) : Prop :=
  ∃ b rest p, stream = b ++ rest ∧ Completes THttpResponseParser.consume .make b p ∧
    response = p.parsed ∧ ∃ duration, cacheDuration response = .ok duration

structure Client.Inv (c : Client) : Prop where
  early : c.session.pending = .readClient ∨ c.session.pending = .writeForeign →
    c.received = [] ∧ c.session.responseParser = .make
  reading : c.session.pending = .readForeign →
    Awaits THttpResponseParser.consume .make c.received c.session.responseParser

theorem Client.inv_reading {c : Client} (hp : c.session.pending = .readForeign)
    (h : Awaits THttpResponseParser.consume .make c.received c.session.responseParser) : c.Inv where
  early he := by
    rw [hp] at he
    rcases he with he | he
    · cases he
    · cases he
  reading _ := h

theorem Client.inv_answered {c : Client} (hp : c.session.pending = .writeClient) : c.Inv where
  early he := by
    rw [hp] at he
    rcases he with he | he
    · cases he
    · cases he
  reading hr := by
    rw [hp] at hr
    cases hr

structure Inv (st : Proxy) : Prop where
  clients : ∀ i c, st.clients i = some c → c.Inv
  entries : ∀ url entry, st.database.savedResponses url = some entry →
    ∃ stream, st.origin url = some stream ∧ Stored stream entry.response

theorem inv_init : Inv .init := by
  constructor
  · intro i c h
    cases h
  · intro url entry h
    cases h

section
variable {gzip : Bytes → Bytes} {st : Proxy} {i : Nat}

/-- The others stay. -/
theorem clients_set {c : Option Client} (h : Inv st) (hc : ∀ c', c = some c' → c'.Inv) :
    ∀ j c', (st.set i c).clients j = some c' → c'.Inv := by
  intro j c' hj
  simp only [Proxy.set] at hj
  by_cases hij : j = i
  · subst hij
    rw [Function.update_self] at hj
    exact hc c' hj
  · rw [Function.update_of_ne hij] at hj
    exact h.clients j c' hj

theorem inv_set {c : Option Client} (h : Inv st) (hc : ∀ c', c = some c' → c'.Inv) :
    Inv (st.set i c) :=
  ⟨clients_set h hc, h.entries⟩

/-- A request is read, and answered or passed on: the cache gains no entry. -/
theorem inv_readClient {c : Client} {now : Int} {buffer : Bytes} {s : TSession} {db : TDatabase}
    (h : Inv st) (hi : st.clients i = some c) (hp : c.session.pending = .readClient)
    (hread : L4.Session.readClient gzip c.session st.database now buffer = .ok (s, db)) :
    Inv { st.set i (some ⟨s, c.received⟩) with database := db } := by
  obtain ⟨hnil, hnew⟩ := (h.clients i c hi).early (.inl hp)
  obtain ⟨hparser, hpending, hentries⟩ := readClient_keeps hread
  refine ⟨clients_set h fun c' hc' => ?_, fun url entry he => h.entries url entry (hentries url entry he)⟩
  cases hc'
  exact ⟨fun _ => ⟨hnil, hparser.trans hnew⟩, fun hr => absurd hr hpending⟩

theorem inv_requestWritten {c : Client} (h : Inv st) (hi : st.clients i = some c)
    (hp : c.session.pending = .writeForeign) :
    Inv (st.set i (some ⟨c.session.requestWritten, c.received⟩)) := by
  obtain ⟨hnil, hnew⟩ := (h.clients i c hi).early (.inr hp)
  apply inv_set h
  intro c' hc'
  cases hc'
  apply Client.inv_reading rfl
  rw [hnil, TSession.requestWritten, hnew]
  exact .nil _

/-- A part of a response. -/
theorem inv_readForeign {c : Client} {now : Int} {buffer : Bytes} {s : TSession} {db : TDatabase}
    (h : Inv st) (hi : st.clients i = some c) (hp : c.session.pending = .readForeign)
    (hread : L4.Session.readForeign gzip c.session st.database now buffer = .ok (s, db))
    (hs : s.pending = .readForeign) :
    Inv { st.set i (some ⟨s, c.received ++ buffer⟩) with database := db } := by
  obtain ⟨p, hp', rfl, rfl⟩ | ⟨p, -, -, rfl⟩ := readForeign_cases hread
  · refine ⟨clients_set h fun c' hc' => ?_, h.entries⟩
    cases hc'
    exact Client.inv_reading rfl (((h.clients i c hi).reading hp).append (awaits_of_feedUntil hp'))
  · cases hs

/-- The end of a response: if it is stored, its stream is told. -/
theorem inv_endForeign {c : Client} {now : Int} {buffer : Bytes} {s : TSession} {db : TDatabase}
    (h : Inv st) (hi : st.clients i = some c) (hp : c.session.pending = .readForeign)
    (hread : L4.Session.readForeign gzip c.session st.database now buffer = .ok (s, db))
    (hs : s.pending = .writeClient) :
    Inv { st.set i (some ⟨s, c.received ++ buffer⟩) with
      database := db
      origin := tell st.origin s.requestParser.parsed.requestLine.url (c.received ++ buffer)
        s.responseParser.parsed } := by
  obtain ⟨p, -, rfl, -⟩ | ⟨p, hp', hstore, rfl⟩ := readForeign_cases hread
  · cases hs
  · refine ⟨clients_set h fun c' hc' => ?_, fun url entry he => ?_⟩
    · cases hc'
      exact Client.inv_answered rfl
    · obtain ⟨duration, hd, ⟨hpos, rfl⟩ | ⟨hpos, rfl⟩⟩ := TDatabase.cacheResponse_cases hstore
      · simp only [tell, hd, if_pos hpos]
        by_cases hu : url = c.session.requestParser.parsed.requestLine.url
        · subst hu
          simp only [Function.update_self] at he ⊢
          cases he
          obtain ⟨t, u, rfl, ht⟩ := completes_of_feedUntil hp'
          exact ⟨_, rfl, c.received ++ t, u, p, (List.append_assoc ..).symm,
            ((h.clients i c hi).reading hp).completes ht, rfl, duration, hd⟩
        · simp only [Function.update_of_ne hu] at he ⊢
          exact h.entries url entry he
      · simp only [tell, hd, if_neg hpos]
        exact h.entries url entry he

end

theorem inv_inductive (gzip : Bytes → Bytes) : (lts gzip).Inductive Inv where
  init st h := h ▸ inv_init
  step st e st' h hs := by
    cases hs with
    | accept _ =>
      apply inv_set h
      intro c' hc'
      cases hc'
      exact ⟨fun _ => ⟨rfl, rfl⟩, fun hr => by cases hr⟩
    | readClient hi hp hread => exact inv_readClient h hi hp hread
    | requestWritten hi hp => exact inv_requestWritten h hi hp
    | readForeign hi hp hread hs => exact inv_readForeign h hi hp hread hs
    | endForeign hi hp hread hs => exact inv_endForeign h hi hp hread hs
    | stop => exact inv_set h fun c' hc' => by cases hc'

/-- **Entries.** In every reachable state each entry is a response as it was
parsed, and its stream is told. -/
theorem inv_reachable {gzip : Bytes → Bytes} {st : Proxy} (h : (lts gzip).Reachable st) : Inv st :=
  (inv_inductive gzip).reachable st h

/-- **The cached path agrees with the origin path.** In every reachable state,
when a session reads the end of its request and answers it from the cache: the
stream whose response was stored last for this URL is told, and with nothing in
the cache the same session would pass the request on, and answer that stream, in
whatever pieces it comes, with the same bytes. -/
theorem cached_agrees (gzip : Bytes → Bytes) {st : Proxy} (h : (lts gzip).Reachable st) {i : Nat}
    {c : Client} (hi : st.clients i = some c) (hp : c.session.pending = .readClient) {now : Int}
    {buffer : Bytes} {s : TSession} {db : TDatabase}
    (hread : readClient gzip c.session st.database now buffer = .ok (s, db))
    (hcached : s.pending = .writeClient) :
    ∃ stream s₀ db₀, st.origin s.requestParser.parsed.requestLine.url = some stream ∧
      readClient gzip c.session .make now buffer = .ok (s₀, db₀) ∧ s₀.pending = .writeForeign ∧
      ∀ (db₁ : TDatabase) (pieces : List (Int × Bytes)), (pieces.map Prod.snd).flatten = stream →
        ∃ s' db', readStream gzip s₀.requestWritten db₁ pieces = .ok (s', db') ∧
          s'.pending = .writeClient ∧ s'.response = s.response := by
  have hinv := inv_reachable h
  obtain ⟨p, rfl, -⟩ | ⟨p, hfeed, hw⟩ := readClient_cases hread
  · cases hcached
  obtain ⟨cached, db₁, hserve, out, hout⟩ | ⟨db₁, hserve, out, hout⟩ :=
    writeForeign_cases gzip { c.session with requestParser := p } st.database now
  · rw [hout] at hw
    cases hw
    -- what was served, and the stream it came from
    obtain ⟨entry, hentry, rfl, -⟩ := TDatabase.serveCached_some hserve
    obtain ⟨stream, horigin, b, rest, q, rfl, hb, hq, duration, hd⟩ := hinv.entries _ entry hentry
    rw [hq] at hd ⊢
    -- the same session without the entry
    have hmiss : ∃ out₀, readClient gzip c.session .make now buffer = .ok ({ c.session with
        request := out₀, requestParser := p, pending := .writeForeign }, .make) := by
      simp only [readClient, hfeed]
      exact ⟨_, rfl⟩
    obtain ⟨out₀, hmiss⟩ := hmiss
    refine ⟨b ++ rest, _, _, horigin, hmiss, rfl, fun db₁ pieces hpieces => ?_⟩
    have hnew := ((hinv.clients i c hi).early (.inl hp)).2
    exact readStream_completes hd db₁ rfl (hnew ▸ hb) hpieces
  · rw [hout] at hw
    cases hw
    cases hcached

def getText : Bytes := ascii "GET / HTTP/1.1\r\n\r\n"

def getParser : THttpRequestParser :=
  ⟨⟨⟨[SP], ascii "GET"⟩, ⟨[SP], ascii "/"⟩, ⟨CRLF, ascii "HTTP/1.1"⟩, .httpVersion⟩, .make, .make, .headers⟩

def agedText : Bytes := ascii "HTTP/1.1 200 OK\r\nCache-Control: max-age=600\r\n\r\n"

def agedParser : THttpResponseParser :=
  { THttpResponseParser.behindLine okLine with
    headersParser := ⟨.make CRLF, [⟨cacheControl, ascii "max-age=600"⟩]⟩ }

theorem getText_read : feedUntil THttpRequestParser.consume .make getText = .ok (.parsed, getParser) := by
  decide +kernel

theorem agedText_read : feedUntil THttpResponseParser.consume .make agedText = .ok (.parsed, agedParser) := by
  decide +kernel

/-- The cache behind the first request. -/
def agedDatabase : TDatabase :=
  ⟨Function.update TDatabase.make.savedResponses (ascii "/") (some ⟨agedParser.parsed, 0 + 600 * second⟩)⟩

theorem getText_asked : readClient id .make .make 0 getText =
    .ok (⟨getText, [], getParser, .make, .writeForeign⟩, .make) := by
  simp only [readClient, TSession.make, getText_read]
  rfl

theorem agedText_duration : cacheDuration agedParser.parsed = .ok 600 := by decide +kernel

theorem agedText_ended : readForeign id ⟨getText, [], getParser, .make, .readForeign⟩ .make 0 agedText =
    .ok (⟨getText, agedText, getParser, agedParser, .writeClient⟩, agedDatabase) := by
  simp only [readForeign, agedText_read, TDatabase.cacheResponse_store agedText_duration (by decide)]
  rfl

/-- One request is passed on, and the next one answered from the cache. -/
theorem cached_agrees_aged : ∃ (st : Proxy) (c : Client) (s : TSession) (db : TDatabase),
    (lts id).Reachable st ∧ st.clients 1 = some c ∧ c.session.pending = .readClient ∧
    readClient id c.session st.database second getText = .ok (s, db) ∧ s.pending = .writeClient ∧
    ∃ stream s₀ db₀, st.origin s.requestParser.parsed.requestLine.url = some stream ∧
      readClient id c.session .make second getText = .ok (s₀, db₀) ∧ s₀.pending = .writeForeign ∧
      ∀ (db₁ : TDatabase) (pieces : List (Int × Bytes)), (pieces.map Prod.snd).flatten = stream →
        ∃ s' db', readStream id s₀.requestWritten db₁ pieces = .ok (s', db') ∧
          s'.pending = .writeClient ∧ s'.response = s.response := by
  have hserved : readClient id .make agedDatabase second getText =
      .ok (⟨getText, agedText, getParser, .make, .writeClient⟩, agedDatabase) := by
    simp only [readClient, TSession.make, getText_read]
    rfl
  have h₁ := (LTS.Reachable.of_init (T := lts id) rfl).next (.accept (i := 0) rfl)
  have h₂ := h₁.next (.readClient (i := 0) (c := ⟨.make, []⟩) rfl rfl getText_asked)
  have h₃ := h₂.next (.requestWritten (i := 0) rfl rfl)
  have h₄ := h₃.next (.endForeign (i := 0) (c := ⟨_, []⟩) rfl rfl agedText_ended rfl)
  have h₅ := h₄.next (.accept (i := 1) rfl)
  exact ⟨_, ⟨.make, []⟩, _, _, h₅, rfl, rfl, hserved, rfl, cached_agrees id h₅ (i := 1) rfl rfl hserved rfl⟩

end NetworksLab.L5.ProxyCache
