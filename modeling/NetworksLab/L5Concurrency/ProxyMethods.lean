import NetworksLab.L5Concurrency.ProxyCache

/-!
# The cache and the method (`individual/lib/Session.cpp`, `Database.cpp`)

`TDatabase` files responses under the URL of the request. `CacheResponse` gets
the whole request and `ServeCached` its URL; neither looks at the method, and
nothing else in the proxy does.

Ghost: the requests whose responses have been stored, with these responses.

Results:
* `entries_reachable`: an entry is the response stored last under its URL, for
  a request with that URL.
* `served_url`: so is what a session is served from the cache; any other request
  with that URL would be served it too.
* `post_served_get`: a POST is answered with what was stored for a GET.
-/
namespace NetworksLab.L5.ProxyCache
open NetworksLab.Expiring
open NetworksLab.Incremental
open NetworksLab.L3.Http
open NetworksLab.L4.Database
open NetworksLab.L4.Session

/-- The stores so far, oldest first: the URL, the request and the response. -/
abbrev StoreLog := List (Bytes × THttpRequest × THttpResponse)

structure Logged where
  proxy : Proxy
  /-- ghost -/
  log : StoreLog

/-- What `CacheResponse` stores at the end of a session's response.
mirrors individual/lib/Database.cpp:66-83 -/
def stored (s : TSession) : StoreLog :=
  match cacheDuration s.responseParser.parsed with
  | .ok duration =>
    if 0 < duration then
      [(s.requestParser.parsed.requestLine.url, s.requestParser.parsed, s.responseParser.parsed)]
    else []
  | .error _ => []

/-- What a callback has stored, seen from behind it. -/
def storedBy (st : Proxy) : Event → StoreLog
  | .readForeign i _ _ =>
    match st.clients i with
    | some c => if c.session.pending = .writeClient then stored c.session else []
    | none => []
  | _ => []

def logged (gzip : Bytes → Bytes) : LTS Logged Event where
  init h := h = ⟨.init, []⟩
  step h e h' := Step gzip h.proxy e h'.proxy ∧ h'.log = h.log ++ storedBy h'.proxy e

theorem logged_next {gzip : Bytes → Bytes} {h : Logged} {e : Event} {st : Proxy}
    (hr : (logged gzip).Reachable h) (hs : Step gzip h.proxy e st) :
    (logged gzip).Reachable ⟨st, h.log ++ storedBy st e⟩ := by
  have hstep : (logged gzip).step h e ⟨st, h.log ++ storedBy st e⟩ := ⟨hs, rfl⟩
  exact hr.next hstep

/-- The ghost keeps no run of the proxy out. -/
theorem logged_reachable {gzip : Bytes → Bytes} {st : Proxy} (h : (lts gzip).Reachable st) :
    ∃ log, (logged gzip).Reachable ⟨st, log⟩ := by
  obtain ⟨st₀, h₀, hr⟩ := h
  induction hr with
  | refl => exact ⟨[], .of_init (by rw [h₀]; rfl)⟩
  | tail _ hs ih =>
    obtain ⟨log, hlog⟩ := ih
    exact ⟨_, logged_next hlog hs⟩

/-! ## Entries and stores -/

/-- Each entry is the response of the latest store under its URL. -/
def Entries (h : Logged) : Prop :=
  ∀ url entry, h.proxy.database.savedResponses url = some entry →
    ∃ request : THttpRequest, latest h.log url = some (request, entry.response) ∧
      request.requestLine.url = url

/-- A callback that stores nothing, and adds no entry. -/
theorem Entries.keep {h h' : Logged} (hh : Entries h) (hlog : h'.log = h.log ++ [])
    (hdb : ∀ url entry, h'.proxy.database.savedResponses url = some entry →
      h.proxy.database.savedResponses url = some entry) : Entries h' := by
  intro url entry he
  rw [hlog, List.append_nil]
  exact hh url entry (hdb url entry he)

/-- The end of a response. -/
theorem Entries.store {h : Logged} (hh : Entries h) {st : Proxy} {s : TSession} {now : Int}
    (hstore : h.proxy.database.cacheResponse s.requestParser.parsed s.responseParser.parsed now =
      .ok st.database) : Entries ⟨st, h.log ++ stored s⟩ := by
  obtain ⟨duration, hd, ⟨hpos, hdb⟩ | ⟨hpos, hdb⟩⟩ := TDatabase.cacheResponse_cases hstore
  · intro url entry he
    simp only [stored, hd, if_pos hpos, latest_append]
    simp only [hdb] at he
    by_cases hu : url = s.requestParser.parsed.requestLine.url
    · subst hu
      rw [Function.update_self] at he ⊢
      cases he
      exact ⟨_, rfl, rfl⟩
    · rw [Function.update_of_ne hu] at he ⊢
      exact hh url entry he
  · have hnil : stored s = [] := by simp only [stored, hd, if_neg hpos]
    refine hh.keep (by rw [hnil]) fun url entry he => ?_
    rwa [hdb] at he

theorem entries_step {gzip : Bytes → Bytes} {h h' : Logged} {e : Event} (hh : Entries h)
    (hs : (logged gzip).step h e h') : Entries h' := by
  obtain ⟨st', log'⟩ := h'
  obtain ⟨hs, rfl⟩ : Step gzip h.proxy e st' ∧ log' = h.log ++ storedBy st' e := hs
  cases hs with
  | accept _ => exact hh.keep rfl fun _ _ he => he
  | readClient _ _ hread => exact hh.keep rfl (readClient_keeps hread).2.2
  | requestWritten _ _ => exact hh.keep rfl fun _ _ he => he
  | readForeign hi hp hread hs =>
    obtain ⟨p, -, rfl, rfl⟩ | ⟨p, -, -, rfl⟩ := readForeign_cases hread
    · exact hh.keep (by simp [storedBy, Proxy.set]) fun _ _ he => he
    · cases hs
  | endForeign hi hp hread hs =>
    obtain ⟨p, -, rfl, -⟩ | ⟨p, -, hstore, rfl⟩ := readForeign_cases hread
    · cases hs
    · simp only [storedBy, Proxy.set, Function.update_self, if_true]
      exact hh.store hstore
  | stop => exact hh.keep rfl fun _ _ he => he

theorem entries_reachable {gzip : Bytes → Bytes} {h : Logged} (hr : (logged gzip).Reachable h) :
    Entries h := by
  have hI : (logged gzip).Inductive Entries :=
    { init := fun h hh => by
        rw [hh]
        intro url entry he
        cases he
      step := fun h e h' hh hs => entries_step hh hs }
  exact hI.reachable h hr

/-! ## What a request is answered with -/

/-- A session of `st` reads the end of its request in `buffer`, and is answered
from the cache. -/
structure FromCache (gzip : Bytes → Bytes) (st : Proxy) (now : Int) (buffer : Bytes) (s : TSession) :
    Prop where
  read : ∃ i c db, st.clients i = some c ∧ c.session.pending = .readClient ∧
    readClient gzip c.session st.database now buffer = .ok (s, db)
  cached : s.pending = .writeClient

/-- What is served, and the entry it comes from. -/
theorem FromCache.entry {gzip : Bytes → Bytes} {st : Proxy} {now : Int} {buffer : Bytes} {s : TSession}
    (h : FromCache gzip st now buffer s) : ∃ entry,
      st.database.savedResponses s.requestParser.parsed.requestLine.url = some entry ∧
      ¬ entry.expire < now ∧ s.response = answered gzip s.requestParser.parsed entry.response := by
  obtain ⟨⟨i, c, db, -, -, hread⟩, hcached⟩ := h
  obtain ⟨p, rfl, -⟩ | ⟨p, -, hw⟩ := readClient_cases hread
  · cases hcached
  obtain ⟨cached, db₁, hserve, out, hout⟩ | ⟨db₁, hserve, out, hout⟩ :=
    writeForeign_cases gzip { c.session with requestParser := p } st.database now
  · rw [hout] at hw
    cases hw
    obtain ⟨entry, hentry, rfl, hexp⟩ := TDatabase.serveCached_some hserve
    exact ⟨entry, hentry, hexp, rfl⟩
  · rw [hout] at hw
    cases hw
    cases hcached

/-- **What the cache answers.** In every reachable state, when a session is
answered from the cache, it is with the response that was stored last for its
URL, for a request with that URL; if all responses stored for it were for
requests with the session's method, so was this one. Any session that reads a
request with this URL now is answered from the cache, whatever its method is. -/
theorem served_url (gzip : Bytes → Bytes) {h : Logged} (hr : (logged gzip).Reachable h) {now : Int}
    {buffer : Bytes} {s : TSession} (hs : FromCache gzip h.proxy now buffer s) :
    (∃ request response, latest h.log s.requestParser.parsed.requestLine.url = some (request, response) ∧
      request.requestLine.url = s.requestParser.parsed.requestLine.url ∧
      s.response = answered gzip s.requestParser.parsed response ∧
      ((∀ x ∈ h.log, x.1 = s.requestParser.parsed.requestLine.url →
        x.2.1.requestLine.method = s.requestParser.parsed.requestLine.method) →
        request.requestLine.method = s.requestParser.parsed.requestLine.method)) ∧
    ∀ s' : TSession, s'.requestParser.parsed.requestLine.url = s.requestParser.parsed.requestLine.url →
      (writeForeign gzip s' h.proxy.database now).1.pending = .writeClient := by
  obtain ⟨entry, hentry, hexp, hout⟩ := hs.entry
  obtain ⟨request, hlatest, hurl⟩ := entries_reachable hr _ entry hentry
  refine ⟨⟨request, entry.response, hlatest, hurl, hout, fun hall => ?_⟩, fun s' hs' => ?_⟩
  · exact hall _ (mem_of_latest hlatest) rfl
  · have hserve : h.proxy.database.serveCached s'.requestParser.parsed.requestLine.url now =
        (some entry.response, h.proxy.database) := by
      simp only [TDatabase.serveCached, hs', hentry, if_neg hexp]
    obtain ⟨cached, db, -, out, hw⟩ | ⟨db, hmiss, -⟩ := writeForeign_cases gzip s' h.proxy.database now
    · rw [hw]
    · rw [hserve] at hmiss
      cases hmiss

/-- An answer from the cache is what was stored for a request with the same
method and URL. -/
def SameMethod (gzip : Bytes → Bytes) : Prop :=
  ∀ (h : Logged), (logged gzip).Reachable h → ∀ (now : Int) (buffer : Bytes) (s : TSession),
    FromCache gzip h.proxy now buffer s →
      ∃ x ∈ h.log, x.2.1.requestLine.method = s.requestParser.parsed.requestLine.method ∧
        x.2.1.requestLine.url = s.requestParser.parsed.requestLine.url ∧
        s.response = answered gzip s.requestParser.parsed x.2.2

/-- A GET has been passed on, its response stored, and the next client accepted. -/
theorem getText_stored : ∃ h, (logged id).Reachable h ∧ h.proxy.clients 1 = some ⟨.make, []⟩ ∧
    h.proxy.database = agedDatabase ∧ h.log = [(ascii "/", getParser.parsed, agedParser.parsed)] := by
  have hstored : stored ⟨getText, agedText, getParser, agedParser, .writeClient⟩ =
      [(ascii "/", getParser.parsed, agedParser.parsed)] := by
    simp only [stored, agedText_duration]
    rfl
  have h₁ := logged_next (LTS.Reachable.of_init (T := logged id) rfl) (.accept (i := 0) rfl)
  have h₂ := logged_next h₁ (.readClient (i := 0) (c := ⟨.make, []⟩) rfl rfl getText_asked)
  have h₃ := logged_next h₂ (.requestWritten (i := 0) rfl rfl)
  have h₄ := logged_next h₃ (.endForeign (i := 0) (c := ⟨_, []⟩) rfl rfl agedText_ended rfl)
  have h₅ := logged_next h₄ (.accept (i := 1) rfl)
  exact ⟨_, h₅, rfl, rfl, hstored⟩

def postText : Bytes := ascii "POST / HTTP/1.1\r\n\r\n"

def postParser : THttpRequestParser :=
  ⟨⟨⟨[SP], ascii "POST"⟩, ⟨[SP], ascii "/"⟩, ⟨CRLF, ascii "HTTP/1.1"⟩, .httpVersion⟩, .make, .make, .headers⟩

theorem postText_read : feedUntil THttpRequestParser.consume .make postText = .ok (.parsed, postParser) := by
  decide +kernel

/-- The POST a second later. -/
theorem postText_served {st : Proxy} (hi : st.clients 1 = some ⟨.make, []⟩)
    (hdb : st.database = agedDatabase) :
    FromCache id st second postText ⟨postText, agedText, postParser, .make, .writeClient⟩ := by
  refine ⟨⟨1, ⟨.make, []⟩, agedDatabase, hi, rfl, ?_⟩, rfl⟩
  simp only [readClient, TSession.make, postText_read, hdb]
  rfl

theorem post_served_get : ¬ SameMethod id := by
  intro hsame
  obtain ⟨h, hr, hi, hdb, hlog⟩ := getText_stored
  obtain ⟨x, hx, hmethod, -⟩ := hsame h hr _ _ _ (postText_served hi hdb)
  rw [hlog] at hx
  obtain rfl := List.mem_singleton.mp hx
  exact absurd hmethod (by decide)

theorem served_url_post : ∃ (h : Logged) (s : TSession), (logged id).Reachable h ∧
    FromCache id h.proxy second postText s ∧
    (∃ request response, latest h.log s.requestParser.parsed.requestLine.url = some (request, response) ∧
      request.requestLine.url = s.requestParser.parsed.requestLine.url ∧
      s.response = answered id s.requestParser.parsed response ∧
      ((∀ x ∈ h.log, x.1 = s.requestParser.parsed.requestLine.url →
        x.2.1.requestLine.method = s.requestParser.parsed.requestLine.method) →
        request.requestLine.method = s.requestParser.parsed.requestLine.method)) ∧
    ∀ s' : TSession, s'.requestParser.parsed.requestLine.url = s.requestParser.parsed.requestLine.url →
      (writeForeign id s' h.proxy.database second).1.pending = .writeClient := by
  obtain ⟨h, hr, hi, hdb, -⟩ := getText_stored
  have hs := postText_served hi hdb
  exact ⟨h, _, hr, hs, served_url id hr hs⟩

end NetworksLab.L5.ProxyCache
