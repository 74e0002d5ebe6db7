import NetworksLab.L3Protocol.CompressCodings
import NetworksLab.L3Protocol.HttpLockstep
import NetworksLab.L4App.ProxyChain
import NetworksLab.L5Concurrency.ProxyMethods

/-!
# Who gets what from the proxy (`individual/lib/Session.cpp`, `Database.cpp`)

The sessions of the proxy share one cache, so what one client is answered may have
been fetched for another. Ghosts: what has come from each client, and the exchanges
with origins so far, each a request and what the origin sent for it.

Results:
* `answers_from_origins`: in every reachable state, a request was passed on as it was
  read, and what a client is answered is the response that some origin sent for its
  URL: for this very session, or one that may be cached.
* `content_preserved`: read as the program reads it, it has the content that the origin
  sent; and for other clients as well, if the codings are legible.
-/
namespace NetworksLab.L5.ProxyCache
open NetworksLab.Incremental
open NetworksLab.L3.Http
open NetworksLab.L4.Database
open NetworksLab.L4.Session

/-- A request that has been passed on, and what the origin has sent for it. -/
structure Exchange where
  request : THttpRequest
  stream : Bytes

structure Traced where
  proxy : Proxy
  asked : Nat → Bytes
  exchanges : List Exchange

/-- The exchange that a session has ended. -/
def ended (st : Proxy) (i : Nat) : List Exchange :=
  match st.clients i with
  | some c => if c.session.pending = .writeClient then [⟨c.session.requestParser.parsed, c.received⟩] else []
  | none => []

def Traced.after (t : Traced) (st : Proxy) : Event → Traced
  | .accept i => ⟨st, Function.update t.asked i [], t.exchanges⟩
  | .readClient i _ buffer => ⟨st, Function.update t.asked i (t.asked i ++ buffer), t.exchanges⟩
  | .readForeign i _ _ => ⟨st, t.asked, t.exchanges ++ ended st i⟩
  | _ => { t with proxy := st }

def traced (gzip : Bytes → Bytes) : LTS Traced Event where
  init t := t = ⟨.init, fun _ => [], []⟩
  step t e t' := Step gzip t.proxy e t'.proxy ∧ t' = t.after t'.proxy e

theorem Traced.after_proxy (t : Traced) (st : Proxy) (e : Event) : (t.after st e).proxy = st := by
  cases e <;> rfl

theorem traced_step {gzip : Bytes → Bytes} {t : Traced} {e : Event} {st : Proxy} (hs : Step gzip t.proxy e st) :
    (traced gzip).step t e (t.after st e) := by
  refine ⟨?_, ?_⟩
  · rwa [t.after_proxy]
  · rw [t.after_proxy]

theorem traced_next {gzip : Bytes → Bytes} {t : Traced} {e : Event} {st : Proxy}
    (hr : (traced gzip).Reachable t) (hs : Step gzip t.proxy e st) : (traced gzip).Reachable (t.after st e) :=
  hr.next (traced_step hs)

/-- The ghost keeps no run of the proxy out. -/
theorem traced_reachable {gzip : Bytes → Bytes} {st : Proxy} (h : (lts gzip).Reachable st) :
    ∃ t, (traced gzip).Reachable t ∧ t.proxy = st := by
  obtain ⟨st₀, h₀, hr⟩ := h
  induction hr with
  | refl => exact ⟨⟨_, fun _ => [], []⟩, .of_init (by rw [h₀]; rfl), rfl⟩
  | tail _ hs ih =>
    obtain ⟨t, ht, rfl⟩ := ih
    exact ⟨_, traced_next ht hs, t.after_proxy _ _⟩

/-! ## Invariant -/

/-- `CacheResponse` stores it. -/
def Shared (response : THttpResponse) : Prop := ∃ duration, cacheDuration response = .ok duration ∧ 0 < duration

/-- What the client is answered is the response in `e`, which was fetched for its
URL: by its session, or it was stored. -/
structure Exchange.Told (gzip : Bytes → Bytes) (e : Exchange) (c : Client) (response : THttpResponse) :
    Prop where
  url : e.request.requestLine.url = c.session.requestParser.parsed.requestLine.url
  sent : Answers e.stream response
  answer : c.session.response = answered gzip c.session.requestParser.parsed response
  source : e = ⟨c.session.requestParser.parsed, c.received⟩ ∨ Shared response

/-- A session, by what has come from its client. -/
structure Served (gzip : Bytes → Bytes) (asked : Bytes) (exchanges : List Exchange) (c : Client) : Prop where
  reading : c.session.pending = .readClient →
    Awaits THttpRequestParser.consume .make asked c.session.requestParser
  asks : c.session.pending ≠ .readClient → Asks asked c.session.requestParser.parsed ∧
    c.session.request = (passed c.session.requestParser.parsed).serialize
  told : c.session.pending = .writeClient → ∃ e ∈ exchanges, ∃ response, e.Told gzip c response

structure Traced.Inv (gzip : Bytes → Bytes) (t : Traced) : Prop where
  base : ProxyCache.Inv t.proxy
  served : ∀ i c, t.proxy.clients i = some c → Served gzip (t.asked i) t.exchanges c
  entries : ∀ url entry, t.proxy.database.savedResponses url = some entry →
    ∃ e ∈ t.exchanges, e.request.requestLine.url = url ∧ Answers e.stream entry.response ∧ Shared entry.response

section
variable {gzip : Bytes → Bytes} {t : Traced} {i : Nat}

theorem Served.mono {asked : Bytes} {exchanges exchanges' : List Exchange} {c : Client}
    (h : Served gzip asked exchanges c) (hsub : exchanges ⊆ exchanges') : Served gzip asked exchanges' c where
  reading := h.reading
  asks := h.asks
  told hp := by
    obtain ⟨e, he, htold⟩ := h.told hp
    exact ⟨e, hsub he, htold⟩

/-- The others stay. -/
theorem served_set (h : t.Inv gzip) {asked : Nat → Bytes} {exchanges : List Exchange} {c : Option Client}
    (hasked : ∀ j, j ≠ i → asked j = t.asked j) (hsub : t.exchanges ⊆ exchanges)
    (hc : ∀ c', c = some c' → Served gzip (asked i) exchanges c') :
    ∀ j c', (t.proxy.set i c).clients j = some c' → Served gzip (asked j) exchanges c' := by
  intro j c' hj
  simp only [Proxy.set] at hj
  by_cases hij : j = i
  · subst hij
    rw [Function.update_self] at hj
    exact hc c' hj
  · rw [Function.update_of_ne hij] at hj
    rw [hasked j hij]
    exact (h.served j c' hj).mono hsub

theorem asked_of_ne {asked : Nat → Bytes} {b : Bytes} : ∀ j, j ≠ i → Function.update asked i b j = asked j :=
  fun _ h => Function.update_of_ne h _ _

/-- The request goes on, or ends and is passed on or answered from the cache. -/
theorem served_readClient (h : t.Inv gzip) {c : Client} {now : Int} {buffer : Bytes} {s : TSession} {db : TDatabase}
    (hi : t.proxy.clients i = some c) (hp : c.session.pending = .readClient)
    (hread : L4.Session.readClient gzip c.session t.proxy.database now buffer = .ok (s, db)) :
    Served gzip (t.asked i ++ buffer) t.exchanges ⟨s, c.received⟩ := by
  have hreading := (h.served i c hi).reading hp
  obtain ⟨p, hawait, rfl, -⟩ | ⟨b, rest, p, response, pending, hbuf, hb, hs, hpending⟩ := readClient_asks hread
  · exact ⟨fun _ => hreading.append hawait, fun hne => absurd rfl hne, fun hw => Pending.noConfusion hw⟩
  · have hpass : s.pending = pending ∧ s.requestParser = p ∧ s.request = (passed p.parsed).serialize := by
      rw [hs]
      exact ⟨rfl, rfl, rfl⟩
    obtain ⟨hpend, hparser, hrequest⟩ := hpass
    refine ⟨fun hr => ?_, fun _ => ⟨⟨t.asked i ++ b, rest, p, ?_, hreading.completes hb, ?_⟩, ?_⟩,
      fun hw => ?_⟩
    · rcases hpending with rfl | rfl
      · cases hpend.symm.trans hr
      · cases hpend.symm.trans hr
    · rw [hbuf, List.append_assoc]
    · exact congrArg THttpRequestParser.parsed hparser
    · dsimp only
      rw [hrequest, hparser]
    · have hcache : FromCache gzip t.proxy now buffer s := ⟨⟨i, c, db, hi, hp, hread⟩, hw⟩
      obtain ⟨entry, hentry, -, hout⟩ := hcache.entry
      obtain ⟨e, he, hurl, hanswers, hshared⟩ := h.entries _ entry hentry
      exact ⟨e, he, entry.response, hurl, hanswers, hout, .inr hshared⟩

/-- A part of a response. -/
theorem inv_part (h : t.Inv gzip) {c : Client} {now : Int} {buffer : Bytes} {s : TSession} {db : TDatabase}
    (hi : t.proxy.clients i = some c) (hp : c.session.pending = .readForeign)
    (hread : L4.Session.readForeign gzip c.session t.proxy.database now buffer = .ok (s, db))
    (hs : s.pending = .readForeign) {st : Proxy} (hbase : ProxyCache.Inv st) (hdb : st.database = db)
    (hclients : st.clients = (t.proxy.set i (some ⟨s, c.received ++ buffer⟩)).clients) :
    (t.after st (.readForeign i now buffer)).Inv gzip := by
  have hasks := (h.served i c hi).asks (by rw [hp]; exact Pending.noConfusion)
  obtain ⟨p, -, rfl, rfl⟩ | ⟨p, -, -, rfl⟩ := readForeign_cases hread
  · have hended : ended st i = [] := by
      simp [ended, hclients, Proxy.set]
    have hafter : t.after st (.readForeign i now buffer) = { t with proxy := st } := by
      rw [Traced.after, hended, List.append_nil]
    rw [hafter]
    refine ⟨hbase, fun j c' hj => ?_, fun url entry he => h.entries url entry (hdb ▸ he)⟩
    dsimp only at hj
    rw [hclients] at hj
    refine served_set h (fun _ _ => rfl) (List.Subset.refl _) (fun c' hc' => ?_) j c' hj
    cases hc'
    exact ⟨fun hr => Pending.noConfusion hr, fun _ => hasks, fun hw => Pending.noConfusion hw⟩
  · cases hs

/-- The end of a response: its session is answered with it, and it may be stored. -/
theorem inv_ended (h : t.Inv gzip) {c : Client} {now : Int} {buffer : Bytes} {s : TSession} {db : TDatabase}
    (hi : t.proxy.clients i = some c) (hp : c.session.pending = .readForeign)
    (hread : L4.Session.readForeign gzip c.session t.proxy.database now buffer = .ok (s, db))
    (hs : s.pending = .writeClient) {st : Proxy} (hbase : ProxyCache.Inv st) (hdb : st.database = db)
    (hclients : st.clients = (t.proxy.set i (some ⟨s, c.received ++ buffer⟩)).clients) :
    (t.after st (.readForeign i now buffer)).Inv gzip := by
  have hasks := (h.served i c hi).asks (by rw [hp]; exact Pending.noConfusion)
  have hreading := (h.base.clients i c hi).reading hp
  obtain ⟨p, -, rfl, -⟩ | ⟨p, hfeed, hstore, rfl⟩ := readForeign_cases hread
  · cases hs
  obtain ⟨b, rest, rfl, hb⟩ := completes_of_feedUntil hfeed
  have hanswers : Answers (c.received ++ (b ++ rest)) p.parsed :=
    ⟨c.received ++ b, rest, p, (List.append_assoc ..).symm, hreading.completes hb, rfl⟩
  have hended : ended st i = [⟨c.session.requestParser.parsed, c.received ++ (b ++ rest)⟩] := by
    simp [ended, hclients, Proxy.set]
  have hafter : t.after st (.readForeign i now (b ++ rest)) = ⟨st, t.asked, t.exchanges ++
      [⟨c.session.requestParser.parsed, c.received ++ (b ++ rest)⟩]⟩ := by
    rw [Traced.after, hended]
  have hnew := List.mem_append_right t.exchanges
    (List.mem_singleton_self (⟨c.session.requestParser.parsed, c.received ++ (b ++ rest)⟩ : Exchange))
  rw [hafter]
  refine ⟨hbase, fun j c' hj => ?_, fun url entry he => ?_⟩
  · dsimp only at hj
    rw [hclients] at hj
    refine served_set h (fun _ _ => rfl) (List.subset_append_left _ _) (fun c' hc' => ?_) j c' hj
    cases hc'
    exact ⟨fun hr => Pending.noConfusion hr, fun _ => hasks,
      fun _ => ⟨_, hnew, p.parsed, rfl, hanswers, rfl, .inl rfl⟩⟩
  · have hold : t.proxy.database.savedResponses url = some entry → ∃ e ∈ t.exchanges ++
        [⟨c.session.requestParser.parsed, c.received ++ (b ++ rest)⟩], e.request.requestLine.url = url ∧
        Answers e.stream entry.response ∧ Shared entry.response := fun he => by
      obtain ⟨e, hmem, hrest⟩ := h.entries url entry he
      exact ⟨e, List.mem_append_left _ hmem, hrest⟩
    dsimp only at he
    rw [hdb] at he
    obtain ⟨duration, hd, ⟨hpos, rfl⟩ | ⟨-, rfl⟩⟩ := TDatabase.cacheResponse_cases hstore
    · dsimp only at he
      by_cases hu : url = c.session.requestParser.parsed.requestLine.url
      · subst hu
        rw [Function.update_self] at he
        cases he
        exact ⟨_, hnew, rfl, hanswers, duration, hd, hpos⟩
      · rw [Function.update_of_ne hu] at he
        exact hold he
    · exact hold he

/-- Step lemma. -/
theorem inv_step (h : t.Inv gzip) {e : Event} {st : Proxy} (hs : Step gzip t.proxy e st) :
    (t.after st e).Inv gzip := by
  have hbase := (inv_inductive gzip).step _ _ _ h.base hs
  cases hs with
  | accept hi =>
    refine ⟨hbase, served_set h asked_of_ne (List.Subset.refl _) fun c hc => ?_, h.entries⟩
    cases hc
    simp only [Traced.after, Function.update_self]
    exact ⟨fun _ => .nil _, fun hne => absurd rfl hne, fun hw => Pending.noConfusion hw⟩
  | readClient hi hp hread =>
    refine ⟨hbase, served_set h asked_of_ne (List.Subset.refl _) fun c hc => ?_, fun url entry he => ?_⟩
    · cases hc
      simp only [Traced.after, Function.update_self]
      exact served_readClient h hi hp hread
    · exact h.entries url entry ((readClient_keeps hread).2.2 url entry he)
  | requestWritten hi hp =>
    refine ⟨hbase, served_set h (fun _ _ => rfl) (List.Subset.refl _) fun c hc => ?_, h.entries⟩
    cases hc
    have hasks := (h.served _ _ hi).asks (by rw [hp]; exact Pending.noConfusion)
    exact ⟨fun hr => Pending.noConfusion hr, fun _ => hasks, fun hw => Pending.noConfusion hw⟩
  | readForeign hi hp hread hs => exact inv_part h hi hp hread hs hbase rfl rfl
  | endForeign hi hp hread hs => exact inv_ended h hi hp hread hs hbase rfl rfl
  | stop =>
    refine ⟨hbase, served_set h (fun _ _ => rfl) (List.Subset.refl _) fun c hc => ?_, h.entries⟩
    cases hc

theorem inv_of_reachable (h : (traced gzip).Reachable t) : t.Inv gzip := by
  have hinit : Traced.Inv gzip ⟨.init, fun _ => [], []⟩ := by
    refine ⟨inv_init, fun i c hc => ?_, fun url entry he => ?_⟩
    · cases hc
    · cases he
  have hind : (traced gzip).Inductive (Traced.Inv gzip) :=
    ⟨fun t ht => ht ▸ hinit, fun t e t' hi hs => by rw [hs.2]; exact inv_step hi hs.1⟩
  exact hind.reachable t h

end

/-! ## Every answer -/

/-- **Who gets what.** In every reachable state, behind its request a session passes
on what was asked without `Accept-Encoding`, which an origin reads as such; and what it
answers is the response that an origin sent for a request with the same URL. It is the
session's own exchange, unless the response has a positive duration: any other goes to
no client but the one it was fetched for. -/
theorem answers_from_origins (gzip : Bytes → Bytes) {t : Traced} (h : (traced gzip).Reachable t) {i : Nat}
    {c : Client} (hi : t.proxy.clients i = some c) (hp : c.session.pending ≠ .readClient) :
    ∃ request, Asks (t.asked i) request ∧ c.session.request = (passed request).serialize ∧
      Asks c.session.request (passed request) ∧
      (c.session.pending = .writeClient → ∃ e ∈ t.exchanges, ∃ response,
        e.request.requestLine.url = request.requestLine.url ∧ Answers e.stream response ∧
        c.session.response = answered gzip request response ∧
        (e = ⟨request, c.received⟩ ∨ Shared response)) := by
  have hserved := (inv_of_reachable h).served i c hi
  obtain ⟨hasks, hrequest⟩ := hserved.asks hp
  refine ⟨_, hasks, hrequest, hrequest ▸ passed_asks hasks, fun hw => ?_⟩
  obtain ⟨e, he, response, htold⟩ := hserved.told hw
  exact ⟨e, he, response, htold.url, htold.sent, htold.answer, htold.source⟩

/-! ## The content -/

section
variable {gzip gunzip : Bytes → Bytes}

/-- The data, as they were before the coding that `Compress` knows. -/
def content (gunzip : Bytes → Bytes) (r : THttpResponse) : Bytes :=
  if isCompressed r then gunzip r.data else r.data

theorem content_compress (hg : ∀ data, gunzip (gzip data) = data) (r : THttpResponse) :
    content gunzip (compress gzip r) = content gunzip r := by
  by_cases hc : isCompressed r = true
  · rw [compress, if_pos hc]
  · rw [compress_of_not hc, content, content, if_pos (isCompressed_written gzip r), if_neg hc, hg]

/-- The codings that are listed, for a client to which all spellings of the name are one. -/
def listed (headers : List THttpHeader) : List Bytes :=
  (headers.filter fun h => decide (h.key.map toLower = contentEncoding.map toLower)).flatMap (·.splitValue)

/-- The data, for a client that undoes all of them, the last one first. -/
def decoded (undo : Bytes → Bytes → Bytes) (r : THttpResponse) : Bytes :=
  (listed r.headers.headers).foldr undo r.data

/-- The codings are in headers that this program looks at, and it records its own once. -/
structure Legible (r : THttpResponse) : Prop where
  spelled : ∀ h ∈ r.headers.headers, h.key.map toLower = contentEncoding.map toLower → h.key = contentEncoding
  once : (encodings r.headers.headers).length ≤ 1 ∨ isCompressed r = true

theorem listed_eq_codings {headers : List THttpHeader}
    (h : ∀ x ∈ headers, x.key.map toLower = contentEncoding.map toLower → x.key = contentEncoding) :
    listed headers = codings headers := by
  rw [listed, codings, encodings]
  congr 1
  refine List.filter_congr fun x hx => decide_eq_decide.mpr ⟨h x hx, fun hk => ?_⟩
  rw [hk]

/-- What is not apart has a name that the program writes. -/
theorem spelled_compress (gzip : Bytes → Bytes) {r : THttpResponse} (h : Legible r) :
    ∀ x ∈ (compress gzip r).headers.headers, x.key.map toLower = contentEncoding.map toLower →
      x.key = contentEncoding := by
  intro x hx hlower
  by_contra hne
  have hlength : x.key ≠ contentLength := fun hk => by
    rw [hk] at hlower
    exact absurd hlower (by decide)
  have hapart : x ∈ apart (compress gzip r).headers.headers :=
    List.mem_filter.mpr ⟨hx, decide_eq_true ⟨hne, hlength⟩⟩
  rw [apart_compress] at hapart
  exact hne (h.spelled x (List.mem_filter.mp hapart).1 hlower)

theorem decoded_compress {undo : Bytes → Bytes → Bytes} (hundo : ∀ data, undo (ascii "gzip") (gzip data) = data)
    {r : THttpResponse} (h : Legible r) : decoded undo (compress gzip r) = decoded undo r := by
  by_cases hc : isCompressed r = true
  · rw [compress, if_pos hc]
  · have hsame : Encoded gzip r (compress gzip r) :=
      encoded_compress hc (codings_expand_single (h.once.resolve_right hc))
    rw [decoded, decoded, listed_eq_codings (spelled_compress gzip h), listed_eq_codings h.spelled, hsame.codings,
      hsame.data, List.foldr_append, List.foldr_cons, List.foldr_nil, hundo]

theorem compress_consistent {r : THttpResponse} (h : r.headers.Consistent) :
    (compress gzip r).headers.Consistent := by
  by_cases hc : isCompressed r = true
  · rwa [compress, if_pos hc]
  · rw [compress_of_not hc]
    exact written_consistent gzip r

theorem statusLine_compress (r : THttpResponse) : (compress gzip r).statusLine = r.statusLine := by
  unfold compress
  split
  · rfl
  · rfl

/-- A compressed response is read as it was written. -/
theorem compress_answers {s : Bytes} {r : THttpResponse} (h : Answers s r) (hmax : r.data.length < 2 ^ 31)
    (hgzip : (gzip r.data).length < 2 ^ 31) : Answers (compress gzip r).serialize (compress gzip r) := by
  have hcons : (compress gzip r).headers.Consistent := compress_consistent h.consistent
  obtain ⟨b, rest, p, -, hb, rfl⟩ := h
  obtain ⟨q, hq, hparsed, -⟩ := (compress_framed gzip (parsed_framed hb hmax) hgzip).completes
  refine ⟨_, [], q, (List.append_nil _).symm, hq, ?_⟩
  rw [hparsed, ← eq_make hcons]

/-- What a client reads of its answer, as the program would. -/
theorem answered_reads (hg : ∀ data, gunzip (gzip data) = data) {s : Bytes} {r : THttpResponse} (h : Answers s r)
    (hmax : r.data.length < 2 ^ 31) (hgzip : (gzip r.data).length < 2 ^ 31) (request : THttpRequest) :
    ∃ read, Answers (answered gzip request r) read ∧ read.statusLine = r.statusLine ∧
      apart read.headers.headers = apart r.headers.headers ∧ content gunzip read = content gunzip r ∧
      (Legible r → ∀ undo : Bytes → Bytes → Bytes, (∀ data, undo (ascii "gzip") (gzip data) = data) →
        decoded undo read = decoded undo r) := by
  unfold answered
  split
  · exact ⟨_, compress_answers h hmax hgzip, statusLine_compress r, apart_compress gzip r, content_compress hg r,
      fun ht _ hundo => decoded_compress hundo ht⟩
  · exact ⟨r, serialize_answers h hmax, rfl, rfl, rfl, fun _ _ _ => rfl⟩

/-- **The content arrives.** In every reachable state, what a client that is answered
reads, if it reads as `THttpResponseParser` does, has the status line, the content, and
but for its coding and length the headers of the response that an origin sent for the
client's URL; whether or not the client takes gzip, or it is the first one that asks.
And if the origin's codings are legible, a client that knows other codings as well and any
spelling of the name gets the same data. -/
theorem content_preserved (hg : ∀ data, gunzip (gzip data) = data) {t : Traced} (h : (traced gzip).Reachable t)
    (hsize : ∀ e ∈ t.exchanges, ∀ r, Answers e.stream r →
      r.data.length < 2 ^ 31 ∧ (gzip r.data).length < 2 ^ 31)
    {i : Nat} {c : Client} (hi : t.proxy.clients i = some c) (hp : c.session.pending = .writeClient) :
    ∃ request, Asks (t.asked i) request ∧ ∃ e ∈ t.exchanges, ∃ response read,
      e.request.requestLine.url = request.requestLine.url ∧ Answers e.stream response ∧
      Answers c.session.response read ∧ read.statusLine = response.statusLine ∧
      apart read.headers.headers = apart response.headers.headers ∧
      content gunzip read = content gunzip response ∧
      (Legible response → ∀ undo : Bytes → Bytes → Bytes, (∀ data, undo (ascii "gzip") (gzip data) = data) →
        decoded undo read = decoded undo response) := by
  have hserved := (inv_of_reachable h).served i c hi
  obtain ⟨e, he, response, htold⟩ := hserved.told hp
  obtain ⟨hmax, hgzip⟩ := hsize e he response htold.sent
  obtain ⟨read, hread, hrest⟩ := answered_reads hg htold.sent hmax hgzip c.session.requestParser.parsed
  exact ⟨_, (hserved.asks (by rw [hp]; exact Pending.noConfusion)).1, e, he, response, read, htold.url, htold.sent,
    htold.answer ▸ hread, hrest⟩

end

/-- The first request is passed on, and the second one answered from the cache. -/
theorem getText_told : ∃ t c, (traced id).Reachable t ∧ t.proxy.clients 1 = some c ∧
    c.session.pending = .writeClient ∧ t.exchanges = [⟨getParser.parsed, agedText⟩] := by
  have hserved : readClient id .make agedDatabase second getText =
      .ok (⟨getText, agedText, getParser, .make, .writeClient⟩, agedDatabase) := by
    simp only [readClient, TSession.make, getText_read]
    rfl
  have h₁ := traced_next (LTS.Reachable.of_init (T := traced id) rfl) (.accept (i := 0) rfl)
  have h₂ := traced_next h₁ (.readClient (i := 0) (c := ⟨.make, []⟩) rfl rfl getText_asked)
  have h₃ := traced_next h₂ (.requestWritten (i := 0) rfl rfl)
  have h₄ := traced_next h₃ (.endForeign (i := 0) (c := ⟨_, []⟩) rfl rfl agedText_ended rfl)
  have h₅ := traced_next h₄ (.accept (i := 1) rfl)
  have h₆ := traced_next h₅ (.readClient (i := 1) (c := ⟨.make, []⟩) rfl rfl hserved)
  exact ⟨_, _, h₆, rfl, rfl, rfl⟩

theorem agedText_answers {r : THttpResponse} (h : Answers agedText r) : r = agedParser.parsed := by
  obtain ⟨b, rest, p, heq, hb, rfl⟩ := h
  have hp := hb.feedUntil rest
  rw [← heq, agedText_read] at hp
  simp only [Except.ok.injEq, Prod.mk.injEq, true_and] at hp
  rw [hp]

theorem answers_from_origins_aged : ∃ t c, (traced id).Reachable t ∧ t.proxy.clients 1 = some c ∧
    c.session.pending = .writeClient ∧ ∃ request, Asks (t.asked 1) request ∧
      c.session.request = (passed request).serialize ∧ Asks c.session.request (passed request) ∧
      (c.session.pending = .writeClient → ∃ e ∈ t.exchanges, ∃ response,
        e.request.requestLine.url = request.requestLine.url ∧ Answers e.stream response ∧
        c.session.response = answered id request response ∧
        (e = ⟨request, c.received⟩ ∨ Shared response)) := by
  obtain ⟨t, c, h, hi, hp, -⟩ := getText_told
  exact ⟨t, c, h, hi, hp, answers_from_origins id h hi (by rw [hp]; exact Pending.noConfusion)⟩

theorem aged_legible : Legible agedParser.parsed := by
  constructor <;> decide

theorem content_preserved_aged : ∃ t c, (traced id).Reachable t ∧ t.proxy.clients 1 = some c ∧
    c.session.pending = .writeClient ∧
    ∃ request, Asks (t.asked 1) request ∧ ∃ e ∈ t.exchanges, ∃ response read,
      e.request.requestLine.url = request.requestLine.url ∧ Answers e.stream response ∧
      Answers c.session.response read ∧ read.statusLine = response.statusLine ∧
      apart read.headers.headers = apart response.headers.headers ∧ content id read = content id response ∧
      decoded (fun _ => id) read = decoded (fun _ => id) response := by
  obtain ⟨t, c, h, hi, hp, hex⟩ := getText_told
  have hid : ∀ data : Bytes, id (id data) = data := fun _ => rfl
  have hstored (e : Exchange) (he : e ∈ t.exchanges) {r : THttpResponse} (hr : Answers e.stream r) :
      r = agedParser.parsed := by
    rw [hex, List.mem_singleton] at he
    subst he
    exact agedText_answers hr
  have hdata : agedParser.parsed.data.length < 2 ^ 31 := by decide
  obtain ⟨request, hasks, e, he, response, read, hurl, hsent, hread, hline, hapart, hcontent, hdecoded⟩ :=
    content_preserved hid h (fun e he r hr => by rw [hstored e he hr]; exact ⟨hdata, hdata⟩) hi hp
  exact ⟨t, c, h, hi, hp, request, hasks, e, he, response, read, hurl, hsent, hread, hline, hapart, hcontent,
    hdecoded (hstored e he hsent ▸ aged_legible) (fun _ => id) fun _ => rfl⟩

end NetworksLab.L5.ProxyCache
