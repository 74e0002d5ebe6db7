import NetworksLab.L5Concurrency.ProxyExchange

/-!
# Until a session answers (`individual/lib/Session.cpp`)

`ProxyExchange` tells what a client is answered, not that it is. Here one session is
watched from any state of the proxy on: its client and its origin have each a whole
message to send, with whatever behind it, and send it in pieces that no one chooses.
The other sessions run between its callbacks as they like, on the same cache.

What is assumed of the run: no operation of the session fails (no `stop`), a read
that returns has at least one byte, and no callback of another session throws.

Result:
* `session_answers`: within as many callbacks as there are bytes to come, and one, the
  session answers; only a response whose duration is not defined makes it throw.
-/
namespace NetworksLab.L5.ProxyCache
open NetworksLab.Incremental
open NetworksLab.L3.Http
open NetworksLab.L4.Database
open NetworksLab.L4.Session

/-- The session whose callback this is. -/
def Event.session : Event → Nat
  | .accept i => i
  | .readClient i _ _ => i
  | .requestWritten i => i
  | .readForeign i _ _ => i
  | .stop i => i

/-- The proxy, and of one session what its client and its origin have still to send,
and how many of its callbacks have run. -/
structure Watched where
  state : Traced
  toCome : Bytes
  fromOrigin : Bytes
  callbacks : Nat

inductive Watched.Step (gzip : Bytes → Bytes) (i : Nat) : Watched → Event → Watched → Prop
  /-- another session -/
  | other {w : Watched} {e : Event} {t : Traced} : e.session ≠ i → (traced gzip).step w.state e t →
      Step gzip i w e { w with state := t }
  | readClient {w : Watched} {now : Int} {buffer rest : Bytes} {t : Traced} : buffer ≠ [] →
      w.toCome = buffer ++ rest → (traced gzip).step w.state (.readClient i now buffer) t →
      Step gzip i w (.readClient i now buffer) ⟨t, rest, w.fromOrigin, w.callbacks + 1⟩
  | requestWritten {w : Watched} {t : Traced} : (traced gzip).step w.state (.requestWritten i) t →
      Step gzip i w (.requestWritten i) ⟨t, w.toCome, w.fromOrigin, w.callbacks + 1⟩
  | readForeign {w : Watched} {now : Int} {buffer rest : Bytes} {t : Traced} : buffer ≠ [] →
      w.fromOrigin = buffer ++ rest → (traced gzip).step w.state (.readForeign i now buffer) t →
      Step gzip i w (.readForeign i now buffer) ⟨t, w.toCome, rest, w.callbacks + 1⟩

/-- From any state of the proxy on: together with what has been read, what is to come
begins with `request` and `response`. -/
structure Watched.Init (gzip : Bytes → Bytes) (i : Nat) (request : THttpRequest) (response : THttpResponse)
    (n : Nat) (w : Watched) : Prop where
  reached : (traced gzip).Reachable w.state
  client : ∃ c, w.state.proxy.clients i = some c ∧ Answers (c.received ++ w.fromOrigin) response
  asks : Asks (w.state.asked i ++ w.toCome) request
  size : w.toCome.length + w.fromOrigin.length = n
  callbacks : w.callbacks = 0

def watched (gzip : Bytes → Bytes) (i : Nat) (request : THttpRequest) (response : THttpResponse) (n : Nat) :
    LTS Watched Event where
  init := Watched.Init gzip i request response n
  step := Watched.Step gzip i

/-- What the session waits for is to come, and whatever part of it comes, its callback
returns. -/
def Watched.GoesOn (gzip : Bytes → Bytes) (i : Nat) (w : Watched) : Pending → Prop
  | .readClient => w.toCome ≠ [] ∧ ∀ now buffer rest, buffer ≠ [] → w.toCome = buffer ++ rest →
      ∃ w', Watched.Step gzip i w (.readClient i now buffer) w'
  | .writeForeign => ∃ w', Watched.Step gzip i w (.requestWritten i) w'
  | .readForeign => w.fromOrigin ≠ [] ∧ ∀ now buffer rest, buffer ≠ [] → w.fromOrigin = buffer ++ rest →
      ∃ w', Watched.Step gzip i w (.readForeign i now buffer) w'
  | .writeClient => False

/-! ## The callbacks return -/

section
variable {gzip : Bytes → Bytes} {t : Traced} {i : Nat} {c : Client}

/-- A request in the middle. -/
theorem reads_request (h : t.Inv gzip) (hi : t.proxy.clients i = some c)
    (hp : c.session.pending = .readClient) {toCome : Bytes} {request : THttpRequest}
    (hasks : Asks (t.asked i ++ toCome) request) :
    ∃ b rest p, toCome = b ++ rest ∧ Completes THttpRequestParser.consume c.session.requestParser b p := by
  obtain ⟨b, rest, p, heq, hb, -⟩ := hasks
  obtain ⟨b', hcome, hb'⟩ := ((h.served i c hi).reading hp).left hb heq
  exact ⟨b', rest, p, hcome, hb'⟩

/-- A response in the middle. -/
theorem reads_response (h : t.Inv gzip) (hi : t.proxy.clients i = some c)
    (hp : c.session.pending = .readForeign) {fromOrigin : Bytes} {response : THttpResponse}
    (hanswers : Answers (c.received ++ fromOrigin) response) :
    ∃ b rest p, fromOrigin = b ++ rest ∧
      Completes THttpResponseParser.consume c.session.responseParser b p ∧ response = p.parsed := by
  obtain ⟨b, rest, p, heq, hb, hparsed⟩ := hanswers
  obtain ⟨b', hcome, hb'⟩ := ((h.base.clients i c hi).reading hp).left hb heq
  exact ⟨b', rest, p, hcome, hb', hparsed⟩

/-- A read from the client. -/
theorem readClient_returns (hi : t.proxy.clients i = some c) (hp : c.session.pending = .readClient)
    {b rest buffer more : Bytes} {p : THttpRequestParser}
    (hb : Completes THttpRequestParser.consume c.session.requestParser b p)
    (heq : buffer ++ more = b ++ rest) (now : Int) :
    ∃ t', (traced gzip).step t (.readClient i now buffer) t' := by
  have hread : ∃ s db, L4.Session.readClient gzip c.session t.proxy.database now buffer = .ok (s, db) := by
    unfold L4.Session.readClient
    rcases hb.feedUntil_part heq with ⟨q, hq⟩ | hq
    · rw [hq]
      exact ⟨_, _, rfl⟩
    · rw [hq]
      exact ⟨_, _, rfl⟩
  obtain ⟨s, db, hread⟩ := hread
  exact ⟨_, traced_step (.readClient hi hp hread)⟩

/-- A read from the origin. Only a response whose duration is not defined throws. -/
theorem readForeign_returns (hi : t.proxy.clients i = some c) (hp : c.session.pending = .readForeign)
    {b rest buffer more : Bytes} {p : THttpResponseParser} {duration : Int}
    (hd : cacheDuration p.parsed = .ok duration)
    (hb : Completes THttpResponseParser.consume c.session.responseParser b p)
    (heq : buffer ++ more = b ++ rest) (now : Int) :
    ∃ t', (traced gzip).step t (.readForeign i now buffer) t' := by
  rcases hb.feedUntil_part heq with ⟨q, hq⟩ | hq
  · have hread : L4.Session.readForeign gzip c.session t.proxy.database now buffer =
        .ok ({ c.session with responseParser := q, pending := .readForeign }, t.proxy.database) := by
      unfold L4.Session.readForeign
      rw [hq]
      rfl
    exact ⟨_, traced_step (.readForeign hi hp hread rfl)⟩
  · obtain ⟨db, hdb⟩ := cacheResponse_ok hd t.proxy.database c.session.requestParser.parsed now
    have hread : L4.Session.readForeign gzip c.session t.proxy.database now buffer =
        .ok ({ c.session with
          responseParser := p
          response := answered gzip c.session.requestParser.parsed p.parsed
          pending := .writeClient }, db) := by
      unfold L4.Session.readForeign
      simp only [hq, hdb]
      rfl
    exact ⟨_, traced_step (.endForeign hi hp hread rfl)⟩

end

/-! ## Invariant -/

/-- One callback writes the request, any other has taken a byte. -/
def behind : Pending → Nat
  | .readClient => 0
  | .writeForeign => 0
  | .readForeign => 1
  | .writeClient => 1

structure Watched.Inv (gzip : Bytes → Bytes) (i : Nat) (request : THttpRequest) (response : THttpResponse)
    (n : Nat) (w : Watched) : Prop where
  reached : (traced gzip).Reachable w.state
  client : ∃ c, w.state.proxy.clients i = some c ∧ Answers (c.received ++ w.fromOrigin) response ∧
    w.callbacks + (w.toCome.length + w.fromOrigin.length) ≤ n + behind c.session.pending
  asks : Asks (w.state.asked i ++ w.toCome) request

section
variable {gzip : Bytes → Bytes} {i n : Nat} {request : THttpRequest} {response : THttpResponse} {w : Watched}

theorem Watched.Inv.answers (h : w.Inv gzip i request response n) {c : Client}
    (hi : w.state.proxy.clients i = some c) : Answers (c.received ++ w.fromOrigin) response := by
  obtain ⟨c', hi', hanswers, -⟩ := h.client
  cases hi.symm.trans hi'
  exact hanswers

/-- Another session leaves this one as it is. -/
theorem traced_other {t t' : Traced} {e : Event} (he : e.session ≠ i) (hs : (traced gzip).step t e t') :
    t'.proxy.clients i = t.proxy.clients i ∧ t'.asked i = t.asked i := by
  obtain ⟨hs, ht⟩ := hs
  have hasked : t'.asked i = t.asked i := by
    rw [ht]
    cases e with
    | accept j => exact Function.update_of_ne (Ne.symm he) _ _
    | readClient j now buffer => exact Function.update_of_ne (Ne.symm he) _ _
    | requestWritten j => rfl
    | readForeign j now buffer => rfl
    | stop j => rfl
  refine ⟨?_, hasked⟩
  generalize t'.proxy = st at hs
  cases hs with
  | accept => exact Function.update_of_ne (Ne.symm he) _ _
  | readClient => exact Function.update_of_ne (Ne.symm he) _ _
  | requestWritten => exact Function.update_of_ne (Ne.symm he) _ _
  | readForeign => exact Function.update_of_ne (Ne.symm he) _ _
  | endForeign => exact Function.update_of_ne (Ne.symm he) _ _
  | stop => exact Function.update_of_ne (Ne.symm he) _ _

theorem Watched.Init.inv (h : w.Init gzip i request response n) : w.Inv gzip i request response n := by
  obtain ⟨c, hi, hanswers⟩ := h.client
  refine ⟨h.reached, ⟨c, hi, hanswers, ?_⟩, h.asks⟩
  rw [h.callbacks, h.size]
  omega

/-- A read from the client takes its bytes from what is to come. -/
theorem Watched.Inv.readClient (h : w.Inv gzip i request response n) {now : Int} {buffer rest : Bytes}
    {t : Traced} (hne : buffer ≠ []) (hcome : w.toCome = buffer ++ rest)
    (hs : (traced gzip).step w.state (.readClient i now buffer) t) :
    Watched.Inv gzip i request response n ⟨t, rest, w.fromOrigin, w.callbacks + 1⟩ := by
  obtain ⟨c, hi, hanswers, hbound⟩ := h.client
  have hasks := h.asks
  refine ⟨h.reached.next hs, ?_, ?_⟩
  · obtain ⟨hs, -⟩ := hs
    generalize t.proxy = st at hs
    cases hs with
    | readClient hi' hp hread =>
      cases hi.symm.trans hi'
      refine ⟨_, Function.update_self .., hanswers, ?_⟩
      have hlen := List.length_pos_iff.mpr hne
      rw [hp, hcome, List.length_append, behind] at hbound
      dsimp only
      omega
  · obtain ⟨-, ht⟩ := hs
    have hasked : t.asked i = w.state.asked i ++ buffer := by
      rw [ht]
      exact Function.update_self ..
    rw [hasked, List.append_assoc, ← hcome]
    exact hasks

theorem Watched.Inv.requestWritten (h : w.Inv gzip i request response n) {t : Traced}
    (hs : (traced gzip).step w.state (.requestWritten i) t) :
    Watched.Inv gzip i request response n ⟨t, w.toCome, w.fromOrigin, w.callbacks + 1⟩ := by
  obtain ⟨c, hi, hanswers, hbound⟩ := h.client
  have hasks := h.asks
  refine ⟨h.reached.next hs, ?_, ?_⟩
  · obtain ⟨hs, -⟩ := hs
    generalize t.proxy = st at hs
    cases hs with
    | requestWritten hi' hp =>
      cases hi.symm.trans hi'
      refine ⟨_, Function.update_self .., hanswers, ?_⟩
      rw [hp, behind] at hbound
      simp only [TSession.requestWritten, behind]
      omega
  · obtain ⟨-, ht⟩ := hs
    rw [ht]
    exact hasks

/-- A read from the origin. -/
theorem Watched.Inv.readForeign (h : w.Inv gzip i request response n) {now : Int} {buffer rest : Bytes}
    {t : Traced} (hne : buffer ≠ []) (hcome : w.fromOrigin = buffer ++ rest)
    (hs : (traced gzip).step w.state (.readForeign i now buffer) t) :
    Watched.Inv gzip i request response n ⟨t, w.toCome, rest, w.callbacks + 1⟩ := by
  obtain ⟨c, hi, hanswers, hbound⟩ := h.client
  have hasks := h.asks
  have hlen := List.length_pos_iff.mpr hne
  rw [hcome, ← List.append_assoc] at hanswers
  rw [hcome, List.length_append] at hbound
  refine ⟨h.reached.next hs, ?_, ?_⟩
  · obtain ⟨hs, -⟩ := hs
    generalize t.proxy = st at hs
    cases hs with
    | readForeign hi' hp hread hs =>
      cases hi.symm.trans hi'
      refine ⟨_, Function.update_self .., hanswers, ?_⟩
      rw [hp, behind] at hbound
      simp only [hs, behind]
      omega
    | endForeign hi' hp hread hs =>
      cases hi.symm.trans hi'
      refine ⟨_, Function.update_self .., hanswers, ?_⟩
      rw [hp, behind] at hbound
      simp only [hs, behind]
      omega
  · obtain ⟨-, ht⟩ := hs
    rw [ht]
    exact hasks

/-- Step lemma. -/
theorem Watched.Inv.step {e : Event} {w' : Watched} (h : w.Inv gzip i request response n)
    (hs : Watched.Step gzip i w e w') : w'.Inv gzip i request response n := by
  cases hs with
  | other he hs =>
    obtain ⟨hclients, hasked⟩ := traced_other he hs
    obtain ⟨c, hi, hrest⟩ := h.client
    exact ⟨h.reached.next hs, ⟨c, hclients.trans hi, hrest⟩, by dsimp only; rw [hasked]; exact h.asks⟩
  | readClient hne hcome hs => exact h.readClient hne hcome hs
  | requestWritten hs => exact h.requestWritten hs
  | readForeign hne hcome hs => exact h.readForeign hne hcome hs

theorem watched_inv (h : (watched gzip i request response n).Reachable w) : w.Inv gzip i request response n := by
  have hind : (watched gzip i request response n).Inductive (Watched.Inv gzip i request response n) :=
    ⟨fun _ hw => Watched.Init.inv hw, fun _ _ _ hw hs => hw.step hs⟩
  exact hind.reachable w h

/-! ## The answer -/

/-- What is asked is the request. -/
theorem Watched.Inv.parsed (h : w.Inv gzip i request response n) {c : Client}
    (hi : w.state.proxy.clients i = some c) (hp : c.session.pending ≠ .readClient) :
    c.session.requestParser.parsed = request := by
  obtain ⟨b, rest, p, heq, hb, hparsed⟩ := (((inv_of_reachable h.reached).served i c hi).asks hp).1
  have hasks : Asks (w.state.asked i ++ w.toCome) c.session.requestParser.parsed :=
    ⟨b, rest ++ w.toCome, p, by rw [heq, List.append_assoc], hb, hparsed⟩
  exact hasks.unique h.asks

/-- What a session waits for is to come. -/
theorem Watched.Inv.goesOn (h : w.Inv gzip i request response n) {c : Client}
    (hi : w.state.proxy.clients i = some c) (hw : c.session.pending ≠ .writeClient)
    (hd : c.session.pending = .readForeign → ∃ duration, cacheDuration response = .ok duration) :
    w.GoesOn gzip i c.session.pending := by
  have hinv := inv_of_reachable h.reached
  cases hp : c.session.pending with
  | readClient =>
    obtain ⟨b, rest, p, hcome, hb⟩ := reads_request hinv hi hp h.asks
    refine ⟨by simp [hcome, hb.ne_nil], fun now buffer more hne hbuf => ?_⟩
    obtain ⟨t, hs⟩ := readClient_returns hi hp hb (hbuf.symm.trans hcome) now
    exact ⟨_, .readClient hne hbuf hs⟩
  | writeForeign => exact ⟨_, .requestWritten (traced_step (.requestWritten hi hp))⟩
  | readForeign =>
    obtain ⟨b, rest, p, hcome, hb, rfl⟩ := reads_response hinv hi hp (h.answers hi)
    obtain ⟨duration, hd⟩ := hd hp
    refine ⟨by simp [hcome, hb.ne_nil], fun now buffer more hne hbuf => ?_⟩
    obtain ⟨t, hs⟩ := readForeign_returns hi hp hd hb (hbuf.symm.trans hcome) now
    exact ⟨_, .readForeign hne hbuf hs⟩
  | writeClient => exact hw hp

/-- The read that has the end of a response returns only if the response has a
duration. -/
theorem Watched.Inv.duration (h : w.Inv gzip i request response n) {c : Client}
    (hi : w.state.proxy.clients i = some c) (hp : c.session.pending = .readForeign)
    (hgoes : w.GoesOn gzip i c.session.pending) : ∃ duration, cacheDuration response = .ok duration := by
  obtain ⟨b, rest, p, hcome, hb, rfl⟩ := reads_response (inv_of_reachable h.reached) hi hp (h.answers hi)
  have hend := hb.feedUntil rest
  rw [← hcome] at hend
  rw [hp] at hgoes
  obtain ⟨w', hs⟩ := hgoes.2 0 w.fromOrigin [] hgoes.1 (List.append_nil _).symm
  have hread : ∃ s db, L4.Session.readForeign gzip c.session w.state.proxy.database 0 w.fromOrigin = .ok (s, db) := by
    cases hs with
    | other he => exact absurd rfl he
    | readForeign _ _ hs =>
      obtain ⟨hs, -⟩ := hs
      rename_i t _ _
      generalize t.proxy = st at hs
      cases hs with
      | readForeign hi' _ hread =>
        cases hi.symm.trans hi'
        exact ⟨_, _, hread⟩
      | endForeign hi' _ hread =>
        cases hi.symm.trans hi'
        exact ⟨_, _, hread⟩
  obtain ⟨s, db, hread⟩ := hread
  obtain ⟨q, hq, -⟩ | ⟨q, hq, hstore, -⟩ := readForeign_cases hread
  · cases hend.symm.trans hq
  · cases hend.symm.trans hq
    obtain ⟨duration, hd, -⟩ := TDatabase.cacheResponse_cases hstore
    exact ⟨duration, hd⟩

/-- The answer is made of the response, or of one from the cache. -/
theorem Watched.Inv.told (h : w.Inv gzip i request response n) {c : Client}
    (hi : w.state.proxy.clients i = some c) (hw : c.session.pending = .writeClient) :
    ∃ e ∈ w.state.exchanges, ∃ r, e.request.requestLine.url = request.requestLine.url ∧ Answers e.stream r ∧
      c.session.response = answered gzip request r ∧ (r = response ∨ Shared r) := by
  have hparsed := h.parsed hi (by rw [hw]; exact Pending.noConfusion)
  obtain ⟨e, he, r, htold⟩ := ((inv_of_reachable h.reached).served i c hi).told hw
  refine ⟨e, he, r, hparsed ▸ htold.url, htold.sent, hparsed ▸ htold.answer, ?_⟩
  rcases htold.source with rfl | hshared
  · obtain ⟨b, rest, p, heq, hb, hr⟩ := htold.sent
    have hsent : Answers (c.received ++ w.fromOrigin) r :=
      ⟨b, rest ++ w.fromOrigin, p, by rw [← List.append_assoc, ← heq], hb, hr⟩
    exact .inl (hsent.unique (h.answers hi))
  · exact .inr hshared

/-- A session that has not answered has its last callback before it. -/
theorem Watched.Inv.callbacks_le (h : w.Inv gzip i request response n) {c : Client}
    (hi : w.state.proxy.clients i = some c) : w.callbacks ≤ n + 1 ∧
      (c.session.pending ≠ .writeClient → w.callbacks ≤ n) := by
  obtain ⟨c', hi', -, hbound⟩ := h.client
  cases hi.symm.trans hi'
  cases hp : c.session.pending with
  | readClient =>
    rw [hp, behind] at hbound
    omega
  | writeForeign =>
    rw [hp, behind] at hbound
    omega
  | readForeign =>
    obtain ⟨b, rest, p, hcome, hb, -⟩ := reads_response (inv_of_reachable h.reached) hi hp (h.answers hi)
    have hlen := List.length_pos_iff.mpr hb.ne_nil
    rw [hp, behind, hcome, List.length_append] at hbound
    omega
  | writeClient =>
    rw [hp, behind] at hbound
    exact ⟨by omega, fun hw => absurd rfl hw⟩

/-- **Every session answers.** From any reachable state of the proxy on, if the client
of a session has a request to come and its origin a response: whatever pieces they come
in, and whatever the other sessions do in between, the session is there. It has
answered, with that response or with a stored one that some origin sent for the same
URL, after `n + 1` of its callbacks at the latest, `n` the number of bytes to come.
Until then what it waits for is to come and its callback returns, except when it reads
a response whose duration is not defined. -/
theorem session_answers (gzip : Bytes → Bytes) (h : (watched gzip i request response n).Reachable w) :
    ∃ c, w.state.proxy.clients i = some c ∧ w.callbacks ≤ n + 1 ∧
      (c.session.pending ≠ .writeClient → w.callbacks ≤ n ∧ (w.GoesOn gzip i c.session.pending ↔
        (c.session.pending = .readForeign → ∃ duration, cacheDuration response = .ok duration))) ∧
      (c.session.pending = .writeClient → ∃ e ∈ w.state.exchanges, ∃ r,
        e.request.requestLine.url = request.requestLine.url ∧ Answers e.stream r ∧
        c.session.response = answered gzip request r ∧ (r = response ∨ Shared r)) := by
  have hinv := watched_inv h
  obtain ⟨c, hi, -⟩ := hinv.client
  obtain ⟨hle, hlt⟩ := hinv.callbacks_le hi
  refine ⟨c, hi, hle, fun hw => ⟨hlt hw, fun hgoes hp => ?_, fun hd => ?_⟩, fun hw => ?_⟩
  · exact hinv.duration hi hp hgoes
  · exact hinv.goesOn hi hw hd
  · exact hinv.told hi hw

end

/-- Another client is accepted when the first one has asked. -/
theorem session_answers_two : ∃ w, (watched id 0 getParser.parsed agedParser.parsed
      (getText.length + agedText.length)).Reachable w ∧ w.callbacks = 1 ∧
    ∃ c, w.state.proxy.clients 0 = some c ∧ w.callbacks ≤ getText.length + agedText.length + 1 ∧
      (c.session.pending ≠ .writeClient → w.callbacks ≤ getText.length + agedText.length ∧
        (w.GoesOn id 0 c.session.pending ↔ (c.session.pending = .readForeign →
          ∃ duration, cacheDuration agedParser.parsed = .ok duration))) ∧
      (c.session.pending = .writeClient → ∃ e ∈ w.state.exchanges, ∃ r,
        e.request.requestLine.url = getParser.parsed.requestLine.url ∧ Answers e.stream r ∧
        c.session.response = answered id getParser.parsed r ∧ (r = agedParser.parsed ∨ Shared r)) := by
  have h₁ := traced_next (LTS.Reachable.of_init (T := traced id) rfl) (.accept (i := 0) rfl)
  have hasks : Asks getText getParser.parsed := by
    obtain ⟨b, rest, hb, hcomp⟩ := completes_of_feedUntil getText_read
    exact ⟨b, rest, _, hb, hcomp, rfl⟩
  have hanswers : Answers agedText agedParser.parsed := by
    obtain ⟨b, rest, hb, hcomp⟩ := completes_of_feedUntil agedText_read
    exact ⟨b, rest, _, hb, hcomp, rfl⟩
  have hinit : (watched id 0 getParser.parsed agedParser.parsed (getText.length + agedText.length)).Reachable
      ⟨_, getText, agedText, 0⟩ := .of_init ⟨h₁, ⟨⟨.make, []⟩, rfl, hanswers⟩, hasks, rfl, rfl⟩
  have hread := hinit.next (.readClient (by decide) (List.append_nil getText).symm
    (traced_step (.readClient (i := 0) (c := ⟨.make, []⟩) rfl rfl getText_asked)))
  have hother := hread.next (.other (e := .accept 1) (by decide) (traced_step (.accept (i := 1) rfl)))
  exact ⟨_, hother, rfl, session_answers id hother⟩

end NetworksLab.L5.ProxyCache
