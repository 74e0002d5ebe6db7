import Mathlib.Data.List.Pairwise
import Mathlib.Order.Defs.LinearOrder
import NetworksLab.Core.Expiring
import NetworksLab.Core.Result
import NetworksLab.L3Protocol.Compress

/-!
# The response cache (`individual/lib/Database.cpp`)

`TDatabase` keeps one response for each URL and until when it may be served.
`CacheResponse` stores a response with a positive duration over what was there;
`ServeCached` looks one up, and erases it if it has expired.

Time is the `steady_clock`, in nanoseconds. What `CacheDuration` does with a
directive that it cannot read is a `DurationFault`.

Results:
* `represents_step`, `represents_run`: the map has the latest stores, apart from
  some that have expired.
* `serveCached_eq`: so a lookup is answered from the history alone.
-/
namespace NetworksLab.L4.Database
open NetworksLab.L3.Http
open NetworksLab.Expiring

/-! ## Durations -/

def cacheControl : Bytes := ascii "Cache-Control"

/-- Why `CacheDuration` does not return. -/
inductive DurationFault where
  /-- an `int` is read that was never set -/
  | uninitialised
  /-- `std::out_of_range` from `substr` -/
  | outOfRange
  deriving DecidableEq, Repr

/-- mirrors individual/lib/Database.cpp:30-34 -/
def startsWith (sv pre : Bytes) : Bool :=
  if sv.length < pre.length then false else decide (sv.take pre.length = pre)

/-- mirrors individual/lib/Database.cpp:36-41 -/
def toIntegral (sv : Bytes) : Except DurationFault Int :=
  match intFromChars 10 sv with
  | .ok ret => .ok ret
  | .error _ => .error .uninitialised

/-- The loop over the directives.
mirrors individual/lib/Database.cpp:52-61 -/
def cacheDurationLoop : List Bytes → Int → Except DurationFault Int
  | [], ret => return ret
  | directive :: directives, ret =>
    if directive = ascii "private" ∨ directive = ascii "no-store" then return 0
    else if startsWith directive (ascii "max-age") then
      if directive.length < (ascii "max-age=").length then throw .outOfRange
      else do
        let ret ← toIntegral (directive.drop (ascii "max-age=").length)
        cacheDurationLoop directives ret
    else cacheDurationLoop directives ret

/-- mirrors individual/lib/Database.cpp:43-62 -/
def cacheDuration (response : THttpResponse) : Except DurationFault Int :=
  match response.headers.find cacheControl with
  | none => return 0
  | some header => cacheDurationLoop header.splitValue 0

/-! ## The database -/

/-- One second of the clock. -/
def second : Int := 1000000000

/-- mirrors individual/lib/Database.h:20-25 -/
structure TEntry where
  response : THttpResponse
  expire : Int

/-- mirrors individual/lib/Database.h:11-28 (`SavedResponses_` as a function) -/
structure TDatabase where
  savedResponses : Bytes → Option TEntry

def TDatabase.make : TDatabase := ⟨fun _ => none⟩

/-- mirrors individual/lib/Database.cpp:13-26 -/
def TDatabase.serveCached (db : TDatabase) (url : Bytes) (now : Int) : Option THttpResponse × TDatabase :=
  match db.savedResponses url with
  | none => (none, db)
  | some entry =>
    if entry.expire < now then (none, ⟨Function.update db.savedResponses url none⟩)
    else (some entry.response, db)

/-- An entry that is there is assigned to, and else one is emplaced.
mirrors individual/lib/Database.cpp:66-83 -/
def TDatabase.cacheResponse (db : TDatabase) (request : THttpRequest) (response : THttpResponse)
    (now : Int) : Except DurationFault TDatabase := do
  let duration ← cacheDuration response
  if 0 < duration then
    return ⟨Function.update db.savedResponses request.requestLine.url
      (some ⟨response, now + duration * second⟩)⟩
  else return db

theorem TDatabase.cacheResponse_store {db : TDatabase} {request : THttpRequest} {response : THttpResponse}
    {now duration : Int} (hd : cacheDuration response = .ok duration) (hpos : 0 < duration) :
    db.cacheResponse request response now = .ok ⟨Function.update db.savedResponses request.requestLine.url
      (some ⟨response, now + duration * second⟩)⟩ := by
  rw [cacheResponse, ok_bind hd, if_pos hpos]
  rfl

theorem TDatabase.cacheResponse_skip {db : TDatabase} {request : THttpRequest} {response : THttpResponse}
    {now duration : Int} (hd : cacheDuration response = .ok duration) (hpos : ¬ 0 < duration) :
    db.cacheResponse request response now = .ok db := by
  rw [cacheResponse, ok_bind hd, if_neg hpos]
  rfl

theorem TDatabase.cacheResponse_cases {db db' : TDatabase} {request : THttpRequest}
    {response : THttpResponse} {now : Int} (h : db.cacheResponse request response now = .ok db') :
    ∃ duration, cacheDuration response = .ok duration ∧
      ((0 < duration ∧ db' = ⟨Function.update db.savedResponses request.requestLine.url
          (some ⟨response, now + duration * second⟩)⟩) ∨
        (¬ 0 < duration ∧ db' = db)) := by
  obtain ⟨duration, hd, -⟩ := bind_ok h
  refine ⟨duration, hd, ?_⟩
  by_cases hpos : 0 < duration
  · rw [cacheResponse_store hd hpos] at h
    exact .inl ⟨hpos, (Except.ok.inj h).symm⟩
  · rw [cacheResponse_skip hd hpos] at h
    exact .inr ⟨hpos, (Except.ok.inj h).symm⟩

/-- A lookup adds no entry. -/
theorem TDatabase.entry_of_serveCached {db db' : TDatabase} {url url' : Bytes} {now : Int}
    {found : Option THttpResponse} {entry : TEntry} (h : db.serveCached url now = (found, db'))
    (he : db'.savedResponses url' = some entry) : db.savedResponses url' = some entry := by
  unfold TDatabase.serveCached at h
  split at h
  · cases h
    exact he
  · split at h
    · cases h
      dsimp only at he
      by_cases hu : url' = url
      · subst hu
        rw [Function.update_self] at he
        cases he
      · rwa [Function.update_of_ne hu] at he
    · cases h
      exact he

/-- What is served is an entry that has not expired. -/
theorem TDatabase.serveCached_some {db db' : TDatabase} {url : Bytes} {now : Int} {response : THttpResponse}
    (h : db.serveCached url now = (some response, db')) :
    ∃ entry, db.savedResponses url = some entry ∧ entry.response = response ∧ ¬ entry.expire < now := by
  unfold TDatabase.serveCached at h
  split at h
  · cases h
  · rename_i entry hentry
    split at h
    · cases h
    · rename_i hexp
      cases h
      exact ⟨entry, hentry, rfl, hexp⟩

/-! ## Histories -/

inductive Call where
  | cacheResponse (request : THttpRequest) (response : THttpResponse)
  | serveCached (url : Bytes)

/-- The URL a call is about. -/
def Call.url : Call → Bytes
  | .cacheResponse request _ => request.requestLine.url
  | .serveCached url => url

/-- The database behind a call; what it answers is left out. -/
def TDatabase.call (db : TDatabase) (now : Int) : Call → Except DurationFault TDatabase
  | .cacheResponse request response => db.cacheResponse request response now
  | .serveCached url => return (db.serveCached url now).2

/-- The database behind a history of calls and their times. -/
def TDatabase.run : TDatabase → List (Int × Call) → Except DurationFault TDatabase
  | db, [] => return db
  | db, (now, c) :: history => do
    let db ← db.call now c
    db.run history

/-- `CacheDuration` is defined for a response that is to be stored. -/
def Call.WellDefined : Call → Prop
  | .cacheResponse _ response => ∃ duration, cacheDuration response = .ok duration
  | .serveCached _ => True

/-- What a call stores, and under which URL: a response with a positive duration. -/
def Call.stores (now : Int) : Call → Option (Bytes × TEntry)
  | .cacheResponse request response =>
    match cacheDuration response with
    | .error _ => none
    | .ok duration =>
      if 0 < duration then some (request.requestLine.url, ⟨response, now + duration * second⟩) else none
  | .serveCached _ => none

/-- The stores of a history, in order. -/
def stores (history : List (Int × Call)) : List (Bytes × TEntry) :=
  history.filterMap fun x => x.2.stores x.1

/-- What a lookup is to answer: the response of the latest store for the URL,
unless its duration is over. -/
def answer (history : List (Int × Call)) (url : Bytes) (t : Int) : Option THttpResponse :=
  match latest (stores history) url with
  | none => none
  | some entry => if t ≤ entry.expire then some entry.response else none

/-! ## The map and the history -/

/-- The map of a database for a history, at a time. -/
def Reflects (db : TDatabase) (history : List (Int × Call)) (now : Int) : Prop :=
  Represents TEntry.expire db.savedResponses (stores history) now

theorem stores_append (history : List (Int × Call)) (now : Int) (c : Call) :
    stores (history ++ [(now, c)]) = stores history ++ (c.stores now).toList := by
  rw [stores, List.filterMap_append]
  cases h : c.stores now with
  | none => simp [stores, h]
  | some e => simp [stores, h]

/-- Step lemma. -/
theorem reflects_call {db : TDatabase} {history : List (Int × Call)} {now : Int}
    (h : Reflects db history now) {c : Call} (hc : c.WellDefined) :
    ∃ db', db.call now c = .ok db' ∧ Reflects db' (history ++ [(now, c)]) now := by
  simp only [Reflects, stores_append]
  cases c with
  | serveCached url =>
    rw [Call.stores, Option.toList_none, List.append_nil]
    refine ⟨_, rfl, ?_⟩
    unfold TDatabase.serveCached
    split
    · exact h
    · rename_i entry hentry
      split
      · rename_i hexp
        apply Represents.forget h
        intro e he
        rw [hentry] at he
        cases he
        exact hexp
      · exact h
  | cacheResponse request response =>
    obtain ⟨duration, hd⟩ := hc
    simp only [Call.stores, hd]
    by_cases hpos : 0 < duration
    · rw [if_pos hpos]
      exact ⟨_, TDatabase.cacheResponse_store hd hpos, Represents.store h _ _⟩
    · rw [if_neg hpos, Option.toList_none, List.append_nil]
      exact ⟨db, TDatabase.cacheResponse_skip hd hpos, h⟩

/-- Run lemma: by induction on the calls to come. -/
theorem reflects_run : ∀ {future past : List (Int × Call)} {db : TDatabase} {now t : Int},
    Reflects db past now → (∀ x ∈ future, x.2.WellDefined) →
    (now :: (future.map Prod.fst ++ [t])).Pairwise (· ≤ ·) →
    ∃ db', db.run future = .ok db' ∧ Reflects db' (past ++ future) t
  | [], past, db, now, t, h, _, hmono => by
    have hle : now ≤ t := (List.pairwise_cons.mp hmono).1 t (by simp)
    exact ⟨db, rfl, by rw [List.append_nil]; exact Represents.later h hle⟩
  | (t₁, c) :: future, past, db, now, t, h, hdef, hmono => by
    obtain ⟨hnow, hrest⟩ := List.pairwise_cons.mp hmono
    obtain ⟨db₁, hcall, h₁⟩ := reflects_call (Represents.later h (hnow t₁ (by simp)))
      (hdef (t₁, c) List.mem_cons_self)
    obtain ⟨db₂, hrun, h₂⟩ := reflects_run h₁ (fun x hx => hdef x (List.mem_cons_of_mem _ hx)) hrest
    rw [List.append_assoc, List.singleton_append] at h₂
    exact ⟨db₂, by rw [TDatabase.run, hcall]; exact hrun, h₂⟩

/-- A lookup answers from the history that the map reflects. -/
theorem Reflects.serveCached {db : TDatabase} {history : List (Int × Call)} {t : Int}
    (h : Reflects db history t) (url : Bytes) : (db.serveCached url t).1 = answer history url t := by
  have hserve : (db.serveCached url t).1 =
      (unexpired TEntry.expire t (db.savedResponses url)).map (·.response) := by
    unfold TDatabase.serveCached unexpired
    cases db.savedResponses url with
    | none => rfl
    | some entry =>
      by_cases hexp : entry.expire < t
      · simp [Option.filter_some, hexp]
      · simp [Option.filter_some, hexp, Int.not_lt.mp hexp]
  rw [hserve, Represents.lookup h, fresh, answer]
  cases latest (stores history) url with
  | none => rfl
  | some entry =>
    by_cases hle : t ≤ entry.expire
    · simp [unexpired, Option.filter_some, hle]
    · simp [unexpired, Option.filter_some, hle]

/-- A call stores under the URL it is about. -/
theorem stores_filter (history : List (Int × Call)) (url : Bytes) :
    stores (history.filter fun x => decide (x.2.url = url)) =
      (stores history).filter fun s => decide (s.1 = url) := by
  have hurl : ∀ {now : Int} {c : Call} {s : Bytes × TEntry}, c.stores now = some s → s.1 = c.url := by
    intro now c s hs
    cases c with
    | serveCached url => cases hs
    | cacheResponse request response =>
      simp only [Call.stores] at hs
      split at hs
      · cases hs
      · split at hs
        · cases hs
          rfl
        · cases hs
  induction history with
  | nil => rfl
  | cons x history ih =>
    obtain ⟨now, c⟩ := x
    simp only [stores] at ih ⊢
    by_cases hc : c.url = url
    · rw [List.filter_cons_of_pos (by simp [hc])]
      cases hs : c.stores now with
      | none => simp [hs, ih]
      | some s => simp [hs, ih, hurl hs, hc]
    · rw [List.filter_cons_of_neg (by simp [hc])]
      cases hs : c.stores now with
      | none => simp [hs, ih]
      | some s => simp [hs, ih, hurl hs, hc]

theorem answer_filter (history : List (Int × Call)) (url : Bytes) (t : Int) :
    answer (history.filter fun x => decide (x.2.url = url)) url t = answer history url t := by
  rw [answer, answer, stores_filter, latest_filter]

/-- A new database behind a history that is in order. -/
theorem run_reflects {history : List (Int × Call)} {t : Int} (hdef : ∀ x ∈ history, x.2.WellDefined)
    (hmono : (history.map Prod.fst ++ [t]).Pairwise (· ≤ ·)) :
    ∃ db, TDatabase.make.run history = .ok db ∧ Reflects db history t := by
  obtain ⟨t₀, times, htimes⟩ := List.exists_cons_of_ne_nil (l := history.map Prod.fst ++ [t]) (by simp)
  have hempty : Reflects .make [] t₀ := Represents.empty
  refine reflects_run hempty hdef (List.pairwise_cons.mpr ⟨fun u hu => ?_, hmono⟩)
  rw [htimes] at hmono hu
  rcases List.mem_cons.mp hu with rfl | hu
  · exact Int.le_refl _
  · exact (List.pairwise_cons.mp hmono).1 u hu

/-- **What the cache serves.** For every history of calls whose times do not go
back and whose durations are defined, and for every URL, at any time from then
on: the response of the latest store for this URL with a positive duration, if
that is not over, and else nothing. With the calls for other URLs left out it is
the same. -/
theorem serveCached_eq {history : List (Int × Call)} {t : Int} (hdef : ∀ x ∈ history, x.2.WellDefined)
    (hmono : (history.map Prod.fst ++ [t]).Pairwise (· ≤ ·)) :
    ∃ db, TDatabase.make.run history = .ok db ∧ ∀ url,
      (db.serveCached url t).1 = answer history url t ∧
      ∃ db', TDatabase.make.run (history.filter fun x => decide (x.2.url = url)) = .ok db' ∧
        (db'.serveCached url t).1 = (db.serveCached url t).1 := by
  obtain ⟨db, hrun, hdb⟩ := run_reflects hdef hmono
  refine ⟨db, hrun, fun url => ⟨hdb.serveCached url, ?_⟩⟩
  have hsub : (history.filter fun x => decide (x.2.url = url)).Sublist history := List.filter_sublist
  obtain ⟨db', hrun', hdb'⟩ := run_reflects (fun x hx => hdef x (hsub.subset hx))
    (hmono.sublist ((hsub.map Prod.fst).append_right [t]))
  exact ⟨db', hrun', by rw [hdb'.serveCached, hdb.serveCached, answer_filter]⟩

def agedResponse : THttpResponse :=
  ⟨okLine, .make [⟨cacheControl, ascii "public, max-age=600"⟩], []⟩

/-- A store, and a lookup ten minutes later. -/
theorem serveCached_eq_aged :
    ∃ db, TDatabase.make.run [(0, .cacheResponse postRequest agedResponse)] = .ok db ∧ ∀ url,
      (db.serveCached url (600 * second)).1 =
        answer [(0, .cacheResponse postRequest agedResponse)] url (600 * second) ∧
      ∃ db', TDatabase.make.run ([(0, Call.cacheResponse postRequest agedResponse)].filter
          fun x => decide (x.2.url = url)) = .ok db' ∧
        (db'.serveCached url (600 * second)).1 = (db.serveCached url (600 * second)).1 := by
  refine serveCached_eq (fun x hx => ?_) (by decide)
  obtain rfl := List.mem_singleton.mp hx
  exact ⟨600, by decide +kernel⟩

end NetworksLab.L4.Database
