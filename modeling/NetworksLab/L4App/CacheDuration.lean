import NetworksLab.L3Protocol.HttpHeaders
import NetworksLab.L4App.Database

/-!
# How long a response may be cached (`individual/lib/Database.cpp`)

`CacheDuration` takes whatever begins with `max-age` for a directive
`max-age=<digits>`: it cuts eight bytes off, and reads an `int` from the rest. A
directive that is too short throws, one without a number there leaves the `int`
unset, and one with a number there counts whatever is around it.

Results:
* `loop_of_readable`, `loop_of_not_readable`: what the loop returns, if it does.
* `cacheDuration_iff`: when that is the lifetime which the header gives.
-/
namespace NetworksLab.L4.Database
open NetworksLab.L3.Http
open NetworksLab.Numeral (value leadingDigits Spells)
open NetworksLab.Tokens

/-! ## What the header says -/

/-- The directives of the first `Cache-Control` header. -/
def directives (r : THttpResponse) : List Bytes :=
  match THttpHeaders.first r.headers.headers cacheControl with
  | none => []
  | some header => tokens isSeparator header.value

def forbids (directive : Bytes) : Bool := directive == ascii "private" || directive == ascii "no-store"

/-- The number of a directive `max-age=<digits>`, if that fits an `int`. -/
def maxAge (directive : Bytes) : Option Int :=
  let s := directive.drop (ascii "max-age=").length
  if directive = ascii "max-age=" ++ s ∧ s ≠ [] ∧ (leadingDigits 10 s).length = s.length ∧
    value 10 (leadingDigits 10 s) < 2 ^ 31 then some (value 10 (leadingDigits 10 s)) else none

/-- How long a response with these directives may be cached. -/
def lifetime (ds : List Bytes) : Int :=
  if ds.any forbids then 0 else (ds.filterMap maxAge).getLastD 0

/-! ## What the loop reads -/

/-- The loop takes it for a duration. -/
def isAge (directive : Bytes) : Bool := startsWith directive (ascii "max-age")

def readAge (directive : Bytes) : Except DurationFault Int :=
  if directive.length < (ascii "max-age=").length then throw .outOfRange
  else toIntegral (directive.drop (ascii "max-age=").length)

/-- A number can be read from each directive that the loop takes for a duration. -/
def Readable (ds : List Bytes) : Prop :=
  ∀ d ∈ ds.takeWhile fun d => !forbids d, isAge d = true → ∃ n, readAge d = .ok n

/-- The number that the loop reads. -/
def age (directive : Bytes) : Int :=
  match readAge directive with
  | .ok n => n
  | .error _ => 0

theorem loop_cons (d : Bytes) (ds : List Bytes) (ret : Int) : cacheDurationLoop (d :: ds) ret =
    if forbids d then .ok 0
    else if isAge d then do
      let ret ← readAge d
      cacheDurationLoop ds ret
    else cacheDurationLoop ds ret := by
  have hf : forbids d = true ↔ d = ascii "private" ∨ d = ascii "no-store" := by simp [forbids]
  rw [cacheDurationLoop]
  by_cases h : d = ascii "private" ∨ d = ascii "no-store"
  · rw [if_pos h, if_pos (hf.mpr h)]
    rfl
  · rw [if_neg h, if_neg (mt hf.mp h)]
    by_cases ha : startsWith d (ascii "max-age") = true
    · rw [if_pos ha, if_pos (show isAge d = true from ha), readAge]
      split
      · rfl
      · rfl
    · rw [if_neg ha, if_neg (show ¬ isAge d = true from ha)]

theorem readable_cons {d : Bytes} {ds : List Bytes} : Readable (d :: ds) ↔
    forbids d = true ∨ ((isAge d = true → ∃ n, readAge d = .ok n) ∧ Readable ds) := by
  unfold Readable
  by_cases hf : forbids d = true
  · simp [hf]
  · simp [hf]

theorem loop_of_readable {ds : List Bytes} (h : Readable ds) (ret : Int) :
    cacheDurationLoop ds ret =
      .ok (if ds.any forbids then 0 else ((ds.filter isAge).map age).getLastD ret) := by
  induction ds generalizing ret with
  | nil => rfl
  | cons d ds ih =>
    rw [loop_cons]
    rcases readable_cons.mp h with hf | ⟨hread, h⟩
    · simp [hf]
    · by_cases hf : forbids d = true
      · simp [hf]
      · rw [if_neg hf, List.any_cons, eq_false_of_ne_true hf, Bool.false_or]
        by_cases ha : isAge d = true
        · obtain ⟨n, hn⟩ := hread ha
          have hage : age d = n := by rw [age, hn]
          rw [if_pos ha, ok_bind hn, ih h, List.filter_cons_of_pos ha, List.map_cons,
            List.getLastD_cons, hage]
        · rw [if_neg ha, ih h, List.filter_cons_of_neg ha]

theorem loop_of_not_readable {ds : List Bytes} (h : ¬ Readable ds) (ret : Int) :
    ∃ e, cacheDurationLoop ds ret = .error e := by
  induction ds generalizing ret with
  | nil => exact absurd (fun d hd => absurd hd List.not_mem_nil) h
  | cons d ds ih =>
    rw [readable_cons, not_or, not_and_or] at h
    obtain ⟨hf, h⟩ := h
    rw [loop_cons, if_neg hf]
    by_cases ha : isAge d = true
    · rw [if_pos ha]
      cases hr : readAge d with
      | error e => exact ⟨e, rfl⟩
      | ok n =>
        rcases h with h | h
        · exact absurd (fun _ => ⟨n, hr⟩) h
        · exact ih h n
    · rw [if_neg ha]
      rcases h with h | h
      · exact absurd (fun h' => absurd h' ha) h
      · exact ih h ret

/-! ## Well-formed directives -/

theorem maxAge_some {d : Bytes} {n : Int} (h : maxAge d = some n) : isAge d = true ∧ readAge d = .ok n := by
  simp only [maxAge] at h
  split at h
  · rename_i hd
    cases h
    obtain ⟨hd, hne, hlen, hmax⟩ := hd
    generalize d.drop (ascii "max-age=").length = s at hd hne hlen hmax
    subst hd
    have hlong : ¬ (ascii "max-age=" ++ s).length < (ascii "max-age=").length := by
      rw [List.length_append]
      omega
    refine ⟨?_, ?_⟩
    · have hpre : ¬ (ascii "max-age=" ++ s).length < (ascii "max-age").length := by
        rw [List.length_append]
        exact Nat.not_lt.mpr (Nat.le_trans (by decide) (Nat.le_add_right _ _))
      have htake : (ascii "max-age=" ++ s).take (ascii "max-age").length = ascii "max-age" :=
        List.take_append_of_le_length (by decide)
      rw [isAge, startsWith, if_neg hpre, htake]
      exact decide_eq_true rfl
    · rw [readAge, if_neg hlong, List.drop_left, toIntegral,
        intFromChars_spells (Spells.mk hne hlen rfl) hmax]
  · cases h

/-- By the last directive that the loop takes for a duration. -/
theorem last_age_eq_iff {ds : List Bytes} : ((ds.filter isAge).map age).getLastD 0 =
      (ds.filterMap maxAge).getLastD 0 ↔
    ∀ d, (ds.filter isAge).getLast? = some d → maxAge d = none →
      age d = (ds.filterMap maxAge).getLastD 0 := by
  have hsub : ds.filterMap maxAge = (ds.filter isAge).filterMap maxAge := by
    rw [List.filterMap_filter]
    congr 1
    funext d
    by_cases ha : isAge d = true
    · rw [if_pos ha]
    · rw [if_neg ha]
      exact Option.eq_none_iff_forall_ne_some.mpr fun n hn => ha (maxAge_some hn).1
  rw [hsub]
  rcases List.eq_nil_or_concat (ds.filter isAge) with h | ⟨init, l, h⟩
  · simp [h]
  · rw [h, List.concat_eq_append]
    simp only [List.map_append, List.map_cons, List.map_nil, List.getLastD_concat, List.getLast?_concat,
      Option.some.injEq, forall_eq']
    refine ⟨fun he _ => he, fun he => ?_⟩
    cases hl : maxAge l with
    | none => exact he hl
    | some n => simp [hl, age, (maxAge_some hl).2]

/-- The directives that matter can be read: each number is there, and the last
one is that of a well-formed directive, or the same. -/
structure Plain (ds : List Bytes) : Prop where
  readable : Readable ds
  last : ds.any forbids = false → ∀ d, (ds.filter isAge).getLast? = some d → maxAge d = none →
    age d = (ds.filterMap maxAge).getLastD 0

theorem cacheDuration_eq {r : THttpResponse} (h : r.headers.Consistent) :
    cacheDuration r = cacheDurationLoop (directives r) 0 := by
  rw [cacheDuration, h.represents.find, directives]
  cases THttpHeaders.first r.headers.headers cacheControl with
  | none => rfl
  | some header => simp only [THttpHeader.splitValue_eq]

/-- **When `CacheDuration` is right.** For every response: it returns, and what
its directives give, exactly when they are plain. -/
theorem cacheDuration_iff {r : THttpResponse} (h : r.headers.Consistent) :
    cacheDuration r = .ok (lifetime (directives r)) ↔ Plain (directives r) := by
  rw [cacheDuration_eq h]
  generalize directives r = ds
  by_cases hread : Readable ds
  · rw [loop_of_readable hread, Except.ok.injEq, lifetime]
    cases hf : ds.any forbids with
    | true => exact iff_of_true rfl ⟨hread, fun h0 => by rw [hf] at h0; cases h0⟩
    | false => exact last_age_eq_iff.trans ⟨fun hl => ⟨hread, fun _ => hl⟩, fun hp => hp.last hf⟩
  · obtain ⟨e, he⟩ := loop_of_not_readable hread 0
    rw [he]
    exact iff_of_false (fun h0 => by cases h0) fun hp => hread hp.readable

/-- `public, max-age=600`. -/
theorem cacheDuration_iff_aged : lifetime (directives agedResponse) = 600 ∧ Plain (directives agedResponse) :=
  ⟨by decide +kernel, (cacheDuration_iff (THttpHeaders.make_consistent _)).mp (by decide +kernel)⟩

/-- `Cache-Control: max-age`: `substr` throws. -/
theorem max_age_throws : ¬ ∀ r : THttpResponse, r.headers.Consistent →
    cacheDuration r = .ok (lifetime (directives r)) := by
  intro h
  have hthrow := h ⟨okLine, .make [⟨cacheControl, ascii "max-age"⟩], []⟩ (THttpHeaders.make_consistent _)
  exact absurd hthrow (by decide +kernel)

end NetworksLab.L4.Database
