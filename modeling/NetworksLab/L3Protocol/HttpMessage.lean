import Mathlib.Logic.Function.Basic
import NetworksLab.Core.Bytes
import NetworksLab.Core.Numeral
import NetworksLab.Core.Tokens

/-!
# HTTP messages (`individual/lib/HTTP.cpp`)

Request and status lines, headers, requests and responses. `THttpHeaders` keeps the header list in
`Headers_` and the value of each key in the map `Values_`; every operation
keeps the two `Consistent`: the map has the value of the first header of a key.

Results:
* `THttpHeader.splitValue_runs`: `SplitValue` cuts a value at spaces and commas.
* `THttpHeaders.make_consistent`, `update_consistent`, `remove_consistent`.
* `THttpHeaders.mem_update`, `first_update_of_ne`, `mem_remove`: the headers behind
  the operations.
-/
namespace NetworksLab.L3.Http
open NetworksLab.Numeral (decimal)
open NetworksLab.Tokens

def SP : UInt8 := 0x20
def COMMA : UInt8 := 0x2C
def COLON : UInt8 := 0x3A
def CRLF : Bytes := [CR, LF]

/-- mirrors individual/lib/HTTP.cpp:9-29 -/
structure THttpRequestLine where
  method : Bytes
  url : Bytes
  httpVersion : Bytes
  deriving DecidableEq, Repr

/-- mirrors individual/lib/HTTP.cpp:31-33 -/
def THttpRequestLine.serialize (l : THttpRequestLine) : Bytes :=
  l.method ++ [SP] ++ l.url ++ [SP] ++ l.httpVersion

/-- mirrors individual/lib/HTTP.cpp:35-55 -/
structure THttpResponseStatusLine where
  httpVersion : Bytes
  statusCode : Bytes
  reason : Bytes
  deriving DecidableEq, Repr

/-- mirrors individual/lib/HTTP.cpp:57-59 -/
def THttpResponseStatusLine.serialize (l : THttpResponseStatusLine) : Bytes :=
  l.httpVersion ++ [SP] ++ l.statusCode ++ [SP] ++ l.reason

/-- mirrors individual/lib/HTTP.cpp:61-75 -/
structure THttpHeader where
  key : Bytes
  value : Bytes
  deriving DecidableEq, Repr

/-- The `for` loop of `SplitValue` at index `i`, and the token behind it.
mirrors individual/lib/HTTP.cpp:80-90 -/
def splitValueLoop (value : Bytes) : Bytes → Nat → Nat → List Bytes
  | [], _, start => if start < value.length then [value.drop start] else []
  | c :: s, i, start =>
    if c = SP ∨ c = COMMA then
      if start < i then (value.drop start).take (i - start) :: splitValueLoop value s (i + 1) (i + 1)
      else splitValueLoop value s (i + 1) (i + 1)
    else splitValueLoop value s (i + 1) start

/-- mirrors individual/lib/HTTP.cpp:77-92 -/
def THttpHeader.splitValue (h : THttpHeader) : List Bytes := splitValueLoop h.value h.value 0 0

/-- mirrors individual/lib/HTTP.cpp:94-96 -/
def THttpHeader.serialize (h : THttpHeader) : Bytes := h.key ++ [COLON, SP] ++ h.value

/-- mirrors individual/lib/HTTP.h:69-91 (`Values_` as a function) -/
structure THttpHeaders where
  headers : List THttpHeader
  values : Bytes → Option Bytes

/-- The first value of a key stays.
mirrors individual/lib/HTTP.cpp:102-105,123-126 -/
def emplaceValue (values : Bytes → Option Bytes) (header : THttpHeader) : Bytes → Option Bytes :=
  if values header.key = none then Function.update values header.key (some header.value) else values

namespace THttpHeaders

/-- mirrors individual/lib/HTTP.cpp:98-107 -/
def make (headers : List THttpHeader) : THttpHeaders :=
  ⟨headers, headers.foldl emplaceValue fun _ => none⟩

/-- With a header that is not one of the list, as in `update`; `HttpHeaders.lean` has the others.
mirrors individual/lib/HTTP.cpp:121-127 -/
def append (hs : THttpHeaders) (header : THttpHeader) : THttpHeaders :=
  ⟨hs.headers ++ [header], emplaceValue hs.values header⟩

/-- mirrors individual/lib/HTTP.cpp:129-141 -/
def update (hs : THttpHeaders) (header : THttpHeader) : THttpHeaders :=
  if hs.values header.key = none then hs.append header
  else
    ⟨hs.headers.map fun h => if h.key = header.key then header else h,
      Function.update hs.values header.key (some header.value)⟩

/-- With a key that is not a part of the object.
mirrors individual/lib/HTTP.cpp:143-155 -/
def remove (hs : THttpHeaders) (key : Bytes) : THttpHeaders :=
  ⟨hs.headers.filter fun h => decide (h.key ≠ key), Function.update hs.values key none⟩

/-- mirrors individual/lib/HTTP.cpp:157-165 -/
def find (hs : THttpHeaders) (key : Bytes) : Option THttpHeader :=
  (hs.values key).map fun value => ⟨key, value⟩

/-- mirrors individual/lib/HTTP.cpp:167-172 -/
def serialize (hs : THttpHeaders) : Bytes := hs.headers.flatMap fun h => h.serialize ++ CRLF

end THttpHeaders

/-- mirrors individual/lib/HTTP.h:93-112 -/
structure THttpRequest where
  requestLine : THttpRequestLine
  headers : THttpHeaders
  data : Bytes

/-- mirrors individual/lib/HTTP.cpp:200-204 -/
def THttpRequest.serialize (r : THttpRequest) : Bytes :=
  r.requestLine.serialize ++ CRLF ++ r.headers.serialize ++ CRLF ++ r.data

/-- mirrors individual/lib/HTTP.h:135-156 -/
structure THttpResponse where
  statusLine : THttpResponseStatusLine
  headers : THttpHeaders
  data : Bytes

def contentLength : Bytes := ascii "Content-Length"
def transferEncoding : Bytes := ascii "Transfer-Encoding"

/-- mirrors individual/lib/HTTP.cpp:232-234 -/
def THttpResponse.updateContentLength (r : THttpResponse) : THttpResponse :=
  { r with headers := r.headers.update ⟨contentLength, decimal r.data.length⟩ }

/-- mirrors individual/lib/HTTP.cpp:236-240 -/
def THttpResponse.serialize (r : THttpResponse) : Bytes :=
  r.statusLine.serialize ++ CRLF ++ r.headers.serialize ++ CRLF ++ r.data

/-! ## Values -/

/-- What `SplitValue` cuts at. -/
def isSeparator (c : UInt8) : Bool := c == SP || c == COMMA

theorem isSeparator_iff {c : UInt8} : isSeparator c = true ↔ c = SP ∨ c = COMMA := by
  simp [isSeparator]

/-- By induction on what is left, behind a token that has been begun. -/
theorem splitValueLoop_eq : ∀ (s before token : Bytes), (∀ c ∈ token, isSeparator c = false) →
    splitValueLoop (before ++ token ++ s) s (before.length + token.length) before.length =
      tokens isSeparator (token ++ s)
  | [], before, token, ht => by
    rw [splitValueLoop, List.append_nil, List.append_nil, List.length_append, List.drop_left]
    by_cases h0 : token = []
    · subst h0
      rw [if_neg (by simp), tokens_nil]
    · have hpos := List.length_pos_of_ne_nil h0
      rw [if_pos (by omega), tokens_piece ht h0]
  | c :: s, before, token, ht => by
    rw [splitValueLoop]
    by_cases hc : c = SP ∨ c = COMMA
    · have hsep := isSeparator_iff.mpr hc
      have ih := splitValueLoop_eq s (before ++ token ++ [c]) []
        fun _ h => absurd h List.not_mem_nil
      simp only [List.append_assoc, List.length_append, List.length_singleton, List.nil_append,
        List.length_nil, Nat.add_zero, List.singleton_append, ← Nat.add_assoc] at ih
      rw [if_pos hc, tokens_append_cons hsep, List.append_assoc, ih]
      by_cases h0 : token = []
      · subst h0
        rw [if_neg (by simp), tokens_nil, List.nil_append]
      · have hpos := List.length_pos_of_ne_nil h0
        rw [if_pos (by omega), tokens_piece ht h0, List.drop_left, Nat.add_sub_cancel_left,
          List.take_left, List.singleton_append]
    · have hsep : isSeparator c = false := Bool.eq_false_iff.mpr (mt isSeparator_iff.mp hc)
      have ih := splitValueLoop_eq s before (token ++ [c]) fun x hx => by
        rcases List.mem_append.mp hx with hx | hx
        · exact ht x hx
        · rwa [List.mem_singleton.mp hx]
      simp only [List.append_assoc, List.length_append, List.length_singleton, List.singleton_append,
        ← Nat.add_assoc] at ih
      rw [if_neg hc, List.append_assoc, ih]

theorem THttpHeader.splitValue_eq (h : THttpHeader) : h.splitValue = tokens isSeparator h.value :=
  splitValueLoop_eq h.value [] [] fun _ hc => absurd hc List.not_mem_nil

/-- **What `SplitValue` returns.** For every value: the maximal runs without a
space or comma, all of them and each once, from left to right. None is empty,
and none has a separator. -/
theorem THttpHeader.splitValue_runs (h : THttpHeader) :
    (∀ ts, h.splitValue = ts ↔ AreRuns isSeparator h.value ts) ∧
      ∀ t ∈ h.splitValue, t ≠ [] ∧ SP ∉ t ∧ COMMA ∉ t := by
  rw [h.splitValue_eq]
  refine ⟨fun ts => areRuns_iff.symm, fun t ht => ?_⟩
  obtain ⟨hne, hsep⟩ := (areRuns_tokens isSeparator h.value).mem ht
  have hno : ∀ c ∈ t, ¬ (c = SP ∨ c = COMMA) := fun c hc => by
    rw [← isSeparator_iff, hsep c hc]
    exact Bool.false_ne_true
  exact ⟨hne, fun hc => hno SP hc (.inl rfl), fun hc => hno COMMA hc (.inr rfl)⟩

/-! ## The map and the list -/

namespace THttpHeaders

/-- The first header of a key. -/
def first (headers : List THttpHeader) (key : Bytes) : Option THttpHeader :=
  headers.find? fun h => decide (h.key = key)

/-- `Values_` has the value of the first header of each key. -/
def Consistent (hs : THttpHeaders) : Prop :=
  ∀ key, hs.values key = (first hs.headers key).map (·.value)

theorem emplaceValue_first {values : Bytes → Option Bytes} {headers : List THttpHeader}
    (h : ∀ key, values key = (first headers key).map (·.value)) (header : THttpHeader) (key : Bytes) :
    emplaceValue values header key = (first (headers ++ [header]) key).map (·.value) := by
  have happ : first (headers ++ [header]) key =
      (first headers key).or (if header.key = key then some header else none) := by
    simp only [first, List.find?_append, List.find?_singleton, decide_eq_true_eq]
  rw [happ]
  by_cases hk : header.key = key
  · subst hk
    rw [if_pos rfl]
    unfold emplaceValue
    cases hf : first headers header.key with
    | none =>
      rw [if_pos (by rw [h, hf]; rfl), Function.update_self]; rfl
    | some x =>
      rw [if_neg (by rw [h, hf]; simp), h, hf]; rfl
  · rw [if_neg hk, Option.or_none, ← h]
    unfold emplaceValue
    split
    · rw [Function.update_of_ne fun he => hk he.symm]
    · rfl

theorem append_consistent {hs : THttpHeaders} (h : hs.Consistent) (header : THttpHeader) :
    (hs.append header).Consistent := emplaceValue_first h header

theorem make_consistent (headers : List THttpHeader) : (make headers).Consistent := by
  have hfold : ∀ (later earlier : List THttpHeader) (values : Bytes → Option Bytes),
      (∀ key, values key = (first earlier key).map (·.value)) → ∀ key,
      later.foldl emplaceValue values key = (first (earlier ++ later) key).map (·.value) := by
    intro later
    induction later with
    | nil => intro earlier values h key; simpa using h key
    | cons x later ih =>
      intro earlier values h key
      have := ih (earlier ++ [x]) (emplaceValue values x) (emplaceValue_first h x) key
      rwa [List.append_assoc] at this
  exact hfold headers [] _ fun _ => rfl

theorem first_map_replace (headers : List THttpHeader) (header : THttpHeader) (key : Bytes) :
    first (headers.map fun h => if h.key = header.key then header else h) key =
      if key = header.key then (first headers key).map fun _ => header else first headers key := by
  induction headers with
  | nil => simp [first]
  | cons x headers ih =>
    simp only [first, List.map_cons, List.find?_cons] at ih ⊢
    by_cases hx : x.key = header.key
    · by_cases hk : key = header.key
      · subst hk; simp [hx]
      · have h1 : header.key ≠ key := fun he => hk he.symm
        simp only [hx, if_true, h1, decide_false, ih, if_neg hk]
    · by_cases hk : key = header.key
      · subst hk
        simp only [hx, if_false, decide_false, ih, if_true]
      · simp only [hx, if_false, if_neg hk, ih]

theorem update_consistent {hs : THttpHeaders} (h : hs.Consistent) (header : THttpHeader) :
    (hs.update header).Consistent := by
  unfold update
  split
  · exact append_consistent h header
  · rename_i hne
    intro key
    simp only [first_map_replace]
    by_cases hk : key = header.key
    · subst hk
      rw [Function.update_self, if_pos rfl]
      rw [h] at hne
      cases hf : first hs.headers header.key with
      | none => rw [hf] at hne; exact absurd rfl hne
      | some x => rfl
    · rw [Function.update_of_ne hk, if_neg hk, h]

theorem remove_consistent {hs : THttpHeaders} (h : hs.Consistent) (key : Bytes) :
    (hs.remove key).Consistent := by
  intro k
  simp only [remove, first, List.find?_filter]
  by_cases hk : k = key
  · subst hk
    rw [Function.update_self]
    simp
  · rw [Function.update_of_ne hk, h, first]
    congr 2
    funext x
    by_cases hx : x.key = k
    · simp [hx, hk]
    · simp [hx]

theorem mem_remove {hs : THttpHeaders} {key : Bytes} {h : THttpHeader} :
    h ∈ (hs.remove key).headers ↔ h ∈ hs.headers ∧ h.key ≠ key := by
  simp [remove]

/-- After an update the key is there, once or more, with the new value only. -/
theorem mem_update {hs : THttpHeaders} (hc : hs.Consistent) (header : THttpHeader) :
    header ∈ (hs.update header).headers ∧
      ∀ h ∈ (hs.update header).headers, h.key = header.key → h = header := by
  unfold update
  split
  · rename_i hnone
    rw [hc, Option.map_eq_none_iff, first, List.find?_eq_none] at hnone
    refine ⟨by simp [append], fun h hh hk => ?_⟩
    rcases List.mem_append.mp hh with hh | hh
    · exact absurd (by simpa using hk) (hnone h hh)
    · exact List.mem_singleton.mp hh
  · rename_i hsome
    rw [hc] at hsome
    cases hf : first hs.headers header.key with
    | none => rw [hf] at hsome; exact absurd rfl hsome
    | some x =>
      have hx : x.key = header.key := by simpa [first] using List.find?_some hf
      refine ⟨List.mem_map.mpr ⟨x, List.mem_of_find?_eq_some hf, if_pos hx⟩, fun h hh hk => ?_⟩
      obtain ⟨y, -, rfl⟩ := List.mem_map.mp hh
      split
      · rfl
      · rename_i hy
        rw [if_neg hy] at hk
        exact absurd hk hy

/-- An update changes no other headers. -/
theorem mem_of_mem_update {hs : THttpHeaders} {header h : THttpHeader}
    (hh : h ∈ (hs.update header).headers) : h = header ∨ h ∈ hs.headers := by
  unfold update at hh
  split at hh
  · rcases List.mem_append.mp hh with hh | hh
    · exact .inr hh
    · exact .inl (List.mem_singleton.mp hh)
  · obtain ⟨y, hy, rfl⟩ := List.mem_map.mp hh
    split
    · exact .inl rfl
    · exact .inr hy

theorem first_update_of_ne {hs : THttpHeaders} {header : THttpHeader} {key : Bytes}
    (h : key ≠ header.key) : first (hs.update header).headers key = first hs.headers key := by
  unfold update
  split
  · simp only [append, first, List.find?_append, List.find?_singleton, decide_eq_true_eq,
      if_neg h.symm, Option.or_none]
  · simp only [first_map_replace, if_neg h]

theorem first_eq_none {headers : List THttpHeader} {key : Bytes} :
    first headers key = none ↔ ∀ h ∈ headers, h.key ≠ key := by
  simp [first]

theorem update_values (hs : THttpHeaders) (header : THttpHeader) :
    (hs.update header).values header.key = some header.value := by
  unfold update
  split
  · rename_i h
    simp only [append, emplaceValue, if_pos h, Function.update_self]
  · exact Function.update_self _ _ _

/-- An updated key is not removed with another. -/
theorem update_remove_values {hs : THttpHeaders} {header : THttpHeader} {key : Bytes}
    (h : header.key ≠ key) : ((hs.update header).remove key).values header.key = some header.value :=
  (Function.update_of_ne h _ _).trans (update_values hs header)

end THttpHeaders

end NetworksLab.L3.Http
