import NetworksLab.L3Protocol.Compress
import NetworksLab.L3Protocol.HttpHeaders

/-!
# The codings of a compressed response (`individual/lib/Compress.cpp`)

`IsCompressed` looks for `gzip` in the first `Content-Encoding` header;
`ExpandContentEncoding` writes it behind each of them. With several headers that
is one time too many for each other one, and a `gzip` in another one is missed.

Results:
* `codings_expand`, `apart_compress`: what is written, for any headers.
* `compress_idem`: compressing again does nothing.
* `recordsOnce_iff`: when `gzip` is recorded once, and for data that is compressed.
-/
namespace NetworksLab.L3.Http
open NetworksLab.Numeral (decimal)
open NetworksLab.Tokens

/-- The `Content-Encoding` headers. -/
def encodings (headers : List THttpHeader) : List THttpHeader :=
  headers.filter fun h => decide (h.key = contentEncoding)

/-- The codings of all `Content-Encoding` headers, in order. -/
def codings (headers : List THttpHeader) : List Bytes := (encodings headers).flatMap (·.splitValue)

/-- The headers that `Compress` has nothing to do with. -/
def apart (headers : List THttpHeader) : List THttpHeader :=
  headers.filter fun h => decide (h.key ≠ contentEncoding ∧ h.key ≠ contentLength)

/-- What is expected of `after`, a compressed `before`. -/
structure Encoded (gzip : Bytes → Bytes) (before after : THttpResponse) : Prop where
  codings : codings after.headers.headers = codings before.headers.headers ++ [ascii "gzip"]
  data : after.data = gzip before.data
  lengthThere : ∃ h ∈ after.headers.headers, h.key = contentLength
  length : ∀ h ∈ after.headers.headers, h.key = contentLength → h.value = decimal after.data.length
  apart : apart after.headers.headers = apart before.headers.headers

/-- `gzip` is recorded if it is not there yet, and only then. -/
structure RecordsOnce (gzip : Bytes → Bytes) (r : THttpResponse) : Prop where
  new : ascii "gzip" ∉ codings r.headers.headers → Encoded gzip r (compress gzip r)
  old : ascii "gzip" ∈ codings r.headers.headers → compress gzip r = r
  idem : compress gzip (compress gzip r) = compress gzip r

/-! ## Headers that are kept -/

/-- Headers of other keys are not filtered by what an update writes. -/
theorem filter_update {q : THttpHeader → Bool} {hs : THttpHeaders} {header : THttpHeader}
    (hq : ∀ h, q h = true → h.key ≠ header.key) :
    (hs.update header).headers.filter q = hs.headers.filter q := by
  have hothers (headers : List THttpHeader) :
      (THttpHeaders.others headers header.key).filter q = headers.filter q := by
    rw [THttpHeaders.others, List.filter_filter]
    refine List.filter_congr fun h _ => ?_
    cases hh : q h with
    | false => rfl
    | true => simpa using hq h hh
  rw [← hothers, THttpHeaders.others_update, hothers]

/-- One token more. -/
theorem splitValue_append (key value : Bytes) {word : Bytes} (hany : word.any isSeparator = false)
    (hne : word ≠ []) : THttpHeader.splitValue ⟨key, value ++ COMMA :: SP :: word⟩ =
      THttpHeader.splitValue ⟨key, value⟩ ++ [word] := by
  have hw : ∀ c ∈ word, isSeparator c = false := fun c hc =>
    eq_false_of_ne_true (List.any_eq_false.mp hany c hc)
  rw [THttpHeader.splitValue_eq, THttpHeader.splitValue_eq, tokens_append_cons (by decide),
    tokens_cons (by decide), tokens_piece hw hne]

theorem expandHeader_splitValue {h : THttpHeader} (hk : h.key = contentEncoding) :
    (expandHeader h).splitValue = h.splitValue ++ [ascii "gzip"] := by
  have htext : ascii ", gzip" = COMMA :: SP :: ascii "gzip" := by decide
  obtain ⟨key, value⟩ := h
  obtain rfl : key = contentEncoding := hk
  rw [expandHeader, if_pos rfl, htext]
  exact splitValue_append _ _ (by decide) (by decide)

theorem encodings_map (headers : List THttpHeader) :
    encodings (headers.map expandHeader) = (encodings headers).map expandHeader := by
  simp only [encodings, List.filter_map, Function.comp_def, expandHeader_key]

theorem encodings_eq_nil {headers : List THttpHeader} : encodings headers = [] ↔
    (headers.any fun h => decide (h.key = contentEncoding)) = false := by
  simp [encodings]

/-- The codings behind `ExpandContentEncoding`. -/
theorem codings_expand (hs : THttpHeaders) : codings (expandContentEncoding hs).headers =
    if encodings hs.headers = [] then [ascii "gzip"]
    else (encodings hs.headers).flatMap fun h => h.splitValue ++ [ascii "gzip"] := by
  have hmap : codings (hs.headers.map expandHeader) =
      (encodings hs.headers).flatMap fun h => h.splitValue ++ [ascii "gzip"] := by
    rw [codings, encodings_map, List.flatMap_map]
    refine List.flatMap_congr fun h hh => expandHeader_splitValue ?_
    simpa [encodings] using (List.mem_filter.mp hh).2
  simp only [expandContentEncoding, THttpHeaders.make]
  by_cases he : encodings hs.headers = []
  · have hnew : codings [⟨contentEncoding, ascii "gzip"⟩] = [ascii "gzip"] := by decide
    have happ : codings (hs.headers.map expandHeader ++ [⟨contentEncoding, ascii "gzip"⟩]) =
        codings (hs.headers.map expandHeader) ++ codings [⟨contentEncoding, ascii "gzip"⟩] := by
      simp only [codings, encodings, List.filter_append, List.flatMap_append]
    rw [encodings_eq_nil.mp he, if_neg Bool.false_ne_true, if_pos he, happ, hmap, he, hnew]
    rfl
  · have hany := mt encodings_eq_nil.mpr he
    rw [if_pos (eq_true_of_ne_false hany), if_neg he, hmap]

theorem apart_expand (hs : THttpHeaders) : apart (expandContentEncoding hs).headers = apart hs.headers := by
  have hmap : apart (hs.headers.map expandHeader) = apart hs.headers := by
    simp only [apart, List.filter_map, Function.comp_def, expandHeader_key]
    refine (List.map_congr_left fun h hh => ?_).trans (List.map_id _)
    have hk := of_decide_eq_true (List.mem_filter.mp hh).2
    rw [expandHeader, if_neg hk.1]
    rfl
  simp only [expandContentEncoding, THttpHeaders.make]
  split
  · exact hmap
  · rw [apart, List.filter_append, List.filter_cons_of_neg (by simp), List.filter_nil, List.append_nil]
    exact hmap

/-! ## Compressed responses -/

theorem isCompressed_eq {r : THttpResponse} (h : r.headers.Consistent) : isCompressed r = true ↔
    ∃ x, (encodings r.headers.headers).head? = some x ∧ ascii "gzip" ∈ x.splitValue := by
  have hfirst : (encodings r.headers.headers).head? =
      THttpHeaders.first r.headers.headers contentEncoding := List.head?_filter
  rw [isCompressed, h.represents.find, hfirst]
  cases THttpHeaders.first r.headers.headers contentEncoding with
  | none => simp
  | some x => simp

/-- The headers that a compressed response has. -/
def written (gzip : Bytes → Bytes) (r : THttpResponse) : THttpHeaders :=
  (expandContentEncoding r.headers).update ⟨contentLength, decimal (gzip r.data).length⟩

theorem compress_of_not {gzip : Bytes → Bytes} {r : THttpResponse} (h : ¬ isCompressed r = true) :
    compress gzip r = ⟨r.statusLine, written gzip r, gzip r.data⟩ := by
  rw [compress, if_neg h]
  rfl

theorem encodings_written (gzip : Bytes → Bytes) (r : THttpResponse) :
    encodings (written gzip r).headers = encodings (expandContentEncoding r.headers).headers := by
  refine filter_update fun h hh => ?_
  have hne : contentEncoding ≠ contentLength := by decide
  rwa [of_decide_eq_true hh]

/-- What becomes of the other headers, whatever encodings there are. -/
theorem apart_compress (gzip : Bytes → Bytes) (r : THttpResponse) :
    apart (compress gzip r).headers.headers = apart r.headers.headers := by
  by_cases hc : isCompressed r = true
  · rw [compress, if_pos hc]
  · rw [compress_of_not hc, written, apart, filter_update fun h hh => (of_decide_eq_true hh).2]
    exact apart_expand r.headers

theorem written_consistent (gzip : Bytes → Bytes) (r : THttpResponse) : (written gzip r).Consistent :=
  THttpHeaders.update_consistent (THttpHeaders.make_consistent _) _

/-- The first encoding that is written lists `gzip`. -/
theorem isCompressed_written (gzip : Bytes → Bytes) (r : THttpResponse) :
    isCompressed ⟨r.statusLine, written gzip r, gzip r.data⟩ = true := by
  rw [isCompressed_eq (written_consistent gzip r)]
  simp only [encodings_written, expandContentEncoding, THttpHeaders.make]
  cases he : encodings r.headers.headers with
  | nil =>
    rw [encodings_eq_nil.mp he, if_neg Bool.false_ne_true]
    refine ⟨⟨contentEncoding, ascii "gzip"⟩, ?_, by decide⟩
    have hmap := encodings_map r.headers.headers
    rw [he] at hmap
    rw [encodings, List.filter_append]
    rw [encodings] at hmap
    rw [hmap]
    decide
  | cons x xs =>
    have hany := mt encodings_eq_nil.mpr (he ▸ List.cons_ne_nil x xs)
    have hx : x ∈ encodings r.headers.headers := he ▸ List.mem_cons_self
    rw [if_pos (eq_true_of_ne_false hany), encodings_map, he]
    refine ⟨expandHeader x, rfl, ?_⟩
    rw [expandHeader_splitValue (of_decide_eq_true (List.mem_filter.mp hx).2)]
    exact List.mem_append_right _ List.mem_cons_self

theorem compress_idem (gzip : Bytes → Bytes) (r : THttpResponse) :
    compress gzip (compress gzip r) = compress gzip r := by
  by_cases hc : isCompressed r = true
  · have hsame : compress gzip r = r := if_pos hc
    rw [hsame, hsame]
  · rw [compress_of_not hc]
    exact if_pos (isCompressed_written gzip r)

/-- `gzip` is written once for each header, and once if there are none. -/
theorem codings_expand_length {hs : THttpHeaders} (h : encodings hs.headers ≠ []) :
    (codings (expandContentEncoding hs).headers).length =
      (codings hs.headers).length + (encodings hs.headers).length := by
  rw [codings_expand, if_neg h, codings]
  generalize encodings hs.headers = headers
  induction headers with
  | nil => rfl
  | cons x xs ih =>
    simp only [List.flatMap_cons, List.length_append, List.length_cons, List.length_nil, ih]
    omega

theorem codings_expand_single {hs : THttpHeaders} (h : (encodings hs.headers).length ≤ 1) :
    codings (expandContentEncoding hs).headers = codings hs.headers ++ [ascii "gzip"] := by
  rw [codings_expand, codings]
  match he : encodings hs.headers with
  | [] => rfl
  | [x] => simp
  | x :: y :: xs =>
    rw [he] at h
    simp only [List.length_cons] at h
    omega

theorem codings_compress {gzip : Bytes → Bytes} {r : THttpResponse} (hc : ¬ isCompressed r = true) :
    codings (compress gzip r).headers.headers = codings (expandContentEncoding r.headers).headers := by
  rw [compress_of_not hc, codings, encodings_written]
  rfl

theorem encoded_compress {gzip : Bytes → Bytes} {r : THttpResponse} (hc : ¬ isCompressed r = true)
    (h : codings (expandContentEncoding r.headers).headers = codings r.headers.headers ++ [ascii "gzip"]) :
    Encoded gzip r (compress gzip r) := by
  have hcons : (expandContentEncoding r.headers).Consistent := THttpHeaders.make_consistent _
  obtain ⟨hmem, hall⟩ := THttpHeaders.mem_update hcons ⟨contentLength, decimal (gzip r.data).length⟩
  have hapart := apart_compress gzip r
  have hcodings : codings (compress gzip r).headers.headers =
      codings r.headers.headers ++ [ascii "gzip"] := (codings_compress hc).trans h
  rw [compress_of_not hc] at hapart hcodings ⊢
  exact {
    codings := hcodings
    data := rfl
    lengthThere := ⟨_, hmem, rfl⟩
    length := fun x hx hk => congrArg THttpHeader.value (hall x hx hk)
    apart := hapart }

/-- By the number of codings: `gzip` has come as often as there are headers. -/
theorem RecordsOnce.single {gzip : Bytes → Bytes} {r : THttpResponse} (h : RecordsOnce gzip r)
    (hc : ¬ isCompressed r = true) : (encodings r.headers.headers).length ≤ 1 := by
  by_cases h0 : encodings r.headers.headers = []
  · rw [h0]
    exact Nat.zero_le _
  have hlen := codings_expand_length h0
  have hcodings : codings (compress gzip r).headers.headers = _ := codings_compress hc
  rw [← hcodings] at hlen
  by_cases hmem : ascii "gzip" ∈ codings r.headers.headers
  · rw [h.old hmem] at hlen
    omega
  · rw [(h.new hmem).codings, List.length_append, List.length_singleton] at hlen
    omega

/-- With one header, or none, what is listed is listed in the first. -/
theorem isCompressed_of_single {r : THttpResponse} (h : r.headers.Consistent)
    (hle : (encodings r.headers.headers).length ≤ 1) (hmem : ascii "gzip" ∈ codings r.headers.headers) :
    isCompressed r = true := by
  obtain ⟨x, hx, hgzip⟩ := List.mem_flatMap.mp hmem
  refine (isCompressed_eq h).mpr ⟨x, ?_, hgzip⟩
  match he : encodings r.headers.headers with
  | [] =>
    rw [he] at hx
    exact absurd hx List.not_mem_nil
  | [y] =>
    rw [he] at hx
    rw [List.mem_singleton.mp hx]
    rfl
  | y :: z :: ys =>
    rw [he] at hle
    simp only [List.length_cons] at hle
    omega

/-- **When `Compress` records one coding.** For every response, and every
compressor: exactly when there is at most one `Content-Encoding` header, or the
first one lists `gzip`. -/
theorem recordsOnce_iff (gzip : Bytes → Bytes) {r : THttpResponse} (h : r.headers.Consistent) :
    RecordsOnce gzip r ↔ (encodings r.headers.headers).length ≤ 1 ∨ isCompressed r = true := by
  by_cases hc : isCompressed r = true
  · obtain ⟨x, hx, hgzip⟩ := (isCompressed_eq h).mp hc
    have hmem : ascii "gzip" ∈ codings r.headers.headers :=
      List.mem_flatMap.mpr ⟨x, List.mem_of_head? hx, hgzip⟩
    exact iff_of_true ⟨fun hnew => absurd hmem hnew, fun _ => if_pos hc, compress_idem gzip r⟩ (.inr hc)
  · refine ⟨fun hr => .inl (hr.single hc), fun hone => ?_⟩
    have hle := hone.resolve_right hc
    exact ⟨fun _ => encoded_compress hc (codings_expand_single hle),
      fun hmem => absurd (isCompressed_of_single h hle hmem) hc, compress_idem gzip r⟩

/-- No data, compressed. -/
def emptyGzip : Bytes :=
  [0x1F, 0x8B, 0x08, 0x00, 0x00, 0x00, 0x00, 0x00, 0x00, 0xFF, 0x03, 0x00, 0x00, 0x00, 0x00, 0x00,
    0x00, 0x00, 0x00, 0x00]

/-- A response with one coding. -/
theorem recordsOnce_iff_br :
    RecordsOnce (fun _ => emptyGzip) ⟨okLine, .make [⟨contentEncoding, ascii "br"⟩], []⟩ :=
  (recordsOnce_iff (fun _ => emptyGzip) (THttpHeaders.make_consistent _)).mpr (.inl (by decide))

/-- Two headers: `gzip` is recorded behind each. -/
theorem recorded_twice : ¬ ∀ (gzip : Bytes → Bytes) (r : THttpResponse), r.headers.Consistent →
    RecordsOnce gzip r := by
  intro h
  have hr := h (fun _ => emptyGzip) ⟨okLine, .make [⟨contentEncoding, ascii "br"⟩,
    ⟨contentEncoding, ascii "deflate"⟩], []⟩ (THttpHeaders.make_consistent _)
  exact absurd (hr.new (by decide)).codings (by decide +kernel)

end NetworksLab.L3.Http
