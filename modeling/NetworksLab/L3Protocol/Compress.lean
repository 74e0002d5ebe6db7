import NetworksLab.L3Protocol.HttpRoundTrip

/-!
# Compression of responses (`individual/lib/Compress.cpp`)

`Compress` rewrites a response in place: `gzip` behind the content encodings,
the compressed data, and its length. What the compressor does to the bytes is a
parameter.

Results:
* `compress_framed`: a framed response is framed after `Compress`, whatever the
  compressor makes of the data.
-/
namespace NetworksLab.L3.Http
open NetworksLab.Numeral (decimal)

def contentEncoding : Bytes := ascii "Content-Encoding"
def acceptEncoding : Bytes := ascii "Accept-Encoding"

/-- mirrors individual/lib/Compress.cpp:13-22 -/
def isCompressed (response : THttpResponse) : Bool :=
  match response.headers.find contentEncoding with
  | none => false
  | some header => header.splitValue.contains (ascii "gzip")

/-- One turn of the loop of `ExpandContentEncoding`.
mirrors individual/lib/Compress.cpp:28-36 -/
def expandHeader (h : THttpHeader) : THttpHeader :=
  if h.key = contentEncoding then ⟨contentEncoding, h.value ++ ascii ", gzip"⟩ else h

/-- mirrors individual/lib/Compress.cpp:24-42 -/
def expandContentEncoding (hs : THttpHeaders) : THttpHeaders :=
  let ret := hs.headers.map expandHeader
  let changed := hs.headers.any fun h => decide (h.key = contentEncoding)
  .make (if changed then ret else ret ++ [⟨contentEncoding, ascii "gzip"⟩])

/-- mirrors individual/lib/Compress.cpp:58-66 -/
def compressionSupported (request : THttpRequest) : Bool :=
  match request.headers.find acceptEncoding with
  | none => false
  | some header => header.splitValue.contains (ascii "gzip")

section
variable (gzip : Bytes → Bytes)

/-- mirrors individual/lib/Compress.cpp:68-80 -/
def compress (response : THttpResponse) : THttpResponse :=
  if isCompressed response then response
  else
    let response : THttpResponse :=
      ⟨response.statusLine, expandContentEncoding response.headers, gzip response.data⟩
    response.updateContentLength

end

/-! ## Headers -/

/-- Text without a line feed does not complete a CRLF. -/
theorem crlf_append {v w : Bytes} (hv : ¬ CRLF <:+: v) (hw : LF ∉ w) : ¬ CRLF <:+: v ++ w := by
  rw [List.infix_append_iff_ne_nil]
  rintro (h | h | ⟨x, y, -, hy, hxy, -, hpre⟩)
  · exact hv h
  · exact hw (h.subset (by decide))
  · have hlast : LF ∈ y := by
      have hsuf : y <:+ [CR, LF] := ⟨x, hxy.symm⟩
      rw [List.suffix_cons_iff, List.suffix_cons_iff, List.suffix_nil] at hsuf
      rcases hsuf with rfl | rfl | h0
      · decide
      · decide
      · exact absurd h0 hy
    exact hw (hpre.subset hlast)

theorem expandHeader_fine {h : THttpHeader} (hf : h.Fine) : (expandHeader h).Fine := by
  unfold expandHeader
  split
  · have hkey : ¬ [COLON, SP] <:+: contentEncoding ∧ ¬ CRLF <:+: contentEncoding := by decide
    exact ⟨hkey.1, hkey.2, crlf_append hf.value (by decide)⟩
  · exact hf

theorem expandHeader_key (h : THttpHeader) : (expandHeader h).key = h.key := by
  unfold expandHeader
  split
  · rename_i hk
    exact hk.symm
  · rfl

theorem expandContentEncoding_fine {hs : THttpHeaders} (hf : ∀ h ∈ hs.headers, h.Fine) :
    ∀ h ∈ (expandContentEncoding hs).headers, h.Fine := by
  have hmap : ∀ h ∈ hs.headers.map expandHeader, h.Fine := by
    intro h hh
    obtain ⟨x, hx, rfl⟩ := List.mem_map.mp hh
    exact expandHeader_fine (hf x hx)
  intro h hh
  simp only [expandContentEncoding, THttpHeaders.make] at hh
  split at hh
  · exact hmap h hh
  · rcases List.mem_append.mp hh with hh | hh
    · exact hmap h hh
    · obtain rfl := List.mem_singleton.mp hh
      constructor <;> decide

/-- The other headers are as they were. -/
theorem first_expandContentEncoding {hs : THttpHeaders} {key : Bytes} (h : key ≠ contentEncoding) :
    THttpHeaders.first (expandContentEncoding hs).headers key = THttpHeaders.first hs.headers key := by
  have hmap : THttpHeaders.first (hs.headers.map expandHeader) key =
      THttpHeaders.first hs.headers key := by
    simp only [THttpHeaders.first, List.find?_map, Function.comp_def, expandHeader_key]
    cases hx : hs.headers.find? fun h => decide (h.key = key) with
    | none => rfl
    | some x =>
      have hk : x.key = key := by simpa using List.find?_some hx
      rw [Option.map_some, expandHeader, if_neg (by rw [hk]; exact h)]
  simp only [expandContentEncoding, THttpHeaders.make]
  split
  · exact hmap
  · rw [← hmap]
    simp only [THttpHeaders.first, List.find?_append, List.find?_singleton, decide_eq_true_eq,
      if_neg h.symm, Option.or_none]

/-! ## Framing -/

theorem lengthHeader_fine (n : Nat) : (⟨contentLength, decimal n⟩ : THttpHeader).Fine := by
  have hkey : ¬ [COLON, SP] <:+: contentLength ∧ ¬ CRLF <:+: contentLength := by decide
  have hcr : CR ∉ decimal n := Numeral.not_mem_decimal (by decide) (by decide) n
  exact ⟨hkey.1, hkey.2, fun h => hcr (h.subset List.mem_cons_self)⟩

theorem lengthOf_decimal {n : Nat} (h : n < 2 ^ 31) : lengthOf (decimal n) = n := by
  rw [lengthOf, intFromChars_spells (Numeral.spells_decimal n) h]

/-- One value in all `Content-Length` headers is the length. -/
theorem dataLength_of_forall {hs : THttpHeaders} {value : Bytes}
    (hex : ∃ h ∈ hs.headers, h.key = contentLength)
    (hall : ∀ h ∈ hs.headers, h.key = contentLength → h.value = value) :
    dataLength hs = lengthOf value := by
  rcases dataLength_cases hs with ⟨hnone, -⟩ | ⟨h, hh, hk, hv⟩
  · obtain ⟨h, hh, hk⟩ := hex
    exact absurd hk (hnone h hh)
  · rw [hv, hall h hh hk]

theorem dataLength_update {hs : THttpHeaders} (hc : hs.Consistent) {n : Nat} (hn : n < 2 ^ 31) :
    dataLength (hs.update ⟨contentLength, decimal n⟩) = n := by
  obtain ⟨hmem, hall⟩ := THttpHeaders.mem_update hc ⟨contentLength, decimal n⟩
  rw [dataLength_of_forall ⟨_, hmem, rfl⟩ fun h hh hk => congrArg THttpHeader.value (hall h hh hk)]
  exact lengthOf_decimal hn

theorem HasChunked.congr {headers headers' : List THttpHeader} (h : HasChunked headers)
    (he : THttpHeaders.first headers transferEncoding = THttpHeaders.first headers' transferEncoding) :
    HasChunked headers' := by
  obtain ⟨x, hx, hc⟩ := h
  exact ⟨x, he ▸ hx, hc⟩

theorem transferEncoding_ne_length : transferEncoding ≠ contentLength := by decide

theorem THttpResponse.Framed.updateContentLength {r : THttpResponse} (hc : r.headers.Consistent)
    (hline : r.statusLine.Fine) (hheaders : ∀ h ∈ r.headers.headers, h.Fine)
    (hplain : ¬ HasChunked r.headers.headers) (hmax : r.data.length < 2 ^ 31) :
    r.updateContentLength.Framed where
  line := hline
  headers h hh := by
    rcases THttpHeaders.mem_of_mem_update hh with rfl | hh
    · exact lengthHeader_fine _
    · exact hheaders h hh
  plain h := hplain (h.congr (THttpHeaders.first_update_of_ne transferEncoding_ne_length))
  length := dataLength_update hc hmax

/-- **A compressed response is framed.** The data that the compressor makes is
delimited by the length, whatever it is. -/
theorem compress_framed (gzip : Bytes → Bytes) {r : THttpResponse} (h : r.Framed)
    (hmax : (gzip r.data).length < 2 ^ 31) : (compress gzip r).Framed := by
  unfold compress
  split
  · exact h
  · refine .updateContentLength (THttpHeaders.make_consistent _) h.line
      (expandContentEncoding_fine h.headers) (fun hc => h.plain (hc.congr ?_)) hmax
    exact first_expandContentEncoding (by decide)

end NetworksLab.L3.Http
