import Mathlib.Data.List.TakeWhile
import NetworksLab.Core.Bytes
import NetworksLab.Core.Incremental

/-!
# The origin of a URL (`individual/lib/Session.cpp`)

`SplitURL` takes what is in front of the first `://` for the scheme, wherever
that is, and what follows it up to the next `/` for the authority. A URL without
a scheme has the scheme `http`.

Results:
* `splitURL_scheme`, `splitURL_path`, `splitURL_confused`: what it makes of either form.
* `splitURL_iff`: when that is the scheme and the authority.
-/
namespace NetworksLab.L4.Session
open NetworksLab.Incremental

def SLASH : UInt8 := 0x2F

/-- `std::strstr` of a `c_str()`: the string ends at its first NUL. -/
def strstr (s t : Bytes) : Option Nat :=
  (cut t (s.takeWhile fun c => decide (c ≠ NUL))).map fun r => r.1.length

/-- mirrors individual/lib/Session.cpp:61-76 -/
def splitURL (url : Bytes) : Bytes × Bytes :=
  let ss := strstr url (ascii "://")
  let i := match ss with
    | none => 0
    | some k => k + 3
  let j := match (url.drop i).idxOf? SLASH with
    | none => url.length
    | some j => j
  match ss with
  | none => (ascii "http", (url.drop i).take j)
  | some _ => (url.take (i - 3), (url.drop i).take j)

/-- A URL of these parts; the scheme may be left out. -/
def joinURL (scheme : Option Bytes) (authority path : Bytes) : Bytes :=
  match scheme with
  | some s => s ++ ascii "://" ++ authority ++ path
  | none => authority ++ path

/-- The parts of a URL. Without a scheme, the authority does not end like one. -/
structure Parts (scheme : Option Bytes) (authority path : Bytes) : Prop where
  clear : ∀ s, scheme = some s → ¬ ascii "://" <:+: s
  noColon : scheme = none → ¬ ascii ":" <:+ authority
  noSlash : SLASH ∉ authority
  rooted : path = [] ∨ ∃ rest, path = SLASH :: rest
  noNul : NUL ∉ joinURL scheme authority path

theorem sep_eq : ascii "://" = [0x3A, SLASH, SLASH] := by decide

theorem takeWhile_noNul {s : Bytes} (h : NUL ∉ s) : s.takeWhile (fun c => decide (c ≠ NUL)) = s :=
  List.takeWhile_eq_self_iff.mpr fun _ hc => decide_eq_true fun he => h (he ▸ hc)

theorem strstr_of_fresh {f s : Bytes} (hf : Fresh (ascii "://") f) (hs : NUL ∉ f ++ ascii "://" ++ s) :
    strstr (f ++ ascii "://" ++ s) (ascii "://") = some f.length := by
  rw [strstr, takeWhile_noNul hs, cut_fresh (by decide) hf]
  rfl

theorem strstr_eq_none {s : Bytes} (hs : NUL ∉ s) (h : ¬ ascii "://" <:+: s) :
    strstr s (ascii "://") = none := by
  rw [strstr, takeWhile_noNul hs, cut_eq_none (by decide) h]
  rfl

theorem fresh_scheme {s : Bytes} (h : ¬ ascii "://" <:+: s) : Fresh (ascii "://") s :=
  fresh_cons (by decide) h

/-- The authority ends at the path; without one it is all that is left. -/
theorem take_authority {authority path : Bytes} {n : Nat} (ha : SLASH ∉ authority)
    (hp : path = [] ∨ ∃ rest, path = SLASH :: rest) (hn : authority.length ≤ n) :
    (authority ++ path).take (match (authority ++ path).idxOf? SLASH with
      | none => n
      | some j => j) = authority := by
  rcases hp with rfl | ⟨rest, rfl⟩
  · rw [List.append_nil, List.idxOf?_eq_none_iff.mpr ha]
    exact List.take_of_length_le hn
  · have hidx : (authority ++ SLASH :: rest).idxOf? SLASH = some authority.length := by
      rw [List.idxOf?_eq_some_iff]
      refine ⟨by simp, by simp, fun j hj he => ha ?_⟩
      rw [List.getElem_append_left hj] at he
      exact he ▸ List.getElem_mem hj
    rw [hidx]
    exact List.take_left' rfl

/-- A separator does not begin in the authority. -/
theorem not_infix_append {authority path : Bytes} (ha : SLASH ∉ authority)
    (hcolon : ¬ ascii ":" <:+ authority) (hp : ¬ ascii "://" <:+: path) :
    ¬ ascii "://" <:+: authority ++ path := by
  rw [List.infix_append_iff_ne_nil]
  rintro (h | h | ⟨x, y, hx, hy, hxy, hsuf, -⟩)
  · exact ha (h.subset (by decide))
  · exact hp h
  · have hpre : x <+: [0x3A, SLASH, SLASH] := ⟨y, by rw [← hxy, sep_eq]⟩
    cases x with
    | nil => exact hx rfl
    | cons a x =>
      obtain ⟨rfl, htail⟩ := List.cons_prefix_cons.mp hpre
      cases x with
      | nil => exact hcolon hsuf
      | cons b x =>
        obtain ⟨rfl, -⟩ := List.cons_prefix_cons.mp htail
        exact ha (hsuf.subset (List.mem_cons_of_mem _ List.mem_cons_self))

/-- Behind the first separator. -/
theorem splitURL_scheme {scheme authority path : Bytes} (hs : Fresh (ascii "://") scheme)
    (ha : SLASH ∉ authority) (hp : path = [] ∨ ∃ rest, path = SLASH :: rest)
    (hnul : NUL ∉ scheme ++ ascii "://" ++ (authority ++ path)) :
    splitURL (scheme ++ ascii "://" ++ (authority ++ path)) = (scheme, authority) := by
  have hlen : (ascii "://").length = 3 := by decide
  have hdrop : (scheme ++ ascii "://" ++ (authority ++ path)).drop (scheme.length + 3) =
      authority ++ path :=
    List.drop_left' (by rw [List.length_append, hlen])
  have hauthority := take_authority ha hp (n := (scheme ++ ascii "://" ++ (authority ++ path)).length)
    (by simp only [List.length_append]; omega)
  rw [splitURL, strstr_of_fresh hs hnul]
  simp only [hdrop, Nat.add_sub_cancel, Prod.mk.injEq]
  exact ⟨by rw [List.append_assoc, List.take_left], hauthority⟩

/-- Without a separator. -/
theorem splitURL_path {authority path : Bytes} (hsep : ¬ ascii "://" <:+: authority ++ path)
    (ha : SLASH ∉ authority) (hp : path = [] ∨ ∃ rest, path = SLASH :: rest)
    (hnul : NUL ∉ authority ++ path) : splitURL (authority ++ path) = (ascii "http", authority) := by
  have hauthority := take_authority ha hp (n := (authority ++ path).length) (by simp)
  rw [splitURL, strstr_eq_none hnul hsep]
  simp only [List.drop_zero, hauthority]

/-- A separator in the path is taken for that of the scheme. -/
theorem splitURL_confused {authority path : Bytes} (ha : SLASH ∉ authority)
    (hcolon : ¬ ascii ":" <:+ authority) (hp : path = [] ∨ ∃ rest, path = SLASH :: rest)
    (hnul : NUL ∉ authority ++ path) (hsep : ascii "://" <:+: path) :
    SLASH ∈ (splitURL (authority ++ path)).1 := by
  obtain ⟨f, t, rfl, hf⟩ := exists_fresh (by decide) hsep
  have hslash : SLASH ∈ f := by
    cases f with
    | nil =>
      rcases hp with h0 | ⟨rest, hrest⟩
      · exact absurd h0 (by simp [sep_eq])
      · rw [sep_eq] at hrest
        exact absurd (List.cons.inj hrest).1 (by decide)
    | cons c f =>
      rcases hp with h0 | ⟨rest, hrest⟩
      · cases h0
      · rw [(List.cons.inj hrest).1]
        exact List.mem_cons_self
  have hfresh : Fresh (ascii "://") (authority ++ f) :=
    fresh_scheme (not_infix_append ha hcolon (hf.not_infix (by decide)))
  have hurl : authority ++ (f ++ ascii "://" ++ t) = authority ++ f ++ ascii "://" ++ t := by
    simp only [List.append_assoc]
  rw [hurl] at hnul ⊢
  rw [splitURL, strstr_of_fresh hfresh hnul]
  simp only [Nat.add_sub_cancel]
  rw [List.append_assoc, List.take_left]
  exact List.mem_append_right _ hslash

/-- **When `SplitURL` finds the origin.** For every scheme, authority and path:
exactly when the scheme is given, or there is no `://` in the path. -/
theorem splitURL_iff {scheme : Option Bytes} {authority path : Bytes} (h : Parts scheme authority path) :
    splitURL (joinURL scheme authority path) = (scheme.getD (ascii "http"), authority) ↔
      scheme ≠ none ∨ ¬ ascii "://" <:+: path := by
  have hnul := h.noNul
  cases scheme with
  | some s =>
    rw [joinURL, List.append_assoc] at hnul ⊢
    exact iff_of_true (splitURL_scheme (fresh_scheme (h.clear s rfl)) h.noSlash h.rooted hnul)
      (.inl (Option.some_ne_none s))
  | none =>
    rw [joinURL] at hnul ⊢
    constructor
    · intro heq
      refine .inr fun hsep => ?_
      have hslash := splitURL_confused h.noSlash (h.noColon rfl) h.rooted hnul hsep
      rw [heq] at hslash
      exact absurd (show SLASH ∈ ascii "http" from hslash) (by decide)
    · intro hsep
      exact splitURL_path (not_infix_append h.noSlash (h.noColon rfl) (hsep.resolve_left (not_not.mpr rfl)))
        h.noSlash h.rooted hnul

/-- `http://a.b:80/?u=http://c`. -/
theorem splitURL_iff_absolute :
    splitURL (joinURL (some (ascii "http")) (ascii "a.b:80") (ascii "/?u=http://c")) =
      (ascii "http", ascii "a.b:80") := by
  have hparts : Parts (some (ascii "http")) (ascii "a.b:80") (ascii "/?u=http://c") := {
    clear := fun s hs => by
      obtain rfl := Option.some.inj hs
      decide
    noColon := fun h => absurd h (Option.some_ne_none _)
    noSlash := by decide
    rooted := .inr ⟨ascii "?u=http://c", by decide⟩
    noNul := by decide }
  exact (splitURL_iff hparts).mpr (.inl (Option.some_ne_none _))

/-- A URL in the query of one without a scheme. -/
theorem query_confused : ¬ ∀ scheme authority path, Parts scheme authority path →
    splitURL (joinURL scheme authority path) = (scheme.getD (ascii "http"), authority) := by
  intro h
  have hsplit := h none (ascii "a.b") (ascii "/?u=http://c") {
    clear := fun s hs => absurd hs.symm (Option.some_ne_none s)
    noColon := fun _ => by decide
    noSlash := by decide
    rooted := .inr ⟨ascii "?u=http://c", by decide⟩
    noNul := by decide }
  exact absurd hsplit (by decide)

end NetworksLab.L4.Session
