import Mathlib.Data.Nat.Digits.Lemmas
import NetworksLab.Core.Bytes

/-!
# Numerals in ASCII

Writing a number in base 2 to 36 (`numeral`) and reading the digits at the
head of a byte string (`leadingDigits`, `value`). The value of what was
written is the number, whatever follows the numeral, as long as it does not
start with a digit (`leadingDigits_numeral`).

Signed decimals on top: `decimal` is `std::to_string`, `extract` is the
extraction of an integer from an `std::istringstream`, and `extract_decimal`
their round trip.
-/
namespace NetworksLab.Numeral

/-- The character of a digit below 36, in lower case. -/
def digitChar (d : Nat) : UInt8 := if d < 10 then UInt8.ofNat (0x30 + d) else UInt8.ofNat (0x57 + d)

/-- The digit a character stands for, in either case. -/
def digitVal (c : UInt8) : Option Nat :=
  if 0x30 ≤ c.toNat ∧ c.toNat ≤ 0x39 then some (c.toNat - 0x30)
  else if 0x61 ≤ c.toNat ∧ c.toNat ≤ 0x7A then some (c.toNat - 0x57)
  else if 0x41 ≤ c.toNat ∧ c.toNat ≤ 0x5A then some (c.toNat - 0x37)
  else none

/-- The digits of `n`, most significant first; `0` is one digit. -/
def digits (b n : Nat) : List Nat := if n = 0 then [0] else (Nat.digits b n).reverse

def numeral (b n : Nat) : Bytes := (digits b n).map digitChar

/-- The base-`b` digits at the head of `s`. -/
def leadingDigits (b : Nat) : Bytes → List Nat
  | [] => []
  | c :: s =>
    match digitVal c with
    | some d => if d < b then d :: leadingDigits b s else []
    | none => []

/-- The value of digits, most significant first. -/
def value (b : Nat) (ds : List Nat) : Nat := Nat.ofDigits b ds.reverse

/-- `c` does not go on with a numeral. -/
def Stops (b : Nat) (c : UInt8) : Prop := ∀ d, digitVal c = some d → b ≤ d

theorem digitVal_digitChar {d : Nat} (h : d < 36) : digitVal (digitChar d) = some d := by
  have := (by decide : ∀ i : Fin 36, digitVal (digitChar i) = some i.val)
  exact this ⟨d, h⟩

theorem value_digits (b n : Nat) : value b (digits b n) = n := by
  unfold value digits
  split
  · subst n; simp
  · rw [List.reverse_reverse, Nat.ofDigits_digits]

theorem digits_lt {b n d : Nat} (hb : 1 < b) (h : d ∈ digits b n) : d < b := by
  unfold digits at h
  split at h
  · rw [List.mem_singleton] at h; omega
  · exact Nat.digits_lt_base hb (List.mem_reverse.mp h)

theorem digits_ne_nil (b n : Nat) : digits b n ≠ [] := by
  unfold digits
  split
  · simp
  · rename_i h
    rw [ne_eq, List.reverse_eq_nil_iff, Nat.digits_eq_nil_iff_eq_zero]
    exact h

theorem numeral_ne_nil (b n : Nat) : numeral b n ≠ [] := by
  rw [numeral, ne_eq, List.map_eq_nil_iff]
  exact digits_ne_nil b n

/-- A run of digits in front of something that stops it. -/
theorem leadingDigits_map {b : Nat} (hb : b ≤ 36) : ∀ {ds : List Nat} {s : Bytes}, (∀ d ∈ ds, d < b) →
    (∀ c t, s = c :: t → Stops b c) → leadingDigits b (ds.map digitChar ++ s) = ds
  | [], [], _, _ => rfl
  | [], c :: t, _, hs => by
    have hc := hs c t rfl
    simp only [List.map_nil, List.nil_append, leadingDigits]
    split
    · rename_i d hd
      rw [if_neg (Nat.not_lt.mpr (hc d hd))]
    · rfl
  | d :: ds, s, hd, hs => by
    have hlt := hd d List.mem_cons_self
    have ih := leadingDigits_map hb (fun e h => hd e (List.mem_cons_of_mem _ h)) hs
    simp only [List.map_cons, List.cons_append, leadingDigits,
      digitVal_digitChar (Nat.lt_of_lt_of_le hlt hb), if_pos hlt, ih]

theorem leadingDigits_numeral {b : Nat} (h1 : 1 < b) (h36 : b ≤ 36) (n : Nat) {s : Bytes}
    (hs : ∀ c t, s = c :: t → Stops b c) : leadingDigits b (numeral b n ++ s) = digits b n :=
  leadingDigits_map h36 (fun _ hd => digits_lt h1 hd) hs

/-- The characters of a numeral are letters and digits. -/
theorem numeral_digitVal {b n : Nat} (h1 : 1 < b) (h36 : b ≤ 36) {c : UInt8} (h : c ∈ numeral b n) :
    ∃ d, d < b ∧ digitVal c = some d := by
  obtain ⟨d, hd, rfl⟩ := List.mem_map.mp h
  have := digits_lt h1 hd
  exact ⟨d, this, digitVal_digitChar (by omega)⟩

theorem numeral_length_le {b n k : Nat} (h1 : 1 < b) (hk : 0 < k) (hn : n < b ^ k) :
    (numeral b n).length ≤ k := by
  rw [numeral, List.length_map, digits]
  split
  · simp only [List.length_singleton]; omega
  · rw [List.length_reverse]
    exact (Nat.digits_length_le_iff h1 n).mpr hn

/-! ## Numerals in general -/

/-- `s` is a base-`b` numeral for `n`: digits only, in either case, and maybe
leading zeros. -/
structure Spells (b : Nat) (s : Bytes) (n : Nat) : Prop where
  nonempty : s ≠ []
  digits : (leadingDigits b s).length = s.length
  value : value b (leadingDigits b s) = n

theorem digitVal_of_digits {b : Nat} : ∀ {s : Bytes}, (leadingDigits b s).length = s.length →
    ∀ c ∈ s, ∃ d, digitVal c = some d
  | [], _, c, hc => absurd hc List.not_mem_nil
  | x :: s, h, c, hc => by
    simp only [leadingDigits] at h
    split at h
    · rename_i d hd
      split at h
      · rcases List.mem_cons.mp hc with rfl | hc
        · exact ⟨d, hd⟩
        · exact digitVal_of_digits (by simpa using h) c hc
      · simp at h
    · simp at h

theorem Spells.not_mem {b n : Nat} {s : Bytes} {c : UInt8} (h : Spells b s n)
    (hc : digitVal c = none) : c ∉ s := fun hm => by
  obtain ⟨d, hd⟩ := digitVal_of_digits h.digits c hm
  rw [hc] at hd; cases hd

/-! ## Signed decimals -/

def MINUS : UInt8 := 0x2D
def PLUS : UInt8 := 0x2B

/-- `std::to_string(n)`. -/
def decimal (n : Int) : Bytes :=
  if n < 0 then MINUS :: numeral 10 n.natAbs else numeral 10 n.natAbs

/-- `std::isspace` in the classic locale. -/
def isSpace (c : UInt8) : Bool := c == 0x20 || (0x09 ≤ c && c ≤ 0x0D)

/-- The number behind an optional sign; without a digit it is 0. -/
def signed : Bytes → Int
  | [] => 0
  | c :: s =>
    if c = MINUS then -(value 10 (leadingDigits 10 s) : Int)
    else if c = PLUS then value 10 (leadingDigits 10 s)
    else value 10 (leadingDigits 10 (c :: s))

/-- What `std::istringstream(s) >> x` stores in an `x` between `lo` and `hi`:
out of range it is the nearer bound, and from white space alone nothing is
stored. -/
def extract (lo hi : Int) (s : Bytes) : Option Int :=
  match s.dropWhile isSpace with
  | [] => none
  | c :: s => some (max lo (min hi (signed (c :: s))))

/-- The number in a line, `none` if there is only white space. -/
def number (s : Bytes) : Option Int :=
  match s.dropWhile isSpace with
  | [] => none
  | c :: s => some (signed (c :: s))

theorem extract_eq (lo hi : Int) (s : Bytes) :
    extract lo hi s = (number s).map fun n => max lo (min hi n) := by
  unfold extract number
  split <;> rfl

theorem numeral_cons (n : Nat) : ∃ c s, numeral 10 n = c :: s ∧ isSpace c = false ∧ c ≠ MINUS ∧
    c ≠ PLUS := by
  obtain ⟨c, s, h⟩ := List.exists_cons_of_ne_nil (numeral_ne_nil 10 n)
  obtain ⟨d, hd, rfl⟩ := List.mem_map.mp (show c ∈ (digits 10 n).map digitChar from by
    rw [show (digits 10 n).map digitChar = c :: s from h]; exact List.mem_cons_self)
  have hlt := digits_lt (by omega) hd
  have := (by decide : ∀ i : Fin 10, isSpace (digitChar i) = false ∧ digitChar i ≠ MINUS ∧
    digitChar i ≠ PLUS) ⟨d, hlt⟩
  exact ⟨digitChar d, s, h, this⟩

theorem value_numeral (n : Nat) : value 10 (leadingDigits 10 (numeral 10 n)) = n := by
  have := leadingDigits_numeral (b := 10) (by omega) (by omega) n (s := []) (by simp)
  rw [List.append_nil] at this
  rw [this, value_digits]

theorem signed_decimal (n : Int) : signed (decimal n) = n := by
  unfold decimal
  split
  · simp only [signed, if_true, value_numeral]; omega
  · obtain ⟨c, s, h, -, hm, hp⟩ := numeral_cons n.natAbs
    rw [h]
    simp only [signed, if_neg hm, if_neg hp]
    rw [← h, value_numeral]; omega

theorem spells_decimal (n : Nat) : Spells 10 (decimal n) n := by
  have hdec : decimal n = numeral 10 n := by
    rw [decimal, if_neg (by omega), Int.natAbs_natCast]
  have hlead : leadingDigits 10 (numeral 10 n) = digits 10 n := by
    have := leadingDigits_numeral (b := 10) (by omega) (by omega) n (s := []) (by simp)
    rwa [List.append_nil] at this
  rw [hdec]
  exact ⟨numeral_ne_nil 10 n, by rw [hlead, numeral, List.length_map], value_numeral n⟩

theorem decimal_inj {m n : Int} (h : decimal m = decimal n) : m = n := by
  rw [← signed_decimal m, h, signed_decimal]

theorem decimal_cons (n : Int) : ∃ c s, decimal n = c :: s ∧ isSpace c = false := by
  unfold decimal
  split
  · exact ⟨MINUS, _, rfl, rfl⟩
  · obtain ⟨c, s, h, hc, -, -⟩ := numeral_cons n.natAbs
    exact ⟨c, s, h, hc⟩

theorem decimal_ne_nil (n : Int) : decimal n ≠ [] := by
  obtain ⟨c, s, h, -⟩ := decimal_cons n
  rw [h]; exact List.cons_ne_nil c s

theorem number_decimal (n : Int) : number (decimal n) = some n := by
  have hs := signed_decimal n
  obtain ⟨c, s, h, hc⟩ := decimal_cons n
  rw [h] at hs ⊢
  have hd : (c :: s).dropWhile isSpace = c :: s := List.dropWhile_cons_of_neg (by simp [hc])
  simp only [number, hd, hs]

theorem extract_decimal {lo hi n : Int} (hlo : lo ≤ n) (hhi : n ≤ hi) :
    extract lo hi (decimal n) = some n := by
  rw [extract_eq, number_decimal, Option.map_some, min_eq_right hhi, max_eq_right hlo]

theorem decimal_length_le {n : Int} {k : Nat} (hk : 0 < k) (hn : n.natAbs < 10 ^ k) :
    (decimal n).length ≤ k + 1 := by
  have := numeral_length_le (by omega) hk hn
  unfold decimal
  split
  · rw [List.length_cons]; omega
  · omega

/-- A decimal is made of digits and a sign. -/
theorem not_mem_decimal {c : UInt8} (hc : digitVal c = none) (hm : c ≠ MINUS) (n : Int) :
    c ∉ decimal n := by
  have hnum : c ∉ numeral 10 n.natAbs := fun h => by
    obtain ⟨d, -, hd⟩ := numeral_digitVal (by omega) (by omega) h
    rw [hc] at hd; cases hd
  unfold decimal
  split
  · rw [List.mem_cons, not_or]; exact ⟨hm, hnum⟩
  · exact hnum

/-! ## `std::from_chars` -/

/-- `std::errc` of a call that stores nothing. -/
inductive Errc where
  | invalidArgument
  | resultOutOfRange
  deriving DecidableEq, Repr

/-- The value that `std::from_chars` stores in an `x` between `lo` and `hi`. -/
def fromChars (lo hi : Int) (b : Nat) (s : Bytes) : Except Errc Int :=
  let neg := s.head? = some MINUS
  let ds := leadingDigits b (if neg then s.drop 1 else s)
  if ds = [] then .error .invalidArgument
  else
    let v : Int := if neg then -(value b ds : Int) else value b ds
    if lo ≤ v ∧ v ≤ hi then .ok v else .error .resultOutOfRange

theorem fromChars_range {lo hi v : Int} {b : Nat} {s : Bytes} (h : fromChars lo hi b s = .ok v) :
    lo ≤ v ∧ v ≤ hi := by
  simp only [fromChars] at h
  split_ifs at h with _ _ hv _ hv
  · exact Except.ok.inj h ▸ hv
  · exact Except.ok.inj h ▸ hv

theorem fromChars_spells {lo hi : Int} {b n : Nat} {s : Bytes} (h : Spells b s n) (hlo : lo ≤ n)
    (hhi : (n : Int) ≤ hi) : fromChars lo hi b s = .ok (n : Int) := by
  have hneg : s.head? ≠ some MINUS := fun hs => by
    obtain ⟨t, rfl⟩ := List.head?_eq_some_iff.mp hs
    exact h.not_mem (c := MINUS) (by decide) List.mem_cons_self
  have hne : leadingDigits b s ≠ [] := List.ne_nil_of_length_pos (by
    rw [h.digits]; exact List.length_pos_of_ne_nil h.nonempty)
  unfold fromChars
  simp only [hneg, if_false, hne, h.value]
  rw [if_pos ⟨hlo, hhi⟩]

end NetworksLab.Numeral
