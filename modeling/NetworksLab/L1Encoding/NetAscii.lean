import NetworksLab.Core.Bytes

/-!
# NetASCII (`udp/lib/Packet.cpp`)

LF is sent as CR LF and CR as CR NUL. `toNetASCII` expands byte by byte;
`fromNetASCII` looks one byte ahead and copies the last byte as it is. Both
loops are structural here: `fromLoop` is the `for` loop of the source on the
bytes it has not reached yet, where each of the two `i++` of its body drops
one more byte.

The loop bound is `(int)data.size()`, so `fromNetASCII` reads
`toInt data.length` bytes and no byte of a string whose size is negative as
an `int`.

Results:
* `fromLoop_toNetASCII`: the two loops are inverse to each other.
* `fromNetASCII_eq_iff`: the bound loses bytes exactly from `2^31` bytes on.
* `mem_image_iff`: the expansions, by what stands next to CR and LF.
* `bijection_iff`: up to the bound, the functions are inverse to each other.
-/
namespace NetworksLab.L1.NetAscii

/-- mirrors udp/lib/Packet.cpp:10-23 -/
def toNetASCII (data : Bytes) : Bytes :=
  data.flatMap fun c =>
    (if c = LF then [CR] else []) ++ [c] ++ (if c = CR then [NUL] else [])

/-- The body of `FromNetASCII`'s loop on the bytes from `data[i]` on.
mirrors udp/lib/Packet.cpp:28-40 -/
def fromLoop : Bytes → Bytes
  | [] => []
  | [c] => [c]
  | c :: d :: rest =>
    if c = CR ∧ d = LF then d :: fromLoop rest
    else if c = CR ∧ d = NUL then c :: fromLoop rest
    else c :: fromLoop (d :: rest)

/-- mirrors udp/lib/Packet.cpp:25-42 -/
def fromNetASCII (data : Bytes) : Bytes := fromLoop (data.take (toInt data.length).toNat)

/-! ## Expand, then contract -/

theorem toNetASCII_cons (c : UInt8) (s : Bytes) : toNetASCII (c :: s) =
    (if c = LF then [CR] else []) ++ [c] ++ (if c = CR then [NUL] else []) ++ toNetASCII s := rfl

theorem toNetASCII_cons_lf (s : Bytes) : toNetASCII (LF :: s) = CR :: LF :: toNetASCII s := rfl

theorem toNetASCII_cons_cr (s : Bytes) : toNetASCII (CR :: s) = CR :: NUL :: toNetASCII s := rfl

theorem toNetASCII_cons_other {c : UInt8} (hlf : c ≠ LF) (hcr : c ≠ CR) (s : Bytes) :
    toNetASCII (c :: s) = c :: toNetASCII s := by
  rw [toNetASCII_cons, if_neg hlf, if_neg hcr]; rfl

theorem toNetASCII_append (s t : Bytes) : toNetASCII (s ++ t) = toNetASCII s ++ toNetASCII t :=
  List.flatMap_append

/-- A byte that starts no pair. -/
theorem fromLoop_cons {c : UInt8} (h : c ≠ CR) (s : Bytes) : fromLoop (c :: s) = c :: fromLoop s := by
  cases s with
  | nil => rfl
  | cons d s => rw [fromLoop, if_neg fun hc => h hc.1, if_neg fun hc => h hc.1]

theorem fromLoop_append (s t : Bytes) : fromLoop (toNetASCII s ++ t) = s ++ fromLoop t := by
  induction s with
  | nil => rfl
  | cons c s ih =>
    by_cases hlf : c = LF
    · rw [hlf, toNetASCII_cons_lf, List.cons_append, List.cons_append, fromLoop, if_pos ⟨rfl, rfl⟩, ih]
      rfl
    · by_cases hcr : c = CR
      · rw [hcr, toNetASCII_cons_cr, List.cons_append, List.cons_append, fromLoop,
          if_neg fun h => absurd h.2 (by decide), if_pos ⟨rfl, rfl⟩, ih]
        rfl
      · rw [toNetASCII_cons_other hlf hcr, List.cons_append, fromLoop_cons hcr, ih]
        rfl

theorem fromLoop_toNetASCII (s : Bytes) : fromLoop (toNetASCII s) = s := by
  have := fromLoop_append s []
  rwa [List.append_nil, fromLoop, List.append_nil] at this

/-! ## Expansions that are cut off -/

/-- The expansion of a text that `x` starts with, or such an expansion and a
bare CR: what the expansion of `x` is cut off to. -/
def Cut (x w : Bytes) : Prop :=
  ∃ y, y <+: x ∧ (w = toNetASCII y ∨ w = toNetASCII y ++ [CR])

theorem fromLoop_append_cr (x : Bytes) : fromLoop (toNetASCII x ++ [CR]) = x ++ [CR] :=
  fromLoop_append x [CR]

theorem Cut.cons {c : UInt8} {x w : Bytes} (h : Cut x w) (e : Bytes)
    (he : ∀ y, toNetASCII (c :: y) = e ++ toNetASCII y) : Cut (c :: x) (e ++ w) := by
  obtain ⟨y, hy, h⟩ := h
  refine ⟨c :: y, List.cons_prefix_cons.mpr ⟨rfl, hy⟩, ?_⟩
  rw [he]
  exact h.imp (fun h => by rw [h]) (fun h => by rw [h, List.append_assoc])

theorem Cut.of_prefix {x : Bytes} : ∀ {u : Bytes}, u <+: toNetASCII x → Cut x u := by
  induction x with
  | nil =>
    intro u hu
    exact ⟨[], List.nil_prefix, .inl (List.prefix_nil.mp hu)⟩
  | cons c x ih =>
    -- the first byte of a pair on its own is a bare CR
    have hpair {d : UInt8} {u : Bytes} (hc : ∀ y, toNetASCII (c :: y) = CR :: d :: toNetASCII y)
        (hu : u <+: CR :: d :: toNetASCII x) : Cut (c :: x) u := by
      rcases u with _ | ⟨a, _ | ⟨b, u⟩⟩
      · exact ⟨[], List.nil_prefix, .inl rfl⟩
      · obtain ⟨rfl, -⟩ := List.cons_prefix_cons.mp hu
        exact ⟨[], List.nil_prefix, .inr rfl⟩
      · obtain ⟨rfl, htail⟩ := List.cons_prefix_cons.mp hu
        obtain ⟨rfl, hrest⟩ := List.cons_prefix_cons.mp htail
        exact (ih hrest).cons [CR, b] hc
    intro u hu
    by_cases hlf : c = LF
    · subst hlf
      exact hpair toNetASCII_cons_lf hu
    · by_cases hcr : c = CR
      · subst hcr
        exact hpair toNetASCII_cons_cr hu
      · rw [toNetASCII_cons_other hlf hcr] at hu
        cases u with
        | nil => exact ⟨[], List.nil_prefix, .inl rfl⟩
        | cons a u =>
          obtain ⟨rfl, htail⟩ := List.cons_prefix_cons.mp hu
          exact (ih htail).cons [a] (toNetASCII_cons_other hlf hcr)

theorem Cut.take {x w : Bytes} (h : Cut x w) (n : Nat) : Cut x (w.take n) := by
  obtain ⟨y, hy, rfl | rfl⟩ := h
  · obtain ⟨z, hz, h⟩ := Cut.of_prefix (List.take_prefix n (toNetASCII y))
    exact ⟨z, hz.trans hy, h⟩
  · rcases List.prefix_concat_iff.mp (List.take_prefix n (toNetASCII y ++ [CR])) with h | h
    · exact ⟨y, hy, .inr h⟩
    · obtain ⟨z, hz, h⟩ := Cut.of_prefix h
      exact ⟨z, hz.trans hy, h⟩

/-- What was cut off is determined by what it contracts to. -/
theorem Cut.inj {x u v : Bytes} (hx : CR ∉ x) (hu : Cut x u) (hv : Cut x v)
    (h : fromLoop u = fromLoop v) : u = v := by
  have hnot {y z : Bytes} (hy : y <+: x) : y ≠ z ++ [CR] := fun he =>
    hx (hy.subset (he ▸ List.mem_append_right z List.mem_cons_self))
  obtain ⟨y, hy, rfl | rfl⟩ := hu <;> obtain ⟨z, hz, rfl | rfl⟩ := hv <;>
    simp only [fromLoop_toNetASCII, fromLoop_append_cr] at h
  · rw [h]
  · exact absurd h (hnot hy)
  · exact absurd h.symm (hnot hz)
  · rw [List.append_cancel_right h]

theorem Cut.length_fromLoop {x w : Bytes} (h : Cut x w) : (fromLoop w).length ≤ x.length + 1 := by
  obtain ⟨y, hy, rfl | rfl⟩ := h
  · rw [fromLoop_toNetASCII]
    exact Nat.le_succ_of_le hy.length_le
  · rw [fromLoop_append_cr, List.length_append]
    exact Nat.succ_le_succ hy.length_le

/-- The bound of the loop, `(int)data.size()`, does no harm below `2^31` bytes. -/
theorem fromNetASCII_eq_iff {x w : Bytes} (hx : CR ∉ x) (h : Cut x w) :
    fromNetASCII w = fromLoop w ↔ w.length < 2 ^ 31 := by
  have hle := toInt_lt w.length
  constructor
  · intro he
    have := congrArg List.length ((h.take _).inj hx h he)
    rw [List.length_take] at this
    omega
  · intro hlt
    rw [fromNetASCII, toInt_of_lt hlt, Int.toNat_natCast, List.take_length]

/-! ## What an expansion looks like -/

/-- Every CR is the first byte of CR LF or CR NUL, and every LF the second one of
CR LF. -/
structure Paired (t : Bytes) : Prop where
  cr : ∀ i, t[i]? = some CR → t[i + 1]? = some LF ∨ t[i + 1]? = some NUL
  lf : ∀ i, t[i]? = some LF → ∃ j, i = j + 1 ∧ t[j]? = some CR

theorem paired_nil : Paired [] := ⟨by simp, by simp⟩

theorem paired_pair {d : UInt8} (hd : d = LF ∨ d = NUL) {t : Bytes} :
    Paired (CR :: d :: t) ↔ Paired t := by
  have hdcr : d ≠ CR := by rcases hd with rfl | rfl <;> decide
  constructor
  · intro h
    refine ⟨fun i hi => h.cr (i + 2) hi, fun i hi => ?_⟩
    obtain ⟨j, hj, hcr⟩ := h.lf (i + 2) hi
    cases i with
    | zero =>
      obtain rfl : j = 1 := by omega
      exact absurd (Option.some.inj hcr) hdcr
    | succ i =>
      obtain rfl : j = i + 2 := by omega
      exact ⟨i, rfl, hcr⟩
  · intro h
    refine ⟨fun i hi => ?_, fun i hi => ?_⟩
    · match i with
      | 0 => exact hd.imp (congrArg some) (congrArg some)
      | 1 => exact absurd (Option.some.inj hi) hdcr
      | i + 2 => exact h.cr i hi
    · match i with
      | 0 => exact absurd (Option.some.inj hi) (by decide)
      | 1 => exact ⟨0, rfl, rfl⟩
      | i + 2 =>
        obtain ⟨j, rfl, hcr⟩ := h.lf i hi
        exact ⟨j + 2, rfl, hcr⟩

theorem paired_other {c : UInt8} (hlf : c ≠ LF) (hcr : c ≠ CR) {t : Bytes} :
    Paired (c :: t) ↔ Paired t := by
  constructor
  · intro h
    refine ⟨fun i hi => h.cr (i + 1) hi, fun i hi => ?_⟩
    obtain ⟨j, hj, hj'⟩ := h.lf (i + 1) hi
    obtain rfl : j = i := by omega
    cases j with
    | zero => exact absurd (Option.some.inj hj') hcr
    | succ j => exact ⟨j, rfl, hj'⟩
  · intro h
    refine ⟨fun i hi => ?_, fun i hi => ?_⟩
    · match i with
      | 0 => exact absurd (Option.some.inj hi) hcr
      | i + 1 => exact h.cr i hi
    · match i with
      | 0 => exact absurd (Option.some.inj hi) hlf
      | i + 1 =>
        obtain ⟨j, rfl, hj⟩ := h.lf i hi
        exact ⟨j + 1, rfl, hj⟩

theorem paired_toNetASCII (s : Bytes) : Paired (toNetASCII s) := by
  induction s with
  | nil => exact paired_nil
  | cons c s ih =>
    by_cases hlf : c = LF
    · rw [hlf, toNetASCII_cons_lf]
      exact (paired_pair (.inl rfl)).mpr ih
    · by_cases hcr : c = CR
      · rw [hcr, toNetASCII_cons_cr]
        exact (paired_pair (.inr rfl)).mpr ih
      · rw [toNetASCII_cons_other hlf hcr]
        exact (paired_other hlf hcr).mpr ih

theorem Paired.head_ne_lf {c : UInt8} {t : Bytes} (h : Paired (c :: t)) : c ≠ LF := by
  rintro rfl
  obtain ⟨j, hj, -⟩ := h.lf 0 rfl
  omega

/-- Contract, then expand. -/
theorem toNetASCII_fromLoop {t : Bytes} (h : Paired t) : toNetASCII (fromLoop t) = t := by
  fun_induction fromLoop t with
  | case1 => rfl
  | case2 c =>
    have hcr : c ≠ CR := by
      rintro rfl
      simpa using h.cr 0 rfl
    exact toNetASCII_cons_other h.head_ne_lf hcr []
  | case3 c d rest hc ih =>
    obtain ⟨rfl, rfl⟩ := hc
    rw [toNetASCII_cons_lf, ih ((paired_pair (.inl rfl)).mp h)]
  | case4 c d rest _ hc ih =>
    obtain ⟨rfl, rfl⟩ := hc
    rw [toNetASCII_cons_cr, ih ((paired_pair (.inr rfl)).mp h)]
  | case5 c d rest hlf hnul ih =>
    have hcr : c ≠ CR := by
      rintro rfl
      rcases h.cr 0 rfl with hd | hd
      · exact hlf ⟨rfl, Option.some.inj hd⟩
      · exact hnul ⟨rfl, Option.some.inj hd⟩
    rw [toNetASCII_cons_other h.head_ne_lf hcr, ih ((paired_other h.head_ne_lf hcr).mp h)]

/-- The image of `ToNetASCII`. -/
theorem mem_image_iff (t : Bytes) : (∃ s, toNetASCII s = t) ↔ Paired t := by
  constructor
  · rintro ⟨s, rfl⟩
    exact paired_toNetASCII s
  · intro h
    exact ⟨fromLoop t, toNetASCII_fromLoop h⟩

/-! ## The two functions -/

theorem length_le_toNetASCII (s : Bytes) : s.length ≤ (toNetASCII s).length := by
  induction s with
  | nil => simp
  | cons c s ih =>
    rw [toNetASCII_cons]
    simp only [List.length_append, List.length_cons, List.length_nil]
    omega

/-- Expand, then contract: all bytes come back as long as the bound is the length. -/
theorem fromNetASCII_toNetASCII_iff (s : Bytes) :
    fromNetASCII (toNetASCII s) = s ↔ (toNetASCII s).length < 2 ^ 31 := by
  constructor
  · intro he
    by_contra hlong
    have hfar := toInt_far (Nat.not_lt.mp hlong)
    have hn := List.length_take_le (toInt (toNetASCII s).length).toNat (toNetASCII s)
    obtain ⟨y, -, hcut⟩ := Cut.of_prefix (List.take_prefix (toInt (toNetASCII s).length).toNat (toNetASCII s))
    rw [fromNetASCII] at he
    rcases hcut with hcut | hcut
    · rw [hcut, fromLoop_toNetASCII] at he
      rw [hcut, he] at hn
      omega
    · -- only the NUL of a last pair could be missing, which is one byte
      rw [hcut, fromLoop_append_cr] at he
      rw [hcut, List.length_append, List.length_singleton] at hn
      have hlen : (toNetASCII s).length = (toNetASCII y).length + 2 := by
        rw [← he, toNetASCII_append, List.length_append]
        rfl
      omega
  · intro hlt
    rw [fromNetASCII, toInt_of_lt hlt, Int.toNat_natCast, List.take_length, fromLoop_toNetASCII]

/-- Contract, then expand. -/
theorem toNetASCII_fromNetASCII_iff {t : Bytes} (h : Paired t) :
    toNetASCII (fromNetASCII t) = t ↔ t.length < 2 ^ 31 := by
  have hiff := fromNetASCII_toNetASCII_iff (fromLoop t)
  rw [toNetASCII_fromLoop h] at hiff
  rw [← hiff]
  constructor
  · intro he
    rw [← fromLoop_toNetASCII (fromNetASCII t), he]
  · intro he
    rw [he, toNetASCII_fromLoop h]

/-- NetASCII as a bijection onto its image. -/
def IsBijection : Prop :=
  (∀ s, fromNetASCII (toNetASCII s) = s) ∧ (∀ t, (∃ s, toNetASCII s = t) ↔ Paired t) ∧
    ∀ t, Paired t → toNetASCII (fromNetASCII t) = t

/-- **NetASCII.** The image of the expansion is what `Paired` says, and the two
functions are inverse to each other on a text and on an expansion if and only if
the expansion has less than `2^31` bytes. -/
theorem bijection_iff (s t : Bytes) :
    (fromNetASCII (toNetASCII s) = s ↔ (toNetASCII s).length < 2 ^ 31) ∧
    ((∃ u, toNetASCII u = t) ↔ Paired t) ∧
    (Paired t → (toNetASCII (fromNetASCII t) = t ↔ t.length < 2 ^ 31)) :=
  ⟨fromNetASCII_toNetASCII_iff s, mem_image_iff t, toNetASCII_fromNetASCII_iff⟩

/-- A text of `2^31` bytes has a negative size as an `int`. -/
theorem longText_lost : fromNetASCII (toNetASCII (List.replicate (2 ^ 31) 0)) ≠ List.replicate (2 ^ 31) 0 ∧
    ¬ IsBijection := by
  have hlost : fromNetASCII (toNetASCII (List.replicate (2 ^ 31) 0)) ≠ List.replicate (2 ^ 31) 0 := by
    rw [Ne, fromNetASCII_toNetASCII_iff, Nat.not_lt]
    have hle := length_le_toNetASCII (List.replicate (2 ^ 31) 0)
    rwa [List.length_replicate] at hle
  exact ⟨hlost, fun h => hlost (h.1 _)⟩

theorem bijection_iff_crlf : toNetASCII (fromNetASCII [CR, LF]) = [CR, LF] :=
  ((bijection_iff [LF] [CR, LF]).2.2 (paired_toNetASCII [LF])).mpr (by decide)

end NetworksLab.L1.NetAscii
