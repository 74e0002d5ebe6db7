import Mathlib.Data.List.Basic

/-!
# Tokens

A list cut at its separators, without the empty pieces. Lists with a separator
between them have the tokens of the one and then those of the other
(`tokens_append_cons`); a piece without a separator is one token (`tokens_piece`).

`AreRuns` says by places what they are: the maximal runs without a separator,
in order. `areRuns_iff`: the tokens, and nothing else, are the runs.
-/
namespace NetworksLab.Tokens
variable {α : Type*} {p : α → Bool} {c : α} {s : List α}

/-- The pieces of `s` between separators `p` that are not empty. -/
def tokens (p : α → Bool) (s : List α) : List (List α) := (s.splitOnP p).filter fun t => !t.isEmpty

@[simp] theorem tokens_nil : tokens p [] = [] := rfl

theorem tokens_append_cons (hc : p c = true) (s t : List α) :
    tokens p (s ++ c :: t) = tokens p s ++ tokens p t := by
  rw [tokens, List.splitOnP_append_cons s t hc, List.filter_append]
  rfl

theorem tokens_cons (hc : p c = true) (t : List α) : tokens p (c :: t) = tokens p t :=
  tokens_append_cons hc [] t

theorem tokens_piece (h : ∀ x ∈ s, p x = false) (hs : s ≠ []) : tokens p s = [s] := by
  rw [tokens, List.splitOnP_eq_singleton h]
  exact List.filter_cons_of_pos (by simpa using hs)

/-! ## Runs -/

/-- The elements from `r.1` to `r.2` are a run of `s` without a separator. It is
not empty, and ends on both sides at a separator or with `s`. -/
structure Run (p : α → Bool) (s : List α) (r : Nat × Nat) : Prop where
  lt : r.1 < r.2
  le : r.2 ≤ s.length
  word : ∀ k x, r.1 ≤ k → k < r.2 → s[k]? = some x → p x = false
  left : ∀ k x, k + 1 = r.1 → s[k]? = some x → p x = true
  right : ∀ x, s[r.2]? = some x → p x = true

def slice (s : List α) (r : Nat × Nat) : List α := (s.drop r.1).take (r.2 - r.1)

/-- `ts` are the runs of `s`: all of them, each once, from left to right. -/
def AreRuns (p : α → Bool) (s : List α) (ts : List (List α)) : Prop :=
  ∃ rs : List (Nat × Nat), (∀ r, r ∈ rs ↔ Run p s r) ∧ rs.Pairwise (fun a b => a.2 < b.1) ∧
    ts = rs.map (slice s)

section
variable {r : Nat × Nat}

theorem Run.slice_length (h : Run p s r) : (slice s r).length = r.2 - r.1 := by
  have hle := h.le
  rw [slice, List.length_take, List.length_drop]
  omega

theorem Run.slice_ne_nil (h : Run p s r) : slice s r ≠ [] := by
  have hlt := h.lt
  have hlen := h.slice_length
  exact List.ne_nil_of_length_pos (by omega)

theorem Run.not_separator (h : Run p s r) {x : α} (hx : x ∈ slice s r) : p x = false := by
  obtain ⟨k, hk⟩ := List.mem_iff_getElem?.mp hx
  have hlt := (List.getElem?_eq_some_iff.mp hk).1
  rw [h.slice_length] at hlt
  rw [slice, List.getElem?_take_of_lt hlt, List.getElem?_drop] at hk
  exact h.word _ x (by omega) (by omega) hk

end

/-- The tokens that a list of runs stands for are pieces without a separator. -/
theorem AreRuns.mem {ts : List (List α)} (h : AreRuns p s ts) {t : List α} (ht : t ∈ ts) :
    t ≠ [] ∧ ∀ x ∈ t, p x = false := by
  obtain ⟨rs, hrs, -, rfl⟩ := h
  obtain ⟨r, hr, rfl⟩ := List.mem_map.mp ht
  have hrun := (hrs r).mp hr
  exact ⟨hrun.slice_ne_nil, fun x => hrun.not_separator⟩

/-- The runs, and their order, say what the tokens are. -/
theorem AreRuns.unique {ts us : List (List α)} (h : AreRuns p s ts) (h' : AreRuns p s us) : ts = us := by
  obtain ⟨rs, hrs, hord, rfl⟩ := h
  obtain ⟨rs', hrs', hord', rfl⟩ := h'
  have hnodup : ∀ {l : List (Nat × Nat)}, (∀ r, r ∈ l ↔ Run p s r) →
      l.Pairwise (fun a b => a.2 < b.1) → l.Nodup := fun hl ho =>
    ho.imp_of_mem fun {a b} ha _ hab he => by
      have hlt := ((hl a).mp ha).lt
      subst he
      omega
  have hperm : rs.Perm rs' := (List.perm_ext_iff_of_nodup (hnodup hrs hord) (hnodup hrs' hord')).mpr
    fun r => (hrs r).trans (hrs' r).symm
  have hanti : ∀ a b, a ∈ rs → b ∈ rs' → a.2 < b.1 → b.2 < a.1 → a = b := fun a b ha hb hab hba => by
    have := ((hrs a).mp ha).lt
    have := ((hrs' b).mp hb).lt
    omega
  rw [hperm.eq_of_pairwise hanti hord hord']

/-! ## The runs on both sides of a separator -/

/-- A place in `t`, behind `n` elements. -/
def shift (n : Nat) (r : Nat × Nat) : Nat × Nat := (r.1 + n, r.2 + n)

section
variable {t : List α} {r : Nat × Nat}

theorem getElem?_before {k : Nat} (h : k < s.length) : (s ++ c :: t)[k]? = s[k]? :=
  List.getElem?_append_left h

theorem getElem?_separator : (s ++ c :: t)[s.length]? = some c := by
  rw [List.getElem?_append_right (Nat.le_refl _), Nat.sub_self, List.getElem?_cons_zero]

theorem getElem?_behind (k : Nat) : (s ++ c :: t)[k + (s.length + 1)]? = t[k]? := by
  rw [List.getElem?_append_right (by omega), show k + (s.length + 1) - s.length = k + 1 by omega,
    List.getElem?_cons_succ]

theorem run_before (hc : p c = true) (hr : r.2 ≤ s.length) : Run p (s ++ c :: t) r ↔ Run p s r := by
  have hat : ∀ k, k < r.2 → (s ++ c :: t)[k]? = s[k]? := fun k hk => getElem?_before (by omega)
  constructor
  · intro h
    have hlt := h.lt
    exact ⟨hlt, hr, fun k x h1 h2 hx => h.word k x h1 h2 ((hat k h2).trans hx),
      fun k x hk hx => h.left k x hk ((hat k (by omega)).trans hx), fun x hx => by
        have hend := (List.getElem?_eq_some_iff.mp hx).1
        exact h.right x ((getElem?_before hend).trans hx)⟩
  · intro h
    have hlt := h.lt
    refine ⟨hlt, ?_, fun k x h1 h2 hx => h.word k x h1 h2 ((hat k h2).symm.trans hx),
      fun k x hk hx => h.left k x hk ((hat k (by omega)).symm.trans hx), fun x hx => ?_⟩
    · rw [List.length_append]
      omega
    · rcases Nat.lt_or_eq_of_le hr with hend | hend
      · exact h.right x ((getElem?_before hend).symm.trans hx)
      · rw [hend, getElem?_separator] at hx
        rwa [← Option.some.inj hx]

theorem run_behind (hc : p c = true) :
    Run p (s ++ c :: t) (shift (s.length + 1) r) ↔ Run p t r := by
  have hlen : (s ++ c :: t).length = t.length + (s.length + 1) := by
    rw [List.length_append, List.length_cons]
    omega
  constructor
  · intro ⟨hlt, hle, hword, hleft, hright⟩
    simp only [shift] at hlt hle hword hleft hright
    refine ⟨by omega, by omega, fun k x h1 h2 hx => ?_, fun k x hk hx => ?_, fun x hx => ?_⟩
    · exact hword (k + (s.length + 1)) x (by omega) (by omega) ((getElem?_behind k).trans hx)
    · exact hleft (k + (s.length + 1)) x (by omega) ((getElem?_behind k).trans hx)
    · exact hright x ((getElem?_behind r.2).trans hx)
  · intro ⟨hlt, hle, hword, hleft, hright⟩
    refine ⟨?_, ?_, fun k x h1 h2 hx => ?_, fun k x hk hx => ?_, fun x hx => ?_⟩
    · simp only [shift]
      omega
    · simp only [shift]
      omega
    · simp only [shift] at h1 h2
      obtain ⟨k, rfl⟩ : ∃ i, k = i + (s.length + 1) := ⟨k - (s.length + 1), by omega⟩
      exact hword k x (by omega) (by omega) ((getElem?_behind k).symm.trans hx)
    · simp only [shift] at hk
      by_cases h0 : r.1 = 0
      · obtain rfl : k = s.length := by omega
        rw [getElem?_separator] at hx
        rwa [← Option.some.inj hx]
      · obtain ⟨k, rfl⟩ : ∃ i, k = i + (s.length + 1) := ⟨k - (s.length + 1), by omega⟩
        exact hleft k x (by omega) ((getElem?_behind k).symm.trans hx)
    · exact hright x ((getElem?_behind r.2).symm.trans hx)

/-- No run goes across a separator. -/
theorem run_append_cons (hc : p c = true) :
    Run p (s ++ c :: t) r ↔ Run p s r ∨ ∃ r', Run p t r' ∧ shift (s.length + 1) r' = r := by
  constructor
  · intro h
    have hlt := h.lt
    rcases Nat.lt_or_ge s.length r.2 with hbeyond | hle
    · have hstart : s.length < r.1 := by
        by_contra hn
        rw [h.word s.length c (by omega) hbeyond getElem?_separator] at hc
        cases hc
      have hr : shift (s.length + 1) (r.1 - (s.length + 1), r.2 - (s.length + 1)) = r := by
        ext <;> simp only [shift] <;> omega
      rw [← hr] at h
      exact .inr ⟨_, (run_behind hc).mp h, hr⟩
    · exact .inl ((run_before hc hle).mp h)
  · rintro (h | ⟨r', h, rfl⟩)
    · exact (run_before hc h.le).mpr h
    · exact (run_behind hc).mpr h

theorem slice_before (hr : r.2 ≤ s.length) (h : r.1 ≤ r.2) : slice (s ++ c :: t) r = slice s r := by
  rw [slice, slice, List.drop_append_of_le_length (by omega),
    List.take_append_of_le_length (by rw [List.length_drop]; omega)]

theorem slice_behind : slice (s ++ c :: t) (shift (s.length + 1) r) = slice t r := by
  have hdrop : (s ++ c :: t).drop (r.1 + (s.length + 1)) = t.drop r.1 := by
    rw [show r.1 + (s.length + 1) = s.length + (r.1 + 1) by omega, List.drop_length_add_append,
      List.drop_succ_cons]
  rw [slice, slice, shift, hdrop, Nat.add_sub_add_right]

end

theorem areRuns_nil : AreRuns p ([] : List α) [] := by
  refine ⟨[], fun r => iff_of_false List.not_mem_nil fun h => ?_, .nil, rfl⟩
  have hlt := h.lt
  have hle := h.le
  rw [List.length_nil] at hle
  omega

/-- The runs on the left of a separator, and then those on the right. -/
theorem AreRuns.append {t : List α} {ts us : List (List α)} (hs : AreRuns p s ts) (ht : AreRuns p t us)
    (hc : p c = true) : AreRuns p (s ++ c :: t) (ts ++ us) := by
  obtain ⟨rs, hrs, hord, rfl⟩ := hs
  obtain ⟨qs, hqs, hord', rfl⟩ := ht
  refine ⟨rs ++ qs.map (shift (s.length + 1)), fun r => ?_, ?_, ?_⟩
  · rw [List.mem_append, List.mem_map, run_append_cons hc, hrs r]
    simp only [hqs]
  · refine List.pairwise_append.mpr ⟨hord, List.pairwise_map.mpr (hord'.imp fun h => ?_), ?_⟩
    · simp only [shift]
      omega
    · intro a ha b hb
      obtain ⟨q, -, rfl⟩ := List.mem_map.mp hb
      have hle := ((hrs a).mp ha).le
      simp only [shift]
      omega
  · rw [List.map_append, List.map_map]
    congr 1
    · refine List.map_congr_left fun r hr => (slice_before ?_ ?_).symm
      · exact ((hrs r).mp hr).le
      · exact Nat.le_of_lt ((hrs r).mp hr).lt
    · exact List.map_congr_left fun r _ => slice_behind.symm

/-- A piece without a separator is one run, if it is not empty. -/
theorem areRuns_piece (h : ∀ x ∈ s, p x = false) (hs : s ≠ []) : AreRuns p s [s] := by
  have hpos := List.length_pos_of_ne_nil hs
  have hno : ∀ {k x}, s[k]? = some x → p x ≠ true := fun hx =>
    Bool.eq_false_iff.mp (h _ (List.mem_of_getElem? hx))
  refine ⟨[(0, s.length)], fun r => ?_, List.pairwise_singleton _ _, ?_⟩
  · rw [List.mem_singleton]
    constructor
    · rintro rfl
      exact ⟨hpos, Nat.le_refl _, fun k x _ _ hx => h x (List.mem_of_getElem? hx),
        fun k x hk _ => absurd hk (Nat.succ_ne_zero k),
        fun x hx => absurd (List.getElem?_eq_some_iff.mp hx).1 (Nat.lt_irrefl _)⟩
    · intro ⟨hlt, hle, _, hleft, hright⟩
      have hstart : r.1 = 0 := by
        by_contra hn
        have hk : r.1 - 1 < s.length := by omega
        exact hno (List.getElem?_eq_getElem hk) (hleft _ _ (by omega) (List.getElem?_eq_getElem hk))
      have hend : r.2 = s.length := by
        by_contra hn
        have hk : r.2 < s.length := by omega
        exact hno (List.getElem?_eq_getElem hk) (hright _ (List.getElem?_eq_getElem hk))
      exact Prod.ext hstart hend
  · rw [List.map_singleton, slice, List.drop_zero, Nat.sub_zero, List.take_length]

theorem areRuns_tokens_piece (h : ∀ x ∈ s, p x = false) : AreRuns p s (tokens p s) := by
  by_cases h0 : s = []
  · subst h0
    exact areRuns_nil
  · rw [tokens_piece h h0]
    exact areRuns_piece h h0

/-- By induction on what is left, behind a piece. -/
theorem areRuns_tokens_append : ∀ (t s : List α), (∀ x ∈ s, p x = false) →
    AreRuns p (s ++ t) (tokens p (s ++ t))
  | [], s, hs => by
    rw [List.append_nil]
    exact areRuns_tokens_piece hs
  | c :: t, s, hs => by
    by_cases hc : p c = true
    · rw [tokens_append_cons hc]
      exact (areRuns_tokens_piece hs).append
        (areRuns_tokens_append t [] fun x hx => absurd hx List.not_mem_nil) hc
    · have ih := areRuns_tokens_append t (s ++ [c]) fun x hx => by
        rcases List.mem_append.mp hx with hx | hx
        · exact hs x hx
        · rw [List.mem_singleton.mp hx]
          exact Bool.eq_false_iff.mpr hc
      rwa [List.append_assoc, List.singleton_append] at ih

theorem areRuns_tokens (p : α → Bool) (s : List α) : AreRuns p s (tokens p s) :=
  areRuns_tokens_append s [] fun _ hx => absurd hx List.not_mem_nil

theorem areRuns_iff {ts : List (List α)} : AreRuns p s ts ↔ tokens p s = ts := by
  constructor
  · exact (areRuns_tokens p s).unique
  · rintro rfl
    exact areRuns_tokens p s

end NetworksLab.Tokens
