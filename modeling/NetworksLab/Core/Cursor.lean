import Mathlib.Data.List.Basic
import Mathlib.Data.List.TakeWhile

/-!
# A cursor over a list

The two ways a stream is cut into fields: up to a delimiter (`readUntil`) and
by count (`take`). `field` and `after` number the fields; `Op` and `run` are
programs of such reads; `Fits` says that no counted read asks for more than is
left. Framing laws: a read of what was written (`readUntil_append_delim`) and
the reads of a stream that is still growing (`readUntil_append`).
-/
namespace NetworksLab.Cursor

universe u
variable {α : Type u} [DecidableEq α]

/-- What is before the first `d`, and what is after it (nothing when `d` does
not occur). -/
def readUntil (d : α) (s : List α) : List α × List α :=
  (s.takeWhile (fun x => decide (x ≠ d)), (s.dropWhile (fun x => decide (x ≠ d))).drop 1)

theorem readUntil_nil (d : α) : readUntil d [] = ([], []) := rfl

theorem readUntil_cons_self (d : α) (s : List α) : readUntil d (d :: s) = ([], s) := by
  simp [readUntil]

theorem readUntil_cons_ne {d x : α} (h : x ≠ d) (s : List α) :
    readUntil d (x :: s) = (x :: (readUntil d s).1, (readUntil d s).2) := by
  simp [readUntil, h]

/-- Bytes without the delimiter go to the front of the field. -/
theorem readUntil_append {d : α} {a : List α} (h : d ∉ a) (s : List α) :
    readUntil d (a ++ s) = (a ++ (readUntil d s).1, (readUntil d s).2) := by
  induction a with
  | nil => simp
  | cons x a ih =>
    rw [List.mem_cons, not_or] at h
    obtain ⟨hx, ha⟩ := h
    have hx : x ≠ d := fun he => hx he.symm
    rw [List.cons_append, readUntil_cons_ne hx, ih ha, List.cons_append]

theorem readUntil_append_delim {d : α} {a : List α} (h : d ∉ a) (s : List α) :
    readUntil d (a ++ d :: s) = (a, s) := by
  rw [readUntil_append h, readUntil_cons_self, List.append_nil]

theorem readUntil_of_not_mem {d : α} {a : List α} (h : d ∉ a) : readUntil d a = (a, []) := by
  have := readUntil_append h []
  simpa [readUntil_nil] using this

/-- A field is determined by its delimiter. -/
theorem split_unique {d : α} {a b s t : List α} (ha : d ∉ a) (hb : d ∉ b)
    (h : a ++ d :: s = b ++ d :: t) : a = b ∧ s = t := by
  have h1 := readUntil_append_delim ha s
  rw [h, readUntil_append_delim hb, Prod.mk.injEq] at h1
  exact ⟨h1.1.symm, h1.2.symm⟩

/-- A list is free of `d`, or splits at the first one. -/
theorem mem_or_split (d : α) (s : List α) : d ∉ s ∨ ∃ a t, d ∉ a ∧ s = a ++ d :: t := by
  by_cases h : d ∈ s
  · obtain ⟨a, t, he, ha⟩ := List.eq_append_cons_of_mem h
    exact .inr ⟨a, t, ha, he⟩
  · exact .inl h

/-- A beginning of a field and what follows it: it has the whole field, or no
delimiter yet. -/
theorem split_of_append {d : α} {a s t y : List α} (ha : d ∉ a) (h : s ++ y = a ++ d :: t) :
    d ∉ s ∨ ∃ s', s = a ++ d :: s' ∧ s' ++ y = t := by
  rcases mem_or_split d s with hs | ⟨b, s', hb, rfl⟩
  · exact .inl hs
  · rw [List.append_assoc, List.cons_append] at h
    obtain ⟨rfl, ht⟩ := split_unique hb ha h
    exact .inr ⟨s', rfl, ht⟩

/-- What is left behind the first `k` fields. -/
def after (d : α) : Nat → List α → List α
  | 0, s => s
  | k + 1, s => after d k (readUntil d s).2

/-- The field behind `k` others. -/
def field (d : α) (k : Nat) (s : List α) : List α := (readUntil d (after d k s)).1

theorem after_succ (d : α) (k : Nat) (s : List α) :
    after d (k + 1) s = (readUntil d (after d k s)).2 := by
  induction k generalizing s with
  | zero => rfl
  | succ k ih => rw [after, ih, after]

theorem after_nil (d : α) (k : Nat) : after d k [] = [] := by
  induction k with
  | zero => rfl
  | succ k ih => rw [after, readUntil_nil, ih]

theorem after_of_not_mem {d : α} {a : List α} (h : d ∉ a) (k : Nat) : after d (k + 1) a = [] := by
  rw [after, readUntil_of_not_mem h, after_nil]

theorem after_split {d : α} {a : List α} (h : d ∉ a) (s : List α) (k : Nat) :
    after d (k + 1) (a ++ d :: s) = after d k s := by
  rw [after, readUntil_append_delim h]

/-- The fields, each with a `d` behind it; the last one may be without. -/
def fields (d : α) : List α → List (List α)
  | [] => []
  | x :: s =>
    if x = d then [] :: fields d s
    else
      match fields d s with
      | [] => [[x]]
      | a :: as => (x :: a) :: as

/-- A read takes the first field off. -/
theorem fields_readUntil (d : α) {s : List α} (h : s ≠ []) :
    fields d s = (readUntil d s).1 :: fields d (readUntil d s).2 := by
  induction s with
  | nil => exact absurd rfl h
  | cons x s ih =>
    by_cases hx : x = d
    · subst hx
      rw [fields, if_pos rfl, readUntil_cons_self]
    · rw [fields, if_neg hx, readUntil_cons_ne hx]
      cases s with
      | nil => rfl
      | cons y s => rw [ih (List.cons_ne_nil y s)]

theorem fields_length_le (d : α) (s : List α) : (fields d s).length ≤ s.length := by
  induction s with
  | nil => exact Nat.le_refl 0
  | cons x s ih =>
    rw [fields]
    split
    · exact Nat.succ_le_succ ih
    · split
      · exact Nat.succ_le_succ (Nat.zero_le _)
      · rename_i a as h
        rw [h] at ih
        exact Nat.le_succ_of_le ih

/-- The field as a prefix up to the position `findIdx` finds. -/
theorem readUntil_eq_findIdx (d : α) (s : List α) :
    readUntil d s = (s.take (s.findIdx (· == d)), s.drop (s.findIdx (· == d) + 1)) := by
  induction s with
  | nil => rfl
  | cons x s ih =>
    by_cases h : x = d
    · subst h
      rw [readUntil_cons_self]
      simp [List.findIdx_cons]
    · have hb : (x == d) = false := beq_eq_false_iff_ne.mpr h
      rw [readUntil_cons_ne h, ih, List.findIdx_cons, hb, cond_false, List.take_succ_cons,
        List.drop_succ_cons]

theorem readUntil_suffix (d : α) (s : List α) : (readUntil d s).2 <:+ s := by
  rw [readUntil_eq_findIdx]
  exact List.drop_suffix _ _

theorem findIdx_split {d : α} {a : List α} (h : d ∉ a) (s : List α) :
    (a ++ d :: s).findIdx (· == d) = a.length := by
  induction a with
  | nil => simp [List.findIdx_cons]
  | cons x a ih =>
    rw [List.mem_cons, not_or] at h
    have hb : (x == d) = false := beq_eq_false_iff_ne.mpr fun he => h.1 he.symm
    rw [List.cons_append, List.findIdx_cons, hb, cond_false, ih h.2, List.length_cons]

theorem findIdx_of_not_mem {d : α} {a : List α} (h : d ∉ a) :
    a.findIdx (· == d) = a.length := by
  rw [List.findIdx_eq_length]
  intro x hx
  exact beq_eq_false_iff_ne.mpr fun he => h (he ▸ hx)

/-! ## Programs of reads -/

inductive Op (α : Type u) where
  | readUntil (d : α)
  | readN (n : Nat)

def Op.step : Op α → List α → List α × List α
  | .readUntil d, s => Cursor.readUntil d s
  | .readN n, s => (s.take n, s.drop n)

/-- The results of the reads, and what they leave. -/
def run : List (Op α) → List α → List (List α) × List α
  | [], s => ([], s)
  | op :: ops, s => ((op.step s).1 :: (run ops (op.step s).2).1, (run ops (op.step s).2).2)

def Op.Fits : Op α → List α → Prop
  | .readUntil _, _ => True
  | .readN n, s => n ≤ s.length

instance (op : Op α) (s : List α) : Decidable (op.Fits s) :=
  match op with
  | .readUntil _ => inferInstanceAs (Decidable True)
  | .readN n => inferInstanceAs (Decidable (n ≤ s.length))

/-- No `readN` of the program asks for more than is left. -/
def Fits : List (Op α) → List α → Prop
  | [], _ => True
  | op :: ops, s => op.Fits s ∧ Fits ops (op.step s).2

instance decidableFits : (ops : List (Op α)) → (s : List α) → Decidable (Fits ops s)
  | [], _ => inferInstanceAs (Decidable True)
  | op :: ops, s =>
    have := decidableFits ops (op.step s).2
    inferInstanceAs (Decidable (op.Fits s ∧ Fits ops (op.step s).2))

end NetworksLab.Cursor
