import Mathlib.Data.List.Basic
import Mathlib.Data.List.Perm.Basic
import Mathlib.Data.List.Perm.Lattice
import Mathlib.Data.List.Nodup

/-!
# Removal by swapping with the last element

`swapPop i` exchanges the element at `i` with the last one and drops the last:
the constant-time removal from a vector whose order does not matter. Parallel
vectors stay parallel (`map_swapPop`), and what is left is what `eraseIdx`
leaves, in another order (`swapPop_perm`).
-/
namespace NetworksLab

universe u v
variable {α : Type u} {β : Type v}

def swapPop (i : Nat) (l : List α) : List α :=
  match l.getLast? with
  | none => []
  | some x => (l.set i x).dropLast

theorem map_swapPop (f : α → β) (i : Nat) (l : List α) :
    (swapPop i l).map f = swapPop i (l.map f) := by
  unfold swapPop
  rw [List.getLast?_map]
  cases l.getLast? with
  | none => rfl
  | some x => simp only [Option.map_some, List.map_dropLast, List.map_set]

/-- An element of one of two parallel vectors has its counterpart in the other. -/
theorem exists_getElem?_of_map_eq {γ : Type*} {f : α → γ} {g : β → γ} {a : List α} {b : List β}
    (h : a.map f = b.map g) {j : Nat} {x : α} (hx : a[j]? = some x) :
    ∃ y, b[j]? = some y ∧ g y = f x := by
  have hj := congrArg (·[j]?) h
  simp only [List.getElem?_map, hx, Option.map_some] at hj
  exact Option.map_eq_some_iff.mp hj.symm

/-- An element is replaced by one with the same image. -/
theorem map_set_of_eq {f : α → β} {l : List α} {i : Nat} {a a' : α} (h : l[i]? = some a)
    (hf : f a' = f a) : (l.set i a').map f = l.map f := by
  obtain ⟨hlt, rfl⟩ := List.getElem?_eq_some_iff.mp h
  have hlt' : i < (l.map f).length := by rwa [List.length_map]
  calc (l.set i a').map f = (l.map f).set i (l.map f)[i] := by rw [List.map_set, hf, List.getElem_map]
    _ = l.map f := List.set_getElem_self hlt'

theorem swapPop_concat (a : List α) (x : α) : swapPop a.length (a ++ [x]) = a := by
  simp [swapPop]

theorem swapPop_append (a b : List α) (x y : α) :
    swapPop a.length (a ++ x :: (b ++ [y])) = a ++ y :: b := by
  have hl : (a ++ x :: (b ++ [y])).getLast? = some y := by
    rw [show a ++ x :: (b ++ [y]) = (a ++ x :: b) ++ [y] by simp, List.getLast?_concat]
  simp only [swapPop, hl, List.set_append_right _ _ (Nat.le_refl _), Nat.sub_self, List.set_cons_zero]
  rw [← List.cons_append, ← List.append_assoc, List.dropLast_concat]

theorem swapPop_cons {i : Nat} {l : List α} (h : i < l.length) (x : α) :
    swapPop (i + 1) (x :: l) = x :: swapPop i l := by
  have hne : l ≠ [] := List.ne_nil_of_length_pos (by omega)
  simp only [swapPop, List.getLast?_cons, List.getLast?_eq_some_getLast hne, Option.getD_some,
    List.set_cons_succ]
  rw [List.dropLast_cons_of_ne_nil]
  exact List.ne_nil_of_length_pos (by rw [List.length_set]; omega)

/-- Up to order, the element is removed. -/
theorem swapPop_perm {i : Nat} {l : List α} (h : i < l.length) :
    (swapPop i l).Perm (l.eraseIdx i) := by
  obtain ⟨a, x, b, rfl, rfl⟩ : ∃ a x b, l = a ++ x :: b ∧ a.length = i :=
    ⟨l.take i, l[i], l.drop (i + 1), by simp, by simp; omega⟩
  rw [List.eraseIdx_append_of_length_le (Nat.le_refl _), Nat.sub_self, List.eraseIdx_cons_zero]
  rcases List.eq_nil_or_concat b with rfl | ⟨b, y, rfl⟩
  · rw [swapPop_concat, List.append_nil]
  · rw [List.concat_eq_append, swapPop_append]
    exact List.Perm.append_left a (List.perm_append_singleton y b).symm

/-- What stands at the place that is removed does not matter. -/
theorem swapPop_set (i : Nat) (l : List α) (x : α) : swapPop i (l.set i x) = swapPop i l := by
  by_cases h : i < l.length
  · obtain ⟨a, y, b, rfl, rfl⟩ : ∃ a y b, l = a ++ y :: b ∧ a.length = i :=
      ⟨l.take i, l[i], l.drop (i + 1), by simp, by simp; omega⟩
    rw [List.set_append_right _ _ (Nat.le_refl _), Nat.sub_self, List.set_cons_zero]
    rcases List.eq_nil_or_concat b with rfl | ⟨b, z, rfl⟩
    · rw [swapPop_concat, swapPop_concat]
    · rw [List.concat_eq_append, swapPop_append, swapPop_append]
  · rw [List.set_eq_of_length_le (by omega)]

/-- Behind the place that is removed nothing moves. -/
theorem getElem?_of_swapPop {i j : Nat} {l : List α} {x : α} (hij : i < j)
    (hx : (swapPop i l)[j]? = some x) : l[j]? = some x := by
  unfold swapPop at hx
  split at hx
  · cases hx
  · rw [List.getElem?_dropLast] at hx
    split at hx
    · rwa [List.getElem?_set_ne (Nat.ne_of_lt hij)] at hx
    · cases hx

theorem zip_swapPop {a : List α} {b : List β} (h : a.length = b.length) (i : Nat) :
    (swapPop i a).zip (swapPop i b) = swapPop i (a.zip b) := by
  have ha : (a.zip b).map Prod.fst = a := List.map_fst_zip (by omega)
  have hb : (a.zip b).map Prod.snd = b := List.map_snd_zip (by omega)
  exact (List.zip_of_prod (by rw [map_swapPop, ha]) (by rw [map_swapPop, hb])).symm

theorem mem_of_mem_swapPop {i : Nat} {l : List α} {x : α} (h : i < l.length)
    (hx : x ∈ swapPop i l) : x ∈ l :=
  List.mem_of_mem_eraseIdx ((swapPop_perm h).mem_iff.mp hx)

theorem nodup_swapPop {i : Nat} {l : List α} (h : i < l.length) (hl : l.Nodup) :
    (swapPop i l).Nodup :=
  (swapPop_perm h).nodup_iff.mpr (hl.eraseIdx i)

/-- What is removed is gone. -/
theorem not_mem_swapPop [DecidableEq α] {i : Nat} {l : List α} (h : i < l.length) (hl : l.Nodup) :
    l[i] ∉ swapPop i l := by
  rw [(swapPop_perm h).mem_iff, ← hl.erase_getElem i h]
  exact hl.not_mem_erase

end NetworksLab
