import NetworksLab.Core.LTS
import Mathlib.Data.List.Induction

/-!
# A board

Several authors post to one board, each what he has to say and in his own order;
how they take turns is open. The board is the specification of a broadcast: one
history, in which nothing is invented, lost behind something later, or said twice.

`reachable_iff`: the boards that can come about are those on which each author's
posts are a beginning of what he has to say.
-/
namespace NetworksLab

namespace Board

universe u v

variable {ι : Type u} {α : Type v} [DecidableEq ι]

/-- What `n` has posted. -/
def posts (n : ι) (log : List (ι × α)) : List α := (log.filter fun e => e.1 = n).map Prod.snd

/-- Author `n` posts the next thing he has to say. -/
def board (speech : ι → List α) : LTS (List (ι × α)) ι where
  init log := log = []
  step log n log' := ∃ a, (speech n)[(posts n log).length]? = some a ∧ log' = log ++ [(n, a)]

@[simp] theorem posts_nil (n : ι) : posts n ([] : List (ι × α)) = [] := rfl

theorem posts_append (n : ι) (log log' : List (ι × α)) :
    posts n (log ++ log') = posts n log ++ posts n log' := by
  rw [posts, List.filter_append, List.map_append]
  rfl

theorem posts_self (n : ι) (a : α) : posts n [(n, a)] = [a] := by simp [posts]

theorem posts_of_ne {n m : ι} (h : m ≠ n) (a : α) : posts n [(m, a)] = [] := by simp [posts, h]

theorem mem_posts {n : ι} {a : α} {log : List (ι × α)} : a ∈ posts n log ↔ (n, a) ∈ log := by
  simp [posts]

theorem posts_map {β : Type*} (f : α → β) (n : ι) (log : List (ι × α)) :
    posts n (log.map fun e => (e.1, f e.2)) = (posts n log).map f := by
  rw [posts, posts, List.filter_map, List.map_map, List.map_map]
  rfl

/-- A beginning, and what comes next. -/
theorem prefix_concat_iff {l s : List α} {a : α} :
    l ++ [a] <+: s ↔ l <+: s ∧ s[l.length]? = some a := by
  constructor
  · rintro ⟨t, rfl⟩
    refine ⟨⟨a :: t, by simp⟩, by simp⟩
  · rintro ⟨⟨t, rfl⟩, h⟩
    cases t with
    | nil => simp at h
    | cons b t =>
      rw [List.getElem?_append_right (Nat.le_refl _), Nat.sub_self, List.getElem?_cons_zero] at h
      obtain rfl := Option.some.inj h
      exact ⟨t, by simp⟩

variable {speech : ι → List α}

theorem posts_isPrefix {log : List (ι × α)} (h : (board speech).Reachable log) (n : ι) :
    posts n log <+: speech n := by
  have hind : (board speech).Inductive fun log => ∀ n, posts n log <+: speech n := by
    refine ⟨fun log h n => ?_, fun log m log' ih hs n => ?_⟩
    · obtain rfl : log = [] := h
      exact List.nil_prefix
    · obtain ⟨a, ha, rfl⟩ := hs
      rw [posts_append]
      by_cases hn : m = n
      · subst hn
        rw [posts_self]
        exact prefix_concat_iff.mpr ⟨ih m, ha⟩
      · rw [posts_of_ne hn, List.append_nil]
        exact ih n
  exact hind.reachable log h n

/-- By induction on the board from its end. -/
theorem reachable_of_isPrefix : ∀ {log : List (ι × α)}, (∀ n, posts n log <+: speech n) →
    (board speech).Reachable log := by
  intro log
  induction log using List.reverseRecOn with
  | nil => exact fun _ => .of_init rfl
  | append_singleton log e ih =>
    intro h
    obtain ⟨m, a⟩ := e
    have hlast := h m
    rw [posts_append, posts_self, prefix_concat_iff] at hlast
    refine (ih fun n => ?_).next ⟨a, hlast.2, rfl⟩
    have hn := h n
    rw [posts_append] at hn
    exact (List.prefix_append _ _).trans hn

/-- **The boards that can come about.** -/
theorem reachable_iff {log : List (ι × α)} :
    (board speech).Reachable log ↔ ∀ n, posts n log <+: speech n :=
  ⟨posts_isPrefix, reachable_of_isPrefix⟩

end Board

end NetworksLab
