import Mathlib.Data.List.Induction
import Mathlib.Logic.Function.Basic
import Mathlib.Order.Lattice

/-!
# Tables whose entries expire

A log says what was stored under which key, in the order in which it was stored,
and `fresh` reads it: the latest entry of a key, unless it has expired. A table
keeps one entry for each key and may forget those that have expired.
`Represents` connects the two, at a time: it survives stores, forgetting and the
passing of time, and a lookup in the table is a lookup in the log
(`Represents.lookup`).
-/
namespace NetworksLab.Expiring

universe u v w

variable {K : Type u} {E : Type v} {T : Type w} [DecidableEq K]

/-- The latest entry of a key. -/
def latest (log : List (K × E)) (key : K) : Option E :=
  log.reverse.findSome? fun s => if s.1 = key then some s.2 else none

theorem latest_append (log : List (K × E)) (key : K) (e : E) :
    latest (log ++ [(key, e)]) = Function.update (latest log) key (some e) := by
  funext k
  rw [latest, List.reverse_append, List.reverse_singleton, List.singleton_append,
    List.findSome?_cons]
  by_cases hk : key = k
  · subst hk
    rw [if_pos rfl, Function.update_self]
  · rw [if_neg hk, Function.update_of_ne fun h => hk h.symm, latest]

theorem mem_of_latest {log : List (K × E)} {key : K} {e : E} (h : latest log key = some e) :
    (key, e) ∈ log := by
  obtain ⟨s, hs, hse⟩ := List.exists_of_findSome?_eq_some h
  split at hse
  · rename_i hk
    rw [← hk, ← Option.some.inj hse]
    exact List.mem_reverse.mp hs
  · cases hse

/-- Only the entries of a key count for it. -/
theorem latest_filter (log : List (K × E)) (key : K) :
    latest (log.filter fun s => decide (s.1 = key)) key = latest log key := by
  induction log using List.reverseRecOn with
  | nil => rfl
  | append_singleton log s ih =>
    obtain ⟨k, e⟩ := s
    rw [List.filter_append, latest_append]
    by_cases hk : k = key
    · subst hk
      rw [List.filter_cons_of_pos (by simp), List.filter_nil, latest_append, Function.update_self,
        Function.update_self]
    · rw [List.filter_cons_of_neg (by simp [hk]), List.filter_nil, List.append_nil, ih,
        Function.update_of_ne fun h => hk h.symm]

variable [LinearOrder T] (expire : E → T)

/-- An entry, unless it has expired. -/
def unexpired (now : T) (e : Option E) : Option E := e.filter fun e => decide (now ≤ expire e)

/-- What the log has for a key. -/
def fresh (log : List (K × E)) (key : K) (now : T) : Option E := unexpired expire now (latest log key)

/-- The table has the latest entries, or has forgotten them once they expired. -/
def Represents (table : K → Option E) (log : List (K × E)) (now : T) : Prop :=
  ∀ key, table key = latest log key ∨
    (table key = none ∧ ∀ e, latest log key = some e → expire e < now)

variable {expire} {table : K → Option E} {log : List (K × E)} {now : T}

theorem Represents.empty : Represents expire (fun _ => none) ([] : List (K × E)) now :=
  fun _ => .inl rfl

theorem Represents.later (h : Represents expire table log now) {now' : T} (hle : now ≤ now') :
    Represents expire table log now' := fun key =>
  (h key).imp_right fun ⟨hnone, hexp⟩ => ⟨hnone, fun e he => lt_of_lt_of_le (hexp e he) hle⟩

theorem Represents.store (h : Represents expire table log now) (key : K) (e : E) :
    Represents expire (Function.update table key (some e)) (log ++ [(key, e)]) now := by
  intro k
  rw [latest_append]
  by_cases hk : k = key
  · subst hk
    exact .inl (by rw [Function.update_self, Function.update_self])
  · rw [Function.update_of_ne hk, Function.update_of_ne hk]
    exact h k

theorem Represents.forget (h : Represents expire table log now) {key : K}
    (hexp : ∀ e, table key = some e → expire e < now) :
    Represents expire (Function.update table key none) log now := by
  intro k
  by_cases hk : k = key
  · subst hk
    refine .inr ⟨Function.update_self _ _ _, fun e he => ?_⟩
    rcases h k with hl | ⟨-, hl⟩
    · exact hexp e (hl.trans he)
    · exact hl e he
  · rw [Function.update_of_ne hk]
    exact h k

/-- A lookup in the table. -/
theorem Represents.lookup (h : Represents expire table log now) (key : K) :
    unexpired expire now (table key) = fresh expire log key now := by
  rw [fresh]
  rcases h key with hl | ⟨hnone, hexp⟩
  · rw [hl]
  · rw [hnone]
    cases hlog : latest log key with
    | none => rfl
    | some e =>
      rw [unexpired, unexpired, Option.filter_some, if_neg (by simpa using hexp e hlog)]
      rfl

end NetworksLab.Expiring
