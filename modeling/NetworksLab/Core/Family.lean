import Mathlib.Data.List.Induction
import Mathlib.Logic.Function.Basic

/-!
# Components that share a store

Any number of copies of one component, each with its own state and all of them
with one store. An event drives one copy. `uses` bounds what an event reads and
writes of the store: `frame` and `local_` are what it means.

Results:
* `run_own`: copies that use different parts of the store do not interfere.
  Whatever the order of all events, each copy is as if it had been driven alone,
  and so is its part of the store.
-/
namespace NetworksLab

universe u v w x y
variable {ι : Type u} {σ : Type v} {ε : Type w} {K : Type x} {V : Type y}

/-- A change of the store that reads and writes one place. -/
structure OnlyAt (k : K) (u : (K → V) → K → V) : Prop where
  frame : ∀ f k', k' ≠ k → u f k' = f k'
  congr : ∀ f g, f k = g k → u f k = u g k

theorem OnlyAt.id (k : K) : OnlyAt k fun f : K → V => f :=
  ⟨fun _ _ _ => rfl, fun _ _ h => h⟩

theorem OnlyAt.update [DecidableEq K] (k : K) (value : V → V) :
    OnlyAt k fun f => Function.update f k (value (f k)) where
  frame _ _ h := Function.update_of_ne h ..
  congr f g h := by rw [Function.update_self, Function.update_self, h]

theorem OnlyAt.ite {k : K} {u u' : (K → V) → K → V} {c : Prop} [Decidable c] (hu : OnlyAt k u)
    (hu' : OnlyAt k u') : OnlyAt k fun f => if c then u f else u' f := by
  by_cases hc : c
  · simpa only [if_pos hc] using hu
  · simpa only [if_neg hc] using hu'

theorem OnlyAt.agree {k : K} {u : (K → V) → K → V} (hu : OnlyAt k u) {f g : K → V} (hk : f k = g k)
    {k' : K} (hk' : f k' = g k') : u f k' = u g k' := by
  by_cases h : k' = k
  · rw [h]
    exact hu.congr f g hk
  · rw [hu.frame f k' h, hu.frame g k' h, hk']

structure Component (σ : Type v) (ε : Type w) (K : Type x) (V : Type y) where
  step : σ → (K → V) → ε → σ × (K → V)
  uses : σ → ε → K → Prop
  frame : ∀ s f e k, ¬ uses s e k → (step s f e).2 k = f k
  local_ : ∀ s f g e, (∀ k, uses s e k → f k = g k) →
    (step s f e).1 = (step s g e).1 ∧ ∀ k, uses s e k → (step s f e).2 k = (step s g e).2 k

/-- The copies, the store, and what each copy has used of it. -/
structure Family (ι : Type u) (σ : Type v) (K : Type x) (V : Type y) where
  comps : ι → σ
  store : K → V
  used : ι → K → Prop

/-- No two copies have used the same. -/
def Family.Disjoint (F : Family ι σ K V) : Prop :=
  ∀ i j k, F.used i k → F.used j k → i = j

/-- The events of one copy. -/
def ownEvents [DecidableEq ι] (i : ι) (log : List (ι × ε)) : List ε :=
  log.filterMap fun x => if x.1 = i then some x.2 else none

theorem ownEvents_append [DecidableEq ι] (i : ι) (log log' : List (ι × ε)) :
    ownEvents i (log ++ log') = ownEvents i log ++ ownEvents i log' := by
  simp [ownEvents]

@[simp] theorem ownEvents_nil [DecidableEq ι] (i : ι) : ownEvents i ([] : List (ι × ε)) = [] := rfl

@[simp] theorem ownEvents_self [DecidableEq ι] (i : ι) (e : ε) (log : List (ι × ε)) :
    ownEvents i ((i, e) :: log) = e :: ownEvents i log := by
  simp [ownEvents]

theorem ownEvents_ne [DecidableEq ι] {i j : ι} (h : j ≠ i) (e : ε) (log : List (ι × ε)) :
    ownEvents i ((j, e) :: log) = ownEvents i log := by
  simp [ownEvents, h]

theorem mem_ownEvents [DecidableEq ι] {i : ι} {e : ε} {log : List (ι × ε)} :
    e ∈ ownEvents i log ↔ (i, e) ∈ log := by
  simp [ownEvents, List.mem_filterMap]

namespace Component

/-- One copy with the whole store for itself. -/
def alone (C : Component σ ε K V) (s : σ) (f : K → V) (es : List ε) : σ × (K → V) :=
  es.foldl (fun p e => C.step p.1 p.2 e) (s, f)

theorem alone_concat (C : Component σ ε K V) (s : σ) (f : K → V) (es : List ε) (e : ε) :
    C.alone s f (es ++ [e]) = C.step (C.alone s f es).1 (C.alone s f es).2 e := by
  simp [alone]

variable [DecidableEq ι]

def next (C : Component σ ε K V) (F : Family ι σ K V) (i : ι) (e : ε) : Family ι σ K V where
  comps := Function.update F.comps i (C.step (F.comps i) F.store e).1
  store := (C.step (F.comps i) F.store e).2
  used j k := F.used j k ∨ j = i ∧ C.uses (F.comps i) e k

/-- The family behind a list of events. -/
def runFrom (C : Component σ ε K V) (F : Family ι σ K V) (log : List (ι × ε)) : Family ι σ K V :=
  log.foldl (fun F x => C.next F x.1 x.2) F

/-- All copies start in `s`, and nothing has been used. -/
def run (C : Component σ ε K V) (s : σ) (f : K → V) (log : List (ι × ε)) : Family ι σ K V :=
  C.runFrom ⟨fun _ => s, f, fun _ _ => False⟩ log

variable {C : Component σ ε K V} {s : σ} {f : K → V} {F : Family ι σ K V}

theorem run_append (log log' : List (ι × ε)) :
    C.run s f (log ++ log') = C.runFrom (C.run s f log) log' :=
  List.foldl_append

@[simp] theorem runFrom_nil : C.runFrom F [] = F := rfl

theorem run_append_singleton (log : List (ι × ε)) (i : ι) (e : ε) :
    C.run s f (log ++ [(i, e)]) = C.next (C.run s f log) i e :=
  run_append log [(i, e)]

@[simp] theorem runFrom_cons (x : ι × ε) (log : List (ι × ε)) :
    C.runFrom F (x :: log) = C.runFrom (C.next F x.1 x.2) log := rfl

theorem next_comps (i : ι) (e : ε) :
    (C.next F i e).comps = Function.update F.comps i (C.step (F.comps i) F.store e).1 := rfl

theorem next_store (i : ι) (e : ε) : (C.next F i e).store = (C.step (F.comps i) F.store e).2 := rfl

theorem next_self (i : ι) (e : ε) : (C.next F i e).comps i = (C.step (F.comps i) F.store e).1 :=
  Function.update_self ..

theorem next_of_ne {i j : ι} (h : j ≠ i) (e : ε) : (C.next F i e).comps j = F.comps j :=
  Function.update_of_ne h ..

theorem next_frame {i : ι} {e : ε} {k : K} (h : ¬ C.uses (F.comps i) e k) :
    (C.next F i e).store k = F.store k :=
  C.frame _ _ _ _ h

theorem disjoint_of_next {i : ι} {e : ε} (h : (C.next F i e).Disjoint) : F.Disjoint :=
  fun a b k ha hb => h a b k (.inl ha) (.inl hb)

/-- **No interference.** If no two copies have used the same part of the store,
each copy, and every part that no other copy has used, is what the events of that
copy alone make of it. -/
theorem run_own (log : List (ι × ε)) (hd : (C.run s f log).Disjoint) (i : ι) :
    (C.run s f log).comps i = (C.alone s f (ownEvents i log)).1 ∧
    ∀ k, (∀ j, (C.run s f log).used j k → j = i) →
      (C.run s f log).store k = (C.alone s f (ownEvents i log)).2 k := by
  induction log using List.reverseRecOn with
  | nil => exact ⟨rfl, fun _ _ => rfl⟩
  | append_singleton log x ih =>
    obtain ⟨j, e⟩ := x
    rw [run_append_singleton] at hd ⊢
    obtain ⟨hcomp, hstore⟩ := ih (disjoint_of_next hd)
    by_cases hj : j = i
    · subst hj
      rw [ownEvents_append, ownEvents_self, ownEvents_nil, alone_concat, next_self, ← hcomp]
      -- what the event uses is used by this copy only, so both stores agree on it
      have hagree : ∀ k, C.uses ((C.run s f log).comps j) e k →
          (C.run s f log).store k = (C.alone s f (ownEvents j log)).2 k := fun k hk =>
        hstore k fun a ha => hd a j k (.inl ha) (.inr ⟨rfl, hk⟩)
      obtain ⟨hstep, hpart⟩ := C.local_ _ _ _ e hagree
      refine ⟨hstep, fun k hk => ?_⟩
      by_cases hu : C.uses ((C.run s f log).comps j) e k
      · exact hpart k hu
      · rw [next_frame hu, C.frame _ _ _ _ hu]
        exact hstore k fun a ha => hk a (.inl ha)
    · rw [ownEvents_append, ownEvents_ne hj, ownEvents_nil, List.append_nil, next_of_ne (Ne.symm hj)]
      refine ⟨hcomp, fun k hk => ?_⟩
      have hu : ¬ C.uses ((C.run s f log).comps j) e k := fun hu => hj (hk j (.inr ⟨rfl, hu⟩))
      rw [next_frame hu]
      exact hstore k fun a ha => hk a (.inl ha)

end Component

end NetworksLab
