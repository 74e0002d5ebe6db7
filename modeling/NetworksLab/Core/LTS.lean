import Mathlib.Logic.Basic

/-!
# Labelled transition systems

The runs of every protocol here are runs of an `LTS`: an initial predicate
and a labelled step relation. Four rules carry the proofs:

* `Inductive.reachable`: what holds initially and survives a step holds in
  every reachable state (safety);
* `Reachable.simulated`: what is reachable here is reachable in a system whose
  steps these are, some of them invisible (refinement);
* `restrict`: the runs whose steps all meet a side condition; their states
  are reachable without it (`Reachable.of_restrict`). `Every` says of one run
  that all its steps meet a condition;
* `Eventually`: `P` holds after finitely many steps on *every* run, and no
  run stops before (inevitability). `Eventually.reach` reads a reachable state
  off, `Eventually.transfer` takes it along a bisimulation.
-/
namespace NetworksLab

universe u v

structure LTS (S : Type u) (L : Type v) where
  init : S → Prop
  step : S → L → S → Prop

namespace LTS

variable {S : Type u} {L : Type v}

/-- The LTS of a partial step function. -/
def ofFn (init : S → Prop) (f : S → L → Option S) : LTS S L where
  init := init
  step s l s' := f s l = some s'

/-- Finite runs from a state. -/
inductive Reach (T : LTS S L) : S → S → Prop
  | refl (s : S) : Reach T s s
  | tail {s t u : S} {l : L} : Reach T s t → T.step t l u → Reach T s u

def Reachable (T : LTS S L) (s : S) : Prop := ∃ s0, T.init s0 ∧ T.Reach s0 s

theorem Reachable.of_init {T : LTS S L} {s : S} (h : T.init s) : T.Reachable s :=
  ⟨s, h, .refl s⟩

theorem Reachable.next {T : LTS S L} {s s' : S} {l : L} (h : T.Reachable s) (hs : T.step s l s') :
    T.Reachable s' := by
  obtain ⟨s0, h0, hr⟩ := h
  exact ⟨s0, h0, .tail hr hs⟩

theorem Reachable.trans {T : LTS S L} {s s' : S} (h : T.Reachable s) (hr : T.Reach s s') :
    T.Reachable s' := by
  induction hr with
  | refl => exact h
  | tail _ hs ih => exact ih.next hs

theorem Reach.head {T : LTS S L} {s t u : S} {l : L} (hs : T.step s l t) (h : T.Reach t u) :
    T.Reach s u := by
  induction h with
  | refl => exact .tail (.refl s) hs
  | tail _ hs' ih => exact .tail ih hs'

/-- An inductive invariant. -/
structure Inductive (T : LTS S L) (I : S → Prop) : Prop where
  init : ∀ s, T.init s → I s
  step : ∀ s l s', I s → T.step s l s' → I s'

theorem Inductive.reachable {T : LTS S L} {I : S → Prop} (h : T.Inductive I) (s : S)
    (hr : T.Reachable s) : I s := by
  obtain ⟨s0, h0, hr⟩ := hr
  induction hr with
  | refl => exact h.init _ h0
  | tail _ hs ih => exact h.step _ _ _ ih hs

/-- A stuttering simulation: every step is a step of `A` under `f`, or does not show. -/
theorem Reachable.simulated {S' : Type*} {L' : Type*} {T : LTS S L} {A : LTS S' L'} {f : S → S'}
    (hinit : ∀ s, T.init s → A.init (f s))
    (hstep : ∀ s l s', T.Reachable s → T.step s l s' → f s' = f s ∨ ∃ l', A.step (f s) l' (f s')) {s : S}
    (h : T.Reachable s) : A.Reachable (f s) := by
  obtain ⟨s0, h0, hr⟩ := h
  induction hr with
  | refl => exact .of_init (hinit _ h0)
  | tail hr hs ih =>
    rcases hstep _ _ _ ⟨s0, h0, hr⟩ hs with heq | ⟨l', hs'⟩
    · rwa [heq]
    · exact ih.next hs'

/-! ## Runs whose steps all meet a condition -/

/-- The runs all of whose steps meet `C`. -/
def restrict (T : LTS S L) (C : S → L → Prop) : LTS S L where
  init := T.init
  step s l s' := C s l ∧ T.step s l s'

theorem Reach.of_restrict {T : LTS S L} {C : S → L → Prop} {s s' : S}
    (h : (T.restrict C).Reach s s') : T.Reach s s' := by
  induction h with
  | refl => exact .refl _
  | tail _ hs ih => exact .tail ih hs.2

theorem Reachable.of_restrict {T : LTS S L} {C : S → L → Prop} {s : S}
    (h : (T.restrict C).Reachable s) : T.Reachable s := by
  obtain ⟨s0, h0, hr⟩ := h
  exact ⟨s0, h0, hr.of_restrict⟩

theorem Reachable.weaken {T : LTS S L} {C C' : S → L → Prop} (hC : ∀ s l, C s l → C' s l) {s : S}
    (h : (T.restrict C).Reachable s) : (T.restrict C').Reachable s := by
  obtain ⟨s0, h0, hr⟩ := h
  induction hr with
  | refl => exact .of_init h0
  | tail _ hs ih => exact ih.next ⟨hC _ _ hs.1, hs.2⟩

/-- A condition that every step meets. -/
theorem Reachable.restrict {T : LTS S L} {C : S → L → Prop} (hC : ∀ s l, C s l) {s : S}
    (h : T.Reachable s) : (T.restrict C).Reachable s := by
  obtain ⟨s0, h0, hr⟩ := h
  induction hr with
  | refl => exact .of_init h0
  | tail _ hs ih => exact ih.next ⟨hC _ _, hs⟩

/-- The state behind a list of steps of a partial function, each of which passes
a check. -/
def runFn (f : S → L → Option S) (chk : S → L → Bool) : S → List L → Option S
  | s, [] => some s
  | s, l :: ls => if chk s l then (f s l).bind fun s' => runFn f chk s' ls else none

theorem reach_of_runFn {init : S → Prop} {f : S → L → Option S} {chk : S → L → Bool}
    {C : S → L → Prop} (hC : ∀ s l, chk s l = true → C s l) : ∀ {ls : List L} {s s' : S},
    runFn f chk s ls = some s' → ((ofFn init f).restrict C).Reach s s'
  | [], s, s', h => Option.some.inj h ▸ .refl s
  | l :: ls, s, s', h => by
    rw [runFn] at h
    split at h
    · rename_i hchk
      obtain ⟨t, ht, h⟩ := Option.bind_eq_some_iff.mp h
      exact .head ⟨hC s l hchk, ht⟩ (reach_of_runFn hC h)
    · cases h

/-- `ok` holds at each step of the run that the labels make, as far as it goes. -/
def Every (f : S → L → Option S) (ok : S → L → Prop) : S → List L → Prop
  | _, [] => True
  | s, l :: ls => ok s l ∧ ∀ s', f s l = some s' → Every f ok s' ls

/-- Two conditions on the steps that are the same under an invariant, which a
step keeps that meets the second. By induction on the labels. -/
theorem every_congr {f : S → L → Option S} {ok ok' : S → L → Prop} {I : S → Prop}
    (heq : ∀ {s l}, I s → (ok s l ↔ ok' s l)) (hstep : ∀ {s l s'}, I s → ok' s l → f s l = some s' → I s') :
    ∀ {ls : List L} {s : S}, I s → (Every f ok s ls ↔ Every f ok' s ls)
  | [], _, _ => Iff.rfl
  | l :: ls, s, hs => by
    have hhead : ok s l ↔ ok' s l := heq hs
    constructor
    · intro h
      have hok := hhead.mp h.1
      exact ⟨hok, fun s' hs' => (every_congr heq hstep (hstep hs hok hs')).mp (h.2 s' hs')⟩
    · intro h
      exact ⟨hhead.mpr h.1, fun s' hs' => (every_congr heq hstep (hstep hs h.1 hs')).mpr (h.2 s' hs')⟩

/-! ## Inevitability -/

/-- On every run from `s`, `P` holds after finitely many steps, and the run
cannot stop before it does. -/
inductive Eventually (T : LTS S L) (P : S → Prop) : S → Prop
  | now {s : S} : P s → Eventually T P s
  | later {s : S} : (∃ l s', T.step s l s') → (∀ l s', T.step s l s' → Eventually T P s') →
      Eventually T P s

theorem Eventually.reach {T : LTS S L} {P : S → Prop} {s : S} (h : T.Eventually P s) :
    ∃ s', T.Reach s s' ∧ P s' := by
  induction h with
  | now hp => exact ⟨_, .refl _, hp⟩
  | later he _ ih =>
    obtain ⟨l, s', hs⟩ := he
    obtain ⟨u, hr, hp⟩ := ih l s' hs
    exact ⟨u, .head hs hr, hp⟩

/-- What never holds in a reachable state is not inevitable. -/
theorem not_eventually_of_unreachable {T : LTS S L} {P : S → Prop} {s : S} (hi : T.init s)
    (hn : ∀ s', T.Reachable s' → ¬ P s') : ¬ T.Eventually P s := by
  intro h
  obtain ⟨s', hr, hp⟩ := h.reach
  exact hn s' ((Reachable.of_init hi).trans hr) hp

/-- What is inevitable here is inevitable where every step is one from here, as
long as one does not stop before the other. -/
theorem Eventually.transfer {S' : Type*} {L' : Type*} {T : LTS S L} {T' : LTS S' L'} {R : S → S' → Prop}
    {P : S → Prop} {P' : S' → Prop} (hP : ∀ {s s'}, R s s' → P s → P' s')
    (hgo : ∀ {s s' l t}, R s s' → T.step s l t → ∃ l' t', T'.step s' l' t')
    (hback : ∀ {s s' l' t'}, R s s' → T'.step s' l' t' → ∃ l t, T.step s l t ∧ R t t') {s : S}
    (h : T.Eventually P s) : ∀ {s' : S'}, R s s' → T'.Eventually P' s' := by
  induction h with
  | now hp => exact fun hR => .now (hP hR hp)
  | later he _ ih =>
    intro s' hR
    obtain ⟨l, t, hs⟩ := he
    refine .later (hgo hR hs) fun l' t' hs' => ?_
    obtain ⟨l, t, hs, hR'⟩ := hback hR hs'
    exact ih l t hs hR'

end LTS

end NetworksLab
