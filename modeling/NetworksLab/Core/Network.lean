import NetworksLab.Core.LTS
import Mathlib.Data.List.Basic

/-!
# Processes behind an unreliable network

A `Process` reacts to messages and acts on its own; what it cannot decide (an
answer of the operating system) arrives with the message. Around it stands a
network of messages in flight.

* `lossy`: every message in flight may be dropped, duplicated or delivered at
  any time. `Invariant.reachable` is the rule for safety: `I` of the state and
  `M` of every message in flight hold in every reachable world, if a reaction
  keeps both and what it sends meets `M`. A message in flight may be old, so
  `M` has to survive every reaction.
* `inOrder`: every message is delivered once, and those of one route in the
  order they were sent. `eventually_deliver` is the rule for inevitability
  while a single message is in flight.
* `ending`: a part of the process ends at a message that it cannot bear.
  `ending_eventually`: while there is none, nothing is different.
-/
namespace NetworksLab

universe u v w x y

/-- `none`: the reaction does not come to its end. -/
structure Process (σ : Type u) (μ : Type v) (ε : Type w) (ι : Type x) where
  receive : σ → μ → ε → Option (σ × List μ)
  act : σ → ι → Option (σ × List μ)

structure World (σ : Type u) (μ : Type v) where
  state : σ
  net : List μ

inductive NetLabel (ε : Type w) (ι : Type x) where
  | drop (i : Nat)
  | duplicate (i : Nat)
  | deliver (i : Nat) (e : ε)
  | act (a : ι)

namespace Process

variable {σ : Type u} {μ : Type v} {ε : Type w} {ι : Type x} {ρ : Type y}

def stepFn (P : Process σ μ ε ι) (w : World σ μ) : NetLabel ε ι → Option (World σ μ)
  | .drop i => if i < w.net.length then some { w with net := w.net.eraseIdx i } else none
  | .duplicate i => w.net[i]?.map fun m => { w with net := w.net ++ [m] }
  | .deliver i e => w.net[i]?.bind fun m =>
      (P.receive w.state m e).map fun r => ⟨r.1, w.net.eraseIdx i ++ r.2⟩
  | .act a => (P.act w.state a).map fun r => ⟨r.1, w.net ++ r.2⟩

/-- Messages may be lost, duplicated and reordered. -/
def lossy (P : Process σ μ ε ι) (start : World σ μ) : LTS (World σ μ) (NetLabel ε ι) :=
  .ofFn (· = start) P.stepFn

theorem reachable_of_run {P : Process σ μ ε ι} {start w : World σ μ} {ls : List (NetLabel ε ι)}
    (h : LTS.runFn P.stepFn (fun _ _ => true) start ls = some w) : (P.lossy start).Reachable w := by
  have hr : ((P.lossy start).restrict fun _ _ => True).Reach start w :=
    LTS.reach_of_runFn (fun _ _ _ => trivial) h
  exact ⟨start, rfl, hr.of_restrict⟩

/-- Only the receptions that meet a side condition. -/
def guard (P : Process σ μ ε ι) (C : σ → μ → ε → Prop) [∀ s m e, Decidable (C s m e)] :
    Process σ μ ε ι :=
  { P with receive := fun s m e => if C s m e then P.receive s m e else none }

theorem receive_guard {P : Process σ μ ε ι} {C : σ → μ → ε → Prop} [∀ s m e, Decidable (C s m e)]
    {s : σ} {m : μ} {e : ε} {r : σ × List μ} (h : (P.guard C).receive s m e = some r) :
    C s m e ∧ P.receive s m e = some r := by
  simp only [guard] at h
  split at h
  · rename_i hc
    exact ⟨hc, h⟩
  · cases h

/-! ## Safety -/

/-- What a reaction has to keep: the invariant `I`, and `M` of the messages in
flight, old and new. -/
def Keeps (I : σ → Prop) (M : σ → μ → Prop) (s : σ) (r : σ × List μ) : Prop :=
  I r.1 ∧ (∀ m, M s m → M r.1 m) ∧ ∀ m ∈ r.2, M r.1 m

structure Invariant (P : Process σ μ ε ι) (I : σ → Prop) (M : σ → μ → Prop) : Prop where
  receive : ∀ {s m e r}, I s → M s m → P.receive s m e = some r → Keeps I M s r
  act : ∀ {s a r}, I s → P.act s a = some r → Keeps I M s r

variable {P : Process σ μ ε ι} {I : σ → Prop} {M : σ → μ → Prop}

/-- The worlds that an invariant is about. -/
def Holds (I : σ → Prop) (M : σ → μ → Prop) (w : World σ μ) : Prop :=
  I w.state ∧ ∀ m ∈ w.net, M w.state m

theorem Keeps.holds {s : σ} {r : σ × List μ} (h : Keeps I M s r) {net : List μ}
    (hn : ∀ m ∈ net, M s m) : Holds I M ⟨r.1, net ++ r.2⟩ := by
  refine ⟨h.1, fun m hm => ?_⟩
  rcases List.mem_append.mp hm with hm | hm
  · exact h.2.1 m (hn m hm)
  · exact h.2.2 m hm

theorem Invariant.step (hP : Invariant P I M) {w w' : World σ μ} (h : Holds I M w) :
    ∀ {l : NetLabel ε ι}, P.stepFn w l = some w' → Holds I M w'
  | .drop i, hs => by
    simp only [stepFn, Option.ite_none_right_eq_some, Option.some.injEq] at hs
    obtain ⟨-, rfl⟩ := hs
    exact ⟨h.1, fun m hm => h.2 m (List.mem_of_mem_eraseIdx hm)⟩
  | .duplicate i, hs => by
    obtain ⟨m, hm, rfl⟩ := Option.map_eq_some_iff.mp hs
    refine ⟨h.1, fun m' hm' => ?_⟩
    rcases List.mem_append.mp hm' with hm' | hm'
    · exact h.2 m' hm'
    · exact List.mem_singleton.mp hm' ▸ h.2 m (List.mem_of_getElem? hm)
  | .deliver i e, hs => by
    obtain ⟨m, hm, hs⟩ := Option.bind_eq_some_iff.mp hs
    obtain ⟨r, hr, rfl⟩ := Option.map_eq_some_iff.mp hs
    apply (hP.receive h.1 (h.2 m (List.mem_of_getElem? hm)) hr).holds
    exact fun m hm => h.2 m (List.mem_of_mem_eraseIdx hm)
  | .act a, hs => by
    obtain ⟨r, hr, rfl⟩ := Option.map_eq_some_iff.mp hs
    exact (hP.act h.1 hr).holds h.2

theorem Invariant.reachable (hP : Invariant P I M) {start w : World σ μ} (h0 : Holds I M start)
    (h : (P.lossy start).Reachable w) : Holds I M w := by
  have hI : (P.lossy start).Inductive (Holds I M) :=
    { init := fun w hw => hw ▸ h0
      step := fun w l w' hw hs => hP.step hw hs }
  exact hI.reachable w h

/-! ## Reliable delivery -/

/-- Only deliveries, and of each route the oldest message first. -/
def inOrder (P : Process σ μ ε ι) (route : μ → ρ) (start : World σ μ) :
    LTS (World σ μ) (NetLabel ε ι) :=
  (P.lossy start).restrict fun w l =>
    ∃ i e, l = .deliver i e ∧ ∀ j < i, w.net[j]?.map route ≠ w.net[i]?.map route

/-- A world with one message in flight goes on by delivering it. -/
theorem inOrder_step {route : μ → ρ} {start w : World σ μ} {s : σ} {m : μ} {l : NetLabel ε ι}
    (h : (P.inOrder route start).step ⟨s, [m]⟩ l w) :
    ∃ e, P.receive s m e = some (w.state, w.net) := by
  obtain ⟨⟨i, e, rfl, -⟩, hs⟩ := h
  obtain ⟨m', hm, hs⟩ := Option.bind_eq_some_iff.mp hs
  obtain ⟨r, hr, rfl⟩ := Option.map_eq_some_iff.mp hs
  obtain rfl := List.mem_singleton.mp (List.mem_of_getElem? hm)
  cases i with
  | zero => exact ⟨e, hr⟩
  | succ i => simp at hm

theorem eventually_deliver {route : μ → ρ} {start : World σ μ} {s : σ} {m : μ}
    {Q : World σ μ → Prop} (he : ∃ e, (P.receive s m e).isSome)
    (ha : ∀ e r, P.receive s m e = some r → (P.inOrder route start).Eventually Q ⟨r.1, r.2⟩) :
    (P.inOrder route start).Eventually Q ⟨s, [m]⟩ := by
  refine .later ?_ fun l w h => ?_
  · obtain ⟨e, he⟩ := he
    obtain ⟨r, hr⟩ := Option.isSome_iff_exists.mp he
    refine ⟨.deliver 0 e, ⟨r.1, r.2⟩, ⟨0, e, rfl, fun j hj => absurd hj (Nat.not_lt_zero j)⟩, ?_⟩
    simp [lossy, LTS.ofFn, stepFn, hr]
  · obtain ⟨e, hr⟩ := inOrder_step h
    exact ha e _ hr

/-- A delivery that the receiver reacts to whatever the environment does. -/
theorem eventually_reacts {route : μ → ρ} {start : World σ μ} {s : σ} {m : μ} {Q : World σ μ → Prop}
    {f : ε → σ × List μ} (e₀ : ε) (hstep : ∀ e, P.receive s m e = some (f e))
    (hQ : ∀ e, (P.inOrder route start).Eventually Q ⟨(f e).1, (f e).2⟩) :
    (P.inOrder route start).Eventually Q ⟨s, [m]⟩ := by
  apply eventually_deliver
  · exact ⟨e₀, Option.isSome_of_eq_some (hstep e₀)⟩
  · intro e r hr
    obtain rfl := Option.some.inj ((hstep e).symm.trans hr)
    exact hQ e

/-! ## A part that ends -/

section
variable (P) (own : μ → Prop) (fatal : σ → μ → Prop) [DecidablePred own] [∀ s, DecidablePred (fatal s)]

/-- The part for the messages `own` ends at one that is `fatal`, and what comes for it
from then on is lost (what the process does unasked goes on). The flag says whether the
part is there. -/
def ending : Process (σ × Bool) μ ε ι where
  receive s m e :=
    if own m ∧ (s.2 = false ∨ fatal s.1 m) then some ((s.1, false), [])
    else (P.receive s.1 m e).map fun r => ((r.1, s.2), r.2)
  act s a := (P.act s.1 a).map fun r => ((r.1, s.2), r.2)

/-- A world in which it is. -/
def whole (w : World σ μ) : World (σ × Bool) μ := ⟨(w.state, true), w.net⟩

variable {P own fatal}

theorem ending_deliver {w : World σ μ} (hw : ∀ m ∈ w.net, ¬ fatal w.state m) (i : Nat) (e : ε) :
    (P.ending own fatal).stepFn (whole w) (.deliver i e) = (P.stepFn w (.deliver i e)).map whole := by
  simp only [stepFn, whole]
  cases hm : w.net[i]? with
  | none => rfl
  | some m =>
    have hlives : ¬ (own m ∧ (true = false ∨ fatal w.state m)) := fun h =>
      h.2.elim Bool.noConfusion (hw m (List.mem_of_getElem? hm))
    simp only [Option.bind_some, ending, if_neg hlives, Option.map_map]
    rfl

/-- Without a fatal message in flight, the runs over a reliable network are those of `P`. -/
theorem ending_eventually (hP : Invariant P I M) (hfatal : ∀ {s m}, I s → M s m → ¬ fatal s m) {route : μ → ρ}
    {start w : World σ μ} {start' : World (σ × Bool) μ} {Z : World σ μ → Prop} {Z' : World (σ × Bool) μ → Prop}
    (hZ : ∀ w, Z w → Z' (whole w)) (hw : Holds I M w) (hev : (P.inOrder route start).Eventually Z w) :
    ((P.ending own fatal).inOrder route start').Eventually Z' (whole w) := by
  have hnet {w : World σ μ} (hw : Holds I M w) : ∀ m ∈ w.net, ¬ fatal w.state m :=
    fun m hm => hfatal hw.1 (hw.2 m hm)
  refine hev.transfer (R := fun w w' => Holds I M w ∧ w' = whole w) ?_ ?_ ?_ ⟨hw, rfl⟩
  · rintro w _ ⟨-, rfl⟩ hz
    exact hZ w hz
  · rintro w _ l t ⟨hw, rfl⟩ ⟨⟨i, e, rfl, hi⟩, hs⟩
    exact ⟨.deliver i e, whole t, ⟨i, e, rfl, hi⟩, (ending_deliver (hnet hw) i e).trans (congrArg _ hs)⟩
  · rintro w _ l t' ⟨hw, rfl⟩ ⟨⟨i, e, rfl, hi⟩, hs⟩
    obtain ⟨t, ht, rfl⟩ := Option.map_eq_some_iff.mp ((ending_deliver (hnet hw) i e).symm.trans hs)
    exact ⟨.deliver i e, t, ⟨⟨i, e, rfl, hi⟩, ht⟩, hP.step hw ht, rfl⟩

end

end Process

end NetworksLab
