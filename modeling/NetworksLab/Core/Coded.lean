import NetworksLab.Core.Network
import Mathlib.Data.List.InsertIdx

/-!
# Messages in an encoding

A process is written for messages, and what travels are their encodings. If a
message comes back from its encoding as it was, nothing changes; if it comes back
as another one, the process gets that one.

`Carries P Q enc arrives N`: the process `Q` does with the encoding of a message
what `P` does with the message that `arrives` in its place, as long as the message
meets `N`. Two rules:

* `Carries.invariant`: safety of `Q`, from what `P` does with the messages as they
  arrive;
* `Carries.eventually`: where all messages arrive as they were, what is inevitable
  for `P` is so for `Q`.
-/
namespace NetworksLab

universe u v v' w x y

namespace Process

variable {σ : Type u} {μ : Type v} {β : Type v'} {ε : Type w} {ι : Type x} {ρ : Type y}

/-- A reaction with the messages it sends encoded. -/
def encoded (enc : μ → β) (r : σ × List μ) : σ × List β := (r.1, r.2.map enc)

structure Carries (P : Process σ μ ε ι) (Q : Process σ β ε ι) (enc : μ → β) (arrives : μ → μ)
    (N : σ → μ → Prop) : Prop where
  receive : ∀ {s m} (e), N s m → Q.receive s (enc m) e = (P.receive s (arrives m) e).map (encoded enc)
  act : ∀ s a, Q.act s a = (P.act s a).map (encoded enc)

/-- `Keeps` for the messages as they arrive. -/
structure ArrivingInvariant (P : Process σ μ ε ι) (arrives : μ → μ) (I : σ → Prop) (N : σ → μ → Prop) :
    Prop where
  receive : ∀ {s m e r}, I s → N s m → P.receive s (arrives m) e = some r → Keeps I N s r
  act : ∀ {s a r}, I s → P.act s a = some r → Keeps I N s r

variable {P : Process σ μ ε ι} {Q : Process σ β ε ι} {enc : μ → β} {arrives : μ → μ}
  {I : σ → Prop} {N : σ → μ → Prop}

/-- The encodings of the messages that meet `N`. -/
def Encodes (enc : μ → β) (N : σ → μ → Prop) (s : σ) (b : β) : Prop := ∃ m, enc m = b ∧ N s m

theorem Keeps.encoded {s : σ} {r : σ × List μ} (h : Keeps I N s r) :
    Keeps I (Encodes enc N) s (encoded enc r) := by
  obtain ⟨hI, hold, hnew⟩ := h
  refine ⟨hI, ?_, fun b hb => ?_⟩
  · rintro _ ⟨m, rfl, hm⟩
    exact ⟨m, rfl, hold m hm⟩
  · obtain ⟨m, hm, rfl⟩ := List.mem_map.mp hb
    exact ⟨m, rfl, hnew m hm⟩

/-- **Safety.** -/
theorem Carries.invariant (h : Carries P Q enc arrives N) (hP : ArrivingInvariant P arrives I N) :
    Invariant Q I (Encodes enc N) where
  receive := by
    rintro s _ e r hI ⟨m, rfl, hm⟩ hr
    rw [h.receive e hm] at hr
    obtain ⟨r, hr', rfl⟩ := Option.map_eq_some_iff.mp hr
    exact (hP.receive hI hm hr').encoded
  act := by
    intro s a r hI hr
    rw [h.act] at hr
    obtain ⟨r, hr', rfl⟩ := Option.map_eq_some_iff.mp hr
    exact (hP.act hI hr').encoded

/-- Conditions on receptions that do not look into the message. -/
theorem Carries.guard (h : Carries P Q enc arrives N) {C : σ → μ → ε → Prop} {C' : σ → β → ε → Prop}
    [∀ s m e, Decidable (C s m e)] [∀ s b e, Decidable (C' s b e)]
    (hC : ∀ s m e, C' s (enc m) e ↔ C s (arrives m) e) :
    Carries (P.guard C) (Q.guard C') enc arrives N where
  receive := by
    intro s m e hm
    simp only [Process.guard, h.receive e hm, hC]
    split <;> rfl
  act := h.act

/-! ## Reliable delivery -/

/-- A world with its messages encoded. -/
def encodedWorld (enc : μ → β) (w : World σ μ) : World σ β := ⟨w.state, w.net.map enc⟩

/-- A delivery, when every message in flight arrives as it was. -/
theorem Carries.deliver (h : Carries P Q enc arrives N) {w : World σ μ}
    (hw : ∀ m ∈ w.net, N w.state m ∧ arrives m = m) (i : Nat) (e : ε) :
    Q.stepFn (encodedWorld enc w) (.deliver i e) =
      (P.stepFn w (.deliver i e)).map (encodedWorld enc) := by
  simp only [stepFn, encodedWorld, List.getElem?_map]
  cases hm : w.net[i]? with
  | none => rfl
  | some m =>
    obtain ⟨hN, harr⟩ := hw m (List.mem_of_getElem? hm)
    simp only [Option.map_some, Option.bind_some, h.receive e hN, harr, Option.map_map]
    congr 1
    funext r
    simp only [Function.comp_apply, encoded, encodedWorld, List.map_append, List.eraseIdx_map]

/-- **Inevitability.** If all messages in flight arrive as they were, the runs of
`Q` over a reliable network are those of `P`. -/
theorem Carries.eventually (h : Carries P Q enc arrives N) (hP : ArrivingInvariant P arrives I N)
    (hfaithful : ∀ {s m}, I s → N s m → arrives m = m) {route : μ → ρ} {route' : β → ρ}
    (hroute : ∀ m, route' (enc m) = route m) {start w : World σ μ} {start' : World σ β}
    {Z : World σ μ → Prop} {Z' : World σ β → Prop} (hZ : ∀ w, Z w → Z' (encodedWorld enc w))
    (hw : Holds I N w) (hev : (P.inOrder route start).Eventually Z w) :
    (Q.inOrder route' start').Eventually Z' (encodedWorld enc w) := by
  have hnet {w : World σ μ} (hw : Holds I N w) : ∀ m ∈ w.net, N w.state m ∧ arrives m = m :=
    fun m hm => ⟨hw.2 m hm, hfaithful hw.1 (hw.2 m hm)⟩
  have horder (w : World σ μ) (i : Nat) :
      (encodedWorld enc w).net[i]?.map route' = w.net[i]?.map route := by
    simp only [encodedWorld, List.getElem?_map, Option.map_map]
    congr 1
    funext m
    exact hroute m
  refine hev.transfer (R := fun w w' => Holds I N w ∧ w' = encodedWorld enc w) ?_ ?_ ?_ ⟨hw, rfl⟩
  · rintro w _ ⟨-, rfl⟩ hz
    exact hZ w hz
  · rintro w _ l t ⟨hw, rfl⟩ ⟨⟨i, e, rfl, hi⟩, hs⟩
    refine ⟨.deliver i e, encodedWorld enc t, ⟨i, e, rfl, fun j hj => ?_⟩, ?_⟩
    · rw [horder, horder]
      exact hi j hj
    · exact (h.deliver (hnet hw) i e).trans (congrArg _ hs)
  · rintro w _ l t' ⟨hw, rfl⟩ ⟨⟨i, e, rfl, hi⟩, hs⟩
    obtain ⟨t, ht, rfl⟩ := Option.map_eq_some_iff.mp ((h.deliver (hnet hw) i e).symm.trans hs)
    refine ⟨.deliver i e, t, ⟨⟨i, e, rfl, fun j hj => ?_⟩, ht⟩, ?_, rfl⟩
    · rw [← horder, ← horder]
      exact hi j hj
    · obtain ⟨m, hm, hs⟩ := Option.bind_eq_some_iff.mp ht
      obtain ⟨r, hr, rfl⟩ := Option.map_eq_some_iff.mp hs
      obtain ⟨hN, harr⟩ := hnet hw m (List.mem_of_getElem? hm)
      apply (hP.receive hw.1 hN (harr.symm ▸ hr)).holds
      exact fun m hm => hw.2 m (List.mem_of_mem_eraseIdx hm)

end Process

end NetworksLab
