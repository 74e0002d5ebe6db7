import NetworksLab.Core.Incremental

/-!
# Two parsers in lockstep

`doneAt` is where in a stream a parser is done. States of a parser that answer
each symbol alike, and stay alike, are done with a stream at the same place
(`lockstep`). With `Hosts.sameEnd` the streams need not be the same: an inner
parser may complete two texts of one length, as long as the outer parser goes on
alike behind them.
-/
namespace NetworksLab.Incremental

universe u v w
variable {ε : Type} {σ : Type u} {τ : Type v} {α : Type w}

/-- Behind which symbol a parser is done, and its state there; `k` symbols are
behind it already. -/
def doneAt (consume : σ → α → Except ε (Progress × σ)) : Nat → σ → List α → Except ε (Option (Nat × σ))
  | _, _, [] => .ok none
  | k, p, c :: s =>
    match consume p c with
    | .error e => .error e
    | .ok (.parsed, q) => .ok (some (k + 1, q))
    | .ok (.await, q) => doneAt consume (k + 1) q s

/-- Two steps that fail alike, or answer alike and lead to related states. -/
inductive SameStep (R : σ → σ → Prop) : Except ε (Progress × σ) → Except ε (Progress × σ) → Prop
  | error (e : ε) : SameStep R (.error e) (.error e)
  | ok (a : Progress) {q q' : σ} : R q q' → SameStep R (.ok (a, q)) (.ok (a, q'))

/-- Two runs that fail alike, or are not done, or are done at one place with
related states. -/
inductive SameEnd (R : σ → σ → Prop) : Except ε (Option (Nat × σ)) → Except ε (Option (Nat × σ)) → Prop
  | error (e : ε) : SameEnd R (.error e) (.error e)
  | awaits : SameEnd R (.ok none) (.ok none)
  | done (k : Nat) {q q' : σ} : R q q' → SameEnd R (.ok (some (k, q))) (.ok (some (k, q')))

/-- Every symbol finds related states alike, and leaves them related. -/
def Keeps (consume : σ → α → Except ε (Progress × σ)) (R : σ → σ → Prop) : Prop :=
  ∀ p p' c, R p p' → SameStep R (consume p c) (consume p' c)

section
variable {consume : σ → α → Except ε (Progress × σ)} {consume' : τ → α → Except ε (Progress × τ)}

/-- By induction on the stream. -/
theorem lockstep {R : σ → σ → Prop} (hstep : Keeps consume R) :
    ∀ {s : List α} {p p' : σ} (k : Nat), R p p' → SameEnd R (doneAt consume k p s) (doneAt consume k p' s)
  | [], _, _, _, _ => .awaits
  | c :: s, p, p', k, h => by
    have hc := hstep p p' c h
    simp only [doneAt]
    generalize consume p c = x at hc
    generalize consume p' c = x' at hc
    cases hc with
    | error e => exact .error e
    | ok a hq =>
      cases a with
      | parsed => exact .done (k + 1) hq
      | await => exact lockstep hstep (k + 1) hq

theorem Awaits.doneAt {p q : σ} {s : List α} (h : Awaits consume p s q) (k : Nat) (t : List α) :
    doneAt consume k p (s ++ t) = doneAt consume (k + s.length) q t := by
  induction h generalizing k with
  | nil => rfl
  | cons hc _ ih =>
    simp only [List.cons_append, Incremental.doneAt, hc, List.length_cons]
    rw [ih, Nat.add_assoc, Nat.add_comm 1]

theorem Awaits.doneAt_none {p q : σ} {s : List α} (h : Awaits consume p s q) (k : Nat) :
    Incremental.doneAt consume k p s = .ok none := by
  have hend := h.doneAt k []
  rwa [List.append_nil] at hend

/-- One step more. -/
def andThen (consume : σ → α → Except ε (Progress × σ)) (x : Except ε (Progress × σ)) (k : Nat)
    (t : List α) : Except ε (Option (Nat × σ)) :=
  match x with
  | .error e => .error e
  | .ok (.parsed, q) => .ok (some (k, q))
  | .ok (.await, q) => doneAt consume k q t

theorem SameStep.andThen {R : σ → σ → Prop} (hstep : Keeps consume R)
    {x x' : Except ε (Progress × σ)} (h : SameStep R x x') (k : Nat) (t : List α) :
    SameEnd R (andThen consume x k t) (andThen consume x' k t) := by
  cases h with
  | error e => exact .error e
  | ok a hq =>
    cases a with
    | parsed => exact .done k hq
    | await => exact lockstep hstep k hq

namespace Hosts

variable {f : σ → τ} {g : σ → Except ε (Progress × τ)} (h : Hosts consume consume' f g)
include h

/-- Behind what the inner parser completes. -/
theorem doneAt {p q : σ} {s : List α} (hs : Completes consume p s q) (k : Nat) (t : List α) :
    doneAt consume' k (f p) (s ++ t) = andThen consume' (g q) (k + s.length) t := by
  obtain ⟨u, c, r, rfl, hu, hc⟩ := hs
  rw [List.append_assoc, (h.awaits hu).doneAt, List.length_append, List.length_singleton]
  simp only [List.singleton_append, Incremental.doneAt, h.parsed hc, andThen, Nat.add_assoc]

/-- In front of the last symbol of it. -/
theorem doneAt_take {p q : σ} {s : List α} (hs : Completes consume p s q) (k : Nat) {n : Nat}
    (hn : n < s.length) : Incremental.doneAt consume' k (f p) (s.take n) = .ok none := by
  have hne : s.drop n ≠ [] := by
    rw [ne_eq, List.drop_eq_nil_iff]
    omega
  rw [← List.take_append_drop n s] at hs
  obtain ⟨r, hr, -⟩ := hs.split hne
  exact (h.awaits hr).doneAt_none k

/-- **Lockstep behind two texts.** -/
theorem sameEnd {R : τ → τ → Prop} (hstep : Keeps consume' R) {p q q' : σ} {s s' : List α}
    (hs : Completes consume p s q) (hs' : Completes consume p s' q')
    (hlen : s.length = s'.length) (hg : SameStep R (g q) (g q')) (k n : Nat) (t : List α) :
    SameEnd R (Incremental.doneAt consume' k (f p) ((s ++ t).take n))
      (Incremental.doneAt consume' k (f p) ((s' ++ t).take n)) := by
  by_cases hn : n < s.length
  · have hn' : n < s'.length := by omega
    rw [List.take_append_of_le_length (Nat.le_of_lt hn), List.take_append_of_le_length (Nat.le_of_lt hn'),
      h.doneAt_take hs k hn, h.doneAt_take hs' k hn']
    exact .awaits
  · have htake {u : List α} (hu : u.length = s.length) :
        (u ++ t).take n = u ++ t.take (n - s.length) := by
      rw [List.take_append, List.take_of_length_le (by omega), hu]
    rw [htake rfl, htake hlen.symm, h.doneAt hs, h.doneAt hs', ← hlen]
    exact hg.andThen hstep _ _

end Hosts

end

end NetworksLab.Incremental
