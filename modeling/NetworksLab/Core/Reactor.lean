import Mathlib.Data.List.Induction

/-!
# Reactors

One side of a protocol on its own: it takes inputs in turn, whatever they are, and emits
outputs, until it is over. What it keeps to is said of the inputs so far, its state and
all that it has emitted.

* `run_history`: such a property holds of every run if it holds at the start and each
  reaction keeps it;
* `Heard`: some of what has been taken in is this list; it grows with the inputs
  (`Heard.append`) and by the last of them (`Heard.next`), and each of it is an input
  (`Heard.mem`).
-/
namespace NetworksLab

universe u v w x

structure Reactor (σ : Type u) (ι : Type v) (ο : Type w) where
  react : σ → ι → σ × List ο
  running : σ → Bool

namespace Reactor

variable {σ : Type u} {ι : Type v} {ο : Type w}

/-- One input more, with all that has been emitted. A reactor that is over takes none. -/
def next (R : Reactor σ ι ο) (r : σ × List ο) (i : ι) : σ × List ο :=
  if R.running r.1 then ((R.react r.1 i).1, r.2 ++ (R.react r.1 i).2) else r

def run (R : Reactor σ ι ο) (r : σ × List ο) (is : List ι) : σ × List ο := is.foldl R.next r

/-- By induction on the inputs, the last one first. -/
theorem run_history (R : Reactor σ ι ο) {r : σ × List ο} {P : List ι → σ × List ο → Prop} (h0 : P [] r)
    (hover : ∀ is i r, R.running r.1 = false → P is r → P (is ++ [i]) r)
    (hreact : ∀ is i r, R.running r.1 = true → P is r →
      P (is ++ [i]) ((R.react r.1 i).1, r.2 ++ (R.react r.1 i).2))
    (is : List ι) : P is (R.run r is) := by
  induction is using List.reverseRecOn with
  | nil => exact h0
  | append_singleton is i ih =>
    rw [run, List.foldl_append, List.foldl_cons, List.foldl_nil, next]
    split
    · rename_i hrun
      exact hreact is i _ hrun ih
    · rename_i hrun
      exact hover is i _ (Bool.eq_false_iff.mpr hrun) ih

end Reactor

variable {ι : Type v} {α : Type x}

/-- Of what `f` sees in the inputs, these are some, in this order. -/
def Heard (f : ι → Option α) (is : List ι) (xs : List α) : Prop := xs.Sublist (is.filterMap f)

section
variable {f : ι → Option α} {is : List ι} {xs : List α}

theorem Heard.nil : Heard f is [] := List.nil_sublist _

theorem Heard.append (h : Heard f is xs) (is' : List ι) : Heard f (is ++ is') xs := by
  rw [Heard, List.filterMap_append]
  exact h.trans (List.sublist_append_left _ _)

theorem Heard.next (h : Heard f is xs) {i : ι} {x : α} (hi : f i = some x) :
    Heard f (is ++ [i]) (xs ++ [x]) := by
  rw [Heard, List.filterMap_append, List.filterMap_cons_some hi]
  exact List.Sublist.append h (.refl _)

theorem Heard.mem (h : Heard f is xs) {x : α} (hx : x ∈ xs) : ∃ i ∈ is, f i = some x :=
  List.mem_filterMap.mp (h.subset hx)

end

end NetworksLab
