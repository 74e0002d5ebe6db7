import Mathlib.Data.List.Basic
import Mathlib.Data.List.Infix

/-!
# Parsers that are fed one symbol at a time

A parser is a step function that takes its state and a symbol and answers
`await` or `parsed`. `Awaits` is a run in which it only awaits, `Completes` one
that it finishes with the last symbol. A parser that hands its symbols to a
smaller one inherits the runs of that one (`Awaits.lift`, `Completes.lift`).

`Along` says something of every step that a parser takes over a list of symbols;
`Along.invariant` is the induction over them.

`Hosts` is such a parser in one of its phases, and goes the other way too: a run
that the outer parser completes begins with one that the inner parser completes
(`Hosts.completes`). Applied phase by phase it takes an accepted input apart.

`Fresh d f`: behind the field `f`, the delimiter `d` ends for the first time
where it was put. `cut d s` finds that place.
-/
namespace NetworksLab.Incremental

universe u v w

inductive Progress where
  | await
  | parsed
  deriving DecidableEq, Repr

variable {ε : Type} {σ : Type u} {τ : Type v} {α : Type w}

/-- The answers to a list of symbols. -/
def feed (consume : σ → α → Except ε (Progress × σ)) : σ → List α → Except ε (List Progress × σ)
  | p, [] => .ok ([], p)
  | p, c :: s =>
    match consume p c with
    | .error e => .error e
    | .ok (r, p) =>
      match feed consume p s with
      | .error e => .error e
      | .ok (rs, p) => .ok (r :: rs, p)

/-- A parser that cannot fail. -/
def total (f : σ → α → Progress × σ) : σ → α → Except ε (Progress × σ) := fun p c => .ok (f p c)

@[simp] theorem total_eq_ok {f : σ → α → Progress × σ} {p : σ} {c : α} {x : Progress × σ} :
    (total f p c : Except ε _) = .ok x ↔ f p c = x :=
  ⟨Except.ok.inj, congrArg _⟩

/-- A run in which the parser awaits. -/
inductive Awaits (consume : σ → α → Except ε (Progress × σ)) : σ → List α → σ → Prop
  | nil (p : σ) : Awaits consume p [] p
  | cons {p q r : σ} {c : α} {s : List α} : consume p c = .ok (.await, q) → Awaits consume q s r →
      Awaits consume p (c :: s) r

/-- A run that the parser finishes with its last symbol. -/
def Completes (consume : σ → α → Except ε (Progress × σ)) (p : σ) (s : List α) (q : σ) : Prop :=
  ∃ t c r, s = t ++ [c] ∧ Awaits consume p t r ∧ consume r c = .ok (.parsed, q)

section
variable {consume : σ → α → Except ε (Progress × σ)} {consume' : τ → α → Except ε (Progress × τ)}

theorem Awaits.append {p q r : σ} {s t : List α} (h : Awaits consume p s q)
    (h' : Awaits consume q t r) : Awaits consume p (s ++ t) r := by
  induction h with
  | nil => exact h'
  | cons hc _ ih => exact .cons hc (ih h')

theorem Awaits.single {p q : σ} {c : α} (h : consume p c = .ok (.await, q)) :
    Awaits consume p [c] q := .cons h (.nil q)

theorem Awaits.completes {p q r : σ} {s t : List α} (h : Awaits consume p s q)
    (h' : Completes consume q t r) : Completes consume p (s ++ t) r := by
  obtain ⟨u, c, v, rfl, hu, hc⟩ := h'
  exact ⟨s ++ u, c, v, (List.append_assoc ..).symm, h.append hu, hc⟩

theorem Completes.feed {p q : σ} {s : List α} (h : Completes consume p s q) :
    feed consume p s = .ok (List.replicate (s.length - 1) .await ++ [.parsed], q) := by
  obtain ⟨t, c, r, rfl, ht, hc⟩ := h
  rw [List.length_append, List.length_singleton, Nat.add_sub_cancel]
  induction ht with
  | nil => simp only [List.nil_append, Incremental.feed, hc, List.length_nil, List.replicate_zero]
  | cons hc' _ ih =>
    simp only [List.cons_append, Incremental.feed, hc', ih hc, List.length_cons, List.replicate_succ]

theorem feed_cons {p r : σ} {c : α} {s : List α} {as : List Progress}
    (h : feed consume p (c :: s) = .ok (as, r)) :
    ∃ a q as', as = a :: as' ∧ consume p c = .ok (a, q) ∧ feed consume q s = .ok (as', r) := by
  rw [Incremental.feed] at h
  cases hc : consume p c with
  | error e => simp [hc] at h
  | ok x =>
    obtain ⟨a, q⟩ := x
    cases hs : Incremental.feed consume q s with
    | error e => simp [hc, hs] at h
    | ok y =>
      simp only [hc, hs, Except.ok.injEq, Prod.mk.injEq] at h
      obtain ⟨rfl, rfl⟩ := h
      exact ⟨a, q, y.1, rfl, rfl, hs⟩

/-- A run in which the parser awaits can be evaluated. -/
theorem awaits_of_feed {p q : σ} {s : List α}
    (h : feed consume p s = .ok (List.replicate s.length .await, q)) : Awaits consume p s q := by
  induction s generalizing p with
  | nil =>
    cases h
    exact .nil _
  | cons c s ih =>
    obtain ⟨a, r, as, has, hc, hs⟩ := feed_cons h
    obtain ⟨rfl, rfl⟩ := List.cons.inj has
    exact .cons hc (ih hs)

/-- So can one that it finishes. -/
theorem completes_of_feed {p q : σ} {s : List α}
    (h : feed consume p s = .ok (List.replicate (s.length - 1) .await ++ [.parsed], q)) :
    Completes consume p s q := by
  induction s generalizing p with
  | nil => simp [Incremental.feed] at h
  | cons c s ih =>
    obtain ⟨a, r, as, has, hc, hs⟩ := feed_cons h
    cases s with
    | nil =>
      cases hs
      obtain rfl := (List.cons.inj has).1
      exact ⟨[], c, p, rfl, .nil p, hc⟩
    | cons d t =>
      obtain ⟨rfl, rfl⟩ := List.cons.inj has
      obtain ⟨u, e, v, hu, hv, he⟩ := ih hs
      exact ⟨c :: u, e, v, by rw [hu]; rfl, .cons hc hv, he⟩

/-- The symbols of a buffer, up to the one with which the parser is done. -/
def feedUntil (consume : σ → α → Except ε (Progress × σ)) : σ → List α → Except ε (Progress × σ)
  | p, [] => .ok (.await, p)
  | p, c :: s =>
    match consume p c with
    | .error e => .error e
    | .ok (.parsed, q) => .ok (.parsed, q)
    | .ok (.await, q) => feedUntil consume q s

theorem Awaits.feedUntil {p q : σ} {s : List α} (h : Awaits consume p s q) :
    feedUntil consume p s = .ok (.await, q) := by
  induction h with
  | nil => rfl
  | cons hc _ ih => simp only [Incremental.feedUntil, hc, ih]

/-- What is behind the last symbol is left. -/
theorem Completes.feedUntil {p q : σ} {s : List α} (h : Completes consume p s q) (t : List α) :
    feedUntil consume p (s ++ t) = .ok (.parsed, q) := by
  obtain ⟨u, c, r, rfl, hu, hc⟩ := h
  induction hu with
  | nil => simp only [List.nil_append, List.cons_append, Incremental.feedUntil, hc]
  | cons hc' _ ih => simp only [List.cons_append, Incremental.feedUntil, hc', ih hc]

theorem awaits_of_feedUntil {p q : σ} {s : List α} (h : feedUntil consume p s = .ok (.await, q)) :
    Awaits consume p s q := by
  induction s generalizing p with
  | nil =>
    cases h
    exact .nil _
  | cons c s ih =>
    rw [Incremental.feedUntil] at h
    split at h
    · cases h
    · cases h
    · rename_i hc
      exact .cons hc (ih h)

theorem completes_of_feedUntil {p q : σ} {s : List α} (h : feedUntil consume p s = .ok (.parsed, q)) :
    ∃ t u, s = t ++ u ∧ Completes consume p t q := by
  induction s generalizing p with
  | nil => cases h
  | cons c s ih =>
    rw [Incremental.feedUntil] at h
    split at h
    · cases h
    · rename_i hc
      cases h
      exact ⟨[c], s, rfl, [], c, p, rfl, .nil p, hc⟩
    · rename_i hc
      obtain ⟨t, u, rfl, v, d, r, rfl, hv, hd⟩ := ih h
      exact ⟨c :: (v ++ [d]), u, rfl, c :: v, d, r, rfl, .cons hc hv, hd⟩

/-- What is completed at the beginning of a list. -/
theorem Completes.unique {p q q' : σ} {s s' t t' : List α} (h : Completes consume p s q)
    (h' : Completes consume p s' q') (heq : s ++ t = s' ++ t') : q = q' := by
  have hq := h.feedUntil t
  rw [heq, h'.feedUntil t'] at hq
  simpa using hq.symm

/-- The runs of a parser that awaits whenever an inner one does. -/
theorem Awaits.lift {p q : σ} {s : List α} (h : Awaits consume p s q) (f : σ → τ)
    (hf : ∀ p c q, consume p c = .ok (.await, q) → consume' (f p) c = .ok (.await, f q)) :
    Awaits consume' (f p) s (f q) := by
  induction h with
  | nil => exact .nil _
  | cons hc _ ih => exact .cons (hf _ _ _ hc) ih

/-- An inner parser finishes with `q`, and the outer one goes on to `r`. -/
theorem Completes.lift {p q : σ} {s : List α} (h : Completes consume p s q) (f : σ → τ) {r : τ}
    (hf : ∀ p c q, consume p c = .ok (.await, q) → consume' (f p) c = .ok (.await, f q))
    (hg : ∀ p c, consume p c = .ok (.parsed, q) → consume' (f p) c = .ok (.await, r)) :
    Awaits consume' (f p) s r := by
  obtain ⟨t, c, u, rfl, ht, hc⟩ := h
  exact (ht.lift f hf).append (.single (hg _ _ hc))

/-- An inner parser finishes with `q`, and the outer one with it. -/
theorem Completes.lift_parsed {p q : σ} {s : List α} (h : Completes consume p s q) (f : σ → τ) {r : τ}
    (hf : ∀ p c q, consume p c = .ok (.await, q) → consume' (f p) c = .ok (.await, f q))
    (hg : ∀ p c, consume p c = .ok (.parsed, q) → consume' (f p) c = .ok (.parsed, r)) :
    Completes consume' (f p) s r := by
  obtain ⟨t, c, u, rfl, ht, hc⟩ := h
  exact ⟨t, c, f u, rfl, ht.lift f hf, hg _ _ hc⟩

theorem Completes.ne_nil {p r : σ} {s : List α} (h : Completes consume p s r) : s ≠ [] := by
  obtain ⟨t, c, u, rfl, -⟩ := h
  simp

/-- The first symbol of a completed run. -/
theorem Completes.uncons {p r : σ} {c : α} {s : List α} (h : Completes consume p (c :: s) r) :
    (s = [] ∧ consume p c = .ok (.parsed, r)) ∨
      ∃ q, consume p c = .ok (.await, q) ∧ Completes consume q s r := by
  obtain ⟨t, d, u, hs, ht, hd⟩ := h
  cases ht with
  | nil =>
    obtain ⟨rfl, rfl⟩ := List.cons.inj hs
    exact .inl ⟨rfl, hd⟩
  | cons hc ht =>
    obtain ⟨rfl, rfl⟩ := List.cons.inj hs
    exact .inr ⟨_, hc, _, _, _, rfl, ht, hd⟩

theorem Completes.cons {p q r : σ} {c : α} {s : List α} (hc : consume p c = .ok (.await, q))
    (h : Completes consume q s r) : Completes consume p (c :: s) r :=
  (Awaits.single hc).completes h

/-- A completed run up to some point. -/
theorem Completes.split {p r : σ} : ∀ {s t : List α}, t ≠ [] → Completes consume p (s ++ t) r →
    ∃ q, Awaits consume p s q ∧ Completes consume q t r
  | [], _, _, h => ⟨p, .nil p, h⟩
  | c :: s, t, ht, h => by
    rcases h.uncons with ⟨hnil, -⟩ | ⟨q, hc, h⟩
    · exact absurd (List.append_eq_nil_iff.mp hnil).2 ht
    · obtain ⟨v, hv, hrest⟩ := h.split ht
      exact ⟨v, .cons hc hv, hrest⟩

/-- Behind a part that the parser awaits, the rest of what it finishes. -/
theorem Awaits.left {p q r : σ} {s t b rest : List α} (h : Awaits consume p s q)
    (hb : Completes consume p b r) (heq : s ++ t = b ++ rest) :
    ∃ b', t = b' ++ rest ∧ Completes consume q b' r := by
  rcases List.append_eq_append_iff.mp heq with ⟨b', rfl, ht⟩ | ⟨extra, rfl, -⟩
  · by_cases hnil : b' = []
    · rw [hnil, List.append_nil] at hb
      have hdone := hb.feedUntil []
      rw [List.append_nil, h.feedUntil] at hdone
      cases hdone
    · obtain ⟨q', hq, hb'⟩ := hb.split hnil
      have hsame := hq.feedUntil.symm.trans h.feedUntil
      cases hsame
      exact ⟨b', ht, hb'⟩
  · have hdone := hb.feedUntil extra
    rw [h.feedUntil] at hdone
    cases hdone

/-- Any part of a list that begins with what the parser finishes can be fed to it. -/
theorem Completes.feedUntil_part {p r : σ} {b rest s t : List α} (h : Completes consume p b r)
    (heq : s ++ t = b ++ rest) :
    (∃ q, Incremental.feedUntil consume p s = .ok (.await, q)) ∨
      Incremental.feedUntil consume p s = .ok (.parsed, r) := by
  rcases List.append_eq_append_iff.mp heq with ⟨b', rfl, -⟩ | ⟨extra, rfl, -⟩
  · by_cases hnil : b' = []
    · rw [hnil, List.append_nil] at h
      exact .inr (by simpa using h.feedUntil [])
    · obtain ⟨q, hq, -⟩ := h.split hnil
      exact .inl ⟨q, hq.feedUntil⟩
  · exact .inr (h.feedUntil extra)

/-! ## Every step -/

/-- `ok` holds in each step of the parser over the symbols of `b`, up to the one
with which it is done. -/
def Along (consume : σ → α → Except ε (Progress × σ)) (p : σ) (b : List α) (ok : σ → α → Prop) : Prop :=
  ∀ s c q, s ++ [c] <+: b → Awaits consume p s q → ok q c

theorem Along.tail {p q : σ} {c : α} {b : List α} {ok : σ → α → Prop} (h : Along consume p (c :: b) ok)
    (hc : consume p c = .ok (.await, q)) : Along consume q b ok := fun s d r hs hr =>
  h (c :: s) d r (List.cons_prefix_cons.mpr ⟨rfl, hs⟩) (.cons hc hr)

/-- What each good step preserves holds before each step. -/
theorem Along.invariant {p : σ} {b : List α} {ok : σ → α → Prop} {Inv : σ → Prop}
    (h : Along consume p b ok) (hp : Inv p)
    (step : ∀ {q c r}, Inv q → ok q c → consume q c = .ok (.await, r) → Inv r) :
    Along consume p b fun q _ => Inv q := by
  intro s c q hs hq
  induction hq generalizing b with
  | nil => exact hp
  | cons hc _ ih =>
    obtain ⟨t, rfl⟩ := hs
    exact ih (h.tail hc) (step hp (h [] _ _ ⟨_, rfl⟩ (.nil _)) hc) ⟨t, rfl⟩

/-! ## Phases -/

/-- Behind the states `f q`, the outer parser hands its symbols to an inner one
in the state `q`; when that is done, it goes on with `g`. -/
structure Hosts (inner : σ → α → Except ε (Progress × σ)) (outer : τ → α → Except ε (Progress × τ))
    (f : σ → τ) (g : σ → Except ε (Progress × τ)) : Prop where
  await : ∀ {p c q}, inner p c = .ok (.await, q) → outer (f p) c = .ok (.await, f q)
  parsed : ∀ {p c q}, inner p c = .ok (.parsed, q) → outer (f p) c = g q
  error : ∀ {p c e}, inner p c = .error e → outer (f p) c = .error e

/-- For parsers that cannot fail. -/
theorem Hosts.of_total {inner : σ → α → Progress × σ} {outer : τ → α → Progress × τ} {f : σ → τ}
    {g : σ → Progress × τ} (ha : ∀ {p c q}, inner p c = (.await, q) → outer (f p) c = (.await, f q))
    (hp : ∀ {p c q}, inner p c = (.parsed, q) → outer (f p) c = g q) :
    Hosts (ε := ε) (total inner) (total outer) f fun q => .ok (g q) where
  await h := by rw [total_eq_ok] at h ⊢; exact ha h
  parsed h := by rw [total_eq_ok] at h ⊢; exact hp h
  error h := by cases h

namespace Hosts

variable {f : σ → τ} {g : σ → Except ε (Progress × τ)} (h : Hosts consume consume' f g)
include h

theorem awaits {p q : σ} {s : List α} (hs : Awaits consume p s q) : Awaits consume' (f p) s (f q) :=
  hs.lift f fun _ _ _ => h.await

/-- The outer parser goes on. -/
theorem next {p q : σ} {s : List α} {r : τ} (hs : Completes consume p s q)
    (hg : g q = .ok (.await, r)) : Awaits consume' (f p) s r :=
  hs.lift f (fun _ _ _ => h.await) fun _ _ hc => (h.parsed hc).trans hg

/-- The outer parser is done as well. -/
theorem last {p q : σ} {s : List α} {r : τ} (hs : Completes consume p s q)
    (hg : g q = .ok (.parsed, r)) : Completes consume' (f p) s r :=
  hs.lift_parsed f (fun _ _ _ => h.await) fun _ _ hc => (h.parsed hc).trans hg

/-- What the outer parser completes begins with what the inner one completes. -/
theorem completes {p : σ} {s : List α} {r : τ} (hs : Completes consume' (f p) s r) :
    ∃ s₁ s₂ q, s = s₁ ++ s₂ ∧ Completes consume p s₁ q ∧
      ((s₂ = [] ∧ g q = .ok (.parsed, r)) ∨
        ∃ r', g q = .ok (.await, r') ∧ Completes consume' r' s₂ r) := by
  induction s generalizing p with
  | nil => exact absurd rfl hs.ne_nil
  | cons c s ih =>
    have hhead := hs.uncons
    cases hc : consume p c with
    | error e =>
      rw [h.error hc] at hhead
      simp at hhead
    | ok x =>
      obtain ⟨answer, q⟩ := x
      cases answer with
      | parsed =>
        rw [h.parsed hc] at hhead
        exact ⟨[c], s, q, rfl, ⟨[], c, p, rfl, .nil p, hc⟩, hhead⟩
      | await =>
        rw [h.await hc] at hhead
        rcases hhead with ⟨-, he⟩ | ⟨r', he, hs'⟩
        · cases he
        · cases he
          obtain ⟨s₁, s₂, q', rfl, hq', hend⟩ := ih hs'
          exact ⟨c :: s₁, s₂, q', rfl, hq'.cons hc, hend⟩

end Hosts

end

/-! ## Delimited fields -/

/-- Reading `f ++ d` from the left, `d` is at the end of what was read for the
first time at the very end. -/
def Fresh (d f : List α) : Prop := ∀ s, s <+: f ++ d → d <:+ s → s = f ++ d

/-- A delimiter whose first symbol is not in it again: it cannot begin within
the field and end behind it, nor begin within itself. -/
theorem fresh_cons {x : α} {e f : List α} (hx : x ∉ e) (h : ¬ x :: e <:+: f) : Fresh (x :: e) f := by
  intro s hs hd
  rcases List.prefix_or_prefix_of_prefix hs (List.prefix_append f (x :: e)) with hf | ⟨u, rfl⟩
  · exact absurd (hd.isInfix.trans hf.isInfix) h
  have hu := (List.prefix_append_right_inj f).mp hs
  cases u with
  | nil => exact absurd (by simpa using hd.isInfix) h
  | cons y u =>
    obtain ⟨rfl, htail⟩ := List.cons_prefix_cons.mp hu
    -- behind its first symbol there is no room for another one
    rcases List.suffix_or_suffix_of_suffix hd (List.suffix_append f (y :: u)) with hsuf | hsuf
    · have hlen : u.length = e.length := by
        have := hsuf.length_le
        have := htail.length_le
        simp only [List.length_cons] at *
        omega
      rw [htail.eq_of_length hlen]
    · rcases List.suffix_cons_iff.mp hsuf with he | hsuf
      · rw [he]
      · exact absurd (hsuf.subset List.mem_cons_self) hx

/-- A delimiter of one symbol. -/
theorem fresh_singleton {x : α} {f : List α} (h : x ∉ f) : Fresh [x] f :=
  fresh_cons List.not_mem_nil fun hi => h (hi.subset List.mem_cons_self)

/-- A delimiter of two different symbols. -/
theorem fresh_pair {x y : α} (hxy : x ≠ y) {f : List α} (h : ¬ [x, y] <:+: f) : Fresh [x, y] f :=
  fresh_cons (by simpa using hxy) h

/-- Before the end of a fresh delimiter. -/
theorem Fresh.not_suffix {d f s t : List α} (h : Fresh d f) (ht : t ≠ []) (he : f ++ d = s ++ t) :
    ¬ d <:+ s := by
  intro hd
  have hs := h s ⟨t, he.symm⟩ hd
  rw [hs] at he
  exact ht (List.append_right_eq_self.mp he.symm)

theorem Fresh.not_infix {d f : List α} (hd : d ≠ []) (h : Fresh d f) : ¬ d <:+: f := by
  rintro ⟨a, b, rfl⟩
  have hs := h (a ++ d) (by simp [List.append_assoc]) (List.suffix_append a d)
  have hlen := congrArg List.length hs
  have hpos := List.length_pos_of_ne_nil hd
  simp only [List.length_append] at hlen
  omega

theorem Fresh.tail {d f : List α} {c : α} (h : Fresh d (c :: f)) : Fresh d f := by
  intro s hs hd
  have := h (c :: s) (List.cons_prefix_cons.mpr ⟨rfl, hs⟩) (hd.trans (List.suffix_cons c s))
  exact List.cons.inj this |>.2

theorem fresh_nil (d : List α) : Fresh d [] := by
  intro s hs hd
  exact List.IsPrefix.eq_of_length hs (Nat.le_antisymm hs.length_le hd.length_le)

theorem Fresh.cons {d f t : List α} {c : α} (hd : d ≠ []) (h : Fresh d f)
    (hn : ¬ d <+: c :: (f ++ d ++ t)) : Fresh d (c :: f) := by
  intro s hs hsuf
  cases s with
  | nil => exact absurd (List.suffix_nil.mp hsuf) hd
  | cons x s =>
    obtain ⟨rfl, htail⟩ := List.cons_prefix_cons.mp hs
    rcases List.suffix_cons_iff.mp hsuf with he | hsuf
    · have hpre : d <+: x :: f ++ d := he.symm ▸ hs
      exact absurd (hpre.trans (List.prefix_append (x :: f ++ d) t)) hn
    · rw [h s htail hsuf]
      rfl

/-- A delimiter that occurs occurs for a first time. -/
theorem exists_fresh {d : List α} (hd : d ≠ []) : ∀ {s : List α}, d <:+: s →
    ∃ f t, s = f ++ d ++ t ∧ Fresh d f
  | [], h => absurd (List.infix_nil.mp h) hd
  | c :: s, h => by
    by_cases hp : d <+: c :: s
    · obtain ⟨t, ht⟩ := hp
      exact ⟨[], t, ht.symm, fresh_nil d⟩
    · have hs := (List.infix_cons_iff.mp h).resolve_left hp
      obtain ⟨f, t, rfl, hf⟩ := exists_fresh hd hs
      exact ⟨c :: f, t, rfl, hf.cons hd hp⟩

/-- What is in front of the first `d`, and what is behind it. -/
def cut [DecidableEq α] (d : List α) : List α → Option (List α × List α)
  | [] => if d = [] then some ([], []) else none
  | c :: s =>
    if d <+: c :: s then some ([], (c :: s).drop d.length)
    else (cut d s).map fun r => (c :: r.1, r.2)

theorem cut_fresh [DecidableEq α] {d : List α} (hd : d ≠ []) : ∀ {f : List α}, Fresh d f →
    ∀ t, cut d (f ++ d ++ t) = some (f, t)
  | [], _, t => by
    obtain ⟨x, e, rfl⟩ := List.exists_cons_of_ne_nil hd
    have hp : x :: e <+: x :: (e ++ t) := by simp
    rw [List.nil_append, List.cons_append, cut, if_pos hp]
    simp
  | c :: f, h, t => by
    have hp : ¬ d <+: c :: (f ++ d ++ t) := by
      intro hp
      have hle : d.length ≤ (c :: f ++ d).length := by
        rw [List.length_append]
        omega
      have := h d (List.prefix_of_prefix_length_le hp (by simp) hle) List.suffix_rfl
      exact absurd (List.append_left_eq_self.mp this.symm) (List.cons_ne_nil c f)
    rw [List.cons_append, List.cons_append, cut, if_neg hp, cut_fresh hd h.tail t]
    rfl

theorem cut_eq_none [DecidableEq α] {d : List α} (hd : d ≠ []) : ∀ {s : List α}, ¬ d <:+: s →
    cut d s = none
  | [], _ => if_neg hd
  | c :: s, h => by
    rw [List.infix_cons_iff, not_or] at h
    rw [cut, if_neg h.1, cut_eq_none hd h.2]
    rfl

end NetworksLab.Incremental
