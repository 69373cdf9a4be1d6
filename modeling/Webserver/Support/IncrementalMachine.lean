import Mathlib.Data.List.Basic
import Mathlib.Data.Nat.Notation
import Mathlib.Tactic.TypeStar

/-!
# Machines that are fed one symbol at a time

A `step : σ → α → σ ⊕ ρ` absorbs one symbol: the machine goes on in a new state, or stops with a verdict.
`feed` absorbs a string and, when the machine stops, returns the verdict with the symbols that were not
looked at; `feedChunks` is fed a list of strings one after the other and looks at no chunk after the one
it stops in.

`feed_flatten` is the reason such a machine does not see how its input is cut.  The `stops_*` rules
compute the language of a machine state by state: a state that waits for one symbol, and a state that
collects a run of symbols up to a delimiter.  `exists_stops_of_measure` shows that a machine is never in a
dead end, from a measure that some symbol makes smaller.
-/

namespace IncrementalMachine

variable {σ α ρ : Type*}

/-- Absorb a string; on a stop, the verdict and the rest of the string. -/
def feed (step : σ → α → σ ⊕ ρ) : σ → List α → σ ⊕ ρ × List α
  | s, [] => .inl s
  | s, c :: cs =>
    match step s c with
    | .inl s' => feed step s' cs
    | .inr r => .inr (r, cs)

/-- Absorb chunks up to the one in which the machine stops. -/
def feedChunks (step : σ → α → σ ⊕ ρ) : σ → List (List α) → σ ⊕ ρ
  | s, [] => .inl s
  | s, xs :: xss =>
    match feed step s xs with
    | .inl s' => feedChunks step s' xss
    | .inr r => .inr r.1

/-- From state `s`, the machine stops inside `xs` with verdict `r`, leaving `rest`. -/
def Stops (step : σ → α → σ ⊕ ρ) (s : σ) (xs : List α) (r : ρ) (rest : List α) : Prop :=
  feed step s xs = .inr (r, rest)

variable {step : σ → α → σ ⊕ ρ}

theorem feed_append (s : σ) (xs ys : List α) :
    feed step s (xs ++ ys) =
      match feed step s xs with
      | .inl s' => feed step s' ys
      | .inr (r, rest) => .inr (r, rest ++ ys) := by
  induction xs generalizing s with
  | nil => rfl
  | cons c xs ih =>
    rw [List.cons_append, feed, feed]
    cases step s c with
    | inl s' => exact ih s'
    | inr r => rfl

/-- The verdict of `feed`, without the rest of the string. -/
def verdict : σ ⊕ ρ × List α → σ ⊕ ρ := Sum.map id Prod.fst

/-- **Chunks are invisible.**  Fed in chunks, the machine does what it does on the whole string. -/
theorem feed_flatten (s : σ) (xss : List (List α)) :
    feedChunks step s xss = verdict (feed step s xss.flatten) := by
  induction xss generalizing s with
  | nil => rfl
  | cons xs xss ih =>
    rw [feedChunks, List.flatten_cons, feed_append]
    cases feed step s xs with
    | inl s' => exact ih s'
    | inr p => rfl

/-- **What every step keeps, a string keeps.** -/
theorem feed_invariant {I : σ → Prop} (hstep : ∀ s c s', I s → step s c = .inl s' → I s') (xs : List α) :
    ∀ {s s' : σ}, I s → feed step s xs = .inl s' → I s' := by
  induction xs with
  | nil =>
    intro s s' hs h
    rwa [← Sum.inl.inj h]
  | cons c xs ih =>
    intro s s' hs h
    rw [feed] at h
    cases hc : step s c with
    | inl s₁ =>
      rw [hc] at h
      exact ih (hstep s c s₁ hs hc) h
    | inr r =>
      rw [hc] at h
      cases h

/-! ### The language of a state -/

theorem Stops.unique {s : σ} {xs rest rest' : List α} {r r' : ρ} (h : Stops step s xs r rest)
    (h' : Stops step s xs r' rest') : r = r' ∧ rest = rest' := by
  rw [Stops, h] at h'
  simpa using h'

@[simp] theorem not_stops_nil {s : σ} {r : ρ} {rest : List α} : ¬ Stops step s [] r rest := by
  simp [Stops, feed]

theorem stops_cons_of_inl {s s' : σ} {c : α} (h : step s c = .inl s') (xs : List α) (r : ρ)
    (rest : List α) : Stops step s (c :: xs) r rest ↔ Stops step s' xs r rest := by
  rw [Stops, feed, h]
  rfl

theorem stops_cons_of_inr {s : σ} {c : α} {r' : ρ} (h : step s c = .inr r') (xs : List α) (r : ρ)
    (rest : List α) : Stops step s (c :: xs) r rest ↔ r' = r ∧ xs = rest := by
  rw [Stops, feed, h]
  simp

/-- Stopping depends only on what comes before the rest. -/
theorem Stops.append {s : σ} {xs rest : List α} {r : ρ} (h : Stops step s xs r rest)
    (ys : List α) : Stops step s (xs ++ ys) r (rest ++ ys) := by
  rw [Stops, feed_append, h]

/-- **The symbol that decides.**  The machine goes on up to it, and looks at nothing behind it. -/
theorem Stops.exists_decisive {s : σ} {xs rest : List α} {r : ρ} (h : Stops step s xs r rest) :
    ∃ ys c s', xs = ys ++ c :: rest ∧ feed step s ys = .inl s' ∧ step s' c = .inr r := by
  induction xs generalizing s with
  | nil => exact absurd h not_stops_nil
  | cons d xs ih =>
    cases hd : step s d with
    | inl s₁ =>
      rw [stops_cons_of_inl hd] at h
      obtain ⟨ys, c, s', rfl, hfeed, hstop⟩ := ih h
      refine ⟨d :: ys, c, s', rfl, ?_, hstop⟩
      rw [feed, hd]
      exact hfeed
    | inr r' =>
      rw [stops_cons_of_inr hd] at h
      obtain ⟨rfl, rfl⟩ := h
      exact ⟨[], d, s, rfl, rfl, hd⟩

/-- **No dead end.**  If under an invariant there is always a symbol that makes a measure smaller, or stops
the machine with a verdict in `G`, then the machine can be brought to such a verdict. -/
theorem exists_stops_of_measure {I : σ → Prop} {G : ρ → Prop} (μ : σ → ℕ)
    (hstep : ∀ s, I s → ∃ c, (∃ s', step s c = .inl s' ∧ I s' ∧ μ s' < μ s) ∨ ∃ r, step s c = .inr r ∧ G r)
    {s : σ} (hs : I s) : ∃ xs r, Stops step s xs r [] ∧ G r := by
  induction hμ : μ s using Nat.strongRecOn generalizing s with
  | ind n ih =>
    obtain ⟨c, hc⟩ := hstep s hs
    rcases hc with hc | hc
    · obtain ⟨s', hs', hI, hlt⟩ := hc
      obtain ⟨xs, r, hstop, hr⟩ := ih (μ s') (hμ ▸ hlt) hI rfl
      exact ⟨c :: xs, r, (stops_cons_of_inl hs' xs r []).mpr hstop, hr⟩
    · obtain ⟨r, hr, hG⟩ := hc
      exact ⟨[c], r, (stops_cons_of_inr hr [] r []).mpr ⟨rfl, rfl⟩, hG⟩

/-- **A state that waits for one symbol.** -/
theorem stops_expect {s s' : σ} {d : α} {r : ρ} (hd : step s d = .inl s')
    (hbad : ∀ c, c ≠ d → ∃ r', step s c = .inr r' ∧ r' ≠ r) (xs rest : List α) :
    Stops step s xs r rest ↔ ∃ ys, xs = d :: ys ∧ Stops step s' ys r rest := by
  cases xs with
  | nil => simp
  | cons c xs =>
    by_cases hc : c = d
    · rw [hc, stops_cons_of_inl hd]
      simp
    · obtain ⟨r', hr', hne⟩ := hbad c hc
      rw [stops_cons_of_inr hr']
      simp [hne, hc]

/-- **A state that collects a run of symbols up to a delimiter.**  `f cs` is the state after the run
`cs`, and `g cs` the state the delimiter leads to. -/
theorem stops_span (step : σ → α → σ ⊕ ρ) {f g : List α → σ} {P : α → Prop} {d : α} {r : ρ}
    (hP : ∀ cs c, P c → step (f cs) c = .inl (f (cs ++ [c])))
    (hd : ∀ cs, step (f cs) d = .inl (g cs)) (hdP : ¬ P d)
    (hbad : ∀ cs c, ¬ P c → c ≠ d → ∃ r', step (f cs) c = .inr r' ∧ r' ≠ r) (xs rest : List α) :
    ∀ cs, Stops step (f cs) xs r rest ↔
      ∃ ds ys, xs = ds ++ d :: ys ∧ (∀ c ∈ ds, P c) ∧ Stops step (g (cs ++ ds)) ys r rest := by
  induction xs with
  | nil => simp
  | cons c xs ih =>
    intro cs
    by_cases hc : P c
    · have hcd : c ≠ d := fun h => hdP (h ▸ hc)
      rw [stops_cons_of_inl (hP cs c hc), ih]
      constructor
      · rintro ⟨ds, ys, rfl, hds, h⟩
        refine ⟨c :: ds, ys, rfl, List.forall_mem_cons.mpr ⟨hc, hds⟩, ?_⟩
        rwa [List.append_cons]
      · rintro ⟨ds, ys, hxs, hds, h⟩
        cases ds with
        | nil => exact absurd (List.cons.inj hxs).1 hcd
        | cons e ds =>
          rw [List.cons_append, List.cons.injEq] at hxs
          obtain ⟨rfl, rfl⟩ := hxs
          refine ⟨ds, ys, rfl, (List.forall_mem_cons.mp hds).2, ?_⟩
          rwa [List.append_cons] at h
    · by_cases hcd : c = d
      · subst hcd
        rw [stops_cons_of_inl (hd cs)]
        constructor
        · intro h
          exact ⟨[], xs, rfl, by simp, by rwa [List.append_nil]⟩
        · rintro ⟨ds, ys, hxs, hds, h⟩
          cases ds with
          | nil =>
            obtain rfl := (List.cons.inj hxs).2
            rwa [List.append_nil] at h
          | cons e ds =>
            rw [List.cons_append, List.cons.injEq] at hxs
            exact absurd (hxs.1 ▸ hds e List.mem_cons_self) hc
      · obtain ⟨r', hr', hne⟩ := hbad cs c hc hcd
        rw [stops_cons_of_inr hr']
        constructor
        · rintro ⟨h, -⟩
          exact absurd h hne
        · rintro ⟨ds, ys, hxs, hds, -⟩
          cases ds with
          | nil => exact absurd (List.cons.inj hxs).1 hcd
          | cons e ds =>
            rw [List.cons_append, List.cons.injEq] at hxs
            exact absurd (hxs.1 ▸ hds e List.mem_cons_self) hc

/-- A run of at least one symbol: `s` is the state before the run, and `f cs` the state inside it. -/
theorem stops_span_ne (step : σ → α → σ ⊕ ρ) {s : σ} {f g : List α → σ} {P : α → Prop} {d : α} {r : ρ}
    (h0 : ∀ c, P c → step s c = .inl (f [c]))
    (h0bad : ∀ c, ¬ P c → ∃ r', step s c = .inr r' ∧ r' ≠ r)
    (hP : ∀ cs c, cs ≠ [] → P c → step (f cs) c = .inl (f (cs ++ [c])))
    (hd : ∀ cs, cs ≠ [] → step (f cs) d = .inl (g cs)) (hdP : ¬ P d)
    (hbad : ∀ cs c, cs ≠ [] → ¬ P c → c ≠ d → ∃ r', step (f cs) c = .inr r' ∧ r' ≠ r)
    (xs rest : List α) :
    Stops step s xs r rest ↔
      ∃ ds ys, xs = ds ++ d :: ys ∧ ds ≠ [] ∧ (∀ c ∈ ds, P c) ∧ Stops step (g ds) ys r rest := by
  cases xs with
  | nil => simp
  | cons c xs =>
    by_cases hc : P c
    · have hspan := stops_span step (f := fun cs => f (c :: cs)) (g := fun cs => g (c :: cs))
        (fun cs b hb => hP (c :: cs) b (List.cons_ne_nil _ _) hb)
        (fun cs => hd (c :: cs) (List.cons_ne_nil _ _)) hdP
        (fun cs b hb hbd => hbad (c :: cs) b (List.cons_ne_nil _ _) hb hbd) xs rest []
      rw [stops_cons_of_inl (h0 c hc), hspan]
      constructor
      · rintro ⟨ds, ys, rfl, hds, h⟩
        exact ⟨c :: ds, ys, rfl, List.cons_ne_nil _ _, List.forall_mem_cons.mpr ⟨hc, hds⟩, h⟩
      · rintro ⟨ds, ys, hxs, hne, hds, h⟩
        obtain ⟨e, ds, rfl⟩ := List.exists_cons_of_ne_nil hne
        rw [List.cons_append, List.cons.injEq] at hxs
        obtain ⟨rfl, rfl⟩ := hxs
        exact ⟨ds, ys, rfl, (List.forall_mem_cons.mp hds).2, h⟩
    · obtain ⟨r', hr', hne⟩ := h0bad c hc
      rw [stops_cons_of_inr hr']
      constructor
      · rintro ⟨h, -⟩
        exact absurd h hne
      · rintro ⟨ds, ys, hxs, hdsne, hds, -⟩
        obtain ⟨e, ds, rfl⟩ := List.exists_cons_of_ne_nil hdsne
        rw [List.cons_append, List.cons.injEq] at hxs
        exact absurd (hxs.1 ▸ hds e List.mem_cons_self) hc

/-- **A state that skips a run of symbols.**  On any other symbol the machine goes on as from `g cs`. -/
theorem stops_skip (step : σ → α → σ ⊕ ρ) (rest : List α) {f g : List α → σ} {P : α → Prop} {r : ρ}
    (hP : ∀ cs c, P c → step (f cs) c = .inl (f (cs ++ [c])))
    (hother : ∀ cs c xs, ¬ P c → (Stops step (f cs) (c :: xs) r rest ↔ Stops step (g cs) (c :: xs) r rest))
    (xs : List α) : ∀ cs, Stops step (f cs) xs r rest ↔
      ∃ ds ys, xs = ds ++ ys ∧ (∀ c ∈ ds, P c) ∧ (∀ c, ys.head? = some c → ¬ P c) ∧
        Stops step (g (cs ++ ds)) ys r rest := by
  induction xs with
  | nil =>
    intro cs
    constructor
    · intro h
      exact absurd h not_stops_nil
    · rintro ⟨ds, ys, hxs, -, -, h⟩
      rw [(List.append_eq_nil_iff.mp hxs.symm).2] at h
      exact absurd h not_stops_nil
  | cons c xs ih =>
    intro cs
    by_cases hc : P c
    · rw [stops_cons_of_inl (hP cs c hc), ih]
      constructor
      · rintro ⟨ds, ys, rfl, hds, hys, h⟩
        refine ⟨c :: ds, ys, rfl, List.forall_mem_cons.mpr ⟨hc, hds⟩, hys, ?_⟩
        rwa [List.append_cons]
      · rintro ⟨ds, ys, hxs, hds, hys, h⟩
        cases ds with
        | nil => exact absurd hc (hys c (by rw [← List.nil_append ys, ← hxs]; rfl))
        | cons e ds =>
          rw [List.cons_append, List.cons.injEq] at hxs
          obtain ⟨rfl, rfl⟩ := hxs
          refine ⟨ds, ys, rfl, (List.forall_mem_cons.mp hds).2, hys, ?_⟩
          rwa [List.append_cons] at h
    · rw [hother cs c xs hc]
      constructor
      · intro h
        refine ⟨[], c :: xs, rfl, by simp, ?_, by rwa [List.append_nil]⟩
        intro e he
        rwa [← Option.some.inj he]
      · rintro ⟨ds, ys, hxs, hds, -, h⟩
        cases ds with
        | nil => rwa [hxs, List.nil_append, ← List.append_nil cs]
        | cons e ds =>
          rw [List.cons_append, List.cons.injEq] at hxs
          exact absurd (hxs.1 ▸ hds e List.mem_cons_self) hc

end IncrementalMachine
