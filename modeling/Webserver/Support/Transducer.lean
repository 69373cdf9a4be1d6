import Mathlib.Data.List.Basic
import Mathlib.Data.Nat.Notation
import Mathlib.Tactic.TypeStar

/-!
# Machines that answer their inputs

A `step : σ → α → Option (σ × β)` answers one input and goes on in a new state, or breaks down.  `runAll` gives
it a list of inputs and collects the answers.

The rules carry facts about one step over a run: what every step keeps of the inputs and the answers so far
(`runAll_trace`), what the steps add to a log (`runAll_log`), and how another machine follows
(`runAll_simulate`).  An `Unwinding` says of one step that inputs which are not `mine` make no difference
to those that are; then they can be taken out of a run (`Unwinding.purge`).
-/

namespace Transducer

variable {σ α β γ : Type*}

/-- The inputs one after the other, as long as the machine answers. -/
def runAll (step : σ → α → Option (σ × β)) : σ → List α → Option (σ × List β)
  | s, [] => some (s, [])
  | s, a :: as => do
    let (s, b) ← step s a
    let (s, bs) ← runAll step s as
    some (s, b :: bs)

section Run

variable {step : σ → α → Option (σ × β)} {s t : σ}

theorem runAll_nil_iff {bs : List β} : runAll step s [] = some (t, bs) ↔ t = s ∧ bs = [] := by
  rw [runAll, Option.some.injEq, Prod.mk.injEq]
  exact and_congr eq_comm eq_comm

theorem runAll_cons_iff {a : α} {as : List α} {bs : List β} :
    runAll step s (a :: as) = some (t, bs) ↔
      ∃ u b cs, step s a = some (u, b) ∧ runAll step u as = some (t, cs) ∧ bs = b :: cs := by
  constructor
  · intro h
    obtain ⟨⟨u, b⟩, hstep, h⟩ := Option.bind_eq_some_iff.mp h
    obtain ⟨⟨t', cs⟩, hrun, h⟩ := Option.bind_eq_some_iff.mp h
    obtain ⟨rfl, rfl⟩ := Prod.mk.inj (Option.some.inj h)
    exact ⟨u, b, cs, hstep, hrun, rfl⟩
  · intro h
    obtain ⟨u, b, cs, hstep, hrun, rfl⟩ := h
    rw [runAll, hstep]
    show (runAll step u as).bind _ = _
    rw [hrun]
    rfl

/-- **A run in two parts.** -/
theorem runAll_append_iff {as as' : List α} {bs : List β} :
    runAll step s (as ++ as') = some (t, bs) ↔
      ∃ u cs ds, runAll step s as = some (u, cs) ∧ runAll step u as' = some (t, ds) ∧ bs = cs ++ ds := by
  induction as generalizing s bs with
  | nil =>
    constructor
    · intro h
      exact ⟨s, [], bs, rfl, h, rfl⟩
    · intro h
      obtain ⟨u, cs, ds, hfront, hback, rfl⟩ := h
      obtain ⟨rfl, rfl⟩ := runAll_nil_iff.mp hfront
      exact hback
  | cons a as ih =>
    rw [List.cons_append, runAll_cons_iff]
    constructor
    · intro h
      obtain ⟨u, b, cs, hstep, hrun, rfl⟩ := h
      obtain ⟨v, cs, ds, hfront, hback, rfl⟩ := ih.mp hrun
      exact ⟨v, b :: cs, ds, runAll_cons_iff.mpr ⟨u, b, cs, hstep, hfront, rfl⟩, hback, rfl⟩
    · intro h
      obtain ⟨v, cs, ds, hfront, hback, rfl⟩ := h
      obtain ⟨u, b, cs, hstep, hrest, rfl⟩ := runAll_cons_iff.mp hfront
      exact ⟨u, b, cs ++ ds, hstep, ih.mpr ⟨v, cs, ds, hrest, hback, rfl⟩, rfl⟩

/-- **An input in the middle** of a run is answered in the state that the inputs before it lead to. -/
theorem runAll_middle_iff {as as' : List α} {a : α} {bs : List β} :
    runAll step s (as ++ a :: as') = some (t, bs) ↔
      ∃ u cs v b ds, runAll step s as = some (u, cs) ∧ step u a = some (v, b) ∧
        runAll step v as' = some (t, ds) ∧ bs = cs ++ b :: ds := by
  rw [runAll_append_iff]
  constructor
  · intro h
    obtain ⟨u, cs, ds, hfront, hback, rfl⟩ := h
    obtain ⟨v, b, ds, hstep, hrest, rfl⟩ := runAll_cons_iff.mp hback
    exact ⟨u, cs, v, b, ds, hfront, hstep, hrest, rfl⟩
  · intro h
    obtain ⟨u, cs, v, b, ds, hfront, hstep, hback, rfl⟩ := h
    exact ⟨u, cs, b :: ds, hfront, runAll_cons_iff.mpr ⟨v, b, ds, hstep, hback, rfl⟩, rfl⟩

/-- **Trace rule.**  What relates the inputs and answers so far to the state is kept by a run that every step
keeps it in. -/
theorem runAll_trace (I : List α → List β → σ → Prop) {as : List α} {bs : List β} (hs : I [] [] s)
    (hstep : ∀ done out u a v b, I done out u → step u a = some (v, b) → I (done ++ [a]) (out ++ [b]) v)
    (h : runAll step s as = some (t, bs)) : I as bs t := by
  suffices hall : ∀ as bs s done out, I done out s → runAll step s as = some (t, bs) →
      I (done ++ as) (out ++ bs) t from hall as bs s [] [] hs h
  intro as
  induction as with
  | nil =>
    intro bs s done out hs h
    obtain ⟨rfl, rfl⟩ := runAll_nil_iff.mp h
    rw [List.append_nil, List.append_nil]
    exact hs
  | cons a as ih =>
    intro bs s done out hs h
    obtain ⟨u, b, cs, hfirst, hrun, rfl⟩ := runAll_cons_iff.mp h
    rw [List.append_cons, List.append_cons out]
    exact ih cs u _ _ (hstep done out s a u b hs hfirst) hrun

theorem length_runAll {as : List α} {bs : List β} (h : runAll step s as = some (t, bs)) :
    bs.length = as.length := by
  refine runAll_trace (fun done out _ => out.length = done.length) rfl ?_ h
  intro done out u a v b hlength _
  rw [List.length_append, List.length_append, hlength]
  rfl

/-- **Log rule.**  A log to which every step adds what its answer says has all answers in their order. -/
theorem runAll_log (log : σ → List γ) (entries : β → List γ)
    (hstep : ∀ u a v b, step u a = some (v, b) → log v = log u ++ entries b) {as : List α} {bs : List β}
    (h : runAll step s as = some (t, bs)) : log t = log s ++ bs.flatMap entries := by
  refine runAll_trace (fun _ out u => log u = log s ++ out.flatMap entries) ?_ ?_ h
  · rw [List.flatMap_nil, List.append_nil]
  · intro done out u a v b hlog hfirst
    rw [hstep u a v b hfirst, hlog, List.flatMap_append, List.append_assoc, List.flatMap_singleton]

/-- **Simulation rule.**  Two machines get inputs that belong together.  When the second one can follow a step of the
first whose answer is `Q` of what the input is for, and its answer is then `P`, it can follow a run. -/
theorem runAll_simulate {σ' α' β' ι : Type*} {step' : σ' → α' → Option (σ' × β')} {S : σ → σ' → Prop}
    {Q : ι → β → Prop} {P : ι → β → β' → Prop} {f : ι → α} {g : ι → α'}
    (hstep : ∀ u u' i v b, S u u' → step u (f i) = some (v, b) → Q i b →
      ∃ v' b', step' u' (g i) = some (v', b') ∧ S v v' ∧ P i b b')
    {is : List ι} {bs : List β} {s' : σ'} (hs : S s s') (hrun : runAll step s (is.map f) = some (t, bs))
    (hbs : List.Forall₂ Q is bs) :
    ∃ t' bs', runAll step' s' (is.map g) = some (t', bs') ∧ S t t' ∧
      List.Forall₂ (fun p b' => P p.1 p.2 b') (is.zip bs) bs' := by
  induction is generalizing s s' bs with
  | nil =>
    obtain ⟨rfl, rfl⟩ := runAll_nil_iff.mp hrun
    exact ⟨s', [], rfl, hs, .nil⟩
  | cons i is ih =>
    obtain ⟨u, b, cs, hfirst, hrest, rfl⟩ := runAll_cons_iff.mp hrun
    obtain ⟨hb, hcs⟩ := List.forall₂_cons.mp hbs
    obtain ⟨u', b', hfirst', hu, hp⟩ := hstep s s' i u b hs hfirst hb
    obtain ⟨t', bs', hrest', ht, hps⟩ := ih hu hrest hcs
    exact ⟨t', b' :: bs', runAll_cons_iff.mpr ⟨u', b', bs', hfirst', hrest', rfl⟩, ht, .cons hp hps⟩

end Run

/-! ### Inputs that make no difference -/

/-- The answers to the inputs that are `mine`. -/
def answersTo (mine : α → Bool) : List α → List β → List β
  | a :: as, b :: bs => if mine a then b :: answersTo mine as bs else answersTo mine as bs
  | _, _ => []

/-- Related states answer an input that is mine alike and stay related; any other input keeps a state related. -/
structure Unwinding (step : σ → α → Option (σ × β)) (mine : α → Bool) (R : σ → σ → Prop) : Prop where
  same : ∀ s t a s' b, R s t → mine a → step s a = some (s', b) → ∃ t', step t a = some (t', b) ∧ R s' t'
  other : ∀ s t a s' b, R s t → ¬ mine a → step s a = some (s', b) → R s' t

/-- **The other inputs can be taken out.** -/
theorem Unwinding.purge {step : σ → α → Option (σ × β)} {mine : α → Bool} {R : σ → σ → Prop}
    (h : Unwinding step mine R) {as : List α} {s s' t : σ} {bs : List β} (hrel : R s t)
    (hrun : runAll step s as = some (s', bs)) :
    ∃ t', runAll step t (as.filter mine) = some (t', answersTo mine as bs) ∧ R s' t' := by
  induction as generalizing s t bs with
  | nil =>
    obtain ⟨rfl, rfl⟩ := runAll_nil_iff.mp hrun
    exact ⟨t, rfl, hrel⟩
  | cons a as ih =>
    obtain ⟨u, b, cs, hfirst, hrest, rfl⟩ := runAll_cons_iff.mp hrun
    by_cases ha : mine a
    · obtain ⟨v, hfirst', hrel'⟩ := h.same s t a u b hrel ha hfirst
      obtain ⟨t', hrest', hend⟩ := ih hrel' hrest
      refine ⟨t', ?_, hend⟩
      rw [List.filter_cons_of_pos ha, runAll_cons_iff]
      exact ⟨v, b, _, hfirst', hrest', if_pos ha⟩
    · obtain ⟨t', hrest', hend⟩ := ih (h.other s t a u b hrel ha hfirst) hrest
      refine ⟨t', ?_, hend⟩
      rw [List.filter_cons_of_neg ha, answersTo, if_neg ha]
      exact hrest'

end Transducer
