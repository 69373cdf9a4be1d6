import Mathlib.Data.Nat.Count
import Mathlib.Logic.Function.Basic
import Mathlib.Tactic.TypeStar

/-!
# Interleavings and critical sections

Processes `ι` share a state `σ`; `step i` is the next atomic step of the process `i`, or nothing when it is
blocked or at its end.  An interleaving is a schedule: at every moment it names the process that may take
its step.  `run_invariant` and `run_monotone` carry facts about one step over a whole run.

A `Variant` is a measure that every step lowers.  It bounds the steps of every interleaving, and an
interleaving that is `Fair` comes to a state in which no process can take a step (`Variant.stops`).

`Exclusive` relates a lock that is not recursive to the stages of the processes: those in their critical
section are those that hold the lock.  Entering, leaving and every other step of a process keep it.
-/

namespace CriticalSection

/-! ### Runs -/

section Run

variable {ι σ : Type*} (step : ι → σ → Option σ) (schedule : ℕ → ι)

/-- The state at every moment of an interleaving. -/
def run (s : σ) : ℕ → σ
  | 0 => s
  | n + 1 => (step (schedule n) (run s n)).getD (run s n)

variable {step schedule}

/-- What one more moment does: nothing, or one step of the process that is scheduled. -/
theorem run_succ_cases (s : σ) (n : ℕ) :
    (step (schedule n) (run step schedule s n) = none ∧
        run step schedule s (n + 1) = run step schedule s n) ∨
      step (schedule n) (run step schedule s n) = some (run step schedule s (n + 1)) := by
  show (_ ∧ (step (schedule n) (run step schedule s n)).getD _ = _) ∨ _ = some ((step (schedule n) _).getD _)
  cases hstep : step (schedule n) (run step schedule s n) with
  | none => exact .inl ⟨rfl, rfl⟩
  | some s' => exact .inr rfl

theorem run_succ (s : σ) (n : ℕ) :
    run step schedule s (n + 1) = run step schedule s n ∨
      ∃ i, step i (run step schedule s n) = some (run step schedule s (n + 1)) := by
  rcases @run_succ_cases ι σ step schedule s n with ⟨-, heq⟩ | hstep
  · exact .inl heq
  · exact .inr ⟨schedule n, hstep⟩

/-- **Invariant rule.** -/
theorem run_invariant (I : σ → Prop) (hstep : ∀ i t t', I t → step i t = some t' → I t') {s : σ} (hs : I s) :
    ∀ n, I (run step schedule s n) := by
  intro n
  induction n with
  | zero => exact hs
  | succ n ih =>
    rcases @run_succ ι σ step schedule s n with heq | ⟨i, hi⟩
    · rw [heq]
      exact ih
    · exact hstep i _ _ ih hi

/-- **Monotonicity rule.**  A preorder that every step respects orders the moments of a run. -/
theorem run_monotone (R : σ → σ → Prop) (hrefl : ∀ t, R t t) (htrans : ∀ t u v, R t u → R u v → R t v)
    (hstep : ∀ i t t', step i t = some t' → R t t') (s : σ) {m n : ℕ} (h : m ≤ n) :
    R (run step schedule s m) (run step schedule s n) := by
  induction h with
  | refl => exact hrefl _
  | @step n _ ih =>
    apply htrans _ _ _ ih
    rcases @run_succ ι σ step schedule s n with heq | ⟨i, hi⟩
    · rw [heq]
      exact hrefl _
    · exact hstep i _ _ hi

/-! ### Runs that come to an end -/

variable (step schedule)

/-- The moment `n` is a step of some process. -/
def Moves (s : σ) (n : ℕ) : Prop := (step (schedule n) (run step schedule s n)).isSome

instance (s : σ) : DecidablePred (Moves step schedule s) := fun n =>
  inferInstanceAs (Decidable ((step (schedule n) (run step schedule s n)).isSome = true))

/-- No process can take a step. -/
def Stuck (s : σ) : Prop := ∀ i, step i s = none

/-- Every process is scheduled again and again. -/
def Fair : Prop := ∀ i n, ∃ m, n ≤ m ∧ schedule m = i

/-- Every step keeps the invariant and lowers the measure. -/
structure Variant (I : σ → Prop) (μ : σ → ℕ) : Prop where
  keeps : ∀ i t t', I t → step i t = some t' → I t'
  lowers : ∀ i t t', I t → step i t = some t' → μ t' < μ t

variable {step schedule}

namespace Variant

variable {I : σ → Prop} {μ : σ → ℕ} (h : Variant step I μ) {s : σ} (hs : I s)

include h hs

theorem run_keeps (n : ℕ) : I (run step schedule s n) := run_invariant I h.keeps hs n

/-- **The steps of an interleaving** are no more than the measure at its start. -/
theorem count_moves (n : ℕ) :
    Nat.count (Moves step schedule s) n + μ (run step schedule s n) ≤ μ s := by
  induction n with
  | zero =>
    rw [Nat.count_zero, Nat.zero_add]
    exact le_refl (μ s)
  | succ n ih =>
    rw [Nat.count_succ]
    rcases @run_succ_cases ι σ step schedule s n with ⟨hnone, heq⟩ | hstep
    · have hrests : ¬ Moves step schedule s n := by
        rw [Moves, hnone]
        exact Bool.false_ne_true
      rw [if_neg hrests, heq]
      exact ih
    · have hmoves : Moves step schedule s n := by
        rw [Moves, hstep]
        rfl
      have hlt := h.lowers _ _ _ (h.run_keeps hs n) hstep
      rw [if_pos hmoves]
      omega

/-- From a moment on nothing happens. -/
theorem exists_last : ∃ n, ∀ m, n ≤ m → run step schedule s m = run step schedule s n := by
  obtain ⟨n, hmin⟩ : ∃ n, ∀ m, μ (run step schedule s n) ≤ μ (run step schedule s m) := by
    classical
    have hex : ∃ v n, μ (run step schedule s n) = v := ⟨_, 0, rfl⟩
    obtain ⟨n, hn⟩ := Nat.find_spec hex
    exact ⟨n, fun m => hn.trans_le (Nat.find_min' hex ⟨m, rfl⟩)⟩
  refine ⟨n, fun m hm => ?_⟩
  induction hm with
  | refl => rfl
  | @step m _ ih =>
    rcases @run_succ_cases ι σ step schedule s m with ⟨-, heq⟩ | hstep
    · exact heq.trans ih
    · have hlt := h.lowers _ _ _ (h.run_keeps hs m) hstep
      rw [ih] at hlt
      exact absurd hlt (Nat.not_lt.mpr (hmin (m + 1)))

/-- **A fair interleaving** ends where no process can take a step. -/
theorem stops (hfair : Fair schedule) :
    ∃ n, Stuck step (run step schedule s n) ∧ ∀ m, n ≤ m → run step schedule s m = run step schedule s n := by
  obtain ⟨n, hlast⟩ := h.exists_last hs
  refine ⟨n, fun i => ?_, hlast⟩
  obtain ⟨m, hm, hi⟩ := hfair i n
  rcases @run_succ_cases ι σ step schedule s m with ⟨hnone, -⟩ | hstep
  · rwa [hi, hlast m hm] at hnone
  · -- a step would lower the measure once more
    have hlt := h.lowers _ _ _ (h.run_keeps hs m) hstep
    rw [hlast m hm, hlast (m + 1) (by omega)] at hlt
    exact absurd hlt (Nat.lt_irrefl _)

end Variant

end Run

/-! ### Mutual exclusion -/

section Exclusive

variable {ι π : Type*} {inSection : π → Bool} {holder : Option ι} {stage : ι → π}

/-- The processes in their critical section are those that hold the lock. -/
def Exclusive (inSection : π → Bool) (holder : Option ι) (stage : ι → π) : Prop :=
  ∀ i, inSection (stage i) ↔ holder = some i

/-- **At most one process is in its critical section.** -/
theorem Exclusive.unique (h : Exclusive inSection holder stage) {i j : ι} (hi : inSection (stage i))
    (hj : inSection (stage j)) : i = j :=
  Option.some.inj (((h i).mp hi).symm.trans ((h j).mp hj))

variable [DecidableEq ι]

/-- A process takes the lock when it is free. -/
theorem Exclusive.enter (h : Exclusive inSection none stage) (i : ι) {p : π} (hp : inSection p) :
    Exclusive inSection (some i) (Function.update stage i p) := by
  intro j
  by_cases hj : j = i
  · rw [hj, Function.update_self]
    exact iff_of_true hp rfl
  · rw [Function.update_of_ne hj, h j]
    exact iff_of_false (fun h => by cases h) (fun h => hj (Option.some.inj h).symm)

/-- The holder gives the lock back. -/
theorem Exclusive.leave (h : Exclusive inSection holder stage) {i : ι} (hi : inSection (stage i)) {p : π}
    (hp : inSection p = false) : Exclusive inSection none (Function.update stage i p) := by
  intro j
  by_cases hj : j = i
  · rw [hj, Function.update_self, hp]
    exact iff_of_false Bool.false_ne_true (fun h => by cases h)
  · rw [Function.update_of_ne hj]
    refine iff_of_false (fun hin => hj (h.unique hin hi)) (fun h => by cases h)

/-- Any other step neither enters nor leaves. -/
theorem Exclusive.stay (h : Exclusive inSection holder stage) {i : ι} {p : π}
    (hp : inSection p = inSection (stage i)) : Exclusive inSection holder (Function.update stage i p) := by
  intro j
  by_cases hj : j = i
  · rw [hj, Function.update_self, hp]
    exact h i
  · rw [Function.update_of_ne hj]
    exact h j

end Exclusive

end CriticalSection
