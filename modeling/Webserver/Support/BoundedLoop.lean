import Mathlib.Data.Nat.Notation
import Mathlib.Tactic.TypeStar

/-!
# Loops by iteration

A loop of an imperative program is a `body : σ → σ ⊕ ρ`: one turn either goes on with a new state or
leaves the loop with a result.  `runLoop` performs at most `fuel` turns, so it evaluates; `Returns` says
that some number of turns leaves the loop, so it does not mention the fuel, and `Reaches` that a turn starts in
a state.

The rules below are the usual ones: determinism, unfolding of one turn, invariant rules for the turns and
for the result, a variant rule for termination, and a rule for loops that are never left.
-/

namespace BoundedLoop

variable {σ ρ : Type*}

/-- At most `fuel` turns of the loop; `none` when the fuel runs out. -/
def runLoop (body : σ → σ ⊕ ρ) : ℕ → σ → Option ρ
  | 0, _ => none
  | fuel + 1, s =>
    match body s with
    | .inl s' => runLoop body fuel s'
    | .inr r => some r

/-- The loop entered in state `s` is left with result `r`. -/
def Returns (body : σ → σ ⊕ ρ) (s : σ) (r : ρ) : Prop := ∃ fuel, runLoop body fuel s = some r

theorem runLoop_succ_inl {body : σ → σ ⊕ ρ} {s s' : σ} (h : body s = .inl s') (fuel : ℕ) :
    runLoop body (fuel + 1) s = runLoop body fuel s' := by
  rw [runLoop, h]

theorem runLoop_succ_inr {body : σ → σ ⊕ ρ} {s : σ} {r : ρ} (h : body s = .inr r) (fuel : ℕ) :
    runLoop body (fuel + 1) s = some r := by
  rw [runLoop, h]

/-- More fuel never changes a result. -/
theorem runLoop_add {body : σ → σ ⊕ ρ} {r : ρ} (extra : ℕ) :
    ∀ {fuel : ℕ} {s : σ}, runLoop body fuel s = some r → runLoop body (fuel + extra) s = some r := by
  intro fuel
  induction fuel with
  | zero => intro s h; simp [runLoop] at h
  | succ fuel ih =>
    intro s h
    rw [Nat.add_right_comm]
    cases hb : body s with
    | inl s' =>
      rw [runLoop_succ_inl hb] at h ⊢
      exact ih h
    | inr r' =>
      rw [runLoop_succ_inr hb] at h ⊢
      exact h

/-- **A loop has at most one result.** -/
theorem Returns.unique {body : σ → σ ⊕ ρ} {s : σ} {r r' : ρ} (h : Returns body s r)
    (h' : Returns body s r') : r = r' := by
  obtain ⟨m, hm⟩ := h
  obtain ⟨n, hn⟩ := h'
  have hm' := runLoop_add n hm
  have hn' := runLoop_add m hn
  rw [Nat.add_comm n m, hm'] at hn'
  exact Option.some.inj hn'

theorem returns_of_inr {body : σ → σ ⊕ ρ} {s : σ} {r : ρ} (h : body s = .inr r) :
    Returns body s r := ⟨1, runLoop_succ_inr h 0⟩

/-- One turn that stays in the loop does not change the result. -/
theorem returns_iff_of_inl {body : σ → σ ⊕ ρ} {s s' : σ} {r : ρ} (h : body s = .inl s') :
    Returns body s r ↔ Returns body s' r := by
  constructor
  · rintro ⟨fuel, hf⟩
    cases fuel with
    | zero => simp [runLoop] at hf
    | succ fuel => exact ⟨fuel, by rw [← hf, runLoop_succ_inl h]⟩
  · rintro ⟨fuel, hf⟩
    exact ⟨fuel + 1, by rw [runLoop_succ_inl h, hf]⟩

theorem returns_iff_of_inr {body : σ → σ ⊕ ρ} {s : σ} {r r' : ρ} (h : body s = .inr r') :
    Returns body s r ↔ r = r' :=
  ⟨fun hr => hr.unique (returns_of_inr h), fun hr => hr ▸ returns_of_inr h⟩

/-- The states in which the turns of the loop start, when it is entered in state `s`. -/
inductive Reaches (body : σ → σ ⊕ ρ) (s : σ) : σ → Prop
  | start : Reaches body s s
  | turn {t t' : σ} (ht : Reaches body s t) (h : body t = .inl t') : Reaches body s t'

/-- **Invariant rule.**  What every turn preserves holds whenever a turn starts. -/
theorem Reaches.invariant {body : σ → σ ⊕ ρ} {s t : σ} (h : Reaches body s t) (I : σ → Prop) (h0 : I s)
    (hstep : ∀ t t', I t → body t = .inl t' → I t') : I t := by
  induction h with
  | start => exact h0
  | turn _ hbody ih => exact hstep _ _ ih hbody

/-- **Invariant rule.**  What every turn preserves holds of the state the loop is left in. -/
theorem Returns.invariant {body : σ → σ ⊕ ρ} {s : σ} {r : ρ} (h : Returns body s r)
    (I : σ → Prop) (h0 : I s) (hstep : ∀ t t', I t → body t = .inl t' → I t') :
    ∃ t, I t ∧ body t = .inr r := by
  obtain ⟨fuel, hf⟩ := h
  induction fuel generalizing s with
  | zero => simp [runLoop] at hf
  | succ fuel ih =>
    cases hb : body s with
    | inl s' =>
      rw [runLoop_succ_inl hb] at hf
      exact ih (hstep s s' h0 hb) hf
    | inr r' =>
      rw [runLoop_succ_inr hb] at hf
      exact ⟨s, h0, by rw [hb, Option.some.inj hf]⟩

/-- **Variant rule.**  A measure that every turn decreases, under an invariant, bounds the turns. -/
theorem runLoop_of_variant {body : σ → σ ⊕ ρ} (I : σ → Prop) (μ : σ → ℕ)
    (hstep : ∀ t t', I t → body t = .inl t' → I t' ∧ μ t' < μ t) :
    ∀ (fuel : ℕ) (s : σ), I s → μ s < fuel → ∃ r, runLoop body fuel s = some r := by
  intro fuel
  induction fuel with
  | zero => intro s _ h; omega
  | succ fuel ih =>
    intro s hs hμ
    cases hb : body s with
    | inl s' =>
      obtain ⟨hs', hlt⟩ := hstep s s' hs hb
      rw [runLoop_succ_inl hb]
      exact ih s' hs' (by omega)
    | inr r => exact ⟨r, runLoop_succ_inr hb fuel⟩

/-- **Divergence rule.**  A loop is not left from a state with an invariant under which every turn goes
on. -/
theorem not_returns_of_invariant {body : σ → σ ⊕ ρ} (I : σ → Prop)
    (hstep : ∀ t, I t → ∃ t', body t = .inl t' ∧ I t') {s : σ} (hs : I s) (r : ρ) : ¬ Returns body s r := by
  intro h
  obtain ⟨t, ht, hleft⟩ := h.invariant I hs fun t t' ht hbody => by
    obtain ⟨t'', hbody', ht''⟩ := hstep t ht
    rw [hbody] at hbody'
    rwa [Sum.inl.inj hbody']
  obtain ⟨t', hbody, -⟩ := hstep t ht
  rw [hleft] at hbody
  cases hbody

/-- **Simulation rule.**  A loop whose turns follow those of another one is left with it, with a related
result. -/
theorem Returns.simulate {σ' ρ' : Type*} {body : σ → σ ⊕ ρ} {body' : σ' → σ' ⊕ ρ'} (R : σ → σ' → Prop)
    (Q : ρ → ρ' → Prop) (hturn : ∀ s t s', R s t → body s = .inl s' → ∃ t', body' t = .inl t' ∧ R s' t')
    (hleft : ∀ s t r, R s t → body s = .inr r → ∃ q, body' t = .inr q ∧ Q r q) {s : σ} {t : σ'} {r : ρ}
    (hst : R s t) (h : Returns body s r) : ∃ q, Returns body' t q ∧ Q r q := by
  obtain ⟨fuel, hf⟩ := h
  induction fuel generalizing s t with
  | zero => cases hf
  | succ fuel ih =>
    cases hb : body s with
    | inl s' =>
      obtain ⟨t', hb', hst'⟩ := hturn s t s' hst hb
      rw [runLoop_succ_inl hb] at hf
      obtain ⟨q, hq, hrq⟩ := ih hst' hf
      exact ⟨q, (returns_iff_of_inl hb').mpr hq, hrq⟩
    | inr r' =>
      obtain ⟨q, hb', hrq⟩ := hleft s t r' hst hb
      rw [runLoop_succ_inr hb] at hf
      obtain rfl := Option.some.inj hf
      exact ⟨q, returns_of_inr hb', hrq⟩

/-- A loop that is never left goes on in every turn. -/
theorem exists_inl_of_not_returns {body : σ → σ ⊕ ρ} {s : σ} (h : ∀ r, ¬ Returns body s r) :
    ∃ s', body s = .inl s' ∧ ∀ r, ¬ Returns body s' r := by
  cases hbody : body s with
  | inl s' => exact ⟨s', rfl, fun r hr => h r ((returns_iff_of_inl hbody).mpr hr)⟩
  | inr r => exact absurd (returns_of_inr hbody) (h r)

end BoundedLoop
