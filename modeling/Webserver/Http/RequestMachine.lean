import Webserver.Support.IncrementalMachine
import Webserver.Http.RequestGrammar
import Webserver.Http.RequestPath

/-!
# The request parser as a machine

`absorb` is `Consume` as a machine that is fed one byte at a time, and `Parse` is that machine fed with
the bytes of one call.  `Sound` is the invariant of the object between two bytes that undefined behaviour
depends on: the only undefined step is the end of an empty URI.
-/

namespace Webserver.Http

open ByteString IncrementalMachine Numeral

/-! ### `Consume` and `Parse` -/

/-- How `Consume` can end a parse.  A bad request keeps the object that `Parse` then resets. -/
inductive Stop where
  | undefined
  | good (r : Request)
  | bad (r : Request)
  deriving DecidableEq

def classify : Option (Result × Request) → Request ⊕ Stop
  | none => .inr .undefined
  | some (.good, r) => .inr (.good r)
  | some (.bad, r) => .inr (.bad r)
  | some (.indeterminate, r) => .inl r

def absorb (r : Request) (input : Byte) : Request ⊕ Stop := classify (consume r input)

/-- The outcome of a call of `Parse`, from the outcome of the machine. -/
def finish : Request ⊕ Stop × Bytes → Option (ThreadState × Option Request)
  | .inl r => some (⟨.indeterminate, r⟩, none)
  | .inr (.undefined, _) => none
  | .inr (.good r, _) => some (⟨.good, r.reset⟩, some r)
  | .inr (.bad r, _) => some (⟨.bad, r.reset⟩, none)

theorem parseFrom_eq_feed (r : Request) (s : Bytes) :
    parseFrom ⟨.indeterminate, r⟩ s = finish (feed absorb r s) := by
  induction s generalizing r with
  | nil => rfl
  | cons c s ih =>
    rw [parseFrom, feed, absorb]
    cases hc : consume r c with
    | none => rfl
    | some p =>
      obtain ⟨result, r'⟩ := p
      cases result with
      | good => rfl
      | bad => rfl
      | indeterminate => exact ih r'

theorem parse_eq_feed (t : ThreadState) (s : Bytes) :
    parse t s = finish (feed absorb t.localRequest s) := parseFrom_eq_feed _ _

/-- **The three ways in which a call of `Parse` returns.** -/
theorem parse_eq_some_iff {t t' : ThreadState} {s : Bytes} {request : Option Request} :
    parse t s = some (t', request) ↔
      (∃ r, feed absorb t.localRequest s = .inl r ∧ t' = ⟨.indeterminate, r⟩ ∧ request = none) ∨
        (∃ r rest, Stops absorb t.localRequest s (.good r) rest ∧ t' = ⟨.good, r.reset⟩ ∧ request = some r) ∨
          ∃ r rest, Stops absorb t.localRequest s (.bad r) rest ∧ t' = ⟨.bad, r.reset⟩ ∧ request = none := by
  rw [parse_eq_feed]
  unfold Stops
  cases feed absorb t.localRequest s with
  | inl r => simp [finish, eq_comm]
  | inr p =>
    obtain ⟨stop, rest⟩ := p
    cases stop with
    | undefined => simp [finish]
    | good r => simp [finish, eq_comm]
    | bad r => simp [finish, eq_comm]

/-- A call returns a request exactly when the machine stops with it. -/
theorem parse_good_iff_stops (t t' : ThreadState) (s : Bytes) (r : Request) :
    parse t s = some (t', some r) ↔
      t' = ⟨.good, r.reset⟩ ∧ ∃ rest, Stops absorb t.localRequest s (.good r) rest := by
  rw [parse_eq_some_iff]
  constructor
  · intro h
    rcases h with ⟨r', -, -, h⟩ | ⟨r', rest, hstop, ht, h⟩ | ⟨r', rest, -, -, h⟩
    · cases h
    · obtain rfl := Option.some.inj h
      exact ⟨ht, rest, hstop⟩
    · cases h
  · intro h
    obtain ⟨ht, rest, hstop⟩ := h
    exact .inr (.inl ⟨r, rest, hstop, ht, rfl⟩)

/-! ### Where `Consume` is undefined -/

/-- What holds of every object between two bytes, as far as undefined behaviour depends on it. -/
def Sound (r : Request) : Prop :=
  match r.state with
  | .methodStart => r.rawRequest = [] ∧ r.method = [] ∧ r.uri = [] ∧ r.path = []
  | .method => r.method ≠ [] ∧ (∀ b ∈ r.method, IsTokenByte b) ∧ r.rawRequest = r.method ∧
      r.uri = [] ∧ r.path = []
  | .uri => r.method ≠ [] ∧ (∀ b ∈ r.method, IsTokenByte b) ∧
      r.rawRequest = r.method ++ byte ' ' :: r.uri ∧ r.path = []
  | .headerLws | .headerName | .spaceBeforeHeaderValue | .headerValue => r.headers ≠ []
  | _ => True

/-- What one byte does to a sound object. -/
def SoundStep (r : Request) (c : Byte) : Request ⊕ Stop → Prop
  | .inl r' => Sound r' ∧ r'.rawRequest = r.rawRequest ++ [c]
  | .inr .undefined => r.state = .uri ∧ r.uri = [] ∧ c = byte ' '
  | .inr _ => True

theorem exists_append_pair {hs : Headers} (h : hs ≠ []) :
    ∃ (init : Headers) (name value : Bytes), hs = init ++ [(name, value)] := by
  obtain ⟨init, ⟨name, value⟩, rfl⟩ := (List.eq_nil_or_concat' hs).resolve_left h
  exact ⟨init, name, value, rfl⟩

theorem soundStep_methodStart {r : Request} (hstate : r.state = .methodStart) (hr : Sound r) (c : Byte) :
    SoundStep r c (absorb r c) := by
  obtain ⟨state, remaining, raw, method, uri, path, version, headers, body⟩ := r
  obtain rfl : state = .methodStart := hstate
  obtain ⟨rfl, rfl, rfl, rfl⟩ := hr
  rw [absorb, consume, consumeIn.eq_def]
  by_cases hc : IsTokenByte c
  · simp only [(notTokenChar_eq_false_iff c).mpr hc]
    exact ⟨⟨List.cons_ne_nil _ _, by simpa using hc, rfl, rfl, rfl⟩, rfl⟩
  · rw [← notTokenChar_eq_false_iff, Bool.not_eq_false] at hc
    simp only [hc]
    exact trivial

theorem soundStep_method {r : Request} (hstate : r.state = .method) (hr : Sound r) (c : Byte) :
    SoundStep r c (absorb r c) := by
  obtain ⟨state, remaining, raw, method, uri, path, version, headers, body⟩ := r
  obtain rfl : state = .method := hstate
  obtain ⟨hne, htoken, hraw, rfl, rfl⟩ := hr
  simp only at hne htoken hraw
  subst hraw
  rw [absorb, consume, consumeIn.eq_def]
  by_cases hsp : c = byte ' '
  · simp only [if_pos hsp]
    exact ⟨⟨hne, htoken, by rw [hsp], rfl⟩, rfl⟩
  · by_cases hc : IsTokenByte c
    · simp only [if_neg hsp, (notTokenChar_eq_false_iff c).mpr hc]
      refine ⟨⟨by simp, ?_, rfl, rfl, rfl⟩, rfl⟩
      intro b hb
      rcases List.mem_append.mp hb with hb | hb
      · exact htoken b hb
      · rwa [List.mem_singleton.mp hb]
    · rw [← notTokenChar_eq_false_iff, Bool.not_eq_false] at hc
      simp only [if_neg hsp, hc]
      exact trivial

/-- The only undefined step: the space behind an empty URI. -/
theorem soundStep_uri {r : Request} (hstate : r.state = .uri) (hr : Sound r) (c : Byte) :
    SoundStep r c (absorb r c) := by
  obtain ⟨state, remaining, raw, method, uri, path, version, headers, body⟩ := r
  obtain rfl : state = .uri := hstate
  obtain ⟨hne, htoken, hraw, rfl⟩ := hr
  simp only at hne htoken hraw
  subst hraw
  rw [absorb, consume, consumeIn.eq_def]
  by_cases hsp : c = byte ' '
  · simp only [if_pos hsp]
    rcases eq_or_ne uri [] with rfl | huri
    · rw [inferPath_nil]
      exact ⟨rfl, rfl, hsp⟩
    · rw [inferPath_eq_some huri]
      exact ⟨trivial, rfl⟩
  · simp only [if_neg hsp]
    split_ifs
    · exact trivial
    · exact ⟨⟨hne, htoken, by simp, rfl⟩, rfl⟩

/-- **Every byte leaves a sound object sound**, or ends the parse. -/
theorem soundStep_absorb {r : Request} (hr : Sound r) (c : Byte) : SoundStep r c (absorb r c) := by
  obtain ⟨state, remaining, raw, method, uri, path, version, headers, body⟩ := r
  rw [absorb, consume, consumeIn.eq_def]
  cases state with
  | methodStart => exact soundStep_methodStart rfl hr c
  | method => exact soundStep_method rfl hr c
  | uri => exact soundStep_uri rfl hr c
  | headerLineStart =>
    simp only
    split_ifs with hcr hblank htoken
    · exact ⟨trivial, rfl⟩
    · exact ⟨hblank.1, rfl⟩
    · exact trivial
    · rw [pushHeaderName_append]
      exact ⟨List.append_ne_nil_of_right_ne_nil _ (List.cons_ne_nil _ _), rfl⟩
  | headerLws =>
    obtain ⟨hs, name, value, rfl⟩ := exists_append_pair hr
    simp only [pushHeaderValue_append]
    split_ifs
    · exact ⟨trivial, rfl⟩
    · exact ⟨hr, rfl⟩
    · exact trivial
    · exact ⟨List.append_ne_nil_of_right_ne_nil _ (List.cons_ne_nil _ _), rfl⟩
  | headerName =>
    obtain ⟨hs, name, value, rfl⟩ := exists_append_pair hr
    simp only [pushHeaderName_append]
    split_ifs
    · exact ⟨hr, rfl⟩
    · exact trivial
    · exact ⟨List.append_ne_nil_of_right_ne_nil _ (List.cons_ne_nil _ _), rfl⟩
  | spaceBeforeHeaderValue =>
    simp only
    split_ifs
    · exact ⟨hr, rfl⟩
    · exact trivial
  | headerValue =>
    obtain ⟨hs, name, value, rfl⟩ := exists_append_pair hr
    simp only [pushHeaderValue_append]
    split_ifs
    · exact ⟨trivial, rfl⟩
    · exact trivial
    · exact ⟨List.append_ne_nil_of_right_ne_nil _ (List.cons_ne_nil _ _), rfl⟩
  | expectingNewline3 =>
    simp only
    cases stoull _ with
    | error e =>
      split_ifs
      · exact trivial
      · exact trivial
    | ok n =>
      simp only
      split_ifs
      · exact ⟨trivial, rfl⟩
      · exact trivial
      · exact trivial
  | body =>
    have hbody : ∀ n, SoundStep (⟨.body, remaining, raw, method, uri, path, version, headers, body⟩) c
        (classify (if n > 0 then
          some (.indeterminate,
            ⟨.body, n, raw ++ [c], method, uri, path, version, headers, body ++ [c]⟩)
        else some (.good,
            ⟨.body, n, raw ++ [c], method, uri, path, version, headers, body ++ [c]⟩))) := by
      intro n
      split_ifs
      · exact ⟨trivial, rfl⟩
      · exact trivial
    exact hbody _
  | _ =>
    simp only [expectVersion, expectNewline]
    split_ifs
    all_goals first | exact trivial | exact ⟨trivial, rfl⟩

/-- **`Consume` is undefined only on an empty URI.** -/
theorem emptyUriLine_of_stops (xs : Bytes) : ∀ {r : Request} {rest : Bytes}, Sound r →
    Stops absorb r xs .undefined rest → EmptyUriLine (r.rawRequest ++ xs) := by
  induction xs with
  | nil =>
    intro r rest _ h
    exact absurd h not_stops_nil
  | cons c xs ih =>
    intro r rest hr h
    have hstep := soundStep_absorb hr c
    cases hc : absorb r c with
    | inl r' =>
      rw [hc] at hstep
      rw [stops_cons_of_inl hc] at h
      have hih := ih hstep.1 h
      rwa [hstep.2, List.append_assoc] at hih
    | inr stop =>
      rw [hc] at hstep
      rw [stops_cons_of_inr hc] at h
      rw [h.1] at hstep
      obtain ⟨hstate, huri, rfl⟩ := hstep
      rw [Sound, hstate] at hr
      obtain ⟨hne, htoken, hraw, -⟩ := hr
      refine ⟨r.method, xs, hne, htoken, ?_⟩
      rw [hraw, huri]
      simp [bytes]

theorem sound_fresh : Sound Request.fresh := ⟨rfl, rfl, rfl, rfl⟩

/-- `Parse` on a fresh thread is defined on every input whose request line has a URI. -/
theorem parse_fresh_isSome {s : Bytes} (h : ¬ EmptyUriLine s) :
    ∃ result, parse ThreadState.fresh s = some result := by
  rw [parse_eq_feed]
  cases hf : feed absorb ThreadState.fresh.localRequest s with
  | inl r => exact ⟨_, rfl⟩
  | inr p =>
    obtain ⟨stop, rest⟩ := p
    cases stop with
    | undefined => exact absurd (emptyUriLine_of_stops s sound_fresh hf) h
    | good r => exact ⟨_, rfl⟩
    | bad r => exact ⟨_, rfl⟩

end Webserver.Http
