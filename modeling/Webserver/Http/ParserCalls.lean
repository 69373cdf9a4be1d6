import Webserver.Http.RequestLanguage

/-!
# Calls of `Parse` on one thread

The variables of a thread live from one call of `Parse` to the next.  `parseCalls` is a sequence of calls
with what each of them gives back.

`Request::Reset` leaves `remaining` alone, and still nothing leaks (`parse_no_leakage`): `Counting` says
that `remaining` is only different from zero while a body is read, and a body that is complete has counted
it down.

* `accesses` — the places where one call of `Consume` reads or counts without a check.
* `parse_accesses_inRange_iff` — in every sequence of calls they are all in range, unless a request line with
  an empty URI comes.
-/

namespace Webserver.Http

open ByteString BoundedLoop CxxString IncrementalMachine Numeral

/-- A sequence of calls: the variables at the end, and what `GetParseResult` and the returned pointer are
after each of them. -/
def parseCalls : ThreadState → List Bytes → Option (ThreadState × List (Result × Option Request))
  | t, [] => some (t, [])
  | t, s :: calls => do
    let (t', request) ← parse t s
    let (t'', seen) ← parseCalls t' calls
    some (t'', (getParseResult t', request) :: seen)

theorem parse_congr {t t' : ThreadState} (h : t.localRequest = t'.localRequest) (s : Bytes) :
    parse t s = parse t' s := by
  rw [parse_eq_feed, parse_eq_feed, h]

/-- What calls give back depends on the object alone. -/
theorem parseCalls_congr {t t' : ThreadState} (h : t.localRequest = t'.localRequest) (calls : List Bytes) :
    (parseCalls t calls).map Prod.snd = (parseCalls t' calls).map Prod.snd := by
  cases calls with
  | nil => rfl
  | cons s calls => rw [parseCalls, parseCalls, parse_congr h s]

/-! ### The counter -/

/-- **`remaining` is only in use while a body is read.** -/
def Counting (r : Request) : Prop :=
  if r.state = .body then 0 < r.remaining ∧ r.remaining < 2 ^ 64 else r.remaining = 0

theorem counting_fresh : Counting Request.fresh := rfl

/-- Apart from the end of the headers and the body, nothing touches the counter. -/
theorem consumeIn_remaining {r r' : Request} {c : Byte} {result : Result}
    (hnewline : r.state ≠ .expectingNewline3) (hbody : r.state ≠ .body)
    (h : consumeIn r c = some (result, r')) : r'.remaining = r.remaining ∧ r'.state ≠ .body := by
  obtain ⟨state, remaining, raw, method, uri, path, version, headers, body⟩ := r
  rw [consumeIn.eq_def] at h
  cases state with
  | expectingNewline3 => exact absurd rfl hnewline
  | body => exact absurd rfl hbody
  | uri =>
    simp only at h
    split_ifs at h
    · obtain ⟨path', -, h⟩ := Option.bind_eq_some_iff.mp h
      obtain ⟨-, rfl⟩ := Prod.mk.inj (Option.some.inj h)
      exact ⟨rfl, by simp⟩
    · obtain ⟨-, rfl⟩ := Prod.mk.inj (Option.some.inj h)
      exact ⟨rfl, by simp⟩
    · obtain ⟨-, rfl⟩ := Prod.mk.inj (Option.some.inj h)
      exact ⟨rfl, by simp⟩
  | headerLineStart | headerLws | headerName | headerValue =>
    simp only at h
    split_ifs at h
    all_goals first
      | obtain ⟨-, rfl⟩ := Prod.mk.inj (Option.some.inj h)
        exact ⟨rfl, by simp⟩
      | obtain ⟨headers', -, h⟩ := Option.bind_eq_some_iff.mp h
        obtain ⟨-, rfl⟩ := Prod.mk.inj (Option.some.inj h)
        exact ⟨rfl, by simp⟩
  | _ =>
    simp only [expectVersion, expectNewline] at h
    split_ifs at h
    all_goals
      obtain ⟨-, rfl⟩ := Prod.mk.inj (Option.some.inj h)
      exact ⟨rfl, by simp⟩

/-- What one byte does to the counter: it keeps counting, or a complete request has counted it down. -/
def CountingStep : Request ⊕ Stop → Prop
  | .inl r => Counting r
  | .inr .undefined => True
  | .inr (.good r) => r.remaining = 0
  | .inr (.bad r) => r.remaining = 0

theorem countingStep_of_idle {r' : Request} {result : Result} (hremaining : r'.remaining = 0)
    (hstate : r'.state ≠ .body) : CountingStep (classify (some (result, r'))) := by
  cases result with
  | good => exact hremaining
  | bad => exact hremaining
  | indeterminate =>
    show Counting r'
    rw [Counting, if_neg hstate]
    exact hremaining

/-- The end of the headers starts the counter with the length of the body. -/
theorem countingStep_endOfHeaders {r : Request} (hstate : r.state = .expectingNewline3)
    (hremaining : r.remaining = 0) (c : Byte) : CountingStep (classify (consumeIn r c)) := by
  by_cases hc : c = byte '\n'
  swap
  · have hbad : consumeIn r c = some (.bad, r) := by
      rw [consumeIn.eq_def, hstate]
      exact if_neg hc
    rw [hbad]
    exact hremaining
  subst hc
  rw [consumeIn_endOfHeaders hstate]
  cases hlength : stoull (headerValue r.headers (bytes "Content-Length")) with
  | error e => exact hremaining
  | ok n =>
    show CountingStep (classify (if n > 0 then _ else _))
    split_ifs with hn
    · show Counting { r with remaining := n, state := .body }
      rw [Counting, if_pos rfl]
      exact ⟨hn, stoull_lt hlength⟩
    · exact Nat.le_zero.mp (not_lt.mp hn)

theorem countingStep_body {r : Request} (hstate : r.state = .body) (hpos : 0 < r.remaining)
    (hlt : r.remaining < 2 ^ 64) (c : Byte) : CountingStep (classify (consumeIn r c)) := by
  have hdec : (r.remaining + (2 ^ 64 - 1)) % 2 ^ 64 = r.remaining - 1 := by omega
  rw [consumeIn.eq_def, hstate]
  simp only [hdec]
  split_ifs with hmore
  · show Counting _
    rw [Counting, if_pos rfl]
    exact ⟨hmore, by show r.remaining - 1 < 2 ^ 64; omega⟩
  · exact Nat.le_zero.mp (not_lt.mp hmore)

/-- **One byte keeps the counter right.** -/
theorem countingStep_absorb {r : Request} (hr : Counting r) (c : Byte) : CountingStep (absorb r c) := by
  rw [absorb, consume]
  have hr : Counting { r with rawRequest := r.rawRequest ++ [c] } := hr
  generalize { r with rawRequest := r.rawRequest ++ [c] } = r at hr ⊢
  by_cases hbody : r.state = .body
  · rw [Counting, if_pos hbody] at hr
    exact countingStep_body hbody hr.1 hr.2 c
  rw [Counting, if_neg hbody] at hr
  by_cases hnewline : r.state = .expectingNewline3
  · exact countingStep_endOfHeaders hnewline hr c
  cases hstep : consumeIn r c with
  | none => exact trivial
  | some p =>
    obtain ⟨result, r'⟩ := p
    obtain ⟨hremaining, hstate⟩ := consumeIn_remaining hnewline hbody hstep
    exact countingStep_of_idle (hremaining.trans hr) hstate

theorem counting_feed (s : Bytes) : ∀ {r : Request}, Counting r → CountingStep (verdict (feed absorb r s)) := by
  induction s with
  | nil => exact fun hr => hr
  | cons c s ih =>
    intro r hr
    have hstep := countingStep_absorb hr c
    rw [feed]
    cases hc : absorb r c with
    | inl r' =>
      rw [hc] at hstep
      exact ih hstep
    | inr stop =>
      rw [hc] at hstep
      exact hstep

/-! ### No leakage -/

/-- A reset object is a new one when the counter is at zero. -/
theorem reset_eq_fresh {r : Request} (h : r.remaining = 0) : r.reset = Request.fresh := by
  rw [Request.reset, h]
  rfl

/-- What a call leaves behind: a reset object after a verdict. -/
theorem parse_localRequest {t t' : ThreadState} {s : Bytes} {request : Option Request}
    (ht : Counting t.localRequest) (h : parse t s = some (t', request)) :
    Counting t'.localRequest ∧
      (getParseResult t' = .good ∨ getParseResult t' = .bad → t'.localRequest = Request.fresh) := by
  have hfeed := counting_feed s ht
  have hverdict {r : Request} (hr : r.remaining = 0) : Counting r.reset ∧ r.reset = Request.fresh := by
    rw [reset_eq_fresh hr]
    exact ⟨counting_fresh, rfl⟩
  rcases parse_eq_some_iff.mp h with ⟨r, hf, rfl, -⟩ | ⟨r, rest, hf, rfl, -⟩ | ⟨r, rest, hf, rfl, -⟩
  · rw [hf] at hfeed
    exact ⟨hfeed, fun h => by rcases h with h | h <;> cases h⟩
  · rw [Stops] at hf
    rw [hf] at hfeed
    exact ⟨(hverdict hfeed).1, fun _ => (hverdict hfeed).2⟩
  · rw [Stops] at hf
    rw [hf] at hfeed
    exact ⟨(hverdict hfeed).1, fun _ => (hverdict hfeed).2⟩

/-- After a verdict, a thread is as good as new. -/
theorem localRequest_of_verdict {calls : List Bytes} :
    ∀ {t t' : ThreadState} {seen : List (Result × Option Request)}, Counting t.localRequest →
      parseCalls t calls = some (t', seen) → calls ≠ [] →
      (getParseResult t' = .good ∨ getParseResult t' = .bad) → t'.localRequest = Request.fresh := by
  induction calls with
  | nil => exact fun _ _ hne => absurd rfl hne
  | cons s calls ih =>
    intro t t' seen ht h _ hlast
    obtain ⟨⟨t₁, request⟩, hparse, h⟩ := Option.bind_eq_some_iff.mp h
    obtain ⟨⟨t₂, seen₂⟩, hcalls, h⟩ := Option.bind_eq_some_iff.mp h
    obtain ⟨rfl, -⟩ := Prod.mk.inj (Option.some.inj h)
    have hone := parse_localRequest ht hparse
    cases calls with
    | nil =>
      obtain ⟨rfl, -⟩ := Prod.mk.inj (Option.some.inj hcalls)
      exact hone.2 hlast
    | cons s' calls => exact ih hone.1 hcalls (List.cons_ne_nil _ _) hlast

/-- **No leakage from one request to the next.**  After calls whose last result is good or bad, all further
calls give back what they give back on a fresh thread. -/
theorem parse_no_leakage {calls : List Bytes} {t : ThreadState} {seen : List (Result × Option Request)}
    (h : parseCalls ThreadState.fresh calls = some (t, seen))
    (hlast : getParseResult t = .good ∨ getParseResult t = .bad) (later : List Bytes) :
    (parseCalls t later).map Prod.snd = (parseCalls ThreadState.fresh later).map Prod.snd := by
  have hne : calls ≠ [] := by
    intro hnil
    subst hnil
    obtain ⟨rfl, -⟩ := Prod.mk.inj (Option.some.inj h)
    rcases hlast with hlast | hlast
    · cases hlast
    · cases hlast
  exact parseCalls_congr (localRequest_of_verdict counting_fresh h hne hlast) later

/-- A bad request, and then a good one in two pieces. -/
theorem parse_no_leakage_bad :
    (parseCalls ⟨.bad, Request.fresh⟩ [bytes "GET / HT", bytes "TP/1.0\r\n\r\n"]).map Prod.snd =
      (parseCalls ThreadState.fresh [bytes "GET / HT", bytes "TP/1.0\r\n\r\n"]).map Prod.snd := by
  have h : parseCalls ThreadState.fresh [bytes "G?"] = some (⟨.bad, Request.fresh⟩, [(.bad, none)]) := by decide
  exact parse_no_leakage h (.inr rfl) _

/-! ### Accesses without a check -/

/-- A place where the parser reads or counts without a check. -/
inductive Access where
  | headersBack (headers : Headers)
  | pathLast (path : Bytes)
  | uriAt (uri : Bytes) (i : ℕ)
  | uriSubstr (uri : Bytes) (start : ℕ)
  | decrement (remaining : ℕ)

/-- The access stays within its data. -/
def Access.InRange : Access → Prop
  | .headersBack headers => headers ≠ []
  | .pathLast path => path ≠ []
  | .uriAt uri i => i < uri.length
  | .uriSubstr uri start => start ≤ uri.length
  | .decrement remaining => 0 < remaining

/-- One turn of the decoding loop, at the index `i`. -/
def turnAccesses (uri : Bytes) (i : ℕ) : List Access :=
  if i < uri.length then
    .uriAt uri i ::
      if uri[i]? = some (byte '%') ∧ i + 3 ≤ uri.length then [.uriSubstr uri (i + 1)] else []
  else []

/-- The turns of the decoding loop. -/
def loopAccesses (uri : Bytes) : ℕ → ℕ × Bytes → List Access
  | 0, _ => []
  | fuel + 1, s =>
    turnAccesses uri s.1 ++
      match pathBody uri s with
      | .inl s' => loopAccesses uri fuel s'
      | .inr _ => []

/-- The last byte of the path is looked at unless the path has been cleared. -/
def lastAccess (decoded : Option (Option Bytes)) : List Access :=
  match decoded with
  | some (some path) => if find (bytes "..") path ≠ npos then [] else [.pathLast path]
  | _ => []

/-- What one call of `Consume` accesses. -/
def accesses (r : Request) (input : Byte) : List Access :=
  match r.state with
  | .uri =>
    if input = byte ' ' then
      loopAccesses r.uri (r.uri.length + 1) (0, r.path) ++ lastAccess (decodeUri r.uri r.path)
    else []
  | .headerLineStart =>
    if input = byte '\r' then []
    else if r.headers ≠ [] ∧ (input = byte ' ' ∨ input = byte '\t') then []
    else if notTokenChar input then []
    else [.headersBack (r.headers ++ [([], [])])]
  | .headerLws =>
    if input = byte '\r' then []
    else if input = byte ' ' ∨ input = byte '\t' then []
    else if isCtl (charToInt input) then []
    else [.headersBack r.headers]
  | .headerName =>
    if input = byte ':' then []
    else if notTokenChar input then []
    else [.headersBack r.headers]
  | .headerValue =>
    if input = byte '\r' then []
    else if isCtl (charToInt input) then []
    else [.headersBack r.headers]
  | .body => [.decrement r.remaining]
  | _ => []

/-- The byte ends a URI without a byte. -/
def EndsEmptyUri (r : Request) (input : Byte) : Prop := r.state = .uri ∧ r.uri = [] ∧ input = byte ' '

/-- The loop checks its index before it uses it. -/
theorem turnAccesses_inRange (uri : Bytes) (i : ℕ) : ∀ a ∈ turnAccesses uri i, a.InRange := by
  intro a ha
  rw [turnAccesses] at ha
  split_ifs at ha with hlt hescape
  · rcases List.mem_cons.mp ha with rfl | ha
    · exact hlt
    · rw [List.mem_singleton.mp ha]
      show i + 1 ≤ uri.length
      omega
  · rw [List.mem_singleton.mp ha]
    exact hlt
  · cases ha

theorem loopAccesses_inRange (uri : Bytes) (fuel : ℕ) : ∀ s, ∀ a ∈ loopAccesses uri fuel s, a.InRange := by
  induction fuel with
  | zero =>
    intro s a ha
    cases ha
  | succ fuel ih =>
    intro s a ha
    rw [loopAccesses] at ha
    rcases List.mem_append.mp ha with ha | ha
    · exact turnAccesses_inRange uri s.1 a ha
    · cases hbody : pathBody uri s with
      | inl s' =>
        rw [hbody] at ha
        exact ih s' a ha
      | inr r =>
        rw [hbody] at ha
        cases ha

/-- A URI that is not empty is decoded to a path that is not empty. -/
theorem lastAccess_inRange_iff (uri : Bytes) :
    (∀ a ∈ lastAccess (decodeUri uri []), a.InRange) ↔ uri ≠ [] := by
  constructor
  · rintro h rfl
    have hempty : Access.pathLast [] ∈ lastAccess (decodeUri [] []) := by
      rw [decodeUri_eq]
      exact List.mem_singleton.mpr rfl
    exact h _ hempty rfl
  · intro huri a ha
    rw [decodeUri_eq] at ha
    cases hdecoded : percentDecode uri with
    | none =>
      rw [hdecoded] at ha
      cases ha
    | some path =>
      rw [hdecoded, lastAccess] at ha
      split_ifs at ha
      · cases ha
      · rw [List.mem_singleton.mp ha]
        exact percentDecode_ne_nil huri hdecoded

/-- **One byte.**  On a sound object everything is in range, except at the end of an empty URI. -/
theorem accesses_inRange_iff {r : Request} (hsound : Sound r) (hcount : Counting r) (c : Byte) :
    (∀ a ∈ accesses r c, a.InRange) ↔ ¬ EndsEmptyUri r c := by
  have hback : ∀ headers : Headers, headers ≠ [] → ∀ a ∈ [Access.headersBack headers], a.InRange := by
    intro headers hne a ha
    rw [List.mem_singleton.mp ha]
    exact hne
  have hnone : ∀ a ∈ ([] : List Access), a.InRange := by simp
  by_cases huri : r.state = .uri
  · have hpath : r.path = [] := by
      rw [Sound, huri] at hsound
      exact hsound.2.2.2
    rw [accesses, huri, hpath]
    by_cases hc : c = byte ' '
    · simp only [if_pos hc, List.forall_mem_append, lastAccess_inRange_iff]
      rw [and_iff_right (loopAccesses_inRange _ _ _)]
      exact ⟨fun hne h => hne h.2.1, fun h hnil => h ⟨huri, hnil, hc⟩⟩
    · simp only [if_neg hc]
      exact iff_of_true hnone fun h => hc h.2.2
  · refine iff_of_true ?_ fun h => huri h.1
    rw [accesses]
    cases hstate : r.state with
    | uri => exact absurd hstate huri
    | headerLineStart =>
      simp only
      split_ifs
      · exact hnone
      · exact hnone
      · exact hnone
      · exact hback _ (List.append_ne_nil_of_right_ne_nil _ (List.cons_ne_nil _ _))
    | headerLws | headerName | headerValue =>
      rw [Sound, hstate] at hsound
      simp only
      split_ifs
      all_goals first | exact hnone | exact hback _ hsound
    | body =>
      rw [Counting, if_pos hstate] at hcount
      intro a ha
      rw [List.mem_singleton.mp ha]
      exact hcount.1
    | _ => exact hnone

/-! ### Runs -/

/-- In a call of `Parse` that starts with the object `r`, `Consume` is called on `r'` with the byte `c`. -/
inductive Consumes : Request → Bytes → Request → Byte → Prop
  | first (r : Request) (c : Byte) (s : Bytes) : Consumes r (c :: s) r c
  | next {r r₁ r' : Request} {b c : Byte} {s : Bytes} (step : consume r b = some (.indeterminate, r₁))
      (later : Consumes r₁ s r' c) : Consumes r (b :: s) r' c

/-- The same in a sequence of calls. -/
inductive Evaluates : ThreadState → List Bytes → Request → Byte → Prop
  | first {t : ThreadState} {s : Bytes} {r : Request} {c : Byte} (calls : List Bytes)
      (consumes : Consumes t.localRequest s r c) : Evaluates t (s :: calls) r c
  | next {t t' : ThreadState} {s : Bytes} {calls : List Bytes} {request : Option Request} {r : Request} {c : Byte}
      (call : parse t s = some (t', request)) (later : Evaluates t' calls r c) : Evaluates t (s :: calls) r c

theorem Consumes.sound {r r' : Request} {s : Bytes} {c : Byte} (h : Consumes r s r' c) :
    Sound r → Counting r → Sound r' ∧ Counting r' := by
  induction h with
  | first r c s => exact fun hsound hcount => ⟨hsound, hcount⟩
  | @next r r₁ r' b c s step later ih =>
    intro hsound hcount
    have hinl : absorb r b = .inl r₁ := by
      rw [absorb, step]
      rfl
    have h₁ := soundStep_absorb hsound b
    have h₂ := countingStep_absorb hcount b
    rw [hinl] at h₁ h₂
    exact ih h₁.1 h₂

theorem sound_feed {s : Bytes} {r r' : Request} (hr : Sound r) (h : feed absorb r s = .inl r') : Sound r' := by
  refine feed_invariant ?_ s hr h
  intro r c r' hr hc
  have hstep := soundStep_absorb hr c
  rw [hc] at hstep
  exact hstep.1

theorem sound_parse {t t' : ThreadState} {s : Bytes} {request : Option Request} (hsound : Sound t.localRequest)
    (hcount : Counting t.localRequest) (h : parse t s = some (t', request)) : Sound t'.localRequest := by
  have hlocal := (parse_localRequest hcount h).2
  rcases parse_eq_some_iff.mp h with ⟨r, hf, rfl, -⟩ | ⟨r, rest, -, rfl, -⟩ | ⟨r, rest, -, rfl, -⟩
  · exact sound_feed hsound hf
  · rw [hlocal (.inl rfl)]
    exact sound_fresh
  · rw [hlocal (.inr rfl)]
    exact sound_fresh

theorem Evaluates.sound {t : ThreadState} {calls : List Bytes} {r : Request} {c : Byte}
    (h : Evaluates t calls r c) : Sound t.localRequest → Counting t.localRequest → Sound r ∧ Counting r := by
  induction h with
  | first calls consumes => exact consumes.sound
  | next call later ih => exact fun hsound hcount => ih (sound_parse hsound hcount call) (parse_localRequest hcount call).1

/-- **The parser stays within its data.**  In every sequence of calls on a thread, all accesses of all calls
of `Consume` are in range if and only if no URI without a byte is ended. -/
theorem parse_accesses_inRange_iff (calls : List Bytes) :
    (∀ r c, Evaluates ThreadState.fresh calls r c → ∀ a ∈ accesses r c, a.InRange) ↔
      ∀ r c, Evaluates ThreadState.fresh calls r c → ¬ EndsEmptyUri r c := by
  refine forall₂_congr fun r c => forall_congr' fun h => ?_
  obtain ⟨hsound, hcount⟩ := h.sound sound_fresh counting_fresh
  exact accesses_inRange_iff hsound hcount c

/-- Two spaces behind the method: the last byte of an empty path is looked at. -/
theorem parse_access_outOfRange :
    ∃ calls r c a, Evaluates ThreadState.fresh calls r c ∧ a ∈ accesses r c ∧ ¬ a.InRange := by
  have hM : consume Request.fresh (byte 'G') = some (.indeterminate, early .method (bytes "G") (bytes "G") []) := by
    decide
  have hU : consume (early .method (bytes "G") (bytes "G") []) (byte ' ') =
      some (.indeterminate, early .uri (bytes "G ") (bytes "G") []) := by decide
  refine ⟨[bytes "G  "], early .uri (bytes "G ") (bytes "G") [], byte ' ', .pathLast [],
    .first [] (.next hM (.next hU (.first _ _ _))), ?_, fun h => h rfl⟩
  show Access.pathLast [] ∈ loopAccesses [] 1 (0, []) ++ lastAccess (decodeUri [] [])
  rw [decodeUri_eq]
  exact List.mem_singleton.mpr rfl

end Webserver.Http
