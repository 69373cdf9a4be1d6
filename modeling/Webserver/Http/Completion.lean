import Webserver.Http.ParserCalls

/-!
# Completing a request

The parser is never in a dead end: from every object that it goes on with there is a way to a complete
request.  `nextByte` is the first byte of the shortest way, and `distance` measures what is left of it; the
bytes of a body count less than any state in front of the body, since the end of the headers can start the
counter anywhere below `2 ^ 64`.

* `nearer_nextByte` — one byte makes the distance smaller, or completes the request.
* `exists_good_of_indeterminate` — an indeterminate input can be continued to a good one.
* `bad_of_prefix` — an input that continues a bad one is bad.
-/

namespace Webserver.Http

open ByteString CxxString IncrementalMachine Numeral

/-- How far a state is from the body. -/
def State.distance : State → ℕ
  | .body => 0
  | .expectingNewline3 => 1
  | .headerLineStart => 2
  | .expectingNewline2 => 3
  | .headerValue => 4
  | .headerLws => 4
  | .spaceBeforeHeaderValue => 5
  | .headerName => 6
  | .expectingNewline1 => 3
  | .httpVersionMinor => 4
  | .httpVersionMinorStart => 5
  | .httpVersionMajor => 6
  | .httpVersionMajorStart => 7
  | .httpVersionSlash => 8
  | .httpVersionP => 9
  | .httpVersionT2 => 10
  | .httpVersionT1 => 11
  | .httpVersionH => 12
  | .uri => 13
  | .method => 15
  | .methodStart => 16

/-- What is missing of a complete request. -/
def distance (r : Request) : ℕ :=
  match r.state with
  | .body => r.remaining
  | .uri => 2 ^ 64 + (State.distance .uri + if r.uri = [] then 1 else 0)
  | state => 2 ^ 64 + state.distance

/-- The byte to send next. -/
def nextByte (r : Request) : Byte :=
  match r.state with
  | .methodStart => byte 'G'
  | .method => byte ' '
  | .uri => if r.uri = [] then byte '/' else byte ' '
  | .httpVersionH => byte 'H'
  | .httpVersionT1 => byte 'T'
  | .httpVersionT2 => byte 'T'
  | .httpVersionP => byte 'P'
  | .httpVersionSlash => byte '/'
  | .httpVersionMajorStart => byte '1'
  | .httpVersionMajor => byte '.'
  | .httpVersionMinorStart => byte '0'
  | .httpVersionMinor => byte '\r'
  | .expectingNewline1 => byte '\n'
  | .headerLineStart => byte '\r'
  | .headerLws => byte '\r'
  | .headerName => byte ':'
  | .spaceBeforeHeaderValue => byte ' '
  | .headerValue => byte '\r'
  | .expectingNewline2 => byte '\n'
  | .expectingNewline3 => byte '\n'
  | .body => byte ' '

/-- This byte brings the parser nearer to a complete request, or completes it. -/
def Nearer (r : Request) (c : Byte) : Prop :=
  (∃ r', absorb r c = .inl r' ∧ distance r' < distance r) ∨ ∃ r', absorb r c = .inr (.good r')

theorem nearer_body {r : Request} (hstate : r.state = .body) (hcount : Counting r) (c : Byte) : Nearer r c := by
  obtain ⟨state, remaining, raw, method, uri, path, version, headers, body⟩ := r
  obtain rfl : state = .body := hstate
  rw [Counting, if_pos rfl] at hcount
  have hpos : 0 < remaining := hcount.1
  have hdec : (remaining + (2 ^ 64 - 1)) % 2 ^ 64 = remaining - 1 := by
    have hlt : remaining < 2 ^ 64 := hcount.2
    omega
  rw [Nearer, absorb, consume, consumeIn.eq_def]
  simp only [hdec]
  split_ifs with hmore
  · refine .inl ⟨_, rfl, ?_⟩
    show remaining - 1 < remaining
    omega
  · exact .inr ⟨_, rfl⟩

/-- The end of the headers: there is no body, or the counter starts below `2 ^ 64`. -/
theorem nearer_expectingNewline3 {r : Request} (hstate : r.state = .expectingNewline3) :
    Nearer r (byte '\n') := by
  have hstep : consume r (byte '\n') = _ := consumeIn_endOfHeaders hstate
  rw [Nearer, absorb, hstep]
  cases hlength : stoull (headerValue r.headers (bytes "Content-Length")) with
  | error e => exact .inr ⟨_, rfl⟩
  | ok n =>
    simp only
    split_ifs
    · refine .inl ⟨_, rfl, ?_⟩
      show n < distance r
      rw [distance, hstate]
      exact (stoull_lt hlength).trans (Nat.lt_succ_self _)
    · exact .inr ⟨_, rfl⟩

/-- A URI gets one byte if it has none, and then ends. -/
theorem nearer_uri {r : Request} (hstate : r.state = .uri) (hsound : Sound r) : Nearer r (nextByte r) := by
  obtain ⟨state, remaining, raw, method, uri, path, version, headers, body⟩ := r
  obtain rfl : state = .uri := hstate
  obtain rfl : path = [] := hsound.2.2.2
  rcases eq_or_ne uri [] with rfl | huri
  · refine .inl ⟨_, rfl, ?_⟩
    show 2 ^ 64 + (13 + 0) < 2 ^ 64 + (13 + 1)
    omega
  · rw [Nearer, nextByte, if_neg huri, absorb, consume, consumeIn.eq_def]
    simp only [inferPath_eq_some huri]
    refine .inl ⟨_, rfl, ?_⟩
    show 2 ^ 64 + 12 < 2 ^ 64 + (13 + if uri = [] then 1 else 0)
    omega

/-- One byte from one state to the next. -/
theorem nearer_of_inl {r r' : Request} {c : Byte} (state state' : State) (hstate : r.state = state)
    (h : absorb r c = .inl r') (hstate' : r'.state = state')
    (hlt : state ≠ .body ∧ state' ≠ .body ∧ state' ≠ .uri ∧ state'.distance < state.distance) :
    Nearer r c := by
  obtain ⟨hbody, hbody', huri', hlt⟩ := hlt
  refine .inl ⟨r', h, ?_⟩
  have hafter : distance r' = 2 ^ 64 + state'.distance := by
    rw [distance, hstate']
    cases state' with
    | body => exact absurd rfl hbody'
    | uri => exact absurd rfl huri'
    | _ => rfl
  have hbefore : 2 ^ 64 + state.distance ≤ distance r := by
    rw [distance, hstate]
    cases state with
    | body => exact absurd rfl hbody
    | uri => exact Nat.add_le_add_left (Nat.le_add_right _ _) _
    | _ => exact le_rfl
  omega

/-- **There is always a byte that leads on.** -/
theorem nearer_nextByte {r : Request} (hsound : Sound r) (hcount : Counting r) : Nearer r (nextByte r) := by
  obtain ⟨state, remaining, raw, method, uri, path, version, headers, body⟩ := r
  cases state with
  | body => exact nearer_body rfl hcount _
  | expectingNewline3 => exact nearer_expectingNewline3 rfl
  | uri => exact nearer_uri rfl hsound
  | method =>
    obtain rfl : uri = [] := hsound.2.2.2.1
    refine .inl ⟨_, rfl, ?_⟩
    show 2 ^ 64 + (13 + 1) < 2 ^ 64 + 15
    omega
  | methodStart => exact nearer_of_inl .methodStart .method rfl rfl rfl (by decide)
  | httpVersionH => exact nearer_of_inl .httpVersionH .httpVersionT1 rfl rfl rfl (by decide)
  | httpVersionT1 => exact nearer_of_inl .httpVersionT1 .httpVersionT2 rfl rfl rfl (by decide)
  | httpVersionT2 => exact nearer_of_inl .httpVersionT2 .httpVersionP rfl rfl rfl (by decide)
  | httpVersionP => exact nearer_of_inl .httpVersionP .httpVersionSlash rfl rfl rfl (by decide)
  | httpVersionSlash => exact nearer_of_inl .httpVersionSlash .httpVersionMajorStart rfl rfl rfl (by decide)
  | httpVersionMajorStart =>
    exact nearer_of_inl .httpVersionMajorStart .httpVersionMajor rfl rfl rfl (by decide)
  | httpVersionMajor => exact nearer_of_inl .httpVersionMajor .httpVersionMinorStart rfl rfl rfl (by decide)
  | httpVersionMinorStart =>
    exact nearer_of_inl .httpVersionMinorStart .httpVersionMinor rfl rfl rfl (by decide)
  | httpVersionMinor => exact nearer_of_inl .httpVersionMinor .expectingNewline1 rfl rfl rfl (by decide)
  | expectingNewline1 => exact nearer_of_inl .expectingNewline1 .headerLineStart rfl rfl rfl (by decide)
  | headerLineStart => exact nearer_of_inl .headerLineStart .expectingNewline3 rfl rfl rfl (by decide)
  | headerLws => exact nearer_of_inl .headerLws .expectingNewline2 rfl rfl rfl (by decide)
  | headerName => exact nearer_of_inl .headerName .spaceBeforeHeaderValue rfl rfl rfl (by decide)
  | spaceBeforeHeaderValue =>
    exact nearer_of_inl .spaceBeforeHeaderValue .headerValue rfl rfl rfl (by decide)
  | headerValue => exact nearer_of_inl .headerValue .expectingNewline2 rfl rfl rfl (by decide)
  | expectingNewline2 => exact nearer_of_inl .expectingNewline2 .headerLineStart rfl rfl rfl (by decide)

/-- **Every request that has been begun can be completed.** -/
theorem exists_stops_good {r : Request} (hsound : Sound r) (hcount : Counting r) :
    ∃ xs r', Stops absorb r xs (.good r') [] := by
  have hstep : ∀ r, Sound r ∧ Counting r → ∃ c,
      (∃ r', absorb r c = .inl r' ∧ (Sound r' ∧ Counting r') ∧ distance r' < distance r) ∨
        ∃ stop, absorb r c = .inr stop ∧ ∃ r', stop = .good r' := by
    intro r hr
    refine ⟨nextByte r, ?_⟩
    rcases nearer_nextByte hr.1 hr.2 with hnearer | hgood
    · obtain ⟨r', hr', hlt⟩ := hnearer
      have hsound' := soundStep_absorb hr.1 (nextByte r)
      have hcount' := countingStep_absorb hr.2 (nextByte r)
      rw [hr'] at hsound' hcount'
      exact .inl ⟨r', hr', ⟨hsound'.1, hcount'⟩, hlt⟩
    · obtain ⟨r', hr'⟩ := hgood
      exact .inr ⟨_, hr', r', rfl⟩
  obtain ⟨xs, stop, hstop, r', rfl⟩ := exists_stops_of_measure distance hstep ⟨hsound, hcount⟩
  exact ⟨xs, r', hstop⟩

/-! ### The answers of `Parse` -/

/-- What `GetParseResult` is after a call of `Parse` on a fresh thread. -/
def parseResult (s : Bytes) : Option Result := (parse ThreadState.fresh s).map fun p => getParseResult p.1

theorem parseResult_eq_some_iff {s : Bytes} {result : Result} :
    parseResult s = some result ↔
      ∃ t request, parse ThreadState.fresh s = some (t, request) ∧ getParseResult t = result := by
  rw [parseResult, Option.map_eq_some_iff, Prod.exists]

theorem parseResult_indeterminate_iff {s : Bytes} :
    parseResult s = some .indeterminate ↔ ∃ r, feed absorb Request.fresh s = .inl r := by
  rw [parseResult_eq_some_iff]
  constructor
  · intro h
    obtain ⟨t, request, hparse, hresult⟩ := h
    rcases parse_eq_some_iff.mp hparse with ⟨r, hf, -, -⟩ | ⟨r, rest, -, rfl, -⟩ | ⟨r, rest, -, rfl, -⟩
    · exact ⟨r, hf⟩
    · cases hresult
    · cases hresult
  · intro h
    obtain ⟨r, hf⟩ := h
    exact ⟨_, none, parse_eq_some_iff.mpr (.inl ⟨r, hf, rfl, rfl⟩), rfl⟩

theorem parseResult_bad_iff {s : Bytes} :
    parseResult s = some .bad ↔ ∃ r rest, Stops absorb Request.fresh s (.bad r) rest := by
  rw [parseResult_eq_some_iff]
  constructor
  · intro h
    obtain ⟨t, request, hparse, hresult⟩ := h
    rcases parse_eq_some_iff.mp hparse with ⟨r, -, rfl, -⟩ | ⟨r, rest, -, rfl, -⟩ | ⟨r, rest, hf, -, -⟩
    · cases hresult
    · cases hresult
    · exact ⟨r, rest, hf⟩
  · intro h
    obtain ⟨r, rest, hf⟩ := h
    exact ⟨_, none, parse_eq_some_iff.mpr (.inr (.inr ⟨r, rest, hf, rfl, rfl⟩)), rfl⟩

theorem parseResult_good_of_stops {s rest : Bytes} {r : Request}
    (h : Stops absorb Request.fresh s (.good r) rest) : parseResult s = some .good :=
  parseResult_eq_some_iff.mpr ⟨_, some r, parse_eq_some_iff.mpr (.inr (.inl ⟨r, rest, h, rfl, rfl⟩)), rfl⟩

/-- **An indeterminate input can be completed.** -/
theorem exists_good_of_indeterminate {s : Bytes} (h : parseResult s = some .indeterminate) :
    ∃ t r, Stops absorb Request.fresh (s ++ t) (.good r) [] := by
  obtain ⟨r, hr⟩ := parseResult_indeterminate_iff.mp h
  have hcount := counting_feed s counting_fresh
  rw [hr] at hcount
  obtain ⟨t, r', hstop⟩ := exists_stops_good (sound_feed sound_fresh hr) hcount
  refine ⟨t, r', ?_⟩
  rw [Stops, feed_append, hr]
  exact hstop

/-- **A bad input stays bad** however it goes on. -/
theorem bad_of_prefix {s u : Bytes} (h : parseResult s = some .bad) (hu : s <+: u) :
    parseResult u = some .bad := by
  obtain ⟨more, rfl⟩ := hu
  obtain ⟨r, rest, hstop⟩ := parseResult_bad_iff.mp h
  exact parseResult_bad_iff.mpr ⟨r, rest ++ more, hstop.append more⟩

/-- The byte `b` behind `p` decides the answer to `s`. -/
def DecidedBy (s p : Bytes) (b : Byte) : Prop :=
  p ++ [b] <+: s ∧ parseResult p = some .indeterminate ∧ parseResult (p ++ [b]) = parseResult s

/-- Some byte decides that an input is bad. -/
theorem exists_decidedBy {s : Bytes} (h : parseResult s = some .bad) : ∃ p b, DecidedBy s p b := by
  obtain ⟨r, rest, hstop⟩ := parseResult_bad_iff.mp h
  obtain ⟨p, b, r', rfl, hfeed, hbad⟩ := hstop.exists_decisive
  refine ⟨p, b, ⟨rest, by rw [List.append_assoc]; rfl⟩, parseResult_indeterminate_iff.mpr ⟨r', hfeed⟩, ?_⟩
  rw [h]
  apply parseResult_bad_iff.mpr
  refine ⟨r, [], ?_⟩
  rw [Stops, feed_append, hfeed]
  exact (stops_cons_of_inr hbad [] _ []).mpr ⟨rfl, rfl⟩

end Webserver.Http
