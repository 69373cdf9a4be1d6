import Webserver.Http.Completion
import Webserver.Server.Session

/-!
# Rejection at the first hopeless byte

A session goes on reading while the parser answers indeterminate.  `Http.Completion` shows that such an
answer always leaves a way to a good request, and that the byte that decides for bad is the last one that
matters.  So the session reads no request that can no longer become valid.
-/

namespace Webserver.Server

open ByteString Http IncrementalMachine

section Session

variable {η : Type*} (handle : η → Request → Status × Response) (handlers : HandlerMap η) (beyondCrlf : Bytes)

/-- A stream comes in reads of one byte. -/
theorem exists_reads (s : Bytes) : ∃ reads, stream reads = s := by
  refine ⟨s.map fun b => ⟨[b], List.cons_ne_nil _ _, Nat.succ_le_succ (Nat.zero_le _)⟩, ?_⟩
  rw [stream, List.map_map]
  induction s with
  | nil => rfl
  | cons b s ih =>
    rw [List.map_cons, List.flatten_cons, ih]
    rfl

theorem stream_append (reads more : List Read) : stream (reads ++ more) = stream reads ++ stream more := by
  rw [stream, List.map_append, List.flatten_append]
  rfl

/-- **A session that is still reading can be served.** -/
theorem exists_served (o : Outcome) {reads : List Read} (h : parseResult (stream reads) = some .indeterminate) :
    ∃ more request, parse ThreadState.fresh (stream (reads ++ more)) = some (⟨.good, request.reset⟩, some request) ∧
      session handle handlers beyondCrlf o (reads ++ more) = serve handle handlers beyondCrlf request o := by
  obtain ⟨t, request, hstop⟩ := exists_good_of_indeterminate h
  obtain ⟨more, rfl⟩ := exists_reads t
  rw [← stream_append] at hstop
  refine ⟨more, request, (parse_good_iff_stops _ _ _ _).mpr ⟨rfl, [], hstop⟩, ?_⟩
  rw [Stops] at hstop
  rw [session_eq_answer, hstop]
  rfl

/-- **The parser rejects at the first hopeless byte.**  Every input that is answered indeterminate has a
continuation that is answered good.  Every input that is answered bad is decided by a byte, and no input that
begins with the bytes up to and including that one is answered good.  A session that is still reading will
serve a request, if the right bytes come. -/
theorem rejects_first_hopeless_byte :
    (∀ s, parseResult s = some .indeterminate → ∃ t, parseResult (s ++ t) = some .good) ∧
      (∀ s, parseResult s = some .bad → (∃ p b, DecidedBy s p b) ∧
        ∀ p b, DecidedBy s p b → ∀ u, p ++ [b] <+: u → parseResult u ≠ some .good) ∧
      ∀ (o : Outcome) (reads : List Read), parseResult (stream reads) = some .indeterminate →
        ∃ more request,
          parse ThreadState.fresh (stream (reads ++ more)) = some (⟨.good, request.reset⟩, some request) ∧
            session handle handlers beyondCrlf o (reads ++ more) =
              serve handle handlers beyondCrlf request o := by
  refine ⟨?_, ?_, fun o reads h => exists_served handle handlers beyondCrlf o h⟩
  · intro s h
    obtain ⟨t, r, hstop⟩ := exists_good_of_indeterminate h
    exact ⟨t, parseResult_good_of_stops hstop⟩
  · intro s h
    refine ⟨exists_decidedBy h, ?_⟩
    intro p b hdecided u hu hgood
    have hbad : parseResult u = some .bad := bad_of_prefix (hdecided.2.2.trans h) hu
    rw [hgood] at hbad
    cases hbad

end Session

/-- The fourth letter of the version is the first that cannot be. -/
example : DecidedBy (bytes "GET / HTTQ/1.0") (bytes "GET / HTT") (byte 'Q') := by
  refine ⟨⟨bytes "/1.0", rfl⟩, ?_, ?_⟩
  all_goals decide

end Webserver.Server
