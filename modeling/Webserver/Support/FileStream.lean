import Mathlib.Data.List.Basic
import Webserver.Support.BoundedLoop

/-!
# Files behind a stream

`std::ifstream` over a file that the operating system gives piece by piece, in pieces of any sizes, and that may
break before its end.  `get` reads one element and `read` a block; both go through the buffer of the stream and set
its flags.

* `read_enough`, `read_short`, `read_breaks`, `get_cons`, `get_nil` — what is read depends on what is left of the
  file, not on the pieces.
* `returns_blockBody` — a loop that reads block by block has the whole file, or a stream that is bad.
-/

namespace FileStream

open BoundedLoop

variable {α : Type*}

/-- What one read of the operating system gives: at least one element. -/
structure Piece (α : Type*) where
  first : α
  others : List α

def Piece.elements (p : Piece α) : List α := p.first :: p.others

/-- A file: its pieces, and whether the read behind them is an error or the end. -/
structure Source (α : Type*) where
  pieces : List (Piece α)
  breaks : Bool

def contentsOf (pieces : List (Piece α)) : List α := pieces.flatMap Piece.elements

def Source.contents (s : Source α) : List α := contentsOf s.pieces

/-- An open stream: its buffer, what the operating system will give, and the flags. -/
structure Stream (α : Type*) where
  buffer : List α
  source : Source α
  eof : Bool
  fail : Bool
  bad : Bool

/-- The stream of a file that has just been opened. -/
def Source.stream (s : Source α) : Stream α := ⟨[], s, false, false, false⟩

namespace Stream

def good (f : Stream α) : Bool := !f.eof && !f.fail && !f.bad

/-- What is left of the file. -/
def rest (f : Stream α) : List α := f.buffer ++ f.source.contents

end Stream

/-- `sbumpc`: one element; `none` for an exception. -/
def sbumpc : List α → Source α → Option (Option α × List α × Source α)
  | c :: buffer, s => some (some c, buffer, s)
  | [], ⟨p :: pieces, breaks⟩ => some (some p.first, p.others, ⟨pieces, breaks⟩)
  | [], ⟨[], true⟩ => none
  | [], ⟨[], false⟩ => some (none, [], ⟨[], false⟩)

/-- `sgetn`: `n` elements, with as many reads as it takes, or all there are; `none` for an exception. -/
def sgetn (breaks : Bool) : ℕ → List α → List (Piece α) → Option (List α × List α × Source α)
  | n, buffer, [] =>
    if n ≤ buffer.length then some (buffer.take n, buffer.drop n, ⟨[], breaks⟩)
    else if breaks then none else some (buffer, [], ⟨[], breaks⟩)
  | n, buffer, p :: pieces =>
    if n ≤ buffer.length then some (buffer.take n, buffer.drop n, ⟨p :: pieces, breaks⟩)
    else (sgetn breaks (n - buffer.length) p.elements pieces).map fun r => (buffer ++ r.1, r.2)

namespace Stream

/-- `file.get(c)`; the character is there if the stream does not fail. -/
def get (f : Stream α) : Option α × Stream α :=
  if f.good then
    match sbumpc f.buffer f.source with
    | none => (none, { f with fail := true, bad := true })
    | some (none, buffer, source) => (none, ⟨buffer, source, true, true, f.bad⟩)
    | some (some c, buffer, source) => (some c, ⟨buffer, source, f.eof, f.fail, f.bad⟩)
  else (none, { f with fail := true })

/-- `file.read(buf, n)`, with the `file.gcount()` elements that it has put into the buffer. -/
def read (n : ℕ) (f : Stream α) : List α × Stream α :=
  if f.good then
    match sgetn f.source.breaks n f.buffer f.source.pieces with
    | none => ([], { f with bad := true })
    | some (got, buffer, source) =>
      let short := decide (got.length < n)
      (got, ⟨buffer, source, short, short, f.bad⟩)
  else ([], { f with fail := true })

end Stream

theorem contentsOf_cons (p : Piece α) (pieces : List (Piece α)) :
    contentsOf (p :: pieces) = p.elements ++ contentsOf pieces := List.flatMap_cons

/-! ### One element -/

theorem Stream.good_iff {f : Stream α} : f.good = true ↔ f.eof = false ∧ f.fail = false ∧ f.bad = false := by
  simp [Stream.good, and_assoc]

/-- `get` where something is left. -/
theorem get_cons {f : Stream α} {c : α} {cs : List α} (hgood : f.good = true) (h : f.rest = c :: cs) :
    ∃ f', f.get = (some c, f') ∧ f'.rest = cs ∧ f'.good = true ∧ f'.source.breaks = f.source.breaks := by
  obtain ⟨buffer, ⟨pieces, breaks⟩, eof, fail, bad⟩ := f
  rw [Stream.get, if_pos hgood]
  cases buffer with
  | cons b buffer =>
    obtain ⟨rfl, rfl⟩ := List.cons.inj h
    exact ⟨_, rfl, rfl, hgood, rfl⟩
  | nil =>
    cases pieces with
    | nil => cases h
    | cons p pieces =>
      obtain ⟨rfl, rfl⟩ := List.cons.inj ((contentsOf_cons p pieces).symm.trans h)
      exact ⟨_, rfl, rfl, hgood, rfl⟩

/-- `get` where nothing is left: the stream is bad if the file breaks. -/
theorem get_nil {f : Stream α} (hgood : f.good = true) (h : f.rest = []) :
    ∃ f', f.get = (none, f') ∧ f'.bad = f.source.breaks := by
  obtain ⟨buffer, ⟨pieces, breaks⟩, eof, fail, bad⟩ := f
  obtain ⟨-, -, hbad⟩ := Stream.good_iff.mp hgood
  obtain ⟨rfl, hpieces⟩ := List.append_eq_nil_iff.mp h
  cases pieces with
  | cons p pieces => cases hpieces
  | nil =>
    rw [Stream.get, if_pos hgood]
    cases breaks with
    | true => exact ⟨_, rfl, rfl⟩
    | false => exact ⟨_, rfl, hbad⟩

/-! ### One block -/

theorem take_append_elements {n : ℕ} {buffer : List α} (h : ¬ n ≤ buffer.length) (l : List α) :
    (buffer ++ l).take n = buffer ++ l.take (n - buffer.length) := by
  rw [List.take_append, List.take_of_length_le (by omega)]

theorem drop_append_elements {n : ℕ} {buffer : List α} (h : ¬ n ≤ buffer.length) (l : List α) :
    (buffer ++ l).drop n = l.drop (n - buffer.length) := by
  rw [List.drop_append, List.drop_of_length_le (by omega), List.nil_append]

theorem sgetn_of_le {breaks : Bool} {n : ℕ} {buffer : List α} (h : n ≤ buffer.length) (pieces : List (Piece α)) :
    sgetn breaks n buffer pieces = some (buffer.take n, buffer.drop n, ⟨pieces, breaks⟩) := by
  cases pieces with
  | nil => rw [sgetn, if_pos h]
  | cons p pieces => rw [sgetn, if_pos h]

/-- Where enough is left, `sgetn` takes it from the front. -/
theorem sgetn_enough (breaks : Bool) (pieces : List (Piece α)) : ∀ {n : ℕ} {buffer : List α},
    n ≤ (buffer ++ contentsOf pieces).length → ∃ buffer' pieces',
      sgetn breaks n buffer pieces = some ((buffer ++ contentsOf pieces).take n, buffer', ⟨pieces', breaks⟩) ∧
        buffer' ++ contentsOf pieces' = (buffer ++ contentsOf pieces).drop n := by
  induction pieces with
  | nil =>
    intro n buffer h
    rw [show contentsOf ([] : List (Piece α)) = [] from rfl, List.append_nil] at h ⊢
    exact ⟨_, [], sgetn_of_le h [], List.append_nil _⟩
  | cons p pieces ih =>
    intro n buffer h
    by_cases hn : n ≤ buffer.length
    · refine ⟨buffer.drop n, p :: pieces, ?_, ?_⟩
      · rw [sgetn_of_le hn, List.take_append_of_le_length hn]
      · rw [List.drop_append_of_le_length hn]
    · rw [contentsOf_cons, List.length_append] at h
      obtain ⟨buffer', pieces', hget, hleft⟩ := @ih (n - buffer.length) p.elements (by omega)
      refine ⟨buffer', pieces', ?_, ?_⟩
      · rw [sgetn, if_neg hn, hget, contentsOf_cons, take_append_elements hn]
        rfl
      · rw [hleft, contentsOf_cons, drop_append_elements hn]

/-- Where less is left, `sgetn` takes all of it, or comes to the place where the file breaks. -/
theorem sgetn_short (breaks : Bool) (pieces : List (Piece α)) : ∀ {n : ℕ} {buffer : List α},
    (buffer ++ contentsOf pieces).length < n →
      sgetn breaks n buffer pieces =
        if breaks then none else some (buffer ++ contentsOf pieces, [], ⟨[], breaks⟩) := by
  induction pieces with
  | nil =>
    intro n buffer h
    rw [show contentsOf ([] : List (Piece α)) = [] from rfl, List.append_nil] at h ⊢
    rw [sgetn, if_neg (by omega)]
  | cons p pieces ih =>
    intro n buffer h
    rw [contentsOf_cons, List.length_append] at h
    rw [sgetn, if_neg (by omega), ih (by omega), contentsOf_cons]
    cases breaks with
    | true => rfl
    | false => rfl

/-- `read` where enough is left. -/
theorem read_enough {f : Stream α} {n : ℕ} (hgood : f.good = true) (h : n ≤ f.rest.length) :
    ∃ f', f.read n = (f.rest.take n, f') ∧ f'.rest = f.rest.drop n ∧ f'.good = true ∧
      f'.source.breaks = f.source.breaks := by
  obtain ⟨buffer', pieces', hget, hleft⟩ := sgetn_enough f.source.breaks f.source.pieces h
  have hlength : (f.rest.take n).length = n := List.length_take_of_le h
  refine ⟨⟨buffer', ⟨pieces', f.source.breaks⟩, false, false, f.bad⟩, ?_, hleft, ?_, rfl⟩
  · rw [Stream.read, if_pos hgood, hget]
    have hshort : decide ((f.rest.take n).length < n) = false := decide_eq_false (by omega)
    exact congrArg
      (fun short => (f.rest.take n, Stream.mk buffer' ⟨pieces', f.source.breaks⟩ short short f.bad)) hshort
  · exact Stream.good_iff.mpr ⟨rfl, rfl, (Stream.good_iff.mp hgood).2.2⟩

/-- `read` where less is left, of a file that does not break: the next one reads nothing. -/
theorem read_short {f : Stream α} {n : ℕ} (hgood : f.good = true) (hbreaks : f.source.breaks = false)
    (h : f.rest.length < n) : ∃ f', f.read n = (f.rest, f') ∧ f'.good = false ∧ f'.bad = false := by
  refine ⟨⟨[], ⟨[], false⟩, true, true, f.bad⟩, ?_, rfl, (Stream.good_iff.mp hgood).2.2⟩
  rw [Stream.read, if_pos hgood, sgetn_short _ _ h, hbreaks]
  exact congrArg (fun short => (f.rest, Stream.mk [] ⟨[], false⟩ short short f.bad)) (decide_eq_true h)

/-- `read` that comes to the place where the file breaks. -/
theorem read_breaks {f : Stream α} {n : ℕ} (hgood : f.good = true) (hbreaks : f.source.breaks = true)
    (h : f.rest.length < n) : f.read n = ([], { f with bad := true }) := by
  rw [Stream.read, if_pos hgood, sgetn_short _ _ h, hbreaks]
  rfl

theorem read_of_not_good {f : Stream α} (hgood : f.good = false) (n : ℕ) :
    f.read n = ([], { f with fail := true }) := by
  rw [Stream.read, hgood]
  rfl

/-! ### Block by block -/

/-- `while (file.read(buf, n).gcount() > 0) body.append(buf, file.gcount())`. -/
def blockBody (n : ℕ) (s : List α × Stream α) : (List α × Stream α) ⊕ (List α × Stream α) :=
  let (got, f) := s.2.read n
  if 0 < got.length then .inl (s.1 ++ got, f) else .inr (s.1, f)

theorem blockBody_inl {n : ℕ} {body got : List α} {f f' : Stream α} (h : f.read n = (got, f'))
    (hgot : 0 < got.length) : blockBody n (body, f) = .inl (body ++ got, f') := by
  rw [blockBody, h]
  exact if_pos hgot

theorem blockBody_inr {n : ℕ} {body : List α} {f f' : Stream α} (h : f.read n = ([], f')) :
    blockBody n (body, f) = .inr (body, f') := by
  rw [blockBody, h]
  rfl

/-- **The loop is left, with what was left of the file, or with a stream that is bad.** -/
theorem returns_blockBody {n : ℕ} (hn : 0 < n) : ∀ (k : ℕ) {f : Stream α} (body : List α), f.good = true →
    f.rest.length ≤ k → ∃ body' f', Returns (blockBody n) (body, f) (body', f') ∧ f'.bad = f.source.breaks ∧
      (f.source.breaks = false → body' = body ++ f.rest) := by
  intro k
  induction k using Nat.strongRecOn with
  | ind k ih =>
    intro f body hgood hk
    by_cases h : n ≤ f.rest.length
    · -- a whole block
      obtain ⟨f', hread, hrest, hgood', hbreaks⟩ := read_enough hgood h
      have hgot : 0 < (f.rest.take n).length := by rw [List.length_take_of_le h]; exact hn
      have hlt : f'.rest.length < k := by rw [hrest, List.length_drop]; omega
      obtain ⟨body', f'', hloop, hbad, hbody⟩ := ih _ hlt (body ++ f.rest.take n) hgood' (Nat.le_refl _)
      refine ⟨body', f'', (returns_iff_of_inl (blockBody_inl hread hgot)).mpr hloop, hbad.trans hbreaks, ?_⟩
      intro hends
      rw [hbody (hbreaks.trans hends), hrest, List.append_assoc, List.take_append_drop]
    · cases hbreaks : f.source.breaks with
      | true =>
        have hread := read_breaks hgood hbreaks (Nat.lt_of_not_le h)
        exact ⟨body, _, returns_of_inr (blockBody_inr hread), rfl, by intro hends; cases hends⟩
      | false =>
        obtain ⟨f', hread, hgood', hbad⟩ := read_short hgood hbreaks (Nat.lt_of_not_le h)
        cases hrest : f.rest with
        | nil =>
          rw [hrest] at hread
          exact ⟨body, f', returns_of_inr (blockBody_inr hread), hbad, fun _ => (List.append_nil body).symm⟩
        | cons c cs =>
          -- the last block, and the read that finds the end
          rw [hrest] at hread
          have hloop : blockBody n (body ++ c :: cs, f') = .inr (body ++ c :: cs, { f' with fail := true }) :=
            blockBody_inr (read_of_not_good hgood' n)
          refine ⟨body ++ c :: cs, { f' with fail := true }, ?_, hbad, fun _ => rfl⟩
          exact (returns_iff_of_inl (blockBody_inl hread (Nat.succ_pos _))).mpr (returns_of_inr hloop)

/-- Blocks of two; the second file breaks where its last piece ends. -/
example :
    let source : Bool → Source ℕ := fun breaks => ⟨[⟨1, [2, 3]⟩, ⟨4, []⟩, ⟨5, []⟩], breaks⟩
    ((runLoop (blockBody 2) 4 ([], (source false).stream)).map fun s => (s.1, s.2.bad)) =
        some ([1, 2, 3, 4, 5], false) ∧
      ((runLoop (blockBody 2) 4 ([], (source true).stream)).map fun s => (s.1, s.2.bad)) =
        some ([1, 2, 3, 4], true) := by
  decide

end FileStream
