import Mathlib.Data.List.Forall2
import Mathlib.Data.List.MinMax
import Webserver.Support.Numeral

/-!
# What an HTML reader finds in a page

The first stage of an HTML reader, which splits a page into text and markup: tags, comments and declarations.
`read` returns every markup of a page with the text in front of it, and the text behind the last one.  One byte is
one character; line ends become newlines, a NUL is dropped, and the character references of the text are resolved.
Text behind any tag is read in the same way, so a page with a script or a style is not covered.  `contents` are the
tables among the markup.

The named references are a table, which a structure carries with what the proofs use of it: no name is shorter
than what it stands for, and none has a `<` in it.

* `reads_toText_iff` — a text in front of markup is read as it stands if and only if it is `Plain`.
* `read_page_iff` — what is found in a page that is made of texts and tags.
-/

namespace HtmlReader

open ByteString Numeral

/-- Characters, as code points. -/
abbrev Text := List ℕ

/-- The characters of a byte string. -/
def toText (s : Bytes) : Text := s.map UInt8.toNat

/-! ### Character references -/

/-- The named character references, each without its `&`, and the character of a numeric one. -/
structure References where
  names : List (Bytes × Text)
  number : ℕ → ℕ
  length_le : ∀ e ∈ names, e.2.length ≤ e.1.length
  not_mem : ∀ e ∈ names, byte '<' ∉ e.1

/-- The five references that every reader knows. -/
def References.xml : References where
  names := [(bytes "amp;", [38]), (bytes "lt;", [60]), (bytes "gt;", [62]), (bytes "quot;", [34]),
    (bytes "apos;", [39])]
  number := id
  length_le := by decide
  not_mem := by decide

/-- The longest name that a text starts with. -/
def References.longest (refs : References) (s : Bytes) : Option (Bytes × Text) :=
  (refs.names.filter fun e => e.1.isPrefixOf s).argmax fun e => e.1.length

/-- A `;` that ends a reference. -/
def semicolon (s : Bytes) : ℕ := if s.head? = some (byte ';') then 1 else 0

/-- The digits of a numeric reference: the character and the number of bytes that it takes. -/
def digitReference (refs : References) (isDigit : Byte → Bool) (base : ℕ) (s : Bytes) : Option (Text × ℕ) :=
  let ds := s.takeWhile isDigit
  if ds = [] then none else some ([refs.number (ofDigits base ds)], ds.length + semicolon (s.drop ds.length))

/-- A numeric reference, behind the `&#`. -/
def numericReference (refs : References) (s : Bytes) : Option (Text × ℕ) :=
  if s.head? = some (byte 'x') ∨ s.head? = some (byte 'X') then
    (digitReference refs isHexDigit 16 s.tail).map fun p => (p.1, p.2 + 1)
  else digitReference refs isDecDigit 10 s

/-- The character reference that a text behind an `&` is, and the number of bytes that it takes. -/
def reference (refs : References) (s : Bytes) : Option (Text × ℕ) :=
  if s.head? = some (byte '#') then (numericReference refs s.tail).map fun p => (p.1, p.2 + 1)
  else (refs.longest s).map fun e => (e.2, e.1.length)

/-! ### Markup -/

def isLetter (c : Byte) : Bool := (65 ≤ c.toNat ∧ c.toNat ≤ 90) ∨ (97 ≤ c.toNat ∧ c.toNat ≤ 122)

/-- The white space of a tag. -/
def isBlank (c : Byte) : Bool := c.toNat ∈ [9, 10, 12, 13, 32]

/-- A position in a tag. -/
inductive TagState
  | tagName
  /-- Before the name of an attribute, or behind a quoted value or a `/`. -/
  | between
  | attrName
  | afterName
  | beforeValue
  | double
  | single
  | unquoted
  deriving DecidableEq

/-- A byte that does not close the tag. -/
def TagState.next (q : TagState) (c : Byte) : TagState :=
  match q with
  | .tagName => if isBlank c ∨ c = byte '/' then .between else .tagName
  | .between => if isBlank c ∨ c = byte '/' then .between else .attrName
  | .attrName =>
    if isBlank c then .afterName else if c = byte '/' then .between
    else if c = byte '=' then .beforeValue else .attrName
  | .afterName =>
    if isBlank c then .afterName else if c = byte '/' then .between
    else if c = byte '=' then .beforeValue else .attrName
  | .beforeValue =>
    if isBlank c then .beforeValue else if c = byte '"' then .double
    else if c = byte '\'' then .single else .unquoted
  | .double => if c = byte '"' then .between else .double
  | .single => if c = byte '\'' then .between else .single
  | .unquoted => if isBlank c then .between else .unquoted

/-- A `>` closes a tag outside of quotes. -/
def TagState.closes (q : TagState) (c : Byte) : Bool := c = byte '>' ∧ q ≠ .double ∧ q ≠ .single

/-- The rest of a tag, with the `>` that closes it. -/
def tagLength : TagState → Bytes → Option ℕ
  | _, [] => none
  | q, c :: s => if q.closes c then some 1 else (tagLength (q.next c) s).map (· + 1)

/-- A declaration, or a comment that is none: up to the first `>`. -/
def bogusLength : Bytes → Option ℕ
  | [] => none
  | c :: s => if c = byte '>' then some 1 else (bogusLength s).map (· + 1)

/-- A comment up to `-->` or `--!>`. -/
def commentBody : Bytes → Option ℕ
  | [] => none
  | c :: s =>
    if (bytes "-->").isPrefixOf (c :: s) then some 3
    else if (bytes "--!>").isPrefixOf (c :: s) then some 4
    else (commentBody s).map (· + 1)

/-- A comment behind `<!--`, which `>` and `->` end at once. -/
def commentLength (s : Bytes) : Option ℕ :=
  if (bytes ">").isPrefixOf s then some 1
  else if (bytes "->").isPrefixOf s then some 2
  else commentBody s

/-- What behind a `<` makes it markup. -/
def startsMarkup : Bytes → Bool
  | [] => false
  | c :: s => isLetter c ∨ c = byte '!' ∨ c = byte '?' ∨ (c = byte '/' ∧ s ≠ [])

/-- The markup behind a `<`; there is no length when its end is missing. -/
def markupLength : Bytes → Option ℕ
  | [] => none
  | c :: s =>
    if c = byte '!' then
      if (bytes "--").isPrefixOf s then (commentLength (s.drop 2)).map (· + 3) else (bogusLength s).map (· + 1)
    else if c = byte '?' then (bogusLength s).map (· + 1)
    else if c = byte '/' then
      if (s.head?.map isLetter).getD false then (tagLength .tagName s).map (· + 1)
      else (bogusLength s).map (· + 1)
    else tagLength .tagName (c :: s)

/-! ### A page -/

/-- The characters at a byte that starts no markup, and the number of bytes behind it that belong to them. -/
def textAt (refs : References) (c : Byte) (s : Bytes) : Text × ℕ :=
  if c = byte '\r' then ([(byte '\n').toNat], if s.head? = some (byte '\n') then 1 else 0)
  else if c = 0 then ([], 0)
  else if c = byte '&' then (reference refs s).getD ([c.toNat], 0)
  else ([c.toNat], 0)

/-- What is read of a page: every markup with the text in front of it, and the text behind the last. -/
abbrev Reading := List (Text × Bytes) × Text

/-- Text in front of what is read. -/
def prepend (t : Text) : Reading → Reading
  | ([], last) => ([], t ++ last)
  | ((x, m) :: l, last) => ((t ++ x, m) :: l, last)

/-- **The reading of a page.**  Markup without its end takes the rest of the page. -/
def read (refs : References) : Bytes → Reading
  | [] => ([], [])
  | c :: s =>
    if c = byte '<' ∧ startsMarkup s then
      match markupLength s with
      | none => ([], [])
      | some n =>
        let r := read refs (s.drop n)
        (([], c :: s.take n) :: r.1, r.2)
    else
      let p := textAt refs c s
      prepend p.1 (read refs (s.drop p.2))
termination_by s => s.length
decreasing_by all_goals simp only [List.length_drop, List.length_cons]; omega

/-! ### A reference does not reach over a tag -/

section

variable {refs : References} {s y : Bytes} {chars : Text} {n : ℕ}

theorem head?_append_tag {c : Byte} (hc : c ≠ byte '<') (s y : Bytes) :
    (s ++ byte '<' :: y).head? = some c ↔ s.head? = some c := by
  cases s with
  | nil =>
    constructor
    · intro h
      exact absurd (Option.some.inj h).symm hc
    · intro h
      cases h
  | cons d s => rfl

theorem digitReference_append {isDigit : Byte → Bool} (hstop : isDigit (byte '<') = false) (base : ℕ)
    (s y : Bytes) :
    digitReference refs isDigit base (s ++ byte '<' :: y) = digitReference refs isDigit base s := by
  have hdigits := takeWhile_append_cons hstop s y
  have hle : (s.takeWhile isDigit).length ≤ s.length := (List.takeWhile_sublist isDigit).length_le
  have hend : semicolon ((s ++ byte '<' :: y).drop (s.takeWhile isDigit).length) =
      semicolon (s.drop (s.takeWhile isDigit).length) := by
    rw [List.drop_append_of_le_length hle, semicolon, semicolon]
    simp only [head?_append_tag (show byte ';' ≠ byte '<' by decide)]
  rw [digitReference, digitReference, hdigits]
  simp only [hend]

theorem semicolon_le (s : Bytes) : semicolon s ≤ s.length := by
  cases s with
  | nil => exact le_rfl
  | cons c s =>
    rw [semicolon, List.length_cons]
    split <;> omega

/-- A reference takes at least as many bytes behind its `&` as it has characters, and no more than there are. -/
theorem digitReference_le {isDigit : Byte → Bool} {base : ℕ}
    (h : digitReference refs isDigit base s = some (chars, n)) : chars.length ≤ n ∧ n ≤ s.length := by
  rw [digitReference] at h
  split at h
  · cases h
  · rename_i hne
    obtain ⟨rfl, rfl⟩ := Prod.mk.inj (Option.some.inj h)
    have hpos : 0 < (s.takeWhile isDigit).length := List.length_pos_iff.mpr hne
    have hle : (s.takeWhile isDigit).length ≤ s.length := (List.takeWhile_sublist isDigit).length_le
    have hend := semicolon_le (s.drop (s.takeWhile isDigit).length)
    rw [List.length_drop] at hend
    rw [List.length_singleton]
    omega

theorem numericReference_append (s y : Bytes) :
    numericReference refs (s ++ byte '<' :: y) = numericReference refs s := by
  have hlower := head?_append_tag (show byte 'x' ≠ byte '<' by decide) s y
  have hupper := head?_append_tag (show byte 'X' ≠ byte '<' by decide) s y
  rw [numericReference, numericReference, digitReference_append (by decide)]
  simp only [hlower, hupper]
  cases s with
  | nil => rfl
  | cons c s => rw [List.cons_append, List.tail_cons, List.tail_cons, digitReference_append (by decide)]

theorem numericReference_le (h : numericReference refs s = some (chars, n)) :
    chars.length ≤ n ∧ n ≤ s.length := by
  rw [numericReference] at h
  split at h
  · rename_i hx
    obtain ⟨⟨chars', n'⟩, hdigits, hp⟩ := Option.map_eq_some_iff.mp h
    obtain ⟨rfl, rfl⟩ := Prod.mk.inj hp
    have hle := digitReference_le hdigits
    cases s with
    | nil => exact absurd hx (by decide)
    | cons c s =>
      rw [List.tail_cons] at hle
      exact ⟨Nat.le_succ_of_le hle.1, Nat.succ_le_succ hle.2⟩
  · exact digitReference_le h

theorem longest_append (s y : Bytes) : refs.longest (s ++ byte '<' :: y) = refs.longest s := by
  have hsame : refs.names.filter (fun e => e.1.isPrefixOf (s ++ byte '<' :: y)) =
      refs.names.filter fun e => e.1.isPrefixOf s := by
    refine List.filter_congr fun e he => ?_
    rw [Bool.eq_iff_iff, List.isPrefixOf_iff_prefix, List.isPrefixOf_iff_prefix]
    constructor
    · intro h
      rcases List.prefix_or_prefix_of_prefix h (List.prefix_append s _) with hs | ⟨t, hname⟩
      · exact hs
      · -- a name that reaches behind the text has the `<` in it
        rw [← hname, List.prefix_append_right_inj] at h
        cases t with
        | nil => rw [← hname, List.append_nil]
        | cons c t =>
          obtain ⟨rfl, -⟩ := List.cons_prefix_cons.mp h
          exact absurd (by rw [← hname]; simp) (refs.not_mem e he)
    · intro h
      exact List.prefix_append_of_prefix h
  rw [References.longest, References.longest, hsame]

theorem longest_le {e : Bytes × Text} (h : refs.longest s = some e) :
    e.2.length ≤ e.1.length ∧ e.1.length ≤ s.length := by
  have hmem := List.mem_filter.mp (List.argmax_mem h)
  exact ⟨refs.length_le e hmem.1, (List.isPrefixOf_iff_prefix.mp hmem.2).length_le⟩

theorem reference_append (s y : Bytes) : reference refs (s ++ byte '<' :: y) = reference refs s := by
  have hhash := head?_append_tag (show byte '#' ≠ byte '<' by decide) s y
  rw [reference, reference, longest_append]
  simp only [hhash]
  cases s with
  | nil => rfl
  | cons c s => rw [List.cons_append, List.tail_cons, List.tail_cons, numericReference_append]

theorem reference_le (h : reference refs s = some (chars, n)) : chars.length ≤ n ∧ n ≤ s.length := by
  rw [reference] at h
  split at h
  · rename_i hhash
    obtain ⟨⟨chars', n'⟩, hnumber, hp⟩ := Option.map_eq_some_iff.mp h
    obtain ⟨rfl, rfl⟩ := Prod.mk.inj hp
    have hle := numericReference_le hnumber
    cases s with
    | nil => cases hhash
    | cons c s =>
      rw [List.tail_cons] at hle
      exact ⟨Nat.le_succ_of_le hle.1, Nat.succ_le_succ hle.2⟩
  · obtain ⟨e, hname, hp⟩ := Option.map_eq_some_iff.mp h
    obtain ⟨rfl, rfl⟩ := Prod.mk.inj hp
    exact longest_le hname

end

/-! ### Texts in front of markup -/

/-- A byte at which no markup and no reference starts, and which is read as it stands. -/
def isSimple (c : Byte) : Bool := c ≠ byte '\r' ∧ c ≠ 0 ∧ c ≠ byte '&' ∧ c ≠ byte '<'

/-- What behind a `<` of a text makes it markup, whatever follows the text. -/
def opens (s : Bytes) : Bool :=
  match s.head? with
  | none => false
  | some c => isLetter c ∨ c = byte '!' ∨ c = byte '?' ∨ c = byte '/'

/-- **A text that is read as it stands**: no carriage return, no NUL, no character reference and no `<` that
starts markup. -/
def Plain (refs : References) : Bytes → Prop
  | [] => True
  | c :: s => c ≠ byte '\r' ∧ c ≠ 0 ∧ (c = byte '&' → reference refs s = none) ∧
      (c = byte '<' → opens s = false) ∧ Plain refs s

instance decidablePlain (refs : References) : DecidablePred (Plain refs)
  | [] => isTrue trivial
  | _ :: s =>
    have := decidablePlain refs s
    inferInstanceAs (Decidable (_ ∧ _))

/-- A text is read as the given characters in front of whatever starts with a `<`. -/
def Reads (refs : References) (raw : Bytes) (shown : Text) : Prop :=
  ∀ y, read refs (raw ++ byte '<' :: y) = prepend shown (read refs (byte '<' :: y))

/-- The text in front of the first markup. -/
def firstText : Reading → Text
  | ([], last) => last
  | ((x, _) :: _, _) => x

section

variable {refs : References} {c : Byte} {s y raw : Bytes} {shown : Text}

@[simp] theorem prepend_nil (r : Reading) : prepend [] r = r := by
  obtain ⟨l, last⟩ := r
  cases l with
  | nil => rfl
  | cons e l => rfl

theorem prepend_append (t u : Text) (r : Reading) : prepend (t ++ u) r = prepend t (prepend u r) := by
  obtain ⟨l, last⟩ := r
  cases l with
  | nil => simp only [prepend, List.append_assoc]
  | cons e l => simp only [prepend, List.append_assoc]

@[simp] theorem firstText_prepend (t : Text) (r : Reading) : firstText (prepend t r) = t ++ firstText r := by
  obtain ⟨l, last⟩ := r
  cases l with
  | nil => rfl
  | cons e l => rfl

theorem startsMarkup_append (s y : Bytes) : startsMarkup (s ++ byte '<' :: y) = opens s := by
  cases s with
  | nil => rfl
  | cons c s =>
    have hne : s ++ byte '<' :: y ≠ [] := List.append_ne_nil_of_right_ne_nil s (List.cons_ne_nil _ y)
    rw [List.cons_append, startsMarkup, opens, List.head?_cons]
    simp only [ne_eq, hne, not_false_eq_true, and_true]

/-! ### One byte -/

/-- What is found at a byte of a text depends on the text alone. -/
theorem textAt_append (c : Byte) (s y : Bytes) : textAt refs c (s ++ byte '<' :: y) = textAt refs c s := by
  have hline := head?_append_tag (show byte '\n' ≠ byte '<' by decide) s y
  rw [textAt, textAt, reference_append]
  simp only [hline]

variable (refs) in
/-- Nothing reaches over the end of the text, and what takes several bytes has fewer characters than bytes. -/
theorem textAt_le (c : Byte) (s : Bytes) :
    (textAt refs c s).1.length ≤ max (textAt refs c s).2 1 ∧ (textAt refs c s).2 ≤ s.length := by
  rw [textAt]
  split
  · refine ⟨le_max_right _ _, ?_⟩
    cases s with
    | nil => exact le_rfl
    | cons d s =>
      rw [List.length_cons]
      show (if some d = some (byte '\n') then 1 else 0) ≤ s.length + 1
      split <;> omega
  · split
    · exact ⟨Nat.zero_le _, Nat.zero_le _⟩
    · split
      · cases hreference : reference refs s with
        | none => exact ⟨le_max_right _ _, Nat.zero_le _⟩
        | some p =>
          have hle := reference_le hreference
          exact ⟨le_max_of_le_left hle.1, hle.2⟩
      · exact ⟨le_max_right _ _, Nat.zero_le _⟩

/-- The byte itself is found where no line end, no NUL and no reference is. -/
theorem textAt_eq_self_iff : textAt refs c s = ([c.toNat], 0) ↔
    c ≠ byte '\r' ∧ c ≠ 0 ∧ (c = byte '&' → reference refs s = none) := by
  constructor
  · intro h
    rw [textAt] at h
    refine ⟨?_, ?_, ?_⟩
    · rintro rfl
      rw [if_pos rfl] at h
      exact absurd (Prod.mk.inj h).1 (by decide)
    · rintro rfl
      rw [if_neg (by decide), if_pos rfl] at h
      exact absurd (Prod.mk.inj h).1 (by decide)
    · rintro rfl
      rw [if_neg (by decide), if_neg (by decide), if_pos rfl] at h
      cases hreference : reference refs s with
      | none => rfl
      | some p =>
        -- a reference takes a byte for each of its characters
        obtain rfl : p = ([(byte '&').toNat], 0) := by rw [← h, hreference]; rfl
        exact absurd (reference_le hreference).1 (by decide)
  · rintro ⟨hcr, hnul, hand⟩
    rw [textAt, if_neg hcr, if_neg hnul]
    by_cases hc : c = byte '&'
    · rw [if_pos hc, hand hc]
      rfl
    · rw [if_neg hc]

/-- One step through a text. -/
theorem read_cons_append (hopens : ¬ (c = byte '<' ∧ opens s = true)) (y : Bytes) :
    read refs (c :: s ++ byte '<' :: y) =
      prepend (textAt refs c s).1 (read refs (s.drop (textAt refs c s).2 ++ byte '<' :: y)) := by
  rw [← startsMarkup_append s y] at hopens
  rw [List.cons_append, read, if_neg hopens, ← List.drop_append_of_le_length (textAt_le refs c s).2]
  simp only [textAt_append]

theorem reads_nil : Reads refs [] [] := fun y => by rw [List.nil_append, prepend_nil]

theorem reads_cons (hopens : ¬ (c = byte '<' ∧ opens s = true))
    (h : Reads refs (s.drop (textAt refs c s).2) shown) : Reads refs (c :: s) ((textAt refs c s).1 ++ shown) := by
  intro y
  rw [read_cons_append hopens, h y, prepend_append]

/-- A byte that is read as it stands. -/
theorem reads_cons_self (hopens : ¬ (c = byte '<' ∧ opens s = true)) (htext : textAt refs c s = ([c.toNat], 0))
    (h : Reads refs s shown) : Reads refs (c :: s) (c.toNat :: shown) := by
  have hrest : Reads refs (s.drop (textAt refs c s).2) shown := by
    rw [htext]
    exact h
  have hcons := reads_cons hopens hrest
  rw [htext] at hcons
  exact hcons

/-! ### The condition is sufficient -/

theorem reads_of_plain : ∀ {raw : Bytes}, Plain refs raw → Reads refs raw (toText raw)
  | [], _ => reads_nil
  | c :: s, ⟨hcr, hnul, hand, hless, hs⟩ => by
    have hopens : ¬ (c = byte '<' ∧ opens s = true) := fun ⟨hc, hs⟩ => by
      rw [hless hc] at hs
      cases hs
    exact reads_cons_self hopens (textAt_eq_self_iff.mpr ⟨hcr, hnul, hand⟩) (reads_of_plain hs)

/-- Simple bytes in front of a text do not change how it is read. -/
theorem reads_append_of_simple (hs : ∀ c ∈ s, isSimple c = true) (h : Reads refs raw shown) :
    Reads refs (s ++ raw) (toText s ++ shown) := by
  induction s with
  | nil => exact h
  | cons c s ih =>
    have hc := hs c List.mem_cons_self
    rw [isSimple, decide_eq_true_iff] at hc
    obtain ⟨hcr, hnul, hand, hless⟩ := hc
    exact reads_cons_self (fun h => hless h.1) (textAt_eq_self_iff.mpr ⟨hcr, hnul, fun h => absurd h hand⟩)
      (ih fun d hd => hs d (List.mem_cons_of_mem c hd))

theorem reads_of_simple (hs : ∀ c ∈ s, isSimple c = true) : Reads refs s (toText s) := by
  have h := reads_append_of_simple hs (show Reads refs [] [] from reads_nil)
  rwa [List.append_nil, List.append_nil] at h

/-- A line end is read as one newline. -/
theorem reads_crlf (h : Reads refs raw shown) :
    Reads refs (byte '\r' :: byte '\n' :: raw) ((byte '\n').toNat :: shown) := by
  have htext : textAt refs (byte '\r') (byte '\n' :: raw) = ([(byte '\n').toNat], 1) := rfl
  intro y
  rw [read_cons_append fun h => absurd h.1 (by decide), htext]
  show prepend _ (read refs (raw ++ byte '<' :: y)) = _
  rw [h y, ← prepend_append]
  rfl

/-! ### The condition is necessary -/

theorem firstText_of_startsMarkup (hs : startsMarkup s = true) : firstText (read refs (byte '<' :: s)) = [] := by
  rw [read, if_pos ⟨rfl, hs⟩]
  cases markupLength s with
  | none => rfl
  | some n => rfl

variable (refs) in
/-- The text in front of the first markup is no longer than the bytes in front of it. -/
theorem firstText_read_length (hy : startsMarkup y = true) (raw : Bytes) :
    (firstText (read refs (raw ++ byte '<' :: y))).length ≤ raw.length := by
  match raw with
  | [] =>
    rw [List.nil_append, firstText_of_startsMarkup hy]
    exact le_rfl
  | c :: s =>
    by_cases hopens : c = byte '<' ∧ opens s = true
    · obtain ⟨rfl, hs⟩ := hopens
      rw [List.cons_append, firstText_of_startsMarkup ((startsMarkup_append s y).trans hs)]
      exact Nat.zero_le _
    · have hle := textAt_le refs c s
      have ih := firstText_read_length hy (s.drop (textAt refs c s).2)
      rw [List.length_drop] at ih
      rw [read_cons_append hopens, firstText_prepend, List.length_append, List.length_cons]
      omega
termination_by raw.length
decreasing_by rw [List.length_drop, List.length_cons]; omega

/-- **A text that is read as it stands in front of markup is plain.** -/
theorem plain_of_firstText (hy : startsMarkup y = true) :
    ∀ {raw : Bytes}, firstText (read refs (raw ++ byte '<' :: y)) = toText raw → Plain refs raw
  | [], _ => trivial
  | c :: s, h => by
    by_cases hopens : c = byte '<' ∧ opens s = true
    · obtain ⟨rfl, hs⟩ := hopens
      rw [List.cons_append, firstText_of_startsMarkup ((startsMarkup_append s y).trans hs)] at h
      cases h
    · have hle := textAt_le refs c s
      have hrest := firstText_read_length refs hy (s.drop (textAt refs c s).2)
      have hlen := congrArg List.length h
      rw [read_cons_append hopens, firstText_prepend] at h hlen
      rw [List.length_append, toText, List.length_map, List.length_cons] at hlen
      rw [List.length_drop] at hrest
      -- by the lengths, one character is found for one byte
      have hmore : (textAt refs c s).2 = 0 := by omega
      obtain ⟨d, hd⟩ := List.length_eq_one_iff.mp (show (textAt refs c s).1.length = 1 by omega)
      rw [hd, hmore] at h
      obtain ⟨rfl, htext⟩ := List.cons_eq_cons.mp h
      obtain ⟨hcr, hnul, hand⟩ := textAt_eq_self_iff.mp (Prod.ext hd hmore)
      exact ⟨hcr, hnul, hand, fun hc => Bool.eq_false_iff.mpr fun hs => hopens ⟨hc, hs⟩,
        plain_of_firstText hy htext⟩

theorem opens_of_plain : ∀ {s : Bytes}, Plain refs (s ++ byte '<' :: y) → opens y = false
  | [], h => h.2.2.2.1 rfl
  | _ :: _, h => opens_of_plain h.2.2.2.2

theorem reads_toText_iff : Reads refs raw (toText raw) ↔ Plain refs raw := by
  refine ⟨fun h => ?_, reads_of_plain⟩
  have hy : startsMarkup [byte '!'] = true := by decide
  refine plain_of_firstText hy ?_
  rw [h [byte '!'], firstText_prepend, firstText_of_startsMarkup hy, List.append_nil]

example : Plain .xml (bytes "/a?b=1&c=2 < 3") := by decide

example : ¬ Plain .xml (bytes "/a?b=1&lt;2") := by decide

end

/-! ### Pages of texts and tags -/

/-- A start tag or an end tag with nothing behind it. -/
def isTag : Bytes → Bool
  | less :: c :: s =>
    less = byte '<' ∧ (isLetter c ∧ tagLength .tagName (c :: s) = some (s.length + 1) ∨
      c = byte '/' ∧ (s.head?.map isLetter).getD false ∧ tagLength .tagName s = some s.length)
  | _ => false

/-- A text as it is written, what should be read of it, and the tag behind it. -/
structure Entry where
  raw : Bytes
  shown : Text
  tag : Bytes
  isTag_tag : isTag tag = true

def Entry.bytes (e : Entry) : Bytes := e.raw ++ e.tag

def Entry.piece (e : Entry) : Text × Bytes := (e.shown, e.tag)

/-- The page that is made of some texts and tags. -/
def page (l : List Entry) : Bytes := l.flatMap Entry.bytes

section

variable {refs : References}

theorem tagLength_append {s : Bytes} (y : Bytes) : ∀ {q : TagState} {n : ℕ},
    tagLength q s = some n → tagLength q (s ++ y) = some n := by
  induction s with
  | nil =>
    intro q n h
    cases h
  | cons c s ih =>
    intro q n h
    rw [tagLength] at h
    rw [List.cons_append, tagLength]
    split
    · rename_i hclose
      rwa [if_pos hclose] at h
    · rename_i hclose
      rw [if_neg hclose] at h
      obtain ⟨m, hm, rfl⟩ := Option.map_eq_some_iff.mp h
      rw [ih hm]
      rfl

/-- A tag is one markup, whatever follows it. -/
theorem markupLength_of_isTag {m : Bytes} (h : isTag m = true) (s : Bytes) : ∃ body, m = byte '<' :: body ∧
    startsMarkup (body ++ s) = true ∧ markupLength (body ++ s) = some body.length := by
  match m with
  | less :: c :: body =>
    rw [isTag, decide_eq_true_iff] at h
    obtain ⟨rfl, ⟨hletter, hlen⟩ | ⟨rfl, hletter, hlen⟩⟩ := h
    · -- a letter is none of the bytes that start an end tag, a comment or a declaration
      have hbang : c ≠ byte '!' := by
        rintro rfl
        exact absurd hletter (by decide)
      have hquestion : c ≠ byte '?' := by
        rintro rfl
        exact absurd hletter (by decide)
      have hslash : c ≠ byte '/' := by
        rintro rfl
        exact absurd hletter (by decide)
      refine ⟨c :: body, rfl, ?_, ?_⟩
      · rw [List.cons_append, startsMarkup, decide_eq_true_iff]
        exact .inl hletter
      · rw [List.cons_append, markupLength, if_neg hbang, if_neg hquestion, if_neg hslash]
        exact tagLength_append s hlen
    · obtain ⟨d, body, rfl⟩ := List.exists_cons_of_ne_nil (l := body) (by
        rintro rfl
        cases hletter)
      refine ⟨byte '/' :: d :: body, rfl, ?_, ?_⟩
      · rw [List.cons_append, startsMarkup, decide_eq_true_iff]
        exact .inr (.inr (.inr ⟨rfl, List.cons_ne_nil d _⟩))
      · rw [List.head?_cons] at hletter
        rw [List.cons_append, markupLength, if_neg (by decide), if_neg (by decide), if_pos rfl, List.cons_append,
          List.head?_cons, if_pos hletter, ← List.cons_append, tagLength_append s hlen]
        rfl

theorem read_tag {m : Bytes} (h : isTag m = true) (s : Bytes) :
    read refs (m ++ s) = (([], m) :: (read refs s).1, (read refs s).2) := by
  obtain ⟨body, rfl, hstarts, hlen⟩ := markupLength_of_isTag h s
  rw [List.cons_append, read, if_pos ⟨rfl, hstarts⟩, hlen]
  simp only [List.drop_left, List.take_left]

/-- What is read of a page that starts with this text and this tag. -/
theorem read_entry {e : Entry} (h : Reads refs e.raw e.shown) (s : Bytes) :
    (read refs (e.bytes ++ s)).1 = e.piece :: (read refs s).1 := by
  obtain ⟨body, htag, -⟩ := markupLength_of_isTag e.isTag_tag s
  rw [Entry.bytes, List.append_assoc, htag, List.cons_append, h, ← List.cons_append, ← htag,
    read_tag e.isTag_tag, prepend, List.append_nil]
  rfl

theorem plain_of_head {e : Entry} {s : Bytes} {x : Text} {m : Bytes} {l : List (Text × Bytes)}
    (h : (read refs (e.bytes ++ s)).1 = (x, m) :: l) (hx : x = toText e.raw) : Plain refs e.raw := by
  obtain ⟨body, htag, hstarts, -⟩ := markupLength_of_isTag e.isTag_tag s
  rw [Entry.bytes, List.append_assoc, htag, List.cons_append] at h
  refine plain_of_firstText hstarts (Eq.trans ?_ hx)
  generalize read refs (e.raw ++ byte '<' :: (body ++ s)) = r at h
  obtain ⟨l', last⟩ := r
  obtain rfl : l' = (x, m) :: l := h
  rfl

end

/-! ### Tables -/

/-- The tags from which the tables of a page are read. -/
inductive TableTag
  | table
  | row
  | cellEnd
  deriving DecidableEq

/-- The name of a tag in lower case letters, with the `/` of an end tag. -/
def tagName (m : Bytes) : Bytes :=
  m.tail.takeWhile fun c => ¬ isBlank c ∧ c ≠ byte '>'

def tableTag (m : Bytes) : Option TableTag :=
  if tagName m = bytes "table" then some .table
  else if tagName m = bytes "tr" then some .row
  else if tagName m = bytes "/td" ∨ tagName m = bytes "/th" then some .cellEnd
  else none

/-- Tables of rows of cells, the rows in front of the first table and the cells in front of the first row. -/
@[ext] structure Contents where
  cells : List Text
  rows : List (List Text)
  tables : List (List (List Text))

/-- One more tag in front; the text of a cell is the text in front of its end. -/
def Contents.add (c : Contents) (p : Text × Bytes) : Contents :=
  match tableTag p.2 with
  | some .table => { c with rows := [], tables := c.rows :: c.tables }
  | some .row => { c with cells := [], rows := c.cells :: c.rows }
  | some .cellEnd => { c with cells := p.1 :: c.cells }
  | none => c

/-- **The tables of a page.** -/
def contents (l : List (Text × Bytes)) : Contents := l.foldr (fun p c => c.add p) ⟨[], [], []⟩

/-- Only the text of a cell may be written as it stands; any other is read as what it should be. -/
def Entry.Allowed (refs : References) (e : Entry) : Prop :=
  Reads refs e.raw e.shown ∨ (tableTag e.tag = some .cellEnd ∧ e.shown = toText e.raw)

/-- The same tag, with the same text if it is the end of a cell. -/
def SameCell (p p' : Text × Bytes) : Prop := p.2 = p'.2 ∧ (tableTag p.2 = some .cellEnd → p.1 = p'.1)

/-- Nothing is lost when a tag is added. -/
theorem Contents.add_inj {c c' : Contents} {p p' : Text × Bytes} (htag : p.2 = p'.2)
    (h : c.add p = c'.add p') : c = c' ∧ SameCell p p' := by
  rw [Contents.add, Contents.add, ← htag] at h
  rw [SameCell]
  cases hkind : tableTag p.2 with
  | none =>
    rw [hkind] at h
    exact ⟨h, htag, fun hcell => by cases hcell⟩
  | some kind =>
    rw [hkind] at h
    cases kind with
    | table =>
      obtain ⟨hcells, -, htables⟩ := Contents.mk.inj h
      obtain ⟨hrows, htables⟩ := List.cons_eq_cons.mp htables
      exact ⟨Contents.ext hcells hrows htables, htag, fun hcell => by cases hcell⟩
    | row =>
      obtain ⟨-, hrows, htables⟩ := Contents.mk.inj h
      obtain ⟨hcells, hrows⟩ := List.cons_eq_cons.mp hrows
      exact ⟨Contents.ext hcells hrows htables, htag, fun hcell => by cases hcell⟩
    | cellEnd =>
      obtain ⟨hcells, hrows, htables⟩ := Contents.mk.inj h
      obtain ⟨htext, hcells⟩ := List.cons_eq_cons.mp hcells
      exact ⟨Contents.ext hcells hrows htables, htag, fun _ => htext⟩

theorem sameCell_of_contents {l l' : List (Text × Bytes)} (htags : l.map Prod.snd = l'.map Prod.snd)
    (h : contents l = contents l') : List.Forall₂ SameCell l l' := by
  induction l generalizing l' with
  | nil =>
    obtain rfl := List.map_eq_nil_iff.mp htags.symm
    exact .nil
  | cons p l ih =>
    cases l' with
    | nil => cases htags
    | cons p' l' =>
      obtain ⟨htag, htags⟩ := List.cons_eq_cons.mp htags
      obtain ⟨hrest, hp⟩ := Contents.add_inj htag h
      exact .cons hp (ih htags hrest)

section

variable {refs : References}

theorem read_page_of_reads {l : List Entry} (h : ∀ e ∈ l, Reads refs e.raw e.shown) :
    (read refs (page l)).1 = l.map Entry.piece := by
  induction l with
  | nil => rw [page, List.flatMap_nil, read, List.map_nil]
  | cons e l ih =>
    obtain ⟨he, hl⟩ := List.forall_mem_cons.mp h
    rw [page, List.flatMap_cons, read_entry he, ← page, ih hl, List.map_cons]

/-- The entries are read one after the other, up to the first one that fails. -/
theorem reads_of_sameCell {l : List Entry} (h : ∀ e ∈ l, e.Allowed refs)
    (hsame : List.Forall₂ SameCell (read refs (page l)).1 (l.map Entry.piece)) :
    ∀ e ∈ l, Reads refs e.raw e.shown := by
  induction l with
  | nil =>
    intro e he
    cases he
  | cons e l ih =>
    obtain ⟨he, hl⟩ := List.forall_mem_cons.mp h
    rw [page, List.flatMap_cons, ← page, List.map_cons] at hsame
    have hreads : Reads refs e.raw e.shown := by
      rcases he with he | ⟨hcell, hshown⟩
      · exact he
      · obtain ⟨⟨x, m⟩, rest, hp, -, hread⟩ := List.forall₂_cons_right_iff.mp hsame
        obtain rfl : m = e.tag := hp.1
        have hx : x = toText e.raw := (hp.2 hcell).trans hshown
        rw [hshown]
        exact reads_of_plain (plain_of_head hread hx)
    rw [read_entry hreads] at hsame
    exact List.forall_mem_cons.mpr ⟨hreads, ih hl (List.forall₂_cons.mp hsame).2⟩

/-- **The reading of a page.**  The reader finds the tags of the page and no others, with the text that should
be in each cell, if and only if every text is read as what it should be. -/
theorem read_page_iff {l : List Entry} (h : ∀ e ∈ l, e.Allowed refs) :
    ((read refs (page l)).1.map Prod.snd = l.map Entry.tag ∧
        contents (read refs (page l)).1 = contents (l.map Entry.piece)) ↔
      ∀ e ∈ l, Reads refs e.raw e.shown := by
  have htags : (l.map Entry.piece).map Prod.snd = l.map Entry.tag := by
    rw [List.map_map]
    rfl
  constructor
  · rintro ⟨hsnd, hcontents⟩
    exact reads_of_sameCell h (sameCell_of_contents (hsnd.trans htags.symm) hcontents)
  · intro hall
    rw [read_page_of_reads hall]
    exact ⟨htags, rfl⟩

end

end HtmlReader
