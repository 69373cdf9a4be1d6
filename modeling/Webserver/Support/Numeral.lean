import Mathlib.Algebra.Group.Int.Defs
import Mathlib.Algebra.Group.Nat.Defs
import Mathlib.Data.List.Infix
import Webserver.Support.ByteString
import Webserver.Support.CxxString

/-!
# Reading numbers

`strtoX` is the common part of the C functions `strtol` and `strtoull` in base ten: leading white space
and one sign are skipped and the longest run of digits is read.  `stoull` and `stoi` are the C++ wrappers
with their exceptions.  `extractHexInt` is `is >> std::hex >> value` into an `int` on a fresh
`std::istringstream`: white space, a sign and an `0x` prefix are allowed, and at least one digit must
follow.
-/

namespace Numeral

open ByteString CxxString

def isDecDigit (b : Byte) : Bool := 48 ≤ b.toNat ∧ b.toNat ≤ 57

def isHexDigit (b : Byte) : Bool :=
  isDecDigit b ∨ (65 ≤ b.toNat ∧ b.toNat ≤ 70) ∨ (97 ≤ b.toNat ∧ b.toNat ≤ 102)

/-- The value of a decimal or hexadecimal digit. -/
def digitValue (b : Byte) : ℕ :=
  if b.toNat ≤ 57 then b.toNat - 48
  else if b.toNat ≤ 70 then b.toNat - 55
  else b.toNat - 87

/-- The number a run of digits denotes, most significant digit first. -/
def ofDigits (base : ℕ) (ds : Bytes) : ℕ := ds.foldl (fun n d => base * n + digitValue d) 0

/-- Split off one optional sign; the first component says whether it was a minus. -/
def readSign : Bytes → Bool × Bytes
  | [] => (false, [])
  | b :: s => if b = byte '-' then (true, s) else if b = byte '+' then (false, s) else (false, b :: s)

/-- Sign and magnitude of the number at the start of a string; `none` when no digit is there. -/
def strtoX (s : Bytes) : Option (Bool × ℕ) :=
  let (neg, t) := readSign (s.dropWhile isSpace)
  let ds := t.takeWhile isDecDigit
  if ds = [] then none else some (neg, ofDigits 10 ds)

/-- `std::stoull`: a minus sign negates modulo `2 ^ 64`. -/
def stoull (s : Bytes) : Except StdException ℕ :=
  match strtoX s with
  | none => .error .invalidArgument
  | some (neg, v) =>
    if 2 ^ 64 ≤ v then .error .outOfRange
    else .ok (if neg then (2 ^ 64 - v) % 2 ^ 64 else v)

/-- `std::stoi`. -/
def stoi (s : Bytes) : Except StdException ℤ :=
  match strtoX s with
  | none => .error .invalidArgument
  | some (neg, v) =>
    let n : ℤ := if neg then -v else v
    if n < -2 ^ 31 ∨ 2 ^ 31 ≤ n then .error .outOfRange else .ok n

/-- Skip the `0x` that a hexadecimal number may start with. -/
def skipHexPrefix : Bytes → Bytes
  | z :: x :: s => if z = byte '0' ∧ (x = byte 'x' ∨ x = byte 'X') then s else z :: x :: s
  | s => s

/-- `is >> std::hex >> value` for an `int value`; `none` when the extraction fails. -/
def extractHexInt (s : Bytes) : Option ℤ :=
  let (neg, t) := readSign (s.dropWhile isSpace)
  let ds := (skipHexPrefix t).takeWhile isHexDigit
  let n : ℤ := if neg then -(ofDigits 16 ds) else ofDigits 16 ds
  if ds = [] ∨ n < -2 ^ 31 ∨ 2 ^ 31 ≤ n then none else some n

/-- `static_cast<char>(value)`. -/
def toChar (n : ℤ) : Byte := UInt8.ofNat (n % 256).toNat

/-- The result of `stoull` fits an `unsigned long long`. -/
theorem stoull_lt {s : Bytes} {n : ℕ} (h : stoull s = .ok n) : n < 2 ^ 64 := by
  rw [stoull] at h
  cases hs : strtoX s with
  | none => rw [hs] at h; cases h
  | some p =>
    obtain ⟨neg, v⟩ := p
    rw [hs] at h
    simp only at h
    split_ifs at h with hv hn
    · rw [← Except.ok.inj h]
      exact Nat.mod_lt _ (by decide)
    · rw [← Except.ok.inj h]
      omega

/-! ### The number at the start of a text -/

/-- `sign` is what a number may have in front of its digits. -/
def IsSign (sign : Bytes) (neg : Bool) : Prop :=
  (sign = [] ∨ sign = bytes "+") ∧ neg = false ∨ sign = bytes "-" ∧ neg = true

/-- **The text starts with a number**: white space, an optional sign, and a run of digits, as long as it
goes. -/
def StartsWithNumber (s : Bytes) (neg : Bool) (v : ℕ) : Prop :=
  ∃ blanks sign digits rest, s = blanks ++ (sign ++ (digits ++ rest)) ∧ (∀ b ∈ blanks, isSpace b) ∧
    IsSign sign neg ∧ digits ≠ [] ∧ (∀ b ∈ digits, isDecDigit b) ∧ (∀ b ∈ rest.head?, isDecDigit b = false) ∧
    v = ofDigits 10 digits

theorem takeWhile_append_of_head? {α : Type*} {p : α → Bool} {xs ys : List α} (hxs : ∀ x ∈ xs, p x)
    (hys : ∀ y ∈ ys.head?, p y = false) : (xs ++ ys).takeWhile p = xs := by
  rw [List.takeWhile_append_of_pos hxs]
  cases ys with
  | nil => simp
  | cons y ys => rw [List.takeWhile_cons_of_neg (by simp [hys y rfl]), List.append_nil]

theorem dropWhile_append_of_head? {α : Type*} {p : α → Bool} {xs ys : List α} (hxs : ∀ x ∈ xs, p x)
    (hys : ∀ y ∈ ys.head?, p y = false) : (xs ++ ys).dropWhile p = ys := by
  rw [List.dropWhile_append_of_pos hxs]
  cases ys with
  | nil => rfl
  | cons y ys => rw [List.dropWhile_cons_of_neg (by simp [hys y rfl])]

theorem dropWhile_head? {α : Type*} (p : α → Bool) (xs : List α) :
    ∀ y ∈ (xs.dropWhile p).head?, p y = false := by
  intro y hy
  have h := List.head?_dropWhile_not p xs
  rw [Option.mem_def.mp hy] at h
  simpa using h

theorem isDecDigit_range {b : Byte} (h : isDecDigit b) : 48 ≤ b.toNat ∧ b.toNat ≤ 57 := of_decide_eq_true h

theorem isHexDigit_range {b : Byte} (h : isHexDigit b) :
    (48 ≤ b.toNat ∧ b.toNat ≤ 57) ∨ (65 ≤ b.toNat ∧ b.toNat ≤ 70) ∨ (97 ≤ b.toNat ∧ b.toNat ≤ 102) :=
  (of_decide_eq_true h).imp_left isDecDigit_range

/-- A digit is neither white space nor a sign. -/
theorem isDecDigit_spec {b : Byte} (h : isDecDigit b) : isSpace b = false ∧ b ≠ byte '-' ∧ b ≠ byte '+' := by
  have hrange := isDecDigit_range h
  refine ⟨?_, ?_, ?_⟩
  · rw [isSpace, decide_eq_false_iff_not]
    omega
  · rintro rfl
    exact absurd h (by decide)
  · rintro rfl
    exact absurd h (by decide)

/-- After a sign, or without one, `readSign` is at the digits. -/
theorem readSign_append {sign digits : Bytes} {neg : Bool} (hsign : IsSign sign neg)
    (hdigits : ∀ b ∈ digits.head?, isDecDigit b) : readSign (sign ++ digits) = (neg, digits) := by
  rcases hsign with ⟨rfl | rfl, rfl⟩ | ⟨rfl, rfl⟩
  · cases digits with
    | nil => rfl
    | cons b digits =>
      obtain ⟨-, hminus, hplus⟩ := isDecDigit_spec (hdigits b rfl)
      show (if b = byte '-' then _ else if b = byte '+' then _ else _) = _
      rw [if_neg hminus, if_neg hplus]
  · rfl
  · rfl

theorem readSign_eq (s : Bytes) : ∃ sign, s = sign ++ (readSign s).2 ∧ IsSign sign (readSign s).1 := by
  cases s with
  | nil => exact ⟨[], rfl, .inl ⟨.inl rfl, rfl⟩⟩
  | cons b s =>
    rw [readSign]
    split_ifs with hminus hplus
    · exact ⟨bytes "-", by rw [hminus]; rfl, .inr ⟨rfl, rfl⟩⟩
    · exact ⟨bytes "+", by rw [hplus]; rfl, .inl ⟨.inr rfl, rfl⟩⟩
    · exact ⟨[], rfl, .inl ⟨.inl rfl, rfl⟩⟩

/-- **`strtoX` reads the number at the start.** -/
theorem strtoX_eq_some_iff {s : Bytes} {neg : Bool} {v : ℕ} :
    strtoX s = some (neg, v) ↔ StartsWithNumber s neg v := by
  constructor
  · intro h
    simp only [strtoX] at h
    split_ifs at h with hdigits
    obtain ⟨sign, hsplit, hsign⟩ := readSign_eq (s.dropWhile isSpace)
    obtain ⟨hneg, hv⟩ := Prod.mk.inj (Option.some.inj h)
    refine ⟨s.takeWhile isSpace, sign, _, (readSign (s.dropWhile isSpace)).2.dropWhile isDecDigit, ?_,
      fun b hb => List.mem_takeWhile_imp hb, hneg ▸ hsign, hdigits, fun b hb => List.mem_takeWhile_imp hb,
      dropWhile_head? isDecDigit _, hv.symm⟩
    rw [List.takeWhile_append_dropWhile, ← hsplit, List.takeWhile_append_dropWhile]
  · intro h
    obtain ⟨blanks, sign, digits, rest, rfl, hblanks, hsign, hne, hdigits, hrest, rfl⟩ := h
    obtain ⟨d, ds, rfl⟩ := List.exists_cons_of_ne_nil hne
    have hd : isDecDigit d := hdigits d List.mem_cons_self
    have hspace : ∀ b ∈ (sign ++ (d :: ds ++ rest)).head?, isSpace b = false := by
      intro b hb
      rcases hsign with ⟨rfl | rfl, -⟩ | ⟨rfl, -⟩
      · obtain rfl : d = b := Option.some.inj hb
        exact (isDecDigit_spec hd).1
      · obtain rfl : byte '+' = b := Option.some.inj hb
        decide
      · obtain rfl : byte '-' = b := Option.some.inj hb
        decide
    have hsigned : readSign (sign ++ (d :: ds ++ rest)) = (neg, d :: ds ++ rest) :=
      readSign_append hsign fun b hb => by
        obtain rfl : d = b := Option.some.inj hb
        exact hd
    simp only [strtoX]
    rw [dropWhile_append_of_head? hblanks hspace, hsigned]
    show (if (d :: ds ++ rest).takeWhile isDecDigit = [] then none else some _) = _
    rw [takeWhile_append_of_head? hdigits hrest, if_neg hne]

/-- **`std::stoull` returns** the number at the start, unless it is too large; a minus sign negates it
modulo `2 ^ 64`. -/
theorem stoull_eq_ok_iff {s : Bytes} {n : ℕ} :
    stoull s = .ok n ↔ ∃ neg v, StartsWithNumber s neg v ∧ v < 2 ^ 64 ∧
      n = if neg then (2 ^ 64 - v) % 2 ^ 64 else v := by
  simp only [← strtoX_eq_some_iff]
  rw [stoull]
  cases h : strtoX s with
  | none => simp
  | some p =>
    obtain ⟨neg, v⟩ := p
    simp only [Option.some.injEq, Prod.mk.injEq]
    by_cases hv : 2 ^ 64 ≤ v
    · rw [if_pos hv]
      refine iff_of_false (fun h => by cases h) ?_
      intro hex
      obtain ⟨neg', v', ⟨rfl, rfl⟩, hlt, -⟩ := hex
      omega
    · rw [if_neg hv, Except.ok.injEq]
      constructor
      · intro hn
        exact ⟨neg, v, ⟨rfl, rfl⟩, by omega, hn.symm⟩
      · intro hex
        obtain ⟨neg', v', ⟨rfl, rfl⟩, -, hn⟩ := hex
        exact hn.symm

/-- Digits and nothing else. -/
def PlainNumeral (s : Bytes) (n : ℕ) : Prop :=
  s ≠ [] ∧ (∀ b ∈ s, isDecDigit b) ∧ ofDigits 10 s = n ∧ n < 2 ^ 64

theorem PlainNumeral.stoull_eq {s : Bytes} {n : ℕ} (h : PlainNumeral s n) : stoull s = .ok n := by
  obtain ⟨hne, hdigits, hval, hlt⟩ := h
  refine stoull_eq_ok_iff.mpr ⟨false, n, ⟨[], [], s, [], ?_, ?_, ?_, hne, hdigits, ?_, hval.symm⟩, hlt, rfl⟩
  · rw [List.append_nil]
    rfl
  · exact fun b hb => by cases hb
  · exact .inl ⟨.inl rfl, rfl⟩
  · exact fun b hb => by cases hb

/-! ### Two hexadecimal digits -/

/-- A hexadecimal digit is neither white space, nor a sign, nor an `x`. -/
theorem isHexDigit_spec {b : Byte} (h : isHexDigit b) :
    isSpace b = false ∧ b ≠ byte '-' ∧ b ≠ byte '+' ∧ b ≠ byte 'x' ∧ b ≠ byte 'X' := by
  have hrange := isHexDigit_range h
  refine ⟨?_, ?_, ?_, ?_, ?_⟩
  · rw [isSpace, decide_eq_false_iff_not]
    omega
  all_goals
    intro hb
    rw [hb] at h
    exact absurd h (by decide)

theorem digitValue_lt {b : Byte} (h : isHexDigit b) : digitValue b < 16 := by
  have hrange := isHexDigit_range h
  rw [digitValue]
  split_ifs
  all_goals omega

/-- **Two digits** are the number they denote, whatever the first one is. -/
theorem extractHexInt_digits {hi lo : Byte} (hhi : isHexDigit hi) (hlo : isHexDigit lo) :
    extractHexInt [hi, lo] = some ((16 * digitValue hi + digitValue lo : ℕ) : ℤ) := by
  obtain ⟨hspace, hminus, hplus, -, -⟩ := isHexDigit_spec hhi
  obtain ⟨-, -, -, hx, hX⟩ := isHexDigit_spec hlo
  have hsign : readSign ([hi, lo].dropWhile isSpace) = (false, [hi, lo]) := by
    rw [List.dropWhile_cons_of_neg (by simp [hspace]), readSign, if_neg hminus, if_neg hplus]
  have hskip : skipHexPrefix [hi, lo] = [hi, lo] := by
    rw [skipHexPrefix, if_neg]
    intro h
    exact h.2.elim hx hX
  have htake : [hi, lo].takeWhile isHexDigit = [hi, lo] := by
    rw [List.takeWhile_cons_of_pos hhi, List.takeWhile_cons_of_pos hlo, List.takeWhile_nil]
  have hvalue : ofDigits 16 [hi, lo] = 16 * digitValue hi + digitValue lo := by
    simp [ofDigits]
  have := digitValue_lt hhi
  have := digitValue_lt hlo
  simp only [extractHexInt, hsign, hskip, htake, hvalue, Bool.false_eq_true, if_false]
  rw [if_neg]
  intro h
  rcases h with h | h | h
  · cases h
  · omega
  · omega

theorem skipHexPrefix_suffix (s : Bytes) : skipHexPrefix s <:+ s := by
  match s with
  | [] => exact List.suffix_rfl
  | [c] => exact List.suffix_rfl
  | z :: x :: s =>
    rw [skipHexPrefix]
    split_ifs
    · exact ⟨[z, x], rfl⟩
    · exact List.suffix_rfl

/-- **Two characters that hold a number** are two digits, or hold a number of one digit. -/
theorem extractHexInt_pair {hi lo : Byte} {n : ℤ} (h : extractHexInt [hi, lo] = some n) :
    (isHexDigit hi ∧ isHexDigit lo ∧ n = ((16 * digitValue hi + digitValue lo : ℕ) : ℤ)) ∨ (-16 < n ∧ n < 16) := by
  by_cases hboth : isHexDigit hi ∧ isHexDigit lo
  · rw [extractHexInt_digits hboth.1 hboth.2] at h
    exact .inl ⟨hboth.1, hboth.2, (Option.some.inj h).symm⟩
  right
  obtain ⟨sign, hsplit, -⟩ := readSign_eq ([hi, lo].dropWhile isSpace)
  obtain ⟨ds, hds⟩ : ∃ ds, ds = (skipHexPrefix (readSign ([hi, lo].dropWhile isSpace)).2).takeWhile isHexDigit :=
    ⟨_, rfl⟩
  have hdigits : ∀ d ∈ ds, isHexDigit d := by
    intro d hd
    rw [hds] at hd
    exact List.mem_takeWhile_imp hd
  -- the digits are a part of the two characters, and not both
  have hinfix : ds <:+: [hi, lo] := by
    have hsuffix : (readSign ([hi, lo].dropWhile isSpace)).2 <:+ [hi, lo] := by
      have hsuffix' : (readSign ([hi, lo].dropWhile isSpace)).2 <:+ [hi, lo].dropWhile isSpace := ⟨sign, hsplit.symm⟩
      exact hsuffix'.trans (List.dropWhile_suffix _)
    rw [hds]
    exact (List.takeWhile_prefix _).isInfix.trans ((skipHexPrefix_suffix _).trans hsuffix).isInfix
  have hlength : ds.length < 2 := by
    have hle : ds.length ≤ [hi, lo].length := hinfix.length_le
    have hlen2 : [hi, lo].length = 2 := rfl
    by_contra hlong
    have heq : ds = [hi, lo] := hinfix.eq_of_length (by omega)
    rw [heq] at hdigits
    exact hboth ⟨hdigits hi (by simp), hdigits lo (by simp)⟩
  have hsmall : ofDigits 16 ds < 16 := by
    match ds, hlength with
    | [], _ => decide
    | [d], _ =>
      have hd := digitValue_lt (hdigits d List.mem_cons_self)
      simpa [ofDigits] using hd
  simp only [extractHexInt, ← hds] at h
  split_ifs at h
  · have hn := Option.some.inj h
    omega
  · have hn := Option.some.inj h
    omega

/-- The byte that two digits stand for. -/
theorem toChar_natCast (n : ℕ) : toChar n = UInt8.ofNat n := by
  rw [toChar]
  apply UInt8.toNat_inj.mp
  rw [UInt8.toNat_ofNat', UInt8.toNat_ofNat']
  omega

example : stoull (bytes " -1x") = .ok (2 ^ 64 - 1) := by decide

example : extractHexInt (bytes "+5") = some 5 := by decide

end Numeral
