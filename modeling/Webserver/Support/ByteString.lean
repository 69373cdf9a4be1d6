import Mathlib.Order.Lattice
import Mathlib.Data.List.Lex
import Mathlib.Data.List.TakeWhile

/-!
# Bytes and byte strings

A `std::string` is a list of bytes.  Character and string literals are written `byte 'H'` and
`bytes "HTTP/"`; both evaluate, so a test on a literal is decided by computation.  A `char` is read as
an `int` through `charToInt`, the sign extension of a platform whose plain `char` is signed.
-/

namespace ByteString

abbrev Byte := UInt8

abbrev Bytes := List Byte

/-- The byte of an ASCII character literal. -/
@[simp] def byte (c : Char) : Byte := UInt8.ofNat c.toNat

/-- The bytes of an ASCII string literal. -/
def bytes (s : String) : Bytes := s.toList.map byte

/-- The order of `char_traits<char>::lt`, which compares bytes as unsigned numbers. -/
instance : LinearOrder Byte where
  le_refl _ := UInt8.le_refl _
  le_trans _ _ _ := UInt8.le_trans
  le_antisymm _ _ := UInt8.le_antisymm
  le_total := UInt8.le_total
  lt_iff_le_not_ge a b := by
    rw [UInt8.lt_iff_toNat_lt, UInt8.le_iff_toNat_le, UInt8.le_iff_toNat_le]
    omega
  toDecidableLE := inferInstance
  toDecidableLT := inferInstance
  toDecidableEq := inferInstance

/-- A bounded test over a byte string runs through the string, not through all the bytes there are. -/
instance (priority := 2000) decidableForallMem {p : Byte → Prop} [DecidablePred p] (s : Bytes) :
    Decidable (∀ b ∈ s, p b) := List.decidableBAll p s

/-- The same for the first byte of a string, if there is one. -/
instance (priority := 2000) decidableForallMemOption {p : Byte → Prop} [DecidablePred p] (o : Option Byte) :
    Decidable (∀ b ∈ o, p b) := Option.decidableForallMem o

instance (priority := 2000) decidableMem (b : Byte) (s : Bytes) : Decidable (b ∈ s) :=
  List.instDecidableMemOfLawfulBEq b s

/-- A plain (signed) `char` converted to `int`. -/
def charToInt (b : Byte) : ℤ := if b.toNat < 128 then b.toNat else b.toNat - 256

theorem charToInt_of_lt {b : Byte} (h : b.toNat < 128) : charToInt b = b.toNat := by
  rw [charToInt, if_pos h]

theorem charToInt_of_ge {b : Byte} (h : 128 ≤ b.toNat) : charToInt b = b.toNat - 256 := by
  rw [charToInt, if_neg (by omega)]

/-- `isspace` of the "C" locale. -/
def isSpace (b : Byte) : Bool := (9 ≤ b.toNat ∧ b.toNat ≤ 13) ∨ b.toNat = 32

/-! ### What is in front of a character -/

section Front

variable {α : Type*} {c : α}

/-- A character that stops the search hides everything after it. -/
theorem takeWhile_append_cons {p : α → Bool} (hc : p c = false) (s t : List α) :
    (s ++ c :: t).takeWhile p = s.takeWhile p := by
  induction s with
  | nil => rw [List.nil_append, List.takeWhile_cons_of_neg (by rw [hc]; decide), List.takeWhile_nil]
  | cons d s ih => rw [List.cons_append, List.takeWhile_cons, List.takeWhile_cons, ih]

variable [DecidableEq α] {s : List α}

theorem decide_ne_of_notMem (h : c ∉ s) : ∀ x ∈ s, decide (x ≠ c) = true := by
  intro x hx
  rw [decide_eq_true_iff]
  rintro rfl
  exact h hx

theorem notMem_takeWhile_ne (c : α) (s : List α) : c ∉ s.takeWhile (· ≠ c) := by
  intro hmem
  have hne : decide (c ≠ c) = true := List.mem_takeWhile_imp (p := (· ≠ c)) hmem
  exact of_decide_eq_true hne rfl

theorem takeWhile_ne_eq_self_iff : s.takeWhile (· ≠ c) = s ↔ c ∉ s := by
  constructor
  · intro h
    rw [← h]
    exact notMem_takeWhile_ne c s
  · intro h
    exact List.takeWhile_eq_self_iff.mpr (decide_ne_of_notMem h)

theorem takeWhile_ne_append_of_notMem (h : c ∉ s) (t : List α) :
    (s ++ t).takeWhile (· ≠ c) = s ++ t.takeWhile (· ≠ c) :=
  List.takeWhile_append_of_pos (decide_ne_of_notMem h)

theorem takeWhile_ne_append_of_mem (h : c ∈ s) (t : List α) :
    (s ++ t).takeWhile (· ≠ c) = s.takeWhile (· ≠ c) := by
  have hfront (a b : List α) : (a ++ c :: b).takeWhile (· ≠ c) = a.takeWhile (· ≠ c) :=
    takeWhile_append_cons (p := (· ≠ c)) (decide_eq_false (not_not.mpr rfl)) a b
  obtain ⟨a, b, rfl⟩ := List.append_of_mem h
  rw [List.append_assoc, List.cons_append, hfront, hfront]

end Front

/-- The string a C function sees through `c_str()`: the bytes before the first NUL. -/
def cStr (s : Bytes) : Bytes := s.takeWhile (· ≠ 0)

theorem cStr_eq_self_iff {s : Bytes} : cStr s = s ↔ (0 : Byte) ∉ s := takeWhile_ne_eq_self_iff

theorem cStr_eq_self {s : Bytes} (h : (0 : Byte) ∉ s) : cStr s = s := cStr_eq_self_iff.mpr h

theorem cStr_isPrefix (s : Bytes) : cStr s <+: s := List.takeWhile_prefix _

/-- A NUL in the first part hides everything after it. -/
theorem cStr_append_of_mem {s : Bytes} (h : (0 : Byte) ∈ s) (t : Bytes) : cStr (s ++ t) = cStr s :=
  takeWhile_ne_append_of_mem h t

theorem cStr_append_of_notMem {s : Bytes} (h : (0 : Byte) ∉ s) (t : Bytes) : cStr (s ++ t) = s ++ cStr t :=
  takeWhile_ne_append_of_notMem h t

/-- Two texts are cut at the same place by a delimiter that is in neither front part. -/
theorem append_cons_inj {α : Type*} {c : α} {a b x y : List α} (ha : c ∉ a) (hb : c ∉ b) :
    a ++ c :: x = b ++ c :: y ↔ a = b ∧ x = y := by
  induction a generalizing b with
  | nil =>
    cases b with
    | nil => simp
    | cons d b => simp [(List.ne_and_not_mem_of_not_mem_cons hb).1]
  | cons d a ih =>
    obtain ⟨hd, ha⟩ := List.ne_and_not_mem_of_not_mem_cons ha
    cases b with
    | nil => simp [hd.symm]
    | cons e b =>
      obtain ⟨-, hb⟩ := List.ne_and_not_mem_of_not_mem_cons hb
      simp [ih ha hb, and_assoc]

end ByteString
