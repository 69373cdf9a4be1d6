import Mathlib.Data.List.Infix
import Mathlib.Tactic.Tauto
import Webserver.Support.ByteString

/-!
# Long brackets of level zero

The literals `[[ ... ]]` of Lua, as `read_long_string` of the vendored `lj_lex.c` reads them: the text goes up to
the first `]]`, nothing in it is an escape, a line end right behind the opening brackets is skipped, and every
other line end becomes a newline, where a carriage return and a newline next to each other are one line end.

`readLongString` is started behind `[[`; it returns the text and what follows the closing brackets, and nothing
when there are none.
-/

namespace LongBracket

open ByteString

/-- `currIsNewline`. -/
def isLineEnd (c : Byte) : Bool := c = byte '\n' ∨ c = byte '\r'

/-- One more byte in front of the text. -/
def save (c : Byte) (r : Option (Bytes × Bytes)) : Option (Bytes × Bytes) := r.map fun p => (c :: p.1, p.2)

/-- The loop of `read_long_string`. -/
def readBody : Bytes → Option (Bytes × Bytes)
  | [] => none
  -- a last byte cannot close the literal
  | [_] => none
  | c :: d :: s =>
    if c = byte ']' ∧ d = byte ']' then some ([], s)
    else if isLineEnd c then
      if isLineEnd d ∧ d ≠ c then save (byte '\n') (readBody s) else save (byte '\n') (readBody (d :: s))
    else save c (readBody (d :: s))

/-- `inclinenumber` on a line end: what is left behind it. -/
def skipLineEnd : Bytes → Bytes
  | [] => []
  | [c] => if isLineEnd c then [] else [c]
  | c :: d :: s => if isLineEnd c then if isLineEnd d ∧ d ≠ c then s else d :: s else c :: d :: s

/-- `read_long_string`. -/
def readLongString (s : Bytes) : Option (Bytes × Bytes) := readBody (skipLineEnd s)

/-! ### One byte -/

/-- A byte that is no line end, and does not close the literal with the one behind it, is copied. -/
theorem readBody_cons {c : Byte} {s : Bytes} (hline : isLineEnd c = false)
    (hclose : ¬ (c = byte ']' ∧ s.head? = some (byte ']'))) : readBody (c :: s) = save c (readBody s) := by
  cases s with
  | nil => rfl
  | cons d s =>
    have hclose : ¬ (c = byte ']' ∧ d = byte ']') := fun h => hclose ⟨h.1, by rw [h.2]; rfl⟩
    rw [readBody, if_neg hclose, hline]
    rfl

/-- A newline is a line end of its own when no carriage return is behind it. -/
theorem not_paired {d : Byte} {s : Bytes} (hs : (d :: s).head? ≠ some (byte '\r')) :
    ¬ (isLineEnd d = true ∧ d ≠ byte '\n') := by
  have hd : d ≠ byte '\r' := fun h => hs (by rw [h]; rfl)
  rw [isLineEnd, decide_eq_true_iff]
  tauto

/-- A newline without a carriage return behind it is copied. -/
theorem readBody_newline {s : Bytes} (hs : s.head? ≠ some (byte '\r')) :
    readBody (byte '\n' :: s) = save (byte '\n') (readBody s) := by
  cases s with
  | nil => rfl
  | cons d s =>
    rw [readBody, if_neg fun h => absurd h.1 (by decide), if_pos (by decide), if_neg (not_paired hs)]

theorem save_eq_some {c : Byte} {r : Option (Bytes × Bytes)} {v rest : Bytes} (h : save c r = some (v, rest)) :
    ∃ v', r = some (v', rest) ∧ v = c :: v' := by
  obtain ⟨⟨v', rest'⟩, hr, hp⟩ := Option.map_eq_some_iff.mp h
  obtain ⟨rfl, rfl⟩ := Prod.mk.inj hp
  exact ⟨v', hr, rfl⟩

/-! ### The whole literal -/

/-- **A literal ends at closing brackets**, and its text has no carriage return. -/
theorem readBody_spec {s v rest : Bytes} (h : readBody s = some (v, rest)) :
    (∃ front, s = front ++ bytes "]]" ++ rest) ∧ byte '\r' ∉ v := by
  fun_induction readBody s generalizing v rest with
  | case1 => cases h
  | case2 => cases h
  | case3 c d s hclose =>
    obtain ⟨rfl, rfl⟩ := hclose
    obtain ⟨rfl, rfl⟩ := Prod.mk.inj (Option.some.inj h)
    exact ⟨⟨[], rfl⟩, List.not_mem_nil⟩
  | case4 c d s _ _ _ ih =>
    obtain ⟨v', hv', rfl⟩ := save_eq_some h
    obtain ⟨⟨front, rfl⟩, hcr⟩ := ih hv'
    refine ⟨⟨c :: d :: front, rfl⟩, ?_⟩
    rw [List.mem_cons, not_or]
    exact ⟨by decide, hcr⟩
  | case5 c d s _ _ _ ih =>
    obtain ⟨v', hv', rfl⟩ := save_eq_some h
    obtain ⟨⟨front, hfront⟩, hcr⟩ := ih hv'
    refine ⟨⟨c :: front, by rw [hfront]; rfl⟩, ?_⟩
    rw [List.mem_cons, not_or]
    exact ⟨by decide, hcr⟩
  | case6 c d s _ hline ih =>
    obtain ⟨v', hv', rfl⟩ := save_eq_some h
    obtain ⟨⟨front, hfront⟩, hcr⟩ := ih hv'
    refine ⟨⟨c :: front, by rw [hfront]; rfl⟩, ?_⟩
    rw [List.mem_cons, not_or]
    refine ⟨?_, hcr⟩
    rintro rfl
    exact hline (by decide)

theorem skipLineEnd_suffix (s : Bytes) : skipLineEnd s <:+ s := by
  match s with
  | [] => exact List.suffix_rfl
  | [c] =>
    rw [skipLineEnd]
    split_ifs
    · exact List.nil_suffix
    · exact List.suffix_rfl
  | c :: d :: s =>
    rw [skipLineEnd]
    split_ifs
    · exact ⟨[c, d], rfl⟩
    · exact List.suffix_cons c _
    · exact List.suffix_rfl

theorem readLongString_spec {s v rest : Bytes} (h : readLongString s = some (v, rest)) :
    (∃ front, s = front ++ bytes "]]" ++ rest) ∧ byte '\r' ∉ v := by
  obtain ⟨⟨front, hfront⟩, hcr⟩ := readBody_spec h
  obtain ⟨skipped, hskipped⟩ := skipLineEnd_suffix s
  exact ⟨⟨skipped ++ front, by rw [← hskipped, hfront]; simp⟩, hcr⟩

/-- Without closing brackets there is no literal. -/
theorem readLongString_eq_none {s : Bytes} (h : ¬ bytes "]]" <:+: s) : readLongString s = none := by
  cases hr : readLongString s with
  | none => rfl
  | some p =>
    obtain ⟨v, rest⟩ := p
    obtain ⟨⟨front, rfl⟩, -⟩ := readLongString_spec hr
    exact absurd ⟨front, rest, rfl⟩ h

/-- A text that does not start with a line end is read from its first byte on. -/
theorem readLongString_eq_readBody {s : Bytes} (h : ∀ c ∈ s.head?, isLineEnd c = false) :
    readLongString s = readBody s := by
  match s with
  | [] => rfl
  | [c] =>
    have hc : isLineEnd c = false := h c rfl
    rw [readLongString, skipLineEnd, hc]
    rfl
  | c :: d :: s =>
    have hc : isLineEnd c = false := h c rfl
    rw [readLongString, skipLineEnd, hc]
    rfl

/-- A newline at the front is skipped. -/
theorem readLongString_newline {s : Bytes} (hs : s.head? ≠ some (byte '\r')) :
    readLongString (byte '\n' :: s) = readBody s := by
  cases s with
  | nil => rfl
  | cons d s =>
    rw [readLongString, skipLineEnd, if_pos (by decide), if_neg (not_paired hs)]

example : readLongString (bytes "\r\na\r\nb\\]\n]]c") = some (bytes "a\nb\\]\n", bytes "c") := by decide

end LongBracket
