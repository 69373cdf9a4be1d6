import Mathlib.Algebra.Group.Int.Defs
import Mathlib.Algebra.Group.Nat.Defs
import Mathlib.Data.List.Basic
import Mathlib.Data.List.DropRight
import Mathlib.Tactic.TypeStar

/-!
# `std::basic_string` operations

Searching, cutting and replacing, over an arbitrary character type.  A position or a count is a `Pos`:
`npos` is `none`, and any index is `some i`.  The two places where C++ does arithmetic on `npos` are
`Pos.succ` (`npos + 1` wraps to `0`) and `Pos.sub` (a difference whose left side is `npos` is a count
that reaches past every end, hence again `npos`).

`substr`, `erase` and `replace` throw `std::out_of_range` when the start position exceeds the size; a
count is clipped to what is left.  The specifications are stated by the decomposition of the string:
`FirstAt pat s a b` says that `s` is `a ++ pat ++ b` and `pat` does not start earlier.
-/

namespace CxxString

variable {α : Type*}

/-- The exceptions of the standard library that the program can meet. -/
inductive StdException where
  | outOfRange
  | invalidArgument
  deriving DecidableEq, Repr

/-- A call that returns goes on with its value. -/
@[simp] theorem ok_bind {β γ : Type _} (x : β) (f : β → Except StdException γ) :
    (.ok x : Except StdException β) >>= f = f x := rfl

@[simp] theorem error_bind {β γ : Type _} (e : StdException) (f : β → Except StdException γ) :
    (.error e : Except StdException β) >>= f = .error e := rfl

/-- A `size_type` position or count; `none` is `npos`. -/
abbrev Pos := Option ℕ

def npos : Pos := none

/-- `pos + 1`, where `npos + 1` wraps around to `0`. -/
def Pos.succ : Pos → ℕ
  | none => 0
  | some i => i + 1

/-- `last - first` used as a count. -/
def Pos.sub : Pos → Pos → Pos
  | some e, some p => if p ≤ e then some (e - p) else npos
  | _, _ => npos

@[simp] theorem Pos.succ_none : Pos.succ none = 0 := rfl

@[simp] theorem Pos.succ_some (i : ℕ) : Pos.succ (some i) = i + 1 := rfl

/-- A distance from a position that was searched from. -/
theorem Pos.sub_map_add (p : Pos) (n : ℕ) : Pos.sub (p.map (· + n)) (some n) = p := by
  cases p with
  | none => rfl
  | some i =>
    show (if n ≤ i + n then some (i + n - n) else npos) = some i
    rw [if_pos (Nat.le_add_left _ _), Nat.add_sub_cancel]

/-- A number in an `int` of 32 bits. -/
def wrapInt (n : ℤ) : ℤ := n.bmod (2 ^ 32)

/-- A `size_type` that is stored in an `int`. -/
def Pos.toInt : Pos → ℤ
  | none => -1
  | some n => wrapInt n

/-- An `int` that is used as a `size_type`.  A negative one becomes a size beyond the end of every string,
which is searched from, cut from and cut to like `npos`. -/
def Pos.ofInt (n : ℤ) : Pos := if n < 0 then npos else some n.toNat

theorem wrapInt_natCast (n : ℕ) : wrapInt n =
    if n % 2 ^ 32 < 2 ^ 31 then ((n % 2 ^ 32 : ℕ) : ℤ) else ((n % 2 ^ 32 : ℕ) : ℤ) - 2 ^ 32 := by
  by_cases h : n % 2 ^ 32 < 2 ^ 31
  · rw [if_pos h, wrapInt, Int.bmod_eq_emod_of_lt (by omega)]
    omega
  · rw [if_neg h, wrapInt, Int.bmod_neg _ _ (by omega)]
    omega

/-- What is left of a position that has been stored in an `int`. -/
theorem Pos.ofInt_toInt (n : ℕ) : Pos.ofInt (Pos.toInt (some n)) =
    if n % 2 ^ 32 < 2 ^ 31 then some (n % 2 ^ 32) else npos := by
  rw [Pos.toInt, wrapInt_natCast]
  by_cases h : n % 2 ^ 32 < 2 ^ 31
  · rw [if_pos h, if_pos h, Pos.ofInt, if_neg (Int.not_lt.mpr (Int.natCast_nonneg _)), Int.toNat_natCast]
  · have hneg : ((n % 2 ^ 32 : ℕ) : ℤ) - 2 ^ 32 < 0 := by omega
    rw [if_neg h, if_neg h, Pos.ofInt, if_pos hneg]

/-- The first `count` elements, or all of them for `npos`. -/
def takeCount (count : Pos) (s : List α) : List α :=
  match count with
  | none => s
  | some n => s.take n

def dropCount (count : Pos) (s : List α) : List α :=
  match count with
  | none => []
  | some n => s.drop n

/-! ### Cutting and replacing -/

/-- `s.substr(pos, count)`. -/
def substr (s : List α) (pos : Pos) (count : Pos) : Except StdException (List α) :=
  match pos with
  | none => .error .outOfRange
  | some i => if i ≤ s.length then .ok (takeCount count (s.drop i)) else .error .outOfRange

/-- `s.replace(pos, count, new)`. -/
def replace (s : List α) (pos : Pos) (count : Pos) (new : List α) :
    Except StdException (List α) :=
  match pos with
  | none => .error .outOfRange
  | some i =>
    if i ≤ s.length then .ok (s.take i ++ new ++ dropCount count (s.drop i))
    else .error .outOfRange

/-- `s.erase(pos, count)`. -/
def erase (s : List α) (pos : Pos) (count : Pos) : Except StdException (List α) :=
  replace s pos count []

theorem substr_zero (s : List α) (count : Pos) : substr s (some 0) count = .ok (takeCount count s) := by
  simp [substr]

theorem substr_of_le {s : List α} {i : ℕ} (h : i ≤ s.length) (count : Pos) :
    substr s (some i) count = .ok (takeCount count (s.drop i)) := by
  rw [substr, if_pos h]

theorem erase_zero (s : List α) (count : Pos) : erase s (some 0) count = .ok (dropCount count s) := by
  simp [erase, replace]

/-- Replacing the middle part of a decomposed string. -/
theorem replace_middle (a t b new : List α) :
    replace (a ++ t ++ b) (some a.length) (some t.length) new = .ok (a ++ new ++ b) := by
  have hle : a.length ≤ (a ++ t ++ b).length := by
    rw [List.append_assoc, List.length_append]
    omega
  rw [replace, if_pos hle, List.append_assoc a t b, List.take_left, List.drop_left]
  show Except.ok (a ++ new ++ (t ++ b).drop t.length) = _
  rw [List.drop_left]

theorem replace_tail (a t new : List α) :
    replace (a ++ t) (some a.length) npos new = .ok (a ++ new) := by
  have hle : a.length ≤ (a ++ t).length := by
    rw [List.length_append]
    omega
  rw [replace, if_pos hle, List.take_left]
  show Except.ok (a ++ new ++ []) = _
  rw [List.append_nil]

/-! ### First occurrences -/

/-- A string splits at the last occurrence of one of its characters. -/
theorem exists_last_split {s : List α} {c : α} (h : c ∈ s) : ∃ a b, s = a ++ c :: b ∧ c ∉ b := by
  obtain ⟨b, a, hsplit, hb⟩ := List.eq_append_cons_of_mem (List.mem_reverse.mpr h)
  refine ⟨a.reverse, b.reverse, ?_, fun hmem => hb (List.mem_reverse.mp hmem)⟩
  have hs := congrArg List.reverse hsplit
  rw [List.reverse_reverse, List.reverse_append, List.reverse_cons, List.append_assoc] at hs
  exact hs

/-- A string splits at the first of its characters that is in a set. -/
theorem exists_first_split {s set : List α} (h : ∃ x ∈ s, x ∈ set) :
    ∃ a c b, s = a ++ c :: b ∧ (∀ x ∈ a, x ∉ set) ∧ c ∈ set := by
  induction s with
  | nil =>
    obtain ⟨x, hx, -⟩ := h
    exact absurd hx List.not_mem_nil
  | cons d s ih =>
    by_cases hd : d ∈ set
    · exact ⟨[], d, s, rfl, fun x hx => absurd hx List.not_mem_nil, hd⟩
    · obtain ⟨x, hx, hset⟩ := h
      rcases List.mem_cons.mp hx with rfl | hx
      · exact absurd hset hd
      · obtain ⟨a, c, b, rfl, ha, hc⟩ := ih ⟨x, hx, hset⟩
        exact ⟨d :: a, c, b, rfl, List.forall_mem_cons.mpr ⟨hd, ha⟩, hc⟩

/-- `s` splits as `a ++ pat ++ b` and no earlier split exists. -/
structure FirstAt (pat s a b : List α) : Prop where
  split : s = a ++ pat ++ b
  first : ∀ a' b', s = a' ++ pat ++ b' → a.length ≤ a'.length

theorem FirstAt.unique {pat s a b a' b' : List α} (h : FirstAt pat s a b)
    (h' : FirstAt pat s a' b') : a = a' ∧ b = b' := by
  have hlen : a.length = a'.length :=
    Nat.le_antisymm (h.first a' b' h'.split) (h'.first a b h.split)
  have heq : a ++ (pat ++ b) = a' ++ (pat ++ b') := by
    rw [← List.append_assoc, ← List.append_assoc, ← h.split, h'.split]
  obtain ⟨ha, hb⟩ := List.append_inj heq hlen
  exact ⟨ha, List.append_cancel_left hb⟩

theorem firstAt_nil_of_prefix {pat s : List α} (h : pat <+: s) :
    FirstAt pat s [] (s.drop pat.length) := by
  obtain ⟨b, rfl⟩ := h
  exact ⟨by simp, fun a' b' _ => Nat.zero_le _⟩

/-- Skipping a character at which the pattern does not start. -/
theorem FirstAt.cons {pat s a b : List α} {c : α} (h : FirstAt pat s a b)
    (hc : ¬ pat <+: c :: s) : FirstAt pat (c :: s) (c :: a) b := by
  refine ⟨by rw [h.split]; rfl, ?_⟩
  intro a' b' hs
  cases a' with
  | nil => exact absurd ⟨b', hs.symm⟩ hc
  | cons d a' =>
    rw [List.cons_append, List.cons_append, List.cons.injEq] at hs
    exact Nat.succ_le_succ (h.first a' b' hs.2)

/-- Before the first occurrence of a character, the character does not occur. -/
theorem FirstAt.notMem {c : α} {s a b : List α} (h : FirstAt [c] s a b) : c ∉ a := by
  intro hmem
  obtain ⟨a₁, a₂, rfl⟩ := List.append_of_mem hmem
  have hle := h.first a₁ (a₂ ++ [c] ++ b) (by rw [h.split]; simp)
  rw [List.length_append, List.length_cons] at hle
  omega

/-- Characters that the pattern does not have can be put in front. -/
theorem FirstAt.append_left {pat s a b : List α} (h : FirstAt pat s a b) (hpat : pat ≠ []) {x : List α}
    (hx : ∀ c ∈ x, c ∉ pat) : FirstAt pat (x ++ s) (x ++ a) b := by
  induction x with
  | nil => exact h
  | cons c x ih =>
    obtain ⟨hc, hx⟩ := List.forall_mem_cons.mp hx
    refine (ih hx).cons ?_
    intro hfront
    obtain ⟨d, pat, rfl⟩ := List.exists_cons_of_ne_nil hpat
    rw [List.cons_prefix_cons] at hfront
    exact hc (hfront.1 ▸ List.mem_cons_self)

/-- An occurrence behind a character that the pattern does not have is the first one, if there is none up to that
character. -/
theorem firstAt_of_end {pat a : List α} {c : α} (ha : ¬ pat <:+: a ++ [c]) (hc : c ∉ pat) (b : List α) :
    FirstAt pat (a ++ [c] ++ pat ++ b) (a ++ [c]) b := by
  refine ⟨rfl, ?_⟩
  intro a' b' hsplit
  rw [List.append_assoc _ pat b, List.append_assoc a' pat b'] at hsplit
  rcases List.append_eq_append_iff.mp hsplit with ⟨t, rfl, -⟩ | ⟨t, hfront, ht⟩
  · exact (List.prefix_append _ t).length_le
  · -- an earlier occurrence would start with `t`, which ends with `c`
    rcases List.eq_nil_or_concat t with rfl | ⟨t, d, rfl⟩
    · rw [hfront, List.append_nil]
    · rw [List.concat_eq_append, ← List.append_assoc] at hfront
      obtain ⟨rfl, hd⟩ := List.append_inj' hfront rfl
      obtain rfl := (List.cons_eq_cons.mp hd).1
      rcases List.append_eq_append_iff.mp ht with ⟨u, hu, -⟩ | ⟨u, hu, -⟩
      · exact absurd ⟨a', u, by rw [List.append_assoc a' t, ← List.concat_eq_append, hu]; simp⟩ ha
      · exact absurd (hu ▸ List.mem_append_left u (by simp)) hc

section Search

variable [DecidableEq α]

/-! ### Searching for a string -/

/-- `s.find(pat)`. -/
def find (pat : List α) : List α → Pos
  | [] => if pat = [] then some 0 else npos
  | c :: s => if pat.isPrefixOf (c :: s) then some 0 else (find pat s).map (· + 1)

/-- `s.find(pat, pos)`. -/
def findFrom (pat s : List α) : Pos → Pos
  | none => npos
  | some i => if i ≤ s.length then (find pat (s.drop i)).map (· + i) else npos

theorem find_eq_none_iff {pat s : List α} : find pat s = none ↔ ¬ pat <:+: s := by
  induction s with
  | nil => by_cases h : pat = [] <;> simp [find, h, npos]
  | cons c s ih =>
    rw [List.infix_cons_iff, not_or, ← ih]
    by_cases h : pat <+: c :: s
    · simp [find, h]
    · simp [find, h]

/-- **`find` returns the first occurrence.** -/
theorem find_eq_some_iff {pat s : List α} {i : ℕ} :
    find pat s = some i ↔ ∃ a b, FirstAt pat s a b ∧ a.length = i := by
  induction s generalizing i with
  | nil =>
    by_cases h : pat = []
    · subst h
      constructor
      · intro hi
        refine ⟨[], [], ⟨rfl, fun _ _ _ => Nat.zero_le _⟩, ?_⟩
        simpa [find] using hi
      · rintro ⟨a, b, hab, rfl⟩
        have ha : a = [] := by simpa using (List.append_eq_nil_iff.mp hab.split.symm).1
        simp [find, ha]
    · constructor
      · simp [find, h, npos]
      · rintro ⟨a, b, hab, -⟩
        exact absurd (by simpa using hab.split : a = [] ∧ pat = [] ∧ b = []).2.1 h
  | cons c s ih =>
    by_cases h : pat <+: c :: s
    · have hfirst := firstAt_nil_of_prefix h
      constructor
      · intro hi
        exact ⟨_, _, hfirst, by simpa [find, h] using hi⟩
      · rintro ⟨a, b, hab, rfl⟩
        rw [← (hfirst.unique hab).1]
        simp [find, h]
    · have hfind : find pat (c :: s) = (find pat s).map (· + 1) := by simp [find, h]
      rw [hfind, Option.map_eq_some_iff]
      constructor
      · rintro ⟨j, hj, rfl⟩
        obtain ⟨a, b, hab, rfl⟩ := ih.mp hj
        exact ⟨c :: a, b, hab.cons h, rfl⟩
      · rintro ⟨a, b, hab, rfl⟩
        cases a with
        | nil => exact absurd ⟨b, hab.split.symm⟩ h
        | cons d a =>
          have hs := hab.split
          rw [List.cons_append, List.cons_append, List.cons.injEq] at hs
          refine ⟨a.length, ih.mpr ⟨a, b, ⟨hs.2, fun a' b' h' => ?_⟩, rfl⟩, rfl⟩
          have := hab.first (c :: a') b' (by rw [h']; rfl)
          simpa using this

theorem FirstAt.find {pat s a b : List α} (h : FirstAt pat s a b) : find pat s = some a.length :=
  find_eq_some_iff.mpr ⟨a, b, h, rfl⟩

theorem exists_firstAt {pat s : List α} (h : pat <:+: s) : ∃ a b, FirstAt pat s a b := by
  cases hf : find pat s with
  | none => exact absurd h (find_eq_none_iff.mp hf)
  | some i =>
    obtain ⟨a, b, hab, -⟩ := find_eq_some_iff.mp hf
    exact ⟨a, b, hab⟩

theorem find_singleton_cons (c d : α) (s : List α) :
    find [c] (d :: s) = if d = c then some 0 else (find [c] s).map (· + 1) := by
  by_cases h : d = c
  · simp [find, h]
  · simp [find, h, Ne.symm h]

theorem find_singleton_append {c : α} {a : List α} (ha : c ∉ a) (b : List α) :
    find [c] (a ++ c :: b) = some a.length := by
  induction a with
  | nil => rw [List.nil_append, find_singleton_cons, if_pos rfl, List.length_nil]
  | cons d a ih =>
    obtain ⟨hd, ha⟩ := List.ne_and_not_mem_of_not_mem_cons ha
    rw [List.cons_append, find_singleton_cons, if_neg hd.symm, ih ha]
    rfl

/-- Everything before a character. -/
theorem takeCount_find (c : α) (s : List α) : takeCount (find [c] s) s = s.takeWhile (· ≠ c) := by
  induction s with
  | nil => rfl
  | cons d s ih =>
    rw [find_singleton_cons]
    by_cases h : d = c
    · rw [if_pos h, List.takeWhile_cons_of_neg (by simpa using h)]
      rfl
    · rw [if_neg h, List.takeWhile_cons_of_pos (by simpa using h), ← ih]
      cases find [c] s with
      | none => rfl
      | some i => rfl

/-- Everything from a character on. -/
theorem dropCount_find (c : α) (s : List α) : dropCount (find [c] s) s = s.dropWhile (· ≠ c) := by
  induction s with
  | nil => rfl
  | cons d s ih =>
    rw [find_singleton_cons]
    by_cases h : d = c
    · rw [if_pos h, List.dropWhile_cons_of_neg (by simpa using h)]
      rfl
    · rw [if_neg h, List.dropWhile_cons_of_pos (by simpa using h), ← ih]
      cases find [c] s with
      | none => rfl
      | some i => rfl

/-- Searching from a position inside the string is searching in what follows it. -/
theorem findFrom_append (pat a s : List α) :
    findFrom pat (a ++ s) (some a.length) = (find pat s).map (· + a.length) := by
  rw [findFrom, if_pos (by rw [List.length_append]; omega), List.drop_left]

/-! ### Searching for a character -/

/-- `s.find_first_of(set)`. -/
def findFirstOf (set : List α) : List α → Pos
  | [] => npos
  | c :: s => if c ∈ set then some 0 else (findFirstOf set s).map (· + 1)

/-- `s.find_first_of(set, pos)`. -/
def findFirstOfFrom (set s : List α) : Pos → Pos
  | none => npos
  | some i => (findFirstOf set (s.drop i)).map (· + i)

theorem findFirstOf_append_cons {set a b : List α} {c : α} (ha : ∀ x ∈ a, x ∉ set) (hc : c ∈ set) :
    findFirstOf set (a ++ c :: b) = some a.length := by
  induction a with
  | nil => rw [List.nil_append, findFirstOf, if_pos hc, List.length_nil]
  | cons d a ih =>
    obtain ⟨hd, ha⟩ := List.forall_mem_cons.mp ha
    rw [List.cons_append, findFirstOf, if_neg hd, ih ha]
    rfl

/-- What is in front of the first occurrence. -/
theorem takeCount_findFirstOf (set s : List α) :
    takeCount (findFirstOf set s) s = s.takeWhile (· ∉ set) := by
  induction s with
  | nil => rfl
  | cons c s ih =>
    rw [findFirstOf]
    by_cases hc : c ∈ set
    · rw [if_pos hc, List.takeWhile_cons_of_neg (by simpa using hc)]
      rfl
    · rw [if_neg hc, List.takeWhile_cons_of_pos (by simpa using hc), ← ih]
      cases findFirstOf set s with
      | none => rfl
      | some i => rfl

/-- `s.find_last_of(set)`. -/
def findLastOf (set : List α) : List α → Pos
  | [] => npos
  | c :: s =>
    match findLastOf set s with
    | some i => some (i + 1)
    | none => if c ∈ set then some 0 else npos

theorem findLastOf_eq_none_iff {set s : List α} :
    findLastOf set s = none ↔ ∀ c ∈ s, c ∉ set := by
  induction s with
  | nil => simp [findLastOf, npos]
  | cons c s ih =>
    rw [List.forall_mem_cons, ← ih]
    cases hs : findLastOf set s with
    | none => by_cases hc : c ∈ set <;> simp [findLastOf, hs, hc, npos]
    | some i => simp [findLastOf, hs]

/-- **`find_last_of` returns the last occurrence.** -/
theorem findLastOf_eq_some_iff {set s : List α} {i : ℕ} :
    findLastOf set s = some i ↔
      ∃ a c b, s = a ++ c :: b ∧ c ∈ set ∧ (∀ x ∈ b, x ∉ set) ∧ a.length = i := by
  induction s generalizing i with
  | nil => simp [findLastOf, npos]
  | cons d s ih =>
    cases hs : findLastOf set s with
    | some j =>
      have hval : findLastOf set (d :: s) = some (j + 1) := by simp [findLastOf, hs]
      obtain ⟨a, c, b, rfl, hc, hb, rfl⟩ := ih.mp hs
      rw [hval, Option.some.injEq]
      constructor
      · rintro rfl
        exact ⟨d :: a, c, b, rfl, hc, hb, rfl⟩
      · rintro ⟨a', c', b', h', hc', hb', rfl⟩
        cases a' with
        | nil =>
          rw [List.nil_append, List.cons.injEq] at h'
          exact absurd hc (hb' c (by rw [← h'.2]; simp))
        | cons e a' =>
          rw [List.cons_append, List.cons.injEq] at h'
          have := ih.mpr ⟨a', c', b', h'.2, hc', hb', rfl⟩
          rw [hs, Option.some.injEq] at this
          rw [List.length_cons, this]
    | none =>
      have hnone := findLastOf_eq_none_iff.mp hs
      constructor
      · intro h
        by_cases hd : d ∈ set
        · have hi : i = 0 := by simpa [findLastOf, hs, hd] using h.symm
          exact ⟨[], d, s, rfl, hd, hnone, hi.symm⟩
        · simp [findLastOf, hs, hd, npos] at h
      · rintro ⟨a, c, b, h', hc, hb, rfl⟩
        cases a with
        | nil =>
          rw [List.nil_append, List.cons.injEq] at h'
          simp [findLastOf, hs, h'.1, hc]
        | cons e a =>
          rw [List.cons_append, List.cons.injEq] at h'
          exact absurd hc (hnone c (by rw [h'.2]; simp))

theorem findLastOf_append_cons {set a b : List α} {c : α} (hc : c ∈ set) (hb : ∀ x ∈ b, x ∉ set) :
    findLastOf set (a ++ c :: b) = some a.length :=
  findLastOf_eq_some_iff.mpr ⟨a, c, b, rfl, hc, hb, rfl⟩

/-- What is behind the last `c`; the whole string when there is none. -/
def behindLast (c : α) (s : List α) : List α := s.rtakeWhile (· ≠ c)

theorem behindLast_concat (c : α) (s : List α) (x : α) :
    behindLast c (s ++ [x]) = if x = c then [] else behindLast c s ++ [x] := by
  rw [behindLast, List.rtakeWhile_concat]
  by_cases hx : x = c
  · simp [hx]
  · simp [hx, behindLast]

theorem behindLast_of_notMem {c : α} {s : List α} (h : c ∉ s) : behindLast c s = s := by
  rw [behindLast, List.rtakeWhile_eq_self_iff]
  intro x hx
  simpa using ne_of_mem_of_not_mem hx h

theorem behindLast_append (c : α) (s t : List α) :
    behindLast c (s ++ t) = if c ∈ t then behindLast c t else behindLast c s ++ t := by
  induction t using List.reverseRecOn with
  | nil => simp
  | append_singleton t x ih =>
    rw [← List.append_assoc, behindLast_concat, behindLast_concat, ih]
    have hmem : c ∈ t ++ [x] ↔ c ∈ t ∨ c = x := by rw [List.mem_append, List.mem_singleton]
    by_cases hx : x = c
    · rw [if_pos hx, if_pos hx, if_pos (hmem.mpr (.inr hx.symm))]
    · rw [or_iff_left (Ne.symm hx)] at hmem
      rw [if_neg hx, if_neg hx]
      by_cases hc : c ∈ t
      · rw [if_pos hc, if_pos (hmem.mpr hc)]
      · rw [if_neg hc, if_neg (hmem.not.mpr hc), List.append_assoc]

theorem behindLast_append_cons {a b : List α} {c : α} (hb : c ∉ b) : behindLast c (a ++ c :: b) = b := by
  have hfront : behindLast c (a ++ [c]) = [] := by rw [behindLast_concat, if_pos rfl]
  rw [List.append_cons, behindLast_append, if_neg hb, hfront, List.nil_append]

end Search

end CxxString
