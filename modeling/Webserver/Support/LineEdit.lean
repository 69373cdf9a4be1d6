import Mathlib.Data.List.Infix
import Webserver.Support.CxxString

/-!
# Editing a line by searching for a word

A text is searched for a word, and everything from its first occurrence up to the end of that line is
replaced.  The line ends before the next `eol`, or with the text.  `replaceLine` is the sequence of
`find`, `find` and `replace` that does this; it throws exactly when the word does not occur.

Where a word occurs for the first time is easy to say when its first character does not come up in it
again (`firstAt_iff`): no occurrence can then overlap the one that is meant.  In the same way a pattern
does not reach into a text whose first character it has at most at its own start (`infix_append_iff`).
-/

namespace LineEdit

open CxxString

variable {α : Type*}

/-! ### Patterns in concatenations -/

/-- **A pattern does not reach into `t`** when it has the first character of `t` at most at its start. -/
theorem infix_append_iff {p a t : List α} (h : ∀ c ∈ t.head?, c ∉ p.tail) :
    p <:+: a ++ t ↔ p <:+: a ∨ p <:+: t := by
  rw [List.infix_append_iff_ne_nil]
  refine or_congr_right (or_iff_left ?_)
  intro hreach
  obtain ⟨l₁, l₂, h₁, h₂, rfl, -, hfront⟩ := hreach
  obtain ⟨c, l₂, rfl⟩ := List.exists_cons_of_ne_nil h₂
  obtain ⟨d, l₁, rfl⟩ := List.exists_cons_of_ne_nil h₁
  obtain ⟨t, rfl⟩ := hfront
  exact h c rfl (List.mem_append_right _ List.mem_cons_self)

/-- Characters that a pattern does not have can be left out in front. -/
theorem infix_append_right_iff {p a t : List α} (hp : p ≠ []) (h : ∀ c ∈ a, c ∉ p) :
    p <:+: a ++ t ↔ p <:+: t := by
  induction a with
  | nil => rfl
  | cons c a ih =>
    obtain ⟨hc, ha⟩ := List.forall_mem_cons.mp h
    rw [List.cons_append, List.infix_cons_iff, ih ha, or_iff_right]
    intro hfront
    obtain ⟨d, p, rfl⟩ := List.exists_cons_of_ne_nil hp
    rw [List.cons_prefix_cons] at hfront
    exact hc (hfront.1 ▸ List.mem_cons_self)

/-- A word has no part in a pattern that shares no character with it. -/
theorem not_infix_word {p word a b : List α} (hp : p ≠ []) (hword : word ≠ []) (hsep : ∀ d ∈ p, d ∉ word)
    (ha : ¬ p <:+: a) (hb : ¬ p <:+: b) : ¬ p <:+: a ++ (word ++ b) := by
  obtain ⟨d, word, rfl⟩ := List.exists_cons_of_ne_nil hword
  have hhead : ∀ e ∈ (d :: word ++ b).head?, e ∉ p.tail := by
    intro e he hmem
    obtain rfl : d = e := Option.some.inj he
    exact hsep d (List.mem_of_mem_tail hmem) List.mem_cons_self
  rw [infix_append_iff hhead, infix_append_right_iff hp fun e he hmem => hsep e hmem he]
  exact not_or.mpr ⟨ha, hb⟩

/-- **First occurrences of a word** whose first character does not come up in it again. -/
theorem firstAt_iff {c : α} {w a b : List α} (hc : c ∉ w) :
    FirstAt (c :: w) (a ++ c :: w ++ b) a b ↔ ¬ c :: w <:+: a := by
  constructor
  · intro h hpiece
    obtain ⟨a₁, a₂, rfl⟩ := hpiece
    have hle := h.first a₁ (a₂ ++ c :: w ++ b) (by simp only [List.append_assoc])
    simp only [List.length_append, List.length_cons] at hle
    omega
  · intro h
    refine ⟨rfl, ?_⟩
    intro a' b' heq
    by_contra hlt
    rw [not_le] at hlt
    rw [List.append_assoc, List.append_assoc] at heq
    obtain ⟨d, rfl⟩ : a' <+: a :=
      List.prefix_of_prefix_length_le ⟨_, heq.symm⟩ (List.prefix_append a _) hlt.le
    rw [List.append_assoc] at heq
    have hrest := List.append_cancel_left heq
    rcases List.prefix_or_prefix_of_prefix (List.prefix_append d _) ⟨b', hrest.symm⟩ with hd | hd
    · obtain ⟨w₂, hw₂⟩ := hd
      rcases d with _ | ⟨d, ds⟩
      · simp at hlt
      · rcases w₂ with _ | ⟨e, w₂⟩
        · rw [List.append_nil] at hw₂
          exact h ⟨a', [], by rw [hw₂, List.append_nil]⟩
        · have htail : c :: w ++ b = e :: w₂ ++ b' := by
            rw [← List.append_right_inj (d :: ds), ← List.append_assoc (d :: ds) (e :: w₂), hw₂]
            exact hrest
          rw [List.cons_append, List.cons.injEq] at hw₂
          apply hc
          rw [← hw₂.2, (List.cons.inj htail).1]
          exact List.mem_append_right _ List.mem_cons_self
    · exact h (hd.isInfix.trans (List.suffix_append a' d).isInfix)

/-- An occurrence in a first part is an occurrence in the whole. -/
theorem firstAt_append_right {p s a b : List α} (h : FirstAt p s a b) (t : List α) :
    FirstAt p (s ++ t) a (b ++ t) := by
  refine ⟨by rw [h.split, List.append_assoc], ?_⟩
  intro a' b' heq
  by_contra hlt
  rw [not_le] at hlt
  have hfront : a' ++ p <+: s := by
    have hlen : (a' ++ p).length ≤ s.length := by
      rw [h.split]
      simp only [List.length_append]
      omega
    exact List.prefix_of_prefix_length_le ⟨b', heq.symm⟩ (List.prefix_append s t) hlen
  obtain ⟨b'', rfl⟩ := hfront
  exact absurd (h.first a' b'' rfl) (not_le.mpr hlt)

/-! ### Words and separators -/

/-- **A word lies on one side of a separator** that it does not have. -/
theorem word_append_cons {x w y a b : List α} {sep : α} (hsep : sep ∉ w)
    (h : x ++ w ++ y = a ++ sep :: b) :
    (∃ a₂, a = x ++ w ++ a₂ ∧ y = a₂ ++ sep :: b) ∨ ∃ x', x = a ++ sep :: x' ∧ b = x' ++ w ++ y := by
  rcases List.append_eq_append_iff.mp h with ⟨a₂, ha, hy⟩ | ⟨c, hxw, hc⟩
  · exact .inl ⟨a₂, ha, hy⟩
  · rcases c with _ | ⟨d, c⟩
    · rw [List.append_nil] at hxw
      exact .inl ⟨[], by rw [List.append_nil, hxw], hc.symm⟩
    · rw [List.cons_append, List.cons.injEq] at hc
      obtain ⟨rfl, hb⟩ := hc
      rcases List.append_eq_append_iff.mp hxw with ⟨e, ha, hw'⟩ | ⟨e, hx, he⟩
      · exact absurd (hw' ▸ List.mem_append_right e List.mem_cons_self) hsep
      · rcases e with _ | ⟨f, e⟩
        · rw [List.nil_append] at he
          exact absurd (he ▸ List.mem_cons_self) hsep
        · rw [List.cons_append, List.cons.injEq] at he
          obtain ⟨rfl, hcw⟩ := he
          exact .inr ⟨e, hx, by rw [hb, hcw]⟩

/-- A word lies behind a part that shares no character with it. -/
theorem word_append_left {x w y p b : List α} (hw : w ≠ []) (hp : ∀ c ∈ p, c ∉ w)
    (h : x ++ w ++ y = p ++ b) : ∃ x', x = p ++ x' ∧ b = x' ++ w ++ y := by
  induction p generalizing x with
  | nil => exact ⟨x, rfl, h.symm⟩
  | cons c p ih =>
    obtain ⟨hc, hp⟩ := List.forall_mem_cons.mp hp
    rcases word_append_cons (a := []) hc h with ⟨a₂, ha, -⟩ | ⟨x', rfl, hx'⟩
    · exact absurd (List.append_eq_nil_iff.mp (List.append_eq_nil_iff.mp ha.symm).1).2 hw
    · obtain ⟨x'', rfl, hb⟩ := ih hp hx'.symm
      exact ⟨x'', rfl, hb⟩

/-! ### Lines -/

/-- The text is a line, up to the first `eol` or to its end, and what follows the line. -/
structure IsLine (eol s line rest : List α) : Prop where
  split : s = line ++ rest
  rest_cases : (rest = [] ∧ ¬ eol <:+: s) ∨ ∃ t, rest = eol ++ t ∧ FirstAt eol s line t

/-- A line ends before the next `eol`, when there is none in it. -/
theorem isLine_append {c : α} {w line : List α} (hc : c ∉ w) (hline : ¬ c :: w <:+: line) (t : List α) :
    IsLine (c :: w) (line ++ (c :: w ++ t)) line (c :: w ++ t) := by
  refine ⟨rfl, .inr ⟨t, rfl, ?_⟩⟩
  rw [← List.append_assoc, firstAt_iff hc]
  exact hline

/-- Characters that `eol` does not have can be put in front. -/
theorem IsLine.append_left {eol s line rest x : List α} (h : IsLine eol s line rest) (heol : eol ≠ [])
    (hx : ∀ c ∈ x, c ∉ eol) : IsLine eol (x ++ s) (x ++ line) rest := by
  refine ⟨by rw [h.split, List.append_assoc], h.rest_cases.imp (And.imp_right ?_) ?_⟩
  · intro hnone
    rwa [infix_append_right_iff heol hx]
  · intro hrest
    obtain ⟨t, rfl, hfirst⟩ := hrest
    exact ⟨t, rfl, hfirst.append_left heol hx⟩

/-- There is no `eol` in a line, and behind the line there is one as soon as one is added to the text. -/
theorem IsLine.extend {c : α} {w s line rest : List α} (hc : c ∉ w) (h : IsLine (c :: w) s line rest)
    (t : List α) : ¬ c :: w <:+: line ∧ ∃ t', s ++ (c :: w ++ t) = line ++ (c :: w ++ t') := by
  rcases h.rest_cases with ⟨rfl, hnone⟩ | ⟨t₀, rfl, hfirst⟩
  · have hs := h.split
    rw [List.append_nil] at hs
    rw [hs] at hnone ⊢
    exact ⟨hnone, t, rfl⟩
  · have hs := hfirst.split
    rw [hs] at hfirst ⊢
    refine ⟨(firstAt_iff hc).mp hfirst, t₀ ++ (c :: w ++ t), ?_⟩
    simp only [List.append_assoc]

theorem IsLine.unique {eol s line rest line' rest' : List α} (h : IsLine eol s line rest)
    (h' : IsLine eol s line' rest') : line = line' ∧ rest = rest' := by
  rcases h.rest_cases with ⟨rfl, hnone⟩ | ⟨t, rfl, ht⟩
  · rcases h'.rest_cases with ⟨rfl, -⟩ | ⟨t', -, ht'⟩
    · exact ⟨by rw [← List.append_nil line, ← h.split, h'.split, List.append_nil], rfl⟩
    · exact absurd ⟨line', t', ht'.split.symm⟩ hnone
  · rcases h'.rest_cases with ⟨-, hnone⟩ | ⟨t', rfl, ht'⟩
    · exact absurd ⟨line, t, ht.split.symm⟩ hnone
    · obtain ⟨rfl, rfl⟩ := ht.unique ht'
      exact ⟨rfl, rfl⟩

/-- **What an edit makes of a line**: behind the first occurrence of the word, if there is one, the line goes on
with `v`. -/
inductive LineEdited (word v line line' : List α) : Prop
  | stays (none : ¬ word <:+: line) (same : line' = line)
  | meets {a z : List α} (first : FirstAt word line a z) (edited : line' = a ++ word ++ v)

section Search

variable [DecidableEq α]

/-- **Replace the rest of the line** from the first occurrence of a word on. -/
def replaceLine (eol word new s : List α) : Except StdException (List α) :=
  let pos := find word s
  let last := findFrom eol s pos
  replace s pos (Pos.sub last pos) new

theorem exists_isLine (eol s : List α) : ∃ line rest, IsLine eol s line rest := by
  by_cases h : eol <:+: s
  · obtain ⟨line, t, ht⟩ := exists_firstAt h
    exact ⟨line, eol ++ t, by rw [ht.split, List.append_assoc], .inr ⟨t, rfl, ht⟩⟩
  · exact ⟨s, [], (List.append_nil s).symm, .inl ⟨rfl, h⟩⟩

theorem replaceLine_eq {eol word a b line rest s : List α} (h : FirstAt word s a b)
    (hline : IsLine eol (word ++ b) line rest) (new : List α) :
    replaceLine eol word new s = .ok (a ++ new ++ rest) := by
  have hs : s = a ++ (word ++ b) := by rw [h.split, List.append_assoc]
  rw [replaceLine, h.find]
  show replace s (some a.length) (Pos.sub (findFrom eol s (some a.length)) (some a.length)) new = _
  rw [hs, findFrom_append]
  rcases hline.rest_cases with ⟨rfl, hnone⟩ | ⟨t, rfl, hfirst⟩
  · rw [find_eq_none_iff.mpr hnone, List.append_nil]
    exact replace_tail a (word ++ b) new
  · rw [Pos.sub_map_add, hfirst.find, hline.split, ← List.append_assoc]
    exact replace_middle a line (eol ++ t) new

theorem replaceLine_of_absent {word s : List α} (h : ¬ word <:+: s) (eol new : List α) :
    replaceLine eol word new s = .error .outOfRange := by
  rw [replaceLine, find_eq_none_iff.mpr h]
  rfl

/-- **When the edit throws.** -/
theorem replaceLine_isOk_iff {eol word new s : List α} :
    (∃ s', replaceLine eol word new s = .ok s') ↔ word <:+: s := by
  constructor
  · intro h
    by_contra hnot
    obtain ⟨s', hs'⟩ := h
    rw [replaceLine_of_absent hnot] at hs'
    cases hs'
  · intro h
    obtain ⟨a, b, hab⟩ := exists_firstAt h
    obtain ⟨line, rest, hline⟩ := exists_isLine eol (word ++ b)
    exact ⟨_, replaceLine_eq hab hline new⟩

/-- **An edit meets the first line or leaves it as it is.**  The first line of what is written ends the first line of
the text when the edit meets it. -/
theorem replaceLine_front {c : α} {w word v line v₁ v₂ t s' : List α} (hc : c ∉ w) (hword : word ≠ [])
    (hsep : ∀ d ∈ c :: w, d ∉ word) (hline : ¬ c :: w <:+: line) (hv : IsLine (c :: w) v v₁ v₂)
    (h : replaceLine (c :: w) word (word ++ v) (line ++ (c :: w ++ t)) = .ok s') :
    ∃ line' t', s' = line' ++ (c :: w ++ t') ∧ ¬ c :: w <:+: line' ∧ LineEdited word v₁ line line' := by
  by_cases hpiece : word <:+: line
  · obtain ⟨a, z, hfirst⟩ := exists_firstAt hpiece
    have hz : ¬ c :: w <:+: word ++ z := by
      intro hoccurs
      rw [hfirst.split, List.append_assoc] at hline
      exact hline (hoccurs.trans (List.suffix_append a _).isInfix)
    have hrest := isLine_append hc hz t
    rw [List.append_assoc] at hrest
    rw [replaceLine_eq (firstAt_append_right hfirst _) hrest] at h
    obtain ⟨hv₁, t', ht'⟩ := hv.extend hc t
    refine ⟨a ++ word ++ v₁, t', ?_, ?_, .meets hfirst rfl⟩
    · rw [← Except.ok.inj h, List.append_assoc, List.append_assoc, List.append_assoc, ht']
      simp only [List.append_assoc]
    · have ha : ¬ c :: w <:+: a := by
        intro hoccurs
        rw [hfirst.split, List.append_assoc] at hline
        exact hline (hoccurs.trans (List.prefix_append a _).isInfix)
      rw [List.append_assoc]
      exact not_infix_word (List.cons_ne_nil _ _) hword hsep ha hv₁
  · obtain ⟨x, y, hxy⟩ := exists_firstAt (replaceLine_isOk_iff.mp ⟨s', h⟩)
    obtain ⟨line₂, rest₂, hline₂⟩ := exists_isLine (c :: w) (word ++ y)
    rw [replaceLine_eq hxy hline₂] at h
    rcases word_append_cons (hsep c List.mem_cons_self) hxy.split.symm with ⟨z, rfl, -⟩ | ⟨x₁, rfl, hx₁⟩
    · exact absurd ⟨x, z, rfl⟩ hpiece
    · obtain ⟨x₂, rfl, -⟩ := word_append_left hword (fun d hd => hsep d (List.mem_cons_of_mem _ hd)) hx₁.symm
      refine ⟨line, x₂ ++ (word ++ v) ++ rest₂, ?_, hline, .stays hpiece rfl⟩
      rw [← Except.ok.inj h]
      simp

end Search

end LineEdit
