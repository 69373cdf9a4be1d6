import Webserver.Support.CxxString

/-!
# Replacing every occurrence of a pattern

`replaceAll` looks for the pattern from the left, and goes on behind an occurrence once it has replaced it; what has
been put in is not searched.

Where the occurrences are is easy to say for a pattern `word ++ [q, x]` when neither `q` nor `x` is in `word`: one for
each `q` with `word` in front of it and `x` behind it.  When the replacement puts something between `q` and `x`, the
pieces of the text between the `q`s can be looked at one by one (`replaceAll_pieces`).
-/

namespace ReplaceAll

open CxxString

variable {α : Type*}

/-! ### The loop -/

section Loop

variable [DecidableEq α]

/-- The search, with the number of characters that belong to an occurrence and are still to come. -/
def replaceFrom (pat new : List α) : ℕ → List α → List α
  | _, [] => []
  | n + 1, _ :: s => replaceFrom pat new n s
  | 0, c :: s =>
    if pat <+: c :: s then new ++ replaceFrom pat new (pat.length - 1) s else c :: replaceFrom pat new 0 s

/-- **`replace_all`**; an empty pattern is found nowhere. -/
def replaceAll (pat new s : List α) : List α := if pat = [] then s else replaceFrom pat new 0 s

variable {pat new : List α}

theorem replaceFrom_drop (n : ℕ) (s : List α) : replaceFrom pat new n s = replaceFrom pat new 0 (s.drop n) := by
  induction n generalizing s with
  | zero => rfl
  | succ n ih =>
    cases s with
    | nil => rfl
    | cons c s => exact ih s

theorem replaceAll_nil : replaceAll pat new [] = [] := by
  rw [replaceAll]
  split_ifs
  · rfl
  · rfl

/-- No occurrence starts at this character. -/
theorem replaceAll_cons {c : α} {s : List α} (h : ¬ pat <+: c :: s) :
    replaceAll pat new (c :: s) = c :: replaceAll pat new s := by
  rw [replaceAll, replaceAll]
  split_ifs
  · rfl
  · rw [replaceFrom, if_neg h]

/-- An occurrence in front. -/
theorem replaceAll_prefix (hpat : pat ≠ []) (b : List α) :
    replaceAll pat new (pat ++ b) = new ++ replaceAll pat new b := by
  obtain ⟨c, w, rfl⟩ := List.exists_cons_of_ne_nil hpat
  have hfront : c :: w <+: c :: (w ++ b) := List.prefix_append (c :: w) b
  rw [replaceAll, if_neg hpat, List.cons_append, replaceFrom, if_pos hfront, replaceAll, if_neg hpat, replaceFrom_drop,
    List.length_cons, Nat.add_sub_cancel, List.drop_left]

/-- **No occurrence starts in front of `b`.** -/
theorem replaceAll_append {a b : List α} (h : ∀ a' b', a ++ b = a' ++ pat ++ b' → a.length ≤ a'.length) :
    replaceAll pat new (a ++ b) = a ++ replaceAll pat new b := by
  induction a with
  | nil => rfl
  | cons c a ih =>
    have hc : ¬ pat <+: c :: (a ++ b) := by
      intro hfront
      obtain ⟨b', hb⟩ := hfront
      have hle := h [] b' hb.symm
      rw [List.length_cons, List.length_nil] at hle
      omega
    rw [List.cons_append, replaceAll_cons hc, ih]
    · rfl
    · intro a' b' hsplit
      have hle := h (c :: a') b' (congrArg (c :: ·) hsplit)
      rw [List.length_cons, List.length_cons] at hle
      omega

/-- **The first occurrence** is replaced, and the search goes on behind it. -/
theorem replaceAll_firstAt (hpat : pat ≠ []) {s a b : List α} (h : FirstAt pat s a b) :
    replaceAll pat new s = a ++ new ++ replaceAll pat new b := by
  have hsplit : s = a ++ (pat ++ b) := by rw [h.split, List.append_assoc]
  rw [hsplit, replaceAll_append fun a' b' hs => h.first a' b' (hsplit.trans hs), replaceAll_prefix hpat,
    List.append_assoc]

/-- A text without the pattern stays. -/
theorem replaceAll_absent {s : List α} (h : ¬ pat <:+: s) : replaceAll pat new s = s := by
  have hnone := @replaceAll_append _ _ pat new s [] fun a' b' hs =>
    absurd ⟨a', b', hs.symm.trans (List.append_nil s)⟩ h
  rwa [List.append_nil, replaceAll_nil, List.append_nil] at hnone

end Loop

/-! ### Marks -/

/-- A word, what comes behind it, and what comes behind that, all of them different. -/
structure IsMark (word : List α) (q x : α) : Prop where
  ne_nil : word ≠ []
  q_notMem : q ∉ word
  x_notMem : x ∉ word
  x_ne : x ≠ q

/-- The text after the insertion of `p` behind every mark, from its pieces: `prev` comes in front of the next one. -/
def insertBehind [DecidableEq α] (link : List α → Prop) [DecidablePred link] (x : α) (p : List α) :
    List α → List (List α) → List (List α)
  | _, [] => []
  | prev, t :: ts => (if link prev ∧ t.head? = some x then p ++ t else t) :: insertBehind link x p t ts

section Mark

variable {word p : List α} {q x : α}

/-- The first `q` is the first one. -/
theorem length_le_of_split {a b y z : List α} (ha : q ∉ a) (h : a ++ q :: b = y ++ q :: z) : a.length ≤ y.length := by
  rcases List.append_eq_append_iff.mp h with ⟨t, rfl, -⟩ | ⟨t, rfl, ht⟩
  · rw [List.length_append]
    omega
  · cases t with
    | nil => rw [List.append_nil]
    | cons c t =>
      obtain rfl := (List.cons.inj ht).1
      exact absurd (List.mem_append_right y List.mem_cons_self) ha

/-- **An occurrence** has its `q` at one of those in the text. -/
theorem occurrence_cases (hm : IsMark word q x) {a b a' b' : List α} (ha : q ∉ a)
    (h : a ++ q :: b = a' ++ (word ++ [q, x]) ++ b') : (a = a' ++ word ∧ b = x :: b') ∨ a.length < a'.length := by
  have hsplit : a ++ q :: b = (a' ++ word) ++ q :: (x :: b') := by
    rw [h]
    simp only [List.append_assoc, List.cons_append, List.nil_append]
  by_cases hmem : q ∈ a'
  · right
    obtain ⟨u, v, rfl⟩ := List.append_of_mem hmem
    have hle := @length_le_of_split _ q a b u (v ++ word ++ q :: (x :: b')) ha
      (by rw [hsplit]; simp only [List.append_assoc, List.cons_append])
    rw [List.length_append, List.length_cons]
    omega
  · left
    have hnot : q ∉ a' ++ word := fun h => (List.mem_append.mp h).elim hmem hm.q_notMem
    have hle := length_le_of_split ha hsplit
    have hge := length_le_of_split hnot hsplit.symm
    obtain ⟨heq, hrest⟩ := List.append_inj hsplit (Nat.le_antisymm hle hge)
    exact ⟨heq, (List.cons.inj hrest).2⟩

theorem intercalate_append_head (p t : List α) (ts : List (List α)) :
    [q].intercalate ((p ++ t) :: ts) = p ++ [q].intercalate (t :: ts) := by
  cases ts with
  | nil => rw [List.intercalate_singleton, List.intercalate_singleton]
  | cons t' ts => rw [List.intercalate_cons_cons, List.intercalate_cons_cons, List.append_assoc, List.append_assoc,
      List.append_assoc]

/-- The text of the pieces starts with `x` if the first piece does. -/
theorem head?_intercalate_iff (hx : x ≠ q) (t : List α) (ts : List (List α)) :
    ([q].intercalate (t :: ts)).head? = some x ↔ t.head? = some x := by
  cases ts with
  | nil => rw [List.intercalate_singleton]
  | cons t' ts =>
    rw [List.intercalate_cons_cons]
    cases t with
    | nil => exact iff_of_false (fun h => hx (Option.some.inj h).symm) (fun h => by cases h)
    | cons c t => exact Iff.rfl

/-- A word without `x` is not at the end of what is inserted in front of an `x`. -/
theorem suffix_insert_iff (hx : x ∉ word) {w : List α} (hw : w.head? = some x) : word <:+ p ++ w ↔ word <:+ w := by
  constructor
  · intro h
    rcases List.suffix_or_suffix_of_suffix h (List.suffix_append p w) with h | h
    · exact h
    · obtain ⟨w, rfl⟩ := List.head?_eq_some_iff.mp hw
      exact absurd (h.subset List.mem_cons_self) hx
  · exact fun h => h.trans (List.suffix_append p w)

variable [DecidableEq α]

/-- **Up to the first `q`**, which is the one place where an occurrence can be. -/
theorem replaceAll_mark (hm : IsMark word q x) {a : List α} (ha : q ∉ a) (b : List α) :
    replaceAll (word ++ [q, x]) (word ++ q :: (p ++ [x])) (a ++ q :: b) =
      a ++ q :: ((if word <:+ a ∧ b.head? = some x then p else []) ++
        replaceAll (word ++ [q, x]) (word ++ q :: (p ++ [x])) b) := by
  have hpat : word ++ [q, x] ≠ [] := List.append_ne_nil_of_left_ne_nil hm.ne_nil _
  split_ifs with hmark
  · obtain ⟨⟨a₀, rfl⟩, hhead⟩ := hmark
    obtain ⟨b, rfl⟩ := List.head?_eq_some_iff.mp hhead
    have hfirst : FirstAt (word ++ [q, x]) (a₀ ++ word ++ q :: x :: b) a₀ b := by
      refine ⟨by simp only [List.append_assoc, List.cons_append, List.nil_append], ?_⟩
      intro a' b' hsplit
      rcases occurrence_cases hm ha hsplit with ⟨heq, -⟩ | hlt
      · rw [List.append_cancel_right heq]
      · rw [List.length_append] at hlt
        omega
    -- the pattern does not start with `x`
    have hx : ¬ word ++ [q, x] <+: x :: b := by
      intro hfront
      obtain ⟨c, w, rfl⟩ := List.exists_cons_of_ne_nil hm.ne_nil
      rw [List.cons_append, List.cons_prefix_cons] at hfront
      exact hm.x_notMem (hfront.1 ▸ List.mem_cons_self)
    rw [replaceAll_firstAt hpat hfirst, replaceAll_cons hx]
    simp only [List.append_assoc, List.cons_append, List.nil_append]
  · have hnone : ∀ a' b', (a ++ [q]) ++ b = a' ++ (word ++ [q, x]) ++ b' → (a ++ [q]).length ≤ a'.length := by
      intro a' b' hsplit
      rw [List.append_assoc, List.singleton_append] at hsplit
      rcases occurrence_cases hm ha hsplit with ⟨rfl, rfl⟩ | hlt
      · exact absurd ⟨List.suffix_append _ _, rfl⟩ hmark
      · rw [List.length_append, List.length_singleton]
        omega
    rw [List.append_cons a q b, replaceAll_append hnone, List.append_assoc]
    rfl

/-- **What is inserted, piece by piece.** -/
theorem replaceAll_pieces (hm : IsMark word q x) {s : List α} {ts : List (List α)} (hs : q ∉ s)
    (hts : ∀ t ∈ ts, q ∉ t) :
    replaceAll (word ++ [q, x]) (word ++ q :: (p ++ [x])) ([q].intercalate (s :: ts)) =
      [q].intercalate (s :: insertBehind (word <:+ ·) x p s ts) := by
  induction ts generalizing s with
  | nil =>
    rw [insertBehind, List.intercalate_singleton]
    refine replaceAll_absent fun hpiece => hs ?_
    exact hpiece.subset (List.mem_append_right _ List.mem_cons_self)
  | cons t ts ih =>
    obtain ⟨ht, hts⟩ := List.forall_mem_cons.mp hts
    rw [insertBehind, List.intercalate_cons_cons, List.intercalate_cons_cons, List.append_assoc, List.append_assoc,
      List.singleton_append, List.singleton_append, replaceAll_mark hm hs, ih ht hts]
    simp only [head?_intercalate_iff hm.x_ne]
    split_ifs with hmark
    · rw [intercalate_append_head]
    · rw [List.nil_append]

/-! ### Pieces -/

/-- No piece has the character that the text has been split at. -/
theorem notMem_of_mem_splitOn {s t : List α} (h : t ∈ s.splitOn q) : q ∉ t := by
  induction s generalizing t with
  | nil =>
    obtain rfl := List.mem_singleton.mp h
    exact List.not_mem_nil
  | cons c s ih =>
    obtain ⟨t₀, ts, hsplit⟩ := List.exists_cons_of_ne_nil (List.splitOn_ne_nil q s)
    rw [List.splitOn_cons_eq_if_modifyHead, hsplit] at h
    rw [hsplit] at ih
    split_ifs at h with hc
    · rcases List.mem_cons.mp h with rfl | h
      · exact List.not_mem_nil
      · exact ih h
    · rcases List.mem_cons.mp h with rfl | h
      · intro hmem
        rcases List.mem_cons.mp hmem with rfl | hmem
        · exact hc (beq_self_eq_true _)
        · exact ih List.mem_cons_self hmem
      · exact ih (List.mem_cons_of_mem _ h)

section Link

variable {link link₁ link₂ : List α → Prop} [DecidablePred link] [DecidablePred link₁] [DecidablePred link₂]

/-- Nothing is inserted that is not in `p`. -/
theorem notMem_insertBehind (hp : q ∉ p) {s : List α} {ts : List (List α)} (hts : ∀ t ∈ ts, q ∉ t) :
    ∀ t ∈ insertBehind link x p s ts, q ∉ t := by
  induction ts generalizing s with
  | nil => exact fun t ht => absurd ht List.not_mem_nil
  | cons t ts ih =>
    obtain ⟨ht, hts⟩ := List.forall_mem_cons.mp hts
    rw [insertBehind, List.forall_mem_cons]
    refine ⟨?_, ih hts⟩
    split_ifs
    · exact fun hmem => (List.mem_append.mp hmem).elim hp ht
    · exact ht

/-- **Two kinds of marks** one after the other, when what is inserted for one does not make or unmake the other. -/
theorem insertBehind_insertBehind (hdisjoint : ∀ w, link₁ w → ¬ link₂ w)
    (hkeep : ∀ w, w.head? = some x → (link₂ (p ++ w) ↔ link₂ w)) {s s' : List α} (hs : link₂ s' ↔ link₂ s)
    (ts : List (List α)) :
    insertBehind link₂ x p s' (insertBehind link₁ x p s ts) = insertBehind (fun w => link₁ w ∨ link₂ w) x p s ts := by
  induction ts generalizing s s' with
  | nil => rfl
  | cons t ts ih =>
    rw [insertBehind, insertBehind, insertBehind]
    by_cases hfirst : link₁ s ∧ t.head? = some x
    · have hsecond : ¬ link₂ s' := fun h => hdisjoint s hfirst.1 (hs.mp h)
      rw [if_pos hfirst, if_neg fun h => hsecond h.1, if_pos ⟨.inl hfirst.1, hfirst.2⟩, ih (hkeep t hfirst.2)]
    · have hiff : link₂ s' ∧ t.head? = some x ↔ (link₁ s ∨ link₂ s) ∧ t.head? = some x := by
        rw [hs]
        constructor
        · exact fun h => ⟨.inr h.1, h.2⟩
        · exact fun h => ⟨h.1.resolve_left fun h₁ => hfirst ⟨h₁, h.2⟩, h.2⟩
      rw [if_neg hfirst]
      exact congrArg₂ List.cons (if_congr hiff rfl rfl) (ih Iff.rfl)

/-- One piece. -/
theorem insertBehind_split {s s' w t : List α} {ts before after : List (List α)}
    (h : s :: ts = before ++ w :: t :: after) :
    ∃ before' w' after', s' :: insertBehind link x p s ts =
        before' ++ w' :: (if link w ∧ t.head? = some x then p ++ t else t) :: after' ∧
      before'.length = before.length := by
  induction before generalizing s s' ts with
  | nil =>
    obtain ⟨rfl, rfl⟩ := List.cons.inj h
    exact ⟨[], s', _, rfl, rfl⟩
  | cons b before ih =>
    obtain ⟨rfl, hts⟩ := List.cons.inj h
    obtain ⟨s₁, ts₁, hcons⟩ := List.exists_cons_of_ne_nil (l := before ++ w :: t :: after) (by simp)
    obtain ⟨before', w', after', heq, hlength⟩ :=
      @ih s₁ (if link s ∧ s₁.head? = some x then p ++ s₁ else s₁) ts₁ hcons.symm
    refine ⟨s' :: before', w', after', ?_, by rw [List.length_cons, List.length_cons, hlength]⟩
    have hpieces : ts = s₁ :: ts₁ := hts.trans hcons
    rw [hpieces, insertBehind, heq]
    rfl

end Link

end Mark

end ReplaceAll
