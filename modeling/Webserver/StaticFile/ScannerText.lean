import Mathlib.Data.List.Infix
import Webserver.StaticFile.LuaTemplate

/-!
# Files without a tag

The script for a file without a complete opener is one `put` call, and its literal is the file with a backslash
in front of every bracket, as long as the scanner emits again what it has held back of an opener.  There are
two places where it does not: an opener that is broken off behind `<?lua=` is emitted as `<lua=`, and what
is held back at the end of the file is dropped.

* `textStep_waits` — one character: what is emitted and held back is at most what has been read, and less
  behind `<?lua=`.
* `scan_front` — a part of an opener at the end is held back.
* `textKept_iff` — so the text is kept if and only if neither of the two happens.
-/

namespace Webserver.StaticFile

open ByteString

/-! ### The literal -/

/-- Remove the backslash in front of each bracket. -/
def unescape : Bytes → Bytes
  | [] => []
  | b :: s =>
    if b = byte '\\' ∧ (s.head? = some (byte '[') ∨ s.head? = some (byte ']')) then unescape s
    else b :: unescape s

theorem escape_cons (c : Byte) (s : Bytes) :
    escape (c :: s) = if c = byte '[' ∨ c = byte ']' then byte '\\' :: c :: escape s else c :: escape s := by
  rw [escape, List.flatMap_cons]
  split_ifs <;> rfl

/-- No escaped text starts with a bracket. -/
theorem head?_escape_ne {c : Byte} (hc : c = byte '[' ∨ c = byte ']') (s : Bytes) :
    (escape s).head? ≠ some c := by
  cases s with
  | nil => simp
  | cons d s =>
    rw [escape_cons]
    split_ifs with hd
    · show some (byte '\\') ≠ some c
      rcases hc with rfl | rfl
      · decide
      · decide
    · intro hdc
      obtain rfl : d = c := Option.some.inj hdc
      exact hd hc

/-- **Escaping is undone** by removing the backslashes. -/
theorem unescape_escape (s : Bytes) : unescape (escape s) = s := by
  induction s with
  | nil => rfl
  | cons c s ih =>
    rw [escape_cons]
    split_ifs with hc
    · have hne : ¬ (c = byte '\\' ∧ ((escape s).head? = some (byte '[') ∨ (escape s).head? = some (byte ']'))) := by
        rintro ⟨rfl, -⟩
        exact absurd hc (by decide)
      have hfront : byte '\\' = byte '\\' ∧ ((c :: escape s).head? = some (byte '[') ∨
          (c :: escape s).head? = some (byte ']')) := ⟨rfl, hc.imp (congrArg some) (congrArg some)⟩
      rw [unescape, if_pos hfront, unescape, if_neg hne, ih]
    · have hne : ¬ (c = byte '\\' ∧ ((escape s).head? = some (byte '[') ∨ (escape s).head? = some (byte ']'))) := by
        rintro ⟨-, h | h⟩
        · exact head?_escape_ne (.inl rfl) s h
        · exact head?_escape_ne (.inr rfl) s h
      rw [unescape, if_neg hne, ih]

/-! ### One character -/

/-- No complete opener in a text. -/
def NoOpener (text : Bytes) : Prop := ∀ o ∈ completeOpeners, ¬ o <:+: text

instance (text : Bytes) : Decidable (NoOpener text) := inferInstanceAs (Decidable (∀ o ∈ _, _))

/-- **What the scanner holds back** in a state outside of tags. -/
def Waits (s : LuaState) (p : Bytes) : Prop := Pending s p ∨ s = .expectingSpace2 ∧ p = bytes "<?lua="

/-- What is emitted of it when no opener comes of it. -/
def emitted (p : Bytes) : Bytes := if p = bytes "<?lua=" then bytes "<lua=" else p

theorem Pending.emitted_eq {s : LuaState} {p : Bytes} (h : Pending s p) : emitted p = p := by
  cases h <;> rfl

theorem Waits.emitted_length_le {s : LuaState} {p : Bytes} (h : Waits s p) : (emitted p).length ≤ p.length := by
  rcases h with h | ⟨-, rfl⟩
  · rw [h.emitted_eq]
  · decide

theorem Waits.escape_emitted {s : LuaState} {p : Bytes} (h : Waits s p) : escape (emitted p) = emitted p := by
  rcases h with h | ⟨-, rfl⟩
  · rw [h.emitted_eq, h.escape_eq]
  · rfl

/-- A `<` breaks off what has been held back, and starts again. -/
theorem Waits.onChar_lt {s : LuaState} {p : Bytes} (h : Waits s p) (lua : Bytes) :
    onChar s lua (byte '<') = some (.expectingQuestionMark, lua ++ emitted p) := by
  rcases h with h | ⟨rfl, rfl⟩
  · rw [h.emitted_eq, h.onChar_lt]
  · exact onChar_notAnOpener_lt rfl

/-- **One character of a text without an opener.**  What is emitted and held back is at most as long as what
has been read, and shorter when `<?lua=` is broken off. -/
theorem textStep_waits {s : LuaState} {p : Bytes} (h : Waits s p) {c : Byte} (hopen : p ++ [c] ∉ completeOpeners)
    (lua : Bytes) :
    ∃ s' t p', onChar s lua c = some (s', lua ++ escape t) ∧ Waits s' p' ∧ p' <:+ p ++ [c] ∧
      t.length + p'.length ≤ p.length + 1 ∧ (s = .expectingSpace2 → t.length + p'.length < p.length + 1) := by
  by_cases hlt : c = byte '<'
  · subst hlt
    refine ⟨.expectingQuestionMark, emitted p, bytes "<", ?_, .inl .questionMark, List.suffix_append p _, ?_, ?_⟩
    · rw [h.onChar_lt, h.escape_emitted]
    · exact Nat.add_le_add_right h.emitted_length_le 1
    · intro hs
      rcases h with h | ⟨-, rfl⟩
      · subst hs
        cases h
      · decide
  rcases h with h | ⟨rfl, rfl⟩
  · have hs : s ≠ .expectingSpace2 := by
      rintro rfl
      cases h
    by_cases hequals : p ++ [c] = bytes "<?lua="
    · -- the sign of an expression, which `Pending` leaves out
      have hp : p = bytes "<?lua" ∧ c = byte '=' := by
        obtain ⟨hp, hc⟩ := List.append_inj' (hequals.trans (show _ = bytes "<?lua" ++ [byte '='] from rfl)) rfl
        exact ⟨hp, List.singleton_inj.mp hc⟩
      obtain ⟨rfl, rfl⟩ := hp
      obtain rfl : s = .expectingSpace1 := by
        generalize hp : bytes "<?lua" = p at h
        cases h <;> first | rfl | exact absurd hp (by decide)
      exact ⟨.expectingSpace2, [], bytes "<?lua=", by rw [escape_nil, List.append_nil]; exact onChar_once rfl,
        .inr ⟨rfl, rfl⟩, List.suffix_rfl, le_refl _, fun h => absurd h hs⟩
    · have hplain : p ++ [c] ∉ bytes "<?lua=" :: completeOpeners := by
        rw [List.mem_cons, not_or]
        exact ⟨hequals, hopen⟩
      rcases h.textStep hlt hplain lua with ⟨s', hs', hp'⟩ | hstart
      · refine ⟨s', [], p ++ [c], by rw [escape_nil, List.append_nil]; exact hs', .inl hp', List.suffix_rfl, ?_,
          fun h => absurd h hs⟩
        rw [List.length_append]
        exact (Nat.zero_add _).le
      · refine ⟨.start, p ++ [c], [], ?_, .inl .start, List.nil_suffix, ?_, fun h => absurd h hs⟩
        · rw [hstart, escape_append, h.escape_eq, List.append_assoc]
        · rw [List.length_append]
          exact le_refl _
  · have hspace : isTagSpace c = false := by
      rw [← Bool.not_eq_true, isTagSpace_iff]
      rintro (rfl | rfl)
      · exact hopen (by decide)
      · exact hopen (by decide)
    refine ⟨.start, bytes "<lua=" ++ [c], [], ?_, .inl .start, List.nil_suffix, by simp [bytes], fun _ => by simp [bytes]⟩
    have hcase : luaCase .expectingSpace2 c lua = notAnOpener (bytes "<lua=") lua := by
      rw [luaCase, caseSpace2, hspace]
      rfl
    rw [onChar_notAnOpener hlt hcase, escape_append, List.append_assoc]
    rfl

/-! ### A whole text -/

theorem NoOpener.of_infix {s t : Bytes} (h : NoOpener t) (hst : s <:+: t) : NoOpener s :=
  fun o ho hpiece => h o ho (hpiece.trans hst)

/-- **A text without an opener** does not grow, and gets shorter behind `<?lua=`. -/
theorem scan_waits (text : Bytes) : ∀ {s : LuaState} {p : Bytes} (lua : Bytes), Waits s p → NoOpener (p ++ text) →
    ∃ s' t p', scan s lua text = some (s', lua ++ escape t) ∧ Waits s' p' ∧
      t.length + p'.length ≤ p.length + text.length ∧
      (s = .expectingSpace2 → text ≠ [] → t.length + p'.length < p.length + text.length) := by
  induction text with
  | nil =>
    intro s p lua h _
    exact ⟨s, [], p, by simp, h, by simp, fun _ hne => absurd rfl hne⟩
  | cons c text ih =>
    intro s p lua h hno
    have hsplit : p ++ c :: text = (p ++ [c]) ++ text := by simp
    rw [hsplit] at hno
    have hopen : p ++ [c] ∉ completeOpeners := fun hmem => hno _ hmem (List.prefix_append _ _).isInfix
    obtain ⟨s₁, t₁, p₁, hchar, hw₁, hsuffix, hle₁, hlt₁⟩ := textStep_waits h hopen lua
    have hno₁ : NoOpener (p₁ ++ text) := by
      obtain ⟨front, hfront⟩ := hsuffix
      refine hno.of_infix ⟨front, [], ?_⟩
      rw [← hfront, List.append_nil, List.append_assoc]
    obtain ⟨s₂, t₂, p₂, hscan, hw₂, hle₂, -⟩ := ih (lua ++ escape t₁) hw₁ hno₁
    refine ⟨s₂, t₁ ++ t₂, p₂, ?_, hw₂, ?_, fun hs _ => ?_⟩
    · rw [scan_cons, hchar, Option.bind_some, hscan, escape_append, List.append_assoc]
    · rw [List.length_append, List.length_cons]
      omega
    · have hlt := hlt₁ hs
      rw [List.length_append, List.length_cons]
      omega

/-- The proper parts at the front of an opener. -/
def fronts : List Bytes :=
  [bytes "<", bytes "<?", bytes "<?l", bytes "<?lu", bytes "<?lua", bytes "<?lua=", bytes "<%", bytes "<%="]

theorem mem_fronts {o q : Bytes} (ho : o ∈ completeOpeners) (hq : q <+: o) (hne : q ≠ o) (hnil : q ≠ []) :
    q ∈ fronts := by
  have hall : ∀ o ∈ completeOpeners, ∀ q ∈ o.inits, q ≠ o → q ≠ [] → q ∈ fronts := by decide
  exact hall o ho q ((List.mem_inits q o).mpr hq) hne hnil

/-- **A part of an opener is held back**, whatever has been held back in front of it. -/
theorem scan_front {q : Bytes} (hq : q ∈ fronts) :
    ∃ s', Waits s' q ∧ ∀ {s : LuaState} {p : Bytes} (lua : Bytes), Waits s p →
      scan s lua q = some (s', lua ++ escape (emitted p)) := by
  have hlt {s : LuaState} {p : Bytes} (lua rest : Bytes) (h : Waits s p) :
      scan s lua (byte '<' :: rest) = scan .expectingQuestionMark (lua ++ escape (emitted p)) rest := by
    rw [scan_cons, h.onChar_lt, h.escape_emitted]
    rfl
  simp only [fronts, List.mem_cons, List.not_mem_nil, or_false] at hq
  rcases hq with rfl | rfl | rfl | rfl | rfl | rfl | rfl | rfl
  · exact ⟨_, .inl .questionMark, fun lua h => hlt lua [] h⟩
  · exact ⟨_, .inl .l, fun lua h => hlt lua (bytes "?") h⟩
  · exact ⟨_, .inl .u, fun lua h => hlt lua (bytes "?l") h⟩
  · exact ⟨_, .inl .a, fun lua h => hlt lua (bytes "?lu") h⟩
  · exact ⟨_, .inl .space1, fun lua h => hlt lua (bytes "?lua") h⟩
  · exact ⟨_, .inr ⟨rfl, rfl⟩, fun lua h => hlt lua (bytes "?lua=") h⟩
  · exact ⟨_, .inl .space12, fun lua h => hlt lua (bytes "%") h⟩
  · exact ⟨_, .inl .space22, fun lua h => hlt lua (bytes "%=") h⟩

/-- At most what stands in front of a part of an opener has been emitted when that part has been read. -/
theorem scan_append_front {a q : Bytes} (ha : NoOpener a) (hq : q ∈ fronts) (lua : Bytes) :
    ∃ s t, scan .start lua (a ++ q) = some (s, lua ++ escape t) ∧ Waits s q ∧ t.length ≤ a.length := by
  obtain ⟨s₁, t₁, p₁, hscan, hw₁, hle, -⟩ := scan_waits a lua (.inl .start) ha
  obtain ⟨s', hw, hfront⟩ := scan_front hq
  refine ⟨s', t₁ ++ emitted p₁, ?_, hw, ?_⟩
  · rw [scan_append, hscan, Option.bind_some, hfront _ hw₁, escape_append, List.append_assoc]
  · have := hw₁.emitted_length_le
    rw [List.length_append]
    simp only [List.length_nil, Nat.zero_add] at hle
    omega

/-! ### Where the text is kept -/

/-- **The text is kept**: the script is one `put` call, and its literal is the file once the backslashes in
front of brackets are removed. -/
def TextKept (file : Bytes) : Prop :=
  ∃ literal, luaScript file = some (some (bytes "put([[" ++ literal ++ bytes "]])")) ∧ unescape literal = file

theorem textKept_of_scan {file t : Bytes} {s : LuaState}
    (h : scan .start (bytes "put([[") file = some (s, bytes "put([[" ++ escape t)) : TextKept file ↔ t = file := by
  rw [TextKept, luaScript_of_scan h]
  constructor
  · intro hkept
    obtain ⟨literal, hscript, hliteral⟩ := hkept
    have hscript := Option.some.inj (Option.some.inj hscript)
    obtain rfl : escape t = literal := List.append_cancel_left (List.append_cancel_right hscript)
    rw [← hliteral, unescape_escape]
  · rintro rfl
    exact ⟨escape t, rfl, unescape_escape t⟩

/-- **When the scanner keeps a text.**  The literal that is built for a file without a complete opener gives
the file back if and only if there is no `<?lua=` in it and no part of an opener at its end. -/
theorem textKept_iff {file : Bytes} (hno : NoOpener file) :
    TextKept file ↔ ¬ bytes "<?lua=" <:+: file ∧ EndsClean file := by
  constructor
  · intro hkept
    constructor
    · rintro ⟨a, b, rfl⟩
      have hfront : bytes "<?lua=" ∈ fronts := by decide
      obtain ⟨s, t, hscan, hw, hle⟩ := scan_append_front
        (hno.of_infix (List.append_assoc a _ b ▸ (List.prefix_append a _).isInfix)) hfront (bytes "put([[")
      have hs : s = .expectingSpace2 := by
        rcases hw with hw | ⟨hs, -⟩
        · generalize hp : bytes "<?lua=" = p at hw
          cases hw <;> exact absurd hp (by decide)
        · exact hs
      obtain ⟨s', t', p', hscan', -, hle', hlt'⟩ := scan_waits b (bytes "put([[" ++ escape t) hw
        (hno.of_infix ⟨a, [], by simp⟩)
      have hall : scan .start (bytes "put([[") (a ++ bytes "<?lua=" ++ b) =
          some (s', bytes "put([[" ++ escape (t ++ t')) := by
        rw [scan_append, hscan, Option.bind_some, hscan', escape_append, List.append_assoc]
      have hlength := congrArg List.length ((textKept_of_scan hall).mp hkept)
      simp only [List.length_append] at hlength
      rcases eq_or_ne b [] with rfl | hb
      · -- nothing behind it: what is held back is dropped
        obtain rfl : t' = [] := by
          have hnil := Prod.mk.inj (Option.some.inj hscan')
          have hescape : escape t' = [] := by simpa using hnil.2
          rw [← unescape_escape t', hescape]
          rfl
        simp [bytes] at hlength
        omega
      · have := hlt' hs hb
        omega
    · intro o ho q hq hne hnil hsuffix
      obtain ⟨a, rfl⟩ := hsuffix
      obtain ⟨s, t, hscan, -, hle⟩ := scan_append_front (hno.of_infix ⟨[], q, rfl⟩) (mem_fronts ho hq hne hnil)
        (bytes "put([[")
      have hlength := congrArg List.length ((textKept_of_scan hscan).mp hkept)
      have := List.length_pos_iff.mpr hnil
      rw [List.length_append] at hlength
      omega
  · rintro ⟨hequals, hclean⟩
    have hplain : PlainText file := List.forall_mem_cons.mpr ⟨hequals, hno⟩
    obtain ⟨s, hscan⟩ := scan_text_last .start (bytes "put([[") hplain hclean
    exact (textKept_of_scan hscan).mpr rfl

/-- A comparison. -/
theorem textKept_iff_comparison :
    TextKept (bytes "a[i] <? b") ↔ ¬ bytes "<?lua=" <:+: bytes "a[i] <? b" ∧ EndsClean (bytes "a[i] <? b") :=
  textKept_iff (by decide)

/-- The question mark of `<?lua=` and a `<` at the end of the file are lost. -/
theorem not_textKept :
    (NoOpener (bytes "<?lua=x") ∧ luaScript (bytes "<?lua=x") = some (some (bytes "put([[<lua=x]])")) ∧
      ¬ TextKept (bytes "<?lua=x")) ∧
    NoOpener (bytes "x <") ∧ luaScript (bytes "x <") = some (some (bytes "put([[x ]])")) ∧
      ¬ TextKept (bytes "x <") := by
  have hscan : scan .start (bytes "put([[") (bytes "<?lua=x") =
      some (.start, bytes "put([[" ++ escape (bytes "<lua=x")) := by decide
  have hscan' : scan .start (bytes "put([[") (bytes "x <") =
      some (.expectingQuestionMark, bytes "put([[" ++ escape (bytes "x ")) := by decide
  have hne : bytes "<lua=x" ≠ bytes "<?lua=x" := by decide
  have hne' : bytes "x " ≠ bytes "x <" := by decide
  exact ⟨⟨by decide, luaScript_of_scan hscan, fun h => hne ((textKept_of_scan hscan).mp h)⟩, by decide,
    luaScript_of_scan hscan', fun h => hne' ((textKept_of_scan hscan').mp h)⟩

end Webserver.StaticFile
