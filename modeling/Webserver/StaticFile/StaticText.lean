import Webserver.Support.LongBracket
import Webserver.StaticFile.PageFraming
import Webserver.StaticFile.ScannerText

/-!
# Static text in a Lua literal

A file without `<` has no tags, so its script is one call of `put` on a long bracket literal.  Such a literal
knows no escapes: the backslash that `do_lua` puts in front of a bracket is a part of the text, and a bracket at
the end of the file closes the literal together with the first of the closing brackets.

What a Lua interpreter does on a script of this kind is `RunsPut`; everything else about the interpreter is left
open.

* `readLongString_escape` — the literal of a file without carriage returns.
* `doLua_eq_file_iff` — the texts that are sent as they are.
-/

namespace Webserver.StaticFile

open ByteString Http LongBracket

/-- **What a Lua interpreter does on `put([[ ...`.**  The call is made on the text of the literal when `)` and
the end of the script follow; a bracket there is a syntax error, and so is a literal that does not end. -/
structure RunsPut (lua : LuaInterpreter) : Prop where
  call : ∀ s text request, readLongString s = some (text, bytes ")") →
    lua (bytes "put([[" ++ s) request = some [.put text]
  bracket : ∀ s text rest request, readLongString s = some (text, byte ']' :: rest) →
    lua (bytes "put([[" ++ s) request = none
  unfinished : ∀ s request, readLongString s = none → lua (bytes "put([[" ++ s) request = none

/-- **Text that a literal can hold**: no bracket, no carriage return, no NUL, and no newline at the start. -/
def LiteralText (file : Bytes) : Prop :=
  (∀ c ∈ file, c ≠ byte '[' ∧ c ≠ byte ']' ∧ c ≠ byte '\r' ∧ c ≠ 0) ∧ file.head? ≠ some (byte '\n')

instance (file : Bytes) : Decidable (LiteralText file) := inferInstanceAs (Decidable (_ ∧ _))

/-! ### Escaped text in a literal -/

theorem escape_eq_self {s : Bytes} (h : ∀ c ∈ s, c ≠ byte '[' ∧ c ≠ byte ']') : escape s = s := by
  induction s with
  | nil => rfl
  | cons c s ih =>
    obtain ⟨hc, hs⟩ := List.forall_mem_cons.mp h
    rw [escape_cons, if_neg (by tauto), ih hs]

/-- A bracket makes the escaped text longer. -/
theorem notBracket_of_escape_eq {s : Bytes} (h : escape s = s) : ∀ c ∈ s, c ≠ byte '[' ∧ c ≠ byte ']' := by
  induction s with
  | nil => simp
  | cons c s ih =>
    rw [escape_cons] at h
    split_ifs at h with hc
    · obtain ⟨rfl, -⟩ := List.cons.inj h
      rcases hc with hc | hc
      · exact absurd hc (by decide)
      · exact absurd hc (by decide)
    · rw [not_or] at hc
      exact List.forall_mem_cons.mpr ⟨hc, ih (List.cons.inj h).2⟩

theorem escape_ne_newline_cons (s : Bytes) : escape s ≠ byte '\n' :: s := by
  induction s with
  | nil => simp
  | cons c s ih =>
    rw [escape_cons]
    split_ifs
    · exact fun h => absurd (List.cons.inj h).1 (by decide)
    · intro h
      obtain ⟨rfl, h⟩ := List.cons.inj h
      exact ih h

theorem mem_escape_iff {c : Byte} (hc : c ≠ byte '\\') (s : Bytes) : c ∈ escape s ↔ c ∈ s := by
  induction s with
  | nil => simp
  | cons d s ih =>
    rw [escape_cons]
    split_ifs
    · rw [List.mem_cons, List.mem_cons, List.mem_cons, ih, or_iff_right hc]
    · rw [List.mem_cons, List.mem_cons, ih]

/-- The escaped text has no closing brackets. -/
theorem not_close_escape (s : Bytes) : ¬ bytes "]]" <:+: escape s := by
  induction s with
  | nil => decide
  | cons c s ih =>
    have hcons : ¬ bytes "]]" <:+: c :: escape s := by
      rw [List.infix_cons_iff, not_or]
      refine ⟨?_, ih⟩
      rintro ⟨rest, hrest⟩
      have htail : byte ']' :: rest = escape s := (List.cons.inj hrest).2
      exact head?_escape_ne (.inr rfl) s (by rw [← htail]; rfl)
    rw [escape_cons]
    split_ifs
    · rw [List.infix_cons_iff, not_or]
      refine ⟨?_, hcons⟩
      rintro ⟨rest, hrest⟩
      exact absurd (List.cons.inj hrest).1 (by decide)
    · exact hcons

theorem escape_head? {s : Bytes} (hs : s.head? ≠ some (byte '\r')) (rest : Bytes)
    (hrest : rest.head? ≠ some (byte '\r')) : (escape s ++ rest).head? ≠ some (byte '\r') := by
  cases s with
  | nil => exact hrest
  | cons c s =>
    rw [escape_cons]
    split_ifs
    · exact fun h => absurd (Option.some.inj h) (by decide)
    · exact hs

/-- **An escaped text in a literal** without carriage returns: it is copied with its backslashes, unless it ends
in a closing bracket. -/
theorem readBody_escape {s : Bytes} (hcr : byte '\r' ∉ s) :
    readBody (escape s ++ bytes "]])") = some (escape s, bytes ")") ∨
      byte ']' ∈ s ∧ ∃ v, readBody (escape s ++ bytes "]])") = some (v, bytes "])") := by
  induction s with
  | nil => exact .inl rfl
  | cons c s ih =>
    obtain ⟨hc, hs⟩ := List.ne_and_not_mem_of_not_mem_cons hcr
    have hsaved {d : Byte} {front : Bytes} {r : Option (Bytes × Bytes)} {p : Prop}
        (hr : r = some (front, bytes ")") ∨ p ∧ ∃ v, r = some (v, bytes "])")) :
        save d r = some (d :: front, bytes ")") ∨ p ∧ ∃ v, save d r = some (v, bytes "])") := by
      rcases hr with rfl | ⟨hp, v, rfl⟩
      · exact .inl rfl
      · exact .inr ⟨hp, d :: v, rfl⟩
    have ih := (ih hs).imp_right (And.imp_left (List.mem_cons_of_mem c))
    rw [escape_cons]
    split_ifs with hbracket
    · -- a bracket behind its backslash; the last one of the file meets the closing brackets
      rw [List.cons_append, List.cons_append, readBody_cons (by decide) fun h => absurd h.1 (by decide)]
      rcases hbracket with rfl | rfl
      · rw [readBody_cons (by decide) fun h => absurd h.1 (by decide)]
        exact hsaved (hsaved ih)
      · cases s with
        | nil => exact .inr ⟨List.mem_cons_self, bytes "\\", rfl⟩
        | cons d s =>
          have hnext : (escape (d :: s) ++ bytes "]])").head? ≠ some (byte ']') := by
            have hne : escape (d :: s) ≠ [] := by
              rw [escape_cons]
              split_ifs <;> exact List.cons_ne_nil _ _
            rw [List.head?_append_of_ne_nil _ hne]
            exact head?_escape_ne (.inr rfl) _
          rw [readBody_cons (by decide) fun h => hnext h.2]
          exact hsaved (hsaved ih)
    · rw [not_or] at hbracket
      rw [List.cons_append]
      by_cases hnewline : c = byte '\n'
      · subst hnewline
        have hhead : s.head? ≠ some (byte '\r') := fun h => hs (List.mem_of_head? h)
        rw [readBody_newline (escape_head? hhead _ (by decide))]
        exact hsaved ih
      · have hline : isLineEnd c = false := by
          rw [isLineEnd, decide_eq_false_iff_not]
          tauto
        rw [readBody_cons hline fun h => hbracket.2 h.1]
        exact hsaved ih

/-- The literal of a file ends at its own closing brackets, or one bracket before. -/
theorem readLongString_escape_rest {s v rest : Bytes}
    (h : readLongString (escape s ++ bytes "]])") = some (v, rest)) : rest = bytes ")" ∨ rest = bytes "])" := by
  obtain ⟨⟨front, hfront⟩, -⟩ := readLongString_spec h
  rw [List.append_assoc] at hfront
  rcases List.append_eq_append_iff.mp hfront with ⟨t, -, ht⟩ | ⟨t, ht, hclose⟩
  · -- brackets behind the file
    rcases t with _ | ⟨_, _ | ⟨_, t⟩⟩
    · exact .inl (List.append_cancel_left (show bytes "]]" ++ bytes ")" = _ from ht)).symm
    · exact absurd (List.cons.inj (List.cons.inj (List.cons.inj ht).2).2).1 (by decide)
    · have hlength := congrArg List.length ht
      simp [bytes] at hlength
      omega
  · rcases t with _ | ⟨_, _ | ⟨d, t⟩⟩
    · exact .inl (List.append_cancel_left (show bytes "]]" ++ rest = _ from hclose))
    · exact .inr (List.cons.inj (List.cons.inj hclose).2).2
    · obtain rfl := (List.cons.inj hclose).1
      obtain rfl := (List.cons.inj (List.cons.inj hclose).2).1
      exact absurd ⟨front, t, by rw [ht, List.append_assoc]; rfl⟩ (not_close_escape s)

/-- What a literal takes of a text: a newline at the front is skipped. -/
def dropNewline : Bytes → Bytes
  | [] => []
  | c :: s => if c = byte '\n' then s else c :: s

theorem dropNewline_subset (s : Bytes) : dropNewline s ⊆ s := by
  cases s with
  | nil => exact List.Subset.refl _
  | cons c s =>
    rw [dropNewline]
    split_ifs
    · exact List.subset_cons_self c s
    · exact List.Subset.refl _

theorem readLongString_escape {s : Bytes} (hcr : byte '\r' ∉ s) :
    readLongString (escape s ++ bytes "]])") = some (escape (dropNewline s), bytes ")") ∨
      byte ']' ∈ s ∧ ∃ v, readLongString (escape s ++ bytes "]])") = some (v, bytes "])") := by
  cases s with
  | nil => exact .inl rfl
  | cons c s =>
    obtain ⟨hc, hs⟩ := List.ne_and_not_mem_of_not_mem_cons hcr
    rw [dropNewline]
    split_ifs with hnewline
    · subst hnewline
      have hhead : s.head? ≠ some (byte '\r') := fun h => hs (List.mem_of_head? h)
      have hread : readLongString (escape (byte '\n' :: s) ++ bytes "]])") = readBody (escape s ++ bytes "]])") := by
        rw [escape_cons, if_neg (by decide), List.cons_append,
          readLongString_newline (escape_head? hhead _ (by decide))]
      rw [hread]
      exact (readBody_escape hs).imp_right (And.imp_left (List.mem_cons_of_mem _))
    · have hread : readLongString (escape (c :: s) ++ bytes "]])") = readBody (escape (c :: s) ++ bytes "]])") := by
        refine readLongString_eq_readBody fun d hd => ?_
        rw [escape_cons] at hd
        split_ifs at hd
        · obtain rfl : byte '\\' = d := Option.some.inj hd
          decide
        · obtain rfl : c = d := Option.some.inj hd
          rw [isLineEnd, decide_eq_false_iff_not]
          tauto
      rw [hread]
      exact readBody_escape hcr

theorem escape_dropNewline_eq_iff {s : Bytes} :
    escape (dropNewline s) = s ↔ (∀ c ∈ s, c ≠ byte '[' ∧ c ≠ byte ']') ∧ s.head? ≠ some (byte '\n') := by
  cases s with
  | nil => decide
  | cons c s =>
    rw [dropNewline]
    split_ifs with hnewline
    · subst hnewline
      exact iff_of_false (escape_ne_newline_cons s) fun h => h.2 rfl
    · have hhead : (c :: s).head? ≠ some (byte '\n') := fun h => hnewline (Option.some.inj h)
      exact ⟨fun h => ⟨notBracket_of_escape_eq h, hhead⟩, fun h => escape_eq_self h.1⟩

theorem literalText_iff {file : Bytes} :
    LiteralText file ↔ (0 : Byte) ∉ file ∧ byte '\r' ∉ file ∧ escape (dropNewline file) = file := by
  rw [escape_dropNewline_eq_iff, LiteralText]
  constructor
  · rintro ⟨hall, hhead⟩
    exact ⟨fun h => (hall _ h).2.2.2 rfl, fun h => (hall _ h).2.2.1 rfl,
      fun c hc => ⟨(hall c hc).1, (hall c hc).2.1⟩, hhead⟩
  · rintro ⟨hnul, hcr, hbracket, hhead⟩
    exact ⟨fun c hc => ⟨(hbracket c hc).1, (hbracket c hc).2, ne_of_mem_of_not_mem hc hcr,
      ne_of_mem_of_not_mem hc hnul⟩, hhead⟩

/-! ### The script of a file without tags -/

theorem plainText_of_not_mem {file : Bytes} (hno : byte '<' ∉ file) : PlainText file ∧ EndsClean file := by
  have hopener : ∀ o ∈ bytes "<?lua=" :: completeOpeners, o.head? = some (byte '<') := by decide
  constructor
  · intro o ho hpart
    exact hno (hpart.subset (List.mem_of_head? (hopener o ho)))
  · intro o ho p hfront _ hne hsuffix
    -- a part of an opener starts like the opener
    have hhead : p.head? = some (byte '<') := by
      obtain ⟨rest, rfl⟩ := hfront
      rw [← List.head?_append_of_ne_nil p hne]
      exact hopener _ (List.mem_cons_of_mem _ ho)
    exact hno (hsuffix.subset (List.mem_of_head? hhead))

/-- What the interpreter is given behind `put([[`. -/
def literalOf (file : Bytes) : Bytes := cStr (escape file ++ bytes "]])")

theorem doLua_of_not_mem {file : Bytes} (hno : byte '<' ∉ file) (host : Host) (lua : LuaInterpreter)
    (request : Request) (response : Response) :
    doLua (withLua host lua) file request response =
      runScript lua (bytes "put([[" ++ literalOf file) request response := by
  obtain ⟨hplain, hclean⟩ := plainText_of_not_mem hno
  obtain ⟨s, hscan⟩ := scan_text_last .start (bytes "put([[") hplain hclean
  have hscript : luaScript file = some (some (bytes "put([[" ++ (escape file ++ bytes "]])"))) := by
    rw [← List.append_assoc]
    exact luaScript_of_scan hscan
  have hstring : cStr (bytes "put([[" ++ (escape file ++ bytes "]])")) = bytes "put([[" ++ literalOf file := rfl
  rw [doLua, hscript]
  show runScript lua (cStr _) request response = _
  rw [hstring]

/-- A file with a NUL leaves the literal open. -/
theorem readLongString_literalOf_of_mem {file : Bytes} (h : (0 : Byte) ∈ file) :
    readLongString (literalOf file) = none := by
  refine readLongString_eq_none fun hclose => not_close_escape file (hclose.trans ?_)
  have hnul : (0 : Byte) ∈ escape file := (mem_escape_iff (by decide) file).mpr h
  rw [literalOf, cStr_append_of_mem hnul]
  exact (cStr_isPrefix _).isInfix

theorem literalOf_of_not_mem {file : Bytes} (h : (0 : Byte) ∉ file) :
    literalOf file = escape file ++ bytes "]])" := by
  rw [literalOf, cStr_eq_self_iff, List.mem_append, not_or, mem_escape_iff (by decide)]
  exact ⟨h, by decide⟩

/-! ### The body -/

section Interpreter

variable {lua : LuaInterpreter} (hlua : RunsPut lua)

include hlua

/-- The script runs when the literal is closed by its own brackets; the body is then its text. -/
theorem runScript_eq_some_iff {s v rest body : Bytes} {request : Request} {response : Response}
    (h : readLongString s = some (v, rest)) (hrest : rest = bytes ")" ∨ rest = bytes "])") :
    (runScript lua (bytes "put([[" ++ s) request response).map Prod.snd = some body ↔
      rest = bytes ")" ∧ cStr v = body := by
  rcases hrest with rfl | rfl
  · rw [runScript, hlua.call s v request h]
    exact ⟨fun hbody => ⟨rfl, Option.some.inj hbody⟩, fun hbody => congrArg some hbody.2⟩
  · rw [runScript, hlua.bracket s v (bytes ")") request h]
    constructor
    · intro hbody
      cases hbody
    · intro hbody
      exact absurd hbody.1 (by decide)

/-- **When static text survives.**  A file without `<` is sent as it is if and only if a literal can hold it. -/
theorem doLua_eq_file_iff {file : Bytes} (hno : byte '<' ∉ file) (host : Host) (request : Request)
    (response : Response) :
    (doLua (withLua host lua) file request response).map Prod.snd = some file ↔ LiteralText file := by
  rw [doLua_of_not_mem hno]
  by_cases hnul : (0 : Byte) ∈ file
  · -- the script ends in the middle of the literal
    rw [runScript, hlua.unfinished _ _ (readLongString_literalOf_of_mem hnul)]
    constructor
    · intro hbody
      cases hbody
    · intro htext
      exact absurd rfl (htext.1 0 hnul).2.2.2
  rw [literalOf_of_not_mem hnul, literalText_iff]
  constructor
  · intro hbody
    cases hr : readLongString (escape file ++ bytes "]])") with
    | none =>
      rw [runScript, hlua.unfinished _ _ hr] at hbody
      cases hbody
    | some r =>
      obtain ⟨v, rest⟩ := r
      obtain ⟨rfl, hv⟩ := (runScript_eq_some_iff hlua hr (readLongString_escape_rest hr)).mp hbody
      -- the text of a literal has no carriage returns, so the file has none
      have hcr : byte '\r' ∉ file := by
        rw [← hv]
        exact fun h => (readLongString_spec hr).2 ((cStr_isPrefix v).subset h)
      refine ⟨hnul, hcr, ?_⟩
      rcases readLongString_escape hcr with htext | ⟨-, v', htext⟩
      · obtain ⟨rfl, -⟩ := Prod.mk.inj (Option.some.inj (hr.symm.trans htext))
        have hkept : cStr (escape (dropNewline file)) = escape (dropNewline file) := by
          rw [cStr_eq_self_iff, mem_escape_iff (by decide)]
          exact fun h => hnul (dropNewline_subset file h)
        rw [← hkept, hv]
      · exact absurd (Prod.mk.inj (Option.some.inj (hr.symm.trans htext))).2 (by decide)
  · rintro ⟨-, hcr, hkept⟩
    rcases readLongString_escape hcr with htext | ⟨hbracket, -⟩
    · refine (runScript_eq_some_iff hlua htext (.inl rfl)).mpr ⟨rfl, ?_⟩
      rw [hkept, cStr_eq_self hnul]
    · exact absurd rfl ((escape_dropNewline_eq_iff.mp hkept).1 _ hbracket).2

end Interpreter

/-- An interpreter that runs the scripts of one literal and no others. -/
def putInterpreter : LuaInterpreter := fun script _ =>
  if bytes "put([[" <+: script then
    (readLongString (script.drop 6)).bind fun r => if r.2 = bytes ")" then some [.put r.1] else none
  else none

theorem runsPut_putInterpreter : RunsPut putInterpreter := by
  have hrun (s : Bytes) (request : Request) : putInterpreter (bytes "put([[" ++ s) request =
      (readLongString s).bind fun r => if r.2 = bytes ")" then some [.put r.1] else none := by
    exact if_pos (List.prefix_append _ s)
  constructor
  · intro s text request h
    rw [hrun, h]
    rfl
  · intro s text rest request h
    have hne : byte ']' :: rest ≠ bytes ")" := fun h => absurd (List.cons.inj h).1 (by decide)
    rw [hrun, h, Option.bind_some, if_neg hne]
  · intro s request h
    rw [hrun, h]
    rfl

/-- A text without brackets survives. -/
theorem doLua_eq_file_iff_plain :
    (doLua (withLua onePage putInterpreter) (bytes "a > b\n") Request.fresh .new).map Prod.snd =
      some (bytes "a > b\n") ↔ LiteralText (bytes "a > b\n") :=
  doLua_eq_file_iff runsPut_putInterpreter (by decide) onePage Request.fresh .new

/-- **The backslashes are sent**, and a page that ends in a bracket is not sent at all. -/
theorem doLua_ne_file :
    (byte '<' ∉ bytes "a[0]." ∧
      (doLua (withLua onePage putInterpreter) (bytes "a[0].") Request.fresh .new).map Prod.snd =
        some (bytes "a\\[0\\].")) ∧
    byte '<' ∉ bytes "[b]" ∧ doLua (withLua onePage putInterpreter) (bytes "[b]") Request.fresh .new = none := by
  decide

end Webserver.StaticFile
