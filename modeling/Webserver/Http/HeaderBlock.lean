import Webserver.Support.LineEdit
import Webserver.Http.RequestLanguage

/-!
# Words in a header block

Where a word can be in the text of a request.  A word is made of token bytes, as a header name is, so it
has none of the separators of the grammar: it lies in one name, in the first line of one value, or in one
continuation line, and the rest of that line does not have the end of a line in it.

* `headerBlock_unique` — a header block can be read in one way only.
* `word_in_headers` — a word in a header block lies in a `Spot` of one header: the rest of the line can be
  exchanged for `: value`, and the header only stays the same when that is what was there.
-/

namespace Webserver.Http

open ByteString LineEdit

/-! ### Setting a header -/

/-- The first header with this name gets the value. -/
def setHeader (name value : Bytes) : Headers → Headers
  | [] => []
  | h :: hs => if h.1 = name then (name, value) :: hs else h :: setHeader name value hs

theorem setHeader_append {name : Bytes} {pre : Headers} (hpre : ∀ h ∈ pre, h.1 ≠ name) (value : Bytes)
    (post : Headers) : setHeader name value (pre ++ post) = pre ++ setHeader name value post := by
  induction pre with
  | nil => rfl
  | cons h pre ih =>
    obtain ⟨hh, hpre⟩ := List.forall_mem_cons.mp hpre
    rw [List.cons_append, setHeader, if_neg hh, ih hpre]
    rfl

theorem setHeader_cons_self (name value old : Bytes) (post : Headers) :
    setHeader name value ((name, old) :: post) = (name, value) :: post := if_pos rfl

/-- The first header with a name, in the list of header texts. -/
theorem exists_first_header {name : Bytes} {hts : List HeaderText} (h : ∃ ht ∈ hts, ht.name = name) :
    ∃ pre ht post, hts = pre ++ ht :: post ∧ ht.name = name ∧ ∀ h ∈ pre, h.name ≠ name := by
  induction hts with
  | nil =>
    obtain ⟨ht, hmem, -⟩ := h
    cases hmem
  | cons h' hts ih =>
    by_cases hname : h'.name = name
    · exact ⟨[], h', hts, rfl, hname, by simp⟩
    · obtain ⟨ht, hmem, hht⟩ := h
      rcases List.mem_cons.mp hmem with rfl | hmem
      · exact absurd hht hname
      · obtain ⟨pre, ht, post, rfl, hht, hpre⟩ := ih ⟨ht, hmem, hht⟩
        exact ⟨h' :: pre, ht, post, rfl, hht, List.forall_mem_cons.mpr ⟨hname, hpre⟩⟩

theorem renderHeaders_append (hs hs' : List HeaderText) :
    renderHeaders (hs ++ hs') = renderHeaders hs ++ renderHeaders hs' := List.flatMap_append

theorem renderHeaders_cons (h : HeaderText) (hs : List HeaderText) :
    renderHeaders (h :: hs) = h.render ++ renderHeaders hs := List.flatMap_cons

/-! ### Uniqueness -/

/-- A request with a given header block, whose body is as much of `t` as the headers announce. -/
def blockRequest (hts : List HeaderText) (t : Bytes)
    (ht : contentLength (hts.map HeaderText.pair) ≤ t.length) : RequestText :=
  ⟨bytes "A", bytes "A", bytes "1", bytes "0", hts, t.take (contentLength (hts.map HeaderText.pair)),
    by decide, by decide, by decide, by decide, by decide, by decide, by decide, by decide,
    List.length_take_of_le ht⟩

theorem blockRequest_prefix {hts : List HeaderText} {t : Bytes}
    (ht : contentLength (hts.map HeaderText.pair) ≤ t.length) :
    (blockRequest hts t ht).render <+: bytes "A A HTTP/1.0\r\n" ++ (renderHeaders hts ++ crlf ++ t) := by
  show bytes "A A HTTP/1.0\r\n" ++ renderHeaders hts ++ crlf ++ t.take _ <+: _
  rw [List.append_assoc, List.append_assoc, List.prefix_append_right_inj, ← List.append_assoc,
    List.prefix_append_right_inj]
  exact List.take_prefix _ t

/-- **A header block can be read in one way only**, whatever follows it. -/
theorem headerBlock_unique {hts hts' : List HeaderText} {y y' : Bytes}
    (h : renderHeaders hts ++ crlf ++ y = renderHeaders hts' ++ crlf ++ y') :
    hts.map HeaderText.pair = hts'.map HeaderText.pair ∧ renderHeaders hts = renderHeaders hts' := by
  -- both blocks become requests once there are enough bytes behind them for a body
  obtain ⟨n, hn⟩ : ∃ n, n = contentLength (hts.map HeaderText.pair) + contentLength (hts'.map HeaderText.pair) :=
    ⟨_, rfl⟩
  have ht : contentLength (hts.map HeaderText.pair) ≤ (y ++ List.replicate n 0).length := by
    rw [List.length_append, List.length_replicate]
    omega
  have ht' : contentLength (hts'.map HeaderText.pair) ≤ (y' ++ List.replicate n 0).length := by
    rw [List.length_append, List.length_replicate]
    omega
  have hm := blockRequest_prefix ht
  have hm' := blockRequest_prefix ht'
  rw [← List.append_assoc (renderHeaders hts' ++ crlf), ← h, List.append_assoc] at hm'
  have heq := RequestText.toRequest_unique hm hm'
  have hpair : hts.map HeaderText.pair = hts'.map HeaderText.pair := congrArg Request.headers heq
  refine ⟨hpair, ?_⟩
  have hrender : bytes "A A HTTP/1.0\r\n" ++ renderHeaders hts ++ crlf ++ (y ++ List.replicate n 0).take _ =
      bytes "A A HTTP/1.0\r\n" ++ renderHeaders hts' ++ crlf ++ (y' ++ List.replicate n 0).take _ :=
    congrArg Request.rawRequest heq
  have hcut := (List.append_inj' hrender (by
    rw [List.length_take_of_le ht, List.length_take_of_le ht', hpair])).1
  exact (List.append_inj (List.append_inj' hcut rfl).1 rfl).2

/-! ### Words in the text -/

/-- A word that could be a header name. -/
structure IsToken (w : Bytes) : Prop where
  ne : w ≠ []
  tokenByte : ∀ b ∈ w, IsTokenByte b

theorem IsToken.notMem {w : Bytes} (hw : IsToken w) {b : Byte} (hb : ¬ IsTokenByte b) : b ∉ w :=
  fun hmem => hb (hw.tokenByte b hmem)

theorem IsToken.separators {w p : Bytes} (hw : IsToken w) (hp : ∀ b ∈ p, ¬ IsTokenByte b) :
    ∀ b ∈ p, b ∉ w := fun b hb => hw.notMem (hp b hb)

theorem IsBlank.not_token {b : Byte} (h : IsBlank b) : ¬ IsTokenByte b := fun ht => ht.not_blank h

theorem IsTokenByte.not_control {b : Byte} (h : IsTokenByte b) : ¬ IsControl b := h.2.1

theorem cr_isControl : IsControl (byte '\r') := by decide

/-- No line of a header has a carriage return in it. -/
theorem cr_notMem {s : Bytes} (h : ∀ b ∈ s, ¬ IsControl b) : byte '\r' ∉ s := fun hmem => h _ hmem cr_isControl

/-- **A place of the word in a header**: `x` is in front of it and `z` behind it on its line.  When the rest
of the line becomes `: v`, the text is again a header, which is the same one only if `z` was `: v`. -/
structure Spot (w : Bytes) (h : HeaderText) (x z r : Bytes) : Prop where
  render_eq : h.render = x ++ w ++ z ++ crlf ++ r
  notControl : ∀ b ∈ z, ¬ IsControl b
  edit : ∀ v, (∀ b ∈ v, ¬ IsControl b) → ∃ h' : HeaderText,
    h'.render = x ++ (w ++ bytes ": " ++ v) ++ crlf ++ r ∧ (h'.pair = h.pair → z = bytes ": " ++ v)

theorem colonSpace_notControl {v : Bytes} (hv : ∀ b ∈ v, ¬ IsControl b) : ∀ b ∈ bytes ": " ++ v, ¬ IsControl b := by
  intro b hb
  rcases List.mem_append.mp hb with hb | hb
  · exact (by decide : ∀ b ∈ bytes ": ", ¬ IsControl b) b hb
  · exact hv b hb

theorem IsToken.cr_notMem {w : Bytes} (hw : IsToken w) : byte '\r' ∉ w := hw.notMem (by decide)

theorem IsToken.colon_notMem {w : Bytes} (hw : IsToken w) : byte ':' ∉ w := hw.notMem (by decide)

/-- The word is in the name. -/
theorem spot_name {w x n₂ : Bytes} (hw : IsToken w) {h : HeaderText} (hname : h.name = x ++ w ++ n₂) :
    Spot w h x (n₂ ++ bytes ": " ++ h.first) (renderContinuations h.continuations) := by
  have htoken : ∀ b ∈ x ++ w, IsTokenByte b := by
    intro b hb
    exact h.isToken b (by rw [hname]; exact List.mem_append_left _ hb)
  refine ⟨?_, ?_, ?_⟩
  · rw [HeaderText.render_eq, hname]
    simp only [List.append_assoc]
  · intro b hb
    rw [List.append_assoc] at hb
    rcases List.mem_append.mp hb with hb | hb
    · exact (h.isToken b (by rw [hname]; exact List.mem_append_right _ hb)).not_control
    · exact colonSpace_notControl h.notControl b hb
  · intro v hv
    refine ⟨⟨x ++ w, v, h.continuations, List.append_ne_nil_of_right_ne_nil _ hw.ne, htoken, hv⟩, ?_, ?_⟩
    · rw [HeaderText.render_eq]
      simp only [List.append_assoc]
    · intro hpair
      obtain ⟨hname', hvalue⟩ := Prod.mk.inj hpair
      have hn : n₂ = [] := by
        have heq : x ++ w = x ++ w ++ n₂ := hname'.trans hname
        exact List.self_eq_append_right.mp heq
      have hfirst : v = h.first := List.append_cancel_right hvalue
      rw [hn, hfirst, List.nil_append]

/-- The word is in the first line of the value. -/
theorem spot_first {w f₁ f₂ : Bytes} {h : HeaderText} (hfirst : h.first = f₁ ++ w ++ f₂) :
    Spot w h (h.name ++ bytes ": " ++ f₁) f₂ (renderContinuations h.continuations) := by
  refine ⟨?_, ?_, ?_⟩
  · rw [HeaderText.render_eq, hfirst]
    simp only [List.append_assoc]
  · intro b hb
    exact h.notControl b (by rw [hfirst]; exact List.mem_append_right _ hb)
  · intro v hv
    have hnew : ∀ b ∈ f₁ ++ w ++ (bytes ": " ++ v), ¬ IsControl b := by
      intro b hb
      rcases List.mem_append.mp hb with hb | hb
      · exact h.notControl b (by rw [hfirst]; exact List.mem_append_left _ hb)
      · exact colonSpace_notControl hv b hb
    refine ⟨⟨h.name, f₁ ++ w ++ (bytes ": " ++ v), h.continuations, h.name_ne, h.isToken, hnew⟩, ?_, ?_⟩
    · rw [HeaderText.render_eq]
      simp only [List.append_assoc]
    · intro hpair
      have hvalue : f₁ ++ w ++ (bytes ": " ++ v) ++ continuationsText h.continuations =
          h.first ++ continuationsText h.continuations := (Prod.mk.inj hpair).2
      rw [hfirst] at hvalue
      exact (List.append_cancel_left (List.append_cancel_right hvalue)).symm

theorem renderContinuations_append (cs cs' : List Continuation) :
    renderContinuations (cs ++ cs') = renderContinuations cs ++ renderContinuations cs' := List.flatMap_append

theorem renderContinuations_cons (c : Continuation) (cs : List Continuation) :
    renderContinuations (c :: cs) = c.blanks ++ c.text ++ crlf ++ renderContinuations cs := List.flatMap_cons

theorem continuationsText_append (cs cs' : List Continuation) :
    continuationsText (cs ++ cs') = continuationsText cs ++ continuationsText cs' := List.flatMap_append

theorem continuationsText_cons (c : Continuation) (cs : List Continuation) :
    continuationsText (c :: cs) = c.text ++ continuationsText cs := List.flatMap_cons

/-- The word is in a continuation line. -/
theorem spot_continuation {w t₁ t₂ : Bytes} (hw : IsToken w) {h : HeaderText} {cs cs' : List Continuation}
    {c : Continuation} (hcs : h.continuations = cs ++ c :: cs') (htext : c.text = t₁ ++ w ++ t₂) :
    Spot w h (h.name ++ bytes ": " ++ h.first ++ crlf ++ renderContinuations cs ++ c.blanks ++ t₁) t₂
      (renderContinuations cs') := by
  refine ⟨?_, ?_, ?_⟩
  · rw [HeaderText.render_eq, hcs, renderContinuations_append, renderContinuations_cons, htext]
    simp only [List.append_assoc]
  · intro b hb
    exact c.notControl b (by rw [htext]; exact List.mem_append_right _ hb)
  · intro v hv
    have hnew : ∀ b ∈ t₁ ++ w ++ (bytes ": " ++ v), ¬ IsControl b := by
      intro b hb
      rcases List.mem_append.mp hb with hb | hb
      · exact c.notControl b (by rw [htext]; exact List.mem_append_left _ hb)
      · exact colonSpace_notControl hv b hb
    have hhead : (t₁ ++ w ++ (bytes ": " ++ v)).head? ≠ some (byte ' ') := by
      have hne : t₁ ++ w ≠ [] := List.append_ne_nil_of_right_ne_nil _ hw.ne
      have hold : c.text.head? = (t₁ ++ w).head? := by rw [htext, List.head?_append_of_ne_nil _ hne]
      rw [List.head?_append_of_ne_nil _ hne, ← hold]
      exact c.head_ne
    refine ⟨⟨h.name, h.first, cs ++ ⟨c.blanks, t₁ ++ w ++ (bytes ": " ++ v), c.blanks_ne, c.isBlank, hnew, hhead⟩ :: cs',
      h.name_ne, h.isToken, h.notControl⟩, ?_, ?_⟩
    · rw [HeaderText.render_eq, renderContinuations_append, renderContinuations_cons]
      simp only [List.append_assoc]
    · intro hpair
      have hvalue : h.first ++ continuationsText _ = h.first ++ continuationsText h.continuations :=
        (Prod.mk.inj hpair).2
      rw [hcs, continuationsText_append, continuationsText_append, continuationsText_cons,
        continuationsText_cons, htext] at hvalue
      have htail := List.append_cancel_right (List.append_cancel_left (List.append_cancel_left hvalue))
      exact (List.append_cancel_left htail).symm

/-! ### Finding the spot -/

theorem word_in_continuations {w y t : Bytes} (hw : IsToken w) (cs : List Continuation) :
    ∀ {x : Bytes}, x ++ w ++ y = renderContinuations cs ++ t →
    (∃ cs₁ c cs₂ t₁ t₂, cs = cs₁ ++ c :: cs₂ ∧ c.text = t₁ ++ w ++ t₂ ∧
      x = renderContinuations cs₁ ++ c.blanks ++ t₁ ∧ y = t₂ ++ crlf ++ renderContinuations cs₂ ++ t) ∨
    ∃ x', x = renderContinuations cs ++ x' ∧ t = x' ++ w ++ y := by
  induction cs with
  | nil =>
    intro x h
    exact .inr ⟨x, rfl, h.symm⟩
  | cons c cs ih =>
    intro x h
    have h : x ++ w ++ y = c.blanks ++
        (c.text ++ byte '\r' :: ([byte '\n'] ++ (renderContinuations cs ++ t))) := by
      rw [h, renderContinuations_cons]
      simp [crlf, bytes]
    obtain ⟨x₁, rfl, h₁⟩ := word_append_left hw.ne (hw.separators fun b hb => (c.isBlank b hb).not_token) h
    rcases word_append_cons hw.cr_notMem h₁.symm with ⟨t₂, htext, hy⟩ | ⟨x₂, rfl, h₂⟩
    · refine .inl ⟨[], c, cs, x₁, t₂, rfl, htext, rfl, ?_⟩
      rw [hy]
      simp [crlf, bytes]
    · obtain ⟨x₃, rfl, h₃⟩ := word_append_left (p := [byte '\n']) hw.ne (hw.separators (by decide)) h₂.symm
      rcases ih h₃.symm with ⟨cs₁, c', cs₂, t₁, t₂, rfl, htext, rfl, hy⟩ | ⟨x₄, rfl, hx⟩
      · refine .inl ⟨c :: cs₁, c', cs₂, t₁, t₂, rfl, htext, ?_, hy⟩
        rw [renderContinuations_cons]
        simp [crlf, bytes]
      · refine .inr ⟨x₄, ?_, hx⟩
        rw [renderContinuations_cons]
        simp [crlf, bytes]

/-- **A word in a header is in a spot of it.** -/
theorem word_in_header {w x y t : Bytes} (hw : IsToken w) (h : HeaderText) (heq : x ++ w ++ y = h.render ++ t) :
    (∃ z r, Spot w h x z r ∧ y = z ++ crlf ++ r ++ t) ∨ ∃ x', x = h.render ++ x' ∧ t = x' ++ w ++ y := by
  have heq : x ++ w ++ y = h.name ++ byte ':' :: ([byte ' '] ++ (h.first ++ byte '\r' ::
      ([byte '\n'] ++ (renderContinuations h.continuations ++ t)))) := by
    rw [heq, HeaderText.render_eq]
    simp [crlf, bytes]
  rcases word_append_cons hw.colon_notMem heq with ⟨n₂, hname, hy⟩ | ⟨x₁, rfl, h₁⟩
  · refine .inl ⟨_, _, spot_name hw hname, ?_⟩
    rw [hy]
    simp [crlf, bytes]
  obtain ⟨x₂, rfl, h₂⟩ := word_append_left (p := [byte ' ']) hw.ne (hw.separators (by decide)) h₁.symm
  rcases word_append_cons hw.cr_notMem h₂.symm with ⟨f₂, hfirst, hy⟩ | ⟨x₃, rfl, h₃⟩
  · have hx : h.name ++ byte ':' :: ([byte ' '] ++ x₂) = h.name ++ bytes ": " ++ x₂ := by simp [bytes]
    rw [hx, hy]
    refine .inl ⟨f₂, renderContinuations h.continuations, spot_first hfirst, ?_⟩
    simp [crlf, bytes]
  obtain ⟨x₄, rfl, h₄⟩ := word_append_left (p := [byte '\n']) hw.ne (hw.separators (by decide)) h₃.symm
  rcases word_in_continuations hw h.continuations h₄.symm with
    ⟨cs, c, cs', t₁, t₂, hcs, htext, rfl, hy⟩ | ⟨x₅, rfl, hx⟩
  · have hx : h.name ++ byte ':' :: ([byte ' '] ++ (h.first ++ byte '\r' :: ([byte '\n'] ++
        (renderContinuations cs ++ c.blanks ++ t₁)))) =
        h.name ++ bytes ": " ++ h.first ++ crlf ++ renderContinuations cs ++ c.blanks ++ t₁ := by
      simp [crlf, bytes]
    rw [hx]
    exact .inl ⟨t₂, renderContinuations cs', spot_continuation hw hcs htext, hy⟩
  · refine .inr ⟨x₅, ?_, hx⟩
    rw [HeaderText.render_eq]
    simp [crlf, bytes]

/-- **A word in a header block is in a spot of one header.** -/
theorem word_in_headers {w y t : Bytes} (hw : IsToken w) (hts : List HeaderText) :
    ∀ {x : Bytes}, x ++ w ++ y = renderHeaders hts ++ t →
    (∃ pre h post x' z r, hts = pre ++ h :: post ∧ Spot w h x' z r ∧ x = renderHeaders pre ++ x' ∧
      y = z ++ crlf ++ r ++ renderHeaders post ++ t) ∨
    ∃ x', x = renderHeaders hts ++ x' ∧ t = x' ++ w ++ y := by
  induction hts with
  | nil =>
    intro x h
    exact .inr ⟨x, rfl, h.symm⟩
  | cons h hts ih =>
    intro x heq
    have heq' : x ++ w ++ y = h.render ++ (renderHeaders hts ++ t) := by
      rw [heq, renderHeaders_cons, List.append_assoc]
    rcases word_in_header hw h heq' with ⟨z, r, hspot, hy⟩ | ⟨x', rfl, hx⟩
    · refine .inl ⟨[], h, hts, x, z, r, rfl, hspot, rfl, ?_⟩
      rw [hy, List.append_assoc (z ++ crlf ++ r)]
    · rcases ih hx.symm with ⟨pre, h', post, x'', z, r, rfl, hspot, rfl, hy⟩ | ⟨x'', rfl, ht⟩
      · refine .inl ⟨h :: pre, h', post, x'', z, r, rfl, hspot, ?_, hy⟩
        rw [renderHeaders_cons, List.append_assoc]
      · refine .inr ⟨x'', ?_, ht⟩
        rw [renderHeaders_cons, List.append_assoc]

end Webserver.Http
