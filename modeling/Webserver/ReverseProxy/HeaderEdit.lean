import Webserver.Http.HeaderBlock
import Webserver.ReverseProxy.ReverseProxyHandler

/-!
# Editing a header by searching for its name

What the edits of `remoteRequest` do to a request: the rest of the line that the first occurrence of the
word `w` is in becomes `w: v`.  `EditsHeader` relates a request to the one in which the first header named
`w` has the value `v`, when the edit meets this header, or has nothing to change.

`exists_editsHeader` says that these are the only two ways in which the result can be the request with
that header set.
-/

namespace Webserver.Http

open ByteString CxxString LineEdit

/-- A word that can be searched for: its first byte does not come up in it again. -/
structure IsSearchWord (w : Bytes) : Prop extends IsToken w where
  head_notMem : ∀ c ∈ w.head?, c ∉ w.tail
  ne_contentLength : w ≠ bytes "Content-Length"

/-- Two requests that may differ in their headers. -/
structure SameButHeaders (m m' : RequestText) : Prop where
  method : m'.method = m.method
  uri : m'.uri = m.uri
  version : m'.version = m.version
  body : m'.body = m.body

/-- **`m'` is `m` with the value `v` for the header `w`**, and an edit that searches for `w` makes it so. -/
inductive EditsHeader (w v : Bytes) (m m' : RequestText) : Prop
  /-- The first occurrence is the name of a header without text in its continuation lines. -/
  | inPlace {pre post : List HeaderText} {h h' : HeaderText} (same : SameButHeaders m m')
      (headers : m.headerTexts = pre ++ h :: post) (name : h.name = w)
      (unfolded : continuationsText h.continuations = []) (first : ¬ w <:+: m.requestLine ++ renderHeaders pre)
      (headers' : m'.headerTexts = pre ++ h' :: post) (name' : h'.name = w) (value' : h'.first = v)
      (continuations' : h'.continuations = h.continuations)
  /-- The line of the first occurrence already ends in `w: v`, and the first header `w`, if there is one, already has
  the value. -/
  | idle {a b rest : Bytes} (same : m' = m) (first : FirstAt w m.render a b)
      (line : IsLine crlf (w ++ b) (w ++ bytes ": " ++ v) rest) (value : setHeader w v m.headers = m.headers)

/-! ### The parts of a request -/

theorem render_eq_parts (m : RequestText) (pre post : List HeaderText) (h : HeaderText)
    (headers : m.headerTexts = pre ++ h :: post) :
    m.render = m.requestLine ++ renderHeaders pre ++ h.name ++ (bytes ": " ++ h.first ++ (crlf ++
      (renderContinuations h.continuations ++ renderHeaders post ++ crlf ++ m.body))) := by
  rw [RequestText.render, headers, renderHeaders_append, renderHeaders_cons, HeaderText.render_eq]
  simp only [List.append_assoc]

/-- The request line without the end of the line. -/
def lineText (m : RequestText) : Bytes := m.method ++ bytes " " ++ m.uri ++ bytes " " ++ m.version

theorem SameButHeaders.lineText_eq {m m' : RequestText} (h : SameButHeaders m m') : lineText m' = lineText m := by
  rw [lineText, lineText, h.method, h.uri, h.version]

theorem requestLine_eq (m : RequestText) : m.requestLine = lineText m ++ crlf := rfl

theorem version_notControl (m : RequestText) : ∀ b ∈ m.version, ¬ IsControl b := by
  have hdigit : ∀ b, IsDigitByte b → ¬ IsControl b := by
    intro b hb hcontrol
    obtain ⟨hlow, hhigh⟩ := hb
    rcases hcontrol with h | h <;> omega
  intro b hb
  rw [RequestText.version] at hb
  rcases List.mem_append.mp hb with hb | hb
  · rcases List.mem_append.mp hb with hb | hb
    · rcases List.mem_append.mp hb with hb | hb
      · exact (by decide : ∀ b ∈ bytes "HTTP/", ¬ IsControl b) b hb
      · exact hdigit b (m.major_digit b hb)
    · exact (by decide : ∀ b ∈ bytes ".", ¬ IsControl b) b hb
  · exact hdigit b (m.minor_digit b hb)

theorem lineText_notControl (m : RequestText) : ∀ b ∈ lineText m, ¬ IsControl b := by
  have hspace : ∀ b ∈ bytes " ", ¬ IsControl b := by decide
  intro b hb
  rw [lineText] at hb
  rcases List.mem_append.mp hb with hb | hb
  · rcases List.mem_append.mp hb with hb | hb
    · rcases List.mem_append.mp hb with hb | hb
      · rcases List.mem_append.mp hb with hb | hb
        · exact (m.method_token b hb).not_control
        · exact hspace b hb
      · exact (m.uri_byte b hb).1
    · exact hspace b hb
  · exact version_notControl m b hb

theorem HeaderText.value_notControl (h : HeaderText) : ∀ b ∈ h.value, ¬ IsControl b := by
  intro b hb
  rcases List.mem_append.mp hb with hb | hb
  · exact h.notControl b hb
  · obtain ⟨c, -, hc⟩ := List.mem_flatMap.mp hb
    exact c.notControl b hc

/-! ### What the edit does -/

theorem IsSearchWord.firstAt_iff {w : Bytes} (hw : IsSearchWord w) {a b : Bytes} :
    FirstAt w (a ++ w ++ b) a b ↔ ¬ w <:+: a := by
  obtain ⟨c, w', rfl⟩ := List.exists_cons_of_ne_nil hw.ne
  exact LineEdit.firstAt_iff (hw.head_notMem c rfl)

/-- A line of a request ends before the next carriage return. -/
theorem isLine_crlf {line : Bytes} (h : ∀ b ∈ line, ¬ IsControl b) (t : Bytes) :
    IsLine crlf (line ++ (crlf ++ t)) line (crlf ++ t) :=
  isLine_append (by decide) (fun hoccurs => cr_notMem h (hoccurs.subset List.mem_cons_self)) t

theorem IsToken.notControl {w : Bytes} (hw : IsToken w) : ∀ b ∈ w, ¬ IsControl b :=
  fun b hb => (hw.tokenByte b hb).not_control

theorem append_notControl {a b : Bytes} (ha : ∀ c ∈ a, ¬ IsControl c) (hb : ∀ c ∈ b, ¬ IsControl c) :
    ∀ c ∈ a ++ b, ¬ IsControl c := by
  intro c hc
  rcases List.mem_append.mp hc with hc | hc
  · exact ha c hc
  · exact hb c hc

/-- The first occurrence is followed by `z` on its line. -/
theorem replaceLine_crlf {w a z t s : Bytes} (hw : ∀ b ∈ w, ¬ IsControl b) (h : FirstAt w s a (z ++ (crlf ++ t)))
    (hz : ∀ b ∈ z, ¬ IsControl b) (new : Bytes) :
    replaceLine crlf w new s = .ok (a ++ new ++ (crlf ++ t)) := by
  have hline := isLine_crlf (append_notControl hw hz) t
  rw [List.append_assoc] at hline
  exact replaceLine_eq h hline new

theorem EditsHeader.headers_eq {w v : Bytes} {m m' : RequestText} (h : EditsHeader w v m m') :
    m'.headers = setHeader w v m.headers := by
  cases h with
  | @inPlace pre post ht ht' same headers name unfolded first headers' name' value' continuations' =>
    have hpre : ∀ p ∈ pre.map HeaderText.pair, p.1 ≠ w := by
      intro p hp hname
      obtain ⟨h₀, hmem, rfl⟩ := List.mem_map.mp hp
      obtain ⟨pre₁, pre₂, rfl⟩ := List.append_of_mem hmem
      apply first
      rw [renderHeaders_append, renderHeaders_cons, HeaderText.render_eq, show h₀.name = w from hname]
      exact ⟨m.requestLine ++ renderHeaders pre₁, _, by simp only [List.append_assoc]; rfl⟩
    have hold : ht.pair = (w, ht.value) := by rw [HeaderText.pair, name]
    have hnew : ht'.pair = (w, v) := by
      rw [HeaderText.pair, HeaderText.value, name', value', continuations', unfolded, List.append_nil]
    rw [RequestText.headers, RequestText.headers, headers, headers', List.map_append, List.map_append,
      List.map_cons, List.map_cons, setHeader_append hpre, hold, setHeader_cons_self, hnew]
  | idle same first line value => rw [same, value]

theorem EditsHeader.replaceLine_eq {w v : Bytes} (hw : IsSearchWord w) {m m' : RequestText}
    (h : EditsHeader w v m m') : replaceLine crlf w (w ++ bytes ": " ++ v) m.render = .ok m'.render := by
  cases h with
  | @inPlace pre post ht ht' same headers name unfolded first headers' name' value' continuations' =>
    rw [render_eq_parts m pre post ht headers, render_eq_parts m' pre post ht' headers', name, name', value',
      continuations', same.body]
    have hfirst := hw.firstAt_iff (b := bytes ": " ++ ht.first ++ (crlf ++
      (renderContinuations ht.continuations ++ renderHeaders post ++ crlf ++ m.body))) |>.mpr first
    rw [replaceLine_crlf hw.notControl hfirst (colonSpace_notControl ht.notControl), requestLine_eq,
      requestLine_eq, same.lineText_eq]
    simp only [List.append_assoc]
  | idle same first line value =>
    rw [LineEdit.replaceLine_eq first line, same, List.append_assoc, ← line.split, ← List.append_assoc,
      ← first.split]

/-! ### When the result is right -/

/-- The edit changes nothing when the line already ends in what is written. -/
theorem editsHeader_idle {w v a t : Bytes} (hw : IsSearchWord w) {m m' : RequestText}
    (hfirst : FirstAt w m.render a (bytes ": " ++ v ++ (crlf ++ t))) (hv : ∀ b ∈ v, ¬ IsControl b)
    (hrender : m'.render = a ++ (w ++ bytes ": " ++ v) ++ (crlf ++ t))
    (hheaders : m'.headers = setHeader w v m.headers) : EditsHeader w v m m := by
  have hsame : m'.render = m.render := by
    rw [hrender, hfirst.split]
    simp only [List.append_assoc]
  have hrequest : m.toRequest = m'.toRequest :=
    RequestText.toRequest_unique List.prefix_rfl (by rw [hsame])
  have hm : m.headers = m'.headers := congrArg Request.headers hrequest
  have hline := isLine_crlf (append_notControl hw.notControl (colonSpace_notControl hv)) t
  rw [← List.append_assoc w, List.append_assoc (w ++ bytes ": "), List.append_assoc w,
    ← List.append_assoc (bytes ": ")] at hline
  exact .idle rfl hfirst hline (hm.trans hheaders).symm

/-- A word in the request line. -/
theorem editsHeader_of_requestLine {w v a z : Bytes} (hw : IsSearchWord w) {m m' : RequestText}
    (hline : lineText m = a ++ w ++ z)
    (hfirst : FirstAt w m.render a (z ++ (crlf ++ (renderHeaders m.headerTexts ++ crlf ++ m.body))))
    (hv : ∀ b ∈ v, ¬ IsControl b) (hsame : SameButHeaders m m')
    (hrender : m'.render = a ++ (w ++ bytes ": " ++ v) ++
      (crlf ++ (renderHeaders m.headerTexts ++ crlf ++ m.body)))
    (hheaders : m'.headers = setHeader w v m.headers) : EditsHeader w v m m := by
  have hnot := lineText_notControl m
  rw [hline] at hnot
  have hnew : ∀ b ∈ a ++ (w ++ bytes ": " ++ v), ¬ IsControl b := by
    rw [List.append_assoc w, ← List.append_assoc]
    exact append_notControl (fun b hb => hnot b (List.mem_append_left _ hb)) (colonSpace_notControl hv)
  have hold : m'.render = lineText m' ++ (crlf ++ (renderHeaders m'.headerTexts ++ crlf ++ m'.body)) := by
    rw [RequestText.render, requestLine_eq]
    simp only [List.append_assoc]
  have h₁ := isLine_crlf hnew (renderHeaders m.headerTexts ++ crlf ++ m.body)
  have h₂ := isLine_crlf (lineText_notControl m') (renderHeaders m'.headerTexts ++ crlf ++ m'.body)
  rw [← hrender] at h₁
  rw [← hold] at h₂
  have heq := (h₁.unique h₂).1
  rw [hsame.lineText_eq, hline, List.append_assoc w, ← List.append_assoc] at heq
  have hz : bytes ": " ++ v = z := List.append_cancel_left heq
  subst hz
  exact editsHeader_idle hw hfirst hv hrender hheaders

/-- A header block with the same frame around it is the one of the request. -/
theorem pairs_of_render {m m' : RequestText} (hsame : SameButHeaders m m') {hts : List HeaderText}
    (hrender : m'.render = m.requestLine ++ renderHeaders hts ++ crlf ++ m.body) :
    hts.map HeaderText.pair = m'.headers := by
  have hline : m'.requestLine = m.requestLine := by rw [requestLine_eq, requestLine_eq, hsame.lineText_eq]
  have hparts : m.requestLine ++ (renderHeaders hts ++ crlf ++ m.body) =
      m.requestLine ++ (renderHeaders m'.headerTexts ++ crlf ++ m'.body) := by
    rw [RequestText.render, hline] at hrender
    simp only [List.append_assoc] at hrender ⊢
    exact hrender.symm
  exact (headerBlock_unique (List.append_cancel_left hparts)).1

/-- A word in a header in front of the one that is meant. -/
theorem editsHeader_of_spot {w v x z r : Bytes} (hw : IsSearchWord w) {m m' : RequestText}
    {pre mid post : List HeaderText} {h₀ h : HeaderText} (hspot : Spot w h₀ x z r)
    (headers : m.headerTexts = pre ++ h₀ :: (mid ++ h :: post)) (hne : ∀ h ∈ pre ++ h₀ :: mid, h.name ≠ w)
    (hfirst : FirstAt w m.render (m.requestLine ++ renderHeaders pre ++ x)
      (z ++ (crlf ++ (r ++ renderHeaders (mid ++ h :: post) ++ crlf ++ m.body))))
    (hv : ∀ b ∈ v, ¬ IsControl b) (hsame : SameButHeaders m m')
    (hrender : m'.render = m.requestLine ++ renderHeaders pre ++ x ++ (w ++ bytes ": " ++ v) ++
      (crlf ++ (r ++ renderHeaders (mid ++ h :: post) ++ crlf ++ m.body)))
    (hheaders : m'.headers = setHeader w v m.headers) : EditsHeader w v m m := by
  obtain ⟨h₁, hh₁, hpair⟩ := hspot.edit v hv
  have hpairs : (pre ++ h₁ :: (mid ++ h :: post)).map HeaderText.pair = m'.headers := by
    apply pairs_of_render hsame
    rw [renderHeaders_append, renderHeaders_cons, hh₁, hrender]
    simp only [List.append_assoc]
  have hnames : ∀ p ∈ (pre ++ h₀ :: mid).map HeaderText.pair, p.1 ≠ w := by
    intro p hp
    obtain ⟨h', hmem, rfl⟩ := List.mem_map.mp hp
    exact hne h' hmem
  have hsplit : m.headers = (pre ++ h₀ :: mid).map HeaderText.pair ++ (h :: post).map HeaderText.pair := by
    rw [RequestText.headers, headers, ← List.map_append, List.append_assoc]
    rfl
  rw [hheaders, hsplit, setHeader_append hnames] at hpairs
  have hh : h₁.pair = h₀.pair := by
    rw [List.map_append, List.map_append, List.map_cons, List.map_cons, List.append_assoc,
      List.append_cancel_left_eq] at hpairs
    exact (List.cons.inj hpairs).1
  have hz := hpair hh
  rw [hz] at hfirst
  exact editsHeader_idle hw hfirst hv hrender hheaders

/-- The value that a header was set to comes from a header text. -/
theorem setHeader_notControl {w v : Bytes} {m m' : RequestText} (hpresent : ∃ h ∈ m.headerTexts, h.name = w)
    (hheaders : m'.headers = setHeader w v m.headers) : ∀ b ∈ v, ¬ IsControl b := by
  have hmem : (w, v) ∈ m'.headers := by
    obtain ⟨pre, h, post, headers, name, hpre⟩ := exists_first_header hpresent
    have hnames : ∀ p ∈ pre.map HeaderText.pair, p.1 ≠ w := by
      intro p hp
      obtain ⟨h', hh', rfl⟩ := List.mem_map.mp hp
      exact hpre h' hh'
    have hold : h.pair = (w, h.value) := by rw [HeaderText.pair, name]
    rw [hheaders, RequestText.headers, headers, List.map_append, List.map_cons, setHeader_append hnames, hold,
      setHeader_cons_self]
    exact List.mem_append_right _ List.mem_cons_self
  obtain ⟨h', -, hh'⟩ := List.mem_map.mp hmem
  have hv : h'.value = v := (Prod.mk.inj hh').2
  rw [← hv]
  exact h'.value_notControl

/-- The first occurrence is the name of the first header `w`. -/
theorem editsHeader_inPlace {w v : Bytes} (hw : IsSearchWord w) {m m' : RequestText} {pre post : List HeaderText}
    {h : HeaderText} (headers : m.headerTexts = pre ++ h :: post) (name : h.name = w)
    (hpre : ∀ h ∈ pre, h.name ≠ w) (first : ¬ w <:+: m.requestLine ++ renderHeaders pre)
    (hv : ∀ b ∈ v, ¬ IsControl b)
    (hreplace : replaceLine crlf w (w ++ bytes ": " ++ v) m.render = .ok m'.render)
    (hsame : SameButHeaders m m') (hheaders : m'.headers = setHeader w v m.headers) :
    ∃ m'', EditsHeader w v m m'' := by
  obtain ⟨h', hname', hvalue', hcontinuations'⟩ : ∃ h' : HeaderText, h'.name = w ∧ h'.first = v ∧
      h'.continuations = h.continuations := ⟨⟨w, v, h.continuations, hw.ne, hw.tokenByte, hv⟩, rfl, rfl, rfl⟩
  have hfirst := hw.firstAt_iff (b := bytes ": " ++ h.first ++ (crlf ++
    (renderContinuations h.continuations ++ renderHeaders post ++ crlf ++ m.body))) |>.mpr first
  rw [render_eq_parts m pre post h headers, name,
    replaceLine_crlf hw.notControl hfirst (colonSpace_notControl h.notControl)] at hreplace
  have hpairs : (pre ++ h' :: post).map HeaderText.pair = m'.headers := by
    apply pairs_of_render hsame
    rw [← Except.ok.inj hreplace, renderHeaders_append, renderHeaders_cons, HeaderText.render_eq, hname', hvalue',
      hcontinuations']
    simp only [List.append_assoc]
  have hnames : ∀ p ∈ pre.map HeaderText.pair, p.1 ≠ w := by
    intro p hp
    obtain ⟨h₀, hmem, rfl⟩ := List.mem_map.mp hp
    exact hpre h₀ hmem
  have hold : h.pair = (w, h.value) := by rw [HeaderText.pair, name]
  have hpair : h'.pair = (w, v) := by
    have heq := hpairs
    rw [hheaders, RequestText.headers, headers, List.map_append, List.map_append, List.map_cons, List.map_cons,
      setHeader_append hnames, hold, setHeader_cons_self, List.append_cancel_left_eq] at heq
    exact (List.cons.inj heq).1
  have hunfolded : continuationsText h.continuations = [] := by
    have heq : h'.first ++ continuationsText h'.continuations = v := (Prod.mk.inj hpair).2
    rw [hvalue', hcontinuations'] at heq
    exact List.append_right_eq_self.mp heq
  refine ⟨{ m with
    headerTexts := pre ++ h' :: post
    body_length := by rw [hpairs, ← hsame.body]; exact m'.body_length }, ?_⟩
  exact .inPlace ⟨rfl, rfl, rfl, rfl⟩ headers name hunfolded first rfl hname' hvalue' hcontinuations'

/-- **The edit is right only in the two ways of `EditsHeader`.** -/
theorem exists_editsHeader {w v : Bytes} (hw : IsSearchWord w) {m m' : RequestText}
    (hpresent : ∃ h ∈ m.headerTexts, h.name = w)
    (hreplace : replaceLine crlf w (w ++ bytes ": " ++ v) m.render = .ok m'.render)
    (hsame : SameButHeaders m m') (hheaders : m'.headers = setHeader w v m.headers) :
    ∃ m'', EditsHeader w v m m'' := by
  have hv := setHeader_notControl hpresent hheaders
  obtain ⟨pre, h, post, headers, name, hpre⟩ := exists_first_header hpresent
  by_cases hword : w <:+: m.requestLine ++ renderHeaders pre
  swap
  · exact editsHeader_inPlace hw headers name hpre hword hv hreplace hsame hheaders
  obtain ⟨a, b, hab⟩ := exists_firstAt hword
  have htext : m.render = m.requestLine ++ renderHeaders pre ++
      (h.render ++ renderHeaders post ++ crlf ++ m.body) := by
    rw [RequestText.render, headers, renderHeaders_append, renderHeaders_cons]
    simp only [List.append_assoc]
  have hfirst := firstAt_append_right hab (h.render ++ renderHeaders post ++ crlf ++ m.body)
  rw [← htext] at hfirst
  have hsplit : a ++ w ++ b = lineText m ++ byte '\r' :: ([byte '\n'] ++ renderHeaders pre) := by
    rw [← hab.split, requestLine_eq, List.append_assoc]
    rfl
  refine ⟨m, ?_⟩
  rcases word_append_cons hw.cr_notMem hsplit with ⟨z, hline, rfl⟩ | ⟨x₁, rfl, h₁⟩
  · have hz : z ++ byte '\r' :: ([byte '\n'] ++ renderHeaders pre) ++
        (h.render ++ renderHeaders post ++ crlf ++ m.body) =
        z ++ (crlf ++ (renderHeaders m.headerTexts ++ crlf ++ m.body)) := by
      rw [headers, renderHeaders_append, renderHeaders_cons]
      simp [crlf, bytes]
    rw [hz] at hfirst
    have hnot : ∀ b ∈ z, ¬ IsControl b := by
      intro b hb
      exact lineText_notControl m b (by rw [hline]; exact List.mem_append_right _ hb)
    rw [replaceLine_crlf hw.notControl hfirst hnot] at hreplace
    exact editsHeader_of_requestLine hw hline hfirst hv hsame (Except.ok.inj hreplace).symm hheaders
  · obtain ⟨x₂, rfl, h₂⟩ := word_append_left (p := [byte '\n']) hw.ne (hw.separators (by decide)) h₁.symm
    have h₃ : x₂ ++ w ++ b = renderHeaders pre ++ [] := by rw [List.append_nil, h₂]
    rcases word_in_headers hw.toIsToken pre h₃ with
      ⟨pre₁, h₀, mid, x, z, r, rfl, hspot, rfl, rfl⟩ | ⟨x', -, hnil⟩
    · have ha : lineText m ++ byte '\r' :: ([byte '\n'] ++ (renderHeaders pre₁ ++ x)) =
          m.requestLine ++ renderHeaders pre₁ ++ x := by
        rw [requestLine_eq]
        simp [crlf, bytes]
      have hz : z ++ crlf ++ r ++ renderHeaders mid ++ [] ++ (h.render ++ renderHeaders post ++ crlf ++ m.body) =
          z ++ (crlf ++ (r ++ renderHeaders (mid ++ h :: post) ++ crlf ++ m.body)) := by
        rw [renderHeaders_append, renderHeaders_cons, List.append_nil]
        simp only [List.append_assoc]
      rw [ha, hz] at hfirst
      rw [replaceLine_crlf hw.notControl hfirst hspot.notControl] at hreplace
      have headers' : m.headerTexts = pre₁ ++ h₀ :: (mid ++ h :: post) := by
        rw [headers, List.append_assoc]
        rfl
      exact editsHeader_of_spot hw hspot headers' hpre hfirst hv hsame (Except.ok.inj hreplace).symm hheaders
    · have hlen := congrArg List.length hnil
      have hpos := List.length_pos_iff.mpr hw.ne
      simp only [List.length_append, List.length_nil] at hlen
      omega

end Webserver.Http
