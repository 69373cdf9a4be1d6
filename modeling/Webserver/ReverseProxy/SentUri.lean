import Webserver.Http.StatusLine
import Webserver.ReverseProxy.HeaderRewriting
import Webserver.Server.Session

/-!
# The URI that is sent

The request line of the text that is written to the remote host.  `forwardUri` cuts the URI, and then the edits
for `Host`, `Connection` and the version search the whole text, so that they may meet the request line before
they meet what they are for.

* `sendsUri_iff` — which URI is sent: the one of the cut, if no edit meets the request line.  A line that an edit
  has torn only becomes a request line again when the remote host has the form of a version.
* `sent_removes_prefix_iff` — when the URI that is sent is the one without the prefix of the proxy.
-/

namespace Webserver.ReverseProxy

open BoundedLoop ByteString ConfigTree CxxString Http LineEdit Numeral Server

/-! ### Request lines -/

/-- **The text starts with a request line that has this URI.**  A text without a request line sends no URI. -/
def SendsUri (written uri : Bytes) : Prop := ∃ m : RequestText, m.requestLine <+: written ∧ m.uri = uri

/-- A request line up to its version. -/
def lineFront (m : RequestText) : Bytes := m.method ++ bytes " " ++ m.uri ++ bytes " "

theorem lineText_eq (m : RequestText) : lineText m = lineFront m ++ m.version := rfl

theorem lineFront_append (m : RequestText) (s : Bytes) :
    lineFront m ++ s = m.method ++ byte ' ' :: (m.uri ++ byte ' ' :: s) := by simp [lineFront, bytes]

theorem lineFront_append_inj {m m' : RequestText} {s s' : Bytes} (h : lineFront m ++ s = lineFront m' ++ s') :
    m.method = m'.method ∧ m.uri = m'.uri ∧ s = s' := by
  rw [lineFront_append, lineFront_append] at h
  obtain ⟨hmethod, h⟩ := (append_cons_inj m.space_notMem_method m'.space_notMem_method).mp h
  obtain ⟨huri, h⟩ := (append_cons_inj m.space_notMem_uri m'.space_notMem_uri).mp h
  exact ⟨hmethod, huri, h⟩

theorem isVersion_version (m : RequestText) : IsVersion m.version :=
  ⟨m.major, m.minor, rfl, ⟨m.major_ne, fun b hb => decide_eq_true (m.major_digit b hb)⟩, m.minor_ne,
    fun b hb => decide_eq_true (m.minor_digit b hb)⟩

/-- A line of the grammar with this method, URI and version. -/
theorem exists_lineText (m : RequestText) {version : Bytes} (h : IsVersion version) :
    ∃ m' : RequestText, lineText m' = lineFront m ++ version ∧ m'.uri = m.uri := by
  obtain ⟨major, minor, rfl, hmajor, hminor⟩ := h
  exact ⟨{ m with
    major := major
    minor := minor
    major_ne := hmajor.1
    major_digit := fun b hb => isDecDigit_range (hmajor.2 b hb)
    minor_ne := hminor.1
    minor_digit := fun b hb => isDecDigit_range (hminor.2 b hb) }, rfl, rfl⟩

/-- Only the first line matters. -/
theorem sendsUri_line_iff {line t uri : Bytes} (hline : ¬ crlf <:+: line) :
    SendsUri (line ++ (crlf ++ t)) uri ↔ ∃ m : RequestText, lineText m = line ∧ m.uri = uri := by
  refine exists_congr fun m => and_congr_left' ?_
  constructor
  · intro h
    obtain ⟨s, hs⟩ := h
    rw [requestLine_eq, List.append_assoc] at hs
    have h₁ := isLine_crlf (lineText_notControl m) s
    have h₂ : IsLine crlf (line ++ (crlf ++ t)) line (crlf ++ t) := isLine_append (by decide) hline t
    rw [hs] at h₁
    exact (h₁.unique h₂).1
  · intro h
    rw [requestLine_eq, h, ← List.append_assoc]
    exact List.prefix_append _ t

/-- A text has one request line. -/
theorem SendsUri.unique {written uri uri' : Bytes} (h : SendsUri written uri) (h' : SendsUri written uri') :
    uri = uri' := by
  obtain ⟨m, ⟨s, rfl⟩, rfl⟩ := h
  obtain ⟨m', ⟨s', h'⟩, rfl⟩ := h'
  rw [requestLine_eq, requestLine_eq, lineText_eq, lineText_eq] at h'
  simp only [List.append_assoc] at h'
  exact (lineFront_append_inj h').2.1.symm

/-- A text that is read as a request sends the URI of that request. -/
theorem sendsUri_of_parse {written : Bytes} {t : ThreadState} {r : Request}
    (h : parse ThreadState.fresh written = some (t, some r)) : SendsUri written r.uri := by
  obtain ⟨-, m, hm, rfl⟩ := parse_fresh_good_iff.mp h
  refine ⟨m, ?_, rfl⟩
  rw [RequestText.render, List.append_assoc, List.append_assoc] at hm
  exact (List.prefix_append _ _).trans hm

/-! ### Words on the line -/

/-- The word occurs neither in the method nor in the URI. -/
def Misses (word method uri : Bytes) : Prop := ¬ word <:+: method ∧ ¬ word <:+: uri

theorem infix_line_iff {w : Bytes} (hw : w ≠ []) (hspace : byte ' ' ∉ w) {m : RequestText} {s : Bytes} :
    w <:+: lineFront m ++ s ↔ w <:+: m.method ∨ w <:+: m.uri ∨ w <:+: s := by
  have hhead : ∀ t : Bytes, ∀ c ∈ (byte ' ' :: t).head?, c ∉ w.tail := by
    intro t c hc hmem
    obtain rfl : byte ' ' = c := Option.some.inj hc
    exact hspace (List.mem_of_mem_tail hmem)
  have hcons : ∀ t : Bytes, w <:+: byte ' ' :: t ↔ w <:+: t := fun t =>
    infix_append_right_iff (a := [byte ' ']) hw (fun c hc => List.mem_singleton.mp hc ▸ hspace)
  rw [lineFront_append, infix_append_iff (hhead _), hcons, infix_append_iff (hhead _), hcons]

theorem misses_of_line {w : Bytes} (hw : w ≠ []) (hspace : byte ' ' ∉ w) {m : RequestText} {s : Bytes}
    (h : ¬ w <:+: lineFront m ++ s) : Misses w m.method m.uri ∧ ¬ w <:+: s := by
  rw [infix_line_iff hw hspace, not_or, not_or] at h
  exact ⟨⟨h.1, h.2.1⟩, h.2.2⟩

/-! ### The edits on the line -/

theorem not_host_version {v : Bytes} (h : IsVersion v) : ¬ bytes "Host" <:+: v :=
  fun hoccurs => h.notMem_of (c := byte 's') (by decide) (by decide) (hoccurs.subset (by decide))

theorem not_connection_version {v : Bytes} (h : IsVersion v) : ¬ bytes "Connection" <:+: v :=
  fun hoccurs => h.notMem_of (c := byte 'C') (by decide) (by decide) (hoccurs.subset (by decide))

variable {l l' : Bytes}

/-- **The edit for the version** gives a request line exactly where the version is, or starts with `HTTP/1`. -/
theorem versionEdit_iff (h : LineEdited (bytes "HTTP/1") (bytes ".0") l l') {uri : Bytes} :
    (∃ m : RequestText, lineText m = l' ∧ m.uri = uri) ↔ ∃ (m : RequestText) (v : Bytes), l = lineFront m ++ v ∧
      m.uri = uri ∧ Misses (bytes "HTTP/1") m.method m.uri ∧ (IsVersion v ∨ bytes "HTTP/1" <+: v) := by
  have hfirst_iff : ∀ {a b : Bytes}, FirstAt (bytes "HTTP/1") (a ++ bytes "HTTP/1" ++ b) a b ↔
      ¬ bytes "HTTP/1" <:+: a := firstAt_iff (c := byte 'H') (w := bytes "TTP/1") (by decide)
  constructor
  · intro hline
    obtain ⟨m, hm, huri⟩ := hline
    cases h with
    | stays none same =>
      rw [same, lineText_eq] at hm
      rw [← hm] at none
      exact ⟨m, m.version, hm.symm, huri, (misses_of_line (by decide) (by decide) none).1, .inl (isVersion_version m)⟩
    | @meets a z first edited =>
      -- the version of the line is the one that is written
      have ha : a = lineFront m := by
        rw [edited, lineText_eq, List.append_assoc] at hm
        rcases List.append_eq_append_iff.mp hm with ⟨e, ha, hv⟩ | ⟨e, ha, hv⟩
        · obtain rfl := (isVersion_version m).eq_nil_of_split (w := bytes "TTP/1" ++ bytes ".0") hv.symm
          rw [ha, List.append_nil]
        · have hlen := congrArg List.length hv
          have hle := (isVersion_version m).length_le
          have hconst : (bytes "HTTP/1" ++ bytes ".0").length = 8 := by decide
          rw [hconst, List.length_append] at hlen
          obtain rfl : e = [] := List.length_eq_zero_iff.mp (by omega)
          rw [ha, List.append_nil]
      subst ha
      have hl := first.split
      rw [hl] at first
      have hnone := hfirst_iff.mp first
      rw [← List.append_nil (lineFront m)] at hnone
      refine ⟨m, bytes "HTTP/1" ++ z, by rw [hl, List.append_assoc], huri,
        (misses_of_line (by decide) (by decide) hnone).1, .inr (List.prefix_append _ z)⟩
  · intro hline
    obtain ⟨m, v, hl, rfl, hmisses, hv⟩ := hline
    cases h with
    | stays none same =>
      rw [hl] at none
      have hversion : IsVersion v := hv.resolve_right
        fun hfront => (misses_of_line (by decide) (by decide) none).2 hfront.isInfix
      rw [same, hl]
      exact exists_lineText m hversion
    | @meets a z first edited =>
      have hfront : bytes "HTTP/1" <+: v := by
        refine hv.elim ?_ id
        intro hversion
        have hoccurs : bytes "HTTP/1" <:+: lineFront m ++ v := ⟨a, z, by rw [← first.split, hl]⟩
        rcases (infix_line_iff (by decide) (by decide)).mp hoccurs with h | h | h
        · exact absurd h hmisses.1
        · exact absurd h hmisses.2
        · obtain ⟨x, y, hxy⟩ := h
          rw [List.append_assoc] at hxy
          obtain rfl := hversion.eq_nil_of_split hxy
          exact ⟨y, hxy⟩
      obtain ⟨y, rfl⟩ := hfront
      have hnone : ¬ bytes "HTTP/1" <:+: lineFront m := by
        rw [← List.append_nil (lineFront m), infix_line_iff (by decide) (by decide)]
        exact not_or.mpr ⟨hmisses.1, not_or.mpr ⟨hmisses.2, by decide⟩⟩
      have hthere := hfirst_iff (b := y) |>.mpr hnone
      rw [List.append_assoc, ← hl] at hthere
      rw [edited, (first.unique hthere).1, List.append_assoc]
      exact exists_lineText m isVersion_http10

/-- A word without the last character of `HTTP/1` is behind it, or in front of it with something behind the word. -/
theorem behind_http {w a b x : Bytes} (hw : byte '1' ∉ w) {m : RequestText}
    (h : a ++ w ++ b = lineFront m ++ (bytes "HTTP/1" ++ x)) :
    (∃ e, a = lineFront m ++ (bytes "HTTP/1" ++ e)) ∨ (w <:+: lineFront m ++ bytes "HTTP/" ∧ b ≠ []) := by
  have hsplit : a ++ w ++ b = (lineFront m ++ bytes "HTTP/") ++ byte '1' :: x := by
    rw [h, List.append_assoc (lineFront m)]
    rfl
  rcases word_append_cons hw hsplit with ⟨z, hz, rfl⟩ | ⟨e, he, -⟩
  · exact .inr ⟨⟨a, z, hz.symm⟩, List.append_ne_nil_of_right_ne_nil _ (List.cons_ne_nil _ _)⟩
  · refine .inl ⟨e, he.trans ?_⟩
    rw [List.append_assoc]
    rfl

/-- **The edit for `Connection`** never leaves a version behind on a line that it meets, only a text that the next
edit ends after `HTTP/1`. -/
theorem connectionEdit_iff (h : LineEdited (bytes "Connection") (bytes ": close") l l') {m : RequestText} :
    (∃ v, l' = lineFront m ++ v ∧ (IsVersion v ∨ bytes "HTTP/1" <+: v)) ↔
      Misses (bytes "Connection") m.method m.uri ∧
        ∃ v, l = lineFront m ++ v ∧ (IsVersion v ∨ bytes "HTTP/1" <+: v) := by
  cases h with
  | stays none same =>
    rw [same]
    refine ⟨fun hl => ⟨?_, hl⟩, And.right⟩
    obtain ⟨v, hl, -⟩ := hl
    rw [hl] at none
    exact (misses_of_line (by decide) (by decide) none).1
  | @meets a z first edited =>
    have hl := first.split
    constructor
    · intro hline
      obtain ⟨v, hv, hversion⟩ := hline
      have hclose : bytes "close" <:+ lineFront m ++ v := by
        rw [← hv, edited]
        exact ⟨a ++ bytes "Connection: ", by simp [bytes]⟩
      have hfront : bytes "HTTP/1" <+: v := by
        refine hversion.elim ?_ id
        intro hversion
        rcases List.suffix_or_suffix_of_suffix hclose (List.suffix_append (lineFront m) v) with hsuffix | hsuffix
        · exact absurd (hsuffix.subset (by decide : byte 'c' ∈ bytes "close"))
            (hversion.notMem_of (by decide) (by decide))
        · have hle := hsuffix.length_le
          have hclose : (bytes "close").length = 5 := by decide
          have hge := hversion.length_le
          omega
      obtain ⟨y, rfl⟩ := hfront
      -- what is written ends the line
      have hsplit : a ++ (bytes "Connection" ++ bytes ": close") ++ [] = lineFront m ++ (bytes "HTTP/1" ++ y) := by
        rw [List.append_nil, ← List.append_assoc, ← edited, hv]
      obtain ⟨e, rfl⟩ := (behind_http (by decide) hsplit).resolve_right fun h => h.2 rfl
      rw [hl] at first
      refine ⟨(misses_of_line (by decide) (by decide) (isSearchWord_connection.firstAt_iff.mp first)).1,
        bytes "HTTP/1" ++ (e ++ bytes "Connection" ++ z), ?_, .inr (List.prefix_append _ _)⟩
      rw [hl]
      simp only [List.append_assoc]
    · intro hline
      obtain ⟨hmisses, v, hv, hversion⟩ := hline
      have hoccurs : bytes "Connection" <:+: v := by
        have hpiece : bytes "Connection" <:+: lineFront m ++ v := ⟨a, z, by rw [← hl, hv]⟩
        exact ((infix_line_iff (by decide) (by decide)).mp hpiece).resolve_left hmisses.1 |>.resolve_left hmisses.2
      obtain ⟨y, rfl⟩ := hversion.resolve_left fun h => not_connection_version h hoccurs
      have hfront : ¬ bytes "Connection" <:+: lineFront m ++ bytes "HTTP/" := by
        rw [infix_line_iff (by decide) (by decide)]
        exact not_or.mpr ⟨hmisses.1, not_or.mpr ⟨hmisses.2, by decide⟩⟩
      obtain ⟨e, rfl⟩ := (behind_http (by decide) (hl.symm.trans hv)).resolve_right fun h => hfront h.1
      refine ⟨bytes "HTTP/1" ++ (e ++ bytes "Connection" ++ bytes ": close"), ?_, .inr (List.prefix_append _ _)⟩
      rw [edited]
      simp only [List.append_assoc]

/-- The edits behind the one for `Host`, on a line. -/
def LaterEdits (port : ℤ) (l l' : Bytes) : Prop :=
  if port = 443 then ∃ l₁, LineEdited (bytes "Connection") (bytes ": close") l l₁ ∧
    LineEdited (bytes "HTTP/1") (bytes ".0") l₁ l'
  else l' = l

/-- A version, or what becomes one on port 443. -/
def MakesVersion (port : ℤ) (v : Bytes) : Prop := IsVersion v ∨ port = 443 ∧ bytes "HTTP/1" <+: v

theorem laterEdits_iff {port : ℤ} (h : LaterEdits port l l') {uri : Bytes} :
    (∃ m : RequestText, lineText m = l' ∧ m.uri = uri) ↔ ∃ (m : RequestText) (v : Bytes), l = lineFront m ++ v ∧
      (m.uri = uri ∧ (port = 443 → Misses (bytes "Connection") m.method m.uri ∧
        Misses (bytes "HTTP/1") m.method m.uri)) ∧ MakesVersion port v := by
  rw [LaterEdits] at h
  by_cases hport : port = 443
  · rw [if_pos hport] at h
    obtain ⟨l₁, hconnection, hversion⟩ := h
    rw [versionEdit_iff hversion]
    simp only [MakesVersion, hport, true_and, forall_const]
    constructor
    · intro hline
      obtain ⟨m, v, hl, huri, hmisses, hv⟩ := hline
      obtain ⟨hmisses', v, hl, hv⟩ := (connectionEdit_iff hconnection).mp ⟨v, hl, hv⟩
      exact ⟨m, v, hl, ⟨huri, hmisses', hmisses⟩, hv⟩
    · intro hline
      obtain ⟨m, v, hl, ⟨huri, hmisses', hmisses⟩, hv⟩ := hline
      obtain ⟨v, hl, hv⟩ := (connectionEdit_iff hconnection).mpr ⟨hmisses', v, hl, hv⟩
      exact ⟨m, v, hl, huri, hmisses, hv⟩
  · rw [if_neg hport] at h
    rw [h]
    constructor
    · intro hline
      obtain ⟨m, rfl, huri⟩ := hline
      exact ⟨m, m.version, rfl, ⟨huri, fun h => absurd h hport⟩, .inl (isVersion_version m)⟩
    · intro hline
      obtain ⟨m, v, hl, ⟨rfl, -⟩, hv⟩ := hline
      rw [hl]
      exact exists_lineText m (hv.resolve_right fun h => hport h.1)

/-- **Where the first `Host` of the line is**: in the method, or in the URI. -/
theorem host_split {m : RequestText} {a z : Bytes} (first : FirstAt (bytes "Host") (lineText m) a z) :
    (∃ z', m.method = a ++ bytes "Host" ++ z') ∨ ∃ a' z', a = m.method ++ byte ' ' :: a' ∧
      m.uri = a' ++ bytes "Host" ++ z' ∧ Misses (bytes "Host") m.method a' := by
  have hsplit : a ++ bytes "Host" ++ z = m.method ++ byte ' ' :: (m.uri ++ byte ' ' :: m.version) := by
    rw [← first.split, lineText_eq, lineFront_append]
  have hnone : ¬ bytes "Host" <:+: a := isSearchWord_host.firstAt_iff.mp (first.split ▸ first)
  rcases word_append_cons (by decide) hsplit with ⟨z', hmethod, -⟩ | ⟨a', rfl, huri⟩
  · exact .inl ⟨z', hmethod⟩
  rcases word_append_cons (by decide) huri.symm with ⟨z', huri, -⟩ | ⟨x, -, hversion⟩
  · refine .inr ⟨a', z', rfl, huri, ?_, ?_⟩
    · exact fun hpiece => hnone (hpiece.trans (List.prefix_append _ _).isInfix)
    · exact fun hpiece => hnone (hpiece.trans ⟨m.method ++ [byte ' '], [], by simp⟩)
  · exact absurd ⟨x, z, hversion.symm⟩ (not_host_version (isVersion_version m))

/-- No method has the colon that is written behind the name. -/
theorem colon_notMem_method (m : RequestText) : byte ':' ∉ m.method := by
  intro hmem
  exact absurd (m.method_token _ hmem) (by decide)

/-- The line when the edit has met the method. -/
theorem not_lineFront_of_method {m m' : RequestText} {a z host v : Bytes}
    (hmethod : m.method = a ++ bytes "Host" ++ z) :
    a ++ bytes "Host" ++ (bytes ": " ++ host) ≠ lineFront m' ++ v := by
  intro h
  have hspace : byte ' ' ∉ a ++ bytes "Host:" := by
    rw [List.mem_append, not_or]
    refine ⟨?_, by decide⟩
    intro hmem
    apply m.space_notMem_method
    rw [hmethod, List.append_assoc]
    exact List.mem_append_left _ hmem
  have hline : (a ++ bytes "Host:") ++ byte ' ' :: host = m'.method ++ byte ' ' :: (m'.uri ++ byte ' ' :: v) := by
    rw [← lineFront_append, ← h]
    simp [bytes]
  obtain ⟨hmethod', -⟩ := (append_cons_inj hspace m'.space_notMem_method).mp hline
  apply colon_notMem_method m'
  rw [← hmethod']
  exact List.mem_append_right a (by decide)

/-- The line when the edit has met the URI. -/
theorem exists_lineFront_of_uri {m : RequestText} {a z : Bytes} (huri : m.uri = a ++ bytes "Host" ++ z)
    (host : Bytes) : ∃ m' : RequestText,
      m.method ++ byte ' ' :: a ++ bytes "Host" ++ (bytes ": " ++ host) = lineFront m' ++ host ∧
        m'.method = m.method ∧ m'.uri = a ++ bytes "Host:" := by
  have hne : a ++ bytes "Host:" ≠ [] := List.append_ne_nil_of_right_ne_nil _ (by decide)
  have hbyte : ∀ b ∈ a ++ bytes "Host:", IsUriByte b := by
    intro b hb
    rcases List.mem_append.mp hb with hb | hb
    · apply m.uri_byte b
      rw [huri, List.append_assoc]
      exact List.mem_append_left _ hb
    · exact (by decide : ∀ b ∈ bytes "Host:", IsUriByte b) b hb
  refine ⟨m.withUri (a ++ bytes "Host:") hne hbyte, ?_, rfl, rfl⟩
  rw [lineFront_append]
  show _ = m.method ++ byte ' ' :: (a ++ bytes "Host:" ++ byte ' ' :: host)
  simp [bytes]

/-- **The edit for `Host`** leaves the request line, or puts the remote host in the place of the version. -/
theorem hostEdit_iff {m : RequestText} {host : Bytes}
    (h : LineEdited (bytes "Host") (bytes ": " ++ host) (lineText m) l) {P : Bytes → Bytes → Prop} {V : Bytes → Prop} :
    (∃ (m' : RequestText) (v : Bytes), l = lineFront m' ++ v ∧ P m'.method m'.uri ∧ V v) ↔
      (Misses (bytes "Host") m.method m.uri ∧ P m.method m.uri ∧ V m.version) ∨
        ∃ a z, m.uri = a ++ bytes "Host" ++ z ∧ Misses (bytes "Host") m.method a ∧
          P m.method (a ++ bytes "Host:") ∧ V host := by
  cases h with
  | stays none same =>
    have hmisses := (misses_of_line (by decide) (by decide) none).1
    constructor
    · intro hline
      obtain ⟨m', v, hl, hP, hV⟩ := hline
      rw [same, lineText_eq] at hl
      obtain ⟨hmethod, huri, rfl⟩ := lineFront_append_inj hl
      rw [← hmethod, ← huri] at hP
      exact .inl ⟨hmisses, hP, hV⟩
    · intro hline
      rcases hline with ⟨-, hP, hV⟩ | ⟨a, z, huri, -⟩
      · exact ⟨m, m.version, same, hP, hV⟩
      · exact absurd ⟨a, z, huri.symm⟩ hmisses.2
  | @meets a z first edited =>
    rcases host_split first with ⟨z', hmethod⟩ | ⟨a', z', rfl, huri, hmisses⟩
    · have hpiece : bytes "Host" <:+: m.method := ⟨a, z', hmethod.symm⟩
      refine iff_of_false ?_ ?_
      · intro hline
        obtain ⟨m', v, hl, -⟩ := hline
        exact not_lineFront_of_method hmethod (edited.symm.trans hl)
      · intro hline
        rcases hline with ⟨hmisses, -⟩ | ⟨_, _, -, hmisses, -⟩
        · exact hmisses.1 hpiece
        · exact hmisses.1 hpiece
    · obtain ⟨m₁, hl, hmethod₁, huri₁⟩ := exists_lineFront_of_uri huri host
      rw [edited, hl]
      constructor
      · intro hline
        obtain ⟨m', v, hl', hP, hV⟩ := hline
        obtain ⟨hmethod', huri', rfl⟩ := lineFront_append_inj hl'
        rw [← hmethod', ← huri', hmethod₁, huri₁] at hP
        exact .inr ⟨a', z', huri, hmisses, hP, hV⟩
      · intro hline
        rcases hline with ⟨hmisses', -⟩ | ⟨a'', z'', huri', hmisses', hP, hV⟩
        · exact absurd ⟨a', z', huri.symm⟩ hmisses'.2
        · have h₁ := isSearchWord_host.firstAt_iff (b := z') |>.mpr hmisses.2
          have h₂ := isSearchWord_host.firstAt_iff (b := z'') |>.mpr hmisses'.2
          rw [← huri] at h₁
          rw [← huri'] at h₂
          obtain rfl := (h₁.unique h₂).1
          rw [← hmethod₁, ← huri₁] at hP
          exact ⟨m₁, host, rfl, hP, hV⟩

/-! ### The text that is written -/

variable {port : ℤ} {host written uri method : Bytes}

/-- One edit of a text whose first line is `l`. -/
theorem replaceLine_line {w v v₁ v₂ t : Bytes} (hw : w ≠ []) (hsep : ∀ c ∈ crlf, c ∉ w) (hl : ¬ crlf <:+: l)
    (hv : IsLine crlf v v₁ v₂) (h : replaceLine crlf w (w ++ v) (l ++ (crlf ++ t)) = .ok written) :
    ∃ l' t', written = l' ++ (crlf ++ t') ∧ ¬ crlf <:+: l' ∧ LineEdited w v₁ l l' :=
  replaceLine_front (by decide) hw hsep hl hv h

theorem closeConnection_line {t : Bytes} (hl : ¬ crlf <:+: l) (h : closeConnection (l ++ (crlf ++ t)) = .ok written) :
    ∃ l' t', written = l' ++ (crlf ++ t') ∧ ¬ crlf <:+: l' ∧
      LineEdited (bytes "Connection") (bytes ": close") l l' := by
  rw [closeConnection] at h
  by_cases hfind : find (bytes "Connection") (l ++ (crlf ++ t)) ≠ npos
  · rw [if_pos hfind] at h
    have hclose : IsLine crlf (bytes ": close") (bytes ": close") [] := ⟨rfl, .inl ⟨rfl, by decide⟩⟩
    exact replaceLine_line (by decide) (by decide) hl hclose h
  · rw [if_neg hfind] at h
    refine ⟨l, t, (Except.ok.inj h).symm, hl, .stays ?_ rfl⟩
    intro hpiece
    exact hfind (find_ne_npos_iff.mpr (hpiece.trans (List.prefix_append l _).isInfix))

/-- **What the edits make of the first line.** -/
theorem remoteRequest_line {t : Bytes} (hl : ¬ crlf <:+: l)
    (h : remoteRequest port host (l ++ (crlf ++ t)) = .ok written) :
    ∃ line rest l₁ l' t', IsLine crlf host line rest ∧ LineEdited (bytes "Host") (bytes ": " ++ line) l l₁ ∧
      LaterEdits port l₁ l' ∧ written = l' ++ (crlf ++ t') ∧ ¬ crlf <:+: l' := by
  obtain ⟨line, rest, hline⟩ := exists_isLine crlf host
  have hcolon : IsLine crlf (bytes ": " ++ host) (bytes ": " ++ line) rest :=
    hline.append_left (by decide) (by decide)
  cases hedit : replaceLine (bytes "\r\n") (bytes "Host") (bytes "Host: " ++ host) (l ++ (crlf ++ t)) with
  | error e =>
    rw [remoteRequest, hedit] at h
    cases h
  | ok s =>
    obtain ⟨l₁, t₁, rfl, hl₁, hhost⟩ := replaceLine_line (by decide) (by decide) hl hcolon hedit
    rw [remoteRequest, hedit, ok_bind] at h
    by_cases hport : port = 443
    · rw [if_pos hport] at h
      cases hclose : closeConnection (l₁ ++ (crlf ++ t₁)) with
      | error e =>
        rw [hclose] at h
        cases h
      | ok s =>
        rw [hclose, ok_bind] at h
        obtain ⟨l₂, t₂, rfl, hl₂, hconnection⟩ := closeConnection_line hl₁ hclose
        have hzero : IsLine crlf (bytes ".0") (bytes ".0") [] := ⟨rfl, .inl ⟨rfl, by decide⟩⟩
        obtain ⟨l', t', hwritten, hl', hversion⟩ := replaceLine_line (by decide) (by decide) hl₂ hzero h
        refine ⟨line, rest, l₁, l', t', hline, hhost, ?_, hwritten, hl'⟩
        rw [LaterEdits, if_pos hport]
        exact ⟨l₂, hconnection, hversion⟩
    · rw [if_neg hport] at h
      refine ⟨line, rest, l₁, l₁, t₁, hline, hhost, ?_, (Except.ok.inj h).symm, hl₁⟩
      rw [LaterEdits, if_neg hport]

/-- **No edit meets the request line.** -/
def LineStays (port : ℤ) (method uri : Bytes) : Prop :=
  Misses (bytes "Host") method uri ∧
    (port = 443 → Misses (bytes "Connection") method uri ∧ Misses (bytes "HTTP/1") method uri)

/-- **An edit tears the request line, and it is one again by accident.**  The URI is cut behind its first `Host`
and gets a colon, and the version is the first line of the remote host. -/
def LineMended (port : ℤ) (host method uri sent : Bytes) : Prop :=
  ∃ a z line rest, uri = a ++ bytes "Host" ++ z ∧ sent = a ++ bytes "Host:" ∧ LineStays port method a ∧
    IsLine crlf host line rest ∧ MakesVersion port line

theorem misses_append_host {w a : Bytes} (hw : byte 'H' ∉ w.tail) (hhost : ¬ w <:+: bytes "Host:") :
    Misses w method (a ++ bytes "Host:") ↔ Misses w method a := by
  have hhead : ∀ c ∈ (bytes "Host:").head?, c ∉ w.tail := by
    intro c hc
    obtain rfl : byte 'H' = c := Option.some.inj hc
    exact hw
  rw [Misses, Misses, infix_append_iff hhead, or_iff_left hhost]

/-- **The URI that is sent.** -/
theorem sendsUri_iff {m : RequestText} (h : remoteRequest port host m.render = .ok written) :
    SendsUri written uri ↔
      (m.uri = uri ∧ LineStays port m.method m.uri) ∨ LineMended port host m.method m.uri uri := by
  have hrender : m.render = lineText m ++ (crlf ++ (renderHeaders m.headerTexts ++ crlf ++ m.body)) := by
    rw [RequestText.render, requestLine_eq]
    simp only [List.append_assoc]
  have hline : ¬ crlf <:+: lineText m :=
    fun hoccurs => cr_notMem (lineText_notControl m) (hoccurs.subset List.mem_cons_self)
  rw [hrender] at h
  obtain ⟨line, rest, l₁, l', t', hhost, hedit, hlater, rfl, hl'⟩ := remoteRequest_line hline h
  rw [sendsUri_line_iff hl', laterEdits_iff hlater, hostEdit_iff (P := fun method' uri' => uri' = uri ∧
    (port = 443 → Misses (bytes "Connection") method' uri' ∧ Misses (bytes "HTTP/1") method' uri')) hedit]
  refine or_congr ?_ ?_
  · constructor
    · intro h
      exact ⟨h.2.1.1, h.1, h.2.1.2⟩
    · intro h
      exact ⟨h.2.1, ⟨h.1, h.2.2⟩, .inl (isVersion_version m)⟩
  · constructor
    · intro h
      obtain ⟨a, z, huri, hmisses, ⟨hsent, hlater⟩, hversion⟩ := h
      simp only [misses_append_host (w := bytes "Connection") (by decide) (by decide),
        misses_append_host (w := bytes "HTTP/1") (by decide) (by decide)] at hlater
      exact ⟨a, z, line, rest, huri, hsent.symm, ⟨hmisses, hlater⟩, hhost, hversion⟩
    · intro h
      obtain ⟨a, z, line', rest', huri, hsent, ⟨hmisses, hlater⟩, hhost', hversion⟩ := h
      obtain rfl := (hhost'.unique hhost).1
      refine ⟨a, z, huri, hmisses, ⟨hsent.symm, ?_⟩, hversion⟩
      simp only [misses_append_host (w := bytes "Connection") (by decide) (by decide),
        misses_append_host (w := bytes "HTTP/1") (by decide) (by decide)]
      exact hlater

/-! ### Without the prefix -/

/-- **What the cut takes off the front**: nothing under the prefix `/`, the first segment otherwise. -/
def IsCutOff (p q : Bytes) : Prop := if p = bytes "/" then q = [] else q ≠ [] ∧ byte '/' ∉ q.tail

/-- The URI with a torn line is a rest of the URI that comes in. -/
theorem lineMended_forwardUri_iff {p full w : Bytes} (hfull : full ≠ []) :
    LineMended port host method (forwardUri p full) (withSlash w) ↔
      ∃ q u, full = q ++ u ∧ IsCutOff p q ∧ LineMended port host method u (withSlash w) := by
  obtain ⟨c, rest, rfl⟩ := List.exists_cons_of_ne_nil hfull
  constructor
  · intro h
    by_cases hp : p = bytes "/"
    · rw [forwardUri, if_pos hp] at h
      exact ⟨[], c :: rest, rfl, by rw [IsCutOff, if_pos hp], h⟩
    · by_cases hbelow : belowFirstSegment (c :: rest) = []
      · rw [forwardUri, if_neg hp, if_pos hbelow] at h
        obtain ⟨a, z, -, -, huri, -⟩ := h
        have hmem : byte 'H' ∈ bytes "/" := by
          rw [huri, List.append_assoc]
          exact List.mem_append_right a (List.mem_append_left z (by decide))
        exact absurd hmem (by decide)
      · rw [forwardUri, if_neg hp, if_neg hbelow] at h
        refine ⟨c :: rest.takeWhile (· ≠ byte '/'), belowFirstSegment (c :: rest), ?_, ?_, h⟩
        · rw [belowFirstSegment, List.cons_append, List.tail_cons, List.takeWhile_append_dropWhile]
        · rw [IsCutOff, if_neg hp]
          refine ⟨List.cons_ne_nil _ _, ?_⟩
          intro hmem
          have hne := List.mem_takeWhile_imp (p := fun d => decide (d ≠ byte '/')) hmem
          exact of_decide_eq_true hne rfl
  · intro h
    obtain ⟨q, u, hsplit, hcut, hmended⟩ := h
    suffices hforward : forwardUri p (c :: rest) = u by rwa [hforward]
    rw [IsCutOff] at hcut
    by_cases hp : p = bytes "/"
    · rw [if_pos hp] at hcut
      rw [forwardUri, if_pos hp, hsplit, hcut, List.nil_append]
    · rw [if_neg hp] at hcut
      -- what is wanted starts with a slash, and so does the rest
      obtain ⟨b, rfl⟩ : ∃ b, u = byte '/' :: b := by
        obtain ⟨a, z, -, -, rfl, hsent, -⟩ := hmended
        cases a with
        | nil => exact absurd (List.cons.inj hsent).1 (by decide)
        | cons d a =>
          obtain rfl := (List.cons.inj hsent).1
          exact ⟨a ++ bytes "Host" ++ z, rfl⟩
      obtain ⟨d, q, rfl⟩ := List.exists_cons_of_ne_nil hcut.1
      have hbelow : belowFirstSegment (c :: rest) = byte '/' :: b := by
        rw [hsplit, belowFirstSegment, List.cons_append, List.tail_cons]
        exact dropWhile_append_slash hcut.2 b
      rw [forwardUri, if_neg hp, hbelow, if_neg (List.cons_ne_nil _ _)]

/-- **The handler writes this text for this remote host**, in some turn of a call with the request. -/
def Writes (h : ReverseProxyHandler) (r : Request) (host written : Bytes) : Prop :=
  ∃ fuel net s result, sendRequestToOrigin fuel net h r r.uri = some (s, result) ∧ (host, written) ∈ s.sent

/-- Nothing is written without a port. -/
theorem Writes.exists_port {h : ReverseProxyHandler} {r : Request} (hwrites : Writes h r host written) :
    ∃ port, stoi h.remotePort = .ok port := by
  obtain ⟨fuel, net, s, result, hsend, hsent⟩ := hwrites
  cases hstoi : stoi h.remotePort with
  | ok port => exact ⟨port, rfl⟩
  | error e =>
    exfalso
    rw [sendRequestToOrigin] at hsend
    cases horigin : originRequest h.originalUriPrefix r r.uri with
    | error e =>
      rw [horigin] at hsend
      obtain ⟨rfl, -⟩ := Prod.mk.inj (Option.some.inj hsend)
      cases hsent
    | ok r' =>
      rw [horigin] at hsend
      have hbody : ∀ t, originBody h.remotePort r'.rawRequest net t = .inr (t, .error (.std e)) := by
        intro t
        rw [originBody, hstoi]
      have hreturns : Returns (originBody h.remotePort r'.rawRequest net) (ReverseProxyHandler.start h) (s, result) :=
        ⟨fuel, hsend⟩
      obtain ⟨t, rfl, ht⟩ := hreturns.invariant (· = ReverseProxyHandler.start h) rfl fun t t' _ h => by
        rw [hbody] at h
        cases h
      rw [hbody] at ht
      obtain ⟨rfl, -⟩ := Prod.mk.inj (Sum.inr.inj ht)
      cases hsent

/-- **When the URI that is sent is the one without the prefix.**  For an accepted request whose URI is the prefix of
the handler followed by `w`, and any text that is written for it. -/
theorem writes_withSlash_iff {s : Bytes} {t : ThreadState} {r : Request} {w : Bytes} {h : ReverseProxyHandler}
    (hparse : parse ThreadState.fresh s = some (t, some r)) (huri : r.uri = h.originalUriPrefix ++ w)
    (hwrites : Writes h r host written) :
    ∃ port, stoi h.remotePort = .ok port ∧ (SendsUri written (withSlash w) ↔
      (CutsPrefix h.originalUriPrefix w ∧ LineStays port r.method (withSlash w)) ∨
        ∃ q u, r.uri = q ++ u ∧ IsCutOff h.originalUriPrefix q ∧ LineMended port host r.method u (withSlash w)) := by
  obtain ⟨-, m, -, rfl⟩ := parse_fresh_good_iff.mp hparse
  obtain ⟨port, hport⟩ := hwrites.exists_port
  obtain ⟨fuel, net, s, result, hsend, hsent⟩ := hwrites
  have hm : m.uri = h.originalUriPrefix ++ w := huri
  refine ⟨port, hport, ?_⟩
  rw [sendsUri_iff (allMade_of_send hport hsend host written hsent)]
  refine or_congr ?_ (lineMended_forwardUri_iff m.uri_ne)
  have hcut : (m.forward h.originalUriPrefix).uri = withSlash w ↔ CutsPrefix h.originalUriPrefix w := by
    rw [← forwardUri_iff (hm ▸ m.uri_ne), ← hm]
    rfl
  rw [← hcut]
  refine and_congr_right fun heq => ?_
  rw [heq]
  rfl

/-- **When the proxy forwards the URI without its prefix.**  For a request that the session dispatches to the proxy
handler under the prefix `p`, whatever remote host the redirects of earlier calls have left in it, and whose URI is `p`
followed by `w`: any text that is written to a remote host starts with a request line for the URI that `w` makes with a
slash in front if and only if the cut is right for `p` and `w` and no edit meets the request line, or by the accident of
a line that is torn and mended. -/
theorem sent_removes_prefix_iff {config : NginxConfig} {s : Bytes} {t : ThreadState} {r : Request} {p w : Bytes}
    {h : ReverseProxyHandler} (hparse : parse ThreadState.fresh s = some (t, some r))
    (hdispatch : Dispatched (parseFreshHandlers config).handlers r p (.reverseProxyHandler h))
    (huri : r.uri = p ++ w) {remoteHost : Bytes} (hwrites : Writes { h with remoteHost := remoteHost } r host written) :
    ∃ port, stoi h.remotePort = .ok port ∧ (SendsUri written (withSlash w) ↔
      (CutsPrefix p w ∧ LineStays port r.method (withSlash w)) ∨
        ∃ q u, r.uri = q ++ u ∧ IsCutOff p q ∧ LineMended port host r.method u (withSlash w)) := by
  obtain ⟨⟨hkey, -, -⟩, -⟩ := hdispatch.configuredAt
  rw [← hkey] at huri ⊢
  exact writes_withSlash_iff (h := { h with remoteHost := remoteHost }) hparse huri hwrites

/-- `path <key> ReverseProxyHandler { remote_host localhost; remote_port <port>; }` -/
def proxyConfig (key port : Bytes) : NginxConfig :=
  ⟨[⟨[bytes "path", key, bytes "ReverseProxyHandler"],
    some ⟨[⟨[bytes "remote_host", bytes "localhost"], none⟩, ⟨[bytes "remote_port", port], none⟩]⟩⟩]⟩

/-- A prefix of one segment, after a redirect to `www.b`. -/
theorem sent_removes_prefix_iff_segment :
    ∃ port, stoi (bytes "80") = .ok port ∧
      (SendsUri (bytes "GET /x HTTP/1.0\r\nHost: www.b\r\n\r\n") (withSlash (bytes "/x")) ↔
        (CutsPrefix (bytes "/p") (bytes "/x") ∧ LineStays port (bytes "GET") (withSlash (bytes "/x"))) ∨
          ∃ q u, bytes "/p/x" = q ++ u ∧ IsCutOff (bytes "/p") q ∧
            LineMended port (bytes "www.b") (bytes "GET") u (withSlash (bytes "/x"))) := by
  have hparse : parse ThreadState.fresh (bytes "GET /p/x HTTP/1.0\r\nHost: a\r\n\r\n") =
      some (⟨.good, Request.fresh⟩, some (getRequest (bytes "/p/x") [(bytes "Host", bytes "a")])) := by decide
  have hdispatch : Dispatched (parseFreshHandlers (proxyConfig (bytes "/p") (bytes "80"))).handlers
      (getRequest (bytes "/p/x") [(bytes "Host", bytes "a")]) (bytes "/p")
      (.reverseProxyHandler ⟨bytes "/p", bytes "localhost", bytes "80"⟩) := ⟨by decide, by decide⟩
  have hwrites : Writes ⟨bytes "/p", bytes "www.b", bytes "80"⟩
      (getRequest (bytes "/p/x") [(bytes "Host", bytes "a")]) (bytes "www.b")
      (bytes "GET /x HTTP/1.0\r\nHost: www.b\r\n\r\n") :=
    ⟨1, answering [], ⟨bytes "www.b", 0, [(bytes "www.b", bytes "GET /x HTTP/1.0\r\nHost: www.b\r\n\r\n")]⟩,
      .ok [], by decide, List.mem_singleton.mpr rfl⟩
  exact sent_removes_prefix_iff hparse hdispatch (by decide) hwrites

/-- A prefix of two segments: `/a/b/c` is sent on as `/b/c`. -/
theorem sent_keeps_segment :
    ∃ config s t r p w h host written, parse ThreadState.fresh s = some (t, some r) ∧
      Dispatched (parseFreshHandlers config).handlers r p (.reverseProxyHandler h) ∧ r.uri = p ++ w ∧
      Writes h r host written ∧ SendsUri written (bytes "/b/c") ∧ ¬ SendsUri written (withSlash w) := by
  have hread : parse ThreadState.fresh (bytes "GET /b/c HTTP/1.0\r\nHost: localhost\r\n\r\n") =
      some (⟨.good, Request.fresh⟩, some (getRequest (bytes "/b/c") [(bytes "Host", bytes "localhost")])) := by decide
  have hsends := sendsUri_of_parse hread
  refine ⟨proxyConfig (bytes "/a/b") (bytes "80"), bytes "GET /a/b/c HTTP/1.0\r\nHost: a\r\n\r\n",
    ⟨.good, Request.fresh⟩, getRequest (bytes "/a/b/c") [(bytes "Host", bytes "a")], bytes "/a/b", bytes "/c",
    ⟨bytes "/a/b", bytes "localhost", bytes "80"⟩, bytes "localhost",
    bytes "GET /b/c HTTP/1.0\r\nHost: localhost\r\n\r\n", by decide, ⟨by decide, by decide⟩, by decide,
    ⟨1, answering [], ⟨bytes "localhost", 0,
      [(bytes "localhost", bytes "GET /b/c HTTP/1.0\r\nHost: localhost\r\n\r\n")]⟩, .ok [], by decide,
      List.mem_singleton.mpr rfl⟩, hsends, ?_⟩
  intro h
  exact absurd (hsends.unique h) (by decide)

/-- The edit for `Host` meets the URI: the request line has no version, and the header keeps its value. -/
example : sendRequestToOrigin 1 (answering []) ⟨bytes "/p", bytes "localhost", bytes "80"⟩
    (getRequest (bytes "/p/Host") [(bytes "Host", bytes "a")]) (bytes "/p/Host") =
    some (⟨bytes "localhost", 0, [(bytes "localhost", bytes "GET /Host: localhost\r\nHost: a\r\n\r\n")]⟩,
      .ok []) := by decide

end Webserver.ReverseProxy
