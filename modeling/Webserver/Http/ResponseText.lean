import Webserver.Http.StatusLine

/-!
# Reading a response back

`SplitsAs` takes a text apart as the status line, the headers, the empty line and the body of a response.
A text can be taken apart in one way at most.  `ToString` writes such a text exactly when nothing follows
`MiscString::crlf` in memory, and its last append reads behind that array in any case.

* `SplitsAs.unique` — the parts are determined by the text.
* `splitsAs_toString_iff` — when the text that is written has the parts of the response.
* `exists_read_outOfRange` — the read behind the array.
-/

namespace Webserver.Http

open ByteString Numeral

/-! ### The grammar -/

def NoLineEnd (s : Bytes) : Prop := byte '\r' ∉ s ∧ byte '\n' ∉ s

/-- A name and a value that one header line can hold. -/
def IsHeaderField (h : Bytes × Bytes) : Prop := NoLineEnd h.1 ∧ byte ':' ∉ h.1 ∧ NoLineEnd h.2

/-- **The text of a response**: a status line with this code, one line for each of the headers, an empty
line, and the body. -/
def SplitsAs (s : Bytes) (code : ResponseCode) (headers : List (Bytes × Bytes)) (body : Bytes) : Prop :=
  ∃ line, s = line ++ bytes "\r\n" ++ headers.flatMap Response.headerLine ++ bytes "\r\n" ++ body ∧
    StatusLine line code ∧ NoLineEnd line ∧ ∀ h ∈ headers, IsHeaderField h

/-- A line ends at its first carriage return. -/
theorem cut_line {a b x y : Bytes} (ha : NoLineEnd a) (hb : NoLineEnd b) :
    a ++ (bytes "\r\n" ++ x) = b ++ (bytes "\r\n" ++ y) ↔ a = b ∧ x = y := by
  show a ++ byte '\r' :: (byte '\n' :: x) = b ++ byte '\r' :: (byte '\n' :: y) ↔ _
  rw [append_cons_inj ha.1 hb.1, List.cons.injEq, and_iff_right rfl]

theorem headerLine_append (h : Bytes × Bytes) (x : Bytes) :
    Response.headerLine h ++ x = h.1 ++ byte ':' :: (byte ' ' :: (h.2 ++ (bytes "\r\n" ++ x))) := by
  rw [Response.headerLine, show bytes ": " = byte ':' :: [byte ' '] from rfl]
  simp only [List.append_assoc, List.cons_append, List.nil_append]

/-- A header line starts with its name, so it does not start with the end of a line. -/
theorem headerLine_ne_empty_line {h : Bytes × Bytes} (hh : IsHeaderField h) (x y : Bytes) :
    Response.headerLine h ++ x ≠ bytes "\r\n" ++ y := by
  intro heq
  rw [headerLine_append] at heq
  obtain ⟨name, value⟩ := h
  cases name with
  | nil => exact absurd (List.cons.inj heq).1 (by decide)
  | cons b name =>
    obtain rfl : b = byte '\r' := (List.cons.inj heq).1
    exact hh.1.1 List.mem_cons_self

/-- **The headers** end at the first empty line. -/
theorem headerLines_inj {hs hs' : List (Bytes × Bytes)} (h : ∀ f ∈ hs, IsHeaderField f) (h' : ∀ f ∈ hs', IsHeaderField f)
    {x y : Bytes} (heq : hs.flatMap Response.headerLine ++ (bytes "\r\n" ++ x) =
      hs'.flatMap Response.headerLine ++ (bytes "\r\n" ++ y)) : hs = hs' ∧ x = y := by
  induction hs generalizing hs' with
  | nil =>
    cases hs' with
    | nil => exact ⟨rfl, List.append_cancel_left heq⟩
    | cons f hs' =>
      rw [List.flatMap_cons, List.append_assoc] at heq
      exact absurd heq.symm (headerLine_ne_empty_line (h' f List.mem_cons_self) _ _)
  | cons f hs ih =>
    cases hs' with
    | nil =>
      rw [List.flatMap_cons, List.append_assoc] at heq
      exact absurd heq (headerLine_ne_empty_line (h f List.mem_cons_self) _ _)
    | cons f' hs' =>
      obtain ⟨hf, hhs⟩ := List.forall_mem_cons.mp h
      obtain ⟨hf', hhs'⟩ := List.forall_mem_cons.mp h'
      rw [List.flatMap_cons, List.flatMap_cons, List.append_assoc, List.append_assoc, headerLine_append,
        headerLine_append, append_cons_inj hf.2.1 hf'.2.1, List.cons.injEq, and_iff_right rfl,
        cut_line hf.2.2 hf'.2.2] at heq
      obtain ⟨hname, hvalue, hrest⟩ := heq
      obtain ⟨htail, hxy⟩ := ih hhs hhs' hrest
      exact ⟨by rw [htail, Prod.ext hname hvalue], hxy⟩

/-- **The parts of a response are determined by its text.** -/
theorem SplitsAs.unique {s : Bytes} {code code' : ResponseCode} {headers headers' : List (Bytes × Bytes)}
    {body body' : Bytes} (h : SplitsAs s code headers body) (h' : SplitsAs s code' headers' body') :
    code = code' ∧ headers = headers' ∧ body = body' := by
  obtain ⟨line, rfl, hcode, hline, hheaders⟩ := h
  obtain ⟨line', heq, hcode', hline', hheaders'⟩ := h'
  simp only [List.append_assoc] at heq
  obtain ⟨rfl, hrest⟩ := (cut_line hline hline').mp heq
  obtain ⟨hhs, hbody⟩ := headerLines_inj hheaders hheaders' hrest
  exact ⟨hcode.unique hcode', hhs, hbody⟩

/-! ### The text that is written -/

theorem noLineEnd_statusLine (status : ResponseCode) :
    NoLineEnd (bytes "HTTP/1.0 " ++ bytes (textOf status)) := by
  have htable : ∀ p ∈ statusTexts, byte '\r' ∉ bytes p.2 ∧ byte '\n' ∉ bytes p.2 := by decide
  obtain ⟨hcr, hlf⟩ : byte '\r' ∉ bytes (textOf status) ∧ byte '\n' ∉ bytes (textOf status) :=
    htable _ (textOf_eq status)
  rw [NoLineEnd, List.mem_append, List.mem_append, not_or, not_or]
  exact ⟨⟨by decide, hcr⟩, ⟨by decide, hlf⟩⟩

/-- What follows the array in memory comes in front of the body. -/
theorem readCString_crlf (beyondCrlf : Bytes) :
    Response.readCString (bytes "\r\n") beyondCrlf = bytes "\r\n" ++ cStr beyondCrlf :=
  cStr_append_of_notMem (by decide) beyondCrlf

section ToString

variable {r : Response} {status : ResponseCode} {beyondCrlf sent : Bytes}

/-- **The parts of the text that is written.** -/
theorem splitsAs_toString (hfull : r.fullResponse = []) (hstatus : r.status = some status)
    (hheaders : ∀ h ∈ r.headers, IsHeaderField h) (hsent : r.toString beyondCrlf = some sent) :
    SplitsAs sent (codeOnLine status) r.headers (cStr beyondCrlf ++ r.content) := by
  rw [Response.toString, if_neg (not_not.mpr hfull), hstatus] at hsent
  refine ⟨bytes "HTTP/1.0 " ++ bytes (textOf status), ?_, ?_, noLineEnd_statusLine status, hheaders⟩
  · rw [← Option.some.inj hsent, readCString_crlf, statusString]
    simp only [List.append_assoc]
  · have hline := statusLine_textOf status []
    rwa [List.append_nil] at hline

/-- **The body is read back unchanged** exactly when nothing follows the array in memory. -/
theorem splitsAs_toString_iff (hfull : r.fullResponse = []) (hstatus : r.status = some status)
    (hheaders : ∀ h ∈ r.headers, IsHeaderField h) (hsent : r.toString beyondCrlf = some sent) :
    SplitsAs sent (codeOnLine status) r.headers r.content ↔ cStr beyondCrlf = [] := by
  have hsplit := splitsAs_toString hfull hstatus hheaders hsent
  constructor
  · intro h
    have hbody := (hsplit.unique h).2.2
    exact List.append_left_eq_self.mp hbody
  · intro hnil
    rwa [hnil, List.nil_append] at hsplit

end ToString

/-! ### Numbers -/

/-- A decimal digit as a byte has the value of the digit. -/
theorem isDecDigit_byte {c : Char} (h : c.isDigit) :
    isDecDigit (byte c) ∧ digitValue (byte c) = c.toNat - '0'.toNat := by
  obtain ⟨hlo, hhi⟩ := Char.isDigit_iff_toNat.mp h
  have hbyte : (byte c).toNat = c.toNat := by
    show (UInt8.ofNat c.toNat).toNat = _
    rw [UInt8.toNat_ofNat', Nat.mod_eq_of_lt]
    have h9 : '9'.toNat = 57 := rfl
    omega
  have h0 : '0'.toNat = 48 := rfl
  have h9 : '9'.toNat = 57 := rfl
  constructor
  · rw [isDecDigit, decide_eq_true_iff]
    omega
  · rw [digitValue, if_pos (by omega), hbyte, h0]

/-- **`std::to_string`** writes digits, and the number they denote is the one that is written. -/
theorem decimal_spec (n : ℕ) : (∀ b ∈ decimal n, isDecDigit b) ∧ ofDigits 10 (decimal n) = n := by
  have hdigit : ∀ c ∈ Nat.toDigits 10 n, c.isDigit := fun c hc =>
    Nat.isDigit_of_mem_toDigits (by decide) (by decide) hc
  constructor
  · intro b hb
    obtain ⟨c, hc, rfl⟩ := List.mem_map.mp hb
    exact (isDecDigit_byte (hdigit c hc)).1
  · have hfold (cs : List Char) (hcs : ∀ c ∈ cs, c.isDigit) (m : ℕ) :
        (cs.map byte).foldl (fun n d => 10 * n + digitValue d) m = Nat.ofDigitChars 10 cs m := by
      induction cs generalizing m with
      | nil => rfl
      | cons c cs ih =>
        obtain ⟨hc, hcs⟩ := List.forall_mem_cons.mp hcs
        rw [List.map_cons, List.foldl_cons, (isDecDigit_byte hc).2, ih hcs]
        rfl
    rw [ofDigits, decimal, hfold _ hdigit]
    exact Nat.ofDigitChars_ten_toDigits

theorem decimal_inj {m n : ℕ} (h : decimal m = decimal n) : m = n := by
  rw [← (decimal_spec m).2, h, (decimal_spec n).2]

/-! ### The reads -/

/-- A read of one element, in an array or vector of this size. -/
structure Read where
  size : ℕ
  index : ℕ
  deriving DecidableEq

def Read.InRange (read : Read) : Prop := read.index < read.size

/-- `std::string(array, sizeof(array))`. -/
def sizedReads (array : Bytes) : List Read := (List.range array.length).map (Read.mk array.length)

/-- An array taken as a C string: everything up to the first NUL is read, and that NUL. -/
def cStringReads (array beyond : Bytes) : List Read :=
  (List.range ((Response.readCString array beyond).length + 1)).map (Read.mk array.length)

/-- The reads of `ToString` from `headers` and from the arrays of `MiscString`. -/
def toStringReads (beyondCrlf : Bytes) (r : Response) : List Read :=
  if r.fullResponse ≠ [] then []
  else
    ((List.range r.headers.length).flatMap fun i =>
      ⟨r.headers.length, i⟩ :: (sizedReads (bytes ": ") ++ sizedReads (bytes "\r\n"))) ++
        cStringReads (bytes "\r\n") beyondCrlf

theorem inRange_of_mem_sizedReads {array : Bytes} {read : Read} (h : read ∈ sizedReads array) :
    read.InRange := by
  obtain ⟨i, hi, rfl⟩ := List.mem_map.mp h
  exact List.mem_range.mp hi

/-- **The reads out of range** are those of the last append, and there is always one: the array holds no
NUL. -/
theorem exists_read_outOfRange {r : Response} (hfull : r.fullResponse = []) (beyondCrlf : Bytes) :
    (∃ read ∈ toStringReads beyondCrlf r, ¬ read.InRange) ∧
      ∀ read ∈ toStringReads beyondCrlf r, ¬ read.InRange → read ∈ cStringReads (bytes "\r\n") beyondCrlf := by
  rw [toStringReads, if_neg (not_not.mpr hfull)]
  constructor
  · refine ⟨⟨2, 2⟩, List.mem_append_right _ ?_, Nat.lt_irrefl 2⟩
    apply List.mem_map.mpr
    refine ⟨2, List.mem_range.mpr ?_, rfl⟩
    rw [readCString_crlf, List.length_append]
    show 2 < 2 + _ + 1
    omega
  · intro read hread hout
    rcases List.mem_append.mp hread with hread | hread
    · obtain ⟨i, hi, hread⟩ := List.mem_flatMap.mp hread
      exfalso
      apply hout
      rcases List.mem_cons.mp hread with rfl | hread
      · exact List.mem_range.mp hi
      · rcases List.mem_append.mp hread with hread | hread
        · exact inRange_of_mem_sizedReads hread
        · exact inRange_of_mem_sizedReads hread
    · exact hread

/-! ### The round trip -/

/-- **A response that can be read back**: only reads in range, and a text that splits into the parts of the
response and into no others. -/
def ReadsBack (beyondCrlf : Bytes) (r : Response) (code : ResponseCode) : Prop :=
  (∀ read ∈ toStringReads beyondCrlf r, read.InRange) ∧
    ∃ sent, r.toString beyondCrlf = some sent ∧ SplitsAs sent code r.headers r.content ∧
      ∀ code' headers' body', SplitsAs sent code' headers' body' →
        code' = code ∧ headers' = r.headers ∧ body' = r.content

/-- **No response is serialized with reads in range only.**  The text splits into the parts of the response,
and into no others, exactly when a NUL follows the array in memory. -/
theorem not_readsBack {r : Response} {code : ResponseCode} (hcode : code ∈ knownCodes)
    (hstatus : r.status = some code) (hfull : r.fullResponse = []) (hheaders : ∀ h ∈ r.headers, IsHeaderField h)
    (beyondCrlf : Bytes) :
    ¬ ReadsBack beyondCrlf r code ∧
      ∃ sent, r.toString beyondCrlf = some sent ∧
        ((SplitsAs sent code r.headers r.content ∧
          ∀ code' headers' body', SplitsAs sent code' headers' body' →
            code' = code ∧ headers' = r.headers ∧ body' = r.content) ↔ cStr beyondCrlf = []) := by
  obtain ⟨sent, hsent⟩ := Response.toString_isSome hstatus beyondCrlf
  have hiff := splitsAs_toString_iff hfull hstatus hheaders hsent
  rw [codeOnLine, if_pos hcode] at hiff
  constructor
  · intro h
    obtain ⟨read, hread, hout⟩ := (exists_read_outOfRange hfull beyondCrlf).1
    exact hout (h.1 read hread)
  · refine ⟨sent, hsent, ?_⟩
    rw [← hiff]
    constructor
    · intro h
      exact h.1
    · intro h
      exact ⟨h, fun code' headers' body' h' => h'.unique h⟩

theorem not_readsBack_plain_text :
    ¬ ReadsBack [0] (.plainTextResponse (bytes "hi")) 200 ∧
      ∃ sent, (Response.plainTextResponse (bytes "hi")).toString [0] = some sent ∧
        SplitsAs sent 200 [(bytes "Content-Length", bytes "2"), (bytes "Content-Type", bytes "text/plain")]
          (bytes "hi") := by
  have hheaders : ∀ h ∈ (Response.plainTextResponse (bytes "hi")).headers, IsHeaderField h := by
    unfold IsHeaderField NoLineEnd
    decide
  obtain ⟨hnot, sent, hsent, hiff⟩ :=
    not_readsBack (by decide : (200 : ℤ) ∈ knownCodes) (r := .plainTextResponse (bytes "hi")) rfl rfl hheaders [0]
  exact ⟨hnot, sent, hsent, (hiff.mpr rfl).1⟩

/-- The byte behind the array is read, and other bytes there than a NUL are sent. -/
theorem toString_reads_behind_crlf :
    ¬ ReadsBack [0] (.plainTextResponse (bytes "hi")) 200 ∧
      (Response.plainTextResponse (bytes "hi")).toString (bytes ": " ++ [0]) =
        some (bytes "HTTP/1.0 200 OK\r\nContent-Length: 2\r\nContent-Type: text/plain\r\n\r\n: hi") := by
  constructor
  · intro h
    obtain ⟨read, hread, hout⟩ :=
      (@exists_read_outOfRange (.plainTextResponse (bytes "hi")) rfl [0]).1
    exact hout (h.1 read hread)
  · decide

end Webserver.Http
