import Webserver.ReverseProxy.RemoteStatus

/-!
# The `Location` helper

`getLocationHeaderValue` cuts the line of the header out of a reply with `substr`, which it gives the end of the
line where the length belongs.  So it cuts as many bytes behind the line as there are in front of it.

* `LocationReply` — the replies with a `Location` header.
* `getLocationHeaderValue_eq_iff` — the helper returns the value only by an accident, in a reply of 4 GiB.
-/

namespace Webserver.ReverseProxy

open ByteString CxxString Http Numeral

/-- `ReverseProxyHandler::getLocationHeaderValue`.  Both positions are stored in an `int`. -/
def getLocationHeaderValue (response : Bytes) : Except StdException Bytes := do
  let startLocation := Pos.toInt (find (bytes "Location:") response)
  let endLocation := Pos.toInt (findFirstOfFrom (bytes "\r\n") response (Pos.ofInt startLocation))
  let locationLine ← substr response (Pos.ofInt startLocation) (Pos.ofInt endLocation)
  return (tokens locationLine)[1]?.getD []

/-- The helper, in a reply that is split at the position that is searched from and at the end of the line there. -/
theorem getLocationHeaderValue_of_line {response a line b : Bytes} {c : Byte}
    (hstart : Pos.ofInt (Pos.toInt (find (bytes "Location:") response)) = some a.length)
    (hsplit : response = a ++ (line ++ c :: b)) (hline : ∀ x ∈ line, x ∉ bytes "\r\n") (hc : c ∈ bytes "\r\n") :
    getLocationHeaderValue response = .ok ((tokens (takeCount
      (Pos.ofInt (Pos.toInt (some (a.length + line.length)))) (line ++ c :: b)))[1]?.getD []) := by
  have hend : findFirstOfFrom (bytes "\r\n") response (some a.length) = some (a.length + line.length) := by
    rw [findFirstOfFrom, hsplit, List.drop_left, findFirstOf_append_cons hline hc, Nat.add_comm a.length]
    rfl
  have hle : a.length ≤ response.length := hsplit ▸ (List.prefix_append a _).length_le
  rw [getLocationHeaderValue, hstart, hend, substr_of_le hle, hsplit, List.drop_left]
  rfl

theorem eq_some_of_getD {token : Option Bytes} {v : Bytes} (h : token.getD [] = v) (hv : v ≠ []) : token = some v := by
  cases token with
  | none => exact absurd h.symm hv
  | some w => exact congrArg some h

/-! ### Words -/

/-- The second of the words between the spaces of a text. -/
def SecondWord (v s : Bytes) : Prop :=
  ∃ a w b c, s = a ++ w ++ b ++ v ++ c ∧ (∀ x ∈ a, x = byte ' ') ∧ w ≠ [] ∧ byte ' ' ∉ w ∧
    b ≠ [] ∧ (∀ x ∈ b, x = byte ' ') ∧ v ≠ [] ∧ byte ' ' ∉ v ∧ ∀ x ∈ c.head?, x = byte ' '

theorem tokens_space_append {a : Bytes} (ha : ∀ x ∈ a, x = byte ' ') (s : Bytes) :
    tokens (a ++ s) = tokens s := by
  induction a with
  | nil => rfl
  | cons x a ih =>
    obtain ⟨rfl, hrest⟩ := List.forall_mem_cons.mp ha
    exact (tokens_append_space [] (a ++ s)).trans (ih hrest)

/-- A text that does not start with a space starts with a word. -/
theorem tokens_cons {d : Byte} (hd : d ≠ byte ' ') (s : Bytes) :
    ∃ w c, d :: s = w ++ c ∧ w ≠ [] ∧ byte ' ' ∉ w ∧ (∀ x ∈ c.head?, x = byte ' ') ∧
      tokens (d :: s) = w :: tokens c := by
  have hsplit := List.takeWhile_append_dropWhile (p := (· ≠ byte ' ')) (l := d :: s)
  have hne : (d :: s).takeWhile (· ≠ byte ' ') ≠ [] := by
    rw [List.takeWhile_cons_of_pos (p := (· ≠ byte ' ')) (decide_eq_true hd)]
    exact List.cons_ne_nil d _
  have hword : byte ' ' ∉ (d :: s).takeWhile (· ≠ byte ' ') := notMem_takeWhile_ne _ _
  have hrest : ∀ x ∈ ((d :: s).dropWhile (· ≠ byte ' ')).head?, x = byte ' ' := by
    intro x hx
    exact not_not.mp (of_decide_eq_false (dropWhile_head? (· ≠ byte ' ') (d :: s) x hx))
  refine ⟨_, _, hsplit.symm, hne, hword, hrest, ?_⟩
  rw [← tokens_word_append hne hword hrest, hsplit]

theorem tokens_eq_cons_iff {s w : Bytes} {ts : List Bytes} : tokens s = w :: ts ↔
    ∃ a c, s = a ++ w ++ c ∧ (∀ x ∈ a, x = byte ' ') ∧ w ≠ [] ∧ byte ' ' ∉ w ∧
      (∀ x ∈ c.head?, x = byte ' ') ∧ tokens c = ts := by
  constructor
  · intro h
    induction s with
    | nil => cases h
    | cons d s ih =>
      by_cases hd : d = byte ' '
      · subst hd
        obtain ⟨a, c, rfl, ha, hrest⟩ := ih ((tokens_append_space [] s).symm.trans h)
        exact ⟨byte ' ' :: a, c, rfl, List.forall_mem_cons.mpr ⟨rfl, ha⟩, hrest⟩
      · obtain ⟨w', c, hs, hne, hw, hc, htokens⟩ := tokens_cons hd s
        rw [htokens] at h
        obtain ⟨rfl, hts⟩ := List.cons_eq_cons.mp h
        exact ⟨[], c, hs, fun x hx => (List.not_mem_nil hx).elim, hne, hw, hc, hts⟩
  · rintro ⟨a, c, rfl, ha, hne, hw, hc, hts⟩
    rw [List.append_assoc, tokens_space_append ha, tokens_word_append hne hw hc, hts]

/-- **The second token of a text.** -/
theorem tokens_second_iff {s v : Bytes} : (tokens s)[1]? = some v ↔ SecondWord v s := by
  constructor
  · intro h
    obtain ⟨w, ts, hs⟩ : ∃ w ts, tokens s = w :: v :: ts := by
      cases htokens : tokens s with
      | nil => rw [htokens] at h; cases h
      | cons w l =>
        rw [htokens] at h
        cases l with
        | nil => cases h
        | cons v' ts =>
          obtain rfl : v' = v := Option.some.inj h
          exact ⟨w, ts, rfl⟩
    obtain ⟨a, t, rfl, ha, hwne, hw, ht, htokens⟩ := tokens_eq_cons_iff.mp hs
    obtain ⟨b, c, rfl, hb, hvne, hv, hc, -⟩ := tokens_eq_cons_iff.mp htokens
    refine ⟨a, w, b, c, by simp, ha, hwne, hw, ?_, hb, hvne, hv, hc⟩
    -- a word ends with a space
    rintro rfl
    obtain ⟨d, v, rfl⟩ := List.exists_cons_of_ne_nil hvne
    exact hv (ht d rfl ▸ List.mem_cons_self)
  · rintro ⟨a, w, b, c, rfl, ha, hwne, hw, hbne, hb, hvne, hv, hc⟩
    have ht : ∀ x ∈ (b ++ v ++ c).head?, x = byte ' ' := by
      obtain ⟨d, b, rfl⟩ := List.exists_cons_of_ne_nil hbne
      intro x hx
      obtain rfl := Option.some.inj hx
      exact hb d List.mem_cons_self
    have htokens := tokens_eq_cons_iff.mpr ⟨b, c, rfl, hb, hvne, hv, hc, rfl⟩
    have hs := tokens_eq_cons_iff.mpr ⟨a, b ++ v ++ c, rfl, ha, hwne, hw, ht, htokens⟩
    rw [show a ++ w ++ b ++ v ++ c = a ++ w ++ (b ++ v ++ c) by simp, hs]
    rfl

/-- A text whose first token is the word in front of its line end stops there. -/
theorem length_of_firstToken {v rest : Bytes} {m : ℕ} (hv : byte ' ' ∉ v)
    (h : (tokens ((v ++ byte '\r' :: rest).take m)).head? = some v) : m = v.length := by
  obtain ⟨ts, hts⟩ := List.head?_eq_some_iff.mp h
  obtain ⟨a, c, hsplit, ha, hne, -, hc, -⟩ := tokens_eq_cons_iff.mp hts
  rcases Nat.lt_or_ge v.length m with hlt | hle
  · -- the line end would belong to the word
    obtain ⟨m, rfl⟩ := Nat.exists_eq_add_of_lt hlt
    have htake : (v ++ byte '\r' :: rest).take (v.length + m + 1) = v ++ byte '\r' :: rest.take m := by
      rw [Nat.add_assoc, List.take_length_add_append, List.take_succ_cons]
    rw [htake] at hsplit
    cases a with
    | nil =>
      have hend : byte '\r' :: rest.take m = c := List.append_cancel_left hsplit
      exact absurd (hc (byte '\r') (hend ▸ rfl)) (by decide)
    | cons x a =>
      obtain ⟨d, v, rfl⟩ := List.exists_cons_of_ne_nil hne
      have hd : d = x := (List.cons_eq_cons.mp hsplit).1
      exact absurd (hd.trans (ha x List.mem_cons_self) ▸ List.mem_cons_self) hv
  · have hlength := congrArg List.length hsplit
    rw [List.length_take, List.length_append, List.length_append, List.length_append] at hlength
    omega

theorem length_of_secondToken {v rest : Bytes} {n : ℕ} (hv : byte ' ' ∉ v)
    (h : (tokens ((bytes "Location: " ++ (v ++ byte '\r' :: rest)).take n))[1]? = some v) : n = 10 + v.length := by
  have hname : (bytes "Location: ").length = 10 := by decide
  rcases Nat.lt_or_ge n 10 with hlt | hle
  · have hnone : ∀ n < 10, (tokens ((bytes "Location: ").take n))[1]? = none := by decide
    rw [List.take_append_of_le_length (by omega), hnone n hlt] at h
    cases h
  · obtain ⟨m, rfl⟩ := Nat.exists_eq_add_of_le hle
    have htake : (bytes "Location: " ++ (v ++ byte '\r' :: rest)).take (10 + m) =
        bytes "Location:" ++ byte ' ' :: (v ++ byte '\r' :: rest).take m := by
      rw [← hname, List.take_length_add_append]
      rfl
    have hword : tokens (bytes "Location:") = [bytes "Location:"] := by decide
    rw [htake, tokens_append_space, hword] at h
    rw [length_of_firstToken hv (List.head?_eq_getElem?.trans h)]

/-! ### Replies with a `Location` header -/

/-- Some lines, each with its end. -/
def crlfLines (lines : List Bytes) : Bytes := lines.flatMap (· ++ bytes "\r\n")

theorem crlfLines_cons (line : Bytes) (lines : List Bytes) :
    crlfLines (line :: lines) = line ++ bytes "\r\n" ++ crlfLines lines := List.flatMap_cons

theorem crlfLines_ends (line : Bytes) (lines : List Bytes) : ∃ t, crlfLines (line :: lines) = t ++ [byte '\n'] := by
  induction lines generalizing line with
  | nil =>
    refine ⟨line ++ [byte '\r'], ?_⟩
    rw [crlfLines_cons, List.append_assoc, List.append_assoc]
    rfl
  | cons next lines ih =>
    obtain ⟨t, ht⟩ := ih next
    refine ⟨line ++ bytes "\r\n" ++ t, ?_⟩
    rw [crlfLines_cons, ht, List.append_assoc _ t]

/-- A reply with a status line, headers, an empty line and a body.  One of the headers is `Location: ` and a value
without spaces, and that name does not occur earlier.  Of the other lines it is only known that they are lines. -/
structure LocationReply where
  statusLine : Bytes
  before : List Bytes
  value : Bytes
  after : List Bytes
  body : Bytes
  line_ne : ∀ line ∈ statusLine :: before ++ after, line ≠ []
  line_byte : ∀ line ∈ statusLine :: before ++ after, ∀ b ∈ line, b ∉ bytes "\r\n"
  value_ne : value ≠ []
  value_byte : ∀ b ∈ value, b ∉ bytes " \r\n"
  first : ¬ bytes "Location:" <:+: crlfLines (statusLine :: before)

namespace LocationReply

variable (r : LocationReply)

/-- What is in front of the header. -/
def front : Bytes := crlfLines (r.statusLine :: r.before)

def header : Bytes := bytes "Location: " ++ r.value

/-- What is behind the header and its end. -/
def behind : Bytes := crlfLines r.after ++ bytes "\r\n" ++ r.body

def text : Bytes := r.front ++ (r.header ++ (bytes "\r\n" ++ r.behind))

theorem text_eq : r.text = r.front ++ (r.header ++ byte '\r' :: byte '\n' :: r.behind) := rfl

theorem header_append (s : Bytes) : r.header ++ s = bytes "Location: " ++ (r.value ++ s) :=
  List.append_assoc _ _ _

theorem header_length : r.header.length = 10 + r.value.length := List.length_append

theorem space_notMem_value : byte ' ' ∉ r.value := fun h => r.value_byte _ h (by decide)

theorem header_byte : ∀ b ∈ r.header, b ∉ bytes "\r\n" := by
  have hname : ∀ b ∈ bytes "Location: ", b ∉ bytes "\r\n" := by decide
  have hends : ∀ b ∈ bytes "\r\n", b ∈ bytes " \r\n" := by decide
  intro b hb
  rcases List.mem_append.mp hb with hb | hb
  · exact hname b hb
  · exact fun hend => r.value_byte b hb (hends b hend)

/-- The text in front of the header ends a line. -/
theorem front_ends : ∃ t, r.front = t ++ [byte '\n'] := crlfLines_ends r.statusLine r.before

/-- The helper finds the header. -/
theorem find_text : find (bytes "Location:") r.text = some r.front.length := by
  obtain ⟨t, ht⟩ := r.front_ends
  have hfirst : ¬ bytes "Location:" <:+: t ++ [byte '\n'] := ht ▸ r.first
  have hsplit : r.text =
      t ++ [byte '\n'] ++ bytes "Location:" ++ byte ' ' :: (r.value ++ (bytes "\r\n" ++ r.behind)) := by
    simp [text, header, bytes, ht]
  rw [hsplit, (firstAt_of_end hfirst (by decide) _).find, ht]

theorem front_pos : 0 < r.front.length := by
  obtain ⟨t, ht⟩ := r.front_ends
  rw [ht, List.length_append]
  exact Nat.succ_pos _

/-- A start that is negative as an `int` is beyond the end. -/
theorem getLocationHeaderValue_eq_error (h : ¬ r.front.length % 2 ^ 32 < 2 ^ 31) :
    getLocationHeaderValue r.text = .error .outOfRange := by
  have hstart : Pos.ofInt (Pos.toInt (find (bytes "Location:") r.text)) = npos := by
    rw [find_text, Pos.ofInt_toInt, if_neg h]
  rw [getLocationHeaderValue, hstart]
  rfl

/-- A start that fits into an `int` gives a line that is as much too long as the start is behind the first byte. -/
theorem getLocationHeaderValue_ne_of_lt (h : r.front.length < 2 ^ 31) :
    getLocationHeaderValue r.text ≠ .ok r.value := by
  have hpos := r.front_pos
  have hheader := r.header_length
  have hstart : Pos.ofInt (Pos.toInt (find (bytes "Location:") r.text)) = some r.front.length := by
    rw [find_text, Pos.ofInt_toInt, Nat.mod_eq_of_lt (by omega), if_pos h]
  intro hvalue
  rw [getLocationHeaderValue_of_line hstart r.text_eq r.header_byte (by decide)] at hvalue
  have htoken := eq_some_of_getD (Except.ok.inj hvalue) r.value_ne
  rw [Pos.ofInt_toInt, header_append] at htoken
  by_cases hend : (r.front.length + r.header.length) % 2 ^ 32 < 2 ^ 31
  · rw [if_pos hend] at htoken
    have hcount := length_of_secondToken r.space_notMem_value htoken
    omega
  · -- the cut goes on to the end of the reply
    have htake (s : Bytes) : takeCount npos s = s.take s.length := List.take_length.symm
    rw [if_neg hend, htake] at htoken
    have hcount := length_of_secondToken r.space_notMem_value htoken
    rw [← header_append, List.length_append, List.length_cons] at hcount
    omega

end LocationReply

/-! ### The value -/

/-- **The accident** that gives the value of a header that starts 2 ^ 32 bytes or more behind the first byte: a start
that is smaller as an `int`, and a line there which is followed by so much that the value is its second word. -/
def Accident (text : Bytes) (start : ℕ) (value : Bytes) : Prop :=
  2 ^ 32 ≤ start ∧ start % 2 ^ 32 < 2 ^ 31 ∧
    ∃ a line c b, text = a ++ (line ++ c :: b) ∧ a.length = start % 2 ^ 32 ∧ (∀ x ∈ line, x ∉ bytes "\r\n") ∧
      c ∈ bytes "\r\n" ∧
      SecondWord value (takeCount (Pos.ofInt (Pos.toInt (some (a.length + line.length)))) (line ++ c :: b))

/-- A reply whose front is longer than the start as an `int` has the end of a line behind that start. -/
theorem LocationReply.exists_line (r : LocationReply) {k : ℕ} (hk : k < r.front.length) :
    ∃ a line c b, r.text = a ++ (line ++ c :: b) ∧ a.length = k ∧ (∀ x ∈ line, x ∉ bytes "\r\n") ∧
      c ∈ bytes "\r\n" := by
  obtain ⟨t, ht⟩ := r.front_ends
  have hle : k ≤ t.length := by
    rw [ht, List.length_append, List.length_singleton] at hk
    omega
  have hdrop : r.text.drop k = t.drop k ++ byte '\n' :: (r.header ++ (bytes "\r\n" ++ r.behind)) := by
    rw [text, ht, List.append_assoc, List.drop_append_of_le_length hle]
    rfl
  have hmem : ∃ x ∈ r.text.drop k, x ∈ bytes "\r\n" :=
    ⟨byte '\n', hdrop ▸ List.mem_append_right _ List.mem_cons_self, by decide⟩
  obtain ⟨line, c, b, hline, hbyte, hc⟩ := exists_first_split hmem
  refine ⟨r.text.take k, line, c, b, ?_, ?_, hbyte, hc⟩
  · rw [← hline, List.take_append_drop]
  · rw [List.length_take, text, List.length_append]
    omega

/-- A redirect to the second word of its status line, with a header of `n` bytes in front of the location. -/
def paddedReply (n : ℕ) : LocationReply where
  statusLine := bytes "HTTP/1.1 302 Found"
  before := [bytes "X-Padding:" ++ List.replicate n (byte 'x')]
  value := bytes "302"
  after := []
  body := []
  line_ne := by
    simp [bytes]
  line_byte := by
    have hstatus : ∀ b ∈ bytes "HTTP/1.1 302 Found", b ∉ bytes "\r\n" := by decide
    have hname : ∀ b ∈ bytes "X-Padding:", b ∉ bytes "\r\n" := by decide
    have hpadding : ∀ b ∈ List.replicate n (byte 'x'), b ∉ bytes "\r\n" := by
      intro b hb
      rw [List.eq_of_mem_replicate hb]
      decide
    intro line hline
    rcases List.mem_cons.mp hline with rfl | hline
    · exact hstatus
    · obtain rfl := List.mem_singleton.mp hline
      exact List.forall_mem_append.mpr ⟨hname, hpadding⟩
  value_ne := by decide
  value_byte := by decide
  first := by
    intro hfirst
    have hmem : byte 'L' ∈ crlfLines [bytes "HTTP/1.1 302 Found", bytes "X-Padding:" ++ List.replicate n (byte 'x')] :=
      hfirst.subset (by decide)
    simp [crlfLines, bytes, List.mem_replicate] at hmem

theorem front_length_paddedReply (n : ℕ) : (paddedReply n).front.length = n + 32 := by
  simp [LocationReply.front, crlfLines, paddedReply, bytes]

theorem exists_accident : ∃ r : LocationReply, Accident r.text r.front.length r.value := by
  obtain ⟨n, hn⟩ : ∃ n, n + 32 = 2 ^ 32 := ⟨2 ^ 32 - 32, by omega⟩
  have hsecond : SecondWord (bytes "302") (bytes "HTTP/1.1 302 Found") :=
    ⟨[], bytes "HTTP/1.1", bytes " ", bytes " Found", by decide⟩
  refine ⟨paddedReply n, ?_⟩
  rw [front_length_paddedReply, hn]
  -- the start wraps around to the status line
  refine ⟨by omega, by omega, [], bytes "HTTP/1.1 302 Found", byte '\r', _, rfl, rfl, by decide, by decide, ?_⟩
  rw [Pos.ofInt_toInt]
  exact hsecond

/-- **The helper returns the value** only by that accident. -/
theorem getLocationHeaderValue_eq_iff (r : LocationReply) :
    getLocationHeaderValue r.text = .ok r.value ↔ Accident r.text r.front.length r.value := by
  by_cases hstart : r.front.length % 2 ^ 32 < 2 ^ 31
  · have hfind : Pos.ofInt (Pos.toInt (find (bytes "Location:") r.text)) = some (r.front.length % 2 ^ 32) := by
      rw [r.find_text, Pos.ofInt_toInt, if_pos hstart]
    by_cases hlarge : 2 ^ 32 ≤ r.front.length
    · have hlt : r.front.length % 2 ^ 32 < r.front.length := by omega
      constructor
      · intro hvalue
        obtain ⟨a, line, c, b, hsplit, ha, hline, hc⟩ := r.exists_line hlt
        rw [getLocationHeaderValue_of_line (ha ▸ hfind) hsplit hline hc] at hvalue
        have htoken := eq_some_of_getD (Except.ok.inj hvalue) r.value_ne
        exact ⟨hlarge, hstart, a, line, c, b, hsplit, ha, hline, hc, tokens_second_iff.mp htoken⟩
      · intro haccident
        obtain ⟨-, -, a, line, c, b, hsplit, ha, hline, hc, hsecond⟩ := haccident
        rw [getLocationHeaderValue_of_line (ha ▸ hfind) hsplit hline hc, tokens_second_iff.mpr hsecond]
        rfl
    · -- the start is the real one, and the line is too long
      refine iff_of_false (r.getLocationHeaderValue_ne_of_lt (by omega)) ?_
      exact fun haccident => hlarge haccident.1
  · refine iff_of_false ?_ fun haccident => hstart haccident.2.1
    rw [r.getLocationHeaderValue_eq_error hstart]
    intro hvalue
    cases hvalue

/-- A redirect with another header behind the location. -/
def foundReply : LocationReply where
  statusLine := bytes "HTTP/1.1 302 Found"
  before := []
  value := bytes "http://a.b/c"
  after := [bytes "Server: x"]
  body := []
  line_ne := by decide
  line_byte := by decide
  value_ne := by decide
  value_byte := by decide
  first := by decide

/-- The line of that header is cut beyond its end. -/
theorem getLocationHeaderValue_foundReply :
    foundReply.text =
        bytes "HTTP/1.1 302 Found\r\nLocation: http://a.b/c\r\nServer: x\r\n\r\n" ∧
      getLocationHeaderValue foundReply.text = .ok (bytes "http://a.b/c\r\nServer:") ∧
      ¬ ∀ r : LocationReply, getLocationHeaderValue r.text = .ok r.value := by
  have hvalue : getLocationHeaderValue foundReply.text = .ok (bytes "http://a.b/c\r\nServer:") := by decide
  refine ⟨by decide, hvalue, ?_⟩
  intro hall
  rw [hall foundReply] at hvalue
  exact absurd hvalue (by decide)

end Webserver.ReverseProxy
