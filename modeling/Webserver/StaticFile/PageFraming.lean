import Webserver.Http.BodyFraming
import Webserver.Http.ResponseText
import Webserver.StaticFile.LuaFunctions

/-!
# The framing of a page

A Lua page writes its headers with `addheader`, and the handler adds `Content-Length` and `Content-Type`
behind them.  Nothing looks at the names and values, which may come from the client through `get` and
`post`.

* `Framed` — what is sent has one line for every header and a `Content-Length` that can be relied on.
* `runCalls_headers` — the headers a page ends with.
* `framed_page_iff` — which pages keep the framing.
-/

namespace Webserver.StaticFile

open ByteString CxxString Numeral Http Server

/-! ### The headers of a page -/

/-- The header that a call asks for. -/
def LuaCall.header? : LuaCall → Option (Bytes × Bytes)
  | .addheader name value => some (name, value)
  | _ => none

def addedHeaders (calls : List LuaCall) : List (Bytes × Bytes) := calls.filterMap LuaCall.header?

/-- A header as `lua_addheader` gets it: two C strings. -/
def cField (h : Bytes × Bytes) : Bytes × Bytes := (cStr h.1, cStr h.2)

theorem LuaCall.run_headers (call : LuaCall) (s : Response × Bytes) :
    ((call.run s).getD s).1.headers = s.1.headers ++ (call.header?.map cField).toList := by
  obtain ⟨response, body⟩ := s
  cases call with
  | addheader name value => rfl
  | setstatus arg =>
    rw [LuaCall.run, luaSetstatus]
    split_ifs
    · exact (List.append_nil _).symm
    · exact (List.append_nil _).symm
  | put text => exact (List.append_nil _).symm

/-- **The headers a page ends with** are those it started with and, in order, those it adds. -/
theorem runCalls_headers (calls : List LuaCall) (s : Response × Bytes) :
    (runCalls calls s).1.headers = s.1.headers ++ (addedHeaders calls).map cField := by
  induction calls generalizing s with
  | nil => exact (List.append_nil _).symm
  | cons call calls ih =>
    have hstep := call.run_headers s
    show (runCalls calls ((call.run s).getD s)).1.headers = _
    rw [ih, hstep, List.append_assoc, addedHeaders, addedHeaders, List.filterMap_cons]
    cases call.header? with
    | none => rfl
    | some h => rfl

/-- The two headers of the handler. -/
def describes (body : Bytes) : List (Bytes × Bytes) :=
  [(bytes "Content-Length", decimal body.length), (bytes "Content-Type", bytes "text/html")]

/-- **The response to a page**: the headers the page adds, and the two that describe the body. -/
theorem handleRequest_page {host : Host} {lua : LuaInterpreter} {h : StaticFileHandler} {request : Request}
    {calls : List LuaCall} (hpage : ServesPage host lua h request calls) :
    ∃ res code, handleRequest (withLua host lua) h request .new = .ok (.ok, res) ∧ res.fullResponse = [] ∧
      res.status = some code ∧ res.headers = (addedHeaders calls).map cField ++ describes res.content := by
  obtain ⟨body, hok⟩ := handleRequest_eq_fillResponse hpage
  obtain ⟨res, hok', hfull, hstatus⟩ := handleRequest_of_servesPage hpage
  obtain rfl : _ = res := (Prod.mk.inj (Except.ok.inj (hok.symm.trans hok'))).2
  refine ⟨_, _, hok, hfull, hstatus, ?_⟩
  show (runCalls calls (Response.new.setStatus .ok, [])).1.headers ++ [_] ++ [_] = _
  rw [runCalls_headers, List.append_assoc]
  rfl

/-! ### The framing -/

/-- **The page is framed**: a status line, one line for each header that was added, with its name and value,
the lines that describe the body, an empty line and the body; and no other line gives a length. -/
def Framed (sent : Bytes) (calls : List LuaCall) : Prop :=
  ∃ code body, SplitsAs sent code (addedHeaders calls ++ describes body) body ∧
    ∀ h ∈ addedHeaders calls, ¬ IsContentLength h.1

/-- A header that can be added without harm. -/
def Harmless (h : Bytes × Bytes) : Prop :=
  IsHeaderField h ∧ (0 : Byte) ∉ h.1 ∧ (0 : Byte) ∉ h.2 ∧ ¬ IsContentLength h.1

theorem isHeaderField_describes (body : Bytes) : ∀ h ∈ describes body, IsHeaderField h := by
  have hdigits := (decimal_spec body.length).1
  have hlength : NoLineEnd (bytes "Content-Length") ∧ byte ':' ∉ bytes "Content-Length" := by
    unfold NoLineEnd
    decide
  have htype : IsHeaderField (bytes "Content-Type", bytes "text/html") := by
    unfold IsHeaderField NoLineEnd
    decide
  intro h hh
  rcases List.mem_cons.mp hh with rfl | hh
  · exact ⟨hlength.1, hlength.2, not_mem_of_digits hdigits rfl, not_mem_of_digits hdigits rfl⟩
  · obtain rfl := List.mem_singleton.mp hh
    exact htype

/-- What a C string keeps of a field is a field. -/
theorem isHeaderField_cField {h : Bytes × Bytes} (hh : IsHeaderField h) : IsHeaderField (cField h) := by
  have hsub (s : Bytes) {b : Byte} (hb : b ∉ s) : b ∉ cStr s := fun hmem => hb ((cStr_isPrefix s).subset hmem)
  obtain ⟨⟨hcr, hlf⟩, hcolon, hcr', hlf'⟩ := hh
  exact ⟨⟨hsub _ hcr, hsub _ hlf⟩, hsub _ hcolon, hsub _ hcr', hsub _ hlf'⟩

theorem cField_eq_self_iff {h : Bytes × Bytes} : cField h = h ↔ (0 : Byte) ∉ h.1 ∧ (0 : Byte) ∉ h.2 := by
  rw [cField, Prod.ext_iff]
  exact and_congr cStr_eq_self_iff cStr_eq_self_iff

theorem describes_inj {a b : Bytes} (h : describes a = describes b) : a.length = b.length :=
  decimal_inj (Prod.mk.inj (List.cons.inj h).1).2

/-- The text of a response whose headers are those of a page. -/
theorem framed_toString_iff {r : Response} {code : ResponseCode} {calls : List LuaCall}
    {beyondCrlf sent : Bytes} (hfull : r.fullResponse = []) (hstatus : r.status = some code)
    (hheaders : r.headers = (addedHeaders calls).map cField ++ describes r.content)
    (hsent : r.toString beyondCrlf = some sent) :
    Framed sent calls ↔ cStr beyondCrlf = [] ∧ ∀ h ∈ addedHeaders calls, Harmless h := by
  have hsplit (hfields : ∀ h ∈ addedHeaders calls, IsHeaderField h) :
      SplitsAs sent (codeOnLine code) ((addedHeaders calls).map cField ++ describes r.content)
        (cStr beyondCrlf ++ r.content) := by
    rw [← hheaders]
    apply splitsAs_toString hfull hstatus ?_ hsent
    rw [hheaders, List.forall_mem_append, List.forall_mem_map]
    exact ⟨fun h hh => isHeaderField_cField (hfields h hh), isHeaderField_describes r.content⟩
  constructor
  · intro hframed
    obtain ⟨code', body, hsplit', hlength⟩ := hframed
    have hfields : ∀ h ∈ addedHeaders calls, IsHeaderField h := by
      obtain ⟨line, -, -, -, hall⟩ := id hsplit'
      exact (List.forall_mem_append.mp hall).1
    obtain ⟨-, hlists, hbody⟩ := hsplit'.unique (hsplit hfields)
    obtain ⟨hadded, hdescribes⟩ := List.append_inj hlists (List.length_map cField).symm
    -- both bodies have the length that is written, so nothing comes in front of the content
    have hcount := describes_inj hdescribes
    rw [hbody, List.length_append] at hcount
    refine ⟨List.length_eq_zero_iff.mp (by omega), ?_⟩
    intro h hh
    have hself : cField h = h := by
      have hmap : (addedHeaders calls).map cField = (addedHeaders calls).map id := by
        rw [List.map_id, ← hadded]
      exact List.map_inj_left.mp hmap h hh
    obtain ⟨hname, hvalue⟩ := cField_eq_self_iff.mp hself
    exact ⟨hfields h hh, hname, hvalue, hlength h hh⟩
  · intro hcond
    obtain ⟨hnil, hharmless⟩ := hcond
    have hself : (addedHeaders calls).map cField = addedHeaders calls := by
      have hmap : (addedHeaders calls).map cField = (addedHeaders calls).map id :=
        List.map_inj_left.mpr fun h hh => cField_eq_self_iff.mpr ⟨(hharmless h hh).2.1, (hharmless h hh).2.2.1⟩
      rw [hmap, List.map_id]
    have hparts := hsplit fun h hh => (hharmless h hh).1
    rw [hself, hnil, List.nil_append] at hparts
    exact ⟨_, _, hparts, fun h hh => (hharmless h hh).2.2.2⟩

/-- **Which pages keep the framing.**  Nothing follows `MiscString::crlf` in memory, and every header that is
added has a name and a value that fit on a line, have no NUL, and do not name the length of the body. -/
theorem framed_page_iff {host : Host} {lua : LuaInterpreter} {h : StaticFileHandler} {request : Request}
    {calls : List LuaCall} (hpage : ServesPage host lua h request calls) (beyondCrlf : Bytes) :
    ∃ res sent, handleRequest (withLua host lua) h request .new = .ok (.ok, res) ∧
      res.toString beyondCrlf = some sent ∧
        (Framed sent calls ↔ cStr beyondCrlf = [] ∧ ∀ h ∈ addedHeaders calls, Harmless h) := by
  obtain ⟨res, code, hok, hfull, hstatus, hheaders⟩ := handleRequest_page hpage
  obtain ⟨sent, hsent⟩ := Response.toString_isSome hstatus beyondCrlf
  exact ⟨res, sent, hok, hsent, framed_toString_iff hfull hstatus hheaders hsent⟩

/-- A host with one empty page. -/
def onePage : Host :=
  ⟨fun name => if name = bytes "/www/p.htm" then some [] else none, fun _ => false, fun _ _ _ => none, id⟩

theorem servesPage_onePage (calls : List LuaCall) :
    ServesPage onePage (fun _ _ => some calls) ⟨[], bytes "/www"⟩ { Request.fresh with path := bytes "/p.htm" }
      calls :=
  ⟨bytes "/p.htm", bytes "htm", [], bytes "put([[]])", by decide, by decide, by decide, by decide, rfl, by decide, rfl⟩

theorem framed_page_iff_length :
    ∃ res sent, handleRequest (withLua onePage fun _ _ => some [.addheader (bytes "content-length") (bytes "9")])
        ⟨[], bytes "/www"⟩ { Request.fresh with path := bytes "/p.htm" } .new = .ok (.ok, res) ∧
      res.toString [0] = some sent ∧
        ¬ Framed sent [.addheader (bytes "content-length") (bytes "9")] := by
  obtain ⟨res, sent, hok, hsent, hiff⟩ := framed_page_iff (servesPage_onePage _) [0]
  refine ⟨res, sent, hok, hsent, ?_⟩
  rw [hiff]
  intro hcond
  exact (hcond.2 _ List.mem_cons_self).2.2.2 (by unfold IsContentLength; decide)

/-- A value with the end of a line in it becomes a header of its own. -/
theorem addheader_splits_line :
    ∃ res sent, handleRequest (withLua onePage fun _ _ => some [.addheader (bytes "A") (bytes "b\r\nC: d")])
        ⟨[], bytes "/www"⟩ { Request.fresh with path := bytes "/p.htm" } .new = .ok (.ok, res) ∧
      res.toString [0] = some sent ∧
        sent = bytes "HTTP/1.0 200 OK\r\nA: b\r\nC: d\r\nContent-Length: 0\r\nContent-Type: text/html\r\n\r\n" ∧
        ¬ Framed sent [.addheader (bytes "A") (bytes "b\r\nC: d")] := by
  obtain ⟨res, code, hok, hfull, hstatus, hheaders⟩ :=
    handleRequest_page (servesPage_onePage [.addheader (bytes "A") (bytes "b\r\nC: d")])
  have hres : res = ⟨some 200, [(bytes "A", bytes "b\r\nC: d"), (bytes "Content-Length", bytes "0"),
      (bytes "Content-Type", bytes "text/html")], [], []⟩ := (Prod.mk.inj (Except.ok.inj (hok.symm.trans rfl))).2
  have hsent : res.toString [0] = some
      (bytes "HTTP/1.0 200 OK\r\nA: b\r\nC: d\r\nContent-Length: 0\r\nContent-Type: text/html\r\n\r\n") := by
    rw [hres]
    decide
  refine ⟨res, _, hok, hsent, rfl, ?_⟩
  rw [framed_toString_iff hfull hstatus hheaders hsent]
  intro hcond
  have hvalue := (hcond.2 _ List.mem_cons_self).1.2.2
  exact hvalue.1 (by decide)

end Webserver.StaticFile
