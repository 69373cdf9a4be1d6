import Webserver.Http.BodyFraming
import Webserver.ReverseProxy.HeaderEdit
import Webserver.StaticFile.LuaHeaders

/-!
# The request in Lua

The functions by which a Lua page asks for the parts of its request.  Each one pushes a member of the request as a C
string, so a page sees nothing behind a NUL; only `post` reads the whole body.

* `luaView_toRequest` — what a page sees of an accepted request.
* `luaView_eq_iff` — which requests a page cannot tell apart.
-/

namespace Webserver.StaticFile

open ByteString CxxString Http OrderedMap

/-! ### The functions -/

/-- A function that pushes a member of the request. -/
def pushMember (member : Request → Bytes) (request : Request) : Bytes := cStr (member request)

/-- `lua_rawrequest`. -/
def Lua.rawrequest : Request → Bytes := pushMember Request.rawRequest

/-- `lua_method`. -/
def Lua.method : Request → Bytes := pushMember Request.method

/-- `lua_uri`. -/
def Lua.uri : Request → Bytes := pushMember Request.uri

/-- `lua_path`. -/
def Lua.path : Request → Bytes := pushMember Request.path

/-- `lua_version`. -/
def Lua.version : Request → Bytes := pushMember Request.version

/-- `lua_body`. -/
def Lua.body : Request → Bytes := pushMember Request.body

/-- **What a page can ask for**, but for `post`. -/
structure LuaView where
  rawrequest : Bytes
  method : Bytes
  uri : Bytes
  path : Bytes
  version : Bytes
  headers : LuaTable
  body : Bytes
  get : Except StdException LuaTable

def luaView (request : Request) : LuaView :=
  ⟨Lua.rawrequest request, Lua.method request, Lua.uri request, Lua.path request, Lua.version request,
    luaHeaders request, Lua.body request, luaGet request⟩

/-! ### Where a NUL can be -/

theorem nul_notMem {s : Bytes} (h : ∀ b ∈ s, ¬ IsControl b) : (0 : Byte) ∉ s :=
  fun hmem => h 0 hmem (by decide)

theorem nul_notMem_renderHeaders (hts : List HeaderText) : (0 : Byte) ∉ renderHeaders hts := by
  have hcrlf : (0 : Byte) ∉ crlf := by decide
  have hcontinuations : ∀ cs : List Continuation, (0 : Byte) ∉ renderContinuations cs := by
    intro cs hmem
    obtain ⟨c, -, hc⟩ := List.mem_flatMap.mp hmem
    rw [Continuation.render, List.mem_append, List.mem_append] at hc
    rcases hc with (hc | hc) | hc
    · exact absurd (c.isBlank 0 hc) (by decide)
    · exact nul_notMem c.notControl hc
    · exact hcrlf hc
  intro hmem
  obtain ⟨h, -, hh⟩ := List.mem_flatMap.mp hmem
  rw [HeaderText.render_eq, List.append_assoc h.name, List.mem_append, List.mem_append, List.mem_append] at hh
  rcases hh with ((hh | hh) | hh) | hh
  · exact nul_notMem (fun b hb => (h.isToken b hb).not_control) hh
  · exact nul_notMem (colonSpace_notControl h.notControl) hh
  · exact hcrlf hh
  · exact hcontinuations _ hh

/-- Only the body of a request can have a NUL. -/
theorem nul_notMem_head (m : RequestText) : (0 : Byte) ∉ m.head m.headerTexts := by
  rw [RequestText.head, requestLine_eq, List.mem_append, List.mem_append, List.mem_append, not_or, not_or, not_or]
  exact ⟨⟨⟨nul_notMem (lineText_notControl m), by decide⟩, nul_notMem_renderHeaders _⟩, by decide⟩

theorem cStr_render (m : RequestText) : cStr m.render = m.head m.headerTexts ++ cStr m.body :=
  cStr_append_of_notMem (nul_notMem_head m) m.body

/-! ### What a page sees -/

/-- **The parts of a request in Lua**: all of them are there, but what can have a NUL in it is cut at the first one. -/
theorem luaView_toRequest (m : RequestText) :
    Lua.method m.toRequest = m.method ∧ Lua.uri m.toRequest = m.uri ∧ Lua.version m.toRequest = m.version ∧
      Lua.body m.toRequest = cStr m.body ∧ Lua.rawrequest m.toRequest = m.head m.headerTexts ++ cStr m.body := by
  refine ⟨?_, ?_, ?_, rfl, cStr_render m⟩
  · exact cStr_eq_self (nul_notMem fun b hb => (m.method_token b hb).not_control)
  · exact cStr_eq_self (nul_notMem fun b hb => (m.uri_byte b hb).1)
  · exact cStr_eq_self (nul_notMem (version_notControl m))

/-- The text in front of the body determines the parts in it. -/
theorem head_append_inj {m m' : RequestText} {x x' : Bytes}
    (h : m.head m.headerTexts ++ x = m'.head m'.headerTexts ++ x') :
    m.method = m'.method ∧ m.uri = m'.uri ∧ m.version = m'.version ∧ m.headers = m'.headers ∧ x = x' := by
  have hsplit : ∀ (m : RequestText) (x : Bytes), m.head m.headerTexts ++ x =
      m.method ++ byte ' ' :: (m.uri ++ byte ' ' :: (m.version ++ byte '\r' :: (byte '\n' ::
        (renderHeaders m.headerTexts ++ crlf ++ x)))) := by
    intro m x
    simp [RequestText.head, RequestText.requestLine, crlf, bytes]
  rw [hsplit, hsplit] at h
  obtain ⟨hmethod, h⟩ := (append_cons_inj m.space_notMem_method m'.space_notMem_method).mp h
  obtain ⟨huri, h⟩ := (append_cons_inj m.space_notMem_uri m'.space_notMem_uri).mp h
  obtain ⟨hversion, h⟩ :=
    (append_cons_inj (cr_notMem (version_notControl m)) (cr_notMem (version_notControl m'))).mp h
  have hblock := (List.cons.inj h).2
  obtain ⟨hheaders, hrender⟩ := headerBlock_unique hblock
  rw [hrender] at hblock
  exact ⟨hmethod, huri, hversion, hheaders, List.append_cancel_left hblock⟩

/-- **Which requests a page can tell apart**, without `post`: those whose texts differ in front of a NUL.  So it can
tell any two requests apart that have no NUL in their bodies; and it gets the whole text, or the whole body, exactly
if there is none. -/
theorem luaView_eq_iff (m m' : RequestText) :
    (luaView m.toRequest = luaView m'.toRequest ↔ cStr m.render = cStr m'.render) ∧
      ((0 : Byte) ∉ m.body → (0 : Byte) ∉ m'.body →
        (luaView m.toRequest = luaView m'.toRequest ↔ m.toRequest = m'.toRequest)) ∧
      (Lua.rawrequest m.toRequest = m.render ↔ (0 : Byte) ∉ m.body) ∧
      (Lua.body m.toRequest = m.body ↔ (0 : Byte) ∉ m.body) := by
  have hview : luaView m.toRequest = luaView m'.toRequest ↔ cStr m.render = cStr m'.render := by
    constructor
    · exact congrArg LuaView.rawrequest
    · intro h
      rw [cStr_render, cStr_render] at h
      obtain ⟨hmethod, huri, hversion, hheaders, hbody⟩ := head_append_inj h
      have hraw : Lua.rawrequest m.toRequest = Lua.rawrequest m'.toRequest := by
        rw [(luaView_toRequest m).2.2.2.2, (luaView_toRequest m').2.2.2.2, h]
      have hget : luaGet m.toRequest = luaGet m'.toRequest := by
        show luaGet { m.toRequest with uri := m.uri } = luaGet { m'.toRequest with uri := m'.uri }
        rw [huri]
        rfl
      have hpath : Lua.path m.toRequest = Lua.path m'.toRequest := by
        show cStr (pathOf m.uri) = cStr (pathOf m'.uri)
        rw [huri]
      have hheaders' : luaHeaders m.toRequest = luaHeaders m'.toRequest := by
        show m.headers.foldl _ _ = m'.headers.foldl _ _
        rw [hheaders]
      rw [luaView, luaView, LuaView.mk.injEq]
      exact ⟨hraw, congrArg cStr hmethod, congrArg cStr huri, hpath, congrArg cStr hversion, hheaders', hbody, hget⟩
  refine ⟨hview, ?_, ?_, cStr_eq_self_iff⟩
  · intro hnul hnul'
    rw [hview, cStr_render, cStr_render, cStr_eq_self hnul, cStr_eq_self hnul']
    constructor
    · intro h
      exact RequestText.toRequest_unique List.prefix_rfl (by rw [show m.render = m'.render from h])
    · exact congrArg Request.rawRequest
  · rw [(luaView_toRequest m).2.2.2.2, ← cStr_eq_self_iff]
    show m.head m.headerTexts ++ cStr m.body = m.head m.headerTexts ++ m.body ↔ _
    exact List.append_right_inj _

/-- A form with a NUL in it. -/
def nulForm (last : Byte) : RequestText :=
  blockRequest [⟨bytes "Content-Length", bytes "8", [], by decide, by decide, by decide⟩]
    (bytes "k=" ++ [0] ++ bytes "&x=" ++ [last, 33]) le_rfl

/-- `post` shows what is behind the NUL. -/
example : cStr (nulForm 49).render = cStr (nulForm 50).render ∧
    (luaPost (nulForm 49).toRequest).find (bytes "x") ≠ (luaPost (nulForm 50).toRequest).find (bytes "x") := by
  decide

end Webserver.StaticFile
