import Mathlib.Data.List.Infix
import Webserver.Support.CxxString
import Webserver.Http.Request
import Webserver.Http.Response
import Webserver.Server.RequestHandler
import Webserver.StaticFile.LuaScanner

/-!
# `StaticFileHandler::HandleRequest`

What is outside of the program is a `Host`: the files that can be opened, whether reading one fails, the
Lua interpreter with the functions that `do_lua` registers, and the markdown converter.
-/

namespace Webserver.StaticFile

open ByteString CxxString Http Server

/-- The file system, the Lua interpreter and the markdown library. -/
structure Host where
  openFile : Bytes → Option Bytes
  readFails : Bytes → Bool
  /-- A script run on a request: the response it leaves and the body it puts, or an error. -/
  runLua : Bytes → Request → Response → Option (Response × Bytes)
  markdown : Bytes → Bytes

/-- The mappings defined for the webserver. -/
def mappings : List (Bytes × Bytes) :=
  [(bytes "gif", bytes "image/gif"), (bytes "htm", bytes "text/html"), (bytes "html", bytes "text/html"),
    (bytes "jpg", bytes "image/jpeg"), (bytes "png", bytes "image/png"), (bytes "md", bytes "text/html")]

/-- `extension_to_type`. -/
def extensionToType (extension : Bytes) : Bytes :=
  ((mappings.find? fun m => m.1 = extension).map Prod.snd).getD (bytes "text/plain")

/-- The path without the prefix and without the post data. -/
def filePath (h : StaticFileHandler) (request : Request) : Except StdException Bytes := do
  let path ← substr request.path (some h.pathPrefix.length) npos
  match find (bytes "?") path with
  | none => return path
  | some q => substr path (some 0) (some q)

/-- The file extension. -/
def extensionOf (path : Bytes) : Except StdException Bytes :=
  match findLastOf (bytes ".") path with
  | none => .ok []
  | some lastDot =>
    match findLastOf (bytes "/") path with
    | none => substr path (some (lastDot + 1)) npos
    | some lastSlash =>
      if lastSlash < lastDot then substr path (some (lastDot + 1)) npos else .ok []

/-- The name that is given to the file system: `full_path` as a C string. -/
def openedName (h : StaticFileHandler) (request : Request) : Except StdException Bytes := do
  let path ← filePath h request
  return cStr (h.root ++ path)

/-- `do_lua`. -/
def doLua (host : Host) (file : Bytes) (request : Request) (response : Response) :
    Option (Response × Bytes) := do
  let script ← (luaScript file).join
  host.runLua (cStr script) request response

/-- The end of `HandleRequest`: fill out the rest of the response. -/
def fillResponse (response : Response) (body type : Bytes) : Response :=
  ((response.setBody body).addHeader (bytes "Content-Length") (decimal body.length)).addHeader
    (bytes "Content-Type") type

/-- `HandleRequest` after the file has been opened. -/
def respondWithFile (host : Host) (name file extension type : Bytes) (request : Request)
    (response : Response) : Status × Response :=
  let response := response.setStatus .ok
  if type = bytes "text/html" then
    match doLua host file request response with
    | none => (.error, response)
    | some (response, body) =>
      if host.readFails name then (.error, response)
      else
        let body := if extension = bytes "md" then host.markdown body else body
        (.ok, fillResponse response body type)
  else if host.readFails name then (.error, response)
  else (.ok, fillResponse response file type)

/-- `StaticFileHandler::HandleRequest`. -/
def handleRequest (host : Host) (h : StaticFileHandler) (request : Request) (response : Response) :
    Except StdException (Status × Response) := do
  let path ← filePath h request
  let extension ← extensionOf path
  let type := extensionToType extension
  let name := cStr (h.root ++ path)
  match host.openFile name with
  | none => return (.ok, .defaultResponse .notFound)
  | some file => return respondWithFile host name file extension type request response

/-! ### The name in terms of the request -/

/-- The rest of the path behind the prefix, up to the first question mark. -/
def fileRest (pathPrefix path : Bytes) : Bytes := (path.drop pathPrefix.length).takeWhile (· ≠ byte '?')

/-- Cutting at the first question mark. -/
theorem cut_question (path : Bytes) :
    (match find (bytes "?") path with
      | none => Except.ok path
      | some q => substr path (some 0) (some q)) = .ok (path.takeWhile (· ≠ byte '?')) := by
  rw [← takeCount_find (byte '?') path]
  show (match find [byte '?'] path with
    | none => Except.ok path
    | some q => substr path (some 0) (some q)) = _
  cases find [byte '?'] path with
  | none => rfl
  | some q => exact substr_zero path (some q)

theorem filePath_of_le {h : StaticFileHandler} {request : Request}
    (hle : h.pathPrefix.length ≤ request.path.length) :
    filePath h request = .ok (fileRest h.pathPrefix request.path) := by
  rw [filePath, substr_of_le hle, ok_bind]
  exact cut_question _

/-- The path of a request that the router has sent here. -/
theorem filePath_eq {h : StaticFileHandler} {request : Request} (hfront : h.pathPrefix <+: request.path) :
    filePath h request = .ok (fileRest h.pathPrefix request.path) := filePath_of_le hfront.length_le

theorem openedName_eq {h : StaticFileHandler} {request : Request}
    (hfront : h.pathPrefix <+: request.path) :
    openedName h request = .ok (cStr (h.root ++ fileRest h.pathPrefix request.path)) := by
  rw [openedName, filePath_eq hfront]
  rfl

/-- What is left of the path is a piece of it. -/
theorem fileRest_isInfix (pathPrefix path : Bytes) : fileRest pathPrefix path <:+: path :=
  (List.takeWhile_prefix _).isInfix.trans (List.drop_suffix _ _).isInfix

end Webserver.StaticFile
