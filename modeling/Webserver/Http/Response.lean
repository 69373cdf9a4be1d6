import Webserver.Support.ByteString
import Mathlib.Data.Nat.Digits.Defs

/-!
# `Response` and its serialization

The class of `response.h` and `response.cc`.  A `ResponseCode` is an `int`: any number can be cast into
it.  The status of an object that nothing was assigned to is `none`, and reading it is undefined.

`ToString` appends the array `MiscString::crlf` as a C string.  The array holds two bytes and no NUL, so
the bytes that follow it in memory, up to the first NUL, are appended as well; they are a parameter of
the serialization.
-/

namespace Webserver.Http

open ByteString

abbrev ResponseCode := ℤ

namespace ResponseCode

def ok : ResponseCode := 200
def created : ResponseCode := 201
def accepted : ResponseCode := 202
def noContent : ResponseCode := 204
def movedPermanently : ResponseCode := 301
def movedTemporarily : ResponseCode := 302
def notModified : ResponseCode := 304
def badRequest : ResponseCode := 400
def unauthorized : ResponseCode := 401
def forbidden : ResponseCode := 403
def notFound : ResponseCode := 404
def internalServerError : ResponseCode := 500
def notImplemented : ResponseCode := 501
def badGateway : ResponseCode := 502
def serviceUnavailable : ResponseCode := 503

end ResponseCode

structure Response where
  status : Option ResponseCode
  headers : List (Bytes × Bytes)
  content : Bytes
  fullResponse : Bytes
  deriving DecidableEq

/-! ### Texts -/

/-- The code and the reason phrase of every status code of HTTP/1.0. -/
def statusTexts : List (ResponseCode × String) :=
  [(.ok, "200 OK"), (.created, "201 Created"), (.accepted, "202 Accepted"),
    (.noContent, "204 No Content"), (.movedPermanently, "301 Moved Permanently"),
    (.movedTemporarily, "302 Moved Temporarily"), (.notModified, "304 Not Modified"),
    (.badRequest, "400 Bad Request"), (.unauthorized, "401 Unauthorized"),
    (.forbidden, "403 Forbidden"), (.notFound, "404 Not Found"),
    (.internalServerError, "500 Internal Server Error"),
    (.notImplemented, "501 Not Implemented"), (.badGateway, "502 Bad Gateway"),
    (.serviceUnavailable, "503 Service Unavailable")]

/-- The text of a `switch` over the codes, whose default is the one of `internal_server_error`. -/
def textOf (status : ResponseCode) : String :=
  ((statusTexts.find? fun p => p.1 = status).map Prod.snd).getD "500 Internal Server Error"

/-- `StatusString::ToString`. -/
def statusString (status : ResponseCode) : Bytes :=
  bytes "HTTP/1.0 " ++ bytes (textOf status) ++ bytes "\r\n"

/-- The title and the heading of the default bodies. -/
def htmlTitle (status : ResponseCode) : Bytes := (bytes (textOf status)).drop 4

/-- The heading, which for `no_content` lacks the first word of the title. -/
def htmlHeading (status : ResponseCode) : Bytes :=
  if status = .noContent then bytes "204 Content" else bytes (textOf status)

/-- `DefaultResponse::ToHtml`. -/
def toHtml (status : ResponseCode) : Bytes :=
  if status = .ok then []
  else bytes "<html><head><title>" ++ htmlTitle status ++ bytes "</title></head><body><h1>" ++
    htmlHeading status ++ bytes "</h1></body></html>"

/-- `std::to_string` of a size. -/
def decimal (n : ℕ) : Bytes := (Nat.toDigits 10 n).map byte

namespace Response

/-- The default constructor. -/
def new : Response := ⟨none, [], [], []⟩

/-- A response with a body and the two headers that describe it. -/
def withBody (status : ResponseCode) (content type : Bytes) : Response :=
  ⟨some status, [(bytes "Content-Length", decimal content.length), (bytes "Content-Type", type)],
    content, []⟩

/-- `Response::DefaultResponse`. -/
def defaultResponse (status : ResponseCode) : Response :=
  withBody status (toHtml status) (bytes "text/html")

/-- `Response::PlainTextResponse`. -/
def plainTextResponse (text : Bytes) : Response := withBody .ok text (bytes "text/plain")

/-- `Response::HtmlResponse`. -/
def htmlResponse (html : Bytes) : Response := withBody .ok html (bytes "text/html")

/-- `Response::AddHeader`. -/
def addHeader (r : Response) (name value : Bytes) : Response :=
  { r with headers := r.headers ++ [(name, value)] }

/-- `Response::SetBody`. -/
def setBody (r : Response) (body : Bytes) : Response := { r with content := body }

/-- `Response::SetStatus`. -/
def setStatus (r : Response) (code : ResponseCode) : Response := { r with status := some code }

/-- `Response::SetFullResponse`. -/
def setFullResponse (r : Response) (response : Bytes) : Response := { r with fullResponse := response }

/-- A `const char[]` read as a C string, when `beyond` is what memory holds behind the array. -/
def readCString (array beyond : Bytes) : Bytes := cStr (array ++ beyond)

def headerLine (h : Bytes × Bytes) : Bytes := h.1 ++ bytes ": " ++ h.2 ++ bytes "\r\n"

/-- `Response::ToString`. -/
def toString (beyondCrlf : Bytes) (r : Response) : Option Bytes :=
  if r.fullResponse ≠ [] then some r.fullResponse
  else do
    let status ← r.status
    some (statusString status ++ r.headers.flatMap headerLine ++
      readCString (bytes "\r\n") beyondCrlf ++ r.content)

/-- A response with an assigned status can be serialized. -/
theorem toString_isSome {r : Response} {status : ResponseCode} (h : r.status = some status)
    (beyondCrlf : Bytes) : ∃ s, r.toString beyondCrlf = some s := by
  rw [toString, h]
  split_ifs
  · exact ⟨_, rfl⟩
  · exact ⟨_, rfl⟩

end Response

/-- When a NUL follows the array, the empty line is what it should be. -/
example : (Response.plainTextResponse (bytes "hi")).toString [0] =
    some (bytes "HTTP/1.0 200 OK\r\nContent-Length: 2\r\nContent-Type: text/plain\r\n\r\nhi") := by
  decide

end Webserver.Http
