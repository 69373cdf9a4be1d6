import Webserver.Support.BoundedLoop
import Webserver.Support.LineEdit
import Webserver.Http.Request
import Webserver.Http.Response
import Webserver.Server.RequestHandler

/-!
# `ReverseProxyHandler::HandleRequest`

`sendRequestToOrigin` with its loop over redirects, and what is made of the reply.  The network is a
parameter: a `Round` for every turn of the loop says whether the remote host is found and reached, and
what it replies.  Every text that is written is recorded with the `remote_host` it was made for.

An exception is one of the standard library or a `boost::system::system_error`.  `std::stoi` is called
several times in a turn on a `remote_port` that does not change; the first call stands for all of them.
-/

namespace Webserver.ReverseProxy

open BoundedLoop ByteString CxxString Http LineEdit Numeral Server

/-- What can be thrown. -/
inductive Exn where
  | std (e : StdException)
  | system
  deriving DecidableEq

/-- What the network does in one turn of the loop. -/
structure Round where
  /-- `resolver.resolve` finds the host, and does not throw. -/
  resolves : Bool
  /-- `connect` leaves the error `not_found`. -/
  notFound : Bool
  handshake : Bool
  /-- `write` does not throw. -/
  writes : Bool
  /-- What the reads append up to the first error. -/
  reply : Bytes
  /-- The value of that error. -/
  ec : ℤ

/-- The variables of the loop: the member `remote_host`, the number of the turn, and the texts that have
been written. -/
structure Sending where
  remoteHost : Bytes
  round : ℕ
  sent : List (Bytes × Bytes)
  deriving DecidableEq

/-- The string that stands for a failure. -/
def errorReply : Bytes := bytes "RequestHandler::Error"

/-! ### The request for the remote host -/

/-- The URI without the first segment, unless the prefix is `/`. -/
def forwardedUri (originalUriPrefix remoteUri : Bytes) : Except StdException Bytes := do
  let remoteUri ←
    if originalUriPrefix ≠ bytes "/" then
      erase remoteUri (some 0) (findFrom (bytes "/") remoteUri (some 1))
    else pure remoteUri
  return if remoteUri = [] then bytes "/" else remoteUri

/-- The request with the URI for the remote host. -/
def originRequest (originalUriPrefix : Bytes) (request : Request) (remoteUri : Bytes) :
    Except StdException Request := do
  let remoteUri ← forwardedUri originalUriPrefix remoteUri
  request.setUri remoteUri

/-- The `Connection` header is changed so that the remote host ends the connection. -/
def closeConnection (remoteRequest : Bytes) : Except StdException Bytes :=
  if find (bytes "Connection") remoteRequest ≠ npos then
    replaceLine (bytes "\r\n") (bytes "Connection") (bytes "Connection: close") remoteRequest
  else .ok remoteRequest

/-- The text that is written, made from the raw request. -/
def remoteRequest (port : ℤ) (remoteHost rawRequest : Bytes) : Except StdException Bytes := do
  let remoteRequest ← replaceLine (bytes "\r\n") (bytes "Host") (bytes "Host: " ++ remoteHost) rawRequest
  if port = 443 then
    let remoteRequest ← closeConnection remoteRequest
    replaceLine (bytes "\r\n") (bytes "HTTP/1") (bytes "HTTP/1.0") remoteRequest
  else return remoteRequest

/-! ### The loop over redirects -/

/-- The host that a redirect names. -/
def redirectHost (reply : Bytes) : Except StdException Bytes :=
  let location := find (bytes "Location") reply
  let www := findFrom (bytes "www") reply location
  let slash := findFrom (bytes "/") reply www
  substr reply www (Pos.sub slash www)

/-- Resolving, connecting and, on port 443, the handshake: a result if one of them ends the call. -/
def connect (port : ℤ) (round : Round) : Option (Except Exn Bytes) :=
  if round.resolves then
    if round.notFound then some (.ok errorReply)
    else if port = 443 ∧ ¬ round.handshake then some (.ok errorReply)
    else none
  else some (.error .system)

/-- The end of the loop: `eof`, `success` and the short read of SSL are what is expected. -/
def finalReply (round : Round) : Bytes :=
  if round.ec = 2 ∨ round.ec = 0 ∨ round.ec = 335544539 then round.reply else errorReply

/-- One turn of the `do` loop. -/
def originBody (remotePort rawRequest : Bytes) (net : ℕ → Round) (s : Sending) :
    Sending ⊕ (Sending × Except Exn Bytes) :=
  match stoi remotePort with
  | .error e => .inr (s, .error (.std e))
  | .ok port =>
    match connect port (net s.round) with
    | some result => .inr (s, result)
    | none =>
      match remoteRequest port s.remoteHost rawRequest with
      | .error e => .inr (s, .error (.std e))
      | .ok text =>
        if (net s.round).writes then
          let s := { s with sent := s.sent ++ [(s.remoteHost, text)] }
          if find (bytes "HTTP/1.1 302 Found") (net s.round).reply ≠ npos then
            match redirectHost (net s.round).reply with
            | .error e => .inr (s, .error (.std e))
            | .ok host => .inl { s with remoteHost := host, round := s.round + 1 }
          else .inr (s, .ok (finalReply (net s.round)))
        else .inr (s, .error .system)

/-- What the loop is entered with. -/
def ReverseProxyHandler.start (h : ReverseProxyHandler) : Sending := ⟨h.remoteHost, 0, []⟩

/-- `sendRequestToOrigin`, with a bound on the number of redirects. -/
def sendRequestToOrigin (fuel : ℕ) (net : ℕ → Round) (h : ReverseProxyHandler) (request : Request)
    (remoteUri : Bytes) : Option (Sending × Except Exn Bytes) :=
  match originRequest h.originalUriPrefix request remoteUri with
  | .error e => some (ReverseProxyHandler.start h, .error (.std e))
  | .ok request =>
    runLoop (originBody h.remotePort request.rawRequest net) fuel (ReverseProxyHandler.start h)

/-! ### The response -/

/-- The tokens that `tokenGenerator` finds between spaces.  `boost::tokenizer` is taken to return the maximal runs of
characters other than the space, in their order.  The tokenizer keeps positions in the by-value argument of
`tokenGenerator`, which is gone when it is used; this is left out, and harmless only where the copy shares its
characters with the caller's string, as the copy-on-write strings of g++ 4.8 (`Dockerfile`) do. -/
def tokens (s : Bytes) : List Bytes := (s.splitOn (byte ' ')).filter (· ≠ [])

/-- `getRemoteResponseCode`. -/
def getRemoteResponseCode (response : Bytes) : Except StdException Bytes := do
  let endFirstLine := findFirstOf (bytes "\r\n") response
  let firstLine ← substr response (some 0) endFirstLine
  match (tokens firstLine)[1]? with
  | none => return []
  | some code =>
    return if code = bytes "200" then bytes "200"
      else if code = bytes "302" then bytes "302"
      else if code = bytes "404" then bytes "404"
      else if code = bytes "500" then bytes "404"
      else bytes "500"

/-- The status for a code. -/
def setRemoteStatus (code : Bytes) (response : Response) : Response :=
  if code = bytes "200" then response.setStatus .ok
  else if code = bytes "404" then response.setStatus .notFound
  else if code = bytes "500" then response.setStatus .internalServerError
  else response

/-- What `HandleRequest` makes of the result of `sendRequestToOrigin`. -/
def respond (response : Response) : Except Exn Bytes → Except Exn (Status × Response)
  | .error e => .error e
  | .ok buffer =>
    if buffer = errorReply then .ok (.error, response.setStatus .notFound)
    else
      match getRemoteResponseCode buffer with
      | .error e => .error (.std e)
      | .ok code => .ok (.ok, (setRemoteStatus code response).setFullResponse buffer)

/-- `ReverseProxyHandler::HandleRequest`.  A redirect stays in the member `remote_host`. -/
def handleRequest (fuel : ℕ) (net : ℕ → Round) (h : ReverseProxyHandler) (request : Request)
    (response : Response) : Option (ReverseProxyHandler × Except Exn (Status × Response)) := do
  let (s, result) ← sendRequestToOrigin fuel net h request request.uri
  return ({ h with remoteHost := s.remoteHost }, respond response result)

/-- The response-code helper cuts from the front, which is always in range. -/
theorem getRemoteResponseCode_isOk (response : Bytes) :
    ∃ code, getRemoteResponseCode response = .ok code := by
  rw [getRemoteResponseCode, substr_zero, ok_bind]
  cases (tokens (takeCount (findFirstOf (bytes "\r\n") response) response))[1]? with
  | none => exact ⟨_, rfl⟩
  | some code => exact ⟨_, rfl⟩

/-- An exception of the standard library comes out of `sendRequestToOrigin`. -/
theorem respond_eq_error_iff {response : Response} {result : Except Exn Bytes} {e : Exn} :
    respond response result = .error e ↔ result = .error e := by
  cases result with
  | error e' => exact Iff.intro (fun h => congrArg _ (Except.error.inj h)) (fun h => congrArg _ (Except.error.inj h))
  | ok buffer =>
    refine iff_of_false ?_ (fun h => by cases h)
    obtain ⟨code, hcode⟩ := getRemoteResponseCode_isOk buffer
    rw [respond, hcode]
    split_ifs
    · exact fun h => by cases h
    · exact fun h => by cases h

end Webserver.ReverseProxy
