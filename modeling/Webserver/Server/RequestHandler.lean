import Webserver.Config.ConfigTree

/-!
# Request handlers and their initialization

The classes derived from `RequestHandler`, each with the members its `Init` sets.  `createByName` is the
table that `REGISTER_REQUEST_HANDLER` fills, looked up by a C string.

A handler that `Init` accepts has stored the prefix it was initialized with, and the settings its class
insists on are not empty; this is `ConfiguredAt`.
-/

namespace Webserver.Server

open ByteString ConfigTree

/-- `RequestHandler::Status`. -/
inductive Status where
  | ok
  | error
  deriving DecidableEq, Repr

structure StaticFileHandler where
  pathPrefix : Bytes
  root : Bytes
  deriving DecidableEq

structure ReverseProxyHandler where
  originalUriPrefix : Bytes
  remoteHost : Bytes
  remotePort : Bytes
  deriving DecidableEq

/-- A handler object of any of the registered classes. -/
inductive RequestHandler where
  | echoHandler
  | notFoundHandler
  | statusHandler
  | staticFileHandler (h : StaticFileHandler)
  | reverseProxyHandler (h : ReverseProxyHandler)
  deriving DecidableEq

/-- `RequestHandler::CreateByName`: a default-constructed object of the class, or `nullptr`. -/
def createByName (type : Bytes) : Option RequestHandler :=
  let type := cStr type
  if type = bytes "EchoHandler" then some .echoHandler
  else if type = bytes "NotFoundHandler" then some .notFoundHandler
  else if type = bytes "ReverseProxyHandler" then some (.reverseProxyHandler ⟨[], [], []⟩)
  else if type = bytes "StaticFileHandler" then some (.staticFileHandler ⟨[], []⟩)
  else if type = bytes "StatusHandler" then some .statusHandler
  else none

/-- One statement of the child block: a setting takes the token after its name. -/
def readSetting (name : Bytes) (value : Bytes) (statement : NginxConfigStatement) : Bytes :=
  match statement.tokens with
  | first :: second :: _ => if first = name then second else value
  | _ => value

/-- The loop over the child block, for one setting. -/
def readSettings (name : Bytes) (value : Bytes) (config : NginxConfig) : Bytes :=
  config.statements.foldl (readSetting name) value

/-- `StaticFileHandler::Init`. -/
def StaticFileHandler.init (h : StaticFileHandler) (uriPrefix : Bytes) (config : NginxConfig) :
    Status × StaticFileHandler :=
  let h := { h with root := readSettings (bytes "root") h.root config }
  if h.root ≠ [] then (.ok, { h with pathPrefix := uriPrefix }) else (.error, h)

/-- `ReverseProxyHandler::Init`. -/
def ReverseProxyHandler.init (h : ReverseProxyHandler) (uriPrefix : Bytes) (config : NginxConfig) :
    Status × ReverseProxyHandler :=
  let h := { h with
    remoteHost := readSettings (bytes "remote_host") h.remoteHost config
    remotePort := readSettings (bytes "remote_port") h.remotePort config }
  if h.remoteHost ≠ [] ∧ h.remotePort ≠ [] then (.ok, { h with originalUriPrefix := uriPrefix })
  else (.error, h)

/-- The virtual method `Init`. -/
def RequestHandler.init (handler : RequestHandler) (uriPrefix : Bytes) (config : NginxConfig) :
    Status × RequestHandler :=
  match handler with
  | .echoHandler => (.ok, .echoHandler)
  | .notFoundHandler => (.ok, .notFoundHandler)
  | .statusHandler => (.ok, .statusHandler)
  | .staticFileHandler h => ((h.init uriPrefix config).1, .staticFileHandler (h.init uriPrefix config).2)
  | .reverseProxyHandler h =>
    ((h.init uriPrefix config).1, .reverseProxyHandler (h.init uriPrefix config).2)

/-- **What a successful `Init` leaves behind** when it was called with this prefix. -/
def RequestHandler.ConfiguredAt (uriPrefix : Bytes) : RequestHandler → Prop
  | .staticFileHandler h => h.pathPrefix = uriPrefix ∧ h.root ≠ []
  | .reverseProxyHandler h => h.originalUriPrefix = uriPrefix ∧ h.remoteHost ≠ [] ∧ h.remotePort ≠ []
  | _ => True

theorem StaticFileHandler.init_ok {h : StaticFileHandler} {uriPrefix : Bytes} {config : NginxConfig}
    (hok : (h.init uriPrefix config).1 = .ok) :
    (h.init uriPrefix config).2.pathPrefix = uriPrefix ∧ (h.init uriPrefix config).2.root ≠ [] := by
  rw [StaticFileHandler.init] at hok ⊢
  split_ifs at hok ⊢ with hroot
  exact ⟨rfl, hroot⟩

theorem ReverseProxyHandler.init_ok {h : ReverseProxyHandler} {uriPrefix : Bytes} {config : NginxConfig}
    (hok : (h.init uriPrefix config).1 = .ok) :
    (h.init uriPrefix config).2.originalUriPrefix = uriPrefix ∧
      (h.init uriPrefix config).2.remoteHost ≠ [] ∧ (h.init uriPrefix config).2.remotePort ≠ [] := by
  rw [ReverseProxyHandler.init] at hok ⊢
  split_ifs at hok ⊢ with hremote
  exact ⟨rfl, hremote⟩

theorem RequestHandler.configuredAt_init {handler : RequestHandler} {uriPrefix : Bytes}
    {config : NginxConfig} (hok : (handler.init uriPrefix config).1 = .ok) :
    (handler.init uriPrefix config).2.ConfiguredAt uriPrefix := by
  cases handler with
  | echoHandler => exact trivial
  | notFoundHandler => exact trivial
  | statusHandler => exact trivial
  | staticFileHandler h => exact StaticFileHandler.init_ok hok
  | reverseProxyHandler h => exact ReverseProxyHandler.init_ok hok

/-- The fallback that `ParseRequestHandlers` and `StaticFileHandler` rely on is registered. -/
theorem createByName_notFoundHandler :
    createByName (bytes "NotFoundHandler") = some .notFoundHandler := by decide

end Webserver.Server
