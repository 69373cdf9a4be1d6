import Webserver.Support.OrderedMap
import Webserver.Server.RequestHandler

/-!
# Request handlers of a configuration

`NginxServerConfigParser::ParseRequestHandlers`: the top-level `path` and `default` statements fill the
handler map, where the first handler of a key stays, and the table of type names, where the last one
does.  At the end there is a handler for the empty key, so the map is a `HandlerMap`: a map that carries
this fact, on which the search for a handler relies.
-/

namespace Webserver.Server

open ByteString ConfigTree OrderedMap

/-- **A map of handlers with a default handler.** -/
structure HandlerMap (η : Type*) where
  map : Map Bytes η
  default_isSome : (map.find []).isSome

abbrev HandlerInfo := Map Bytes Bytes

/-- A handler that is to be stored under `key`, with the name that `handler_info_out` shows. -/
def register (key infoKey type : Bytes) (child : Option NginxConfig)
    (out : Map Bytes RequestHandler × HandlerInfo) : Map Bytes RequestHandler × HandlerInfo :=
  match createByName type, child with
  | some handler, some config =>
    if (handler.init key config).1 = .ok then
      (out.1.insert key (handler.init key config).2, out.2.set infoKey type)
    else out
  | _, _ => out

/-- One turn of the loop over the statements. -/
def parseStatement (out : Map Bytes RequestHandler × HandlerInfo) (statement : NginxConfigStatement) :
    Map Bytes RequestHandler × HandlerInfo :=
  match statement.tokens with
  | [] => out
  | first :: args =>
    if first = bytes "path" then
      match args with
      | key :: type :: _ => register key key type statement.childBlock out
      | _ => out
    else if first = bytes "default" then
      match args with
      | type :: _ => register [] (bytes "(default)") type statement.childBlock out
      | _ => out
    else out

/-- Ensure that a default handler is made. -/
def ensureDefault (out : Map Bytes RequestHandler × HandlerInfo) :
    Map Bytes RequestHandler × HandlerInfo :=
  if out.1.find [] = none then
    -- `CreateByName` finds the class here, by `createByName_notFoundHandler`
    (out.1.insert [] (RequestHandler.notFoundHandler.init [] .empty).2,
      out.2.set (bytes "(default)") (bytes "NotFoundHandler"))
  else out

theorem ensureDefault_isSome (out : Map Bytes RequestHandler × HandlerInfo) :
    ((ensureDefault out).1.find []).isSome := by
  rw [ensureDefault]
  split_ifs with h
  · exact Map.find_insert_self_isSome _ _ _
  · exact Option.isSome_iff_ne_none.mpr h

/-- What `ParseRequestHandlers` returns and stores. -/
structure ParsedHandlers where
  count : ℕ
  handlers : HandlerMap RequestHandler
  handlerInfo : HandlerInfo

/-- `ParseRequestHandlers`, with the contents of its two out-parameters before the call. -/
def parseRequestHandlers (config : NginxConfig) (handlersOut : Map Bytes RequestHandler)
    (handlerInfoOut : HandlerInfo) : ParsedHandlers :=
  let out := ensureDefault (config.statements.foldl parseStatement (handlersOut, handlerInfoOut))
  ⟨out.1.size, ⟨out.1, ensureDefault_isSome _⟩, out.2⟩

/-- The call in `main`, on two new maps. -/
def parseFreshHandlers (config : NginxConfig) : ParsedHandlers :=
  parseRequestHandlers config .empty .empty

/-! ### Every stored handler is configured for its key -/

/-- The invariant of the handler map. -/
def AllConfigured (m : Map Bytes RequestHandler) : Prop :=
  ∀ key handler, m.find key = some handler → handler.ConfiguredAt key

theorem AllConfigured.insert {m : Map Bytes RequestHandler} (hm : AllConfigured m) {key : Bytes}
    {handler : RequestHandler} (h : handler.ConfiguredAt key) : AllConfigured (m.insert key handler) := by
  intro key' handler' hfind
  rw [Map.find_insert] at hfind
  split_ifs at hfind with hkey
  · subst hkey
    cases hold : m.find key' with
    | none =>
      rw [hold] at hfind
      obtain rfl := Option.some.inj hfind
      exact h
    | some old =>
      rw [hold] at hfind
      obtain rfl := Option.some.inj hfind
      exact hm key' old hold
  · exact hm key' handler' hfind

theorem allConfigured_register {key infoKey type : Bytes} {child : Option NginxConfig}
    {out : Map Bytes RequestHandler × HandlerInfo} (h : AllConfigured out.1) :
    AllConfigured (register key infoKey type child out).1 := by
  unfold register
  split
  · split_ifs with hok
    · exact h.insert (RequestHandler.configuredAt_init hok)
    · exact h
  · exact h

theorem allConfigured_parseStatement {out : Map Bytes RequestHandler × HandlerInfo}
    (h : AllConfigured out.1) (statement : NginxConfigStatement) :
    AllConfigured (parseStatement out statement).1 := by
  rw [parseStatement]
  split
  · exact h
  · split_ifs
    · split
      · exact allConfigured_register h
      · exact h
    · split
      · exact allConfigured_register h
      · exact h
    · exact h

theorem allConfigured_foldl {ss : List NginxConfigStatement} :
    ∀ {out : Map Bytes RequestHandler × HandlerInfo}, AllConfigured out.1 →
      AllConfigured (ss.foldl parseStatement out).1 := by
  induction ss with
  | nil => exact fun h => h
  | cons s ss ih => exact fun h => ih (allConfigured_parseStatement h s)

/-- **Registered handlers.**  After a call on new maps, the handler under a key was initialized with that
key. -/
theorem allConfigured_parseFreshHandlers (config : NginxConfig) :
    AllConfigured (parseFreshHandlers config).handlers.map := by
  have hempty : AllConfigured (Map.empty : Map Bytes RequestHandler) := by
    intro key handler h
    rw [Map.find_empty] at h
    cases h
  have hall : AllConfigured (config.statements.foldl parseStatement (.empty, .empty)).1 :=
    allConfigured_foldl hempty
  show AllConfigured (ensureDefault _).1
  rw [ensureDefault]
  split_ifs
  · exact hall.insert trivial
  · exact hall

end Webserver.Server
