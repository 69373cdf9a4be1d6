import Webserver.Config.AcceptedFront
import Webserver.Server.HandleRequest
import Webserver.Server.Registration
import Webserver.Server.ServerSettings

/-!
# `main`

The program reads one configuration file, takes the port and the handlers from it, and runs the server.  The
constructor of `NginxServerConfigParser` does not look at what `Parse` returns, so the server runs with what has been
read of a file that is rejected, and a file that cannot be opened is an empty one.

* `main_append` — what comes behind an accepted configuration changes neither the port nor its handlers.
* `main_toString` — a configuration file can be formatted.
-/

namespace Webserver.Server

open ByteString ConfigTree ConfigParser ConfigCursor ConfigLanguage OrderedMap
open Http (decimal)

/-- The files that can be opened. -/
abbrev Files := Bytes → Option Bytes

/-- `NginxConfigParser::Parse` with a file name, into a fresh config. -/
def parseFile (files : Files) (fileName : Bytes) : Option (Bool × NginxConfig) :=
  match files fileName with
  | none => some (false, .empty)
  | some text => parse text

/-- The constructor of `NginxServerConfigParser`. -/
def readConfig (files : Files) (configFile : Bytes) : Option NginxConfig :=
  (parseFile files configFile).map Prod.snd

/-- How `main` ends, or goes on: with the value that it returns after a line on `std::cerr`, or in `Server::Run`
after what it has printed. -/
inductive MainEnd where
  | returns (value : ℤ) (cerr : Bytes)
  | runs (printed : Bytes) (port : ℤ) (handlers : HandlerMap RequestHandler) (handlerInfo : HandlerInfo)

/-- What `main` prints before it runs the server. -/
def startText (parsed : ParsedHandlers) (port : ℤ) : Bytes :=
  decimal parsed.handlers.map.size ++ bytes " handlers parsed\nRunning server on port " ++ decimalInt port ++
    bytes "...\n\n"

/-- `main`, with `argv`; `none` is undefined behaviour. -/
def main (files : Files) (argv : List Bytes) : Option MainEnd :=
  match argv with
  | [_, configFile] => do
    let config ← readConfig files configFile
    let serverSettings ← parseServerSettings config
    if serverSettings.port = -1 then
      some (.returns 1 (bytes "Missing port <number> in config file\n"))
    else
      let parsed := parseFreshHandlers config
      some (.runs (startText parsed serverSettings.port) serverSettings.port parsed.handlers parsed.handlerInfo)
  | _ => some (.returns 1 (bytes "Usage: webserver <config_file>\n"))

/-! ### Statements in front -/

section Front

variable {c c' : NginxConfig}

/-- A known port stays. -/
theorem parseServerSettings_append {port : ℤ} (hport : port ≠ -1) (hfront : c.statements <+: c'.statements)
    (hc : parseServerSettings c = some ⟨port⟩) (htokens : ∀ s ∈ c'.statements, s.tokens ≠ []) :
    parseServerSettings c' = some ⟨port⟩ := by
  obtain ⟨more, hmore⟩ := hfront
  rw [parseServerSettings, ← hmore, List.foldlM_append]
  show (parseServerSettings c).bind _ = _
  rw [hc]
  exact foldlM_known (fun s hs => htokens s (by rw [← hmore]; exact List.mem_append_right _ hs)) hport

theorem registrations_append (hfront : c.statements <+: c'.statements) : registrations c <+: registrations c' := by
  obtain ⟨more, hmore⟩ := hfront
  rw [registrations, registrations, ← hmore, List.filterMap_append]
  exact List.prefix_append _ _

/-- The first registration of a key stays. -/
theorem find_append (hfront : c.statements <+: c'.statements) {key : Bytes}
    (hkey : ∃ r ∈ registrations c, r.key = key) :
    (parseFreshHandlers c').handlers.map.find key = (parseFreshHandlers c).handlers.map.find key := by
  have hstored : ∀ {d : NginxConfig}, registrations c <+: registrations d →
      storedUnder d key = (registrations c).find? fun r => r.key = key := by
    intro d hd
    obtain ⟨more, hmore⟩ := hd
    have hall : ∃ rest, allRegistrations d = registrations c ++ rest := by
      rw [allRegistrations, ← hmore]
      split_ifs
      · exact ⟨more, rfl⟩
      · exact ⟨more ++ [fallback], List.append_assoc _ _ _⟩
    obtain ⟨rest, hrest⟩ := hall
    obtain ⟨r, hr, hrkey⟩ := hkey
    have hsome : ((registrations c).find? fun r => r.key = key).isSome := by
      rw [List.find?_isSome]
      exact ⟨r, hr, decide_eq_true hrkey⟩
    rw [storedUnder, hrest, List.find?_append, Option.or_of_isSome hsome]
  rw [find_handlers, find_handlers, hstored List.prefix_rfl, hstored (registrations_append hfront)]

end Front

/-- **What comes behind an accepted configuration** with a port changes neither the port nor any handler that it
registers, be it another configuration or something that `Parse` rejects. -/
theorem main_append {files : Files} {program configFile front rest : Bytes} {c : NginxConfig} {port : ℤ}
    (hfile : files configFile = some (front ++ rest)) (hfront : parse front = some (true, c))
    (hc : parseServerSettings c = some ⟨port⟩) (hport : port ≠ -1) :
    ∃ printed handlers handlerInfo,
      main files [program, configFile] = some (.runs printed port handlers handlerInfo) ∧
        ∀ r ∈ registrations c, handlers.map.find r.key = (parseFreshHandlers c).handlers.map.find r.key := by
  obtain ⟨ok, c', hparse, hprefix⟩ := parse_append hfront rest
  have htokens : ∀ s ∈ c'.statements, s.tokens ≠ [] :=
    fun s hs => ((allStatements_of_parse hparse).of_mem hs).1
  have hread : readConfig files configFile = some c' := by
    rw [readConfig, parseFile, hfile]
    show (parse (front ++ rest)).map Prod.snd = _
    rw [hparse]
    rfl
  have hmain : main files [program, configFile] = some (.runs (startText (parseFreshHandlers c') port) port
      (parseFreshHandlers c').handlers (parseFreshHandlers c').handlerInfo) := by
    rw [main, hread]
    show (parseServerSettings c').bind _ = _
    rw [parseServerSettings_append hport hprefix hc htokens]
    exact if_neg hport
  exact ⟨_, _, _, hmain, fun r hr => find_append hprefix ⟨r, hr, rfl⟩⟩

/-- A brace too many behind the last block. -/
theorem main_append_brace :
    let front := bytes "port 8080; path /e EchoHandler \x7b\x7d"
    parse (front ++ bytes "\x7d") = some (false,
        ⟨[⟨[bytes "port", bytes "8080"], none⟩, ⟨[bytes "path", bytes "/e", bytes "EchoHandler"], some .empty⟩]⟩) ∧
      ∃ printed handlers handlerInfo, main (fun _ => some (front ++ bytes "\x7d")) [[], []] =
        some (.runs printed 8080 handlers handlerInfo) := by
  intro front
  have hfront : parse front = some (true,
      ⟨[⟨[bytes "port", bytes "8080"], none⟩, ⟨[bytes "path", bytes "/e", bytes "EchoHandler"], some .empty⟩]⟩) := rfl
  obtain ⟨printed, handlers, handlerInfo, hmain, -⟩ :=
    @main_append (fun _ => some (front ++ bytes "\x7d")) [] [] front (bytes "\x7d") _ 8080 rfl hfront rfl
      (by decide)
  exact ⟨rfl, printed, handlers, handlerInfo, hmain⟩

/-- **Formatting** an accepted configuration file does not change what the program does. -/
theorem main_toString {files files' : Files} {program configFile text : Bytes} {c : NginxConfig}
    (hparse : parse text = some (true, c)) (hfile : files configFile = some text)
    (hfile' : files' configFile = some (c.toString 0)) :
    main files [program, configFile] = main files' [program, configFile] := by
  have hread : readConfig files configFile = readConfig files' configFile := by
    rw [readConfig, readConfig, parseFile, parseFile, hfile, hfile']
    show (parse text).map _ = (parse (c.toString 0)).map _
    rw [hparse, parse_toString (wellFormed_of_parse hparse) 0]
  rw [main, main, hread]

end Webserver.Server
