import Webserver.Support.LexicalPath
import Webserver.Http.RequestLanguage
import Webserver.Server.Session
import Webserver.StaticFile.StaticFileHandler

/-!
# The document root

The name that a static file handler opens is the root followed by what the path has behind the prefix,
without a separator in between.  The path of a request has no `..`, so the name can only leave the root at
the place where the two strings meet: the last component of the root and the first one of the rest become
one.  `openedName_below_root_iff` says when this stays below the root.
-/

namespace Webserver.StaticFile

open ByteString ConfigTree Http LexicalPath Server

/-! ### The two parts of the name -/

/-- What `c_str` leaves of the part behind the root. -/
def behindRoot (root rest : Bytes) : Bytes := if (0 : Byte) ∈ root then [] else cStr rest

theorem cStr_append_eq (root rest : Bytes) :
    cStr (root ++ rest) = cStr root ++ behindRoot root rest := by
  rw [behindRoot]
  split_ifs with h
  · rw [cStr_append_of_mem h, List.append_nil]
  · rw [cStr_append_of_notMem h, cStr_eq_self h]

/-- An empty root as a C string comes from a NUL, which hides the rest too. -/
theorem behindRoot_of_cStr_nil {root : Bytes} (hne : root ≠ []) (h : cStr root = []) (rest : Bytes) :
    behindRoot root rest = [] := by
  rw [behindRoot, if_pos]
  by_contra hnot
  rw [cStr_eq_self hnot] at h
  exact hne h

theorem behindRoot_isInfix (root rest : Bytes) : behindRoot root rest <:+: rest := by
  rw [behindRoot]
  split_ifs
  · exact List.nil_infix
  · exact (cStr_isPrefix rest).isInfix

/-- The path that an accepted request carries has no `..` in it. -/
theorem not_dots_path {s : Bytes} {t : ThreadState} {r : Request}
    (h : parse ThreadState.fresh s = some (t, some r)) : ¬ dotDot <:+: r.path := by
  obtain ⟨-, m, -, rfl⟩ := parse_fresh_good_iff.mp h
  exact not_dots_pathOf m.uri

/-! ### Where the name leads -/

/-- **When a request stays below the document root.**  The name that is opened for a request that the
session dispatches to a static file handler is the root with the rest of the path right behind it, as a C
string.  It resolves to the root or something below it if and only if the two are `Contained`: they meet
at a slash or one of them adds nothing, or the root ends in a component that is resolved away. -/
theorem openedName_below_root_iff {config : NginxConfig} {s : Bytes} {t : ThreadState} {r : Request}
    {key : Bytes} {h : StaticFileHandler} (hparse : parse ThreadState.fresh s = some (t, some r))
    (hdispatch : Dispatched (parseFreshHandlers config).handlers r key (.staticFileHandler h))
    (cwd : Location) :
    ∃ name, openedName h r = .ok name ∧ name = cStr (h.root ++ fileRest key r.path) ∧
      (resolve cwd (cStr h.root) <+: resolve cwd name ↔
        Contained cwd (cStr h.root) (behindRoot h.root (fileRest key r.path))) := by
  obtain ⟨⟨hkey, hroot⟩, hboundary⟩ := hdispatch.configuredAt
  rw [← hkey] at hboundary ⊢
  refine ⟨_, openedName_eq hboundary.1, rfl, ?_⟩
  have hdots : ¬ dotDot <:+: behindRoot h.root (fileRest h.pathPrefix r.path) := fun hpiece =>
    not_dots_path hparse (hpiece.trans ((behindRoot_isInfix _ _).trans (fileRest_isInfix _ _)))
  rw [cStr_append_eq]
  exact resolve_append_below_iff cwd (fun hnil => behindRoot_of_cStr_nil hroot hnil _) hdots

/-- `default StaticFileHandler { root <root>; }` -/
def defaultStatic (root : Bytes) : NginxConfig :=
  ⟨[⟨[bytes "default", bytes "StaticFileHandler"], some ⟨[⟨[bytes "root", root], none⟩]⟩⟩]⟩

/-- A URI that starts with a slash. -/
theorem openedName_below_root_iff_slash :
    ∃ name, openedName ⟨[], bytes "/w"⟩ (getRequest (bytes "/x") []) = .ok name ∧
      name = cStr (bytes "/w" ++ fileRest [] (getRequest (bytes "/x") []).path) ∧
      (resolve [] (cStr (bytes "/w")) <+: resolve [] name ↔ Contained [] (cStr (bytes "/w"))
        (behindRoot (bytes "/w") (fileRest [] (getRequest (bytes "/x") []).path))) := by
  have hparse : parse ThreadState.fresh (bytes "GET /x HTTP/1.0\r\n\r\n") =
      some (⟨.good, Request.fresh⟩, some (getRequest (bytes "/x") [])) := by decide
  have hdispatch : Dispatched (parseFreshHandlers (defaultStatic (bytes "/w"))).handlers
      (getRequest (bytes "/x") []) [] (.staticFileHandler ⟨[], bytes "/w"⟩) :=
    ⟨by decide, by decide⟩
  exact openedName_below_root_iff hparse hdispatch []

/-- A URI that does not start with a slash: `GET 2/x` opens `/w2/x`, next to the root `/w`. -/
theorem openedName_escapes_root :
    ∃ config s t r key h name, parse ThreadState.fresh s = some (t, some r) ∧
      Dispatched (parseFreshHandlers config).handlers r key (.staticFileHandler h) ∧
      openedName h r = .ok name ∧ ¬ resolve [] (cStr h.root) <+: resolve [] name :=
  ⟨defaultStatic (bytes "/w"), bytes "GET 2/x HTTP/1.0\r\n\r\n", ⟨.good, Request.fresh⟩,
    getRequest (bytes "2/x") [], [], ⟨[], bytes "/w"⟩, bytes "/w2/x", by decide,
    ⟨by decide, by decide⟩, by decide, by decide⟩

end Webserver.StaticFile
