import Webserver.StaticFile.DocumentRoot
import Webserver.StaticFile.LuaFunctions

/-!
# The type of a file

The handler takes the extension from the path of the request, but opens the root with that path behind it, and
opens it as a C string.  So a NUL in the path hides the extension that the type comes from, and where the path has
no component of its own the extension of the root takes part.

* `extensionOf_eq` — the extension that the code finds is that of the last component.
* `SameHandling` — extensions that the handler does not tell apart.
* `typeFollowsFile_iff` — when the type is that of the file that has been opened.
-/

namespace Webserver.StaticFile

open ByteString CxxString Http LexicalPath Server

/-! ### Extensions -/

/-- **The extension of a name**: what is behind the last dot of the last component. -/
def nameExtension (name : Bytes) : Bytes :=
  if byte '.' ∈ lastComponent name then behindLast (byte '.') (lastComponent name) else []

theorem lastComponent_append (s t : Bytes) :
    lastComponent (s ++ t) = if byte '/' ∈ t then lastComponent t else lastComponent s ++ t :=
  behindLast_append (byte '/') s t

theorem lastComponent_of_notMem {s : Bytes} (h : byte '/' ∉ s) : lastComponent s = s := behindLast_of_notMem h

theorem nameExtension_of_notMem {s : Bytes} (h : byte '/' ∉ s ∧ byte '.' ∉ s) : nameExtension s = [] := by
  rw [nameExtension, lastComponent_of_notMem h.1, if_neg h.2]

/-- The extension of a text behind another one. -/
theorem nameExtension_append (s t : Bytes) : nameExtension (s ++ t) =
    if byte '/' ∈ t ∨ byte '.' ∈ t then nameExtension t
    else if byte '.' ∈ lastComponent s then nameExtension s ++ t else [] := by
  have hdots (a b : Bytes) : byte '.' ∈ a ++ b ↔ byte '.' ∈ a ∨ byte '.' ∈ b := List.mem_append
  by_cases hslash : byte '/' ∈ t
  · rw [if_pos (.inl hslash), nameExtension, lastComponent_append, if_pos hslash, nameExtension]
  · rw [nameExtension, lastComponent_append, if_neg hslash]
    by_cases hdot : byte '.' ∈ t
    · rw [if_pos ((hdots _ t).mpr (.inr hdot)), if_pos (.inr hdot), behindLast_append, if_pos hdot, nameExtension,
        lastComponent_of_notMem hslash, if_pos hdot]
    · rw [if_neg (not_or.mpr ⟨hslash, hdot⟩), nameExtension]
      by_cases hs : byte '.' ∈ lastComponent s
      · rw [if_pos ((hdots _ t).mpr (.inl hs)), if_pos hs, if_pos hs, behindLast_append, if_neg hdot]
      · rw [if_neg fun h => ((hdots _ t).mp h).elim hs hdot, if_neg hs]

/-- The last occurrence of a character. -/
theorem findLastOf_byte {a b : Bytes} {c : Byte} (h : c ∉ b) : findLastOf [c] (a ++ c :: b) = some a.length :=
  findLastOf_append_cons (List.mem_singleton.mpr rfl) fun _ hx hc => h (List.mem_singleton.mp hc ▸ hx)

theorem findLastOf_byte_of_notMem {s : Bytes} {c : Byte} (h : c ∉ s) : findLastOf [c] s = none :=
  findLastOf_eq_none_iff.mpr fun _ hx hc => h (List.mem_singleton.mp hc ▸ hx)

/-- **The extension that the code finds.** -/
theorem extensionOf_eq (path : Bytes) : extensionOf path = .ok (nameExtension path) := by
  by_cases hdot : byte '.' ∈ path
  swap
  · have hnone : findLastOf (bytes ".") path = none := findLastOf_byte_of_notMem hdot
    have hlast : byte '.' ∉ lastComponent path := fun h => hdot ((List.rtakeWhile_suffix _ _).subset h)
    rw [extensionOf, hnone, nameExtension, if_neg hlast]
  obtain ⟨a, b, rfl, hb⟩ := exists_last_split hdot
  have hlastDot : findLastOf (bytes ".") (a ++ byte '.' :: b) = some a.length := findLastOf_byte hb
  have hcut : substr (a ++ byte '.' :: b) (some (a.length + 1)) npos = .ok b := by
    have hdrop : (a ++ byte '.' :: b).drop (a.length + 1) = b := by simp
    rw [substr_of_le (by simp), hdrop]
    rfl
  rw [extensionOf, hlastDot]
  by_cases hslash : byte '/' ∈ b
  · -- the last dot is in a directory
    obtain ⟨m, b', rfl, hb'⟩ := exists_last_split hslash
    have hsplit : a ++ byte '.' :: (m ++ byte '/' :: b') = (a ++ byte '.' :: m) ++ byte '/' :: b' := by simp
    have hlastSlash : findLastOf (bytes "/") (a ++ byte '.' :: (m ++ byte '/' :: b')) =
        some (a ++ byte '.' :: m).length := by
      rw [hsplit]
      exact findLastOf_byte hb'
    have hcomponent : lastComponent (a ++ byte '.' :: (m ++ byte '/' :: b')) = b' := by
      rw [hsplit]
      exact behindLast_append_cons hb'
    have hno : byte '.' ∉ b' := fun h => hb (List.mem_append_right m (List.mem_cons_of_mem _ h))
    have hlater : ¬ (a ++ byte '.' :: m).length < a.length := by
      rw [List.length_append]
      omega
    simp only [hlastSlash, if_neg hlater]
    rw [nameExtension, hcomponent, if_neg hno]
  by_cases hslash' : byte '/' ∈ a
  · obtain ⟨a', m, rfl, hm⟩ := exists_last_split hslash'
    have hsplit : a' ++ byte '/' :: m ++ byte '.' :: b = a' ++ byte '/' :: (m ++ byte '.' :: b) := by simp
    have hno : byte '/' ∉ m ++ byte '.' :: b := by
      rw [List.mem_append, List.mem_cons, not_or, not_or]
      exact ⟨hm, by decide, hslash⟩
    have hlastSlash : findLastOf (bytes "/") (a' ++ byte '/' :: m ++ byte '.' :: b) = some a'.length := by
      rw [hsplit]
      exact findLastOf_byte hno
    have hcomponent : lastComponent (a' ++ byte '/' :: m ++ byte '.' :: b) = m ++ byte '.' :: b := by
      rw [hsplit]
      exact behindLast_append_cons hno
    have hbefore : a'.length < (a' ++ byte '/' :: m).length := by simp
    simp only [hlastSlash, if_pos hbefore]
    rw [hcut, nameExtension, hcomponent, if_pos (by simp), behindLast_append_cons hb]
  · have hno : byte '/' ∉ a ++ byte '.' :: b := by
      rw [List.mem_append, List.mem_cons, not_or, not_or]
      exact ⟨hslash', by decide, hslash⟩
    have hlastSlash : findLastOf (bytes "/") (a ++ byte '.' :: b) = none := findLastOf_byte_of_notMem hno
    simp only [hlastSlash]
    rw [hcut, nameExtension, lastComponent_of_notMem hno, if_pos hdot, behindLast_append_cons hb]

/-! ### What the extension decides -/

/-- **Two extensions that the handler does not tell apart**: the same `Content-Type`, hence the same choice of
`do_lua`, and the same choice of markdown. -/
def SameHandling (e e' : Bytes) : Prop :=
  extensionToType e = extensionToType e' ∧ (e = bytes "md" ↔ e' = bytes "md")

instance (e e' : Bytes) : Decidable (SameHandling e e') := inferInstanceAs (Decidable (_ ∧ _))

theorem SameHandling.refl (e : Bytes) : SameHandling e e := ⟨rfl, Iff.rfl⟩

theorem SameHandling.symm {e e' : Bytes} (h : SameHandling e e') : SameHandling e' e := ⟨h.1.symm, h.2.symm⟩

theorem SameHandling.trans {e e' e'' : Bytes} (h : SameHandling e e') (h' : SameHandling e' e'') :
    SameHandling e e'' := ⟨h.1.trans h'.1, h.2.trans h'.2⟩

theorem respondWithFile_congr {e e' : Bytes} (h : SameHandling e e') (host : Host) (name file : Bytes)
    (request : Request) (response : Response) :
    respondWithFile host name file e (extensionToType e) request response =
      respondWithFile host name file e' (extensionToType e') request response := by
  obtain ⟨htype, hmd⟩ := h
  rw [htype]
  simp only [respondWithFile, hmd]

/-- A host with empty files, whose markdown converter shows that it has been called. -/
def emptyFiles : Host := ⟨fun _ => some [], fun _ => false, fun _ _ response => some (response, []), fun _ => [0]⟩

theorem respondWithFile_emptyFiles (name e : Bytes) (request : Request) :
    respondWithFile emptyFiles name [] e (extensionToType e) request .new =
      (.ok, fillResponse (Response.new.setStatus .ok) (if e = bytes "md" then [0] else []) (extensionToType e)) := by
  have hlua : doLua emptyFiles [] request (Response.new.setStatus .ok) = some (Response.new.setStatus .ok, []) := by
    have hscript : luaScript [] = some (some (bytes "put([[]])")) := by decide
    rw [doLua, hscript]
    rfl
  rw [respondWithFile]
  by_cases htype : extensionToType e = bytes "text/html"
  · simp only [if_pos htype, hlua]
    rfl
  · have hmd : e ≠ bytes "md" := fun h => htype (by rw [h]; decide)
    rw [if_neg htype, if_neg hmd]
    rfl

/-- Extensions that are handled in the same way on this host are not told apart. -/
theorem sameHandling_of_emptyFiles {name e e' : Bytes} {request : Request}
    (h : respondWithFile emptyFiles name [] e (extensionToType e) request .new =
      respondWithFile emptyFiles name [] e' (extensionToType e') request .new) : SameHandling e e' := by
  rw [respondWithFile_emptyFiles, respondWithFile_emptyFiles] at h
  have hresponse := (Prod.mk.inj h).2
  constructor
  · exact (Prod.mk.inj (List.cons.inj (List.cons.inj (congrArg Response.headers hresponse)).2).1).2
  · have hbody : (if e = bytes "md" then [0] else []) = (if e' = bytes "md" then [(0 : Byte)] else []) :=
      congrArg Response.content hresponse
    split_ifs at hbody with h₁ h₂ h₂
    · exact iff_of_true h₁ h₂
    · exact iff_of_false h₁ h₂

/-- No type is mapped to an extension with a NUL. -/
theorem sameHandling_nil_of_mem {e : Bytes} (h : (0 : Byte) ∈ e) : SameHandling e [] := by
  have hkeys : ∀ m ∈ mappings, (0 : Byte) ∉ m.1 := by decide
  have hnone : (mappings.find? fun m => m.1 = e) = none := by
    rw [List.find?_eq_none]
    intro m hm he
    exact hkeys m hm (of_decide_eq_true he ▸ h)
  refine ⟨?_, iff_of_false ?_ (by decide)⟩
  · rw [extensionToType, hnone]
    rfl
  · rintro rfl
    exact absurd h (by decide)

/-! ### The type and the file -/

/-- **The type follows the file**: whatever file is opened, it is sent as one with the extension of the name that
it has been opened by. -/
def TypeFollowsFile (h : StaticFileHandler) (request : Request) : Prop :=
  ∀ host name file response, openedName h request = .ok name → host.openFile name = some file →
    handleRequest host h request response = .ok (respondWithFile host name file (nameExtension name)
      (extensionToType (nameExtension name)) request response)

/-- What is behind the first NUL. -/
def behindNul (s : Bytes) : Bytes := s.drop ((cStr s).length + 1)

/-- The extension of `rest`, the path behind the prefix, is handled like that of the name.  Without a NUL, only the
root can make a difference, with an extension that goes on into `rest`; a NUL hides the extension behind it. -/
def FollowsName (root rest : Bytes) : Prop :=
  if (0 : Byte) ∈ root then SameHandling (nameExtension rest) (nameExtension (cStr root))
  else if (0 : Byte) ∈ rest then SameHandling (nameExtension (behindNul rest)) (nameExtension (root ++ cStr rest))
  else byte '/' ∈ rest ∨ byte '.' ∈ rest ∨ byte '.' ∉ lastComponent root ∨
    SameHandling [] (nameExtension root ++ rest)

theorem typeFollowsFile_iff_sameHandling {h : StaticFileHandler} {request : Request} {path : Bytes}
    (hpath : filePath h request = .ok path) :
    TypeFollowsFile h request ↔ SameHandling (nameExtension path) (nameExtension (cStr (h.root ++ path))) := by
  have hname : openedName h request = .ok (cStr (h.root ++ path)) := by
    rw [openedName, hpath]
    rfl
  constructor
  · intro hfollows
    have hrun := hfollows emptyFiles _ [] .new hname rfl
    rw [handleRequest_of_opened hpath (extensionOf_eq path) (show emptyFiles.openFile _ = some [] from rfl)] at hrun
    exact sameHandling_of_emptyFiles (Except.ok.inj hrun)
  · intro hsame host name file response hname' hopen
    obtain rfl := Except.ok.inj (hname.symm.trans hname')
    rw [handleRequest_of_opened hpath (extensionOf_eq path) hopen, respondWithFile_congr hsame]

/-- The extension of a path with a NUL is handled like the one behind the NUL. -/
theorem sameHandling_behindNul (front back : Bytes) :
    SameHandling (nameExtension (front ++ 0 :: back)) (nameExtension back) := by
  rw [List.append_cons, nameExtension_append]
  split_ifs with hown hdot
  · exact .refl _
  · rw [nameExtension_of_notMem (not_or.mp hown)]
    have hlast : lastComponent (front ++ [0]) = lastComponent front ++ [0] := by
      rw [lastComponent_append, if_neg (by decide)]
    refine sameHandling_nil_of_mem (List.mem_append_left back ?_)
    rw [nameExtension, if_pos hdot, hlast, behindLast_concat, if_neg (by decide)]
    exact List.mem_append_right _ List.mem_cons_self
  · rw [nameExtension_of_notMem (not_or.mp hown)]
    exact .refl _

theorem sameHandling_iff_followsName (root rest : Bytes) :
    SameHandling (nameExtension rest) (nameExtension (cStr (root ++ rest))) ↔ FollowsName root rest := by
  rw [FollowsName]
  split_ifs with hroot hrest
  · rw [cStr_append_of_mem hroot]
  · rw [cStr_append_of_notMem hroot]
    obtain ⟨front, back, hsplit, hfront⟩ := List.eq_append_cons_of_mem hrest
    have hbehind : behindNul rest = back := by
      have hcut : cStr rest = front := by
        rw [hsplit, cStr_append_of_notMem hfront]
        exact List.append_nil front
      rw [behindNul, hcut, hsplit]
      simp
    rw [hbehind, hsplit]
    exact ⟨(sameHandling_behindNul front back).symm.trans, (sameHandling_behindNul front back).trans⟩
  · have hname : cStr (root ++ rest) = root ++ rest := by
      rw [cStr_append_of_notMem hroot, cStr_eq_self hrest]
    rw [hname, nameExtension_append]
    by_cases hown : byte '/' ∈ rest ∨ byte '.' ∈ rest
    · rw [if_pos hown]
      exact iff_of_true (.refl _) (hown.imp_right .inl)
    · rw [if_neg hown]
      rw [not_or] at hown
      rw [nameExtension_of_notMem hown, or_iff_right hown.1, or_iff_right hown.2]
      split_ifs with hdot
      · rw [or_iff_right (not_not_intro hdot)]
      · exact iff_of_true (.refl _) (.inl hdot)

/-- **When the type follows the file.**  For a request whose path is at least as long as the prefix, which every
request is for which the handler opens a file. -/
theorem typeFollowsFile_iff {h : StaticFileHandler} {request : Request}
    (hle : h.pathPrefix.length ≤ request.path.length) :
    TypeFollowsFile h request ↔ FollowsName h.root (fileRest h.pathPrefix request.path) := by
  rw [typeFollowsFile_iff_sameHandling (filePath_of_le hle), sameHandling_iff_followsName]

/-- The extension of the root goes on into the path. -/
theorem typeFollowsFile_iff_root :
    TypeFollowsFile ⟨bytes "/p", bytes "/w/a.h"⟩ (getRequest (bytes "/ptm") []) ↔
      FollowsName (bytes "/w/a.h") (fileRest (bytes "/p") (bytes "/ptm")) :=
  typeFollowsFile_iff (by decide)

/-- A NUL in front of the extension: the page `/w/x.htm` is opened and sent as an image, without `do_lua`. -/
theorem not_typeFollowsFile :
    parse ThreadState.fresh (bytes "GET /x.htm%00.png HTTP/1.0\r\n\r\n") =
        some (⟨.good, Request.fresh⟩, some (getRequest (bytes "/x.htm%00.png") [])) ∧
      openedName ⟨[], bytes "/w"⟩ (getRequest (bytes "/x.htm%00.png") []) = .ok (bytes "/w/x.htm") ∧
      filePath ⟨[], bytes "/w"⟩ (getRequest (bytes "/x.htm%00.png") []) = .ok (bytes "/x.htm" ++ 0 :: bytes ".png") ∧
      (extensionOf (bytes "/x.htm" ++ 0 :: bytes ".png")).map extensionToType = .ok (bytes "image/png") ∧
      ¬ TypeFollowsFile ⟨[], bytes "/w"⟩ (getRequest (bytes "/x.htm%00.png") []) := by
  have hpath : filePath ⟨[], bytes "/w"⟩ (getRequest (bytes "/x.htm%00.png") []) =
      .ok (bytes "/x.htm" ++ 0 :: bytes ".png") := by decide
  refine ⟨by decide, by decide, hpath, by decide, ?_⟩
  rw [typeFollowsFile_iff_sameHandling hpath]
  decide

end Webserver.StaticFile
