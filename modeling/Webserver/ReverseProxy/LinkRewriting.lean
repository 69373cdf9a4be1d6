import Webserver.ReverseProxy.SentUri
import Webserver.Support.ReplaceAll

/-!
# Links in the pages of a remote host

`rerouteRelativeUris` puts the prefix of the proxy in front of the links of a page, so that they lead back to the
proxy, which cuts the prefix off again when it forwards the request.  `HandleRequest` does not call it.

* `reroute_pieces` — what it changes: the targets of links that start with a slash, and nothing else.
* `reroute_forward_iff` — when the request for a link that has been changed is sent on with the URI that the link had.
-/

namespace Webserver.ReverseProxy

open ByteString CxxString Http Numeral ReplaceAll

/-- `rerouteRelativeUris`. -/
def rerouteRelativeUris (originalUriPrefix responseBody : Bytes) : Bytes :=
  if originalUriPrefix ≠ bytes "/" then
    let newHref := bytes "href=\"" ++ originalUriPrefix ++ bytes "/"
    let responseBody := replaceAll (bytes "href=\"/") newHref responseBody
    let newSrc := bytes "src=\"" ++ originalUriPrefix ++ bytes "/"
    replaceAll (bytes "src=\"/") newSrc responseBody
  else responseBody

/-! ### The links of a page -/

/-- What comes in front of the quotation mark of a link. -/
def IsLink (w : Bytes) : Prop := bytes "href=" <:+ w ∨ bytes "src=" <:+ w

instance : DecidablePred IsLink := fun w => inferInstanceAs (Decidable (bytes "href=" <:+ w ∨ bytes "src=" <:+ w))

/-- A page, cut at its quotation marks. -/
def pieces (page : Bytes) : List Bytes := page.splitOn (byte '"')

theorem isMark_href : IsMark (bytes "href=") (byte '"') (byte '/') := ⟨by decide, by decide, by decide, by decide⟩

theorem isMark_src : IsMark (bytes "src=") (byte '"') (byte '/') := ⟨by decide, by decide, by decide, by decide⟩

/-- No text ends in both words. -/
theorem not_href_src {w : Bytes} (hhref : bytes "href=" <:+ w) : ¬ bytes "src=" <:+ w := by
  intro hsrc
  rcases List.suffix_or_suffix_of_suffix hhref hsrc with h | h
  · exact absurd h (by decide)
  · exact absurd h (by decide)

variable {p page s : Bytes} {ts : List Bytes}

/-- **What is changed in a page**: `p` is put in front of every piece that starts with a slash and has a link in front
of it. -/
theorem reroute_pieces (hp : p ≠ bytes "/") (hquote : byte '"' ∉ p) (hpage : pieces page = s :: ts) :
    pieces (rerouteRelativeUris p page) = s :: insertBehind IsLink (byte '/') p s ts := by
  have hnone : ∀ t ∈ s :: ts, byte '"' ∉ t := fun t ht => notMem_of_mem_splitOn (hpage ▸ ht)
  obtain ⟨hs, hts⟩ := List.forall_mem_cons.mp hnone
  have hjoin : page = [byte '"'].intercalate (s :: ts) := by
    rw [← hpage]
    exact (List.intercalate_splitOn (byte '"')).symm
  have hhref : replaceAll (bytes "href=\"/") (bytes "href=\"" ++ p ++ bytes "/") page =
      [byte '"'].intercalate (s :: insertBehind (bytes "href=" <:+ ·) (byte '/') p s ts) := by
    rw [hjoin]
    exact replaceAll_pieces isMark_href hs hts
  have hhrefs := @notMem_insertBehind _ p (byte '"') (byte '/') _ (bytes "href=" <:+ ·) _ hquote s ts hts
  have hsrc : rerouteRelativeUris p page = [byte '"'].intercalate (s :: insertBehind (bytes "src=" <:+ ·) (byte '/') p s
      (insertBehind (bytes "href=" <:+ ·) (byte '/') p s ts)) := by
    rw [rerouteRelativeUris, if_pos hp]
    show replaceAll (bytes "src=\"/") (bytes "src=\"" ++ p ++ bytes "/") (replaceAll _ _ page) = _
    rw [hhref]
    exact replaceAll_pieces isMark_src hs hhrefs
  have hboth := @insertBehind_insertBehind _ p (byte '/') _ (bytes "href=" <:+ ·) (bytes "src=" <:+ ·) _ _
    (fun w => not_href_src) (fun w hw => suffix_insert_iff isMark_src.x_notMem hw) s s Iff.rfl ts
  rw [hboth] at hsrc
  rw [hsrc, pieces, List.splitOn_intercalate]
  · rfl
  · exact List.forall_mem_cons.mpr ⟨hs, notMem_insertBehind hquote hts⟩
  · exact List.cons_ne_nil _ _

/-- **When a link leads back.**  In a page that has been rerouted, a link to `t`, which starts with a slash, has
become one to `p ++ t`; and whatever a handler with the prefix `p` writes for a request with this URI starts with a
request line for `t` if and only if the cut is right for them and no edit meets the request line, or by the accident
of a line that is torn and mended.  All other pieces of the page are as they were. -/
theorem reroute_forward_iff {before after : List Bytes} {w t : Bytes} (hp : p ≠ bytes "/") (hquote : byte '"' ∉ p)
    (hpage : pieces page = before ++ w :: t :: after) :
    ∃ before' w' t' after', pieces (rerouteRelativeUris p page) = before' ++ w' :: t' :: after' ∧
      before'.length = before.length ∧ (¬ (IsLink w ∧ t.head? = some (byte '/')) → t' = t) ∧
      (IsLink w → t.head? = some (byte '/') → t' = p ++ t ∧
        ∀ s th r h host written, parse ThreadState.fresh s = some (th, some r) → r.uri = t' →
          h.originalUriPrefix = p → Writes h r host written →
          ∃ port, stoi h.remotePort = .ok port ∧ (SendsUri written t ↔
            (CutsPrefix p t ∧ LineStays port r.method t) ∨
              ∃ q u, t' = q ++ u ∧ IsCutOff p q ∧ LineMended port host r.method u t)) := by
  obtain ⟨s, ts, hcons⟩ := List.exists_cons_of_ne_nil (l := before ++ w :: t :: after) (by simp)
  obtain ⟨before', w', after', heq, hlength⟩ :=
    @insertBehind_split _ p (byte '/') _ IsLink _ s s w t ts before after hcons.symm
  refine ⟨before', w', _, after', (reroute_pieces hp hquote (hpage.trans hcons)).trans heq, hlength, fun h => if_neg h,
    ?_⟩
  intro hlink hslash
  rw [if_pos ⟨hlink, hslash⟩]
  refine ⟨rfl, ?_⟩
  intro s th r h host written hparse huri hprefix hwrites
  obtain ⟨t, rfl⟩ := List.head?_eq_some_iff.mp hslash
  have hwith : withSlash (byte '/' :: t) = byte '/' :: t := by rw [withSlash, withoutSlash_of_slash]
  subst hprefix
  have hsends := writes_withSlash_iff hparse huri hwrites
  rwa [hwith, huri] at hsends

/-- A link and an image; the link to another page of the same directory stays. -/
theorem reroute_forward_iff_page :
    ∃ before' w' t' after', pieces (rerouteRelativeUris (bytes "/p")
        (bytes "<a href=\"/x\"><a href=\"y\"><img src=\"/z\">")) = before' ++ w' :: t' :: after' ∧
      t' = bytes "/p/x" ∧ ∃ port, stoi (bytes "80") = .ok port ∧
        (SendsUri (bytes "GET /x HTTP/1.0\r\nHost: b\r\n\r\n") (bytes "/x") ↔
          (CutsPrefix (bytes "/p") (bytes "/x") ∧ LineStays port (bytes "GET") (bytes "/x")) ∨
            ∃ q u, t' = q ++ u ∧ IsCutOff (bytes "/p") q ∧
              LineMended port (bytes "b") (bytes "GET") u (bytes "/x")) := by
  have hpage : pieces (bytes "<a href=\"/x\"><a href=\"y\"><img src=\"/z\">") = [] ++ bytes "<a href=" :: bytes "/x" ::
      [bytes "><a href=", bytes "y", bytes "><img src=", bytes "/z", bytes ">"] := by decide
  have hparse : parse ThreadState.fresh (bytes "GET /p/x HTTP/1.0\r\nHost: a\r\n\r\n") =
      some (⟨.good, Request.fresh⟩, some (getRequest (bytes "/p/x") [(bytes "Host", bytes "a")])) := by decide
  have hwrites : Writes ⟨bytes "/p", bytes "b", bytes "80"⟩ (getRequest (bytes "/p/x") [(bytes "Host", bytes "a")])
      (bytes "b") (bytes "GET /x HTTP/1.0\r\nHost: b\r\n\r\n") :=
    ⟨1, answering [], ⟨bytes "b", 0, [(bytes "b", bytes "GET /x HTTP/1.0\r\nHost: b\r\n\r\n")]⟩, .ok [], by decide,
      List.mem_singleton.mpr rfl⟩
  obtain ⟨before', w', t', after', heq, -, -, hlink⟩ := @reroute_forward_iff (bytes "/p") _ _ _ _ _ (by decide)
    (by decide) hpage
  obtain ⟨ht, hsends⟩ := hlink (by decide) (by decide)
  exact ⟨before', w', t', after', heq, ht, hsends _ _ _ _ _ _ hparse ht.symm rfl hwrites⟩

example : rerouteRelativeUris (bytes "/p") (bytes "<a href=\"/x\"><a href=\"y\"><img src=\"/z\">") =
    bytes "<a href=\"/p/x\"><a href=\"y\"><img src=\"/p/z\">" := by decide

end Webserver.ReverseProxy
