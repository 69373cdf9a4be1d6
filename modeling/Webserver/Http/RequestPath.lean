import Mathlib.Data.List.Infix
import Webserver.Http.Request

/-!
# The path of a URI

The loop that turns `uri_` into `path_` works with an index; `percentDecode` is the same function by
recursion on what is left of the URI.  Two facts about the inferred path follow: it is defined for every
URI that is not empty, and `..` occurs in no inferred path.
-/

namespace Webserver.Http

open ByteString BoundedLoop CxxString Numeral

/-- The decoded URI; `none` when a `%` is not followed by two characters that hold a number. -/
def percentDecode : Bytes → Option Bytes
  | [] => some []
  | c :: rest =>
    if c = byte '%' then
      match rest with
      | a :: b :: rest' => do
        let value ← extractHexInt [a, b]
        let decoded ← percentDecode rest'
        some (toChar value :: decoded)
      | _ => none
    else do
      let decoded ← percentDecode rest
      some ((if c = byte '+' then byte ' ' else c) :: decoded)

theorem percentDecode_escape (a b : Byte) (rest : Bytes) :
    percentDecode (byte '%' :: a :: b :: rest) =
      (extractHexInt [a, b]).bind fun value =>
        (percentDecode rest).map (toChar value :: ·) := by
  rw [percentDecode, if_pos rfl]
  cases extractHexInt [a, b] with
  | none => rfl
  | some value =>
    cases percentDecode rest with
    | none => rfl
    | some d => rfl

theorem percentDecode_plain {c : Byte} (hc : c ≠ byte '%') (rest : Bytes) :
    percentDecode (c :: rest) =
      (percentDecode rest).map ((if c = byte '+' then byte ' ' else c) :: ·) := by
  rw [percentDecode.eq_def (c :: rest)]
  simp only [if_neg hc]
  cases percentDecode rest with
  | none => rfl
  | some d => rfl

theorem percentDecode_cut {short : Bytes} (h : short.length < 2) : percentDecode (byte '%' :: short) = none := by
  match short, h with
  | [], _ => rfl
  | [a], _ => rfl

/-- **Induction on a URI**, unit by unit. -/
@[elab_as_elim]
theorem uri_induction {motive : Bytes → Prop} (uri : Bytes) (nil : motive [])
    (plain : ∀ c rest, c ≠ byte '%' → motive rest → motive (c :: rest))
    (escape : ∀ a b rest, motive rest → motive (byte '%' :: a :: b :: rest))
    (cut : ∀ short : Bytes, short.length < 2 → motive (byte '%' :: short)) : motive uri := by
  induction hn : uri.length using Nat.strong_induction_on generalizing uri with
  | _ n ih =>
    rcases uri with _ | ⟨c, rest⟩
    · exact nil
    rw [List.length_cons] at hn
    by_cases hc : c = byte '%'
    · subst hc
      rcases rest with _ | ⟨a, _ | ⟨b, rest⟩⟩
      · exact cut [] (by decide)
      · exact cut [a] Nat.one_lt_two
      · rw [List.length_cons, List.length_cons] at hn
        exact escape a b rest (ih rest.length (by omega) rest rfl)
    · exact plain c rest hc (ih rest.length (by omega) rest rfl)

theorem percentDecode_ne_nil {uri d : Bytes} (huri : uri ≠ []) (h : percentDecode uri = some d) :
    d ≠ [] := by
  cases uri using uri_induction with
  | nil => exact absurd rfl huri
  | plain c rest hc _ =>
    rw [percentDecode_plain hc] at h
    obtain ⟨e, -, rfl⟩ := Option.map_eq_some_iff.mp h
    exact List.cons_ne_nil _ _
  | escape a b rest _ =>
    rw [percentDecode_escape] at h
    obtain ⟨value, -, h⟩ := Option.bind_eq_some_iff.mp h
    obtain ⟨e, -, rfl⟩ := Option.map_eq_some_iff.mp h
    exact List.cons_ne_nil _ _
  | cut short hshort =>
    rw [percentDecode_cut hshort] at h
    cases h

/-! ### The index loop -/

theorem pathBody_done (done path : Bytes) : pathBody done (done.length, path) = .inr (some (some path)) := by
  simp [pathBody]

theorem pathBody_plain {done rest path : Bytes} {c : Byte} (hc : c ≠ byte '%') :
    pathBody (done ++ c :: rest) (done.length, path) =
      .inl (done.length + 1, path ++ [if c = byte '+' then byte ' ' else c]) := by
  have hlt : done.length < (done ++ c :: rest).length := by simp
  have hget : (done ++ c :: rest)[done.length]? = some c := by simp
  simp only [pathBody, if_pos hlt, hget, if_neg hc]
  split_ifs <;> rfl

theorem pathBody_escape (done rest path : Bytes) (a b : Byte) :
    pathBody (done ++ byte '%' :: a :: b :: rest) (done.length, path) =
      match extractHexInt [a, b] with
      | some value => .inl (done.length + 2 + 1, path ++ [toChar value])
      | none => .inr (some none) := by
  have hlt : done.length < (done ++ byte '%' :: a :: b :: rest).length := by simp
  have hget : (done ++ byte '%' :: a :: b :: rest)[done.length]? = some (byte '%') := by simp
  have hle : done.length + 3 ≤ (done ++ byte '%' :: a :: b :: rest).length := by simp
  have hsub : substr (done ++ byte '%' :: a :: b :: rest) (some (done.length + 1)) (some 2) =
      .ok [a, b] := by
    rw [substr_of_le (by simp), ← List.drop_drop, List.drop_left]
    rfl
  cases hvalue : extractHexInt [a, b] with
  | none => simp only [pathBody, if_pos hlt, hget, if_true, if_pos hle, hsub, hvalue]
  | some value => simp only [pathBody, if_pos hlt, hget, if_true, if_pos hle, hsub, hvalue]

theorem pathBody_cut {done rest path : Bytes} (hrest : rest.length < 2) :
    pathBody (done ++ byte '%' :: rest) (done.length, path) = .inr (some none) := by
  have hlt : done.length < (done ++ byte '%' :: rest).length := by simp
  have hget : (done ++ byte '%' :: rest)[done.length]? = some (byte '%') := by simp
  have hle : ¬ done.length + 3 ≤ (done ++ byte '%' :: rest).length := by
    rw [List.length_append, List.length_cons]
    omega
  simp only [pathBody, if_pos hlt, hget, if_true, if_neg hle]

/-- **The index loop computes `percentDecode`.**  `done` is the part before the index. -/
theorem runLoop_pathBody (rest : Bytes) : ∀ (done path : Bytes) (fuel : ℕ), rest.length < fuel →
    runLoop (pathBody (done ++ rest)) fuel (done.length, path) =
      some (some ((percentDecode rest).map (path ++ ·))) := by
  induction rest using uri_induction with
  | nil =>
    intro done path fuel hfuel
    obtain ⟨fuel, rfl⟩ := Nat.exists_eq_add_one.mpr hfuel
    rw [List.append_nil, runLoop_succ_inr (pathBody_done done path)]
    simp [percentDecode]
  | plain c rest hc ih =>
    intro done path fuel hfuel
    rw [List.length_cons] at hfuel
    obtain ⟨fuel, rfl⟩ := Nat.exists_eq_add_one.mpr (by omega : 0 < fuel)
    rw [runLoop_succ_inl (pathBody_plain hc), percentDecode_plain hc]
    have hih := ih (done ++ [c]) (path ++ [if c = byte '+' then byte ' ' else c]) fuel (by omega)
    rw [List.append_assoc, List.length_append] at hih
    refine hih.trans ?_
    simp [Option.map_map, Function.comp_def]
  | escape a b rest ih =>
    intro done path fuel hfuel
    rw [List.length_cons, List.length_cons, List.length_cons] at hfuel
    obtain ⟨fuel, rfl⟩ := Nat.exists_eq_add_one.mpr (by omega : 0 < fuel)
    have hbody := pathBody_escape done rest path a b
    rw [percentDecode_escape]
    cases hv : extractHexInt [a, b] with
    | none =>
      rw [hv] at hbody
      rw [runLoop_succ_inr hbody]
      rfl
    | some value =>
      rw [hv] at hbody
      have hih := ih (done ++ [byte '%', a, b]) (path ++ [toChar value]) fuel (by omega)
      rw [List.append_assoc, List.length_append] at hih
      rw [runLoop_succ_inl hbody]
      refine hih.trans ?_
      simp [Option.map_map, Function.comp_def]
  | cut short hshort =>
    intro done path fuel hfuel
    obtain ⟨fuel, rfl⟩ := Nat.exists_eq_add_one.mpr (by omega : 0 < fuel)
    rw [runLoop_succ_inr (pathBody_cut hshort), percentDecode_cut hshort]
    rfl

theorem decodeUri_eq (uri : Bytes) : decodeUri uri [] = some (percentDecode uri) := by
  have h := runLoop_pathBody uri [] [] (uri.length + 1) (Nat.lt_succ_self _)
  rw [List.nil_append, List.length_nil] at h
  rw [decodeUri, h]
  simp

/-! ### The inferred path -/

/-- The path of a URI that is not empty. -/
def pathOf (uri : Bytes) : Bytes := (inferPath uri []).getD []

theorem inferPath_eq (uri : Bytes) :
    inferPath uri [] = match percentDecode uri with
      | none => some []
      | some decoded => finishPath decoded := by
  rw [inferPath, decodeUri_eq]
  rfl

theorem inferPath_nil : inferPath [] [] = none := by decide

/-- The directory rule: a path that ends in a slash gets an index. -/
def withIndex (path : Bytes) : Bytes :=
  if path.getLast? = some (byte '/') then path ++ bytes "index.html" else path

theorem isPrefix_withIndex (d : Bytes) : d <+: withIndex d := by
  rw [withIndex]
  split_ifs
  · exact List.prefix_append _ _
  · exact List.prefix_rfl

theorem withIndex_query (d e : Bytes) : ∃ e', withIndex (d ++ byte '?' :: e) = d ++ byte '?' :: e' := by
  rw [withIndex]
  split_ifs
  · exact ⟨e ++ bytes "index.html", by rw [List.append_assoc]; rfl⟩
  · exact ⟨e, rfl⟩

theorem finishPath_eq (path : Bytes) (h : path ≠ []) :
    finishPath path = some (if bytes ".." <:+: path then [] else withIndex path) := by
  have hdots : find (bytes "..") path ≠ npos ↔ bytes ".." <:+: path :=
    (not_congr find_eq_none_iff).trans not_not
  rw [finishPath, withIndex, List.getLast?_eq_some_getLast h]
  by_cases hinfix : bytes ".." <:+: path
  · rw [if_pos (hdots.mpr hinfix), if_pos hinfix]
  · rw [if_neg (mt hdots.mp hinfix), if_neg hinfix]
    by_cases hlast : path.getLast h = byte '/'
    · rw [if_pos (congrArg some hlast)]
      exact if_pos hlast
    · rw [if_neg (mt Option.some.inj hlast)]
      exact if_neg hlast

/-- `path_[path_.size() - 1]` is only undefined for an empty URI. -/
theorem inferPath_eq_some {uri : Bytes} (h : uri ≠ []) : inferPath uri [] = some (pathOf uri) := by
  have hsome : ∃ p, inferPath uri [] = some p := by
    rw [inferPath_eq]
    cases hd : percentDecode uri with
    | none => exact ⟨[], rfl⟩
    | some decoded => exact ⟨_, finishPath_eq decoded (percentDecode_ne_nil h hd)⟩
  obtain ⟨p, hp⟩ := hsome
  rw [pathOf, hp, Option.getD_some]

/-- **The path of a URI**: nothing when it cannot be decoded or goes backwards, else the decoded URI with
the directory rule. -/
theorem pathOf_eq {uri : Bytes} (huri : uri ≠ []) :
    pathOf uri = match percentDecode uri with
      | none => []
      | some d => if bytes ".." <:+: d then [] else withIndex d := by
  rw [pathOf, inferPath_eq]
  cases hd : percentDecode uri with
  | none => rfl
  | some d =>
    show (finishPath d).getD [] = _
    rw [finishPath_eq d (percentDecode_ne_nil huri hd)]
    rfl

/-- A request has a path exactly when its URI decodes without `..`. -/
theorem pathOf_ne_nil_iff {uri : Bytes} (huri : uri ≠ []) :
    pathOf uri ≠ [] ↔ ∃ d, percentDecode uri = some d ∧ ¬ bytes ".." <:+: d := by
  rw [pathOf_eq huri]
  cases hd : percentDecode uri with
  | none => simp
  | some d =>
    have hne : withIndex d ≠ [] := by
      rw [withIndex]
      split_ifs
      · exact List.append_ne_nil_of_left_ne_nil (percentDecode_ne_nil huri hd) _
      · exact percentDecode_ne_nil huri hd
    by_cases hdots : bytes ".." <:+: d
    · simp [hdots]
    · simp [hdots, hne]

theorem pathOf_of_decoded {u d : Bytes} (hne : u ≠ []) (hd : percentDecode u = some d)
    (hdots : ¬ bytes ".." <:+: d) : pathOf u = withIndex d := by
  rw [pathOf_eq hne, hd]
  exact if_neg hdots

/-- Decoding goes on behind a text that decodes. -/
theorem percentDecode_append {a d : Bytes} (h : percentDecode a = some d) (b : Bytes) :
    percentDecode (a ++ b) = (percentDecode b).map (d ++ ·) := by
  induction a using uri_induction generalizing d with
  | nil =>
    obtain rfl := Option.some.inj h
    simp
  | plain c rest hc ih =>
    rw [percentDecode_plain hc] at h
    obtain ⟨e, he, rfl⟩ := Option.map_eq_some_iff.mp h
    rw [List.cons_append, percentDecode_plain hc, ih he, Option.map_map]
    rfl
  | escape x y rest ih =>
    rw [percentDecode_escape] at h
    obtain ⟨value, hvalue, h⟩ := Option.bind_eq_some_iff.mp h
    obtain ⟨e, he, rfl⟩ := Option.map_eq_some_iff.mp h
    show percentDecode (byte '%' :: x :: y :: (rest ++ b)) = _
    rw [percentDecode_escape, hvalue, Option.bind_some, ih he, Option.map_map]
    rfl
  | cut short hshort =>
    rw [percentDecode_cut hshort] at h
    cases h

/-- A query is decoded with the path in front of it. -/
theorem percentDecode_query {uri d : Bytes} (h : percentDecode uri = some d) (query : Bytes) :
    percentDecode (uri ++ byte '?' :: query) = (percentDecode query).map fun e => d ++ byte '?' :: e := by
  rw [percentDecode_append h, percentDecode_plain (by decide), Option.map_map]
  rfl

/-! ### No way backwards -/

theorem not_dots_nil : ¬ bytes ".." <:+: ([] : Bytes) := by
  rw [List.infix_nil]
  exact List.cons_ne_nil _ _

theorem not_dots_indexHtml : ¬ bytes ".." <:+: bytes "index.html" := find_eq_none_iff.mp (by decide)

/-- Appending a text that does not start with a dot makes no new `..`. -/
theorem not_dots_append {a b : Bytes} (ha : ¬ bytes ".." <:+: a) (hb : ¬ bytes ".." <:+: b)
    (hhead : b.head? ≠ some (byte '.')) : ¬ bytes ".." <:+: a ++ b := by
  have hdots : bytes ".." = [byte '.', byte '.'] := rfl
  rw [hdots] at ha hb ⊢
  generalize byte '.' = dot at ha hb hhead ⊢
  induction a with
  | nil => exact hb
  | cons c a ih =>
    rw [List.infix_cons_iff, not_or] at ha
    rw [List.cons_append, List.infix_cons_iff, not_or]
    refine ⟨?_, ih ha.2⟩
    intro hfront
    rw [List.cons_prefix_cons] at hfront
    obtain ⟨hc, hfront⟩ := hfront
    cases a with
    | nil =>
      obtain ⟨rest, hrest⟩ := hfront
      exact hhead (by rw [← List.nil_append b, ← hrest]; rfl)
    | cons d a =>
      rw [List.cons_append, List.cons_prefix_cons] at hfront
      apply ha.1
      rw [← hc, ← hfront.1]
      exact ⟨a, rfl⟩

theorem not_dots_withIndex {d : Bytes} (h : ¬ bytes ".." <:+: d) : ¬ bytes ".." <:+: withIndex d := by
  rw [withIndex]
  split_ifs
  · exact not_dots_append h not_dots_indexHtml (by decide)
  · exact h

/-- **The path of a request does not contain `..`.** -/
theorem not_dots_pathOf (uri : Bytes) : ¬ bytes ".." <:+: pathOf uri := by
  by_cases huri : uri = []
  · rw [huri, pathOf, inferPath_nil]
    exact not_dots_nil
  · by_cases hpath : pathOf uri = []
    · rw [hpath]
      exact not_dots_nil
    · obtain ⟨d, hd, hdots⟩ := (pathOf_ne_nil_iff huri).mp hpath
      rw [pathOf_of_decoded huri hd hdots]
      exact not_dots_withIndex hdots

end Webserver.Http
