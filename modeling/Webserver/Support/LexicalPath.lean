import Mathlib.Data.List.DropRight
import Webserver.Support.ByteString

/-!
# Lexical resolution of file names

A file name is resolved without looking at the file system: the components between slashes are walked
from a start directory, where `.` and empty components stay, `..` goes up (and stays at the top), and any
other component goes down.  A directory is the list of names that lead to it from the top; a relative
name is resolved from a working directory.

`resolve_append_below_iff` says when a name that was made by putting two strings side by side, without a
slash in between, still lies below what the first one resolves to.
-/

namespace LexicalPath

open ByteString

/-- A directory or a file, by the names that lead to it. -/
abbrev Location := List Bytes

def slash : Byte := byte '/'

def dot : Bytes := bytes "."

def dotDot : Bytes := bytes ".."

/-- One component of a name. -/
def walk (l : Location) (component : Bytes) : Location :=
  if component = [] ∨ component = dot then l
  else if component = dotDot then l.dropLast
  else l ++ [component]

/-- All components of a name, from a start directory. -/
def descend (l : Location) (name : Bytes) : Location := (name.splitOn slash).foldl walk l

def IsAbsolute (name : Bytes) : Prop := name.head? = some slash

instance (name : Bytes) : Decidable (IsAbsolute name) := inferInstanceAs (Decidable (_ = _))

/-- **Lexical resolution**, from a working directory. -/
def resolve (cwd : Location) (name : Bytes) : Location := descend (if IsAbsolute name then [] else cwd) name

/-- A component that goes down. -/
def IsName (component : Bytes) : Prop := component ≠ [] ∧ component ≠ dot ∧ component ≠ dotDot

instance (component : Bytes) : Decidable (IsName component) := inferInstanceAs (Decidable (_ ∧ _))

/-- The components of a name that go down. -/
def names (name : Bytes) : List Bytes := (name.splitOn slash).filter IsName

example : resolve [bytes "srv"] (bytes "a/./b/../c") = [bytes "srv", bytes "a", bytes "c"] := by decide

/-! ### Walking -/

theorem walk_name {component : Bytes} (h : IsName component) (l : Location) :
    walk l component = l ++ [component] := by
  rw [walk, if_neg (not_or.mpr ⟨h.1, h.2.1⟩), if_neg h.2.2]

theorem walk_dot (l : Location) : walk l dot = l := by
  rw [walk, if_pos (.inr rfl)]

theorem walk_dotDot (l : Location) : walk l dotDot = l.dropLast := by
  rw [walk, if_neg (by decide), if_pos rfl]

@[simp] theorem walk_nil (l : Location) : walk l [] = l := by
  rw [walk, if_pos (.inl rfl)]

@[simp] theorem descend_nil (l : Location) : descend l [] = l := by
  rw [descend, List.splitOn_nil]
  exact walk_nil l

/-- A name without a slash is one component. -/
theorem descend_component {component : Bytes} (h : slash ∉ component) (l : Location) :
    descend l component = walk l component := by
  rw [descend, List.splitOn_eq_singleton h]
  rfl

theorem descend_append_slash (l : Location) (a b : Bytes) :
    descend l (a ++ slash :: b) = descend (descend l a) b := by
  rw [descend, List.splitOn_append_cons_self, List.foldl_append]
  rfl

theorem descend_slash (l : Location) (b : Bytes) : descend l (slash :: b) = descend l b := by
  have h := descend_append_slash l [] b
  rwa [List.nil_append, descend_nil] at h

/-- A string that is empty or starts with a slash. -/
def StartsBelow (rest : Bytes) : Prop := rest = [] ∨ IsAbsolute rest

theorem descend_component_append {component rest : Bytes} (h : slash ∉ component)
    (hrest : StartsBelow rest) (l : Location) :
    descend l (component ++ rest) = descend (walk l component) rest := by
  rcases hrest with rfl | habs
  · rw [List.append_nil, descend_component h, descend_nil]
  · obtain ⟨b, rfl⟩ := List.head?_eq_some_iff.mp habs
    rw [descend_append_slash, descend_component h, descend_slash]

/-! ### Names without a way up -/

/-- Components are pieces of the name. -/
theorem infix_of_mem_splitOn (n : ℕ) : ∀ {name component : Bytes}, name.length ≤ n →
    component ∈ name.splitOn slash → component <:+: name := by
  induction n with
  | zero =>
    intro name component hlen hmem
    obtain rfl := List.length_eq_zero_iff.mp (Nat.le_zero.mp hlen)
    rw [List.splitOn_nil, List.mem_singleton] at hmem
    obtain rfl := hmem
    exact List.infix_rfl
  | succ n ih =>
    intro name component hlen hmem
    by_cases hslash : slash ∈ name
    · obtain ⟨a, b, rfl⟩ := List.append_of_mem hslash
      rw [List.length_append, List.length_cons] at hlen
      rw [List.splitOn_append_cons_self, List.mem_append] at hmem
      rcases hmem with ha | hb
      · exact (ih (by omega) ha).trans (List.prefix_append a _).isInfix
      · exact (ih (by omega) hb).trans
          ((List.suffix_cons slash b).trans (List.suffix_append a _)).isInfix
    · rw [List.splitOn_eq_singleton hslash, List.mem_singleton] at hmem
      obtain rfl := hmem
      exact List.infix_rfl

/-- Without `..` there is no component that goes up. -/
theorem descend_eq_append_names {name : Bytes} (h : ¬ dotDot <:+: name) (l : Location) :
    descend l name = l ++ names name := by
  have hcomponents : ∀ c ∈ name.splitOn slash, c ≠ dotDot := by
    intro c hc hdots
    exact h (hdots ▸ infix_of_mem_splitOn name.length le_rfl hc)
  have hwalk : ∀ (cs : List Bytes) (l : Location), (∀ c ∈ cs, c ≠ dotDot) →
      cs.foldl walk l = l ++ cs.filter IsName := by
    intro cs
    induction cs with
    | nil => intro l _; simp
    | cons c cs ih =>
      intro l hcs
      obtain ⟨hc, hcs⟩ := List.forall_mem_cons.mp hcs
      by_cases hname : IsName c
      · rw [List.foldl_cons, walk_name hname, ih _ hcs, List.filter_cons_of_pos (by simpa using hname),
          List.append_assoc]
        rfl
      · have hstay : walk l c = l := by
          rw [walk, if_pos]
          by_contra hstay
          rw [not_or] at hstay
          exact hname ⟨hstay.1, hstay.2, hc⟩
        rw [List.foldl_cons, hstay, ih _ hcs, List.filter_cons_of_neg (by simpa using hname)]
  exact hwalk _ l hcomponents

/-! ### The last component of a name -/

/-- Everything up to the last slash. -/
def dirPart (name : Bytes) : Bytes := name.rdropWhile (· ≠ slash)

/-- Everything after the last slash. -/
def lastComponent (name : Bytes) : Bytes := name.rtakeWhile (· ≠ slash)

theorem dirPart_append_lastComponent (name : Bytes) : dirPart name ++ lastComponent name = name :=
  List.rdropWhile_append_rtakeWhile

theorem slash_notMem_lastComponent (name : Bytes) : slash ∉ lastComponent name := by
  intro h
  simpa using List.mem_rtakeWhile_imp h

/-- The directory part is empty or ends with a slash. -/
theorem dirPart_cases (name : Bytes) : dirPart name = [] ∨ ∃ d, dirPart name = d ++ [slash] := by
  rcases List.eq_nil_or_concat' (dirPart name) with h | ⟨d, c, h⟩
  · exact .inl h
  · right
    have hne : dirPart name ≠ [] := by
      rw [h]
      exact List.append_ne_nil_of_right_ne_nil _ (List.cons_ne_nil _ _)
    have hlast : ¬ decide ((dirPart name).getLast hne ≠ slash) = true :=
      List.rdropWhile_last_not _ name hne
    have hc : (dirPart name).getLast hne = c := by simp only [h, List.getLast_concat]
    rw [hc] at hlast
    exact ⟨d, by rw [h, show c = slash by simpa using hlast]⟩

theorem resolve_dirPart_append (cwd : Location) (name : Bytes) {x : Bytes}
    (h : dirPart name = [] → ¬ IsAbsolute x) :
    resolve cwd (dirPart name ++ x) = descend (resolve cwd (dirPart name)) x := by
  rcases dirPart_cases name with hd | ⟨d, hd⟩
  · rw [hd, List.nil_append, resolve, resolve, if_neg (h hd), if_neg (by decide), descend_nil]
  · have habs : IsAbsolute (d ++ [slash] ++ x) ↔ IsAbsolute (d ++ [slash]) := by
      rw [IsAbsolute, List.head?_append_of_ne_nil _ (by simp)]
      exact Iff.rfl
    rw [hd, resolve, resolve, if_congr habs rfl rfl, List.append_assoc]
    rw [List.singleton_append, descend_append_slash, descend_append_slash, descend_nil]

theorem not_isAbsolute_append {c : Bytes} (hne : c ≠ []) (h : slash ∉ c) (x : Bytes) :
    ¬ IsAbsolute (c ++ x) := by
  obtain ⟨b, c, rfl⟩ := List.exists_cons_of_ne_nil hne
  intro habs
  exact h (Option.some.inj habs ▸ List.mem_cons_self)

/-! ### Two names side by side -/

/-- Everything before the first slash. -/
def firstComponent (name : Bytes) : Bytes := name.takeWhile (· ≠ slash)

/-- Everything from the first slash on. -/
def belowFirst (name : Bytes) : Bytes := name.dropWhile (· ≠ slash)

theorem firstComponent_append_belowFirst (name : Bytes) : firstComponent name ++ belowFirst name = name :=
  List.takeWhile_append_dropWhile

theorem slash_notMem_firstComponent (name : Bytes) : slash ∉ firstComponent name :=
  notMem_takeWhile_ne slash name

theorem startsBelow_belowFirst (name : Bytes) : StartsBelow (belowFirst name) := by
  rcases h : belowFirst name with _ | ⟨c, rest⟩
  · exact .inl rfl
  · right
    have hc := List.head?_dropWhile_not (· ≠ slash) name
    rw [show List.dropWhile (· ≠ slash) name = belowFirst name from rfl, h] at hc
    show some c = some slash
    rw [show c = slash by simpa using hc]

theorem resolve_eq_walk (cwd : Location) (name : Bytes) :
    resolve cwd name = walk (resolve cwd (dirPart name)) (lastComponent name) := by
  have hnot : ¬ IsAbsolute (lastComponent name) := by
    intro habs
    exact slash_notMem_lastComponent name (List.mem_of_mem_head? habs)
  have h := resolve_dirPart_append cwd name fun _ => hnot
  rwa [dirPart_append_lastComponent, descend_component (slash_notMem_lastComponent name)] at h

/-- **The last component of the first name and the first one of the second become one.** -/
theorem resolve_append (cwd : Location) {a b : Bytes} (h : a = [] → b = []) :
    resolve cwd (a ++ b) =
      descend (walk (resolve cwd (dirPart a)) (lastComponent a ++ firstComponent b)) (belowFirst b) := by
  have hsplit : a ++ b = dirPart a ++ (lastComponent a ++ firstComponent b ++ belowFirst b) := by
    rw [List.append_assoc, firstComponent_append_belowFirst, ← List.append_assoc,
      dirPart_append_lastComponent]
  have hslash : slash ∉ lastComponent a ++ firstComponent b := by
    rw [List.mem_append, not_or]
    exact ⟨slash_notMem_lastComponent a, slash_notMem_firstComponent b⟩
  have hnot : dirPart a = [] → ¬ IsAbsolute (lastComponent a ++ firstComponent b ++ belowFirst b) := by
    intro hd
    rcases eq_or_ne a [] with rfl | ha
    · rw [h rfl]
      decide
    · refine not_isAbsolute_append ?_ hslash _
      have hlast : lastComponent a = a := by
        have hparts := dirPart_append_lastComponent a
        rwa [hd, List.nil_append] at hparts
      rw [hlast]
      exact List.append_ne_nil_of_left_ne_nil ha _
  rw [hsplit, resolve_dirPart_append cwd a hnot, descend_component_append hslash (startsBelow_belowFirst b)]

/-- The names lead from the parent of a directory back into it, or the directory is the top. -/
def Reenters (l : Location) (ns : List Bytes) : Prop :=
  l = [] ∨ ∃ n, l.getLast? = some n ∧ ns.head? = some n

theorem reenters_iff {l : Location} {ns : List Bytes} : l <+: l.dropLast ++ ns ↔ Reenters l ns := by
  rcases List.eq_nil_or_concat' l with rfl | ⟨l, n, rfl⟩
  · exact ⟨fun _ => .inl rfl, fun _ => List.nil_prefix⟩
  · rw [List.dropLast_concat, List.prefix_append_right_inj, Reenters, List.getLast?_concat]
    constructor
    · intro h
      obtain ⟨rest, rfl⟩ := h
      exact .inr ⟨n, rfl, rfl⟩
    · intro h
      rcases h with h | ⟨m, hm, hhead⟩
      · simp at h
      · obtain rfl := Option.some.inj hm
        obtain ⟨rest, rfl⟩ := List.head?_eq_some_iff.mp hhead
        exact ⟨rest, rfl⟩

/-- **When a name put behind a root stays below it.**  Either the name is empty or starts with a slash, or
the root ends with one; or the root ends in `..`; or it ends in `.` and the two do not make a `..` of
that, unless that way up leads nowhere or is taken back at once. -/
def Contained (cwd : Location) (root name : Bytes) : Prop :=
  firstComponent name = [] ∨ lastComponent root = [] ∨ lastComponent root = dotDot ∨
    lastComponent root = dot ∧
      (firstComponent name ≠ dot ∨ Reenters (resolve cwd (dirPart root)) (names (belowFirst name)))

theorem isName_append {a b : Bytes} (ha : a ≠ []) (hb : b ≠ []) (h : ¬ (a = dot ∧ b = dot)) :
    IsName (a ++ b) := by
  obtain ⟨x, a, rfl⟩ := List.exists_cons_of_ne_nil ha
  obtain ⟨y, b, rfl⟩ := List.exists_cons_of_ne_nil hb
  refine ⟨by simp, ?_, ?_⟩
  · intro hdot
    have hlen := congrArg List.length hdot
    simp [dot, bytes] at hlen
  · intro hdots
    rw [show dotDot = [byte '.', byte '.'] from rfl, List.cons_append, List.cons.injEq] at hdots
    obtain ⟨rfl, htail⟩ := hdots
    cases a with
    | nil => exact h ⟨rfl, htail⟩
    | cons z a =>
      have hlen := congrArg List.length htail
      simp at hlen

/-- **A root and a name, side by side.** -/
theorem resolve_append_below_iff (cwd : Location) {root name : Bytes} (hroot : root = [] → name = [])
    (hdots : ¬ dotDot <:+: name) :
    resolve cwd root <+: resolve cwd (root ++ name) ↔ Contained cwd root name := by
  have hbelow : ¬ dotDot <:+: belowFirst name := fun h =>
    hdots (h.trans (List.dropWhile_suffix _).isInfix)
  rw [resolve_append cwd hroot, descend_eq_append_names hbelow, resolve_eq_walk cwd root]
  generalize hdir : resolve cwd (dirPart root) = dir
  rcases eq_or_ne (firstComponent name) [] with hf | hf
  · rw [hf, List.append_nil]
    exact iff_of_true (List.prefix_append _ _) (.inl hf)
  rcases eq_or_ne (lastComponent root) [] with hb | hb
  · refine iff_of_true ?_ (.inr (.inl hb))
    rw [hb, walk_nil, List.nil_append]
    have hname := descend_component_append (slash_notMem_firstComponent name)
      (startsBelow_belowFirst name) dir
    rw [firstComponent_append_belowFirst, descend_eq_append_names hdots,
      descend_eq_append_names hbelow] at hname
    rw [← hname]
    exact List.prefix_append _ _
  by_cases hup : lastComponent root = dot ∧ firstComponent name = dot
  · rw [hup.1, hup.2, walk_dot, show dot ++ dot = dotDot from rfl, walk_dotDot, reenters_iff, Contained,
      hdir, hup.1, hup.2]
    simp [dot, dotDot, bytes]
  have hname := isName_append hb hf hup
  rw [walk_name hname]
  rcases eq_or_ne (lastComponent root) dotDot with hdd | hdd
  · refine iff_of_true ?_ (.inr (.inr (.inl hdd)))
    rw [hdd, walk_dotDot, List.append_assoc]
    exact (List.dropLast_prefix dir).trans (List.prefix_append _ _)
  rcases eq_or_ne (lastComponent root) dot with hd | hd
  · refine iff_of_true ?_ (.inr (.inr (.inr ⟨hd, .inl fun hfirst => hup ⟨hd, hfirst⟩⟩)))
    rw [hd, walk_dot, List.append_assoc]
    exact List.prefix_append _ _
  · rw [walk_name ⟨hb, hd, hdd⟩, List.append_assoc, List.prefix_append_right_inj]
    refine iff_of_false ?_ ?_
    · intro hfront
      rw [List.singleton_append, List.cons_prefix_cons] at hfront
      exact hf (List.append_right_eq_self.mp hfront.1.symm)
    · intro hcontained
      rcases hcontained with h | h | h | ⟨h, -⟩
      · exact hf h
      · exact hb h
      · exact hdd h
      · exact hd h

end LexicalPath
