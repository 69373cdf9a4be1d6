import Webserver.Server.ServerConfig

/-!
# The registry of handler classes

`REGISTER_REQUEST_HANDLER` defines a static object in every translation unit that includes the header of a class,
and the constructor of that object enters the class into the map behind `request_handler_builders`.  The static
objects of different translation units are constructed in no particular order, and a class can be entered any number
of times; `createByName` is what the map says in the end (`createByName_registered`).
-/

namespace Webserver.Server

open ByteString OrderedMap

/-- A class: its name, and the object that its builder makes. -/
abbrev HandlerClass := Bytes × RequestHandler

/-- The classes that are registered. -/
def handlerClasses : List HandlerClass :=
  [(bytes "EchoHandler", .echoHandler), (bytes "NotFoundHandler", .notFoundHandler),
    (bytes "ReverseProxyHandler", .reverseProxyHandler ⟨[], [], []⟩),
    (bytes "StaticFileHandler", .staticFileHandler ⟨[], []⟩), (bytes "StatusHandler", .statusHandler)]

/-- `request_handler_builders`, a null pointer at first. -/
abbrev Builders := Option (Map Bytes RequestHandler)

/-- The constructor of `RequestHandlerRegisterer`. -/
def registerClass (builders : Builders) (c : HandlerClass) : Builders :=
  some ((builders.getD .empty).set c.1 c.2)

/-- `CreateByName` with these builders.  The pointer is followed without a look at it. -/
def createFrom (builders : Builders) (type : Bytes) : Option (Option RequestHandler) :=
  builders.map fun m => m.find (cStr type)

theorem foldl_registerClass (cs : List HandlerClass) (m : Map Bytes RequestHandler) :
    cs.foldl registerClass (some m) = some (cs.foldl (fun m c => m.set c.1 c.2) m) := by
  induction cs generalizing m with
  | nil => rfl
  | cons c cs ih => exact ih (m.set c.1 c.2)

/-- Classes with the same name are the same. -/
theorem handlerClasses_unique {c c' : HandlerClass} (hc : c ∈ handlerClasses) (hc' : c' ∈ handlerClasses)
    (h : c.1 = c'.1) : c = c' := by
  have hnodup : (handlerClasses.map Prod.fst).Nodup := by decide
  exact List.inj_on_of_nodup_map hnodup hc hc' h

/-- The table of `createByName` is the one of the classes. -/
theorem createByName_eq (type : Bytes) :
    createByName type = (handlerClasses.find? fun c => c.1 = cStr type).map Prod.snd := by
  simp only [createByName, handlerClasses, List.find?_cons, List.find?_nil, @eq_comm _ (cStr type)]
  split_ifs with h₁ h₂ h₃ h₄ h₅
  · simp [h₁]
  · simp [h₁, h₂]
  · simp [h₁, h₂, h₃]
  · simp [h₁, h₂, h₃, h₄]
  · simp [h₁, h₂, h₃, h₄, h₅]
  · simp [h₁, h₂, h₃, h₄, h₅]

/-- Which of several entries of a list is found does not matter, when there is one for every name. -/
theorem find?_eq_of_sameClasses {cs ds : List HandlerClass} (hcs : ∀ c ∈ cs, c ∈ handlerClasses)
    (hds : ∀ c ∈ ds, c ∈ handlerClasses) (hmem : ∀ c, c ∈ cs → c ∈ ds) (hmem' : ∀ c, c ∈ ds → c ∈ cs)
    (name : Bytes) : (cs.find? fun c => c.1 = name) = ds.find? fun c => c.1 = name := by
  cases hfind : cs.find? fun c => c.1 = name with
  | none =>
    rw [List.find?_eq_none] at hfind
    refine (List.find?_eq_none.mpr fun c hc => ?_).symm
    exact hfind c (hmem' c hc)
  | some c =>
    have hc := List.mem_of_find?_eq_some hfind
    have hname : c.1 = name := by simpa using List.find?_some hfind
    cases hfind' : ds.find? fun c => c.1 = name with
    | none =>
      rw [List.find?_eq_none] at hfind'
      exact absurd (decide_eq_true hname) (hfind' c (hmem c hc))
    | some d =>
      have hd := List.mem_of_find?_eq_some hfind'
      have hname' : d.1 = name := by simpa using List.find?_some hfind'
      rw [handlerClasses_unique (hcs c hc) (hds d hd) (hname.trans hname'.symm)]

/-- **The order of the static objects does not matter.**  After any sequence of registrations in which every class
comes at least once and nothing else, `CreateByName` makes the objects that `createByName` makes. -/
theorem createByName_registered {cs : List HandlerClass} (hclasses : ∀ c ∈ cs, c ∈ handlerClasses)
    (hall : ∀ c ∈ handlerClasses, c ∈ cs) (type : Bytes) :
    createFrom (cs.foldl registerClass none) type = some (createByName type) := by
  obtain ⟨c, cs, rfl⟩ := List.exists_cons_of_ne_nil (l := cs) fun hnil => by
    rw [hnil] at hall
    exact List.not_mem_nil (hall _ List.mem_cons_self)
  have hstart : (c :: cs).foldl registerClass none =
      some ((c :: cs).foldl (fun m c => m.set c.1 c.2) Map.empty) := foldl_registerClass cs _
  rw [hstart, createFrom, Option.map_some, Map.find_foldl_set Prod.fst Prod.snd, Map.find_empty, Option.or_none,
    createByName_eq, @find?_eq_of_sameClasses _ handlerClasses]
  · exact fun d hd => hclasses d (List.mem_reverse.mp hd)
  · exact fun d hd => hd
  · exact fun d hd => hclasses d (List.mem_reverse.mp hd)
  · exact fun d hd => List.mem_reverse.mpr (hall d hd)

/-- The classes in the order of their names, and two of them once more. -/
theorem createByName_registered_twice :
    createFrom ((handlerClasses ++ handlerClasses.take 2).foldl registerClass none) (bytes "EchoHandler") =
      some (createByName (bytes "EchoHandler")) :=
  createByName_registered (by decide) (by decide) _

end Webserver.Server
