import Mathlib.Data.List.Find
import Webserver.Server.ServerConfig

/-!
# Registrations

`ParseRequestHandlers` seen as a list of registrations: the statements that make a handler, in order, each
with the class, the arguments of `Init` and the name for the table of type names, and at the end the
fallback when none of them has the empty key.  The handler map is this list put in with `insert`, the table
of type names is the same list put in with `operator[]`.

* `find_handlers` — the handler under a key is the one of the key's first registration.
* `handlerInfo_perm_iff` — the table of type names is the handler map, shown, if and only if no path is
  named like the default entry and the repetitions of a key agree on the type.
-/

namespace Webserver.Server

open ByteString ConfigTree OrderedMap

/-! ### What a statement registers -/

/-- **A handler that is made and accepted**: the object before `Init`, the two arguments of `Init`, and what
is written into the table of type names. -/
structure Registration where
  created : RequestHandler
  key : Bytes
  block : NginxConfig
  infoKey : Bytes
  type : Bytes

namespace Registration

/-- The handler that is stored. -/
def handler (r : Registration) : RequestHandler := (r.created.init r.key r.block).2

/-- The effect on the two maps. -/
def store (out : Map Bytes RequestHandler × HandlerInfo) (r : Registration) :
    Map Bytes RequestHandler × HandlerInfo :=
  (out.1.insert r.key r.handler, out.2.set r.infoKey r.type)

theorem foldl_store (rs : List Registration) (out : Map Bytes RequestHandler × HandlerInfo) :
    rs.foldl store out =
      (rs.foldl (fun m r => m.insert r.key r.handler) out.1,
        rs.foldl (fun m r => m.set r.infoKey r.type) out.2) := by
  induction rs generalizing out with
  | nil => rfl
  | cons r rs ih =>
    rw [List.foldl_cons, ih]
    rfl

end Registration

/-- The registration of a known type with a child block that `Init` accepts. -/
def registration (key infoKey type : Bytes) (child : Option NginxConfig) : Option Registration :=
  match createByName type, child with
  | some handler, some config =>
    if (handler.init key config).1 = .ok then some ⟨handler, key, config, infoKey, type⟩ else none
  | _, _ => none

/-- An effective `path` statement. -/
def effectivePath (statement : NginxConfigStatement) : Option Registration :=
  match statement.tokens with
  | first :: key :: type :: _ =>
    if first = bytes "path" then registration key key type statement.childBlock else none
  | _ => none

/-- An effective `default` statement. -/
def effectiveDefault (statement : NginxConfigStatement) : Option Registration :=
  match statement.tokens with
  | first :: type :: _ =>
    if first = bytes "default" then
      registration [] (bytes "(default)") type statement.childBlock
    else none
  | _ => none

/-- What a statement registers. -/
def effective (statement : NginxConfigStatement) : Option Registration :=
  (effectivePath statement).or (effectiveDefault statement)

/-- What the statements of a configuration register, in order. -/
def registrations (config : NginxConfig) : List Registration := config.statements.filterMap effective

/-- The fallback for a configuration without a default. -/
def fallback : Registration :=
  ⟨.notFoundHandler, [], .empty, bytes "(default)", bytes "NotFoundHandler"⟩

/-- The registrations together with the fallback. -/
def allRegistrations (config : NginxConfig) : List Registration :=
  if ∃ r ∈ registrations config, r.key = [] then registrations config
  else registrations config ++ [fallback]

theorem registration_eq_some_iff {key infoKey type : Bytes} {child : Option NginxConfig}
    {r : Registration} :
    registration key infoKey type child = some r ↔
      ∃ handler config, createByName type = some handler ∧ child = some config ∧
        (handler.init key config).1 = .ok ∧ r = ⟨handler, key, config, infoKey, type⟩ := by
  unfold registration
  cases hc : createByName type with
  | none => simp
  | some handler =>
    cases child with
    | none => simp
    | some config =>
      by_cases hok : (handler.init key config).1 = .ok
      · simp [hok, eq_comm]
      · simp [hok]

/-- The effect of `register`. -/
theorem register_eq (key infoKey type : Bytes) (child : Option NginxConfig)
    (out : Map Bytes RequestHandler × HandlerInfo) :
    register key infoKey type child out =
      match registration key infoKey type child with
      | some r => r.store out
      | none => out := by
  unfold register registration
  cases hc : createByName type with
  | none => rfl
  | some handler =>
    cases child with
    | none => rfl
    | some config =>
      by_cases hok : (handler.init key config).1 = .ok
      · simp only [if_pos hok]
        rfl
      · simp only [if_neg hok]

/-- **One turn of the loop** stores what the statement registers. -/
theorem parseStatement_eq (out : Map Bytes RequestHandler × HandlerInfo)
    (statement : NginxConfigStatement) :
    parseStatement out statement =
      match effective statement with
      | some r => r.store out
      | none => out := by
  have hne : bytes "default" ≠ bytes "path" := by decide
  rw [parseStatement, effective, effectivePath, effectiveDefault]
  cases statement.tokens with
  | nil => rfl
  | cons first args =>
    by_cases hpath : first = bytes "path"
    · subst hpath
      cases args with
      | nil => rfl
      | cons key args =>
        cases args with
        | nil => simp [hne.symm]
        | cons type args => simp [hne.symm, register_eq]
    · by_cases hdefault : first = bytes "default"
      · subst hdefault
        cases args with
        | nil => simp [hne]
        | cons type args =>
          cases args with
          | nil => simp [hne, register_eq]
          | cons _ _ => simp [hne, register_eq]
      · cases args with
        | nil => simp [hpath, hdefault]
        | cons key args => cases args <;> simp [hpath, hdefault]

/-- **The loop over the statements** stores the registrations. -/
theorem foldl_parseStatement (ss : List NginxConfigStatement)
    (out : Map Bytes RequestHandler × HandlerInfo) :
    ss.foldl parseStatement out = (ss.filterMap effective).foldl Registration.store out := by
  induction ss generalizing out with
  | nil => rfl
  | cons s ss ih =>
    rw [List.foldl_cons, ih, parseStatement_eq, List.filterMap_cons]
    cases effective s <;> rfl

/-- **Both maps of a call on new maps** hold the registrations with the fallback. -/
theorem ensureDefault_foldl (config : NginxConfig) :
    ensureDefault (config.statements.foldl parseStatement (.empty, .empty)) =
      (allRegistrations config).foldl Registration.store (.empty, .empty) := by
  rw [foldl_parseStatement]
  show ensureDefault ((registrations config).foldl Registration.store (.empty, .empty)) = _
  have hfind : ((registrations config).foldl Registration.store (.empty, .empty)).1.find [] = none ↔
      ¬ ∃ r ∈ registrations config, r.key = [] := by
    rw [Registration.foldl_store, Map.find_foldl_insert]
    simp
  by_cases hdefault : ∃ r ∈ registrations config, r.key = []
  · rw [allRegistrations, if_pos hdefault, ensureDefault, if_neg (fun h => hfind.mp h hdefault)]
  · rw [allRegistrations, if_neg hdefault, List.foldl_append, ensureDefault, if_pos (hfind.mpr hdefault)]
    rfl

/-- The registration whose handler is stored under a key. -/
def storedUnder (config : NginxConfig) (key : Bytes) : Option Registration :=
  (allRegistrations config).find? fun r => r.key = key

/-- **The handler map**: the first registration of a key makes its handler. -/
theorem find_handlers (config : NginxConfig) (key : Bytes) :
    (parseFreshHandlers config).handlers.map.find key =
      (storedUnder config key).map Registration.handler := by
  show (ensureDefault _).1.find key = _
  rw [ensureDefault_foldl, Registration.foldl_store, Map.find_foldl_insert, Map.find_empty,
    Option.none_or]
  rfl

/-- **The table of type names**: the last registration of a name gives its type. -/
theorem find_handlerInfo (config : NginxConfig) (name : Bytes) :
    (parseFreshHandlers config).handlerInfo.find name =
      ((allRegistrations config).reverse.find? fun r => r.infoKey = name).map Registration.type := by
  show (ensureDefault _).2.find name = _
  rw [ensureDefault_foldl, Registration.foldl_store, Map.find_foldl_set, Map.find_empty,
    Option.or_none]

/-! ### Types and names -/

/-- The name under which the class of a handler is registered. -/
def RequestHandler.typeName : RequestHandler → Bytes
  | .echoHandler => bytes "EchoHandler"
  | .notFoundHandler => bytes "NotFoundHandler"
  | .statusHandler => bytes "StatusHandler"
  | .staticFileHandler _ => bytes "StaticFileHandler"
  | .reverseProxyHandler _ => bytes "ReverseProxyHandler"

theorem RequestHandler.typeName_init (handler : RequestHandler) (uriPrefix : Bytes) (config : NginxConfig) :
    (handler.init uriPrefix config).2.typeName = handler.typeName := by
  cases handler <;> rfl

/-- `CreateByName` makes an object of the class with that name, read as a C string. -/
theorem typeName_of_createByName {type : Bytes} {handler : RequestHandler}
    (h : createByName type = some handler) : handler.typeName = cStr type := by
  simp only [createByName] at h
  split_ifs at h with h1 h2 h3 h4 h5
  · rw [h1, ← Option.some.inj h]
    rfl
  · rw [h2, ← Option.some.inj h]
    rfl
  · rw [h3, ← Option.some.inj h]
    rfl
  · rw [h4, ← Option.some.inj h]
    rfl
  · rw [h5, ← Option.some.inj h]
    rfl

/-- The name of a key in the table of type names. -/
def showKey (key : Bytes) : Bytes := if key = [] then bytes "(default)" else key

theorem showKey_ne_nil (key : Bytes) : showKey key ≠ [] := by
  rw [showKey]
  split_ifs with h
  · decide
  · exact h

/-- `showKey` confuses the empty key and the key `(default)`, and no others. -/
theorem showKey_inj {key key' : Bytes} (hkey : key ≠ bytes "(default)") (hkey' : key' ≠ bytes "(default)") :
    showKey key = showKey key' ↔ key = key' := by
  rw [showKey, showKey]
  split_ifs with h h' h'
  · exact iff_of_true rfl (h.trans h'.symm)
  · exact iff_of_false hkey'.symm fun heq => h' (heq.symm.trans h)
  · exact iff_of_false hkey fun heq => h (heq.trans h')
  · rfl

/-- **A registration is well formed** when its type names its class and its name shows its key. -/
structure Registration.WellFormed (r : Registration) : Prop where
  typeName : r.handler.typeName = cStr r.type
  shown : r.infoKey = showKey r.key ∨ r.key = [] ∧ r.infoKey = []

theorem wellFormed_of_registration {key infoKey type : Bytes} {child : Option NginxConfig}
    {r : Registration} (h : registration key infoKey type child = some r)
    (hshown : infoKey = showKey key ∨ key = [] ∧ infoKey = []) : r.WellFormed := by
  obtain ⟨handler, config, hc, -, -, rfl⟩ := registration_eq_some_iff.mp h
  exact ⟨(handler.typeName_init key config).trans (typeName_of_createByName hc), hshown⟩

theorem effectivePath_spec {s : NginxConfigStatement} {r : Registration} (h : effectivePath s = some r) :
    r.WellFormed ∧ r.infoKey = r.key := by
  unfold effectivePath at h
  split at h
  · split_ifs at h
    refine ⟨wellFormed_of_registration h ?_, ?_⟩
    · rename_i key _ _ _ _
      by_cases hkey : key = []
      · exact .inr ⟨hkey, hkey⟩
      · exact .inl (if_neg hkey).symm
    · obtain ⟨_, _, _, _, _, rfl⟩ := registration_eq_some_iff.mp h
      rfl
  · cases h

theorem effectiveDefault_spec {s : NginxConfigStatement} {r : Registration}
    (h : effectiveDefault s = some r) : r.WellFormed ∧ r.key = [] ∧ r.infoKey = bytes "(default)" := by
  unfold effectiveDefault at h
  split at h
  · split_ifs at h
    refine ⟨wellFormed_of_registration h (.inl rfl), ?_⟩
    obtain ⟨_, _, _, _, _, rfl⟩ := registration_eq_some_iff.mp h
    exact ⟨rfl, rfl⟩
  · cases h

theorem mem_registrations {config : NginxConfig} {r : Registration} :
    r ∈ registrations config ↔
      ∃ s ∈ config.statements, effectivePath s = some r ∨ effectivePath s = none ∧ effectiveDefault s = some r := by
  rw [registrations, List.mem_filterMap]
  simp only [effective, Option.or_eq_some_iff]

theorem mem_allRegistrations {config : NginxConfig} {r : Registration} :
    r ∈ allRegistrations config ↔
      r ∈ registrations config ∨ r = fallback ∧ ∀ r' ∈ registrations config, r'.key ≠ [] := by
  rw [allRegistrations]
  split_ifs with h
  · obtain ⟨r', hr', hkey⟩ := h
    exact ⟨.inl, fun hr => hr.resolve_right fun hall => hall.2 r' hr' hkey⟩
  · rw [List.mem_append, List.mem_singleton]
    refine or_congr_right (iff_self_and.mpr fun _ r' hr' hkey => h ⟨r', hr', hkey⟩)

theorem wellFormed_of_mem {config : NginxConfig} {r : Registration} (h : r ∈ allRegistrations config) :
    r.WellFormed := by
  rcases mem_allRegistrations.mp h with hr | ⟨rfl, -⟩
  · obtain ⟨s, -, hs | ⟨-, hs⟩⟩ := mem_registrations.mp hr
    · exact (effectivePath_spec hs).1
    · exact (effectiveDefault_spec hs).1
  · exact ⟨by decide, .inl rfl⟩

/-- There is always a registration for the empty key. -/
theorem storedUnder_nil_isSome (config : NginxConfig) : (storedUnder config []).isSome := by
  have h := (parseFreshHandlers config).handlers.default_isSome
  rwa [find_handlers, Option.isSome_map] at h

/-! ### The table of type names -/

/-- An entry of the handler map as the status page shows it. -/
def showEntry (e : Bytes × RequestHandler) : Bytes × Bytes := (showKey e.1, e.2.typeName)

/-- **When the table of type names is right.**  No effective path is written like the default entry, and
for every key the last effective statement names the type that the first one made. -/
structure Consistent (config : NginxConfig) : Prop where
  path : ∀ s ∈ config.statements, ∀ r, effectivePath s = some r → r.key ≠ [] ∧ r.key ≠ bytes "(default)"
  type : ∀ key first last, ((registrations config).find? fun r => r.key = key) = some first →
    ((registrations config).reverse.find? fun r => r.key = key) = some last → last.type = cStr first.type

/-- Every registration is shown under its own key. -/
def ShownApart (config : NginxConfig) : Prop :=
  ∀ r ∈ allRegistrations config, r.infoKey = showKey r.key ∧ r.key ≠ bytes "(default)"

theorem shownApart_of_path {config : NginxConfig}
    (h : ∀ s ∈ config.statements, ∀ r, effectivePath s = some r → r.key ≠ [] ∧ r.key ≠ bytes "(default)") :
    ShownApart config := by
  intro r hr
  rcases mem_allRegistrations.mp hr with hr | ⟨rfl, -⟩
  · obtain ⟨s, hs, hpath | ⟨-, hdefault⟩⟩ := mem_registrations.mp hr
    · obtain ⟨hne, hdef⟩ := h s hs r hpath
      refine ⟨?_, hdef⟩
      rw [(effectivePath_spec hpath).2, showKey, if_neg hne]
    · obtain ⟨-, hkey, hinfo⟩ := effectiveDefault_spec hdefault
      rw [hkey, hinfo]
      exact ⟨rfl, by decide⟩
  · exact ⟨rfl, by decide⟩

/-- Apart from each other, the last registration of a name is the last one of its key. -/
theorem ShownApart.find?_reverse {config : NginxConfig} (h : ShownApart config) {key : Bytes}
    (hkey : key ≠ bytes "(default)") :
    ((allRegistrations config).reverse.find? fun r => r.infoKey = showKey key) =
      (allRegistrations config).reverse.find? fun r => r.key = key := by
  refine List.find?_congr fun r hr => ?_
  obtain ⟨hinfo, hne⟩ := h r (List.mem_reverse.mp hr)
  rw [hinfo, decide_eq_decide]
  exact showKey_inj hne hkey

theorem ShownApart.key_ne {config : NginxConfig} (h : ShownApart config) {key : Bytes} {r : Registration}
    (hr : storedUnder config key = some r) : key ≠ bytes "(default)" := by
  have hkey : r.key = key := by simpa using List.find?_some hr
  rw [← hkey]
  exact (h r (List.mem_of_find?_eq_some hr)).2

/-- The last registration of a key, the fallback included, names the type of the first. -/
theorem last_type_iff (config : NginxConfig) :
    (∀ key first last, ((registrations config).find? fun r => r.key = key) = some first →
        ((registrations config).reverse.find? fun r => r.key = key) = some last → last.type = cStr first.type) ↔
      ∀ key first last, storedUnder config key = some first →
        ((allRegistrations config).reverse.find? fun r => r.key = key) = some last →
          last.type = cStr first.type := by
  simp only [storedUnder]
  rw [allRegistrations]
  split_ifs with hdefault
  · rfl
  · have hnone : ∀ r ∈ registrations config, r.key ≠ [] := fun r hr hkey => hdefault ⟨r, hr, hkey⟩
    refine forall_congr' fun key => ?_
    by_cases hkey : key = []
    · subst hkey
      have hfirst : ((registrations config).find? fun r => r.key = []) = none := by simpa using hnone
      have hlast : ((registrations config).reverse.find? fun r => r.key = []) = none := by simpa using hnone
      rw [hfirst, List.find?_append, hfirst, List.reverse_append]
      refine iff_of_true (fun first last h => by cases h) ?_
      intro first last h h'
      obtain rfl : fallback = first := Option.some.inj h
      obtain rfl : fallback = last := Option.some.inj h'
      decide
    · have hfallback : ([fallback].find? fun r => r.key = key) = none := by
        simpa [fallback] using Ne.symm hkey
      rw [List.reverse_append, List.find?_append, List.find?_append, List.reverse_singleton, hfallback,
        Option.or_none, Option.none_or]

/-- The last registration that is shown under a name. -/
def shownUnder (config : NginxConfig) (name : Bytes) : Option Registration :=
  (allRegistrations config).reverse.find? fun r => r.infoKey = name

/-- Among the elements with a property there is a last one. -/
theorem exists_find?_reverse {α : Type*} {p : α → Bool} {l : List α} {a : α} (ha : a ∈ l) (hp : p a) :
    ∃ last, l.reverse.find? p = some last :=
  Option.isSome_iff_exists.mp (List.find?_isSome.mpr ⟨a, List.mem_reverse.mpr ha, hp⟩)

/-- The table shows the handlers, entry by entry. -/
structure ShowsHandlers (config : NginxConfig) : Prop where
  inj : ∀ k₁ k₂, (storedUnder config k₁).isSome → (storedUnder config k₂).isSome →
    showKey k₁ = showKey k₂ → k₁ = k₂
  shown : ∀ name type, (∃ last, shownUnder config name = some last ∧ last.type = type) ↔
    ∃ key handler, (∃ first, storedUnder config key = some first ∧ first.handler = handler) ∧
      showKey key = name ∧ handler.typeName = type

theorem entries_perm_iff_showsHandlers (config : NginxConfig) :
    (parseFreshHandlers config).handlerInfo.entries.Perm
        ((parseFreshHandlers config).handlers.map.entries.map showEntry) ↔ ShowsHandlers config := by
  refine (Map.entries_perm_map_iff showKey RequestHandler.typeName).trans ?_
  simp only [find_handlers, find_handlerInfo, Option.isSome_map, Option.map_eq_some_iff]
  exact ⟨fun h => ⟨h.1, h.2⟩, fun h => ⟨h.inj, h.shown⟩⟩

/-- A path without a name would be shown under no key, and one that is named like the default entry would
be shown under its name. -/
theorem ShowsHandlers.path {config : NginxConfig} (h : ShowsHandlers config) {s : NginxConfigStatement}
    (hs : s ∈ config.statements) {r : Registration} (hr : effectivePath s = some r) :
    r.key ≠ [] ∧ r.key ≠ bytes "(default)" := by
  have hmem : r ∈ allRegistrations config :=
    mem_allRegistrations.mpr (.inl (mem_registrations.mpr ⟨s, hs, .inl hr⟩))
  constructor
  · intro hnil
    have hname : r.infoKey = [] := (effectivePath_spec hr).2.trans hnil
    obtain ⟨last, hlast⟩ := exists_find?_reverse (p := fun r => r.infoKey = []) hmem (decide_eq_true hname)
    obtain ⟨key, -, -, hshow, -⟩ := (h.shown [] last.type).mp ⟨last, hlast, rfl⟩
    exact showKey_ne_nil key hshow
  · intro hdef
    have hstored : (storedUnder config (bytes "(default)")).isSome :=
      List.find?_isSome.mpr ⟨r, hmem, decide_eq_true hdef⟩
    have heq := h.inj _ _ hstored (storedUnder_nil_isSome config) (by decide)
    exact absurd heq (by decide)

/-- The type that a stored handler has. -/
theorem typeName_of_stored {config : NginxConfig} {key : Bytes} {first : Registration}
    (h : storedUnder config key = some first) : first.handler.typeName = cStr first.type :=
  (wellFormed_of_mem (List.mem_of_find?_eq_some h)).typeName

theorem ShowsHandlers.consistent {config : NginxConfig} (h : ShowsHandlers config) : Consistent config := by
  have hpath : ∀ s ∈ config.statements, ∀ r, effectivePath s = some r →
      r.key ≠ [] ∧ r.key ≠ bytes "(default)" := fun s hs r hr => h.path hs hr
  have hshown := shownApart_of_path hpath
  refine ⟨hpath, (last_type_iff config).mpr ?_⟩
  intro key first last hfirst hlast
  obtain ⟨shown, hshow, htype⟩ := (h.shown (showKey key) first.handler.typeName).mpr
    ⟨key, first.handler, ⟨first, hfirst, rfl⟩, rfl, rfl⟩
  rw [shownUnder, hshown.find?_reverse (hshown.key_ne hfirst), hlast] at hshow
  rw [Option.some.inj hshow, htype, typeName_of_stored hfirst]

/-- In a consistent configuration the last registration of a name has the type of the handler that is stored
for its key. -/
theorem Consistent.showsHandlers {config : NginxConfig} (h : Consistent config) : ShowsHandlers config := by
  have hshown := shownApart_of_path h.path
  have htype := (last_type_iff config).mp h.type
  refine ⟨?_, ?_⟩
  · intro k₁ k₂ h₁ h₂ heq
    obtain ⟨r₁, hr₁⟩ := Option.isSome_iff_exists.mp h₁
    obtain ⟨r₂, hr₂⟩ := Option.isSome_iff_exists.mp h₂
    exact (showKey_inj (hshown.key_ne hr₁) (hshown.key_ne hr₂)).mp heq
  · intro name type
    constructor
    · intro hname
      obtain ⟨last, hlast, rfl⟩ := hname
      have hmem := List.mem_reverse.mp (List.mem_of_find?_eq_some hlast)
      obtain ⟨hinfo, hne⟩ := hshown last hmem
      have hname : last.infoKey = name := by simpa using List.find?_some hlast
      obtain ⟨first, hfirst⟩ : ∃ first, storedUnder config last.key = some first :=
        Option.isSome_iff_exists.mp (List.find?_isSome.mpr ⟨last, hmem, by simp⟩)
      rw [shownUnder, ← hname, hinfo, hshown.find?_reverse hne] at hlast
      refine ⟨last.key, first.handler, ⟨first, hfirst, rfl⟩, hinfo.symm.trans hname, ?_⟩
      rw [htype _ first last hfirst hlast, typeName_of_stored hfirst]
    · intro hstored
      obtain ⟨key, handler, ⟨first, hfirst, rfl⟩, rfl, rfl⟩ := hstored
      have hkey : first.key = key := by simpa using List.find?_some hfirst
      obtain ⟨last, hlast⟩ := exists_find?_reverse (p := fun r => r.key = key)
        (List.mem_of_find?_eq_some hfirst) (decide_eq_true hkey)
      refine ⟨last, (hshown.find?_reverse (hshown.key_ne hfirst)).trans hlast, ?_⟩
      rw [htype _ first last hfirst hlast, typeName_of_stored hfirst]

/-- **The status page's table is the routing table exactly for consistent configurations.**  Up to order,
its entries are the entries of the handler map, each with its key (or `(default)`) and the name of the type
of the handler that is stored. -/
theorem handlerInfo_perm_iff (config : NginxConfig) :
    (parseFreshHandlers config).handlerInfo.entries.Perm
        ((parseFreshHandlers config).handlers.map.entries.map showEntry) ↔ Consistent config :=
  (entries_perm_iff_showsHandlers config).trans ⟨ShowsHandlers.consistent, Consistent.showsHandlers⟩

/-- Two `default` blocks: the first one answers, and the table names the second. -/
theorem handlerInfo_perm_defaults :
    ¬ (parseFreshHandlers ⟨[⟨[bytes "default", bytes "EchoHandler"], some .empty⟩,
          ⟨[bytes "default", bytes "StatusHandler"], some .empty⟩]⟩).handlerInfo.entries.Perm
        ((parseFreshHandlers ⟨[⟨[bytes "default", bytes "EchoHandler"], some .empty⟩,
          ⟨[bytes "default", bytes "StatusHandler"], some .empty⟩]⟩).handlers.map.entries.map showEntry) := by
  decide

end Webserver.Server
