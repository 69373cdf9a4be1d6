import Webserver.Config.ConfigLanguage
import Webserver.Server.Dispatch
import Webserver.Server.Registration

/-!
# The order of the blocks

The registrations of a configuration, and so the handler that is stored under a key, only depend on which
statements there are when no key is registered twice.  A path of a configuration file is never empty, as the
words of a file are not, so a path and a default never meet under one key.

* `storedUnder_of_perm` — the handler of a key and its `Init` arguments survive every permutation.
* `parseFreshHandlers_perm` — the same for the configurations the parser leaves behind, down to the handler
  that a request path is dispatched to.
-/

namespace Webserver.Server

open ByteString ConfigTree ConfigParser ConfigLanguage OrderedMap

/-- **No key is registered twice**, and no path is empty. -/
structure DistinctKeys (config : NginxConfig) : Prop where
  path : ((config.statements.filterMap effectivePath).map Registration.key).Nodup
  path_ne : ∀ s ∈ config.statements, ∀ r, effectivePath s = some r → r.key ≠ []
  default : (config.statements.filterMap effectiveDefault).length ≤ 1

/-- The key of a path is one of its words. -/
theorem key_mem_tokens {s : NginxConfigStatement} {r : Registration} (h : effectivePath s = some r) :
    r.key ∈ s.tokens := by
  unfold effectivePath at h
  split at h
  · rename_i first key type rest htokens
    split_ifs at h
    obtain ⟨_, _, _, _, _, rfl⟩ := registration_eq_some_iff.mp h
    rw [htokens]
    exact List.mem_cons_of_mem _ List.mem_cons_self
  · cases h

/-- A registration with a key is a path, one without is a default. -/
theorem mem_filterMap_of_registration {config : NginxConfig}
    (hne : ∀ s ∈ config.statements, ∀ r, effectivePath s = some r → r.key ≠ []) {r : Registration}
    (hr : r ∈ registrations config) :
    (r.key ≠ [] ∧ r ∈ config.statements.filterMap effectivePath) ∨
      (r.key = [] ∧ r ∈ config.statements.filterMap effectiveDefault) := by
  obtain ⟨s, hs, hpath | ⟨-, hdefault⟩⟩ := mem_registrations.mp hr
  · exact .inl ⟨hne s hs r hpath, List.mem_filterMap.mpr ⟨s, hs, hpath⟩⟩
  · exact .inr ⟨(effectiveDefault_spec hdefault).2.1, List.mem_filterMap.mpr ⟨s, hs, hdefault⟩⟩

theorem eq_of_mem_of_length_le_one {α : Type*} {xs : List α} (h : xs.length ≤ 1) {x y : α} (hx : x ∈ xs)
    (hy : y ∈ xs) : x = y := by
  obtain ⟨z, rfl⟩ := List.length_eq_one_iff.mp (le_antisymm h (List.length_pos_of_mem hx))
  rw [List.mem_singleton.mp hx, List.mem_singleton.mp hy]

/-- **A key has one registration.** -/
theorem DistinctKeys.subsingleton {config : NginxConfig} (h : DistinctKeys config) {r r' : Registration}
    (hr : r ∈ allRegistrations config) (hr' : r' ∈ allRegistrations config) (hkey : r.key = r'.key) :
    r = r' := by
  rcases mem_allRegistrations.mp hr with hr | ⟨rfl, hnone⟩
  · rcases mem_allRegistrations.mp hr' with hr' | ⟨rfl, hnone⟩
    · rcases mem_filterMap_of_registration h.path_ne hr with ⟨hne, hmem⟩ | ⟨hnil, hmem⟩
      · rcases mem_filterMap_of_registration h.path_ne hr' with ⟨-, hmem'⟩ | ⟨hnil', -⟩
        · exact List.inj_on_of_nodup_map h.path hmem hmem' hkey
        · exact absurd (hkey.trans hnil') hne
      · rcases mem_filterMap_of_registration h.path_ne hr' with ⟨hne', -⟩ | ⟨-, hmem'⟩
        · exact absurd (hkey.symm.trans hnil) hne'
        · exact eq_of_mem_of_length_le_one h.default hmem hmem'
    · exact absurd hkey (hnone r hr)
  · rcases mem_allRegistrations.mp hr' with hr' | ⟨rfl, -⟩
    · exact absurd hkey.symm (hnone r' hr')
    · rfl

theorem allRegistrations_perm {config config' : NginxConfig}
    (hperm : config.statements.Perm config'.statements) :
    (allRegistrations config).Perm (allRegistrations config') := by
  have hregs : (registrations config).Perm (registrations config') := hperm.filterMap effective
  have hdefault : (∃ r ∈ registrations config, r.key = []) ↔ ∃ r ∈ registrations config', r.key = [] :=
    exists_congr fun r => and_congr_left fun _ => hregs.mem_iff
  rw [allRegistrations, allRegistrations]
  simp only [hdefault]
  split_ifs
  · exact hregs
  · exact hregs.append_right [fallback]

/-- **The handler of a key** is made by the same call in every order of the blocks. -/
theorem storedUnder_of_perm {config config' : NginxConfig} (h : DistinctKeys config)
    (hperm : config.statements.Perm config'.statements) (key : Bytes) :
    storedUnder config key = storedUnder config' key := by
  refine List.find?_eq_find?_of_perm (allRegistrations_perm hperm) ?_
  rintro r ⟨hr, hkey⟩ r' ⟨hr', hkey'⟩
  rw [decide_eq_true_iff] at hkey hkey'
  exact h.subsingleton hr hr' (hkey.trans hkey'.symm)

theorem handlers_of_perm {config config' : NginxConfig} (h : DistinctKeys config)
    (hperm : config.statements.Perm config'.statements) :
    (parseFreshHandlers config).handlers.map = (parseFreshHandlers config').handlers.map := by
  refine Map.ext_find fun key => ?_
  rw [find_handlers, find_handlers, storedUnder_of_perm h hperm]

/-- The words of a configuration file are not empty, so its paths are not. -/
theorem path_ne_of_parse {text : Bytes} {b : Bool} {config : NginxConfig}
    (h : parse text = some (b, config)) :
    ∀ s ∈ config.statements, ∀ r, effectivePath s = some r → r.key ≠ [] := by
  intro s hs r hr
  exact (lexableTop_of_parse h s hs r.key (key_mem_tokens hr)).ne_nil

/-- **The order of the blocks does not matter.**  For the configuration of any file, accepted by the parser
or not, whose effective paths have distinct keys and which has at most one effective default, and for any
permutation of its top-level statements: the handler stored under a key is the one that the same call of
`Init` on an object of the same class made, and every path is dispatched to the same key and handler. -/
theorem parseFreshHandlers_perm {text : Bytes} {b : Bool} {config config' : NginxConfig}
    (hparse : parse text = some (b, config))
    (hpath : ((config.statements.filterMap effectivePath).map Registration.key).Nodup)
    (hdefault : (config.statements.filterMap effectiveDefault).length ≤ 1)
    (hperm : config.statements.Perm config'.statements) :
    (∀ key, storedUnder config key = storedUnder config' key ∧
      (parseFreshHandlers config).handlers.map.find key =
        (storedUnder config key).map Registration.handler ∧
      (parseFreshHandlers config').handlers.map.find key =
        (storedUnder config' key).map Registration.handler) ∧
      ∀ path, dispatch (parseFreshHandlers config).handlers.map path =
        dispatch (parseFreshHandlers config').handlers.map path := by
  have h : DistinctKeys config := ⟨hpath, path_ne_of_parse hparse, hdefault⟩
  refine ⟨?_, ?_⟩
  · intro key
    exact ⟨storedUnder_of_perm h hperm key, find_handlers config key, find_handlers config' key⟩
  · intro path
    rw [handlers_of_perm h hperm]

/-- A path and a default, exchanged. -/
theorem parseFreshHandlers_perm_swap :
    dispatch (parseFreshHandlers ⟨[⟨[bytes "path", bytes "/a", bytes "EchoHandler"], some .empty⟩,
        ⟨[bytes "default", bytes "StatusHandler"], some .empty⟩]⟩).handlers.map (bytes "/a/b") =
      dispatch (parseFreshHandlers ⟨[⟨[bytes "default", bytes "StatusHandler"], some .empty⟩,
        ⟨[bytes "path", bytes "/a", bytes "EchoHandler"], some .empty⟩]⟩).handlers.map (bytes "/a/b") :=
  (@parseFreshHandlers_perm (bytes "path /a EchoHandler {} default StatusHandler {}") true
    ⟨[⟨[bytes "path", bytes "/a", bytes "EchoHandler"], some .empty⟩,
      ⟨[bytes "default", bytes "StatusHandler"], some .empty⟩]⟩
    ⟨[⟨[bytes "default", bytes "StatusHandler"], some .empty⟩,
      ⟨[bytes "path", bytes "/a", bytes "EchoHandler"], some .empty⟩]⟩
    rfl (by decide) (by decide) (List.Perm.swap _ _ [])).2 (bytes "/a/b")

end Webserver.Server
