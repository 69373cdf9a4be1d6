import Webserver.Config.ConfigLanguage
import Webserver.Support.Numeral

/-!
# Server settings of a configuration

`NginxServerConfigParser::ParseServerSettings` reads the port from the top-level statements.  It takes the first
token of every statement and the second token of a `port` statement without looking at how many there are; an
index out of range is undefined behaviour, which the `catch (...)` around it does not catch, and makes the
result `none`.

The first index is always in range, as every statement of every tree that `Parse` leaves has a token.  The
second one is in range until a `port` statement with nothing behind its name comes while no port is known
(`parseServerSettings_iff`).
-/

namespace Webserver.Server

open ByteString CxxString Numeral ConfigTree ConfigLexer ConfigParser ConfigLanguage

structure ServerSettings where
  port : ℤ

/-- One turn of the loop over the statements. -/
def parseSetting (serverSettingsOut : ServerSettings) (statement : NginxConfigStatement) :
    Option ServerSettings := do
  let first ← statement.tokens[0]?
  if first = bytes "port" then
    if serverSettingsOut.port = -1 then do
      let second ← statement.tokens[1]?
      match stoi second with
      | .error _ => some serverSettingsOut
      | .ok port =>
        if 0 ≤ port ∧ port ≤ 65535 then
          -- the token is converted a second time
          match stoi second with
          | .error _ => some serverSettingsOut
          | .ok port => some { serverSettingsOut with port := port }
        else some serverSettingsOut
    else some serverSettingsOut
  else some serverSettingsOut

/-- `ParseServerSettings`: the out-parameter, whose port is also what the method returns. -/
def parseServerSettings (config : NginxConfig) : Option ServerSettings :=
  config.statements.foldlM parseSetting ⟨-1⟩

/-! ### The port -/

/-- The port that a statement sets: its first token is `port`, and its second one is there and converts to a
port number. -/
def portOf (statement : NginxConfigStatement) : Option ℤ :=
  match statement.tokens with
  | first :: second :: _ =>
    match stoi second with
    | .ok port => if first = bytes "port" ∧ 0 ≤ port ∧ port ≤ 65535 then some port else none
    | .error _ => none
  | _ => none

/-- **The port of a configuration**: the first one that a top-level statement sets, or `-1`. -/
def configuredPort (config : NginxConfig) : ℤ := (config.statements.findSome? portOf).getD (-1)

/-- Every statement that is the word `port` alone has a statement with a port in front of it. -/
def BarePortBehind (ss : List NginxConfigStatement) : Prop :=
  ∀ before s after, ss = before ++ s :: after → s.tokens = [bytes "port"] →
    ∃ s' ∈ before, (portOf s').isSome

theorem portOf_ne {s : NginxConfigStatement} {port : ℤ} (h : portOf s = some port) : port ≠ -1 := by
  rw [portOf] at h
  split at h
  · split at h
    · split_ifs at h with hport
      rw [← Option.some.inj h]
      omega
    · cases h
  · cases h

/-- A statement that is not looked at: a port is known. -/
theorem parseSetting_known {s : NginxConfigStatement} (hs : s.tokens ≠ []) {port : ℤ} (hport : port ≠ -1) :
    parseSetting ⟨port⟩ s = some ⟨port⟩ := by
  obtain ⟨first, args, htokens⟩ := List.exists_cons_of_ne_nil hs
  simp [parseSetting, htokens, hport]

theorem foldlM_known {ss : List NginxConfigStatement} (hss : ∀ s ∈ ss, s.tokens ≠ []) {port : ℤ}
    (hport : port ≠ -1) : ss.foldlM parseSetting ⟨port⟩ = some ⟨port⟩ := by
  induction ss with
  | nil => rfl
  | cons s ss ih =>
    obtain ⟨hs, hss⟩ := List.forall_mem_cons.mp hss
    rw [List.foldlM_cons, parseSetting_known hs hport]
    exact ih hss

/-- **One statement** while no port is known: the port it sets, if it has a second token to look at. -/
theorem parseSetting_unknown {s : NginxConfigStatement} (hs : s.tokens ≠ []) :
    parseSetting ⟨-1⟩ s =
      if s.tokens = [bytes "port"] then none else some ⟨(portOf s).getD (-1)⟩ := by
  obtain ⟨first, args, htokens⟩ := List.exists_cons_of_ne_nil hs
  by_cases hfirst : first = bytes "port"
  · cases args with
    | nil => simp [parseSetting, htokens, hfirst]
    | cons second args =>
      cases hstoi : stoi second with
      | error e => simp [parseSetting, portOf, htokens, hfirst, hstoi]
      | ok port =>
        by_cases hrange : 0 ≤ port ∧ port ≤ 65535
        · simp [parseSetting, portOf, htokens, hfirst, hstoi, hrange]
        · simp [parseSetting, portOf, htokens, hfirst, hstoi, hrange]
  · have hport : portOf s = none := by
      rw [portOf, htokens]
      split
      · rename_i heq
        obtain ⟨rfl, -⟩ := List.cons.inj heq
        split
        · rw [if_neg fun h => hfirst h.1]
        · rfl
      · rfl
    simp [parseSetting, htokens, hfirst, hport]

theorem barePortBehind_cons_of_port {s : NginxConfigStatement} (hs : (portOf s).isSome)
    (ss : List NginxConfigStatement) : BarePortBehind (s :: ss) := by
  intro before s' after heq htokens
  cases before with
  | nil =>
    obtain ⟨rfl, -⟩ := List.cons.inj heq
    simp [portOf, htokens] at hs
  | cons b before =>
    obtain ⟨rfl, -⟩ := List.cons.inj heq
    exact ⟨s, List.mem_cons_self, hs⟩

theorem barePortBehind_cons {s : NginxConfigStatement} (hs : portOf s = none)
    (hbare : s.tokens ≠ [bytes "port"]) (ss : List NginxConfigStatement) :
    BarePortBehind (s :: ss) ↔ BarePortBehind ss := by
  constructor
  · intro h before s' after heq htokens
    obtain ⟨b, hb, hport⟩ := h (s :: before) s' after (by rw [heq]; rfl) htokens
    rcases List.mem_cons.mp hb with rfl | hb
    · rw [hs] at hport
      cases hport
    · exact ⟨b, hb, hport⟩
  · intro h before s' after heq htokens
    cases before with
    | nil =>
      obtain ⟨rfl, -⟩ := List.cons.inj heq
      exact absurd htokens hbare
    | cons b before =>
      obtain ⟨rfl, rfl⟩ := List.cons.inj heq
      obtain ⟨b, hb, hport⟩ := h before s' after rfl htokens
      exact ⟨b, List.mem_cons_of_mem _ hb, hport⟩

/-- **The loop** over statements that have tokens.  Induction on the statements; as long as the loop has met no
port, it is where it started. -/
theorem foldlM_parseSetting {ss : List NginxConfigStatement} (hss : ∀ s ∈ ss, s.tokens ≠ []) :
    (ss.foldlM parseSetting ⟨-1⟩).map ServerSettings.port = some ((ss.findSome? portOf).getD (-1)) ↔
      BarePortBehind ss := by
  induction ss with
  | nil => exact iff_of_true rfl fun before s after heq => by simp at heq
  | cons s ss ih =>
    obtain ⟨hs, hss⟩ := List.forall_mem_cons.mp hss
    rw [List.foldlM_cons, parseSetting_unknown hs, List.findSome?_cons]
    cases hport : portOf s with
    | some port =>
      have hbare : s.tokens ≠ [bytes "port"] := by
        intro htokens
        simp [portOf, htokens] at hport
      rw [if_neg hbare]
      refine iff_of_true ?_ (barePortBehind_cons_of_port (by rw [hport]; rfl) ss)
      show (ss.foldlM parseSetting ⟨port⟩).map _ = _
      rw [foldlM_known hss (portOf_ne hport)]
      rfl
    | none =>
      by_cases hbare : s.tokens = [bytes "port"]
      · rw [if_pos hbare]
        refine iff_of_false (fun h => by cases h) ?_
        intro h
        obtain ⟨s', hs', -⟩ := h [] s ss rfl hbare
        cases hs'
      · rw [if_neg hbare, barePortBehind_cons hport hbare, ← ih hss]
        rfl

/-- **Reading the port.**  Whatever `Parse` makes of a text, every statement of its tree has a first token.
`ParseServerSettings` stays within the tokens and returns the configured port if and only if every top-level
statement that is `port` alone has a statement with a valid port in front of it. -/
theorem parseServerSettings_iff (input : Bytes) :
    ∃ ok config, parse input = some (ok, config) ∧ (∀ s ∈ config.statements, s.tokens ≠ []) ∧
      ((parseServerSettings config).map ServerSettings.port = some (configuredPort config) ↔
        BarePortBehind config.statements) := by
  obtain ⟨⟨ok, config⟩, hparse⟩ : ∃ r, parse input = some r := by
    obtain ⟨ts, e, hd⟩ := ConfigGrammar.delivers_total input
    exact ⟨_, ConfigCursor.parse_eq_outcome hd⟩
  have hss : ∀ s ∈ config.statements, s.tokens ≠ [] :=
    fun s hs => ((allStatements_of_parse hparse).of_mem hs).1
  exact ⟨ok, config, hparse, hss, foldlM_parseSetting hss⟩

/-- A `port` statement without a number: the second token is taken from behind the end. -/
theorem parseServerSettings_outOfRange :
    ∃ config, parse (bytes "port;") = some (true, config) ∧ parseServerSettings config = none :=
  ⟨⟨[⟨[bytes "port"], none⟩]⟩, rfl, rfl⟩

/-- Ports that are no ports are passed over. -/
example : (parseServerSettings ⟨[⟨[bytes "port", bytes "80800"], none⟩, ⟨[bytes "port", bytes "x"], none⟩,
    ⟨[bytes "port", bytes "8080"], none⟩, ⟨[bytes "port"], none⟩]⟩).map ServerSettings.port = some 8080 := by
  decide

end Webserver.Server
