import Webserver.StaticFile.FormData

/-!
# Form data, segment by segment

An `&` behind a value ends a pair.  In a segment without `=` the splitter is still reading a key, and there an
`&` is a byte like any other: the key goes on into the next segment.

* `foldl_turn_eq` — what the splitter has read of a text.
* `form2table_append_iff` — when two texts joined with `&` are read one after the other.
* `form2table_append_forall_iff` — the texts behind which any other text is read as if it stood alone.
-/

namespace Webserver.StaticFile

open ByteString CxxString Numeral OrderedMap Http

/-! ### The pairs of a text -/

/-- The pairs that a text is split into: the first one, and the others.  The flag is `readingkey`. -/
def splitPairs : Bool → Bytes → (Bytes × Bytes) × List (Bytes × Bytes)
  | _, [] => (([], []), [])
  | true, c :: s =>
    if c = byte '=' then splitPairs false s
    else
      let r := splitPairs true s
      ((c :: r.1.1, r.1.2), r.2)
  | false, c :: s =>
    let r := splitPairs (c = byte '&') s
    if c = byte '&' then (([], []), r.1 :: r.2) else ((r.1.1, c :: r.1.2), r.2)

/-- The pairs of a form, still encoded. -/
def formPairs (s : Bytes) : List (Bytes × Bytes) := (splitPairs true s).1 :: (splitPairs true s).2

/-- What an encoded string stands for in the table. -/
def decodeString (s : Bytes) : Bytes := cStr (hex2ascii s)

def decodePair (p : Bytes × Bytes) : Bytes × Bytes := (decodeString p.1, decodeString p.2)

/-- The pairs put into a table one after the other. -/
def setPairs (ps : List (Bytes × Bytes)) (table : LuaTable) : LuaTable :=
  ps.foldl (fun table p => table.set (decodeString p.1) (decodeString p.2)) table

example : formPairs (bytes "a=1&b&c=2=&") = [(bytes "a", bytes "1"), (bytes "b&c", bytes "2="), ([], [])] := by
  decide

theorem setPairs_append (ps qs : List (Bytes × Bytes)) (table : LuaTable) :
    setPairs (ps ++ qs) table = setPairs qs (setPairs ps table) := List.foldl_append

theorem find_setPairs (ps : List (Bytes × Bytes)) (table : LuaTable) (x : Bytes) :
    (setPairs ps table).find x = (lastOccurrence (ps.map decodePair) x).or (table.find x) := by
  have hmap : setPairs ps table = (ps.map decodePair).foldl (fun table p => table.set p.1 p.2) table := by
    rw [List.foldl_map]
    rfl
  rw [hmap, Map.find_foldl_set Prod.fst Prod.snd, lastOccurrence]

/-- **The loop** has put all the pairs but the last into the table, and holds the last one. -/
theorem foldl_turn_eq (s : Bytes) : ∀ (readingkey : Bool) (table : LuaTable) (key val : Bytes),
    ∃ earlier key' val' readingkey',
      (key ++ (splitPairs readingkey s).1.1, val ++ (splitPairs readingkey s).1.2) ::
          (splitPairs readingkey s).2 = earlier ++ [(key', val')] ∧
        s.foldl FormState.turn ⟨table, key, val, readingkey⟩ = ⟨setPairs earlier table, key', val', readingkey'⟩ := by
  induction s with
  | nil =>
    intro readingkey table key val
    exact ⟨[], key, val, readingkey, by simp [splitPairs], rfl⟩
  | cons c s ih =>
    intro readingkey table key val
    cases readingkey with
    | true =>
      rw [splitPairs, List.foldl_cons, FormState.turn, if_pos rfl]
      split_ifs
      · exact ih false table key val
      · obtain ⟨earlier, key', val', readingkey', hpairs, hloop⟩ := ih true table (key ++ [c]) val
        exact ⟨earlier, key', val', readingkey', by rw [← hpairs]; simp, hloop⟩
    | false =>
      rw [splitPairs, List.foldl_cons, FormState.turn, if_neg Bool.false_ne_true]
      split_ifs with hc
      · obtain ⟨earlier, key', val', readingkey', hpairs, hloop⟩ :=
          ih true (FormState.mk table key val false).rawset [] []
        rw [List.nil_append, List.nil_append] at hpairs
        refine ⟨(key, val) :: earlier, key', val', readingkey', ?_, hloop⟩
        rw [List.cons_append, ← hpairs, decide_eq_true hc]
        simp
      · obtain ⟨earlier, key', val', readingkey', hpairs, hloop⟩ := ih false table key (val ++ [c])
        refine ⟨earlier, key', val', readingkey', ?_, hloop⟩
        rw [← hpairs, decide_eq_false hc]
        simp

/-- The loop and the pair behind it, entered with a part of a key. -/
theorem rawset_foldl_turn_key (s : Bytes) (table : LuaTable) (key : Bytes) :
    (s.foldl FormState.turn ⟨table, key, [], true⟩).rawset =
      setPairs ((key ++ (splitPairs true s).1.1, (splitPairs true s).1.2) :: (splitPairs true s).2) table := by
  obtain ⟨earlier, key', val', readingkey', hpairs, hloop⟩ := foldl_turn_eq s true table key []
  rw [List.nil_append] at hpairs
  rw [hloop, hpairs, setPairs_append]
  rfl

/-- The table of a text is that of its pairs. -/
theorem form2table_eq_setPairs (s : Bytes) : form2table s = setPairs (formPairs s) .empty :=
  rawset_foldl_turn_key s .empty []

/-! ### The last segment -/

/-- The text behind the last `&`. -/
def lastSegment (s : Bytes) : Bytes := behindLast (byte '&') s

/-- What the loop holds behind a text: it reads a key when the last segment has no `=`, and then it has no value. -/
theorem readingkey_foldl_turn (s : Bytes) :
    ((s.foldl FormState.turn ⟨.empty, [], [], true⟩).readingkey = true ↔ byte '=' ∉ lastSegment s) ∧
      ((s.foldl FormState.turn ⟨.empty, [], [], true⟩).readingkey = true →
        (s.foldl FormState.turn ⟨.empty, [], [], true⟩).val = []) := by
  induction s using List.reverseRecOn with
  | nil => exact ⟨by decide, fun _ => rfl⟩
  | append_singleton s c ih =>
    rw [List.foldl_concat, FormState.turn, lastSegment, behindLast_concat]
    generalize s.foldl FormState.turn ⟨.empty, [], [], true⟩ = m at ih
    obtain ⟨table, key, val, readingkey⟩ := m
    obtain ⟨hmode, hval⟩ := ih
    by_cases hc : c = byte '&'
    · -- a new segment
      rw [if_pos hc, if_pos hc]
      refine ⟨iff_of_true ?_ List.not_mem_nil, ?_⟩
      · split_ifs with hr he
        · exact absurd (hc.symm.trans he) (by decide)
        · exact hr
        · rfl
      · split_ifs with hr he
        · exact fun _ => hval hr
        · exact fun _ => hval hr
        · exact fun _ => rfl
    · rw [if_neg hc, if_neg hc, List.mem_append, List.mem_singleton, not_or]
      cases readingkey with
      | true =>
        have hseg := hmode.mp rfl
        rw [if_pos rfl]
        split_ifs with he
        · exact ⟨iff_of_false not_false fun h => h.2 he.symm, fun h => h.elim⟩
        · exact ⟨iff_of_true rfl ⟨hseg, Ne.symm he⟩, fun _ => hval rfl⟩
      | false =>
        rw [if_neg Bool.false_ne_true]
        exact ⟨iff_of_false Bool.false_ne_true fun h => Bool.false_ne_true (hmode.mpr h.1),
          fun h => absurd h Bool.false_ne_true⟩

/-! ### Two texts -/

/-- **A key read across an `&` that leaves no trace.**  The splitter puts `value` under `joined`; read apart, the
texts put nothing under `pending` and then `value` under `key`.  Each of the three keys is set again later, or has
the same value anyway. -/
structure Unnoticed (earlier later : List (Bytes × Bytes)) (pending key joined value : Bytes) : Prop where
  forPending : pending ∈ later.map Prod.fst ∨ pending = key ∨
    if pending = joined then value = [] else lastOccurrence earlier pending = some []
  forKey : key ∈ later.map Prod.fst ∨ key = joined ∨ lastOccurrence earlier key = some value
  forJoined : joined ∈ later.map Prod.fst ∨ joined = key ∨
    if joined = pending then value = [] else lastOccurrence earlier joined = some value

/-- The last key of `a`, which has no value, and the first key of `b` are run together without a trace. -/
def RunsTogether (a b : Bytes) : Prop :=
  ∃ earlier pending key value later, formPairs a = earlier ++ [(pending, [])] ∧
    formPairs b = (key, value) :: later ∧
    Unnoticed (earlier.map decodePair) (later.map decodePair) (decodeString pending) (decodeString key)
      (decodeString (pending ++ byte '&' :: key)) (decodeString value)

/-- Two ways to find a key behind some pairs differ at most on keys that the pairs do not set. -/
theorem or_lastOccurrence_iff {later : List (Bytes × Bytes)} {f g h : Bytes → Option Bytes} :
    (∀ x, (lastOccurrence later x).or (f x) = ((lastOccurrence later x).or (g x)).or (h x)) ↔
      ∀ x, x ∈ later.map Prod.fst ∨ f x = (g x).or (h x) := by
  refine forall_congr' fun x => ?_
  cases hx : lastOccurrence later x with
  | none =>
    have hnot : x ∉ later.map Prod.fst := by
      rw [← lastOccurrence_isSome_iff, hx]
      exact Bool.false_ne_true
    rw [Option.none_or, Option.none_or]
    exact (or_iff_right hnot).symm
  | some v =>
    have hmem : x ∈ later.map Prod.fst := by
      rw [← lastOccurrence_isSome_iff, hx]
      rfl
    exact iff_of_true rfl (.inl hmem)

theorem unnoticed_iff {earlier later : List (Bytes × Bytes)} {pending key joined value : Bytes} :
    Unnoticed earlier later pending key joined value ↔
      ∀ x, (lastOccurrence later x).or (if x = joined then some value else lastOccurrence earlier x) =
        ((lastOccurrence later x).or (if x = key then some value else none)).or
          (if x = pending then some [] else lastOccurrence earlier x) := by
  rw [or_lastOccurrence_iff]
  constructor
  · intro h x
    refine or_iff_not_imp_left.mpr fun hnot => ?_
    by_cases hkey : x = key
    · rw [if_pos hkey, Option.some_or]
      split_ifs with hjoined
      · rfl
      · rw [hkey]
        exact (h.forKey.resolve_left (hkey ▸ hnot)).resolve_left fun he => hjoined (hkey.trans he)
    · rw [if_neg hkey, Option.none_or]
      by_cases hjoined : x = joined
      · rw [if_pos hjoined]
        have hsame := (h.forJoined.resolve_left (hjoined ▸ hnot)).resolve_left fun he => hkey (hjoined.trans he)
        rw [hjoined]
        split_ifs at hsame ⊢ with hpending
        · rw [hsame]
        · exact hsame.symm
      · rw [if_neg hjoined]
        split_ifs with hpending
        · have hsame := (h.forPending.resolve_left (hpending ▸ hnot)).resolve_left
            fun he => hkey (hpending.trans he)
          rw [if_neg fun he => hjoined (hpending.trans he)] at hsame
          rw [hpending, hsame]
        · rfl
  · intro h
    refine ⟨(h pending).imp_right ?_, (h key).imp_right ?_, (h joined).imp_right ?_⟩
    · intro hp
      refine or_iff_not_imp_left.mpr fun hkey => ?_
      rw [if_neg hkey, Option.none_or, if_pos rfl] at hp
      split_ifs at hp ⊢
      · exact Option.some.inj hp
      · exact hp
    · intro hp
      refine or_iff_not_imp_left.mpr fun hjoined => ?_
      rwa [if_neg hjoined, if_pos rfl, Option.some_or] at hp
    · intro hp
      refine or_iff_not_imp_left.mpr fun hkey => ?_
      rw [if_pos rfl, if_neg hkey, Option.none_or] at hp
      split_ifs at hp ⊢
      · exact Option.some.inj hp
      · exact hp.symm

/-- What the splitter puts into a table for a pair and the pairs behind it. -/
theorem find_setPairs_cons (p : Bytes × Bytes) (later : List (Bytes × Bytes)) (table : LuaTable) (x : Bytes) :
    (setPairs (p :: later) table).find x = (lastOccurrence (later.map decodePair) x).or
      (if x = decodeString p.1 then some (decodeString p.2) else table.find x) := by
  show (setPairs later (table.set (decodeString p.1) (decodeString p.2))).find x = _
  rw [find_setPairs, Map.find_set]
  congr

theorem find_form2table_eq (s x : Bytes) :
    (form2table s).find x = lastOccurrence ((formPairs s).map decodePair) x := by
  rw [form2table_eq_setPairs, find_setPairs, Map.find_empty, Option.or_none]

theorem override_form2table (table : LuaTable) (b : Bytes) :
    table.override (form2table b) = setPairs (formPairs b) table := by
  refine Map.ext_find fun x => ?_
  rw [Map.find_override, find_form2table_eq, find_setPairs]

/-- The pairs of two texts, where the first ends in a key. -/
theorem runsTogether_iff {a b pending : Bytes} {earlier : List (Bytes × Bytes)}
    (hpairs : formPairs a = earlier ++ [(pending, [])]) :
    RunsTogether a b ↔ setPairs ((pending ++ byte '&' :: (splitPairs true b).1.1, (splitPairs true b).1.2) ::
        (splitPairs true b).2) (setPairs earlier .empty) =
      setPairs (formPairs b) (setPairs (earlier ++ [(pending, [])]) .empty) := by
  have hfind : (∀ x, (setPairs ((pending ++ byte '&' :: (splitPairs true b).1.1, (splitPairs true b).1.2) ::
        (splitPairs true b).2) (setPairs earlier .empty)).find x =
      (setPairs (formPairs b) (setPairs (earlier ++ [(pending, [])]) .empty)).find x) ↔
        Unnoticed (earlier.map decodePair) ((splitPairs true b).2.map decodePair) (decodeString pending)
          (decodeString (splitPairs true b).1.1) (decodeString (pending ++ byte '&' :: (splitPairs true b).1.1))
          (decodeString (splitPairs true b).1.2) := by
    rw [unnoticed_iff]
    refine forall_congr' fun x => ?_
    have hlast : (setPairs (earlier ++ [(pending, [])]) .empty).find x =
        if x = decodeString pending then some [] else lastOccurrence (earlier.map decodePair) x := by
      rw [setPairs_append, find_setPairs_cons, find_setPairs, Map.find_empty, Option.or_none]
      rfl
    rw [formPairs, find_setPairs_cons, find_setPairs_cons, find_setPairs earlier, Map.find_empty, Option.or_none,
      hlast, Option.or_assoc]
    by_cases hkey : x = decodeString (splitPairs true b).1.1
    · rw [if_pos hkey, if_pos hkey, Option.some_or]
    · rw [if_neg hkey, if_neg hkey, Option.none_or]
  constructor
  · rintro ⟨earlier', pending', key, value, later, hpairs', hb, hun⟩
    obtain ⟨rfl, hlast⟩ := List.append_inj' (hpairs'.symm.trans hpairs) rfl
    obtain rfl : pending' = pending := (Prod.mk.inj (List.cons.inj hlast).1).1
    obtain ⟨hfirst, rfl⟩ := List.cons.inj hb
    rw [hfirst] at hfind ⊢
    exact Map.ext_find (hfind.mpr hun)
  · intro h
    exact ⟨earlier, pending, _, _, _, hpairs, rfl, hfind.mp fun x => by rw [h]⟩

/-- Behind a text whose last segment has a `=`, the splitter starts anew. -/
theorem form2table_append_of_mem {a : Bytes} (h : byte '=' ∈ lastSegment a) (b : Bytes) :
    form2table (a ++ byte '&' :: b) = (form2table a).override (form2table b) := by
  obtain ⟨earlier, key, val, readingkey, -, hloop⟩ := foldl_turn_eq a true .empty [] []
  have hmode := (readingkey_foldl_turn a).1
  rw [hloop] at hmode
  obtain rfl : readingkey = false := Bool.eq_false_iff.mpr fun hr => hmode.mp hr h
  have hrawset : (FormState.mk (setPairs earlier .empty) key val false).rawset = form2table a := by
    rw [form2table, hloop]
  have hform : form2table (a ++ byte '&' :: b) = (b.foldl FormState.turn ⟨form2table a, [], [], true⟩).rawset := by
    rw [← hrawset, form2table, List.foldl_append, hloop]
    rfl
  rw [hform, override_form2table]
  exact rawset_foldl_turn_key b _ []

/-- Behind any other text, it goes on with the key that the text ends in. -/
theorem form2table_append_of_notMem {a : Bytes} (h : byte '=' ∉ lastSegment a) :
    (∃ earlier pending, formPairs a = earlier ++ [(pending, [])]) ∧
      ∀ b, form2table (a ++ byte '&' :: b) = (form2table a).override (form2table b) ↔ RunsTogether a b := by
  obtain ⟨earlier, pending, val, readingkey, hpairs, hloop⟩ := foldl_turn_eq a true .empty [] []
  obtain ⟨hmode, hval⟩ := readingkey_foldl_turn a
  rw [hloop] at hmode hval
  obtain rfl : readingkey = true := hmode.mpr h
  obtain rfl : val = [] := hval rfl
  have hpairs : formPairs a = earlier ++ [(pending, [])] := hpairs
  refine ⟨⟨earlier, pending, hpairs⟩, fun b => ?_⟩
  have hform : form2table (a ++ byte '&' :: b) =
      (b.foldl FormState.turn ⟨setPairs earlier .empty, pending ++ [byte '&'], [], true⟩).rawset := by
    rw [form2table, List.foldl_append, hloop]
    rfl
  rw [hform, rawset_foldl_turn_key, List.append_assoc, runsTogether_iff hpairs, override_form2table,
    form2table_eq_setPairs a, hpairs]
  exact Iff.rfl

/-- **When two texts are read one after the other.**  The table of `a & b` is the table of `a`, overridden by that
of `b`, if and only if the last segment of `a` has a `=`, or nothing shows that its key was read on into `b`. -/
theorem form2table_append_iff (a b : Bytes) :
    form2table (a ++ byte '&' :: b) = (form2table a).override (form2table b) ↔
      byte '=' ∈ lastSegment a ∨ RunsTogether a b := by
  by_cases h : byte '=' ∈ lastSegment a
  · exact iff_of_true (form2table_append_of_mem h b) (.inl h)
  · rw [or_iff_right h]
    exact (form2table_append_of_notMem h).2 b

/-- A segment without `=` in the middle of a form. -/
theorem form2table_append_ne :
    form2table (bytes "x=1&flag" ++ byte '&' :: bytes "k=v") ≠
        (form2table (bytes "x=1&flag")).override (form2table (bytes "k=v")) ∧
      (form2table (bytes "x=1&flag&k=v")).find (bytes "k") = none ∧
      (form2table (bytes "x=1&flag&k=v")).find (bytes "flag&k") = some (bytes "v") := by
  have hfind : (form2table (bytes "x=1&flag&k=v")).find (bytes "k") = none := by
    rw [find_form2table_eq]
    decide
  refine ⟨fun h => ?_, hfind, ?_⟩
  · have hk := congrArg (fun table => Map.find table (bytes "k")) h
    rw [Map.find_override, find_form2table_eq (bytes "k=v")] at hk
    exact absurd (hfind.symm.trans hk) (by decide)
  · rw [find_form2table_eq]
    decide

/-! ### Any text behind it -/

/-- An escape that cannot be read in front of an `&` cannot be read with more behind it. -/
theorem percentDecode_ampersand {s : Bytes} (h : percentDecode (s ++ [byte '&']) = none) (t : Bytes) :
    percentDecode (s ++ byte '&' :: t) = none := by
  induction s using uri_induction with
  | nil => cases h
  | plain c rest hc ih =>
    rw [List.cons_append, percentDecode_plain hc, Option.map_eq_none_iff] at h ⊢
    exact ih h
  | escape a b rest ih =>
    rw [List.cons_append, List.cons_append, List.cons_append, percentDecode_escape] at h ⊢
    cases hvalue : extractHexInt [a, b] with
    | none => rfl
    | some value =>
      rw [hvalue, Option.bind_some, Option.map_eq_none_iff] at h
      rw [Option.bind_some, ih h]
      rfl
  | cut short hshort =>
    match short, hshort with
    | [], _ =>
      cases t with
      | nil => rfl
      | cons c t =>
        have hvalue : extractHexInt [byte '&', c] = none := rfl
        show percentDecode (byte '%' :: byte '&' :: c :: t) = none
        rw [percentDecode_escape, hvalue]
        rfl
    | [a], _ =>
      have hvalue : extractHexInt [a, byte '&'] = none := by
        have h : percentDecode (byte '%' :: a :: byte '&' :: []) = none := h
        rw [percentDecode_escape] at h
        cases hvalue : extractHexInt [a, byte '&'] with
        | none => rfl
        | some value => rw [hvalue] at h; cases h
      show percentDecode (byte '%' :: a :: byte '&' :: t) = none
      rw [percentDecode_escape, hvalue]
      rfl

/-- Some key is read in another way behind a part of a key. -/
theorem exists_decodeString_ne (key : Bytes) :
    ∃ k ∈ [[], bytes "a"], decodeString (key ++ byte '&' :: k) ≠ decodeString k := by
  have hdecode {s d : Bytes} (h : percentDecode s = some d) : decodeString s = cStr d := by
    rw [decodeString, hex2ascii_eq, h]
    rfl
  have hfront (k : Bytes) : key ++ byte '&' :: k = (key ++ [byte '&']) ++ k := by simp
  by_cases hnil : decodeString (key ++ [byte '&']) = []
  · refine ⟨bytes "a", by simp, ?_⟩
    have hkey : decodeString (key ++ byte '&' :: bytes "a") = [] := by
      cases hd : percentDecode (key ++ [byte '&']) with
      | none =>
        rw [decodeString, hex2ascii_eq, percentDecode_ampersand hd]
        rfl
      | some d =>
        rw [hdecode hd] at hnil
        cases d with
        | nil => exact absurd rfl (percentDecode_ne_nil (by simp) hd)
        | cons c d =>
          have hc : c = 0 := by
            by_contra hc
            simp [cStr, hc] at hnil
          rw [hfront, hdecode (percentDecode_append hd (bytes "a")), hc]
          rfl
    rw [hkey]
    decide
  · exact ⟨[], by simp, hnil⟩

/-- **No segment without `=` is safe**: only texts whose last segment has one can be followed by any text. -/
theorem form2table_append_forall_iff (a : Bytes) :
    (∀ b, form2table (a ++ byte '&' :: b) = (form2table a).override (form2table b)) ↔ byte '=' ∈ lastSegment a := by
  constructor
  · intro hall
    by_contra h
    obtain ⟨⟨earlier, pending, hpairs⟩, hiff⟩ := form2table_append_of_notMem h
    obtain ⟨k, hk, hne⟩ := exists_decodeString_ne pending
    -- a value that the key does not have yet
    obtain ⟨v, hv, hnew⟩ : ∃ v ∈ [[], bytes "a"],
        lastOccurrence (earlier.map decodePair) (decodeString k) ≠ some (decodeString v) := by
      by_cases hold : lastOccurrence (earlier.map decodePair) (decodeString k) = some (decodeString [])
      · refine ⟨bytes "a", by simp, ?_⟩
        rw [hold]
        decide
      · exact ⟨[], by simp, hold⟩
    have hb : formPairs (k ++ byte '=' :: v) = [(k, v)] := by
      have hsmall : ∀ k ∈ [[], bytes "a"], ∀ v ∈ [[], bytes "a"], formPairs (k ++ byte '=' :: v) = [(k, v)] := by
        decide
      exact hsmall k hk v hv
    obtain ⟨earlier', pending', key, value, later, hpairs', hb', hun⟩ := (hiff _).mp (hall (k ++ byte '=' :: v))
    obtain ⟨rfl, hlast⟩ := List.append_inj' (hpairs'.symm.trans hpairs) rfl
    obtain rfl : pending' = pending := (Prod.mk.inj (List.cons.inj hlast).1).1
    obtain ⟨hfirst, rfl⟩ := List.cons.inj (hb'.symm.trans hb)
    obtain ⟨rfl, rfl⟩ := Prod.mk.inj hfirst
    rcases hun.forKey with hlater | hjoined | hbound
    · cases hlater
    · exact hne hjoined.symm
    · exact hnew hbound
  · exact fun h b => form2table_append_of_mem h b

end Webserver.StaticFile
