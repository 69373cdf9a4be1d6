import Webserver.Http.RequestPath
import Webserver.Support.OrderedMap

/-!
# Form data

`hex2ascii` and `form2table` of `static_file_handler.cc`, and the functions `get` and `post` of a Lua page.
The loop of `hex2ascii` is the one that infers the path of a request, on a string of its own.  The table is
a `Map`; `lua_rawset` overwrites, and `lua_pushstring` takes a C string.

* `EncodesForm` — the `application/x-www-form-urlencoded` texts of a list of pairs.
* `percentDecode_encodesString` — percent decoding undoes the encoding of one string.
* `form2table_eq_foldl` — the splitter puts the pairs into the table one after the other.
* `find_form2table` — form decoding undoes form encoding.
-/

namespace Webserver.StaticFile

open ByteString CxxString Numeral OrderedMap Http

/-! ### The functions of the source -/

/-- `hex2ascii`: an escape that cannot be read leaves nothing of the string. -/
def hex2ascii (s : Bytes) : Bytes := (decodeUri s []).join.getD []

/-- A Lua table whose keys and values are strings. -/
abbrev LuaTable := Map Bytes Bytes

/-- The table that `form2table` builds, and the variables of its loop. -/
structure FormState where
  table : LuaTable
  key : Bytes
  val : Bytes
  readingkey : Bool

namespace FormState

/-- Remove hex codes from the key and value, then add them to the Lua table. -/
def rawset (s : FormState) : LuaTable := s.table.set (cStr (hex2ascii s.key)) (cStr (hex2ascii s.val))

/-- One turn of the loop over the characters. -/
def turn (s : FormState) (c : Byte) : FormState :=
  if s.readingkey then
    if c = byte '=' then { s with readingkey := false } else { s with key := s.key ++ [c] }
  else
    if c = byte '&' then ⟨s.rawset, [], [], true⟩ else { s with val := s.val ++ [c] }

end FormState

/-- `form2table`; the last pair is added behind the loop. -/
def form2table (data : Bytes) : LuaTable :=
  (data.foldl FormState.turn ⟨.empty, [], [], true⟩).rawset

/-- `lua_get`. -/
def luaGet (request : Request) : Except StdException LuaTable :=
  match findLastOf (bytes "?") request.uri with
  | none => .ok .empty
  | some lastQuestionMark => do
    let data ← substr request.uri (some (lastQuestionMark + 1)) npos
    return form2table data

/-- `lua_post`. -/
def luaPost (request : Request) : LuaTable := form2table request.body

theorem hex2ascii_eq (s : Bytes) : hex2ascii s = (percentDecode s).getD [] := by
  rw [hex2ascii, decodeUri_eq]
  rfl

/-! ### The encoding -/

/-- Letters and digits. -/
def isAlnum (b : Byte) : Bool :=
  (48 ≤ b.toNat ∧ b.toNat ≤ 57) ∨ (65 ≤ b.toNat ∧ b.toNat ≤ 90) ∨ (97 ≤ b.toNat ∧ b.toNat ≤ 122)

/-- A byte and its code; the letters among the hexadecimal digits may be of either case. -/
inductive EncodesByte : Byte → Bytes → Prop
  | space : EncodesByte (byte ' ') (bytes "+")
  | alnum {b : Byte} (h : isAlnum b) : EncodesByte b [b]
  | escape {b hi lo : Byte} (hspace : b ≠ byte ' ') (halnum : isAlnum b = false) (hhi : isHexDigit hi)
      (hlo : isHexDigit lo) (hb : 16 * digitValue hi + digitValue lo = b.toNat) :
      EncodesByte b [byte '%', hi, lo]

inductive EncodesString : Bytes → Bytes → Prop
  | nil : EncodesString [] []
  | cons {b : Byte} {s eb es : Bytes} (hb : EncodesByte b eb) (hs : EncodesString s es) :
      EncodesString (b :: s) (eb ++ es)

/-- Key and value, with `=` between them. -/
def EncodesPair (p : Bytes × Bytes) (e : Bytes) : Prop :=
  ∃ key val, EncodesString p.1 key ∧ EncodesString p.2 val ∧ e = key ++ byte '=' :: val

/-- **The text of a form**: at least one pair, with `&` between the pairs. -/
inductive EncodesForm : List (Bytes × Bytes) → Bytes → Prop
  | last {p : Bytes × Bytes} {e : Bytes} (hp : EncodesPair p e) : EncodesForm [p] e
  | cons {p : Bytes × Bytes} {ps : List (Bytes × Bytes)} {e es : Bytes} (hp : EncodesPair p e)
      (hps : EncodesForm ps es) : EncodesForm (p :: ps) (e ++ byte '&' :: es)

/-! ### One encoding of every form -/

/-- The upper-case hexadecimal digit of a number below 16. -/
def hexDigit (n : ℕ) : Byte := UInt8.ofNat (if n < 10 then 48 + n else 55 + n)

def encodeByte (b : Byte) : Bytes :=
  if b = byte ' ' then bytes "+"
  else if isAlnum b then [b]
  else [byte '%', hexDigit (b.toNat / 16), hexDigit (b.toNat % 16)]

def encodePair (p : Bytes × Bytes) : Bytes :=
  p.1.flatMap encodeByte ++ byte '=' :: p.2.flatMap encodeByte

def encodeForm : List (Bytes × Bytes) → Bytes
  | [] => []
  | [p] => encodePair p
  | p :: ps => encodePair p ++ byte '&' :: encodeForm ps

theorem hexDigit_spec {n : ℕ} (h : n < 16) : isHexDigit (hexDigit n) ∧ digitValue (hexDigit n) = n := by
  have hall : ∀ n < 16, isHexDigit (hexDigit n) ∧ digitValue (hexDigit n) = n := by decide
  exact hall n h

theorem encodesByte_encodeByte (b : Byte) : EncodesByte b (encodeByte b) := by
  rw [encodeByte]
  split_ifs with hspace halnum
  · rw [hspace]
    exact .space
  · exact .alnum halnum
  · have hlt := b.toNat_lt
    obtain ⟨hhi, hhi'⟩ := hexDigit_spec (by omega : b.toNat / 16 < 16)
    obtain ⟨hlo, hlo'⟩ := hexDigit_spec (by omega : b.toNat % 16 < 16)
    apply EncodesByte.escape hspace (by simpa using halnum) hhi hlo
    rw [hhi', hlo']
    omega

theorem encodesString_encodeString (s : Bytes) : EncodesString s (s.flatMap encodeByte) := by
  induction s with
  | nil => exact .nil
  | cons b s ih => exact .cons (encodesByte_encodeByte b) ih

/-- Every list of pairs but the empty one has a text. -/
theorem encodesForm_encodeForm {ps : List (Bytes × Bytes)} (h : ps ≠ []) : EncodesForm ps (encodeForm ps) := by
  have hpair (p : Bytes × Bytes) : EncodesPair p (encodePair p) :=
    ⟨_, _, encodesString_encodeString p.1, encodesString_encodeString p.2, rfl⟩
  induction ps with
  | nil => exact absurd rfl h
  | cons p ps ih =>
    cases ps with
    | nil => exact .last (hpair p)
    | cons q ps => exact .cons (hpair p) (ih (List.cons_ne_nil q ps))

/-! ### One string -/

theorem isAlnum_spec {b : Byte} (h : isAlnum b) :
    b ≠ byte '%' ∧ b ≠ byte '+' ∧ b ≠ byte '=' ∧ b ≠ byte '&' := by
  refine ⟨?_, ?_, ?_, ?_⟩
  all_goals
    intro hb
    rw [hb] at h
    exact absurd h (by decide)

theorem isHexDigit_alnum {b : Byte} (h : isHexDigit b) : isAlnum b := by
  have hrange := isHexDigit_range h
  rw [isAlnum, decide_eq_true_iff]
  omega

/-- The code of a byte is read back as that byte. -/
theorem percentDecode_encodesByte {b : Byte} {e : Bytes} (h : EncodesByte b e) :
    percentDecode e = some [b] := by
  cases h with
  | space => rfl
  | alnum h =>
    obtain ⟨hpercent, hplus, -, -⟩ := isAlnum_spec h
    rw [percentDecode_plain hpercent, if_neg hplus]
    rfl
  | @escape _ hi lo hspace halnum hhi hlo hb =>
    rw [percentDecode_escape, extractHexInt_digits hhi hlo, Option.bind_some, toChar_natCast, hb,
      UInt8.ofNat_toNat]
    rfl

/-- **Percent decoding undoes the encoding of a string.** -/
theorem percentDecode_encodesString {s e : Bytes} (h : EncodesString s e) : percentDecode e = some s := by
  induction h with
  | nil => rfl
  | cons hb hs ih => rw [percentDecode_append (percentDecode_encodesByte hb), ih]; rfl

/-- No separator is part of a code. -/
theorem separators_notMem_encodesString {s e : Bytes} (h : EncodesString s e) :
    byte '=' ∉ e ∧ byte '&' ∉ e := by
  induction h with
  | nil => simp
  | @cons b s eb es hb hs ih =>
    have hcode : ∀ c ∈ eb, c ≠ byte '=' ∧ c ≠ byte '&' := by
      intro c hc
      cases hb with
      | space =>
        obtain rfl := List.mem_singleton.mp hc
        decide
      | alnum h =>
        obtain rfl := List.mem_singleton.mp hc
        exact (isAlnum_spec h).2.2
      | escape hspace halnum hhi hlo hb =>
        simp only [List.mem_cons, List.not_mem_nil, or_false] at hc
        rcases hc with rfl | rfl | rfl
        · decide
        · exact (isAlnum_spec (isHexDigit_alnum hhi)).2.2
        · exact (isAlnum_spec (isHexDigit_alnum hlo)).2.2
    rw [List.mem_append, List.mem_append, not_or, not_or]
    exact ⟨⟨fun hc => (hcode _ hc).1 rfl, ih.1⟩, ⟨fun hc => (hcode _ hc).2 rfl, ih.2⟩⟩

/-! ### The splitter -/

/-- A text without `=` is added to the key. -/
theorem foldl_turn_key {e : Bytes} (h : byte '=' ∉ e) (table : LuaTable) (key val : Bytes) :
    e.foldl FormState.turn ⟨table, key, val, true⟩ = ⟨table, key ++ e, val, true⟩ := by
  induction e generalizing key with
  | nil => simp
  | cons c e ih =>
    obtain ⟨hc, he⟩ := List.ne_and_not_mem_of_not_mem_cons h
    have hturn : FormState.turn ⟨table, key, val, true⟩ c = ⟨table, key ++ [c], val, true⟩ := by
      rw [FormState.turn, if_pos rfl, if_neg hc.symm]
    rw [List.foldl_cons, hturn, ih he, List.append_assoc]
    rfl

/-- A text without `&` is added to the value. -/
theorem foldl_turn_val {e : Bytes} (h : byte '&' ∉ e) (table : LuaTable) (key val : Bytes) :
    e.foldl FormState.turn ⟨table, key, val, false⟩ = ⟨table, key, val ++ e, false⟩ := by
  induction e generalizing val with
  | nil => simp
  | cons c e ih =>
    obtain ⟨hc, he⟩ := List.ne_and_not_mem_of_not_mem_cons h
    have hturn : FormState.turn ⟨table, key, val, false⟩ c = ⟨table, key, val ++ [c], false⟩ := by
      rw [FormState.turn, if_neg Bool.false_ne_true, if_neg hc.symm]
    rw [List.foldl_cons, hturn, ih he, List.append_assoc]
    rfl

/-- **One pair**: the loop has its key and its value, and `rawset` puts what they stand for into the
table. -/
theorem foldl_turn_pair {p : Bytes × Bytes} {e : Bytes} (he : EncodesPair p e) (table : LuaTable) :
    ∃ key val, e.foldl FormState.turn ⟨table, [], [], true⟩ = ⟨table, key, val, false⟩ ∧
      (FormState.mk table key val false).rawset = table.set (cStr p.1) (cStr p.2) := by
  obtain ⟨key, val, hkey, hval, rfl⟩ := he
  refine ⟨key, val, ?_, ?_⟩
  · rw [List.foldl_append, foldl_turn_key (separators_notMem_encodesString hkey).1, List.foldl_cons]
    show val.foldl FormState.turn ⟨table, key, [], false⟩ = _
    rw [foldl_turn_val (separators_notMem_encodesString hval).2]
    rfl
  · rw [FormState.rawset, hex2ascii_eq, hex2ascii_eq, percentDecode_encodesString hkey,
      percentDecode_encodesString hval]
    rfl

/-- The loop and the pair behind it. -/
theorem rawset_foldl_turn {ps : List (Bytes × Bytes)} {e : Bytes} (he : EncodesForm ps e)
    (table : LuaTable) :
    (e.foldl FormState.turn ⟨table, [], [], true⟩).rawset =
      ps.foldl (fun table p => table.set (cStr p.1) (cStr p.2)) table := by
  induction he generalizing table with
  | last hp =>
    obtain ⟨key, val, hloop, hset⟩ := foldl_turn_pair hp table
    rw [hloop, hset]
    rfl
  | cons hp hps ih =>
    obtain ⟨key, val, hloop, hset⟩ := foldl_turn_pair hp table
    rw [List.foldl_append, hloop, List.foldl_cons, List.foldl_cons, ← hset, ← ih]
    rfl

/-- **The splitter** puts the pairs of a form into the table one after the other. -/
theorem form2table_eq_foldl {ps : List (Bytes × Bytes)} {e : Bytes} (he : EncodesForm ps e) :
    form2table e = ps.foldl (fun table p => table.set (cStr p.1) (cStr p.2)) .empty :=
  rawset_foldl_turn he .empty

/-! ### The round trip -/

/-- The last pair with a key. -/
def lastOccurrence (ps : List (Bytes × Bytes)) (key : Bytes) : Option Bytes :=
  (ps.reverse.find? fun p => p.1 = key).map Prod.snd

theorem lastOccurrence_isSome_iff {ps : List (Bytes × Bytes)} {key : Bytes} :
    (lastOccurrence ps key).isSome ↔ key ∈ ps.map Prod.fst := by
  rw [lastOccurrence, Option.isSome_map, List.find?_isSome, List.mem_map]
  simp only [List.mem_reverse, decide_eq_true_eq]

/-- Nothing behind the last occurrence of a key has that key. -/
theorem lastOccurrence_eq_some_iff {ps : List (Bytes × Bytes)} {key val : Bytes} :
    lastOccurrence ps key = some val ↔
      ∃ before after, ps = before ++ (key, val) :: after ∧ ∀ p ∈ after, p.1 ≠ key := by
  rw [lastOccurrence]
  constructor
  · intro h
    obtain ⟨p, hp, rfl⟩ := Option.map_eq_some_iff.mp h
    obtain ⟨hkey, after, before, hps, hafter⟩ := List.find?_eq_some_iff_append.mp hp
    obtain rfl : p.1 = key := of_decide_eq_true hkey
    refine ⟨before.reverse, after.reverse, ?_, ?_⟩
    · rw [← List.reverse_reverse ps, hps, List.reverse_append, List.reverse_cons, List.append_assoc]
      rfl
    · intro q hq
      simpa using hafter q (List.mem_reverse.mp hq)
  · intro h
    obtain ⟨before, after, rfl, hafter⟩ := h
    have hfind : (before ++ (key, val) :: after).reverse.find? (fun p => p.1 = key) = some (key, val) := by
      rw [List.reverse_append, List.reverse_cons, List.append_assoc, List.find?_append,
        List.find?_eq_none.mpr, Option.none_or]
      · exact List.find?_cons_of_pos (decide_eq_true rfl)
      · intro p hp
        simpa using hafter p (List.mem_reverse.mp hp)
    rw [hfind]
    rfl

theorem foldl_set_cStr {ps : List (Bytes × Bytes)} (hnul : ∀ p ∈ ps, (0 : Byte) ∉ p.1 ∧ (0 : Byte) ∉ p.2)
    (table : LuaTable) :
    ps.foldl (fun table p => table.set (cStr p.1) (cStr p.2)) table =
      ps.foldl (fun table p => table.set p.1 p.2) table := by
  induction ps generalizing table with
  | nil => rfl
  | cons p ps ih =>
    obtain ⟨hkey, hval⟩ := hnul p List.mem_cons_self
    rw [List.foldl_cons, List.foldl_cons, cStr_eq_self hkey, cStr_eq_self hval]
    exact ih (fun q hq => hnul q (List.mem_cons_of_mem p hq)) _

/-- **Form decoding undoes form encoding.**  The table has exactly the keys of the list, and every key is
bound to the value of its last occurrence. -/
theorem find_form2table {ps : List (Bytes × Bytes)} {e : Bytes} (he : EncodesForm ps e)
    (hnul : ∀ p ∈ ps, (0 : Byte) ∉ p.1 ∧ (0 : Byte) ∉ p.2) :
    (∀ key, ((form2table e).find key).isSome ↔ key ∈ ps.map Prod.fst) ∧
      ∀ key val, (form2table e).find key = some val ↔
        ∃ before after, ps = before ++ (key, val) :: after ∧ ∀ p ∈ after, p.1 ≠ key := by
  have hfind (key : Bytes) : (form2table e).find key = lastOccurrence ps key := by
    rw [form2table_eq_foldl he, foldl_set_cStr hnul, Map.find_foldl_set, Map.find_empty, Option.or_none]
    rfl
  simp only [hfind]
  exact ⟨fun key => lastOccurrence_isSome_iff, fun key val => lastOccurrence_eq_some_iff⟩

/-- A key that comes twice, a key that is empty, and bytes that need an escape. -/
theorem find_form2table_repeated_key :
    encodeForm [(bytes "a b", bytes "1"), ([], [200]), (bytes "a b", bytes "&=%")] =
        bytes "a+b=1&=%C8&a+b=%26%3D%25" ∧
      (form2table (encodeForm [(bytes "a b", bytes "1"), ([], [200]), (bytes "a b", bytes "&=%")])).find
        (bytes "a b") = some (bytes "&=%") := by
  refine ⟨by decide, ?_⟩
  apply ((find_form2table (encodesForm_encodeForm (List.cons_ne_nil _ _)) (by decide)).2 _ _).mpr
  exact ⟨[(bytes "a b", bytes "1"), ([], [200])], [], rfl, by decide⟩

end Webserver.StaticFile
