import Mathlib.Order.Lattice
import Mathlib.Data.List.Nodup
import Mathlib.Data.Nat.Notation

/-!
# `std::map`

A map is the list of its entries in strictly increasing key order, which is also its iteration order.
`insert` keeps an entry that is already there (`std::map::insert`); `set` overwrites it (`m[k] = v`).
The order is carried by the structure, so every map that can be built is a map.
-/

namespace OrderedMap

variable {κ α : Type*}

/-- Entries in strictly increasing key order. -/
structure Map (κ α : Type*) [LinearOrder κ] where
  entries : List (κ × α)
  sorted : entries.Pairwise fun p q => p.1 < q.1

variable [LinearOrder κ]

/-- Put an entry at its place; `keep` says whether an entry with that key stays as it is. -/
def place (keep : Bool) (k : κ) (v : α) : List (κ × α) → List (κ × α)
  | [] => [(k, v)]
  | p :: ps =>
    if k < p.1 then (k, v) :: p :: ps
    else if p.1 < k then p :: place keep k v ps
    else if keep then p :: ps
    else (k, v) :: ps

theorem fst_mem_place {keep : Bool} {k : κ} {v : α} {ps : List (κ × α)} {p : κ × α}
    (h : p ∈ place keep k v ps) : p.1 = k ∨ p ∈ ps := by
  induction ps with
  | nil => left; simp [place] at h; rw [h]
  | cons q ps ih =>
    rw [place] at h
    split_ifs at h
    · rcases List.mem_cons.mp h with rfl | h
      · exact .inl rfl
      · exact .inr h
    · rcases List.mem_cons.mp h with rfl | h
      · exact .inr List.mem_cons_self
      · exact (ih h).imp_right (List.mem_cons_of_mem q)
    · exact .inr h
    · rcases List.mem_cons.mp h with rfl | h
      · exact .inl rfl
      · exact .inr (List.mem_cons_of_mem q h)

theorem sorted_place (keep : Bool) (k : κ) (v : α) {ps : List (κ × α)}
    (h : ps.Pairwise fun p q => p.1 < q.1) :
    (place keep k v ps).Pairwise fun p q => p.1 < q.1 := by
  induction ps with
  | nil => simp [place]
  | cons p ps ih =>
    obtain ⟨hp, hps⟩ := List.pairwise_cons.mp h
    rw [place]
    split_ifs with h1 h2 h3
    · refine List.pairwise_cons.mpr ⟨?_, h⟩
      intro q hq
      rcases List.mem_cons.mp hq with rfl | hq
      · exact h1
      · exact lt_trans h1 (hp q hq)
    · refine List.pairwise_cons.mpr ⟨?_, ih hps⟩
      intro q hq
      rcases fst_mem_place hq with hk | hq
      · rw [hk]; exact h2
      · exact hp q hq
    · exact h
    · have hk : k = p.1 := le_antisymm (not_lt.mp h2) (not_lt.mp h1)
      exact List.pairwise_cons.mpr ⟨fun q hq => hk ▸ hp q hq, hps⟩

namespace Map

def empty : Map κ α := ⟨[], List.Pairwise.nil⟩

/-- `m.find(k)`, `none` for `m.end()`. -/
def find (m : Map κ α) (k : κ) : Option α := (m.entries.find? fun p => p.1 = k).map Prod.snd

/-- `m.insert({k, v})`: an existing entry stays. -/
def insert (m : Map κ α) (k : κ) (v : α) : Map κ α :=
  ⟨place true k v m.entries, sorted_place true k v m.sorted⟩

/-- `m[k] = v`: an existing entry is overwritten. -/
def set (m : Map κ α) (k : κ) (v : α) : Map κ α :=
  ⟨place false k v m.entries, sorted_place false k v m.sorted⟩

/-- `m.size()`. -/
def size (m : Map κ α) : ℕ := m.entries.length

@[simp] theorem find_empty (k : κ) : (empty : Map κ α).find k = none := rfl

theorem find_eq_some_iff {m : Map κ α} {k : κ} {v : α} :
    m.find k = some v ↔ (k, v) ∈ m.entries := by
  obtain ⟨ps, hs⟩ := m
  induction ps with
  | nil => simp [find]
  | cons p ps ih =>
    obtain ⟨hp, hps⟩ := List.pairwise_cons.mp hs
    by_cases hk : p.1 = k
    · have hrest : (k, v) ∉ ps := fun h => lt_irrefl k (by simpa [hk] using hp _ h)
      simp only [find, List.find?_cons_of_pos (p := fun q : κ × α => decide (q.1 = k)) (by simpa using hk)]
      rw [List.mem_cons, or_iff_left hrest]
      simp [Prod.ext_iff, hk, eq_comm]
    · have hne : (k, v) ≠ p := by
        rintro rfl
        exact hk rfl
      have ih' := ih hps
      simp only [find] at ih' ⊢
      rw [List.find?_cons_of_neg (by simpa using hk), ih', List.mem_cons, or_iff_right hne]

end Map

/-- In a sorted list, an entry whose key lies below the head's is nowhere. -/
theorem key_ne_of_lt_head {k : κ} {p : κ × α} {ps : List (κ × α)}
    (h : (p :: ps).Pairwise fun p q => p.1 < q.1) (hk : k < p.1) : ∀ q ∈ p :: ps, q.1 ≠ k := by
  intro q hq
  rcases List.mem_cons.mp hq with rfl | hq
  · exact hk.ne'
  · exact (lt_trans hk ((List.pairwise_cons.mp h).1 q hq)).ne'

theorem mem_place_overwrite {k : κ} {v : α} {ps : List (κ × α)}
    (h : ps.Pairwise fun p q => p.1 < q.1) (q : κ × α) :
    q ∈ place false k v ps ↔ q = (k, v) ∨ (q ∈ ps ∧ q.1 ≠ k) := by
  induction ps with
  | nil => simp [place]
  | cons p ps ih =>
    obtain ⟨hp, hps⟩ := List.pairwise_cons.mp h
    simp only [place, Bool.false_eq_true, if_false]
    split_ifs with h1 h2
    · have hne := key_ne_of_lt_head h h1
      rw [List.mem_cons]
      exact or_congr_right ⟨fun hq => ⟨hq, hne q hq⟩, fun hq => hq.1⟩
    · rw [List.mem_cons, ih hps, List.mem_cons]
      constructor
      · rintro (rfl | rfl | ⟨hq, hk⟩)
        · exact .inr ⟨.inl rfl, h2.ne⟩
        · exact .inl rfl
        · exact .inr ⟨.inr hq, hk⟩
      · rintro (rfl | ⟨rfl | hq, hk⟩)
        · exact .inr (.inl rfl)
        · exact .inl rfl
        · exact .inr (.inr ⟨hq, hk⟩)
    · have hk : k = p.1 := le_antisymm (not_lt.mp h2) (not_lt.mp h1)
      have hne : ∀ r ∈ ps, r.1 ≠ k := fun r hr => hk ▸ (hp r hr).ne'
      rw [List.mem_cons, List.mem_cons]
      refine or_congr_right ⟨fun hq => ⟨.inr hq, hne q hq⟩, ?_⟩
      rintro ⟨rfl | hq, hqk⟩
      · exact absurd hk.symm hqk
      · exact hq

theorem mem_place_keep {k : κ} {v : α} {ps : List (κ × α)}
    (h : ps.Pairwise fun p q => p.1 < q.1) (q : κ × α) :
    q ∈ place true k v ps ↔ q ∈ ps ∨ (q = (k, v) ∧ ∀ r ∈ ps, r.1 ≠ k) := by
  induction ps with
  | nil => simp [place]
  | cons p ps ih =>
    obtain ⟨hp, hps⟩ := List.pairwise_cons.mp h
    simp only [place, if_true]
    split_ifs with h1 h2
    · have hne := key_ne_of_lt_head h h1
      rw [List.mem_cons, or_comm]
      exact or_congr_right ⟨fun hq => ⟨hq, hne⟩, fun hq => hq.1⟩
    · rw [List.mem_cons, ih hps, List.mem_cons, or_assoc, List.forall_mem_cons]
      exact or_congr_right (or_congr_right (and_congr_right fun _ => (and_iff_right h2.ne).symm))
    · have hk : k = p.1 := le_antisymm (not_lt.mp h2) (not_lt.mp h1)
      rw [or_iff_left]
      rintro ⟨-, hall⟩
      exact hall p List.mem_cons_self hk.symm

namespace Map

theorem find_eq_none_iff {m : Map κ α} {k : κ} : m.find k = none ↔ ∀ q ∈ m.entries, q.1 ≠ k := by
  simp [find, List.find?_eq_none]

/-- **Overwriting.**  `m[k] = v` binds `k` to `v` and leaves every other key alone. -/
theorem find_set (m : Map κ α) (k : κ) (v : α) (k' : κ) :
    (m.set k v).find k' = if k' = k then some v else m.find k' := by
  ext w
  rw [find_eq_some_iff]
  show (k', w) ∈ place false k v m.entries ↔ _
  rw [mem_place_overwrite m.sorted]
  by_cases hk : k' = k
  · simp [hk, eq_comm]
  · simp [hk, ← find_eq_some_iff]

/-- **Inserting.**  `m.insert` binds `k` only when it was free. -/
theorem find_insert (m : Map κ α) (k : κ) (v : α) (k' : κ) :
    (m.insert k v).find k' = if k' = k then some ((m.find k).getD v) else m.find k' := by
  ext w
  rw [find_eq_some_iff]
  show (k', w) ∈ place true k v m.entries ↔ _
  rw [mem_place_keep m.sorted, ← find_eq_none_iff, ← find_eq_some_iff]
  by_cases hk : k' = k
  · subst hk
    cases hf : m.find k' with
    | none => simp [eq_comm]
    | some u => simp
  · simp [hk]

theorem find_insert_self_isSome (m : Map κ α) (k : κ) (v : α) : ((m.insert k v).find k).isSome := by
  rw [find_insert, if_pos rfl]
  rfl

/-! ### A list of entries put in one by one -/

/-- **The first entry of a key stays.** -/
theorem find_foldl_insert {ι : Type*} (key : ι → κ) (val : ι → α) (xs : List ι) (m : Map κ α) (k : κ)
    [DecidablePred fun x => key x = k] :
    (xs.foldl (fun m x => m.insert (key x) (val x)) m).find k =
      (m.find k).or ((xs.find? fun x => key x = k).map val) := by
  induction xs generalizing m with
  | nil => simp
  | cons x xs ih =>
    rw [List.foldl_cons, ih, find_insert, List.find?_cons]
    by_cases hk : key x = k
    · subst hk
      cases hm : m.find (key x) with
      | none => simp
      | some w => simp
    · simp [hk, Ne.symm hk]

/-- **The last entry of a key stays.** -/
theorem find_foldl_set {ι : Type*} (key : ι → κ) (val : ι → α) (xs : List ι) (m : Map κ α) (k : κ)
    [DecidablePred fun x => key x = k] :
    (xs.foldl (fun m x => m.set (key x) (val x)) m).find k =
      ((xs.reverse.find? fun x => key x = k).map val).or (m.find k) := by
  induction xs generalizing m with
  | nil => simp
  | cons x xs ih =>
    rw [List.foldl_cons, ih, find_set, List.reverse_cons, List.find?_append, List.find?_singleton]
    cases xs.reverse.find? fun x => key x = k with
    | some y => simp
    | none =>
      by_cases hk : key x = k
      · simp [hk]
      · simp [hk, Ne.symm hk]

/-- `m`, overridden by `m'`: the entries of `m'` are put over those of `m`. -/
def override (m m' : Map κ α) : Map κ α := m'.entries.foldl (fun m p => m.set p.1 p.2) m

theorem find_override (m m' : Map κ α) (k : κ) : (m.override m').find k = (m'.find k).or (m.find k) := by
  have hlast : (m'.entries.reverse.find? fun p => p.1 = k).map Prod.snd = m'.find k := by
    cases hr : m'.entries.reverse.find? fun p => p.1 = k with
    | none =>
      rw [List.find?_eq_none] at hr
      refine (find_eq_none_iff.mpr fun q hq => ?_).symm
      simpa using hr q (List.mem_reverse.mpr hq)
    | some p =>
      obtain rfl : p.1 = k := by simpa using List.find?_some hr
      exact (find_eq_some_iff.mpr (List.mem_reverse.mp (List.mem_of_find?_eq_some hr))).symm
  rw [override, find_foldl_set Prod.fst Prod.snd, hlast]

/-! ### Entries -/

theorem nodup_keys (m : Map κ α) : (m.entries.map Prod.fst).Nodup :=
  List.pairwise_map.mpr (m.sorted.imp ne_of_lt)

theorem nodup_entries (m : Map κ α) : m.entries.Nodup := m.nodup_keys.of_map

/-- **Extensionality.**  A map is determined by what it finds. -/
theorem ext_find {m m' : Map κ α} (h : ∀ k, m.find k = m'.find k) : m = m' := by
  have hperm : m.entries.Perm m'.entries := by
    rw [List.perm_ext_iff_of_nodup m.nodup_entries m'.nodup_entries]
    intro p
    rw [← find_eq_some_iff, ← find_eq_some_iff, h]
  have hentries : m.entries = m'.entries := by
    refine hperm.eq_of_pairwise ?_ m.sorted m'.sorted
    intro p q _ _ hpq hqp
    exact absurd hqp (lt_asymm hpq)
  cases m
  cases m'
  congr

/-- **One map shows another.**  Up to order, the entries of `m` are those of `m'` under `g` and `h`, if
and only if `g` keeps the keys of `m'` apart and `m` finds exactly the images. -/
theorem entries_perm_map_iff {κ' β : Type*} [LinearOrder κ'] {m : Map κ α} {m' : Map κ' β} (g : κ' → κ)
    (h : β → α) :
    m.entries.Perm (m'.entries.map fun e => (g e.1, h e.2)) ↔
      (∀ k₁ k₂, (m'.find k₁).isSome → (m'.find k₂).isSome → g k₁ = g k₂ → k₁ = k₂) ∧
        ∀ k v, m.find k = some v ↔ ∃ k' v', m'.find k' = some v' ∧ g k' = k ∧ h v' = v := by
  have hmem (k v) : (k, v) ∈ m'.entries.map (fun e => (g e.1, h e.2)) ↔
      ∃ k' v', m'.find k' = some v' ∧ g k' = k ∧ h v' = v := by
    simp only [List.mem_map, Prod.exists, Prod.mk.injEq, find_eq_some_iff]
  have hkeys : (m'.entries.map fun e => (g e.1, h e.2)).map Prod.fst =
      (m'.entries.map Prod.fst).map g := by
    simp only [List.map_map, Function.comp_def]
  have hsome (k) : k ∈ m'.entries.map Prod.fst ↔ (m'.find k).isSome := by
    rw [Option.isSome_iff_exists]
    simp only [find_eq_some_iff, List.mem_map, Prod.exists, exists_and_right, exists_eq_right]
  have hinj : ((m'.entries.map Prod.fst).map g).Nodup ↔
      ∀ k₁ k₂, (m'.find k₁).isSome → (m'.find k₂).isSome → g k₁ = g k₂ → k₁ = k₂ := by
    rw [List.nodup_map_iff_inj_on m'.nodup_keys]
    simp only [hsome]
    exact ⟨fun hall k₁ k₂ h₁ h₂ => hall k₁ h₁ k₂ h₂, fun hall k₁ h₁ k₂ h₂ => hall k₁ k₂ h₁ h₂⟩
  constructor
  · intro hperm
    refine ⟨?_, ?_⟩
    · rw [← hinj, ← hkeys]
      exact (hperm.map Prod.fst).nodup_iff.mp m.nodup_keys
    · intro k v
      rw [← hmem, find_eq_some_iff, hperm.mem_iff]
  · rintro ⟨hg, hall⟩
    have hnodup : (m'.entries.map fun e => (g e.1, h e.2)).Nodup := by
      refine List.Nodup.of_map Prod.fst ?_
      rw [hkeys, hinj]
      exact hg
    rw [List.perm_ext_iff_of_nodup m.nodup_entries hnodup]
    rintro ⟨k, v⟩
    rw [hmem, ← hall, find_eq_some_iff]

end Map

end OrderedMap
