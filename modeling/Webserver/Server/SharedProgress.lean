import Mathlib.Algebra.Order.BigOperators.Group.Finset
import Mathlib.Data.Fintype.Card
import Webserver.Server.SharedHistory

/-!
# Sessions that share the history come to their ends

`SharedHistory` says what the sessions never do to each other.  With finitely many of them, none waits for
ever: a session takes at most two steps for each entry that it can read and seven others, and as long as one
has not finished some session can take a step.

* `appendOrder` — the sessions in the order of their appends.
* `sessions_finish` — the steps of every interleaving are bounded, and a fair one finishes every session.
-/

namespace Webserver.Server

open ByteString CriticalSection Http

/-! ### The stages of a session -/

/-- The stage behind a stage, for a job and the history at the time of the step. -/
inductive Stage.Next (job : Job) (history : List (Bytes × ResponseCode)) : Stage → Stage → Prop
  | ask {uri : Bytes} (h : job = .status uri) : Next job history called pageLocked
  | answer {uri : Bytes} {code : ResponseCode} (h : job = .other uri code) : Next job history called (handled none)
  | begin : Next job history pageLocked (rowTest ⟨history.length, []⟩)
  | more {page : Page} (h : page.rows.length < history.length) : Next job history (rowTest page) (rowRead page)
  | done {page : Page} : Next job history (rowTest page) (pageDone page)
  | row {page : Page} {entry : Bytes × ResponseCode} :
      Next job history (rowRead page) (rowTest { page with rows := page.rows ++ [entry] })
  | release {page : Page} : Next job history (pageDone page) (handled (some page))
  | enter {page : Option Page} : Next job history (handled page) (writeLocked page)
  | append {page : Option Page} : Next job history (writeLocked page) (appended page)
  | leave {page : Option Page} : Next job history (appended page) (finished page)

/-- **A step moves its session** to the stage behind, and no other one. -/
theorem step_next {ι : Type*} [DecidableEq ι] {job : ι → Job} {i : ι} {w w' : World ι}
    (hstep : step job i w = some w') :
    ∃ p, w'.stage = Function.update w.stage i p ∧ (w.stage i).Next (job i) w.history p := by
  rw [step] at hstep
  cases hstage : w.stage i with
  | called =>
    rw [hstage] at hstep
    cases hjob : job i with
    | status uri =>
      rw [hjob] at hstep
      obtain ⟨-, rfl⟩ := World.lock_eq_some hstep
      exact ⟨_, rfl, .ask rfl⟩
    | other uri code =>
      rw [hjob] at hstep
      obtain rfl := Option.some.inj hstep
      exact ⟨_, rfl, .answer rfl⟩
  | pageLocked =>
    rw [hstage] at hstep
    obtain rfl := Option.some.inj hstep
    exact ⟨_, rfl, .begin⟩
  | rowTest page =>
    rw [hstage] at hstep
    simp only at hstep
    split_ifs at hstep with hlt
    · obtain rfl := Option.some.inj hstep
      exact ⟨_, rfl, .more hlt⟩
    · obtain rfl := Option.some.inj hstep
      exact ⟨_, rfl, .done⟩
  | rowRead page =>
    rw [hstage] at hstep
    obtain ⟨entry, -, rfl⟩ := Option.map_eq_some_iff.mp hstep
    exact ⟨_, rfl, .row⟩
  | pageDone page =>
    rw [hstage] at hstep
    obtain rfl := Option.some.inj hstep
    exact ⟨_, rfl, .release⟩
  | handled page =>
    rw [hstage] at hstep
    obtain ⟨-, rfl⟩ := World.lock_eq_some hstep
    exact ⟨_, rfl, .enter⟩
  | writeLocked page =>
    rw [hstage] at hstep
    obtain rfl := Option.some.inj hstep
    exact ⟨_, rfl, .append⟩
  | appended page =>
    rw [hstage] at hstep
    obtain rfl := Option.some.inj hstep
    exact ⟨_, rfl, .leave⟩
  | finished page => rw [hstage] at hstep; cases hstep

/-- No session goes back to its beginning. -/
theorem Stage.Next.ne_called {job : Job} {history : List (Bytes × ResponseCode)} {s p : Stage}
    (h : s.Next job history p) : p ≠ called := by
  cases h with
  | ask | answer | begin | more | done | row | release | enter | append | leave => exact Stage.noConfusion

/-! ### The order of the appends -/

section Order

variable {ι : Type*} [DecidableEq ι] (job : ι → Job) (schedule : ℕ → ι)

/-- The sessions that have appended by some moment, in this order. -/
def appendOrder : ℕ → List ι
  | 0 => []
  | n + 1 =>
    let w := run (step job) schedule World.start
    appendOrder n ++
      if ((w n).stage (schedule n)).hasAppended = false ∧ ((w (n + 1)).stage (schedule n)).hasAppended then
        [schedule n]
      else []

theorem appendOrder_grows {m n : ℕ} (h : m ≤ n) : appendOrder job schedule m <+: appendOrder job schedule n := by
  induction h with
  | refl => exact List.prefix_rfl
  | step _ ih => exact ih.trans (List.prefix_append _ _)

/-- A moment without an append. -/
theorem appendOrder_succ_same {n : ℕ}
    (h : ((run (step job) schedule World.start (n + 1)).stage (schedule n)).hasAppended =
      ((run (step job) schedule World.start n).stage (schedule n)).hasAppended) :
    appendOrder job schedule (n + 1) = appendOrder job schedule n := by
  rw [appendOrder, if_neg, List.append_nil]
  intro h
  obtain ⟨hbefore, hafter⟩ := h
  rw [h, hbefore] at hafter
  cases hafter

/-- **The history has the entries in the order of the appends.** -/
theorem recordedBy_appendOrder (n : ℕ) :
    RecordedBy job (run (step job) schedule World.start n) (appendOrder job schedule n) := by
  induction n with
  | zero => exact ⟨List.nodup_nil, fun _ => iff_of_false (fun h => by cases h) (fun h => by cases h), rfl⟩
  | succ n ih =>
    rcases @run_succ_cases ι _ (step job) schedule World.start n with ⟨-, heq⟩ | hstep
    · rw [appendOrder_succ_same job schedule (by rw [heq]), heq]
      exact ih
    · have hsame {p : Stage} (hstage : (run (step job) schedule World.start (n + 1)).stage =
          Function.update (run (step job) schedule World.start n).stage (schedule n) p)
          (happended : p.hasAppended =
            ((run (step job) schedule World.start n).stage (schedule n)).hasAppended) :
          appendOrder job schedule (n + 1) = appendOrder job schedule n := by
        refine appendOrder_succ_same job schedule ?_
        rw [hstage, Function.update_self, happended]
      have ht := step_transition hstep
      generalize hw : run (step job) schedule World.start (n + 1) = w' at ht hsame
      cases ht with
      | lock hfree hin hknows hpage happended =>
        rw [hsame rfl happended]
        exact recordedBy_update _ happended ih
      | inside hin hknows hpage happended =>
        rw [hsame rfl happended]
        exact recordedBy_update _ happended ih
      | unlock hin hout hpage happended =>
        rw [hsame rfl happended]
        exact recordedBy_update _ happended ih
      | @append p hin hin' hknows hpage happended happended' =>
        have horder : appendOrder job schedule (n + 1) = appendOrder job schedule n ++ [schedule n] := by
          rw [appendOrder, hw, if_pos]
          have hstage : Function.update (run (step job) schedule World.start n).stage (schedule n) p
              (schedule n) = p := by rw [Function.update_self]
          exact ⟨happended, (congrArg Stage.hasAppended hstage).trans happended'⟩
        rw [horder]
        exact recordedBy_pushBack happended happended' ih

theorem not_called_run {m n : ℕ} (h : m ≤ n) {i : ι}
    (hm : (run (step job) schedule World.start m).stage i ≠ .called) :
    (run (step job) schedule World.start n).stage i ≠ .called := by
  refine run_monotone (fun w w' : World ι => w.stage i ≠ .called → w'.stage i ≠ .called) (fun _ h => h)
    (fun _ _ _ h h' hne => h' (h hne)) ?_ _ h hm
  intro j w w' hstep hne
  obtain ⟨p, hstage, hnext⟩ := step_next hstep
  rw [hstage]
  by_cases hj : i = j
  · rw [hj, Function.update_self]
    exact hnext.ne_called
  · rw [Function.update_of_ne hj]
    exact hne

/-- **A page has the entries of the sessions that had appended by then**: not its own, and those of all sessions
that had appended before it was asked for. -/
theorem page_rows {n : ℕ} {i : ι} {page : Page}
    (h : ((run (step job) schedule World.start n).stage i).page? = some page) :
    ∃ before, before <+: appendOrder job schedule n ∧ i ∉ before ∧
      (∀ m j, (run (step job) schedule World.start m).stage i = .called →
        ((run (step job) schedule World.start m).stage j).hasAppended → j ∈ before) ∧
      page.rows = before.map fun j => (job j).entry := by
  obtain ⟨m, hm, hdone⟩ := page_moment job schedule h
  obtain ⟨-, hmem, hhistory⟩ := recordedBy_appendOrder job schedule m
  have hknows := (invariant_run job schedule m).knows i
  rw [hdone] at hknows
  refine ⟨appendOrder job schedule m, appendOrder_grows job schedule hm.le, ?_, ?_, hknows.2.trans hhistory⟩
  · rw [hmem, hdone]
    exact Bool.false_ne_true
  · intro m' j hcalled happended
    have hle : m' ≤ m := by
      by_contra hlt
      exact not_called_run job schedule (Nat.le_of_not_le hlt) (by rw [hdone]; exact Stage.noConfusion) hcalled
    exact (appendOrder_grows job schedule hle).subset (((recordedBy_appendOrder job schedule m').2.1 j).mpr happended)

theorem page_total {n : ℕ} {i : ι} {page : Page}
    (h : ((run (step job) schedule World.start n).stage i).page? = some page) : page.total = page.rows.length := by
  obtain ⟨m, -, hdone⟩ := page_moment job schedule h
  have hknows := (invariant_run job schedule m).knows i
  rw [hdone] at hknows
  rw [hknows.1, hknows.2]

end Order

/-! ### The page of a session -/

/-- A session gets a page exactly if its request is for `StatusHandler`. -/
def Stage.PageFor (job : Job) : Stage → Prop
  | called => True
  | handled page | writeLocked page | appended page | finished page => page.isSome ↔ ∃ uri, job = .status uri
  | _ => ∃ uri, job = .status uri

theorem Stage.Next.pageFor {job : Job} {history : List (Bytes × ResponseCode)} {s p : Stage}
    (h : s.Next job history p) (hpage : s.PageFor job) : p.PageFor job := by
  cases h with
  | ask hjob => exact ⟨_, hjob⟩
  | answer hjob =>
    refine iff_of_false Bool.false_ne_true fun h => ?_
    obtain ⟨uri, huri⟩ := h
    cases hjob.symm.trans huri
  | release => exact iff_of_true rfl hpage
  | begin | more | done | row | enter | append | leave => exact hpage

section PageFor

variable {ι : Type*} [DecidableEq ι] {job : ι → Job}

theorem pageFor_run (schedule : ℕ → ι) (n : ℕ) :
    ∀ i, ((run (step job) schedule World.start n).stage i).PageFor (job i) := by
  have hstart : ∀ i, ((World.start : World ι).stage i).PageFor (job i) := fun _ => trivial
  refine run_invariant (fun w : World ι => ∀ i, (w.stage i).PageFor (job i)) ?_ hstart n
  intro i w w' hall hstep j
  obtain ⟨p, hstage, hnext⟩ := step_next hstep
  rw [hstage]
  by_cases hj : j = i
  · rw [hj, Function.update_self]
    exact hnext.pageFor (hall i)
  · rw [Function.update_of_ne hj]
    exact hall j

end PageFor

/-! ### The steps that are left -/

/-- The steps that a session has left, with at most this number of entries to read. -/
def Stage.cost (entries : ℕ) : Stage → ℕ
  | called => 2 * entries + 7
  | pageLocked => 2 * entries + 6
  | rowTest page => 2 * (entries - page.rows.length) + 5
  | rowRead page => 2 * (entries - page.rows.length) + 4
  | pageDone _ => 4
  | handled _ => 3
  | writeLocked _ => 2
  | appended _ => 1
  | finished _ => 0

section Cost

variable {ι : Type*} [Fintype ι] [DecidableEq ι] {job : ι → Job} {i : ι} {w w' : World ι}

/-- The steps that all sessions have left. -/
def World.cost (w : World ι) : ℕ := ∑ i, (w.stage i).cost (Fintype.card ι)

omit [DecidableEq ι] in
theorem cost_start : (World.start : World ι).cost = Fintype.card ι * (2 * Fintype.card ι + 7) := by
  rw [World.cost]
  exact Finset.sum_const_nat fun _ _ => rfl

/-- The others keep their stages. -/
theorem cost_update {p : Stage} (hstage : w'.stage = Function.update w.stage i p)
    (hlt : p.cost (Fintype.card ι) < (w.stage i).cost (Fintype.card ι)) : w'.cost < w.cost := by
  refine Finset.sum_lt_sum (fun j _ => ?_) ⟨i, Finset.mem_univ i, ?_⟩
  · rw [hstage]
    by_cases hj : j = i
    · rw [hj, Function.update_self]
      exact hlt.le
    · rw [Function.update_of_ne hj]
  · rw [hstage, Function.update_self]
    exact hlt

omit [DecidableEq ι] in
/-- There are no more entries than sessions. -/
theorem history_length_le (h : Invariant job w) : w.history.length ≤ Fintype.card ι := by
  obtain ⟨order, hnodup, -, hhistory⟩ := h.recorded
  rw [hhistory, List.length_map]
  exact hnodup.length_le_card

theorem Stage.Next.cost_lt {j : Job} {history : List (Bytes × ResponseCode)} {s p : Stage} {entries : ℕ}
    (h : s.Next j history p) (hknows : s.Knows history) (hentries : history.length ≤ entries) :
    p.cost entries < s.cost entries := by
  cases h with
  | row =>
    have hlt := hknows.2.2
    rw [Stage.cost, Stage.cost, List.length_append, List.length_singleton]
    omega
  | begin =>
    rw [Stage.cost, Stage.cost, List.length_nil]
    omega
  | ask | answer | more | done | release | enter | append | leave =>
    rw [Stage.cost, Stage.cost]
    omega

/-- **Every step** leaves its session with fewer steps. -/
theorem step_cost (h : Invariant job w) (hstep : step job i w = some w') : w'.cost < w.cost := by
  obtain ⟨p, hstage, hnext⟩ := step_next hstep
  exact cost_update hstage (hnext.cost_lt (h.knows i) (history_length_le h))

theorem variant_cost (job : ι → Job) : Variant (step job) (Invariant job) (World.cost : World ι → ℕ) where
  keeps _ _ _ h hstep := (step_transition hstep).invariant h
  lowers _ _ _ h hstep := step_cost h hstep

/-! ### No deadlock -/

omit [Fintype ι] in
/-- The session that holds the mutex can go on. -/
theorem step_isSome_of_inSection (h : Invariant job w) (hin : (w.stage i).inSection) : (step job i w).isSome := by
  have hknows := h.knows i
  rw [step]
  cases hstage : w.stage i with
  | rowRead page =>
    rw [hstage] at hknows
    rw [Option.isSome_map, List.getElem?_eq_getElem hknows.2.2]
    rfl
  | rowTest page =>
    simp only
    split_ifs
    · rfl
    · rfl
  | pageLocked | pageDone page | writeLocked page | appended page => rfl
  | called | handled page | finished page => rw [hstage] at hin; cases hin

omit [Fintype ι] in
/-- While nobody holds the mutex, every session that has not finished can go on. -/
theorem step_isSome_of_free (hfree : w.holder = none) (hout : (w.stage i).inSection = false)
    (hnot : ∀ page, w.stage i ≠ .finished page) : (step job i w).isSome := by
  rw [step]
  cases hstage : w.stage i with
  | called =>
    cases job i with
    | status uri => simp only [World.lock, hfree]; rfl
    | other uri code => rfl
  | handled page => simp only [World.lock, hfree]; rfl
  | finished page => exact absurd hstage (hnot page)
  | _ => rw [hstage] at hout; cases hout

omit [Fintype ι] in
/-- **No deadlock**: where no session can take a step, all have finished. -/
theorem finished_of_stuck (h : Invariant job w) (hstuck : Stuck (step job) w) :
    w.holder = none ∧ ∀ i, ∃ page, w.stage i = .finished page := by
  have hfree : w.holder = none := by
    cases hholder : w.holder with
    | none => rfl
    | some i =>
      have hsome := step_isSome_of_inSection h ((h.exclusive i).mpr hholder)
      rw [hstuck i] at hsome
      cases hsome
  refine ⟨hfree, fun i => ?_⟩
  by_contra hno
  have hout : (w.stage i).inSection = false := by
    rw [Bool.eq_false_iff]
    intro hin
    rw [(h.exclusive i).mp hin] at hfree
    cases hfree
  have hsome := @step_isSome_of_free _ _ job _ _ hfree hout fun page hpage => hno ⟨page, hpage⟩
  rw [hstuck i] at hsome
  cases hsome

end Cost

/-! ### Every session finishes -/

/-- **Every session finishes.**  In every interleaving of finitely many sessions the steps are bounded by their
number, whatever the schedule does; and a schedule that comes back to every session brings all of them to their
ends, after which nothing changes.  Then the mutex is free, the history has exactly one entry for each session,
and exactly the sessions for `StatusHandler` have a page, with the entries of those that had appended before: of
all that had appended when the page was asked for, and not its own. -/
theorem sessions_finish {ι : Type*} [Fintype ι] [DecidableEq ι] (job : ι → Job) (schedule : ℕ → ι) :
    let w := run (step job) schedule World.start
    (∀ n, Nat.count (Moves (step job) schedule World.start) n ≤ Fintype.card ι * (2 * Fintype.card ι + 7)) ∧
      (Fair schedule → ∃ n, (∀ m, n ≤ m → w m = w n) ∧ (w n).holder = none ∧
        ∃ order : List ι, order.Nodup ∧ (∀ i, i ∈ order) ∧
          (w n).history = order.map (fun i => (job i).entry) ∧
          ∀ i, ∃ page, (w n).stage i = .finished page ∧ (page.isSome ↔ ∃ uri, job i = .status uri) ∧
            ∀ p, page = some p → p.total = p.rows.length ∧
              ∃ before, before <+: order ∧ i ∉ before ∧
                (∀ m j, (w m).stage i = .called → ((w m).stage j).hasAppended → j ∈ before) ∧
                p.rows = before.map fun j => (job j).entry) := by
  intro w
  have hvariant := variant_cost (ι := ι) job
  have hstart : Invariant job (World.start : World ι) := invariant_start job
  refine ⟨fun n => ?_, fun hfair => ?_⟩
  · have hcount := @Variant.count_moves _ _ _ schedule _ _ hvariant _ hstart n
    rw [cost_start] at hcount
    exact (Nat.le_add_right _ _).trans hcount
  · obtain ⟨n, hstuck, hlast⟩ := hvariant.stops hstart hfair
    obtain ⟨hfree, hfinished⟩ := finished_of_stuck (invariant_run job schedule n) hstuck
    obtain ⟨hnodup, hmem, hhistory⟩ := recordedBy_appendOrder job schedule n
    refine ⟨n, hlast, hfree, appendOrder job schedule n, hnodup, fun i => ?_, hhistory, fun i => ?_⟩
    · obtain ⟨page, hpage⟩ := hfinished i
      rw [hmem, hpage]
      rfl
    · obtain ⟨page, hpage⟩ := hfinished i
      have hfor := @pageFor_run _ _ job schedule n i
      rw [hpage] at hfor
      refine ⟨page, hpage, hfor, ?_⟩
      intro p heq
      subst heq
      have hp : ((w n).stage i).page? = some p := by rw [hpage]; rfl
      exact ⟨page_total job schedule hp, page_rows job schedule hp⟩

/-- Two sessions that take turns. -/
theorem sessions_finish_two :
    ∃ n, ∃ order : List Bool, (run (step fun status => if status then .status (bytes "/s") else .other (bytes "/a") 404)
      (fun n => decide (n % 2 = 1)) World.start n).history =
        order.map fun i => (if i then Job.status (bytes "/s") else .other (bytes "/a") 404).entry := by
  have hfair : Fair fun n => decide (n % 2 = 1) := by
    intro i n
    cases i with
    | false => exact ⟨2 * n, by omega, decide_eq_false (by omega)⟩
    | true => exact ⟨2 * n + 1, by omega, decide_eq_true (by omega)⟩
  obtain ⟨n, -, -, order, -, -, hhistory, -⟩ := (sessions_finish _ _).2 hfair
  exact ⟨n, order, hhistory⟩

end Webserver.Server
