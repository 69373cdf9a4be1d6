import Webserver.Server.HandleRequest
import Webserver.Support.CriticalSection

/-!
# Sessions that share the history

Every session runs in a thread of its own.  The history is read by `StatusHandler::HandleRequest` and
extended by `Session::do_write`, each between `Lock` and `Unlock`; no other function uses it.  Here the
atomic steps of a session are the two calls, one access to the vector, and whatever the session does for
itself in between.

* `step_transition` — what a step can do.
* `invariant_run` — mutual exclusion, what a session knows of the history, and the order of the appends.
* `history_shared` — nothing is lost or duplicated, and a page shows one moment.
-/

namespace Webserver.Server

open ByteString CriticalSection Http

/-! ### Sessions -/

/-- The request of a session: its URI, and the code of the response if it is not for `StatusHandler`. -/
inductive Job where
  | status (uri : Bytes)
  | other (uri : Bytes) (code : ResponseCode)

/-- The entry that `do_write` appends; a status page is sent as `ok`. -/
def Job.entry : Job → Bytes × ResponseCode
  | .status uri => (uri, .ok)
  | .other uri code => (uri, code)

/-- What `StatusHandler` has taken from the history: the size it writes, and the rows. -/
structure Page where
  total : ℕ
  rows : List (Bytes × ResponseCode)
  deriving DecidableEq

/-- How far a session is.  The page of `StatusHandler` is kept up to the end. -/
inductive Stage where
  | called
  | pageLocked
  | rowTest (page : Page)
  | rowRead (page : Page)
  | pageDone (page : Page)
  | handled (page : Option Page)
  | writeLocked (page : Option Page)
  | appended (page : Option Page)
  | finished (page : Option Page)
  deriving DecidableEq

namespace Stage

/-- The session is between `Lock` and `Unlock`. -/
def inSection : Stage → Bool
  | pageLocked | rowTest _ | rowRead _ | pageDone _ | writeLocked _ | appended _ => true
  | _ => false

/-- The next step of the session is a call of `Lock`. -/
def CallsLock (job : Job) : Stage → Prop
  | called => ∃ uri, job = .status uri
  | handled _ => True
  | _ => False

/-- The session has completed its append. -/
def hasAppended : Stage → Bool
  | appended _ | finished _ => true
  | _ => false

/-- The page that `HandleRequest` has returned. -/
def page? : Stage → Option Page
  | handled page | writeLocked page | appended page | finished page => page
  | _ => none

end Stage

section Step

variable {ι : Type*} [DecidableEq ι]

/-- The history, the session that holds the mutex, and the stages. -/
structure World (ι : Type*) where
  history : List (Bytes × ResponseCode)
  holder : Option ι
  stage : ι → Stage

namespace World

/-- The server before the first request. -/
def start : World ι := ⟨[], none, fun _ => .called⟩

def goto (w : World ι) (i : ι) (p : Stage) : World ι := { w with stage := Function.update w.stage i p }

/-- `Lock`, which blocks while the mutex is held. -/
def lock (w : World ι) (i : ι) (p : Stage) : Option (World ι) :=
  match w.holder with
  | none => some { w.goto i p with holder := some i }
  | some _ => none

/-- `Unlock`. -/
def unlock (w : World ι) (i : ι) (p : Stage) : World ι := { w.goto i p with holder := none }

/-- `requests.push_back`. -/
def pushBack (w : World ι) (i : ι) (p : Stage) (entry : Bytes × ResponseCode) : World ι :=
  { w.goto i p with history := w.history ++ [entry] }

end World

/-- **The next step of a session.**  The row that is read next is the one with the number of rows so far as
its index. -/
def step (job : ι → Job) (i : ι) (w : World ι) : Option (World ι) :=
  match w.stage i with
  | .called =>
    match job i with
    | .status _ => w.lock i .pageLocked
    | .other _ _ => some (w.goto i (.handled none))
  | .pageLocked => some (w.goto i (.rowTest ⟨w.history.length, []⟩))
  | .rowTest page =>
    if page.rows.length < w.history.length then some (w.goto i (.rowRead page))
    else some (w.goto i (.pageDone page))
  | .rowRead page =>
    w.history[page.rows.length]?.map fun entry =>
      w.goto i (.rowTest { page with rows := page.rows ++ [entry] })
  | .pageDone page => some (w.unlock i (.handled (some page)))
  | .handled page => w.lock i (.writeLocked page)
  | .writeLocked page => some (w.pushBack i (.appended page) (job i).entry)
  | .appended page => some (w.unlock i (.finished page))
  | .finished _ => none

/-! ### What a step can do -/

/-- What a session knows of the history while it holds the mutex. -/
def Stage.Knows (history : List (Bytes × ResponseCode)) : Stage → Prop
  | rowTest page => page.total = history.length ∧ page.rows <+: history
  | rowRead page => page.total = history.length ∧ page.rows <+: history ∧ page.rows.length < history.length
  | pageDone page => page.total = history.length ∧ page.rows = history
  | _ => True

theorem Stage.knows_of_outside {p : Stage} (h : p.inSection = false) (history : List (Bytes × ResponseCode)) :
    p.Knows history := by
  cases p with
  | rowTest page => cases h
  | rowRead page => cases h
  | pageDone page => cases h
  | _ => trivial

/-- The four kinds of steps. -/
inductive Transition (job : ι → Job) (i : ι) (w : World ι) : World ι → Prop
  | lock {p : Stage} (hfree : w.holder = none) (hin : p.inSection) (hknows : p.Knows w.history)
      (hpage : p.page? = (w.stage i).page?) (happended : p.hasAppended = (w.stage i).hasAppended) :
      Transition job i w { w.goto i p with holder := some i }
  | inside {p : Stage} (hin : p.inSection = (w.stage i).inSection)
      (hknows : (w.stage i).Knows w.history → p.Knows w.history) (hpage : p.page? = (w.stage i).page?)
      (happended : p.hasAppended = (w.stage i).hasAppended) : Transition job i w (w.goto i p)
  | unlock {p : Stage} (hin : (w.stage i).inSection) (hout : p.inSection = false)
      (hpage : p.page? = (w.stage i).page? ∨ ∃ page, w.stage i = .pageDone page ∧ p.page? = some page)
      (happended : p.hasAppended = (w.stage i).hasAppended) : Transition job i w (w.unlock i p)
  | append {p : Stage} (hin : (w.stage i).inSection) (hin' : p.inSection)
      (hknows : ∀ history, p.Knows history) (hpage : p.page? = (w.stage i).page?)
      (happended : (w.stage i).hasAppended = false) (happended' : p.hasAppended) :
      Transition job i w (w.pushBack i p (job i).entry)

theorem World.lock_eq_some {w w' : World ι} {i : ι} {p : Stage} (h : w.lock i p = some w') :
    w.holder = none ∧ { w.goto i p with holder := some i } = w' := by
  rw [World.lock] at h
  cases hholder : w.holder with
  | none => rw [hholder] at h; exact ⟨rfl, Option.some.inj h⟩
  | some j => rw [hholder] at h; cases h

/-- **Every step is of one of these kinds.** -/
theorem step_transition {job : ι → Job} {i : ι} {w w' : World ι} (h : step job i w = some w') :
    Transition job i w w' := by
  rw [step] at h
  cases hstage : w.stage i with
  | called =>
    rw [hstage] at h
    cases hjob : job i with
    | status uri =>
      rw [hjob] at h
      obtain ⟨hfree, rfl⟩ := World.lock_eq_some h
      exact .lock hfree rfl trivial (by rw [hstage]; rfl) (by rw [hstage]; rfl)
    | other uri code =>
      rw [hjob] at h
      obtain rfl := Option.some.inj h
      exact .inside (by rw [hstage]; rfl) (fun _ => trivial) (by rw [hstage]; rfl) (by rw [hstage]; rfl)
  | pageLocked =>
    rw [hstage] at h
    obtain rfl := Option.some.inj h
    exact .inside (by rw [hstage]; rfl) (fun _ => ⟨rfl, List.nil_prefix⟩) (by rw [hstage]; rfl)
      (by rw [hstage]; rfl)
  | rowTest page =>
    rw [hstage] at h
    simp only at h
    split_ifs at h with hlt
    · obtain rfl := Option.some.inj h
      refine .inside (by rw [hstage]; rfl) ?_ (by rw [hstage]; rfl) (by rw [hstage]; rfl)
      rw [hstage]
      intro hknows
      exact ⟨hknows.1, hknows.2, hlt⟩
    · obtain rfl := Option.some.inj h
      refine .inside (by rw [hstage]; rfl) ?_ (by rw [hstage]; rfl) (by rw [hstage]; rfl)
      rw [hstage]
      intro hknows
      exact ⟨hknows.1, hknows.2.eq_of_length_le (Nat.le_of_not_lt hlt)⟩
  | rowRead page =>
    rw [hstage] at h
    obtain ⟨entry, hentry, rfl⟩ := Option.map_eq_some_iff.mp h
    refine .inside (by rw [hstage]; rfl) ?_ (by rw [hstage]; rfl) (by rw [hstage]; rfl)
    rw [hstage]
    intro hknows
    refine ⟨hknows.1, ?_⟩
    obtain ⟨t, ht⟩ := hknows.2.1
    rw [← ht, List.getElem?_append_right (le_refl _), Nat.sub_self] at hentry
    cases t with
    | nil => cases hentry
    | cons e t =>
      obtain rfl : e = entry := Option.some.inj hentry
      exact ⟨t, by rw [← ht, List.append_assoc]; rfl⟩
  | pageDone page =>
    rw [hstage] at h
    obtain rfl := Option.some.inj h
    exact .unlock (by rw [hstage]; rfl) rfl (.inr ⟨page, hstage, rfl⟩) (by rw [hstage]; rfl)
  | handled page =>
    rw [hstage] at h
    obtain ⟨hfree, rfl⟩ := World.lock_eq_some h
    exact .lock hfree rfl trivial (by rw [hstage]; rfl) (by rw [hstage]; rfl)
  | writeLocked page =>
    rw [hstage] at h
    obtain rfl := Option.some.inj h
    exact .append (by rw [hstage]; rfl) rfl (fun _ => trivial) (by rw [hstage]; rfl) (by rw [hstage]; rfl) rfl
  | appended page =>
    rw [hstage] at h
    obtain rfl := Option.some.inj h
    exact .unlock (by rw [hstage]; rfl) rfl (.inl (by rw [hstage]; rfl)) (by rw [hstage]; rfl)
  | finished page => rw [hstage] at h; cases h

/-! ### The invariant -/

/-- The sessions in `order` are those that have appended, and the history has their entries. -/
def RecordedBy (job : ι → Job) (w : World ι) (order : List ι) : Prop :=
  order.Nodup ∧ (∀ i, i ∈ order ↔ (w.stage i).hasAppended) ∧ w.history = order.map fun i => (job i).entry

structure Invariant (job : ι → Job) (w : World ι) : Prop where
  exclusive : Exclusive Stage.inSection w.holder w.stage
  knows : ∀ i, (w.stage i).Knows w.history
  recorded : ∃ order, RecordedBy job w order

omit [DecidableEq ι] in
theorem invariant_start (job : ι → Job) : Invariant job (World.start : World ι) where
  exclusive := fun _ => iff_of_false (fun h => by cases h) (fun h => by cases h)
  knows := fun _ => trivial
  recorded := ⟨[], List.nodup_nil, fun _ => iff_of_false (fun h => by cases h) (fun h => by cases h), rfl⟩

/-- A session that moves on knows what it has to, and the others what they knew. -/
theorem knows_update {stage : ι → Stage} {history : List (Bytes × ResponseCode)} {i : ι} {p : Stage}
    (hall : ∀ j, (stage j).Knows history) (hp : p.Knows history) :
    ∀ j, (Function.update stage i p j).Knows history := by
  intro j
  by_cases hj : j = i
  · rw [hj, Function.update_self]
    exact hp
  · rw [Function.update_of_ne hj]
    exact hall j

/-- A step without an append leaves the order of the appends as it is. -/
theorem recordedBy_update {job : ι → Job} {w : World ι} {i : ι} {p : Stage} (holder : Option ι)
    (happended : p.hasAppended = (w.stage i).hasAppended) {order : List ι} (h : RecordedBy job w order) :
    RecordedBy job ⟨w.history, holder, Function.update w.stage i p⟩ order := by
  obtain ⟨hnodup, hmem, hhistory⟩ := h
  refine ⟨hnodup, ?_, hhistory⟩
  intro j
  by_cases hj : j = i
  · show j ∈ order ↔ (Function.update w.stage i p j).hasAppended
    rw [hj, Function.update_self, happended]
    exact hmem i
  · show j ∈ order ↔ (Function.update w.stage i p j).hasAppended
    rw [Function.update_of_ne hj]
    exact hmem j

/-- An append puts its session at the end of the order. -/
theorem recordedBy_pushBack {job : ι → Job} {w : World ι} {i : ι} {p : Stage}
    (happended : (w.stage i).hasAppended = false) (happended' : p.hasAppended) {order : List ι}
    (h : RecordedBy job w order) : RecordedBy job (w.pushBack i p (job i).entry) (order ++ [i]) := by
  obtain ⟨hnodup, hmem, hhistory⟩ := h
  have hi : i ∉ order := by
    rw [hmem, happended]
    exact Bool.false_ne_true
  refine ⟨?_, ?_, ?_⟩
  · rw [List.nodup_append]
    refine ⟨hnodup, List.nodup_singleton i, ?_⟩
    intro j hj k hk hjk
    rw [List.mem_singleton.mp hk] at hjk
    exact hi (hjk ▸ hj)
  · intro j
    show j ∈ order ++ [i] ↔ (Function.update w.stage i p j).hasAppended
    rw [List.mem_append, List.mem_singleton]
    by_cases hj : j = i
    · rw [hj, Function.update_self]
      exact iff_of_true (.inr rfl) happended'
    · rw [Function.update_of_ne hj, or_iff_left hj]
      exact hmem j
  · show w.history ++ [(job i).entry] = _
    rw [hhistory, List.map_append]
    rfl

/-- **One step** keeps the invariant. -/
theorem Transition.invariant {job : ι → Job} {i : ι} {w w' : World ι} (ht : Transition job i w w')
    (h : Invariant job w) : Invariant job w' := by
  obtain ⟨hexclusive, hknows, order, hrecorded⟩ := h
  cases ht with
  | lock hfree hin hp hpage happended =>
    rw [hfree] at hexclusive
    exact ⟨hexclusive.enter i hin, knows_update hknows hp, order, recordedBy_update _ happended hrecorded⟩
  | inside hin hp hpage happended =>
    exact ⟨hexclusive.stay hin, knows_update hknows (hp (hknows i)), order,
      recordedBy_update _ happended hrecorded⟩
  | unlock hin hout hpage happended =>
    exact ⟨hexclusive.leave hin hout, knows_update hknows (Stage.knows_of_outside hout _), order,
      recordedBy_update _ happended hrecorded⟩
  | append hin hin' hp hpage happended happended' =>
    refine ⟨hexclusive.stay (hin'.trans hin.symm), ?_, order ++ [i],
      recordedBy_pushBack happended happended' hrecorded⟩
    intro j
    by_cases hj : j = i
    · show (Function.update w.stage i _ j).Knows _
      rw [hj, Function.update_self]
      exact hp _
    · show (Function.update w.stage i _ j).Knows _
      rw [Function.update_of_ne hj]
      -- the others are outside of their sections, where nothing is known
      apply Stage.knows_of_outside
      rw [Bool.eq_false_iff]
      intro hinj
      exact hj (hexclusive.unique hinj hin)

/-- A step leaves the history as it is, or adds one entry at its end. -/
theorem Transition.history_grows {job : ι → Job} {i : ι} {w w' : World ι} (ht : Transition job i w w') :
    w.history <+: w'.history := by
  cases ht with
  | append hin hin' hp hpage happended happended' => exact List.prefix_append _ _
  | _ => exact List.prefix_rfl

/-- A page is returned with the step that unlocks the mutex. -/
theorem Transition.page {job : ι → Job} {i j : ι} {w w' : World ι} (ht : Transition job i w w') {page : Page}
    (h : (w'.stage j).page? = some page) : (w.stage j).page? = some page ∨ w.stage j = .pageDone page := by
  have hkept {p : Stage} (hp : p.page? = (w.stage i).page?)
      (h : (Function.update w.stage i p j).page? = some page) : (w.stage j).page? = some page := by
    by_cases hj : j = i
    · rw [hj, Function.update_self, hp] at h
      rw [hj]
      exact h
    · rwa [Function.update_of_ne hj] at h
  cases ht with
  | lock hfree hin hp hpage happended => exact .inl (hkept hpage h)
  | inside hin hp hpage happended => exact .inl (hkept hpage h)
  | append hin hin' hp hpage happended happended' => exact .inl (hkept hpage h)
  | @unlock p hin hout hpage happended =>
    rcases hpage with hpage | ⟨page', hdone, hpage⟩
    · exact .inl (hkept hpage h)
    · change (Function.update w.stage i p j).page? = some page at h
      by_cases hj : j = i
      · rw [hj, Function.update_self, hpage] at h
        rw [hj, hdone, Option.some.inj h]
        exact .inr rfl
      · rw [Function.update_of_ne hj] at h
        exact .inl h

/-! ### Every interleaving -/

variable (job : ι → Job) (schedule : ℕ → ι)

theorem invariant_run (n : ℕ) : Invariant job (run (step job) schedule World.start n) :=
  run_invariant (Invariant job) (fun _ _ _ h hstep => (step_transition hstep).invariant h) (invariant_start job) n

theorem history_grows_run {m n : ℕ} (h : m ≤ n) :
    (run (step job) schedule World.start m).history <+: (run (step job) schedule World.start n).history :=
  run_monotone (fun w w' : World ι => w.history <+: w'.history) (fun _ => List.prefix_rfl)
    (fun _ _ _ => List.IsPrefix.trans) (fun _ _ _ hstep => (step_transition hstep).history_grows) _ h

/-- A page that has been returned was complete at an earlier moment, when its session held the mutex. -/
theorem page_moment {n : ℕ} {i : ι} {page : Page}
    (h : ((run (step job) schedule World.start n).stage i).page? = some page) :
    ∃ m < n, (run (step job) schedule World.start m).stage i = .pageDone page := by
  induction n with
  | zero => cases h
  | succ n ih =>
    have hback : ((run (step job) schedule World.start n).stage i).page? = some page ∨
        (run (step job) schedule World.start n).stage i = .pageDone page := by
      rcases @run_succ ι _ (step job) schedule World.start n with heq | ⟨j, hj⟩
      · rw [heq] at h
        exact .inl h
      · exact (step_transition hj).page h
    rcases hback with hback | hdone
    · obtain ⟨m, hm, hdone⟩ := ih hback
      exact ⟨m, by omega, hdone⟩
    · exact ⟨n, Nat.lt_succ_self n, hdone⟩

/-! ### The page -/

/-- A table of the status page, with the number that is written in front of it. -/
def countedTable (total : ℕ) (first second : String) (rows : List (Bytes × Bytes)) : Bytes :=
  decimal total ++ bytes "\r\n<br><br><table style=\"width:640px\"><tr><th align=\"left\">" ++
    bytes first ++ bytes "</th><th align=\"left\" style=\"width:100px\">" ++ bytes second ++
    bytes "</th></tr>" ++ rows.flatMap statusRow

/-- The page put together from what has been read. -/
def Page.html (hi : HandlerInfo) (page : Page) : Bytes :=
  bytes "<html><head><title>Webserver Status</title></head><body>\r\nTotal number of request handlers: " ++
    countedTable hi.size "URL Prefix" "Handler Type" hi.entries ++
    bytes "</table><br><br><br>\r\nTotal number of requests received so far: " ++
    countedTable page.total "Request URI" "Response Code" (page.rows.map fun r => (r.1, decimalInt r.2)) ++
    bytes "</table></body></html>"

/-- A page whose total is the number of its rows is the one that a handler makes of these rows at once. -/
theorem Page.html_eq {page : Page} (h : page.total = page.rows.length) (hi : HandlerInfo) :
    page.html hi = statusPage hi page.rows := by
  rw [Page.html, h, statusPage, ← List.length_map fun r : Bytes × ResponseCode => (r.1, decimalInt r.2)]
  rfl

/-- **The shared history loses and duplicates nothing.**  At every moment of every interleaving at most one
session is between `Lock` and `Unlock`, and none that holds the mutex is about to call `Lock`; the history
has only been extended at its end, and has one entry for each session that has completed its append; and
every page has as many rows as it says, which are the whole history at a moment when its session held the
mutex. -/
theorem history_shared (hi : HandlerInfo) (n : ℕ) :
    let w := run (step job) schedule World.start
    (∀ i j, ((w n).stage i).inSection → ((w n).stage j).inSection → i = j) ∧
      (∀ i, ((w n).stage i).CallsLock (job i) → (w n).holder ≠ some i) ∧
      (∀ m ≤ n, (w m).history <+: (w n).history) ∧
      (∃ order : List ι, order.Nodup ∧ (∀ i, i ∈ order ↔ ((w n).stage i).hasAppended) ∧
        (w n).history = order.map fun i => (job i).entry) ∧
      ∀ i page, ((w n).stage i).page? = some page → page.total = page.rows.length ∧
        ∃ m < n, page.rows = (w m).history ∧ (w m).holder = some i ∧
          page.html hi = statusPage hi (w m).history := by
  intro w
  obtain ⟨hexclusive, -, hrecorded⟩ := invariant_run job schedule n
  refine ⟨fun i j hi hj => hexclusive.unique hi hj, ?_, fun m hm => history_grows_run job schedule hm,
    hrecorded, ?_⟩
  · intro i hcalls hholder
    have hin := (hexclusive i).mpr hholder
    have hout : ((w n).stage i).inSection = false := by
      cases hstage : (w n).stage i with
      | called => rfl
      | handled page => rfl
      | _ =>
        rw [hstage] at hcalls
        exact absurd hcalls id
    exact absurd hin (by rw [hout]; exact Bool.false_ne_true)
  · intro i page hpage
    obtain ⟨m, hm, hdone⟩ := page_moment job schedule hpage
    obtain ⟨hexclusive', hknows, -⟩ := invariant_run job schedule m
    have hpage' := hknows i
    rw [hdone] at hpage'
    obtain ⟨htotal, hrows⟩ := hpage'
    have hcount : page.total = page.rows.length := by rw [htotal, hrows]
    have hholder : (w m).holder = some i := by
      rw [← hexclusive' i, hdone]
      rfl
    refine ⟨hcount, m, hm, hrows, hholder, ?_⟩
    rw [Page.html_eq hcount, hrows]

/-- Two sessions that take turns; one of them goes through `StatusHandler`. -/
example :
    (run (step fun status => if status then .status (bytes "/s") else .other (bytes "/a") 404)
      (fun n => decide (n % 3 = 1)) World.start 30).history = [(bytes "/a", 404), (bytes "/s", 200)] := by
  decide

end Step

end Webserver.Server
