import Webserver.Http.ResponseText
import Webserver.Server.History
import Webserver.Support.HtmlReader

/-!
# The status page

`StatusHandler` writes the URIs, the prefixes and the type names between the tags of its page as they are.

* `showsHistory_iff` — the page shows the two tables of the server if and only if every text in them is read as
  it stands.
-/

namespace Webserver.Server

open ByteString ConfigTree HtmlReader Http Numeral

/-! ### What the page should show -/

def rowTags : List Bytes :=
  [bytes "<tr>", bytes "<td>", bytes "</td>", bytes "<td style=\"width:100px\">", bytes "</td>", bytes "</tr>"]

/-- The tags of a table with its headings, from the line in front of it to its last row. -/
def tableTags (rows : ℕ) : List Bytes :=
  [bytes "<br>", bytes "<br>", bytes "<table style=\"width:640px\">", bytes "<tr>", bytes "<th align=\"left\">",
    bytes "</th>", bytes "<th align=\"left\" style=\"width:100px\">", bytes "</th>", bytes "</tr>"] ++
    (List.replicate rows rowTags).flatten

/-- The tags of a page with so many handlers and so many requests. -/
def pageTags (handlers requests : ℕ) : List Bytes :=
  [bytes "<html>", bytes "<head>", bytes "<title>", bytes "</title>", bytes "</head>", bytes "<body>"] ++
    tableTags handlers ++ [bytes "</table>", bytes "<br>", bytes "<br>", bytes "<br>"] ++ tableTags requests ++
    [bytes "</table>", bytes "</body>", bytes "</html>"]

/-- A row of headings, and a row for each entry. -/
def tableText (first second : String) (rows : List (Bytes × Bytes)) : List (List Text) :=
  [toText (bytes first), toText (bytes second)] :: rows.map fun row => [toText row.1, toText row.2]

/-- **The page shows the history and nothing else.**  The reader finds the tags of the page and no others, and in
the two tables one row for each handler and one for each request, in order, with the recorded texts and codes. -/
def ShowsHistory (refs : References) (hi : HandlerInfo) (rh : List (Bytes × ResponseCode)) (html : Bytes) : Prop :=
  (read refs html).1.map Prod.snd = pageTags hi.entries.length rh.length ∧
    contents (read refs html).1 =
      ⟨[], [], [tableText "URL Prefix" "Handler Type" hi.entries,
        tableText "Request URI" "Response Code" (rh.map fun r => (r.1, decimalInt r.2))]⟩

/-! ### The page as texts and tags -/

def entry (raw tag : Bytes) (h : isTag tag = true) : Entry := ⟨raw, toText raw, tag, h⟩

def rowEntries (row : Bytes × Bytes) : List Entry :=
  [entry [] (bytes "<tr>") (by decide), entry [] (bytes "<td>") (by decide), entry row.1 (bytes "</td>") (by decide),
    entry [] (bytes "<td style=\"width:100px\">") (by decide), entry row.2 (bytes "</td>") (by decide),
    entry [] (bytes "</tr>") (by decide)]

/-- The text in front of a table has line ends at both sides of the number of rows. -/
def tableEntries (intro first second : String) (rows : List (Bytes × Bytes)) : List Entry :=
  ⟨bytes "\r\n" ++ (bytes intro ++ decimal rows.length ++ bytes "\r\n"),
      toText (bytes "\n") ++ toText (bytes intro ++ decimal rows.length ++ bytes "\n"), bytes "<br>", by decide⟩ ::
    [entry [] (bytes "<br>") (by decide), entry [] (bytes "<table style=\"width:640px\">") (by decide),
      entry [] (bytes "<tr>") (by decide), entry [] (bytes "<th align=\"left\">") (by decide),
      entry (bytes first) (bytes "</th>") (by decide),
      entry [] (bytes "<th align=\"left\" style=\"width:100px\">") (by decide),
      entry (bytes second) (bytes "</th>") (by decide), entry [] (bytes "</tr>") (by decide)] ++
    rows.flatMap rowEntries

def statusEntries (hi : HandlerInfo) (rh : List (Bytes × ResponseCode)) : List Entry :=
  [entry [] (bytes "<html>") (by decide), entry [] (bytes "<head>") (by decide),
      entry [] (bytes "<title>") (by decide), entry (bytes "Webserver Status") (bytes "</title>") (by decide),
      entry [] (bytes "</head>") (by decide), entry [] (bytes "<body>") (by decide)] ++
    tableEntries "Total number of request handlers: " "URL Prefix" "Handler Type" hi.entries ++
    [entry [] (bytes "</table>") (by decide), entry [] (bytes "<br>") (by decide),
      entry [] (bytes "<br>") (by decide), entry [] (bytes "<br>") (by decide)] ++
    tableEntries "Total number of requests received so far: " "Request URI" "Response Code"
      (rh.map fun r => (r.1, decimalInt r.2)) ++
    [entry [] (bytes "</table>") (by decide), entry [] (bytes "</body>") (by decide),
      entry [] (bytes "</html>") (by decide)]

theorem page_append (l l' : List Entry) : page (l ++ l') = page l ++ page l' := List.flatMap_append

theorem page_rowEntries (rows : List (Bytes × Bytes)) :
    page (rows.flatMap rowEntries) = rows.flatMap statusRow := by
  induction rows with
  | nil => rfl
  | cons row rows ih =>
    rw [List.flatMap_cons, page_append, ih, List.flatMap_cons]
    congr 1
    simp [page, rowEntries, entry, Entry.bytes, statusRow, bytes]

theorem page_tableEntries (intro first second : String) (rows : List (Bytes × Bytes)) :
    page (tableEntries intro first second rows) =
      bytes "\r\n" ++ bytes intro ++ statusTable first second rows := by
  rw [tableEntries, page_append, page_rowEntries, statusTable]
  simp [page, entry, Entry.bytes, bytes]

theorem page_statusEntries (hi : HandlerInfo) (rh : List (Bytes × ResponseCode)) :
    page (statusEntries hi rh) = statusPage hi rh := by
  rw [statusEntries, page_append, page_append, page_append, page_append, page_tableEntries, page_tableEntries,
    statusPage]
  simp [page, entry, Entry.bytes, bytes]

theorem tags_statusEntries (hi : HandlerInfo) (rh : List (Bytes × ResponseCode)) :
    (statusEntries hi rh).map Entry.tag = pageTags hi.entries.length rh.length := by
  have hrows : ∀ rows : List (Bytes × Bytes),
      (rows.flatMap rowEntries).map Entry.tag = (List.replicate rows.length rowTags).flatten := by
    intro rows
    induction rows with
    | nil => rfl
    | cons row rows ih =>
      rw [List.flatMap_cons, List.map_append, ih, List.length_cons, List.replicate_succ, List.flatten_cons]
      rfl
  have htable : ∀ intro first second rows,
      (tableEntries intro first second rows).map Entry.tag = tableTags rows.length := by
    intro intro first second rows
    rw [tableEntries, List.map_append, hrows, tableTags]
    rfl
  rw [statusEntries, List.map_append, List.map_append, List.map_append, List.map_append, htable, htable,
    List.length_map]
  rfl

/-! ### What is read in the tables -/

/-- The tags of an entry list in front of some contents. -/
def addEntries (l : List Entry) (c : Contents) : Contents := (l.map Entry.piece).foldr (fun p c => c.add p) c

theorem addEntries_append (l l' : List Entry) (c : Contents) :
    addEntries (l ++ l') c = addEntries l (addEntries l' c) := by
  rw [addEntries, List.map_append, List.foldr_append, ← addEntries, ← addEntries]

theorem addEntries_rows (rows : List (Bytes × Bytes)) (rest : List (List Text))
    (tables : List (List (List Text))) :
    addEntries (rows.flatMap rowEntries) ⟨[], rest, tables⟩ =
      ⟨[], (rows.map fun row => [toText row.1, toText row.2]) ++ rest, tables⟩ := by
  induction rows with
  | nil => rfl
  | cons row rows ih =>
    rw [List.flatMap_cons, addEntries_append, ih]
    rfl

theorem addEntries_table (intro first second : String) (rows : List (Bytes × Bytes))
    (tables : List (List (List Text))) :
    addEntries (tableEntries intro first second rows) ⟨[], [], tables⟩ =
      ⟨[], [], tableText first second rows :: tables⟩ := by
  rw [tableEntries, addEntries_append, addEntries_rows, List.append_nil]
  rfl

theorem contents_statusEntries (hi : HandlerInfo) (rh : List (Bytes × ResponseCode)) :
    contents ((statusEntries hi rh).map Entry.piece) =
      ⟨[], [], [tableText "URL Prefix" "Handler Type" hi.entries,
        tableText "Request URI" "Response Code" (rh.map fun r => (r.1, decimalInt r.2))]⟩ := by
  rw [contents, ← addEntries, statusEntries, addEntries_append, addEntries_append, addEntries_append,
    addEntries_append]
  show addEntries _ (addEntries _ (addEntries _ (addEntries (tableEntries _ _ _ _) ⟨[], [], []⟩))) = _
  rw [addEntries_table]
  show addEntries _ (addEntries (tableEntries _ _ _ _) ⟨[], [], [tableText _ _ _]⟩) = _
  rw [addEntries_table]
  rfl

/-! ### What is read as it stands -/

/-- **The condition.**  No URI, prefix or type name has a carriage return, a NUL, a character reference, or a `<`
that starts markup. -/
def RecordsPlain (refs : References) (hi : HandlerInfo) (rh : List (Bytes × ResponseCode)) : Prop :=
  (∀ row ∈ hi.entries, Plain refs row.1 ∧ Plain refs row.2) ∧ ∀ r ∈ rh, Plain refs r.1

section

variable {refs : References}

theorem simple_decimal (n : ℕ) : ∀ c ∈ decimal n, isSimple c = true := by
  intro c hc
  have hdigit := (decimal_spec n).1 c hc
  rw [isSimple, decide_eq_true_iff]
  refine ⟨?_, ?_, ?_, ?_⟩ <;>
  · rintro rfl
    exact absurd hdigit (by decide)

theorem simple_decimalInt (n : ℤ) : ∀ c ∈ decimalInt n, isSimple c = true := by
  intro c hc
  rw [decimalInt] at hc
  split at hc
  · rcases List.mem_cons.mp hc with rfl | hc
    · decide
    · exact simple_decimal _ c hc
  · exact simple_decimal _ c hc

theorem reads_entry_iff {raw tag : Bytes} (h : isTag tag = true) :
    Reads refs (entry raw tag h).raw (entry raw tag h).shown ↔ Plain refs raw := reads_toText_iff

theorem reads_rows_iff (rows : List (Bytes × Bytes)) :
    (∀ e ∈ rows.flatMap rowEntries, Reads refs e.raw e.shown) ↔
      ∀ row ∈ rows, Plain refs row.1 ∧ Plain refs row.2 := by
  simp only [List.forall_mem_flatMap]
  refine forall₂_congr fun row _ => ?_
  simp only [rowEntries, List.forall_mem_cons, reads_entry_iff, Plain, List.not_mem_nil, false_imp_iff,
    implies_true, true_and, and_true]

/-- The line in front of a table. -/
theorem reads_intro {intro : String} (hintro : ∀ c ∈ bytes intro, isSimple c = true) (n : ℕ) :
    Reads refs (bytes "\r\n" ++ (bytes intro ++ decimal n ++ bytes "\r\n"))
      (toText (bytes "\n") ++ toText (bytes intro ++ decimal n ++ bytes "\n")) := by
  have hsimple : ∀ c ∈ bytes intro ++ decimal n, isSimple c = true := by
    intro c hc
    rcases List.mem_append.mp hc with hc | hc
    · exact hintro c hc
    · exact simple_decimal n c hc
  have hend : Reads refs (bytes "\r\n") (toText (bytes "\n")) := reads_crlf reads_nil
  have hline := reads_append_of_simple hsimple hend
  rw [toText, toText, ← List.map_append] at hline
  exact reads_crlf hline

theorem reads_table_iff {intro first second : String} (hintro : ∀ c ∈ bytes intro, isSimple c = true)
    (hfirst : ∀ c ∈ bytes first, isSimple c = true) (hsecond : ∀ c ∈ bytes second, isSimple c = true)
    (rows : List (Bytes × Bytes)) :
    (∀ e ∈ tableEntries intro first second rows, Reads refs e.raw e.shown) ↔
      ∀ row ∈ rows, Plain refs row.1 ∧ Plain refs row.2 := by
  have hplain : ∀ {s : Bytes}, (∀ c ∈ s, isSimple c = true) → Plain refs s := fun hs =>
    reads_toText_iff.mp (reads_of_simple hs)
  rw [tableEntries, List.forall_mem_append, reads_rows_iff]
  simp only [List.forall_mem_cons, reads_entry_iff, Plain, List.not_mem_nil, false_imp_iff,
    implies_true, true_and, and_true, reads_intro hintro, hplain hfirst, hplain hsecond]

theorem reads_statusEntries_iff (hi : HandlerInfo) (rh : List (Bytes × ResponseCode)) :
    (∀ e ∈ statusEntries hi rh, Reads refs e.raw e.shown) ↔ RecordsPlain refs hi rh := by
  have hcodes : (∀ row ∈ rh.map fun r => (r.1, decimalInt r.2), Plain refs row.1 ∧ Plain refs row.2) ↔
      ∀ r ∈ rh, Plain refs r.1 := by
    rw [List.forall_mem_map]
    refine forall₂_congr fun r _ => and_iff_left ?_
    exact reads_toText_iff.mp (reads_of_simple (simple_decimalInt r.2))
  have htitle : Plain refs (bytes "Webserver Status") := reads_toText_iff.mp (reads_of_simple (by decide))
  rw [statusEntries, List.forall_mem_append, List.forall_mem_append, List.forall_mem_append,
    List.forall_mem_append, reads_table_iff (by decide) (by decide) (by decide),
    reads_table_iff (by decide) (by decide) (by decide), hcodes, RecordsPlain]
  simp only [List.forall_mem_cons, reads_entry_iff, Plain, List.not_mem_nil, false_imp_iff, implies_true,
    true_and, and_true, htitle]

theorem allowed_of_simple {raw tag : Bytes} (hraw : ∀ c ∈ raw, isSimple c = true) (h : isTag tag = true) :
    (entry raw tag h).Allowed refs := .inl (reads_of_simple hraw)

theorem allowed_cell (raw : Bytes) (h : isTag (bytes "</td>") = true) :
    (entry raw (bytes "</td>") h).Allowed refs :=
  .inr ⟨show tableTag (bytes "</td>") = some .cellEnd by decide, rfl⟩

theorem allowed_nil {tag : Bytes} (h : isTag tag = true) : (entry [] tag h).Allowed refs :=
  allowed_of_simple (by decide) h

theorem allowed_rows (rows : List (Bytes × Bytes)) : ∀ e ∈ rows.flatMap rowEntries, e.Allowed refs := by
  rw [List.forall_mem_flatMap]
  intro row _
  simp only [rowEntries, List.forall_mem_cons, allowed_nil, allowed_cell, List.not_mem_nil, false_imp_iff,
    implies_true, and_true]

theorem allowed_table {intro first second : String} (hintro : ∀ c ∈ bytes intro, isSimple c = true)
    (hfirst : ∀ c ∈ bytes first, isSimple c = true) (hsecond : ∀ c ∈ bytes second, isSimple c = true)
    (rows : List (Bytes × Bytes)) : ∀ e ∈ tableEntries intro first second rows, e.Allowed refs := by
  rw [tableEntries, List.forall_mem_append]
  refine ⟨?_, allowed_rows rows⟩
  rw [List.forall_mem_cons]
  refine ⟨.inl (reads_intro hintro rows.length), ?_⟩
  simp only [List.forall_mem_cons, allowed_nil, allowed_of_simple hfirst, allowed_of_simple hsecond, List.not_mem_nil,
    false_imp_iff, implies_true, and_true]

theorem allowed_statusEntries (hi : HandlerInfo) (rh : List (Bytes × ResponseCode)) :
    ∀ e ∈ statusEntries hi rh, e.Allowed refs := by
  have htitle : (entry (bytes "Webserver Status") (bytes "</title>") (by decide)).Allowed refs :=
    allowed_of_simple (by decide) (by decide)
  rw [statusEntries]
  simp only [List.forall_mem_append]
  refine ⟨⟨⟨⟨?_, allowed_table (by decide) (by decide) (by decide) _⟩, ?_⟩,
    allowed_table (by decide) (by decide) (by decide) _⟩, ?_⟩ <;>
  simp only [List.forall_mem_cons, allowed_nil, htitle, List.not_mem_nil, false_imp_iff, implies_true, and_true]

end

/-! ### When the page shows the history -/

theorem showsHistory_statusPage_iff (refs : References) (hi : HandlerInfo) (rh : List (Bytes × ResponseCode)) :
    ShowsHistory refs hi rh (statusPage hi rh) ↔ RecordsPlain refs hi rh := by
  rw [ShowsHistory, ← page_statusEntries, ← tags_statusEntries, ← contents_statusEntries,
    read_page_iff (allowed_statusEntries _ _), reads_statusEntries_iff]

/-- **The status page shows the history and nothing else** if and only if no URI, prefix or type name in it has a
carriage return, a NUL, a character reference, or a `<` that starts markup: the handler writes them between its
tags as they are. -/
theorem showsHistory_iff (refs : References) (w : Surroundings) (request : Request) (response : Response) :
    ShowsHistory refs w.handlersByUrl w.requestHistory
        (StatusHandler.handleRequest w request response).2.content ↔
      RecordsPlain refs w.handlersByUrl w.requestHistory :=
  showsHistory_statusPage_iff refs w.handlersByUrl w.requestHistory

/-! ### A row that was never recorded -/

/-- The table of type names of a server with the status handler for every request. -/
def statusHandlerInfo : HandlerInfo :=
  (parseFreshHandlers ⟨[⟨[bytes "default", bytes "StatusHandler"], some .empty⟩]⟩).handlerInfo

/-- A URI that ends its row and starts another one. -/
def forgedUri : Bytes := bytes "/a</td><td>200</td></tr><tr><td>/b"

def forgedRead : Read := ⟨bytes "GET /a</td><td>200</td></tr><tr><td>/b HTTP/1.0\r\n\r\n", by decide, by decide⟩

/-- The server with a history. -/
def statusServer (rh : List (Bytes × ResponseCode)) : Surroundings :=
  { surroundings [] with handlersByUrl := statusHandlerInfo, requestHistory := rh }

/-- The first request of a server leaves a history that the page does not show. -/
theorem not_showsHistory :
    (∀ beyondCrlf, ∃ sent, session (fun _ request => StatusHandler.handleRequest (statusServer []) request .new)
        (defaultHandlers "StatusHandler" []) beyondCrlf ⟨[], []⟩ [forgedRead] =
          some ⟨[sent], [(forgedUri, .ok)]⟩) ∧
      ∀ refs request response, ¬ ShowsHistory refs statusHandlerInfo [(forgedUri, .ok)]
        (StatusHandler.handleRequest (statusServer [(forgedUri, .ok)]) request response).2.content := by
  constructor
  · intro beyondCrlf
    have hdecided : decided .fresh [forgedRead] = some (some (getRequest forgedUri [])) := rfl
    have hdispatched : Dispatched (defaultHandlers "StatusHandler" []) (getRequest forgedUri []) []
        .statusHandler := ⟨by decide, rfl⟩
    have hstatus : (Response.htmlResponse (statusPage statusHandlerInfo [])).status = some .ok := rfl
    obtain ⟨sent, hsent⟩ := Response.toString_isSome hstatus beyondCrlf
    refine ⟨sent, ?_⟩
    rw [session_of_reachesWrite _ _ beyondCrlf (.handled hdecided hdispatched rfl)]
    show doWrite beyondCrlf forgedUri (.htmlResponse (statusPage statusHandlerInfo [])) ⟨[], []⟩ = _
    rw [doWrite, hsent, hstatus]
    rfl
  · intro refs request response h
    have hplain := (showsHistory_statusPage_iff refs statusHandlerInfo [(forgedUri, .ok)]).mp h
    have hopens : opens (bytes "/td><td>200</td></tr><tr><td>/b") = false :=
      opens_of_plain (s := bytes "/a") (hplain.2 (forgedUri, .ok) List.mem_cons_self)
    exact absurd hopens (by decide)

end Webserver.Server
