import DocTemplate.Proofs.Directive.Allotment
import DocTemplate.Proofs.Directive.Target
import DocTemplate.Proofs.Document.Locality
import DocTemplate.Proofs.Document.Similarity

/-!
# What a filled table shows

An instruction to fill a table is accepted, and committed then (`Handler.carryOut`). The row
before the template, if there is one, shows the headers; each record has a row of its own in
place of the template; and the rows after it stay. Outside of the table nothing changes. If the
settings are strict, then data that do not fit are refused, and the draft stays as it is.

* `Cell.Shows`: a text, in the style of another cell;
* `Row.IsHeaded`, `Row.IsRecorded`: a row with the headers, and a row for a record;
* `Table.IsFilled`: the rows of a filled table;
* `TableFill.fills_or_refuses`: what comes of an instruction.
-/

namespace DocTemplate

/-! ## Rows -/

namespace Cell

/-- The first paragraph of the cell; a new one if there is none. -/
def leading (c : Cell Block) : Paragraph :=
  (c.content.findSome? Block.paragraph?).getD {}

/-- The style of the first run of the first paragraph. -/
def leadingStyle (c : Cell Block) : RunStyle :=
  (c.leading.runs.head?.map Run.style).getD {}

/-- The cell has a text, as one run in one paragraph, and the style of a template. -/
structure Shows (text : String) (template c : Cell Block) : Prop where
  content : ∃ p : Paragraph, c.content = [.paragraph p] ∧
    p.content = [.run { content := [.text text], style := template.leadingStyle }] ∧
    p.style = template.leading.style
  gridSpan : c.gridSpan = template.gridSpan

theorem shows_filled (text : String) (c : Cell Block) : Shows text c (c.filled text) where
  content := ⟨_, rfl, rfl, rfl⟩
  gridSpan := rfl

/-- Other numbers do not matter for what a cell shows. -/
theorem Shows.of_related {text : String} {template c c' : Cell Block} (h : Shows text template c)
    (hc : c.Related Block.Similar c') : Shows text template c' where
  content := by
    -- What is like a single paragraph is a single paragraph.
    obtain ⟨p, hp, hrun, hstyle⟩ := h.content
    have hcontent := hc.content
    rw [hp] at hcontent
    obtain ⟨b, bs, hb, hbs, hcontent⟩ := List.forall₂_cons_left_iff.1 hcontent
    obtain rfl := List.forall₂_nil_left_iff.1 hbs
    obtain ⟨q, rfl, hq⟩ := Block.related_paragraph.1 hb
    exact ⟨q, hcontent, (congrArg Paragraph.content hq).trans hrun,
      (congrArg Paragraph.style hq).trans hstyle⟩
  gridSpan := hc.gridSpan.trans h.gridSpan

end Cell

namespace Row

/-- The first cells of a row show the headers. All else stays. -/
structure IsHeaded (headers : List String) (row row' : Row Block) : Prop where
  id : row'.id = row.id
  length : row'.cells.length = row.cells.length
  headed {j : Nat} {header : String} {cell cell' : Cell Block} (h : headers[j]? = some header)
    (hcell : row.cells[j]? = some cell) (hcell' : row'.cells[j]? = some cell') :
    Cell.Shows header cell cell'
  kept {j : Nat} (h : headers.length ≤ j) : row'.cells[j]? = row.cells[j]?

/-- The cells of a row like the template show a record, as far as it goes and there are headers.
    The others are empty. -/
structure IsRecorded (template : Row Block) (headers record : List String) (row : Row Block) :
    Prop where
  length : row.cells.length = template.cells.length
  recorded {j : Nat} {cell cell' : Cell Block} (hcell : template.cells[j]? = some cell)
    (hcell' : row.cells[j]? = some cell') :
    Cell.Shows (if j < headers.length then record[j]?.getD "" else "") cell cell'

theorem isHeaded_headed (headers : List String) (row : Row Block) :
    row.IsHeaded headers (row.headed headers) where
  id := rfl
  length := by
    simp only [headed, List.length_append, List.length_map, List.length_zip, List.length_drop]
    omega
  headed {j header cell cell'} h hcell hcell' := by
    rw [getElem?_cells_headed, hcell, h] at hcell'
    obtain rfl := Option.some.inj hcell'
    exact Cell.shows_filled header cell
  kept {j} h := by
    rw [getElem?_cells_headed, List.getElem?_eq_none h]
    simp

theorem isRecorded_of_related {template row : Row Block} {headers record : List String}
    (h : (template.recorded headers.length record).Related (fun _ _ => True) Block.Similar row) :
    template.IsRecorded headers record row where
  length := by
    rw [← h.cells.length_eq]
    simp [recorded]
  recorded {j cell cell'} hcell hcell' := by
    have hrel := h.cells.getElem? j
    have hfilled : (template.recorded headers.length record).cells[j]? =
        some (cell.filled (((record.take headers.length)[j]?).getD "")) := by
      simp [recorded, hcell]
    -- A record is cut at the last header, so a text behind it is as good as none.
    have htext : ((record.take headers.length)[j]?).getD "" =
        if j < headers.length then record[j]?.getD "" else "" := by
      rw [List.getElem?_take]
      split <;> rfl
    rw [hfilled, hcell', Option.rel_some_some, htext] at hrel
    exact (Cell.shows_filled _ cell).of_related hrel

end Row

/-! ## Tables -/

namespace Table

/-- The place of the row that is copied for each record: the second one, or the only one. -/
def templateIndex (t : Table Block) : Nat :=
  if 1 < t.rows.length then 1 else 0

/-- The table shows some data, with a row like the template for each record. -/
structure IsFilled (t : Table Block) (template : Row Block) (data : Grid) (t' : Table Block) :
    Prop where
  id : t'.id = t.id
  styleId : t'.styleId = t.styleId
  rows : ∃ headed records, t'.rows = headed ++ records ++ t.rows.drop (t.templateIndex + 1) ∧
    List.Forall₂ (Row.IsHeaded data.headers) (t.rows.take t.templateIndex) headed ∧
    List.Forall₂ (template.IsRecorded data.headers) data.records records

/-- The parts that the rows play. -/
theorem rows_of_layout {t : Table Block} {layout : TableLayout}
    (h : TableLayout.ofRows? t.rows = some layout) :
    t.rows[t.templateIndex]? = some layout.template ∧
      t.rows.take t.templateIndex = layout.header.toList ∧
      t.rows.drop (t.templateIndex + 1) = layout.rest := by
  obtain ⟨id, rows, styleId⟩ := t
  rcases rows with _ | ⟨header, _ | ⟨template, rest⟩⟩
  · cases h
  · obtain rfl := Option.some.inj h
    exact ⟨rfl, rfl, rfl⟩
  · obtain rfl := Option.some.inj h
    simp [templateIndex]

end Table

theorem TableLayout.exists_of_ne_nil {rows : List (Row Block)} (h : rows ≠ []) :
    ∃ layout, ofRows? rows = some layout := by
  rcases rows with _ | ⟨header, _ | ⟨template, rest⟩⟩
  · exact absurd rfl h
  · exact ⟨_, rfl⟩
  · exact ⟨_, rfl⟩

/-! ## The filling -/

/-- One instruction: it is accepted, and then the handler commits what it asks for. -/
def Handler.carryOut (h : Handler) (f : Filler) (i : Instruction) : Revision Unit := do
  let desk ← liftM (({ handler := h } : Desk).accept f.settings i)
  desk.commit f

theorem Handler.run_carryOut (h : Handler) (f : Filler) (i : Instruction) (d : Draft) :
    (h.carryOut f i).run d =
      match h.accept f.settings i with
      | .ok edit => (h.commit f edit.toList).run d
      | .error e => (.error e, d) := by
  have hlift : ∀ x : Except Error Desk, (liftM x : Revision Desk).run d = (x, d) := fun _ => rfl
  rw [carryOut, Revision.run_bind, hlift, Desk.accept]
  cases h.accept f.settings i <;> rfl

namespace TableFill

variable {f : Filler} {i : Instruction} {d : Draft} {table : NodeId} {t : Table Block}
  {data : Grid} {layout : TableLayout}

/-- The data do not fit a template: a record is longer or shorter than the headers, or there are
    more headers than cells. -/
def Misfits (data : Grid) (template : Row Block) : Prop :=
  (∃ record ∈ data.records, record.length ≠ data.headers.length) ∨
    template.cells.length < data.headers.length

/-- One table of the draft is filled, which is counted. All else stays, but for the last number
    given. -/
def Fills (d : Draft) (t : Table Block) (template : Row Block) (data : Grid) (d' : Draft) : Prop :=
  ∃ t' last, t.IsFilled template data t' ∧ d.document.lastId ≤ last ∧
    ({ d.document with lastId := last } : Document).Swaps [.table t] [.table t'] d'.document ∧
    d'.report = { d.report with tablesFilled := d.report.tablesFilled + 1 }

/-- Rows get numbers one after the other, and no change but that. -/
theorem exists_numberRows (rows : List (Row Block)) (d : Draft) : ∃ rows' last,
    d.document.lastId ≤ last ∧
      List.Forall₂ (Row.Related (fun _ _ => True) Block.Similar) rows rows' ∧
      Revision.Yields (rows.mapM fun row => Revision.edit fun doc => doc.numberRow row) d rows'
        { d with document := { d.document with lastId := last } } := by
  induction rows generalizing d with
  | nil => exact ⟨[], d.document.lastId, Nat.le_refl _, .nil, rfl⟩
  | cons row rows ih =>
    obtain ⟨⟨last, hle, hdoc⟩, -⟩ := d.document.numberRow_spec row
    obtain ⟨rows', last', hle', hrows, hyields⟩ :=
      ih { d with document := (d.document.numberRow row).2 }
    rw [hdoc] at hle' hyields
    refine ⟨(d.document.numberRow row).1 :: rows', last', Nat.le_trans hle hle',
      .cons (Row.related_numbered (fun b _ => b.similar_numbered) _) hrows, ?_⟩
    refine Revision.yields_mapM_cons.2 ⟨_, _, _, Revision.yields_edit.2 ⟨rfl, rfl⟩, ?_, rfl⟩
    rw [hdoc]
    exact hyields

/-- The rows of the layout, once those for the records have numbers. -/
theorem isFilled_of_related (hlayout : TableLayout.ofRows? t.rows = some layout)
    {records : List (Row Block)} (hrecords : List.Forall₂
      (Row.Related (fun _ _ => True) Block.Similar) (layout.records data) records) :
    t.IsFilled layout.template data { t with rows := layout.rows data.headers records } where
  id := rfl
  styleId := rfl
  rows := by
    obtain ⟨-, htake, hdrop⟩ := Table.rows_of_layout hlayout
    refine ⟨(layout.header.map (Row.headed data.headers)).toList, records, ?_, ?_, ?_⟩
    · rw [hdrop, TableLayout.rows]
    · rw [htake]
      cases layout.header with
      | none => exact .nil
      | some header => exact .cons (Row.isHeaded_headed _ header) .nil
    · rw [TableLayout.records, List.forall₂_map_left_iff] at hrecords
      exact hrecords.imp fun _ _ => Row.isRecorded_of_related

/-- The settings let a table be filled. -/
theorem exists_fills {settings : Settings} (ht : d.document.table? table = some t)
    (hlayout : TableLayout.ofRows? t.rows = some layout)
    (hfits : ¬ (settings.tableFit = .strict ∧ layout.template.cells.length < data.headers.length)) :
    ∃ d', Fills d t layout.template data d' ∧ (fill settings data table layout).Yields d () d' := by
  obtain ⟨records, last, hle, hrecords, hyields⟩ := exists_numberRows (layout.records data) d
  -- The numbers do not matter for where the table is.
  have hsame : ({ d.document with lastId := last } : Document).table? table = some t := ht
  obtain ⟨doc', hmodify, hswaps⟩ := Document.exists_modifyTable? hsame
    fun t => { t with rows := layout.rows data.headers records }
  refine ⟨⟨doc', { d.report with tablesFilled := d.report.tablesFilled + 1 }⟩,
    ⟨_, last, isFilled_of_related hlayout hrecords, hle, hswaps, rfl⟩, ?_⟩
  rw [fill]
  dsimp only
  rw [if_neg hfits]
  refine Revision.yields_bind.2 ⟨records, _, hyields, ?_⟩
  refine Revision.yields_edit?_count.2 (.inl ⟨(), doc', ?_, rfl⟩)
  rw [hmodify]
  rfl

/-- Strict settings refuse a template that is too narrow. -/
theorem run_fill_of_lt {settings : Settings} (hstrict : settings.tableFit = .strict)
    (hlt : layout.template.cells.length < data.headers.length) :
    (fill settings data table layout).run d =
      (.error (.badShape data.headers.length layout.template.cells.length), d) := by
  rw [fill]
  dsimp only
  rw [if_pos ⟨hstrict, hlt⟩]
  rfl

/-- The filling of a table that is there. -/
theorem run_fillTable (htarget : target? d.document i.site = some table)
    (ht : d.document.table? table = some t)
    (hlayout : TableLayout.ofRows? t.rows = some layout) :
    (perform f (.fillTable i data)).run d = (fill f.settings data table layout).run d := by
  have hdoc : Revision.document.run d = (.ok d.document, d) := rfl
  simp only [perform, Revision.run_bind, run_target_of_some htarget, hdoc, ht, Option.bind_some,
    hlayout]

/-! ## Instructions -/

theorem misfit?_eq_none_iff :
    misfit? data = none ↔ ∀ record ∈ data.records, record.length = data.headers.length := by
  simp [misfit?]

theorem ne_of_misfit? {record : List String} (h : misfit? data = some record) :
    record.length ≠ data.headers.length := by
  simpa using List.find?_some h

/-- Strict settings refuse a record that does not fit the headers. -/
theorem run_carryOut_of_misfit? (harg : i.arg = .table data)
    (hstrict : f.settings.tableFit = .strict) {record : List String}
    (h : misfit? data = some record) : (Handler.table.carryOut f i).run d =
      (.error (.badShape data.headers.length record.length), d) := by
  have haccept : Handler.table.accept f.settings i =
      .error (.badShape data.headers.length record.length) := by
    simp only [Handler.table, accept, harg, if_pos hstrict, h]
  rw [Handler.run_carryOut, haccept]

/-- Otherwise the instruction is committed. -/
theorem run_carryOut_of_fits (harg : i.arg = .table data)
    (h : f.settings.tableFit = .strict → misfit? data = none) :
    (Handler.table.carryOut f i).run d = (perform f (.fillTable i data)).run d := by
  have haccept : Handler.table.accept f.settings i = .ok (some (.fillTable i data)) := by
    by_cases hstrict : f.settings.tableFit = .strict
    · simp only [Handler.table, accept, harg, if_pos hstrict, h hstrict]
    · simp only [Handler.table, accept, harg, if_neg hstrict]
  rw [Handler.run_carryOut, haccept]
  change (perform f (.fillTable i data) >>= fun _ => pure ()).run d = _
  rw [bind_pure_unit]

/-- An instruction to fill a table that is there fills this table. If the settings are strict and
    the data do not fit, then it fails, and nothing changes. -/
theorem fills_or_refuses (harg : i.arg = .table data)
    (htarget : target? d.document i.site = some table) (ht : d.document.table? table = some t)
    (hrows : t.rows ≠ []) : ∃ template, t.rows[t.templateIndex]? = some template ∧
      (¬ (f.settings.tableFit = .strict ∧ Misfits data template) → ∃ d',
        Fills d t template data d' ∧ (Handler.table.carryOut f i).Yields d () d') ∧
      (f.settings.tableFit = .strict ∧ Misfits data template → ∃ actual,
        actual ≠ data.headers.length ∧ (Handler.table.carryOut f i).run d =
          (.error (.badShape data.headers.length actual), d)) := by
  obtain ⟨layout, hlayout⟩ := TableLayout.exists_of_ne_nil hrows
  refine ⟨layout.template, (Table.rows_of_layout hlayout).1, fun hfits => ?_, ?_⟩
  · have hrecords : f.settings.tableFit = .strict → misfit? data = none := by
      refine fun hstrict => misfit?_eq_none_iff.2 fun record hmem => ?_
      by_contra hne
      exact hfits ⟨hstrict, .inl ⟨record, hmem, hne⟩⟩
    obtain ⟨d', hfills, hyields⟩ := exists_fills ht hlayout fun h => hfits ⟨h.1, .inr h.2⟩
    refine ⟨d', hfills, ?_⟩
    rw [Revision.Yields, run_carryOut_of_fits harg hrecords, run_fillTable htarget ht hlayout]
    exact hyields
  · rintro ⟨hstrict, hmisfits⟩
    cases hrecord : misfit? data with
    | some record =>
      exact ⟨_, ne_of_misfit? hrecord, run_carryOut_of_misfit? harg hstrict hrecord⟩
    | none =>
      -- All records fit, so the template does not.
      have hlt : layout.template.cells.length < data.headers.length := by
        refine hmisfits.resolve_left ?_
        rintro ⟨record, hmem, hne⟩
        exact hne (misfit?_eq_none_iff.1 hrecord record hmem)
      refine ⟨_, Nat.ne_of_lt hlt, ?_⟩
      rw [run_carryOut_of_fits harg fun _ => hrecord, run_fillTable htarget ht hlayout,
        run_fill_of_lt hstrict hlt]

/-- A table with a row for the headers, a template with an empty cell, and a last row. -/
def roster : Table Block where
  id := 2
  rows := [
    ⟨3, [.ofParagraph { id := 4, content := [.run (.ofText "Header" { bold := true })] },
      .ofParagraph { id := 5 }]⟩,
    ⟨6, [.ofParagraph { id := 7, content := [.run (.ofText "cell" { italic := true })] },
      { content := [] }]⟩,
    ⟨8, [.ofParagraph { id := 9 }]⟩]

/-- Two records, one of which has no text for the second header. -/
def members : Grid where
  headers := ["Name", "Age"]
  records := [["Ada", "36"], ["Alan"]]

/-- The instruction to fill the table, from a comment in its first cell. -/
def rosterInstruction : Instruction where
  name := .resolveTable
  args := [.table members]
  site := {
    region := {
      id := 1, text := "resolveTable(members)", parent := none, start := 4, stop := 4,
      blocks := [4], precedingBreak := none, breakCount := 0, enclosesText := true }
    paragraph := 4
    paragraphText := "Header"
    cell := some ⟨2, 3, 0⟩ }

/-- The table after a paragraph. -/
def rosterDraft : Draft where
  document := { body := [.paragraph { id := 1 }, .table roster], lastId := 9 }

/-- The table is filled, unless the settings are strict about the second record. -/
theorem fills_or_refuses_roster :
    target? rosterDraft.document rosterInstruction.site = some 2 ∧
      rosterDraft.document.table? 2 = some roster ∧
      (∃ template d', roster.rows[1]? = some template ∧
        Fills rosterDraft roster template members d' ∧
        (Handler.table.carryOut .standard rosterInstruction).Yields rosterDraft () d') ∧
      ∃ actual, (Handler.table.carryOut { delimiters := .standard, settings :=
        { tableFit := .strict } } rosterInstruction).run rosterDraft =
          (.error (.badShape 2 actual), rosterDraft) := by
  have htarget : target? rosterDraft.document rosterInstruction.site = some 2 := by decide +kernel
  have ht : rosterDraft.document.table? 2 = some roster := rfl
  have harg : rosterInstruction.arg = .table members := rfl
  have hrows : roster.rows ≠ [] := by simp [roster]
  refine ⟨htarget, ht, ?_, ?_⟩
  · obtain ⟨template, htemplate, hfills, -⟩ :=
      fills_or_refuses (f := .standard) harg htarget ht hrows
    obtain ⟨d', h, hyields⟩ := hfills fun h => absurd h.1 (by decide)
    exact ⟨template, d', htemplate, h, hyields⟩
  · obtain ⟨template, -, -, hrefuses⟩ :=
      fills_or_refuses (f := { delimiters := .standard, settings := { tableFit := .strict } })
        harg htarget ht hrows
    obtain ⟨actual, -, hrun⟩ := hrefuses ⟨rfl, .inl ⟨["Alan"], by decide, by decide⟩⟩
    exact ⟨actual, hrun⟩

end TableFill

end DocTemplate
