import DocTemplate.Document.Snapshot
import DocTemplate.Proofs.Document.Unnumbered
import DocTemplate.Proofs.Json.Record

/-!
# Parts of snapshots

For each part of a document, from a style to a block: it is read back from what is written of it,
but for the numbers of its nodes (`ofJson?_toJson`); what is written has integers of sixty-four
bits for its only numbers (`isExact_toJson`); and a part that is read in whatever way is written
no deeper than it was (`depth_toJson_le`).

* `Block.ofJson?_toJson`, `Block.isExact_toJson`, `Block.depth_toJson_le`: the same of a block,
  with all the tables in it.
-/

namespace DocTemplate

open Json

/-! ## Numbers -/

@[simp] theorem option?_ofUInt32? (n : Option UInt32) :
    option? uint32? (some (ofUInt32? n)) = some n := by
  cases n with
  | none => rfl
  | some n => simp [ofUInt32?, option?]

theorem fitsWord_uint8 (n : UInt8) : FitsWord n.toNat := by
  have h := n.toNat_lt
  exact ⟨by omega, by omega⟩

theorem fitsWord_uint32 (n : UInt32) : FitsWord n.toNat := by
  have h := n.toNat_lt
  exact ⟨by omega, by omega⟩

theorem fitsWord_uint64 (n : UInt64) : FitsWord n.toNat := by
  have h := n.toNat_lt
  exact ⟨by omega, by omega⟩

theorem fitsWord_int64 (n : Int64) : FitsWord n.toInt := by
  have h := n.le_toInt
  have h' := n.toInt_lt
  exact ⟨by omega, by omega⟩

theorem isExact_ofUInt32? (n : Option UInt32) : (ofUInt32? n).IsExact := by
  cases n with
  | none => trivial
  | some n => exact fitsWord_uint32 n

@[simp] theorem depth_ofUInt32? (n : Option UInt32) : (ofUInt32? n).depth = 0 := by
  cases n <;> rfl

/-- A choice is as deep as its content makes it. -/
theorem depth_ofChoice_le {name : String} {content : Json} {d : Nat} (h : content.depth < d) :
    (ofChoice name content).depth ≤ d := by
  simp [ofChoice, depth_obj_le_iff, h, Nat.zero_lt_of_lt h]

/-! ## Styles -/

namespace RunStyle

@[simp] theorem ofJson?_toJson (access : Access) (s : RunStyle) :
    ofJson? access s.toJson = some s := by
  have halign : oneOf? access VerticalAlign.all VerticalAlign.name (.str s.verticalAlign.name) =
      some s.verticalAlign := oneOf?_name (by cases s.verticalAlign <;> rfl)
  rw [ofJson?, toJson, fields?_obj]
  · simp [halign, bool?]
  · rfl
  · decide

theorem isExact_toJson (s : RunStyle) : s.toJson.IsExact := by
  simp [toJson, IsExact, AreExactMembers, isExact_ofString?, isExact_ofUInt32?]

@[simp] theorem depth_toJson (s : RunStyle) : s.toJson.depth = 1 := by
  simp [toJson, Json.depth, depthMembers]

theorem depth_toJson_le {access : Access} {j : Json} {s : RunStyle}
    (h : ofJson? access j = some s) : s.toJson.depth ≤ j.depth := by
  rw [depth_toJson]
  obtain ⟨fs, hfs, -⟩ := Option.bind_eq_some_iff.1 h
  exact (depth_lt_of_fields? hfs).1

end RunStyle

namespace SectionLayout

@[simp] theorem ofJson?_toJson (access : Access) (s : SectionLayout) :
    ofJson? access s.toJson = some s := by
  have hstart : oneOf? access SectionStart.all SectionStart.name (.str s.start.name) =
      some s.start := oneOf?_name (by cases s.start <;> rfl)
  have horientation : oneOf? access Orientation.all Orientation.name (.str s.orientation.name) =
      some s.orientation := oneOf?_name (by cases s.orientation <;> rfl)
  rw [ofJson?, toJson, fields?_obj]
  · simp [hstart, horientation]
  · rfl
  · decide

@[simp] theorem option?_toJson? (access : Access) (s : Option SectionLayout) :
    option? (ofJson? access) (some (toJson? s)) = some s := by
  cases s with
  | none => rfl
  | some s => exact congrArg (Option.map some) (ofJson?_toJson access s)

theorem isExact_toJson? (s : Option SectionLayout) : (toJson? s).IsExact := by
  cases s with
  | none => trivial
  | some s =>
    simp [toJson?, toJson, IsExact, AreExactMembers, isExact_ofUInt32?, fitsWord_uint8]

/-- A layout is a record without records in it. -/
theorem depth_toJson? (s : Option SectionLayout) : (toJson? s).depth = if s.isSome then 1 else 0 := by
  cases s with
  | none => rfl
  | some s => simp [toJson?, toJson, Json.depth, depthMembers]

/-- A layout that is read as a field is written as a field. -/
theorem depth_toJson?_lt {access : Access} {field : Option Json} {s : Option SectionLayout} {d : Nat}
    (h : option? (ofJson? access) field = some s) (hpos : 0 < d) (hlt : ∀ v ∈ field, v.depth < d) :
    (toJson? s).depth < d := by
  rw [depth_toJson?]
  cases s with
  | none => exact hpos
  | some s =>
    obtain ⟨v, rfl, hread⟩ := exists_of_option? h
    obtain ⟨fs, hfs, -⟩ := Option.bind_eq_some_iff.1 hread
    have hv := (depth_lt_of_fields? hfs).1
    have := hlt v rfl
    rw [Option.isSome_some, if_pos rfl]
    omega

end SectionLayout

namespace ParagraphStyle

@[simp] theorem ofJson?_toJson (access : Access) (s : ParagraphStyle) :
    ofJson? access s.toJson = some s := by
  have halign : oneOf? access Alignment.all Alignment.name (.str s.alignment.name) =
      some s.alignment := oneOf?_name (by cases s.alignment <;> rfl)
  rw [ofJson?, toJson, fields?_obj]
  · simp [halign]
  · rfl
  · decide

theorem isExact_toJson (s : ParagraphStyle) : s.toJson.IsExact := by
  simp [toJson, IsExact, AreExactMembers, isExact_ofString?, RunStyle.isExact_toJson,
    SectionLayout.isExact_toJson?]

@[simp] theorem depth_toJson (s : ParagraphStyle) : s.toJson.depth = 2 := by
  have h := SectionLayout.depth_toJson? s.sectionBreak
  have hle : (SectionLayout.toJson? s.sectionBreak).depth ≤ 1 := by split at h <;> omega
  simp [toJson, Json.depth, depthMembers, hle]

theorem depth_toJson_le {access : Access} {j : Json} {s : ParagraphStyle}
    (h : ofJson? access j = some s) : s.toJson.depth ≤ j.depth := by
  rw [depth_toJson]
  obtain ⟨fs, hfs, h⟩ := Option.bind_eq_some_iff.1 h
  obtain ⟨-, hlt⟩ := depth_lt_of_fields? hfs
  split at h
  · obtain ⟨_, _, h⟩ := Option.bind_eq_some_iff.1 h
    obtain ⟨_, _, h⟩ := Option.bind_eq_some_iff.1 h
    obtain ⟨markStyle, hmark, -⟩ := Option.bind_eq_some_iff.1 h
    obtain ⟨v, rfl, hmark⟩ := Option.bind_eq_some_iff.1 hmark
    have hv := RunStyle.depth_toJson_le hmark
    rw [RunStyle.depth_toJson] at hv
    have := hlt v (by simp)
    omega
  · cases h

end ParagraphStyle

/-! ## Runs -/

namespace RunItem

@[simp] theorem ofJson?_toJson (access : Access) (item : RunItem) :
    ofJson? access item.toJson = some item := by
  cases item <;> simp [ofJson?, toJson, ofChoice, str?]

theorem isExact_toJson (item : RunItem) : item.toJson.IsExact := by
  cases item <;> simp [toJson, ofChoice, IsExact, AreExactMembers, fitsWord_int64]

@[simp] theorem depth_toJson (item : RunItem) : item.toJson.depth = 1 := by
  cases item <;> rfl

theorem depth_toJson_le {access : Access} {j : Json} {item : RunItem}
    (h : ofJson? access j = some item) : item.toJson.depth ≤ j.depth := by
  rw [depth_toJson]
  obtain ⟨⟨name, access', content⟩, hchoice, -⟩ := Option.bind_eq_some_iff.1 h
  exact (depth_lt_of_choice? hchoice).1

end RunItem

namespace Run

@[simp] theorem ofJson?_toJson (access : Access) (r : Run) :
    ofJson? access r.toJson = some r := by
  have hcontent : list? (RunItem.ofJson? access) (.arr (r.content.map RunItem.toJson)) =
      some r.content := by
    simpa using list?_map (f := fun item => item) fun item _ => item.ofJson?_toJson access
  rw [ofJson?, toJson, fields?_obj]
  · simp [hcontent]
  · rfl
  · decide

theorem isExact_toJson (r : Run) : r.toJson.IsExact := by
  simp [toJson, IsExact, AreExactMembers, areExact_iff, RunItem.isExact_toJson,
    RunStyle.isExact_toJson]

theorem depth_toJson_le {access : Access} {j : Json} {r : Run} (h : ofJson? access j = some r) :
    r.toJson.depth ≤ j.depth := by
  obtain ⟨fs, hfs, h⟩ := Option.bind_eq_some_iff.1 h
  obtain ⟨hpos, hlt⟩ := depth_lt_of_fields? hfs
  split at h
  · obtain ⟨content, hcontent, h⟩ := Option.bind_eq_some_iff.1 h
    obtain ⟨style, hstyle, h⟩ := Option.bind_eq_some_iff.1 h
    cases h
    obtain ⟨v, rfl, hcontent⟩ := Option.bind_eq_some_iff.1 hcontent
    obtain ⟨w, rfl, hstyle⟩ := Option.bind_eq_some_iff.1 hstyle
    have hcontent := depth_le_of_list? hcontent fun _ _ => RunItem.depth_toJson_le
    have hstyle := RunStyle.depth_toJson_le hstyle
    have hv := hlt v (by simp)
    have hw := hlt w (by simp)
    simp only [toJson, depth_obj_le_iff, List.forall_mem_cons]
    exact ⟨hpos, hcontent.trans_lt hv, hstyle.trans_lt hw, by simp⟩
  · cases h

end Run

/-! ## Paragraphs -/

namespace Inline

@[simp] theorem ofJson?_toJson (access : Access) (item : Inline) :
    ofJson? access item.toJson = some item := by
  cases item with
  | proof mark =>
    have hmark : oneOf? access ProofMark.all ProofMark.name (.str mark.name) = some mark :=
      oneOf?_name (by cases mark <;> rfl)
    simp [ofJson?, toJson, ofChoice, hmark]
  | _ => simp [ofJson?, toJson, ofChoice]

theorem isExact_toJson (item : Inline) : item.toJson.IsExact := by
  cases item <;>
    simp [toJson, ofChoice, IsExact, AreExactMembers, Run.isExact_toJson, fitsWord_uint64]

theorem depth_toJson_le {access : Access} {j : Json} {item : Inline}
    (h : ofJson? access j = some item) : item.toJson.depth ≤ j.depth := by
  obtain ⟨⟨name, access', content⟩, hchoice, h⟩ := Option.bind_eq_some_iff.1 h
  obtain ⟨hpos, hlt⟩ := depth_lt_of_choice? hchoice
  cases item with
  | run r =>
    have hrun : ∃ v, content = some v ∧ Run.ofJson? access' v = some r := by
      dsimp only at h
      split at h
      · obtain ⟨r', hr, h⟩ := Option.map_eq_some_iff.1 h
        cases h
        exact Option.bind_eq_some_iff.1 hr
      all_goals simp at h
    obtain ⟨v, rfl, hr⟩ := hrun
    exact depth_ofChoice_le ((Run.depth_toJson_le hr).trans_lt (hlt v rfl))
  | _ => exact depth_ofChoice_le hpos

end Inline

namespace Paragraph

@[simp] theorem ofJson?_toJson (access : Access) (p : Paragraph) :
    ofJson? access p.toJson = some p.unnumbered := by
  have hcontent : list? (Inline.ofJson? access) (.arr (p.content.map Inline.toJson)) =
      some p.content := by
    simpa using list?_map (f := fun item => item) fun item _ => item.ofJson?_toJson access
  rw [ofJson?, toJson, members, fields?_obj]
  · simp [hcontent, unnumbered]
  · rfl
  · decide

theorem toJson_unnumbered (p : Paragraph) : p.unnumbered.toJson = p.toJson := rfl

theorem isExact_toJson (p : Paragraph) : p.toJson.IsExact := by
  simp [toJson, members, IsExact, AreExactMembers, areExact_iff, Inline.isExact_toJson,
    ParagraphStyle.isExact_toJson]

/-- The parts of a paragraph that its content and its style are read from. -/
theorem exists_of_ofJson? {access : Access} {j : Json} {p : Paragraph}
    (h : ofJson? access j = some p) : ∃ v w, v.depth < j.depth ∧ w.depth < j.depth ∧
      list? (Inline.ofJson? access) v = some p.content ∧
      ParagraphStyle.ofJson? access w = some p.style ∧ p.id = 0 := by
  obtain ⟨fs, hfs, h⟩ := Option.bind_eq_some_iff.1 h
  obtain ⟨-, hlt⟩ := depth_lt_of_fields? hfs
  split at h
  · obtain ⟨content, hcontent, h⟩ := Option.bind_eq_some_iff.1 h
    obtain ⟨style, hstyle, h⟩ := Option.bind_eq_some_iff.1 h
    cases h
    obtain ⟨v, rfl, hcontent⟩ := Option.bind_eq_some_iff.1 hcontent
    obtain ⟨w, rfl, hstyle⟩ := Option.bind_eq_some_iff.1 hstyle
    exact ⟨v, w, hlt v (by simp), hlt w (by simp), hcontent, hstyle, rfl⟩
  · cases h

theorem depth_toJson_le {access : Access} {j : Json} {p : Paragraph}
    (h : ofJson? access j = some p) : p.toJson.depth ≤ j.depth := by
  obtain ⟨v, w, hv, hw, hcontent, hstyle, -⟩ := exists_of_ofJson? h
  have hcontent := depth_le_of_list? hcontent fun _ _ => Inline.depth_toJson_le
  have hstyle := ParagraphStyle.depth_toJson_le hstyle
  simp only [toJson, members, depth_obj_le_iff, List.forall_mem_cons]
  exact ⟨Nat.zero_lt_of_lt hv, hcontent.trans_lt hv, hstyle.trans_lt hw, by simp⟩

/-- A paragraph that is read has no number. -/
theorem unnumbered_of_ofJson? {access : Access} {j : Json} {p : Paragraph}
    (h : ofJson? access j = some p) : p.unnumbered = p := by
  obtain ⟨v, w, -, -, -, -, hid⟩ := exists_of_ofJson? h
  rw [unnumbered, ← hid]

end Paragraph

/-! ## Tables -/

section Layers

variable {α β : Type} {item? : Json → Option β} {write : α → Json} {f : α → β}

theorem Cell.ofJson?_toJson {c : Cell α} (h : ∀ a ∈ c.content, item? (write a) = some (f a)) :
    Cell.ofJson? item? (c.map write).toJson = some (c.map f) := by
  rw [Cell.ofJson?, toJson, fields?_obj]
  · simp [map, list?_map h]
  · rfl
  · decide

theorem Row.ofJson?_toJson {r : Row α} (h : ∀ a ∈ r.items, item? (write a) = some (f a)) :
    Row.ofJson? item? (r.map write).toJson = some (r.map f).unnumbered := by
  have hcells : list? (Cell.ofJson? item?) (.arr (r.cells.map fun c => (c.map write).toJson)) =
      some (r.cells.map (Cell.map f)) :=
    list?_map fun c hc => Cell.ofJson?_toJson fun a ha => h a (List.mem_flatMap.2 ⟨c, hc, ha⟩)
  rw [Row.ofJson?, toJson, fields?_obj]
  · simp [map, Function.comp_def, hcells, unnumbered]
  · rfl
  · decide

/-- The table is read back from its fields, the shape being read before them. -/
theorem Table.ofJson?_toJson {t : Table α} (h : ∀ a ∈ t.items, item? (write a) = some (f a)) :
    Table.ofJson? item? (.obj [("rows", .arr ((t.map write).rows.map Row.toJson)),
      ("style_id", ofString? t.styleId)]) = some (t.map f).unnumbered := by
  have hrows : list? (Row.ofJson? item?) (.arr (t.rows.map fun r => (r.map write).toJson)) =
      some (t.rows.map fun r => (r.map f).unnumbered) :=
    list?_map fun r hr => Row.ofJson?_toJson fun a ha => h a (List.mem_flatMap.2 ⟨r, hr, ha⟩)
  rw [Table.ofJson?, fields?_obj]
  · simp [map, Function.comp_def, hrows, unnumbered]
  · rfl
  · decide

theorem Table.isExact_toJson {t : Table α} (h : ∀ a ∈ t.items, (write a).IsExact) :
    (t.map write).toJson.IsExact := by
  have hcell : ∀ r ∈ t.rows, ∀ c ∈ r.cells, (c.map write).toJson.IsExact := by
    intro r hr c hc
    have hcontent : ∀ a ∈ c.content, (write a).IsExact := fun a ha =>
      h a (mem_items.2 ⟨r, hr, c, hc, ha⟩)
    simpa [Cell.toJson, Cell.map, IsExact, AreExactMembers, areExact_iff, fitsWord_uint8] using
      hcontent
  have hrow : ∀ r ∈ t.rows, (r.map write).toJson.IsExact := by
    intro r hr
    simpa [Row.toJson, Row.map, IsExact, AreExactMembers, areExact_iff] using hcell r hr
  simpa [toJson, map, IsExact, AreExactMembers, areExact_iff, isExact_ofString?] using hrow

/-- An item of a table is not written as deep as the table. -/
theorem Table.depth_lt_toJson {t : Table α} {a : α} (h : a ∈ t.items) :
    (write a).depth < (t.map write).toJson.depth := by
  obtain ⟨r, hr, c, hc, ha⟩ := mem_items.1 h
  calc (write a).depth
      < (Json.arr (c.content.map write)).depth := depth_lt_arr (List.mem_map_of_mem ha)
    _ < (c.map write).toJson.depth := depth_lt_obj (m := ("content", _)) (by simp [Cell.map])
    _ < (Json.arr (r.cells.map fun c => (c.map write).toJson)).depth :=
      depth_lt_arr (List.mem_map.2 ⟨c, hc, rfl⟩)
    _ < (r.map write).toJson.depth := depth_lt_obj (m := ("cells", _)) (by simp [Row.map])
    _ < (Json.arr (t.rows.map fun r => (r.map write).toJson)).depth :=
      depth_lt_arr (List.mem_map.2 ⟨r, hr, rfl⟩)
    _ < (t.map write).toJson.depth := depth_lt_obj (m := ("rows", _)) (by simp [map])

variable {j : Json} {write : β → Json}
  (hdepth : ∀ v b, item? v = some b → (write b).depth ≤ v.depth)

/-- The part of a cell that its content is read from. -/
theorem Cell.exists_of_ofJson? {c : Cell β} (h : Cell.ofJson? item? j = some c) :
    ∃ v, v.depth < j.depth ∧ list? item? v = some c.content := by
  obtain ⟨fs, hfs, h⟩ := Option.bind_eq_some_iff.1 h
  obtain ⟨-, hlt⟩ := depth_lt_of_fields? hfs
  split at h
  · obtain ⟨content, hcontent, h⟩ := Option.bind_eq_some_iff.1 h
    obtain ⟨gridSpan, -, h⟩ := Option.bind_eq_some_iff.1 h
    cases h
    obtain ⟨v, rfl, hcontent⟩ := Option.bind_eq_some_iff.1 hcontent
    exact ⟨v, hlt v (by simp), hcontent⟩
  · cases h

/-- The part of a row that its cells are read from. -/
theorem Row.exists_of_ofJson? {r : Row β} (h : Row.ofJson? item? j = some r) :
    ∃ v, v.depth < j.depth ∧ list? (Cell.ofJson? item?) v = some r.cells ∧ r.id = 0 := by
  obtain ⟨fs, hfs, h⟩ := Option.bind_eq_some_iff.1 h
  obtain ⟨-, hlt⟩ := depth_lt_of_fields? hfs
  split at h
  · obtain ⟨cells, hcells, h⟩ := Option.bind_eq_some_iff.1 h
    cases h
    obtain ⟨v, rfl, hcells⟩ := Option.bind_eq_some_iff.1 hcells
    exact ⟨v, hlt v (by simp), hcells, rfl⟩
  · cases h

/-- The part of a table that its rows are read from. -/
theorem Table.exists_of_ofJson? {t : Table β} (h : Table.ofJson? item? j = some t) :
    ∃ v, v.depth < j.depth ∧ list? (Row.ofJson? item?) v = some t.rows ∧ t.id = 0 := by
  obtain ⟨fs, hfs, h⟩ := Option.bind_eq_some_iff.1 h
  obtain ⟨-, hlt⟩ := depth_lt_of_fields? hfs
  split at h
  · obtain ⟨rows, hrows, h⟩ := Option.bind_eq_some_iff.1 h
    obtain ⟨styleId, -, h⟩ := Option.bind_eq_some_iff.1 h
    cases h
    obtain ⟨v, rfl, hrows⟩ := Option.bind_eq_some_iff.1 hrows
    exact ⟨v, hlt v (by simp), hrows, rfl⟩
  · cases h

include hdepth

theorem Cell.depth_toJson_le {c : Cell β} (h : Cell.ofJson? item? j = some c) :
    (c.map write).toJson.depth ≤ j.depth := by
  obtain ⟨v, hv, hcontent⟩ := exists_of_ofJson? h
  have hcontent := depth_le_of_list? hcontent hdepth
  simp only [toJson, map, depth_obj_le_iff, List.forall_mem_cons, depth_int]
  exact ⟨Nat.zero_lt_of_lt hv, hcontent.trans_lt hv, Nat.zero_lt_of_lt hv, by simp⟩

theorem Row.depth_toJson_le {r : Row β} (h : Row.ofJson? item? j = some r) :
    (r.map write).toJson.depth ≤ j.depth := by
  obtain ⟨v, hv, hcells, -⟩ := exists_of_ofJson? h
  have hcells := depth_le_of_list? hcells fun _ _ => Cell.depth_toJson_le hdepth
  simp only [toJson, map, List.map_map, depth_obj_le_iff, List.forall_mem_cons]
  exact ⟨Nat.zero_lt_of_lt hv, hcells.trans_lt hv, by simp⟩

theorem Table.depth_toJson_le {t : Table β} (h : Table.ofJson? item? j = some t) :
    (t.map write).toJson.depth ≤ j.depth := by
  obtain ⟨v, hv, hrows, -⟩ := exists_of_ofJson? h
  have hrows := depth_le_of_list? hrows fun _ _ => Row.depth_toJson_le hdepth
  simp only [toJson, map, List.map_map, depth_obj_le_iff, List.forall_mem_cons, depth_str,
    depth_ofString?]
  exact ⟨Nat.zero_lt_of_lt hv, Nat.zero_lt_of_lt hv, hrows.trans_lt hv, Nat.zero_lt_of_lt hv,
    by simp⟩

omit hdepth in
/-- A table that is read has no numbers. -/
theorem Table.unnumbered_of_ofJson? {f : β → β} (hitem : ∀ v b, item? v = some b → f b = b)
    {t : Table β} (h : Table.ofJson? item? j = some t) : (t.map f).unnumbered = t := by
  have hcell : ∀ v (c : Cell β), Cell.ofJson? item? v = some c → c.map f = c := by
    intro v c hc
    obtain ⟨w, -, hcontent⟩ := Cell.exists_of_ofJson? hc
    rw [Cell.map, map_eq_of_list? hcontent hitem]
  have hrow : ∀ v (r : Row β), Row.ofJson? item? v = some r → (r.map f).unnumbered = r := by
    intro v r hr
    obtain ⟨w, -, hcells, hid⟩ := Row.exists_of_ofJson? hr
    rw [Row.map, map_eq_of_list? hcells hcell, Row.unnumbered, ← hid]
  obtain ⟨v, -, hrows, hid⟩ := exists_of_ofJson? h
  rw [map, unnumbered, List.map_map, Function.comp_def, map_eq_of_list? hrows hrow, ← hid]

end Layers

namespace Block

theorem toJson_paragraph (p : Paragraph) :
    (paragraph p).toJson = .obj (("type", .str "paragraph") :: p.members) := by
  rw [toJson, fold_paragraph]

theorem toJson_table (t : Table Block) : (table t).toJson = (t.map toJson).toJson := by
  rw [toJson, fold_table]

/-- The numbers of the nodes are not written. -/
theorem toJson_unnumbered (b : Block) : b.unnumbered.toJson = b.toJson := by
  induction b using Block.induction with
  | paragraph p =>
    rw [unnumbered_paragraph, toJson_paragraph, toJson_paragraph]
    rfl
  | table t ih =>
    rw [unnumbered_table, toJson_table, toJson_table, Table.map_unnumbered, Table.map_map,
      Table.map_congr ih]
    simp [Table.toJson, Table.unnumbered, Row.unnumbered, Row.toJson, Function.comp_def]

theorem isExact_toJson (b : Block) : b.toJson.IsExact := by
  induction b using Block.induction with
  | paragraph p =>
    rw [toJson_paragraph]
    exact ⟨trivial, p.isExact_toJson⟩
  | table t ih =>
    rw [toJson_table]
    exact Table.isExact_toJson ih

/-- A block is read back from its shape and its fields, if the blocks in it are. -/
theorem bind_shape?_toJson {access : Access} {inner? : Json → Option Block} (b : Block)
    (h : ∀ t, b = table t → ∀ b' ∈ t.items, inner? b'.toJson = some b'.unnumbered) :
    ((shape? access shapes "type" b.toJson).bind fun (shape, fields) =>
      ofShape? inner? shape fields) = some b.unnumbered := by
  cases b with
  | paragraph p =>
    rw [toJson_paragraph, shape?_obj (by simp [Paragraph.members])]
    exact congrArg (Option.map paragraph) (p.ofJson?_toJson .held)
  | table t =>
    rw [toJson_table, Table.toJson, shape?_obj (by simp), unnumbered_table]
    exact congrArg (Option.map table) (Table.ofJson?_toJson (h t rfl))

theorem depth_toJson_pos (b : Block) : 0 < b.toJson.depth := by
  cases b with
  | paragraph p =>
    rw [toJson_paragraph]
    exact Nat.succ_pos _
  | table t =>
    rw [toJson_table]
    exact Nat.succ_pos _

/-- A block in a table is read back, unless tables are nested too deep. -/
theorem ofNested?_toJson (b : Block) {d : Nat} (h : b.toJson.depth ≤ d) :
    ofNested? d b.toJson = some b.unnumbered := by
  induction b using Block.induction generalizing d with
  | paragraph p =>
    obtain _ | d := d
    · exact absurd (depth_toJson_pos _) (Nat.not_lt.2 h)
    · exact bind_shape?_toJson _ (by rintro t ⟨⟩)
  | table t ih =>
    obtain _ | d := d
    · exact absurd (depth_toJson_pos _) (Nat.not_lt.2 h)
    · refine bind_shape?_toJson _ ?_
      rintro _ ⟨⟩ b hb
      rw [toJson_table] at h
      have hlt : b.toJson.depth < (t.map toJson).toJson.depth := Table.depth_lt_toJson hb
      exact ih b hb (by omega)

/-- A block is read back. -/
theorem ofJson?_toJson (b : Block) : ofJson? b.toJson = some b.unnumbered := by
  have hheld : hold? b.toJson = some b.toJson := if_pos b.isExact_toJson.isReadable
  rw [ofJson?, hheld]
  refine bind_shape?_toJson b ?_
  rintro t rfl b hb
  rw [toJson_table]
  exact ofNested?_toJson b (Table.depth_lt_toJson hb).le

/-! ### What is read -/

/-- A block that is read from its shape and its fields is written no deeper than these, and has
    no numbers, if this holds of the blocks in it. -/
theorem depth_toJson_le_of_ofShape? {inner? : Json → Option Block} {shape : String} {fields : Json}
    {b : Block}
    (hinner : ∀ v b, inner? v = some b → b.toJson.depth ≤ v.depth ∧ b.unnumbered = b)
    (h : ofShape? inner? shape fields = some b) :
    b.toJson.depth ≤ fields.depth ∧ b.unnumbered = b := by
  unfold ofShape? at h
  split at h
  · obtain ⟨p, hp, rfl⟩ := Option.map_eq_some_iff.1 h
    rw [toJson_paragraph, unnumbered_paragraph, Paragraph.unnumbered_of_ofJson? hp]
    have hdepth := depth_obj_le_iff.1 (Paragraph.depth_toJson_le hp)
    exact ⟨depth_obj_le_iff.2 ⟨hdepth.1, List.forall_mem_cons.2 hdepth⟩, rfl⟩
  · obtain ⟨t, ht, rfl⟩ := Option.map_eq_some_iff.1 h
    rw [toJson_table, unnumbered_table,
      Table.unnumbered_of_ofJson? (fun v b hb => (hinner v b hb).2) ht]
    exact ⟨Table.depth_toJson_le (fun v b hb => (hinner v b hb).1) ht, rfl⟩
  · cases h

theorem depth_toJson_le_of_ofNested? {d : Nat} {j : Json} {b : Block}
    (h : ofNested? d j = some b) : b.toJson.depth ≤ j.depth ∧ b.unnumbered = b := by
  induction d generalizing j b with
  | zero => cases h
  | succ d ih =>
    obtain ⟨⟨shape, fields⟩, hshape, h⟩ := Option.bind_eq_some_iff.1 h
    exact (depth_toJson_le_of_ofShape? (fun v b => ih) h).imp_left
      fun hle => hle.trans (depth_le_of_shape? hshape)

/-- A block that is read is written no deeper than it was, and has no numbers. -/
theorem depth_toJson_le {j : Json} {b : Block} (h : ofJson? j = some b) :
    b.toJson.depth ≤ j.depth ∧ b.unnumbered = b := by
  obtain ⟨held, hheld, h⟩ := Option.bind_eq_some_iff.1 h
  obtain rfl := eq_of_hold? hheld
  obtain ⟨⟨shape, fields⟩, hshape, h⟩ := Option.bind_eq_some_iff.1 h
  exact (depth_toJson_le_of_ofShape? (fun v b => depth_toJson_le_of_ofNested?) h).imp_left
    fun hle => hle.trans (depth_le_of_shape? hshape)

end Block

/-! ## Comments and notes -/

theorem list?_paragraphs (ps : List Paragraph) :
    list? (Paragraph.ofJson? .direct) (.arr (ps.map Paragraph.toJson)) =
      some (ps.map Paragraph.unnumbered) :=
  list?_map fun p _ => p.ofJson?_toJson .direct

theorem isExact_paragraphs (ps : List Paragraph) : (Json.arr (ps.map Paragraph.toJson)).IsExact :=
  areExact_iff.2 (List.forall_mem_map.2 fun p _ => p.isExact_toJson)

namespace Comment

@[simp] theorem ofJson?_toJson (c : Comment) : ofJson? c.toJson = some c.unnumbered := by
  obtain ⟨id, author, content, parent⟩ := c
  rw [ofJson?, toJson, fields?_obj]
  · cases parent <;> simp [list?_paragraphs, unnumbered]
  · rfl
  · decide

theorem isExact_toJson (c : Comment) : c.toJson.IsExact := by
  obtain ⟨id, author, content, parent⟩ := c
  refine ⟨fitsWord_uint64 id, isExact_ofString? author, isExact_paragraphs content, ?_, trivial⟩
  cases parent with
  | none => trivial
  | some parent => exact fitsWord_uint64 parent

/-- A comment that is read is written no deeper than it was, and has no numbers. -/
theorem depth_toJson_le {j : Json} {c : Comment} (h : ofJson? j = some c) :
    c.toJson.depth ≤ j.depth ∧ c.unnumbered = c := by
  obtain ⟨fs, hfs, h⟩ := Option.bind_eq_some_iff.1 h
  obtain ⟨hpos, hlt⟩ := depth_lt_of_fields? hfs
  split at h
  · obtain ⟨id, -, h⟩ := Option.bind_eq_some_iff.1 h
    obtain ⟨author, -, h⟩ := Option.bind_eq_some_iff.1 h
    obtain ⟨content, hcontent, h⟩ := Option.bind_eq_some_iff.1 h
    obtain ⟨parent, -, h⟩ := Option.bind_eq_some_iff.1 h
    cases h
    obtain ⟨v, rfl, hcontent⟩ := Option.bind_eq_some_iff.1 hcontent
    have hdepth := depth_le_of_list? hcontent fun _ _ => Paragraph.depth_toJson_le
    have hv := hlt v (by simp)
    refine ⟨?_, ?_⟩
    · simp only [toJson, depth_obj_le_iff, List.forall_mem_cons]
      refine ⟨hpos, hpos, ?_, hdepth.trans_lt hv, ?_, by simp⟩
      · rwa [depth_ofString?]
      · cases parent <;> exact hpos
    · rw [unnumbered, map_eq_of_list? hcontent fun _ _ => Paragraph.unnumbered_of_ofJson?]
  · cases h

end Comment

namespace Note

@[simp] theorem ofJson?_toJson (n : Note) : ofJson? n.toJson = some n.unnumbered := by
  have hkind : oneOf? .direct NoteKind.all NoteKind.name (.str n.kind.name) = some n.kind :=
    oneOf?_name (by cases n.kind <;> rfl)
  rw [ofJson?, toJson, fields?_obj]
  · simp [list?_paragraphs, hkind, unnumbered]
  · rfl
  · decide

theorem isExact_toJson (n : Note) : n.toJson.IsExact :=
  ⟨fitsWord_int64 n.id, trivial, isExact_paragraphs n.content, trivial⟩

/-- A note that is read is written no deeper than it was, and has no numbers. -/
theorem depth_toJson_le {j : Json} {n : Note} (h : ofJson? j = some n) :
    n.toJson.depth ≤ j.depth ∧ n.unnumbered = n := by
  obtain ⟨fs, hfs, h⟩ := Option.bind_eq_some_iff.1 h
  obtain ⟨hpos, hlt⟩ := depth_lt_of_fields? hfs
  split at h
  · obtain ⟨id, -, h⟩ := Option.bind_eq_some_iff.1 h
    obtain ⟨kind, -, h⟩ := Option.bind_eq_some_iff.1 h
    obtain ⟨content, hcontent, h⟩ := Option.bind_eq_some_iff.1 h
    cases h
    obtain ⟨v, rfl, hcontent⟩ := Option.bind_eq_some_iff.1 hcontent
    have hdepth := depth_le_of_list? hcontent fun _ _ => Paragraph.depth_toJson_le
    have hv := hlt v (by simp)
    refine ⟨?_, ?_⟩
    · simp only [toJson, depth_obj_le_iff, List.forall_mem_cons]
      exact ⟨hpos, hpos, hpos, hdepth.trans_lt hv, by simp⟩
    · rw [unnumbered, map_eq_of_list? hcontent fun _ _ => Paragraph.unnumbered_of_ofJson?]
  · cases h

end Note

end DocTemplate
