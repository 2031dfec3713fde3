import DocTemplate.Proofs.Directive.Target
import DocTemplate.Proofs.Engine.Stage

/-!
# Tables and the comments about them

The table that a comment is about is looked up when its edit is made, not when the
comment is dispatched. By then other edits have been made, and the table may be gone.
An edit should then do nothing, and never turn to another table (`TableFill.KeepsTo`).

It does so as long as the table is there. Once the table is gone, it depends on what else
the comment may be about: another table that it covers, the table around its paragraph,
or else the paragraph itself, without which the comment is known to be gone
(`TableFill.IsDefinite`). A comment that covers no table is safe.

* `TableFill.keepsTo_iff`: when an edit keeps to its table, after any edits;
* `Stage.Of.keepsToTable_iff`: the same, at any move of a filling.
-/

namespace DocTemplate

/-- What the site refers to is in the document, and numbered up to `n`. -/
structure Site.IsIn (n : Nat) (doc : Document) (site : Site) : Prop where
  blocks : ∀ id ∈ site.region.blocks, 0 < id ∧ id ≤ n
  cell : ∀ position ∈ site.cell, 0 < position.table ∧ position.table ≤ n ∧
    (doc.table? position.table).isSome

namespace TableFill

/-- What an edit should do to a draft, if `table` is what its instruction was about before
    any edit was made: it is not out of place, it does nothing if the table is gone, and it
    does nothing to any other table. -/
structure KeepsTo (f : Filler) (edit : Edit) (i : Instruction) (table : NodeId) (d : Draft) :
    Prop where
  placed : ∀ name text reason, ¬ (perform f edit).Fails d (.misplaced name text reason)
  gone : d.document.table? table = none → (perform f edit).run d = (.ok (), d)
  other : ∀ found, target? d.document i.site = some found →
    (d.document.table? found).isSome → found = table

/-- The table is there; or it is gone, and the site covers no table, is in no other table,
    and has lost its paragraph if it is in none at all. -/
def IsDefinite (doc : Document) (site : Site) (table : NodeId) : Prop :=
  (doc.table? table).isSome ∨
    ((∀ id ∈ site.region.blocks, doc.table? id = none) ∧
      (∀ position ∈ site.cell, position.table = table ∨ doc.table? position.table = none) ∧
      (site.cell = none → doc.locate? site.paragraph = none))

instance (doc : Document) (site : Site) (table : NodeId) :
    Decidable (IsDefinite doc site table) :=
  inferInstanceAs (Decidable (_ ∨ _))

variable {R : List CellPosition → Paragraph → Paragraph → Prop} {n : Nat} {doc doc' : Document}
  {site : Site} {table : NodeId}

/-- Where no covered table is, the site is about the table around it. -/
theorem target?_of_covers_none (h : ∀ id ∈ site.region.blocks, doc.table? id = none) :
    target? doc site = site.cell.map CellPosition.table := by
  have hnone : site.region.blocks.find? (fun id => (doc.table? id).isSome) = none := by
    simpa [List.find?_eq_none] using h
  rw [target?, hnone, Option.none_or]

/-- Where a table is covered, the site is about a table that is there. -/
theorem exists_target? {id : NodeId} (hid : id ∈ site.region.blocks) (h : (doc.table? id).isSome) :
    ∃ found, target? doc site = some found ∧ (doc.table? found).isSome := by
  cases hfind : site.region.blocks.find? fun id => (doc.table? id).isSome with
  | none => exact absurd h (by simpa using List.find?_eq_none.1 hfind id hid)
  | some found =>
    have hsome := List.find?_some hfind
    exact ⟨found, by rw [target?, hfind, Option.some_or], hsome⟩

section Descent

variable (h : doc.Descends R n doc') (hnodup : (Placed.originalIds n doc.outline).Nodup)
  (hsite : site.IsIn n doc)

include h hnodup hsite

/-- Tables that are covered and left were covered before. -/
theorem table?_eq_none {id : NodeId} (hid : id ∈ site.region.blocks) (hnone : doc.table? id = none) :
    doc'.table? id = none := by
  by_contra hleft
  have hsome := h.isSome_table? hnodup (hsite.blocks id hid).1 (hsite.blocks id hid).2
    (Option.isSome_iff_ne_none.2 hleft)
  simp [hnone] at hsome

/-- As long as the table is there, the site is about it. -/
theorem target?_eq_of_isSome (ht : target? doc site = some table)
    (hleft : (doc'.table? table).isSome) : target? doc' site = some table := by
  cases hfind : site.region.blocks.find? fun id => (doc.table? id).isSome with
  | none =>
    have hnone : ∀ id ∈ site.region.blocks, doc.table? id = none := by
      simpa [List.find?_eq_none] using hfind
    rw [target?_of_covers_none hnone] at ht
    rwa [target?_of_covers_none fun id hid => table?_eq_none h hnodup hsite hid (hnone id hid)]
  | some found =>
    obtain rfl : found = table := by
      rw [target?, hfind, Option.some_or] at ht
      exact Option.some.inj ht
    obtain ⟨-, as, bs, hblocks, has⟩ := List.find?_eq_some_iff_append.1 hfind
    have hfind' : site.region.blocks.find? (fun id => (doc'.table? id).isSome) = some found := by
      refine List.find?_eq_some_iff_append.2 ⟨hleft, as, bs, hblocks, fun id hid => ?_⟩
      have hnone : doc.table? id = none := by simpa using has id hid
      simp [table?_eq_none h hnodup hsite (hblocks ▸ List.mem_append_left _ hid) hnone]
    rw [target?, hfind', Option.some_or]

end Descent

section Keeps

variable {f : Filler} {edit : Edit} {i : Instruction} {d : Draft}

/-- An edit that does nothing, and has no table to turn to, keeps to its table. -/
theorem keepsTo_of_run (hrun : (perform f edit).run d = (.ok (), d))
    (hother : ∀ found, target? d.document i.site = some found → d.document.table? found = none) :
    KeepsTo f edit i table d where
  placed name text reason hfails := by
    rw [Revision.Fails, hrun] at hfails
    cases hfails
  gone _ := hrun
  other found hfound hleft := by simp [hother found hfound] at hleft

/-- As long as its table is there, an edit keeps to it. -/
theorem keepsTo_of_target? (hi : edit.tableInstruction? = some i)
    (ht : target? d.document i.site = some table) (hleft : (d.document.table? table).isSome) :
    KeepsTo f edit i table d where
  placed name text reason hfails := by
    obtain ⟨columns, cells, herror⟩ := exists_of_fails hi ht hfails
    cases herror
  gone hgone := by simp [hgone] at hleft
  other found hfound _ := Option.some.inj (hfound.symm.trans ht)

/-- An edit that keeps to its table has nothing else to turn to once the table is gone. -/
theorem isDefinite_of_keepsTo (hi : edit.tableInstruction? = some i)
    (hkeeps : KeepsTo f edit i table d) : IsDefinite d.document i.site table := by
  by_cases hleft : (d.document.table? table).isSome
  · exact .inl hleft
  have hgone : d.document.table? table = none := by simpa using hleft
  have hcovers : ∀ id ∈ i.site.region.blocks, d.document.table? id = none := by
    intro id hid
    by_contra hsome
    obtain ⟨found, hfound, hthere⟩ := exists_target? hid (Option.isSome_iff_ne_none.2 hsome)
    obtain rfl := hkeeps.other found hfound hthere
    exact hleft hthere
  have htarget := target?_of_covers_none hcovers
  refine .inr ⟨hcovers, fun position hposition => ?_, fun hcell => ?_⟩
  · by_contra hnot
    rw [not_or] at hnot
    rw [Option.mem_def.1 hposition, Option.map_some] at htarget
    exact hnot.1 (hkeeps.other _ htarget (Option.isSome_iff_ne_none.2 hnot.2))
  · -- A comment that is in no table and has its paragraph is taken to be out of place.
    by_contra hparagraph
    rw [hcell, Option.map_none] at htarget
    refine hkeeps.placed i.name.toString i.site.paragraphText .noTable ?_
    rw [Revision.Fails, run_perform_of_none hi htarget, if_neg fun hnone => hparagraph hnone.2]
    rfl

/-- After edits, an edit keeps to its table exactly if there is no doubt about the table. -/
theorem keepsTo_iff (h : doc.Descends R n d.document)
    (hnodup : (Placed.originalIds n doc.outline).Nodup) (hsite : i.site.IsIn n doc)
    (hi : edit.tableInstruction? = some i) (ht : target? doc i.site = some table) :
    KeepsTo f edit i table d ↔ IsDefinite d.document i.site table := by
  refine ⟨isDefinite_of_keepsTo hi, ?_⟩
  by_cases hleft : (d.document.table? table).isSome
  · exact fun _ => keepsTo_of_target? hi (target?_eq_of_isSome h hnodup hsite ht hleft) hleft
  have hgone : d.document.table? table = none := by simpa using hleft
  rintro (hthere | ⟨hcovers, hcell, hparagraph⟩)
  · exact absurd hthere hleft
  have htarget := target?_of_covers_none hcovers
  cases hsome : i.site.cell with
  | none =>
    rw [hsome, Option.map_none] at htarget
    refine keepsTo_of_run ?_ fun found hfound => by simp [htarget] at hfound
    rw [run_perform_of_none hi htarget, if_pos ⟨hsome, hparagraph hsome⟩]
  | some position =>
    rw [hsome, Option.map_some] at htarget
    obtain ⟨hpos, hle, hthere⟩ := hsite.cell position hsome
    have hnone : d.document.table? position.table = none := by
      rcases hcell position hsome with heq | hnone
      · rw [heq]
        exact hgone
      · exact hnone
    refine keepsTo_of_run (run_perform_of_gone hi htarget
      (h.locate?_eq_none_of_table? hnodup hpos hle hthere hnone)) fun found hfound => ?_
    rw [← Option.some.inj (htarget.symm.trans hfound)]
    exact hnone

/-- A comment that covers no table leaves no doubt about the one around it. -/
theorem isDefinite_of_covers_none (h : doc.Descends R n d.document)
    (hnodup : (Placed.originalIds n doc.outline).Nodup) (hsite : i.site.IsIn n doc)
    (ht : target? doc i.site = some table)
    (hcovers : ∀ id ∈ i.site.region.blocks, doc.table? id = none) :
    IsDefinite d.document i.site table := by
  rw [target?_of_covers_none hcovers] at ht
  obtain ⟨position, hposition, rfl⟩ := Option.map_eq_some_iff.1 ht
  refine .inr ⟨fun id hid => table?_eq_none h hnodup hsite hid (hcovers id hid), ?_, ?_⟩
  · intro position' hposition'
    exact .inl (congrArg _ (Option.some.inj (hposition'.symm.trans hposition)))
  · intro hnone
    simp [hnone] at hposition

end Keeps

end TableFill

namespace Stage

variable {s : Stage} {e : Engine} {f : Filler} {scope : Value} {doc : Document}

/-- What an instruction of the plan refers to is in the document. -/
theorem Of.isIn (h : s.Of e f scope doc) {i : Instruction} (hi : s.Gives i) :
    i.site.IsIn s.document.lastId s.document where
  blocks := by
    obtain ⟨calls, hentry, -⟩ := hi.entry
    exact h.blocks hentry
  cell position hposition := by
    obtain ⟨p, around, hp, -, -, hcell⟩ := hi.paragraph
    rw [hcell] at hposition
    have hmem : position ∈ around := List.mem_of_mem_head? hposition
    obtain ⟨a, ha⟩ := Document.exists_table_of_around hp hmem
    obtain ⟨hpos, hle⟩ := Placed.isOriginal_iff.1 (h.isOriginal ha)
    exact ⟨hpos, hle, (Document.isSome_table?_iff h.nodup_originalIds hpos hle).2 ⟨a, ha⟩⟩

section Move

variable {edit : Edit} {i : Instruction} {d : Draft} {table : NodeId} (h : s.Of e f scope doc)
  (hd : s.Reaches f ⟨.fills, edit⟩ d) (hi : edit.tableInstruction? = some i)
  (ht : TableFill.target? s.document i.site = some table)

include h hd hi

theorem Of.isIn_of_reaches : i.site.IsIn s.document.lastId s.document := by
  have hinstruction : edit.instruction? = some i := by
    cases edit <;> simp_all [Edit.tableInstruction?, Edit.instruction?]
  exact h.isIn (h.given_of_mem_moves hd.mem hinstruction).1

include ht

theorem Of.keepsTo_iff :
    TableFill.KeepsTo f edit i table d ↔ TableFill.IsDefinite d.document i.site table :=
  TableFill.keepsTo_iff (descends_of_reaches hd) h.nodup_originalIds (h.isIn_of_reaches hd hi) hi ht

/-- At every move about a table, the edit keeps to the table that its comment was about
    before all edits, exactly if there is no doubt about that table; and there is none if
    the comment covered no table. -/
theorem Of.keepsToTable_iff :
    (TableFill.KeepsTo f edit i table d ↔ TableFill.IsDefinite d.document i.site table) ∧
      ((∀ id ∈ i.site.region.blocks, s.document.table? id = none) →
        TableFill.IsDefinite d.document i.site table) :=
  ⟨h.keepsTo_iff hd hi ht, TableFill.isDefinite_of_covers_none (descends_of_reaches hd)
    h.nodup_originalIds (h.isIn_of_reaches hd hi) ht⟩

end Move

/-! ### Tables that are removed -/

/-- A cell with a paragraph that has a comment on it. -/
def commentedCell (id : CommentId) (text : String) : Cell Block :=
  .ofParagraph { content := [.rangeStart id, .run (.ofText text), .rangeEnd id] }

/-- A table with two comments in it: one is about the table, and the other removes it. -/
def removedTable : Document where
  body := [.table { rows := [⟨0, [commentedCell 1 "data", commentedCell 2 "cell"]⟩] }]
  comments := [.ofText 1 "resolveTable(null)", .ofText 2 "displayTableIf(false)"]

/-- The stage of its filling. -/
def stageOfRemovedTable : Stage :=
  (({} : Engine).stage .standard .null removedTable).toOption.get (by decide +kernel)

/-- The last move, which is about the table. -/
def lastOfRemovedTable : Move :=
  stageOfRemovedTable.moves.get ⟨3, by decide +kernel⟩

theorem keepsToTable_removedTable :
    ∃ (s : Stage) (edit : Edit) (i : Instruction) (d : Draft) (table : NodeId),
      s.Of {} .standard .null removedTable ∧ s.Reaches .standard ⟨.fills, edit⟩ d ∧
        edit.tableInstruction? = some i ∧ TableFill.target? s.document i.site = some table ∧
          d.document.table? table = none ∧ TableFill.KeepsTo .standard edit i table d := by
  have h : stageOfRemovedTable.Of {} .standard .null removedTable :=
    ⟨Except.eq_ok_get _, rfl⟩
  have hpass : lastOfRemovedTable.pass = .fills := by decide +kernel
  have hd := reaches_get (f := .standard) _ hpass (by decide +kernel)
  have hi : lastOfRemovedTable.edit.tableInstruction? =
      some (lastOfRemovedTable.edit.tableInstruction?.get (by decide +kernel)) := by simp
  refine ⟨_, _, _, _, 1, h, hd, hi, by decide +kernel, by decide +kernel, ?_⟩
  exact (h.keepsToTable_iff hd hi (by decide +kernel)).1.2 (by decide +kernel)

/-- A paragraph and a table under a comment about the table, which another comment
    removes. -/
def coveredTable : Document where
  body := [.paragraph { content := [.rangeStart 1, .run (.ofText "Data")] },
    .table { rows := [⟨0, [.ofParagraph { content := [.rangeStart 2, .run (.ofText "cell"),
      .rangeEnd 2, .rangeEnd 1] }]⟩] }]
  comments := [.ofText 1 "resolveTable(null)", .ofText 2 "displayTableIf(false)"]

/-- The stage of its filling. -/
def stageOfCoveredTable : Stage :=
  (({} : Engine).stage .standard .null coveredTable).toOption.get (by decide +kernel)

/-- The last move, which is about the table. -/
def lastOfCoveredTable : Move :=
  stageOfCoveredTable.moves.get ⟨3, by decide +kernel⟩

/-- The edit turns against the paragraph that is left, and the filling fails. -/
theorem not_keepsTo_coveredTable :
    (∃ (s : Stage) (edit : Edit) (i : Instruction) (d : Draft) (table : NodeId),
      s.Of {} .standard .null coveredTable ∧ s.Reaches .standard ⟨.fills, edit⟩ d ∧
        edit.tableInstruction? = some i ∧ TableFill.target? s.document i.site = some table ∧
          ¬ TableFill.KeepsTo .standard edit i table d) ∧
      (match ({} : Engine).fill .null coveredTable with
        | .error (.misplaced name _ reason) => name == "resolveTable" && reason == .noTable
        | _ => false) = true := by
  have h : stageOfCoveredTable.Of {} .standard .null coveredTable :=
    ⟨Except.eq_ok_get _, rfl⟩
  have hpass : lastOfCoveredTable.pass = .fills := by decide +kernel
  have hd := reaches_get (f := .standard) _ hpass (by decide +kernel)
  have hi : lastOfCoveredTable.edit.tableInstruction? =
      some (lastOfCoveredTable.edit.tableInstruction?.get (by decide +kernel)) := by simp
  refine ⟨⟨_, _, _, _, 2, h, hd, hi, by decide +kernel, fun hkeeps => ?_⟩, by decide +kernel⟩
  exact absurd ((h.keepsTo_iff hd hi (by decide +kernel)).1 hkeeps) (by decide +kernel)

end Stage

end DocTemplate
