import DocTemplate.Proofs.Directive.Allotment
import DocTemplate.Proofs.Engine.Contiguity

/-!
# The numbers of a filled document

A document that is going to be filled is numbered, and after the filling the nodes should
still have numbers, each one its own: those that stay, the copies of repeated blocks, the
records of tables, and the headers. That is so for all of them but one kind. A header in a
cell of the first row that has no paragraph has no number, and two such headers have the same
number, 0.

* `Stage.Bares`: the cells that get such headers, in any of the fillings of tables;
* `Stage.Of.allotted`: the numbers after all edits;
* `Engine.numbered_fill_iff`: when all nodes of the filled document are numbered.
-/

namespace DocTemplate

/-- The end of a filling leaves the numbers alone. -/
theorem Document.Allotted.close {doc : Document} {bare : CellPosition → Prop}
    (h : doc.Allotted bare) (settings : Settings) (keep : List CommentId) :
    (doc.close settings keep).Allotted bare := by
  have hid : ∀ x : Placed, (x.mapParagraph fun p => p.keepAnchors keep.contains).id = x.id := by
    rintro ⟨p | id | id, around⟩ <;> rfl
  have hparagraph : ∀ x : Placed,
      (x.mapParagraph fun p => p.keepAnchors keep.contains).IsParagraphOf bare ↔
        x.IsParagraphOf bare := by
    rintro ⟨p | id | id, _ | ⟨position, around⟩⟩ <;>
      simp [Placed.IsParagraphOf, Placed.mapParagraph, Node.mapParagraph]
  have hlastId : (doc.close settings keep).lastId = doc.lastId := by
    rw [Document.close, Document.finish]
    split <;> rfl
  refine ⟨fun n => ?_, fun x hx => ?_, fun x hx => ?_, fun position hposition => ?_⟩
  · have hids : (doc.close settings keep).outline.map Placed.id = doc.outline.map Placed.id := by
      rw [outline_close, List.map_map]
      exact List.map_congr_left fun x _ => hid x
    rw [Placed.originalIds_congr hids]
    exact h.nodup n
  · rw [outline_close] at hx
    obtain ⟨y, hy, rfl⟩ := List.mem_map.1 hx
    rw [hlastId, hid]
    exact h.le y hy
  · rw [outline_close] at hx
    obtain ⟨y, hy, rfl⟩ := List.mem_map.1 hx
    rw [hid, hparagraph]
    exact h.zero y hy
  · rw [hlastId]
    exact h.rows position hposition

namespace Stage

variable {s : Stage} {f : Filler} {e : Engine} {scope : Value} {doc : Document} {d : Draft}

/-- A filling of a table writes a header into the cell, which has no paragraph. -/
def Bares (s : Stage) (f : Filler) (position : CellPosition) : Prop :=
  ∃ m d, s.Reaches f m d ∧ m.pass = .fills ∧ TableFill.Bares d.document m.edit position

/-- The numbers after all moves. -/
theorem Of.allotted (h : s.Of e f scope doc)
    (hyields : (s.moves.forM (Move.perform f)).Yields s.start () d) :
    d.document.Allotted (s.Bares f) := by
  let others := [Pass.paragraphs, .rows, .tables, .repetitions, .words].flatMap fun pass =>
    (s.visit.desks.editsAt pass.desk).map (Move.mk pass)
  let fills := (s.visit.desks.editsAt Pass.fills.desk).map (Move.mk .fills)
  have hmoves : s.moves = others ++ fills := by
    simp [moves, Desks.moves, Pass.all, others, fills]
  have hothers : ∀ m ∈ others, m.pass ≠ .fills := by
    intro m hm
    obtain ⟨pass, hpass, hm⟩ := List.mem_flatMap.1 hm
    obtain ⟨edit, -, rfl⟩ := List.mem_map.1 hm
    rintro rfl
    exact absurd hpass (by decide)
  have hfills : ∀ m ∈ fills, m.pass = .fills := by
    intro m hm
    obtain ⟨edit, -, rfl⟩ := List.mem_map.1 hm
    rfl
  -- Up to the fillings every node has a number, so only these leave some without.
  rw [hmoves] at hyields
  obtain ⟨d₁, hbefore, hafter⟩ := Revision.yields_forM_append.1 hyields
  have hnumbered : d₁.document.Numbered :=
    Revision.forM_induction (P := fun d => d.document.Numbered)
      (fun m _ _ hm hd hy => Move.numbered (hothers m hm.mem) hy hd) h.numbered hbefore
  refine (Move.allotted_fills hfills hafter hnumbered.allotted).congr fun position => ?_
  simp only [false_or, Bares, Reaches, hmoves, Revision.reaches_append_iff hbefore]
  constructor
  · rintro ⟨m, d, hreach, hbares⟩
    exact ⟨m, d, .inr hreach, hfills m hreach.mem, hbares⟩
  · rintro ⟨m, d, hreach | hreach, hpass, hbares⟩
    · exact absurd hpass (hothers m hreach.mem)
    · exact ⟨m, d, hreach, hbares⟩

end Stage

namespace Engine

variable {e : Engine} {scope : Value} {doc doc' : Document} {report : Report}

/-- After a filling, the nodes without a number are the headers in cells that had no
    paragraph, and no other number is there twice. So every node has a number of its own if
    and only if no such header is left. -/
theorem numbered_fill_iff (hregistry : e.registry = .builtin)
    (h : e.fill scope doc = .ok (doc', report)) :
    ∃ (f : Filler) (s : Stage), e.filler = .ok f ∧ s.Of e f scope doc ∧
      doc'.Allotted (s.Bares f) ∧
      (doc'.Numbered ↔ ∀ x ∈ doc'.outline, ¬ x.IsParagraphOf (s.Bares f)) := by
  rw [fill_eq] at h
  obtain ⟨f, hf, h⟩ := Except.bind_eq_ok.1 h
  obtain ⟨s, hs, d, hyields, rfl, -⟩ := exists_stage hregistry h
  have hallotted := (hs.allotted hyields).close e.settings s.visit.skipped
  exact ⟨f, s, hf, hs, hallotted, hallotted.numbered_iff⟩

/-- A table of prices that is going to be filled, with something in the cells for headers. -/
def priceList (header : List Block) : Document where
  body := [.table { rows := [⟨0, [{ content := header }, { content := header }]⟩,
    ⟨0, [.ofParagraph { content := [.rangeStart 1, .run (.ofText "item"), .rangeEnd 1] },
      .ofText "price"]⟩] }]
  comments := [.ofText 1 "resolveTable(prices)"]

/-- What is filled in. -/
def prices : Value :=
  .ofEntries [("prices", .table ⟨["Item", "Price"], [["tea", "2"], ["milk", "1"]]⟩)]

/-- With paragraphs for the headers, all nodes have numbers. -/
theorem numbered_fill_priceList : ∃ doc' report,
    ({} : Engine).fill prices (priceList [.paragraph {}]) = .ok (doc', report) ∧
      doc'.paragraphs.map Paragraph.text = ["Item", "Price", "tea", "2", "milk", "1"] ∧
      doc'.outline.map Placed.id = [1, 2, 3, 4, 8, 9, 10, 11, 12, 13] ∧
      ∃ (f : Filler) (s : Stage), ({} : Engine).filler = .ok f ∧
        s.Of {} f prices (priceList [.paragraph {}]) ∧
          ∀ x ∈ doc'.outline, ¬ x.IsParagraphOf (s.Bares f) := by
  have h : ({} : Engine).fill prices (priceList [.paragraph {}]) = .ok (_, _) :=
    Except.eq_ok_get (by decide +kernel)
  obtain ⟨f, s, hf, hs, -, hiff⟩ := numbered_fill_iff rfl h
  exact ⟨_, _, h, by decide +kernel, by decide +kernel, f, s, hf, hs,
    hiff.1 ⟨by decide +kernel, by decide +kernel⟩⟩

/-- Without paragraphs for the headers, both of them have the number 0. -/
theorem not_numbered_fill_priceList : ∃ doc' report,
    ({} : Engine).fill prices (priceList []) = .ok (doc', report) ∧
      doc'.paragraphs.map Paragraph.text = ["Item", "Price", "tea", "2", "milk", "1"] ∧
      ¬ ((∀ x ∈ doc'.outline, x.id ≠ 0) ∧ (doc'.outline.map Placed.id).Nodup) ∧
      doc'.outline.map Placed.id = [1, 2, 0, 0, 6, 7, 8, 9, 10, 11] :=
  ⟨_, _, Except.eq_ok_get (by decide +kernel), by decide +kernel, by decide +kernel,
    by decide +kernel⟩

end Engine

end DocTemplate
