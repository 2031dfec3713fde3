import DocTemplate.Proofs.Placeholder.Exact
import Mathlib.Data.List.Chain

/-!
# Merged runs

Merging goes through the items once, and joins a run to the one at the end of those it has seen if
that has the same style. This is a normal form: no two neighbours among the items that it has seen
are runs of one style, which each step keeps, and items like these are left as they are.

* `Paragraph.exactGlyphsOf_foldl_pushMerged`: what is to be seen stays;
* `Paragraph.isChain_foldl_pushMerged`: no two neighbours are runs of one style then;
* `Paragraph.foldl_pushMerged_eq_append`: such items are left as they are;
* `Paragraph.mergeRuns_eq_self_iff`, `Paragraph.mergeRuns_normalizes`: merging in a paragraph.
-/

namespace DocTemplate

namespace Paragraph

open Inline (SameStyle exactGlyphsOf)

/-- No two neighbours are runs of one style. -/
def IsMerged (p : Paragraph) : Prop :=
  p.content.IsChain fun a b => ¬ a.SameStyle b

instance : DecidablePred IsMerged := fun p =>
  inferInstanceAs (Decidable (p.content.IsChain _))

variable {items more : List Inline} {item : Inline}

/-! ## One step -/

theorem exactGlyphsOf_pushMerged (items : List Inline) (item : Inline) :
    exactGlyphsOf (pushMerged items item) = exactGlyphsOf items ++ item.exactGlyphs := by
  rcases pushMerged_cases items item with ⟨front, last, r, rfl, rfl, hstyle, heq⟩ | ⟨-, heq⟩
  · rw [heq]
    simp [Run.exactGlyphs, RunItem.glyphsOf_foldl_pushJoined, hstyle]
  · simp [heq]

/-- A run that takes another one in keeps its style. -/
theorem isChain_pushMerged (h : items.IsChain fun a b => ¬ a.SameStyle b) (item : Inline) :
    (pushMerged items item).IsChain fun a b => ¬ a.SameStyle b := by
  rcases pushMerged_cases items item with ⟨front, last, r, rfl, rfl, hstyle, heq⟩ | ⟨hlast, heq⟩
  · rw [List.isChain_append] at h
    rw [heq, List.isChain_append]
    refine ⟨h.1, .singleton _, fun a ha b hb => ?_⟩
    obtain rfl := Option.some.inj hb
    have hnot := h.2.2 a ha (.run last) rfl
    cases a with
    | run s => exact hnot
    | _ => exact fun h => h
  · rw [heq, List.isChain_append]
    refine ⟨h, .singleton _, fun a ha b hb => ?_⟩
    obtain rfl := Option.some.inj hb
    exact hlast a ha

theorem length_pushMerged_le (items : List Inline) (item : Inline) :
    (pushMerged items item).length ≤ items.length + 1 := by
  rcases pushMerged_cases items item with ⟨front, last, r, rfl, rfl, hstyle, heq⟩ | ⟨-, heq⟩ <;>
    simp [heq]

/-! ## All steps -/

theorem exactGlyphsOf_foldl_pushMerged (items more : List Inline) :
    exactGlyphsOf (more.foldl pushMerged items) = exactGlyphsOf items ++ exactGlyphsOf more := by
  induction more generalizing items with
  | nil => simp
  | cons item more ih => simp [ih, exactGlyphsOf_pushMerged]

theorem isChain_foldl_pushMerged (h : items.IsChain fun a b => ¬ a.SameStyle b)
    (more : List Inline) : (more.foldl pushMerged items).IsChain fun a b => ¬ a.SameStyle b :=
  List.foldlRecOn more pushMerged h fun _ hitems item _ => isChain_pushMerged hitems item

theorem length_foldl_pushMerged_le (items more : List Inline) :
    (more.foldl pushMerged items).length ≤ items.length + more.length := by
  induction more generalizing items with
  | nil => simp
  | cons item more ih =>
    have hitem := length_pushMerged_le items item
    have hmore := ih (pushMerged items item)
    simp only [List.foldl_cons, List.length_cons]
    omega

/-- Where no two neighbours are runs of one style, nothing is joined. -/
theorem foldl_pushMerged_eq_append (h : (items ++ more).IsChain fun a b => ¬ a.SameStyle b) :
    more.foldl pushMerged items = items ++ more := by
  induction more generalizing items with
  | nil => simp
  | cons item more ih =>
    have hpush : pushMerged items item = items ++ [item] := by
      rcases pushMerged_cases items item with ⟨front, last, r, rfl, rfl, hstyle, -⟩ | ⟨-, heq⟩
      · have hnot := (List.isChain_append.1 h).2.2 (.run last) (by simp) (.run r) rfl
        exact absurd hstyle hnot
      · exact heq
    rw [List.foldl_cons, hpush, ih (by simpa using h), List.append_assoc, List.singleton_append]

/-! ## Paragraphs -/

variable {p : Paragraph}

theorem isMerged_mergeRuns (p : Paragraph) : p.mergeRuns.IsMerged :=
  isChain_foldl_pushMerged .nil p.content

theorem mergeRuns_eq_self_iff : p.mergeRuns = p ↔ p.IsMerged := by
  constructor
  · intro h
    rw [← h]
    exact p.isMerged_mergeRuns
  · intro h
    rw [mergeRuns, @foldl_pushMerged_eq_append [] _ h]
    rfl

theorem IsMerged.mergedCount_eq_zero (h : p.IsMerged) : p.mergedCount = 0 := by
  rw [mergedCount, mergeRuns_eq_self_iff.2 h, Nat.sub_self]

/-- The items are the runs and the others. -/
theorem length_content (p : Paragraph) :
    p.content.length = p.runs.length + (Inline.nonRunsOf p.content).length := by
  have hruns : p.runs.length = p.content.countP Inline.isRun := by
    rw [runs, List.length_filterMap_eq_countP]
    exact List.countP_congr fun item _ => by cases item <;> simp [Inline.run?, Inline.isRun]
  rw [hruns, Inline.nonRunsOf, ← List.countP_eq_length_filter,
    List.length_eq_countP_add_countP Inline.isRun]
  simp

/-- The number of items that merging takes away is one of runs. -/
theorem length_runs_mergeRuns (p : Paragraph) :
    p.mergeRuns.runs.length + p.mergedCount = p.runs.length := by
  have hitems := p.length_content
  have hmerged := p.mergeRuns.length_content
  have hle : p.mergeRuns.content.length ≤ 0 + p.content.length :=
    length_foldl_pushMerged_le [] p.content
  rw [nonRunsOf_mergeRuns] at hmerged
  rw [mergedCount]
  omega

/-- Merging changes nothing that is to be seen of a paragraph, leaves no two neighbours that are
    runs of one style, says how many runs it takes away, and changes nothing any more when it is
    done again. -/
theorem mergeRuns_normalizes (p : Paragraph) :
    exactGlyphsOf p.mergeRuns.content = exactGlyphsOf p.content ∧
      p.mergeRuns.IsMerged ∧
      p.mergeRuns.runs.length + p.mergedCount = p.runs.length ∧
      p.mergeRuns.mergeRuns = p.mergeRuns ∧ p.mergeRuns.mergedCount = 0 :=
  ⟨exactGlyphsOf_foldl_pushMerged [] p.content, p.isMerged_mergeRuns, p.length_runs_mergeRuns,
    mergeRuns_eq_self_iff.2 p.isMerged_mergeRuns, p.isMerged_mergeRuns.mergedCount_eq_zero⟩

/-- Texts are joined, but not over a tab or an anchor. -/
example : mergeRuns { content := [.run (.ofText "a"), .run ⟨[.text "b", .tab], {}⟩,
      .run (.ofText "c"), .rangeStart 1, .run (.ofText "d")] } =
    { content := [.run ⟨[.text "ab", .tab, .text "c"], {}⟩, .rangeStart 1, .run (.ofText "d")] } := by
  decide

end Paragraph

end DocTemplate
