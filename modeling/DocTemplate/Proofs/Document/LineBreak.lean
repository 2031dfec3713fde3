import DocTemplate.Proofs.Document.BrokenText
import DocTemplate.Proofs.Placeholder.Exact
import DocTemplate.Proofs.Pointwise
import DocTemplate.Proofs.Text.Replacement

/-!
# Line breaks for a literal

A line break takes the place of each occurrence of a literal that is found from the left, and all
else stays (`Glyph.Breaks`). In one text this is what `RunItem.breakLines` does. In a run it is
done to each text by itself, so it is right exactly if no occurrence is spread over several
texts of the run (`Run.Spreads`). Such an occurrence is left as it is, although nothing is
between its parts.

* `RunItem.breaks_breakLines`: line breaks in a text;
* `Glyph.Breaks.not_hasLiteral`: nothing is left of the literal where all occurrences became line
  breaks;
* `Run.breaks_breakLines_iff`, `Inline.allBroken_iff`: line breaks in runs.
-/

namespace DocTemplate

namespace Glyph

/-- A line break takes the place of each occurrence of a literal in a style, found from the left
    and without overlap. All else stays. -/
def Breaks (style : RunStyle) (literal : String) (gs out : List Glyph) : Prop :=
  ∃ parts, Text.Cuts ((RunItem.text literal).glyphs style) gs parts ∧
    out = Text.replaced (.item .lineBreak style) ((RunItem.text literal).glyphs style) parts

end Glyph

namespace RunItem

variable {style : RunStyle} {literal s : String} {items : List RunItem}

/-- Texts that come one after the other have the literal in them. -/
def HasLiteral (literal : String) (items : List RunItem) : Prop :=
  ∃ texts : List String, texts.map text <:+: items ∧ literal.toList <:+: (String.join texts).toList

theorem item_not_mem_glyphs_text (i : RunItem) (s : String) :
    Glyph.item i style ∉ (text s).glyphs style := by
  simp [glyphs]

theorem glyphs_text_ne_nil (hs : s ≠ "") : (text s).glyphs style ≠ [] := by
  rw [glyphs, Ne, List.map_eq_nil_iff, String.toList_eq_nil_iff]
  exact hs

theorem glyphsOf_map_text (texts : List String) :
    glyphsOf style (texts.map text) = (String.join texts).toList.map fun c => .char c style := by
  rw [String.toList_join]
  induction texts with
  | nil => rfl
  | cons s texts ih => simp [ih, glyphs]

/-- The literal is in the glyphs if it is in texts that come one after the other. -/
theorem HasLiteral.infix_glyphsOf (h : HasLiteral literal items) :
    (text literal).glyphs style <:+: glyphsOf style items := by
  obtain ⟨texts, htexts, hliteral⟩ := h
  have hglyphs := hliteral.map fun c => Glyph.char c style
  rw [← glyphsOf_map_text] at hglyphs
  exact hglyphs.trans (htexts.flatMap _)

/-- The glyphs of pieces with line breaks between them. -/
theorem glyphsOf_ofPieces (pieces : List String) :
    glyphsOf style (ofPieces pieces) = [Glyph.item .lineBreak style].intercalate
      (pieces.map fun s => s.toList.map fun c => .char c style) := by
  have hpiece : ∀ s : String, glyphsOf style (ofPiece s) = s.toList.map fun c => .char c style := by
    intro s
    by_cases h : s = "" <;> simp [ofPiece, h, glyphs]
  induction pieces with
  | nil => rfl
  | cons s pieces ih =>
    cases pieces with
    | nil => simp [ofPieces_singleton, hpiece]
    | cons t pieces =>
      simp only [List.map_cons, List.intercalate_cons_cons] at ih ⊢
      simp [ofPieces_cons_cons, ih, hpiece, glyphs]

/-- The glyphs of a text with line breaks for a literal that is not empty. -/
theorem glyphsOf_breakLines (hne : literal ≠ "") (s : String) :
    glyphsOf style (breakLines (some literal) s) = [Glyph.item .lineBreak style].intercalate
      ((Text.pieces literal.toList s.toList).map (List.map fun c => Glyph.char c style)) := by
  rw [← Text.map_toList_splitOn, List.map_map]
  refine Eq.trans ?_ (glyphsOf_ofPieces (Text.splitOn s literal))
  rw [breakLines_some hne]
  split
  · next hnil =>
    rw [List.isEmpty_iff.1 hnil]
    rfl
  · rfl

/-- An empty literal stands for nothing. -/
theorem breaks_empty (style : RunStyle) (gs : List Glyph) : Glyph.Breaks style "" gs gs := by
  have hnil : Text.Cuts ((text "").glyphs style) [] [] := .nil
  obtain ⟨hcuts, hreplaced⟩ : _ ∧ ∀ new, _ = gs ++ _ :=
    hnil.singletons_append fun _ _ _ _ hbegins => hbegins.1 rfl
  rw [List.append_nil] at hcuts
  exact ⟨_, hcuts, by rw [hreplaced]; simp⟩

/-- The line breaks in a text are those for the literal of the settings, if there is one. -/
theorem breaks_breakLines (style : RunStyle) (literal : Option String) (s : String) :
    Glyph.Breaks style (literal.getD "") ((text s).glyphs style)
      (glyphsOf style (breakLines literal s)) := by
  by_cases hne : literal.getD "" = ""
  · have hl : ∀ l ∈ literal, l = "" := by
      rintro l rfl
      exact hne
    rw [hne, breakLines_of_no_literal hl, glyphsOf_cons, glyphsOf_nil, List.append_nil]
    exact breaks_empty style _
  · cases literal with
    | none => exact absurd rfl hne
    | some l =>
      have hneedle : l.toList ≠ [] := mt String.toList_eq_nil_iff.1 hne
      obtain ⟨parts, hcuts, hreplaced⟩ := Text.exists_cuts_pieces
        (f := fun c => Glyph.char c style) (fun _ _ h => by cases h; rfl) hneedle s.toList
      exact ⟨parts, hcuts, (glyphsOf_breakLines hne s).trans (hreplaced _).symm⟩

/-! ## Items -/

/-- An item with line breaks for the literal, if it is a text. -/
def withBreaks (literal : Option String) : RunItem → List RunItem
  | text s => breakLines literal s
  | item => [item]

/-- In an item that is no text there is no literal. -/
theorem breaks_item {i : RunItem} (hi : i.isText = false) (style : RunStyle) (literal : String) :
    Glyph.Breaks style literal (i.glyphs style) (i.glyphs style) := by
  have hglyphs : i.glyphs style = [.item i style] := by
    cases i with
    | text s => cases hi
    | _ => rfl
  have hnot : ¬ Text.Begins ((text literal).glyphs style) [Glyph.item i style] := by
    rintro ⟨hne, hhead⟩
    obtain ⟨g, rest, hcons⟩ := List.exists_cons_of_ne_nil hne
    have hmem : g ∈ (text literal).glyphs style := by simp [hcons]
    rw [hcons, List.cons_prefix_cons] at hhead
    exact item_not_mem_glyphs_text i literal (hhead.1 ▸ hmem)
  rw [hglyphs]
  exact ⟨_, .other hnot .nil, by rw [Text.replaced_of_not_begins hnot, Text.replaced_nil]⟩

/-- Every item has the line breaks that it should have by itself. -/
theorem breaks_withBreaks (style : RunStyle) (literal : String) (i : RunItem) :
    Glyph.Breaks style literal (i.glyphs style) (glyphsOf style (i.withBreaks (some literal))) := by
  cases i with
  | text s => exact breaks_breakLines style (some literal) s
  | _ =>
    rw [withBreaks, glyphsOf_cons, glyphsOf_nil, List.append_nil]
    · exact breaks_item rfl style literal
    · nofun

/-- The items are cut one by one, and what is left of them is put together. -/
theorem exists_cuts_withBreaks (style : RunStyle) (literal : String) (items : List RunItem) :
    ∃ cuts, List.Forall₂ (Text.Cuts ((text literal).glyphs style)) (items.map (glyphs style)) cuts ∧
      glyphsOf style (items.flatMap (withBreaks (some literal))) =
        Text.replaced (.item .lineBreak style) ((text literal).glyphs style) cuts.flatten := by
  induction items with
  | nil => exact ⟨[], .nil, rfl⟩
  | cons i items ih =>
    obtain ⟨cuts, hcuts, hitems⟩ := ih
    obtain ⟨parts, hparts, hreplaced⟩ := breaks_withBreaks style literal i
    refine ⟨parts :: cuts, .cons hparts hcuts, ?_⟩
    rw [List.flatMap_cons, glyphsOf_append, hreplaced, hitems, List.flatten_cons,
      Text.replaced_append]

end RunItem

/-- Nothing is left of the literal where all its occurrences became line breaks. -/
theorem Glyph.Breaks.not_hasLiteral {style : RunStyle} {literal : String} {gs : List Glyph}
    {items : List RunItem} (h : Breaks style literal gs (RunItem.glyphsOf style items))
    (hne : literal ≠ "") : ¬ RunItem.HasLiteral literal items := by
  intro hhas
  obtain ⟨parts, hcuts, hreplaced⟩ := h
  have hinfix := @hhas.infix_glyphsOf style
  rw [hreplaced] at hinfix
  exact hcuts.not_infix_replaced (RunItem.glyphs_text_ne_nil hne)
    (RunItem.item_not_mem_glyphs_text .lineBreak literal) hinfix

/-! ## Runs -/

namespace Run

variable {r : Run} {literal : String}

/-- An occurrence of the literal that is found in the run goes over the end of an item, so that it
    is spread over several texts. -/
def Spreads (literal : String) (r : Run) : Prop :=
  Text.Spreads ((RunItem.text literal).glyphs r.style) (r.content.map (RunItem.glyphs r.style))

theorem content_breakLines (literal : Option String) (r : Run) :
    (r.breakLines literal).content = r.content.flatMap (RunItem.withBreaks literal) :=
  rfl

/-- Line breaks in each text by itself are line breaks in the run, exactly if no occurrence of the
    literal is spread over several texts. -/
theorem breaks_breakLines_iff (r : Run) :
    Glyph.Breaks r.style literal r.exactGlyphs (r.breakLines (some literal)).exactGlyphs ↔
      ¬ r.Spreads literal := by
  obtain ⟨cuts, hcuts, hitems⟩ := RunItem.exists_cuts_withBreaks r.style literal r.content
  obtain ⟨parts, hparts⟩ :=
    Text.exists_cuts ((RunItem.text literal).glyphs r.style) r.exactGlyphs
  have hiff := Text.replaced_eq_iff hcuts hparts
    (@RunItem.item_not_mem_glyphs_text r.style .lineBreak literal)
  rw [← hitems] at hiff
  refine Iff.trans ⟨?_, fun h => ⟨parts, hparts, h⟩⟩ hiff
  rintro ⟨parts', hparts', hreplaced⟩
  obtain rfl := hparts.unique hparts'
  exact hreplaced

/-- In no text by itself is anything left of the literal. -/
theorem not_hasLiteral_text (hne : literal ≠ "") {s : String}
    (hs : .text s ∈ (r.breakLines (some literal)).content) :
    ¬ RunItem.HasLiteral literal [.text s] := by
  rw [content_breakLines] at hs
  obtain ⟨i, -, hi⟩ := List.mem_flatMap.1 hs
  have hnot := (RunItem.breaks_withBreaks {} literal i).not_hasLiteral hne
  rintro ⟨texts, htexts, hliteral⟩
  exact hnot ⟨texts, htexts.trans ((List.singleton_infix_iff _ _).2 hi), hliteral⟩

end Run

/-! ## Items of paragraphs -/

namespace Inline

variable {literal : String} {items items' : List Inline}

/-- The item is the same with line breaks for all occurrences of a literal, if it is a run. -/
inductive Broken (literal : String) : Inline → Inline → Prop
  | run {r r' : Run} (style : r'.style = r.style)
      (glyphs : Glyph.Breaks r.style literal r.exactGlyphs r'.exactGlyphs) :
      Broken literal (.run r) (.run r')
  | other {item : Inline} (h : item.isRun = false) : Broken literal item item

/-- All occurrences of a literal in runs became line breaks, and nothing else changed. So nothing
    is left of the literal. -/
structure AllBroken (literal : String) (items items' : List Inline) : Prop where
  broken : List.Forall₂ (Broken literal) items items'
  gone : ∀ r, .run r ∈ items' → ¬ RunItem.HasLiteral literal r.content

theorem broken_run_iff {r r' : Run} : Broken literal (.run r) (.run r') ↔
    r'.style = r.style ∧ Glyph.Breaks r.style literal r.exactGlyphs r'.exactGlyphs := by
  constructor
  · rintro (⟨hstyle, hglyphs⟩ | h)
    · exact ⟨hstyle, hglyphs⟩
    · cases h
  · exact fun ⟨hstyle, hglyphs⟩ => .run hstyle hglyphs

/-- Nothing is left of the literal if all its occurrences became line breaks. -/
theorem allBroken_iff_forall₂ (hne : literal ≠ "") :
    AllBroken literal items items' ↔ List.Forall₂ (Broken literal) items items' := by
  refine ⟨AllBroken.broken, fun h => ⟨h, fun r hr => ?_⟩⟩
  obtain ⟨item, -, hitem⟩ := h.exists_of_mem_right hr
  cases hitem with
  | run hstyle hglyphs =>
    rw [Run.exactGlyphs, Run.exactGlyphs, hstyle] at hglyphs
    exact hglyphs.not_hasLiteral hne
  | other h => cases h

/-- Line breaks in each text by itself are all of them, exactly if no occurrence of the literal is
    spread over several texts of a run. -/
theorem allBroken_iff (hne : literal ≠ "") (items : List Inline) :
    AllBroken literal items (items.map (mapRun (Run.breakLines (some literal)))) ↔
      ∀ r, .run r ∈ items → ¬ r.Spreads literal := by
  rw [allBroken_iff_forall₂ hne, List.forall₂_map_right_iff, List.forall₂_same]
  constructor
  · intro h r hr
    rw [← Run.breaks_breakLines_iff]
    exact (broken_run_iff.1 (h (.run r) hr)).2
  · intro h item hitem
    cases item with
    | run r => exact .run rfl ((r.breaks_breakLines_iff).2 (h r hitem))
    | _ => exact .other rfl

end Inline

end DocTemplate
