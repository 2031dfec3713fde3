import DocTemplate.Comment.Region
import DocTemplate.Comment.Removal
import DocTemplate.Proofs.Cleanup

/-!
# Glyphs

What is to be seen of a paragraph is a sequence of *glyphs*: its characters, the other
items of its runs, and the anchors of comments, each in the style of its run but for the
language. How the glyphs are spread over runs cannot be seen, nor where the marks of
proofing tools are.

Some edits look at a run that may have no glyph: the first one after an anchor, or at the
start. So such a run has its style in the sequence as well, as a *head*
(`Paragraph.headedGlyphs`). Two paragraphs are *interchangeable* if nothing that is done in
a filling tells them apart: they have the same glyphs and the same heads.

* `Paragraph.interchangeable_stripLanguage`, `Paragraph.interchangeable_mergeRuns`: cleaning
  up leaves a paragraph that is interchangeable with what it was;
* `Paragraph.Interchangeable.text`, `Paragraph.Interchangeable.anchors`,
  `Paragraph.Interchangeable.enclosingComments`, `Paragraph.Interchangeable.mem_runItems_iff`:
  what interchangeable paragraphs have in common;
* `Paragraph.Interchangeable.keepAnchors`: they stay so if anchors go.
-/

namespace DocTemplate

/-- An item of two lists is one of the first or one of the second. -/
theorem exists_of_append_eq_append_cons {α : Type} {as bs xs ys : List α} {a : α}
    (h : as ++ bs = xs ++ a :: ys) :
    (∃ zs, as = xs ++ a :: zs ∧ ys = zs ++ bs) ∨ ∃ zs, xs = as ++ zs ∧ bs = zs ++ a :: ys := by
  rcases List.append_eq_append_iff.1 h with h | ⟨zs, has, hys⟩
  · exact .inr h
  · cases zs with
    | nil => exact .inr ⟨[], by simp [has], hys.symm⟩
    | cons b zs =>
      obtain ⟨rfl, rfl⟩ := List.cons_eq_cons.1 hys
      exact .inl ⟨zs, has, rfl⟩

/-- What is to be seen at one place of a paragraph. -/
inductive Glyph where
  /-- The first run after an anchor or at the start, which may be empty. -/
  | head (style : RunStyle)
  | char (c : Char) (style : RunStyle)
  /-- An item of a run that is no text. -/
  | item (i : RunItem) (style : RunStyle)
  /-- An anchor of a comment. -/
  | anchor (a : Inline)
  deriving DecidableEq

namespace Glyph

/-- Whether the glyph is the head of a run. -/
def isHead : Glyph → Bool
  | head _ => true
  | _ => false

/-- The character, of a character. -/
def char? : Glyph → Option Char
  | char c _ => some c
  | _ => none

/-- The anchor, of an anchor. -/
def anchor? : Glyph → Option Inline
  | anchor a => some a
  | _ => none

/-- The style of the run, of a head. -/
def headStyle? : Glyph → Option RunStyle
  | head style => some style
  | _ => none

/-- The characters of some glyphs. -/
def charsOf (gs : List Glyph) : List Char :=
  gs.filterMap char?

/-- The number of bytes of the text of some glyphs. -/
def width (gs : List Glyph) : Nat :=
  Text.width (charsOf gs)

@[simp] theorem charsOf_nil : charsOf [] = [] := rfl

@[simp] theorem charsOf_cons (g : Glyph) (gs : List Glyph) :
    charsOf (g :: gs) = g.char?.toList ++ charsOf gs := by
  cases g <;> rfl

@[simp] theorem charsOf_append (gs hs : List Glyph) : charsOf (gs ++ hs) = charsOf gs ++ charsOf hs :=
  List.filterMap_append

@[simp] theorem charsOf_map_char (cs : List Char) (style : RunStyle) :
    charsOf (cs.map fun c => .char c style) = cs := by
  induction cs with
  | nil => rfl
  | cons c cs ih => simp [char?, ih]

@[simp] theorem width_nil : width [] = 0 := rfl

@[simp] theorem width_append (gs hs : List Glyph) : width (gs ++ hs) = width gs + width hs := by
  simp [width]

/-- Whether there is a run since the last anchor, after another glyph. -/
def opens (opened : Bool) : Glyph → Bool
  | head _ => true
  | anchor _ => false
  | _ => opened

end Glyph

/-! ## Runs -/

namespace RunItem

/-- What is to be seen of an item, in a style. -/
def glyphs (style : RunStyle) : RunItem → List Glyph
  | text s => s.toList.map fun c => .char c style
  | item => [.item item style]

/-- What is to be seen of some items, in a style. -/
def glyphsOf (style : RunStyle) (items : List RunItem) : List Glyph :=
  items.flatMap (glyphs style)

variable {style : RunStyle}

@[simp] theorem glyphsOf_nil : glyphsOf style [] = [] := rfl

@[simp] theorem glyphsOf_cons (item : RunItem) (items : List RunItem) :
    glyphsOf style (item :: items) = item.glyphs style ++ glyphsOf style items :=
  List.flatMap_cons

@[simp] theorem glyphsOf_append (items more : List RunItem) :
    glyphsOf style (items ++ more) = glyphsOf style items ++ glyphsOf style more :=
  List.flatMap_append

@[simp] theorem charsOf_glyphs (item : RunItem) : Glyph.charsOf (item.glyphs style) = item.chars := by
  cases item with
  | text s => exact Glyph.charsOf_map_char _ _
  | _ => rfl

@[simp] theorem charsOf_glyphsOf (items : List RunItem) :
    Glyph.charsOf (glyphsOf style items) = charsOf items := by
  induction items with
  | nil => rfl
  | cons item items ih => simp [ih, charsOf]

/-- What is to be seen of a run are characters and other items. -/
theorem exists_of_mem_glyphsOf {items : List RunItem} {g : Glyph} (h : g ∈ glyphsOf style items) :
    (∃ c, g = .char c style) ∨ ∃ i ∈ items, i.isText = false ∧ g = .item i style := by
  obtain ⟨i, hi, hg⟩ := List.mem_flatMap.1 h
  cases i with
  | text s =>
    obtain ⟨c, -, rfl⟩ := List.mem_map.1 hg
    exact .inl ⟨c, rfl⟩
  | _ => exact .inr ⟨_, hi, rfl, List.mem_singleton.1 hg⟩

theorem opens_of_mem_glyphsOf {items : List RunItem} {g : Glyph} (h : g ∈ glyphsOf style items)
    (opened : Bool) : g.opens opened = opened := by
  rcases exists_of_mem_glyphsOf h with ⟨c, rfl⟩ | ⟨i, -, -, rfl⟩ <;> rfl

theorem isHead_of_mem_glyphsOf {items : List RunItem} {g : Glyph} (h : g ∈ glyphsOf style items) :
    g.isHead = false := by
  rcases exists_of_mem_glyphsOf h with ⟨c, rfl⟩ | ⟨i, -, -, rfl⟩ <;> rfl

theorem anchor?_of_mem_glyphsOf {items : List RunItem} {g : Glyph} (h : g ∈ glyphsOf style items) :
    g.anchor? = none := by
  rcases exists_of_mem_glyphsOf h with ⟨c, rfl⟩ | ⟨i, -, -, rfl⟩ <;> rfl

/-- In a run without content there is nothing to be seen, in whatever style. -/
theorem glyphsOf_eq_nil_of_isEmpty {r : Run} (h : r.isEmpty = true) (style : RunStyle) :
    glyphsOf style r.content = [] := by
  simp only [Run.isEmpty, List.all_eq_true, Bool.and_eq_true, List.isEmpty_iff] at h
  refine List.flatMap_eq_nil_iff.2 fun item hitem => ?_
  obtain ⟨htext, hchars⟩ := h item hitem
  cases item <;> simp_all [isText, chars, glyphs]

theorem glyphsOf_pushJoined (items : List RunItem) (item : RunItem) :
    glyphsOf style (pushJoined items item) = glyphsOf style items ++ item.glyphs style := by
  unfold pushJoined
  split
  · next s t hlast =>
    obtain ⟨init, rfl⟩ := List.getLast?_eq_some_iff.1 hlast
    simp [glyphs]
  · simp

theorem glyphsOf_foldl_pushJoined (items more : List RunItem) :
    glyphsOf style (more.foldl pushJoined items) = glyphsOf style items ++ glyphsOf style more := by
  induction more generalizing items with
  | nil => simp
  | cons item more ih => simp [ih, glyphsOf_pushJoined]

end RunItem

namespace Run

/-- What is to be seen of a run. -/
def glyphs (r : Run) : List Glyph :=
  RunItem.glyphsOf r.style.withoutLang r.content

/-- The head of a run, if there is none since the last anchor. -/
def head (opened : Bool) (r : Run) : List Glyph :=
  if opened then [] else [.head r.style.withoutLang]

variable {r : Run}

@[simp] theorem charsOf_glyphs : Glyph.charsOf r.glyphs = RunItem.charsOf r.content :=
  RunItem.charsOf_glyphsOf r.content

@[simp] theorem charsOf_head (opened : Bool) : Glyph.charsOf (r.head opened) = [] := by
  cases opened <;> rfl

@[simp] theorem head_true : r.head true = [] := rfl

theorem head_congr {r r' : Run} (h : r'.style.withoutLang = r.style.withoutLang) (opened : Bool) :
    r'.head opened = r.head opened := by
  rw [head, head, h]

theorem glyphs_eq_nil_of_isEmpty (h : r.isEmpty = true) : r.glyphs = [] :=
  RunItem.glyphsOf_eq_nil_of_isEmpty h _

end Run

/-! ## Items of paragraphs -/

namespace Inline

/-- What is to be seen of an item: nothing, of a mark of a proofing tool. -/
def glyphs : Inline → List Glyph
  | run r => r.glyphs
  | proof _ => []
  | anchor => [.anchor anchor]

/-- What is to be seen of an item, with the head of a run if there is no run since the last
    anchor (`opened`). -/
def headedGlyphs (opened : Bool) : Inline → List Glyph
  | run r => r.head opened ++ r.glyphs
  | item => item.glyphs

/-- Whether there is a run since the last anchor, after another item. -/
def opens (opened : Bool) : Inline → Bool
  | run _ => true
  | proof _ => opened
  | _ => false

/-- What is to be seen of some items, with heads. -/
def headedGlyphsOf : (opened : Bool) → List Inline → List Glyph
  | _, [] => []
  | opened, item :: items => item.headedGlyphs opened ++ headedGlyphsOf (item.opens opened) items

@[simp] theorem headedGlyphsOf_nil (opened : Bool) : headedGlyphsOf opened [] = [] := rfl

@[simp] theorem headedGlyphsOf_run (opened : Bool) (r : Run) (items : List Inline) :
    headedGlyphsOf opened (run r :: items) =
      r.head opened ++ r.glyphs ++ headedGlyphsOf true items := rfl

@[simp] theorem headedGlyphsOf_proof (opened : Bool) (mark : ProofMark) (items : List Inline) :
    headedGlyphsOf opened (proof mark :: items) = headedGlyphsOf opened items := rfl

theorem headedGlyphsOf_anchor {a : Inline} (ha : a.commentId?.isSome) (opened : Bool)
    (items : List Inline) :
    headedGlyphsOf opened (a :: items) = .anchor a :: headedGlyphsOf false items := by
  cases a <;> first | rfl | cases ha

theorem headedGlyphsOf_append (opened : Bool) (items more : List Inline) :
    headedGlyphsOf opened (items ++ more) =
      headedGlyphsOf opened items ++ headedGlyphsOf (items.foldl opens opened) more := by
  induction items generalizing opened with
  | nil => rfl
  | cons item items ih => simp [headedGlyphsOf, ih]

/-- Whether there is a run since the last anchor can be told from the glyphs. -/
theorem foldl_opens (opened : Bool) (items : List Inline) :
    items.foldl opens opened = (headedGlyphsOf opened items).foldl Glyph.opens opened := by
  have hrun : ∀ (r : Run) (opened : Bool), r.glyphs.foldl Glyph.opens opened = opened := by
    intro r opened
    have h : ∀ g ∈ r.glyphs, g.opens opened = opened := fun g hg =>
      RunItem.opens_of_mem_glyphsOf hg opened
    generalize r.glyphs = gs at h
    induction gs with
    | nil => rfl
    | cons g gs ih =>
      rw [List.foldl_cons, h g List.mem_cons_self]
      exact ih fun g hg => h g (List.mem_cons_of_mem _ hg)
  induction items generalizing opened with
  | nil => rfl
  | cons item items ih =>
    rw [List.foldl_cons, headedGlyphsOf, List.foldl_append, ih]
    congr 1
    cases item with
    | run r => cases opened <;> simp [opens, headedGlyphs, Run.head, Glyph.opens, hrun]
    | _ => rfl

@[simp] theorem charsOf_headedGlyphsOf (opened : Bool) (items : List Inline) :
    Glyph.charsOf (headedGlyphsOf opened items) = items.flatMap chars := by
  induction items generalizing opened with
  | nil => rfl
  | cons item items ih =>
    cases item <;> simp [headedGlyphsOf, headedGlyphs, glyphs, chars, Glyph.char?, ih]

theorem filter_headedGlyphsOf (opened : Bool) (items : List Inline) :
    (headedGlyphsOf opened items).filter (fun g => !g.isHead) = items.flatMap glyphs := by
  have hrun : ∀ r : Run, r.glyphs.filter (fun g => !g.isHead) = r.glyphs := by
    intro r
    refine List.filter_eq_self.2 fun g hg => ?_
    rw [RunItem.isHead_of_mem_glyphsOf hg]
    rfl
  induction items generalizing opened with
  | nil => rfl
  | cons item items ih =>
    rw [headedGlyphsOf, List.filter_append, ih, List.flatMap_cons]
    congr 1
    cases item with
    | run r =>
      rw [headedGlyphs, glyphs, List.filter_append, hrun]
      cases opened <;> rfl
    | _ => rfl

/-- Every glyph is one of an item. -/
theorem exists_item_of_glyph {opened : Bool} {items : List Inline} {pre post : List Glyph} {g : Glyph}
    (h : headedGlyphsOf opened items = pre ++ g :: post) :
    ∃ before item after left right, items = before ++ item :: after ∧
      item.headedGlyphs (before.foldl opens opened) = left ++ g :: right ∧
      pre = headedGlyphsOf opened before ++ left ∧
      post = right ++ headedGlyphsOf (item.opens (before.foldl opens opened)) after := by
  induction items generalizing opened pre with
  | nil => simp at h
  | cons item items ih =>
    have hlater : ∀ rest, headedGlyphsOf (item.opens opened) items = rest ++ g :: post →
        ∃ before item' after left right, item :: items = before ++ item' :: after ∧
          item'.headedGlyphs (before.foldl opens opened) = left ++ g :: right ∧
          item.headedGlyphs opened ++ rest = headedGlyphsOf opened before ++ left ∧
          post = right ++ headedGlyphsOf (item'.opens (before.foldl opens opened)) after := by
      intro rest hrest
      obtain ⟨before, item', after, left, right, rfl, hitem, rfl, hpost⟩ := ih hrest
      exact ⟨item :: before, item', after, left, right, rfl, hitem, by simp [headedGlyphsOf], hpost⟩
    rw [headedGlyphsOf] at h
    rcases List.append_eq_append_iff.1 h with ⟨rest, rfl, hrest⟩ | ⟨gs, hitem, hrest⟩
    · exact hlater rest hrest
    · cases gs with
      | nil =>
        rw [List.append_nil] at hitem
        rw [← hitem]
        simpa using hlater [] hrest.symm
      | cons g' gs =>
        obtain ⟨rfl, rfl⟩ := List.cons_eq_cons.1 hrest
        exact ⟨[], item, items, pre, gs, rfl, hitem, rfl, rfl⟩

/-- Every character is one of a run. -/
theorem exists_run_of_char {opened : Bool} {items : List Inline} {pre post : List Glyph} {c : Char}
    {style : RunStyle} (h : headedGlyphsOf opened items = pre ++ .char c style :: post) :
    ∃ before r after left right, items = before ++ .run r :: after ∧
      r.glyphs = left ++ .char c style :: right ∧
      pre = headedGlyphsOf opened before ++ r.head (before.foldl opens opened) ++ left ∧
      post = right ++ headedGlyphsOf true after := by
  obtain ⟨before, item, after, left, right, rfl, hitem, rfl, rfl⟩ := exists_item_of_glyph h
  cases item with
  | run r =>
    -- The head of the run is no character.
    obtain ⟨rest, rfl, hr⟩ : ∃ rest, left = r.head (before.foldl opens opened) ++ rest ∧
        r.glyphs = rest ++ .char c style :: right := by
      rw [headedGlyphs, Run.head] at hitem
      rw [Run.head]
      split at hitem
      · next hopened => exact ⟨left, by rw [if_pos hopened]; rfl, hitem⟩
      · next hopened =>
        cases left with
        | nil => cases (List.cons_eq_cons.1 hitem).1
        | cons g rest =>
          obtain ⟨rfl, hr⟩ := List.cons_eq_cons.1 hitem
          exact ⟨rest, by rw [if_neg hopened]; rfl, hr⟩
    exact ⟨before, r, after, rest, right, rfl, hr, by simp, rfl⟩
  | proof mark => simp [headedGlyphs, glyphs] at hitem
  | _ =>
    have hmem : Glyph.char c style ∈ left ++ .char c style :: right := by simp
    rw [← hitem] at hmem
    cases List.mem_singleton.1 hmem

/-- Every anchor that is seen is an item. -/
theorem exists_item_of_anchor {opened : Bool} {items : List Inline} {pre post : List Glyph}
    {a : Inline} (h : headedGlyphsOf opened items = pre ++ .anchor a :: post) :
    ∃ before after, items = before ++ a :: after ∧ a.commentId?.isSome ∧
      pre = headedGlyphsOf opened before ∧ post = headedGlyphsOf false after := by
  obtain ⟨before, item, after, left, right, rfl, hitem, rfl, rfl⟩ := exists_item_of_glyph h
  cases item with
  | run r =>
    have hmem : Glyph.anchor a ∈ (run r).headedGlyphs (before.foldl opens opened) := by
      rw [hitem]
      simp
    rcases List.mem_append.1 hmem with hmem | hmem
    · rw [Run.head] at hmem
      split at hmem
      · cases hmem
      · cases List.mem_singleton.1 hmem
    · rcases RunItem.exists_of_mem_glyphsOf hmem with ⟨c, h⟩ | ⟨i, -, -, h⟩ <;> cases h
  | proof mark => simp [headedGlyphs, glyphs] at hitem
  | _ =>
    obtain ⟨rfl, hrest⟩ := List.append_eq_singleton_iff.1 hitem.symm |>.resolve_right (by simp)
    obtain ⟨ha, rfl⟩ := List.cons_eq_cons.1 hrest
    cases ha
    exact ⟨before, after, rfl, rfl, by simp, rfl⟩

end Inline

/-! ## Paragraphs -/

/-- The formatting without the language of the mark. -/
def ParagraphStyle.withoutLang (s : ParagraphStyle) : ParagraphStyle :=
  { s with markStyle := s.markStyle.withoutLang }

namespace Paragraph

/-- What is to be seen of a paragraph. -/
def glyphs (p : Paragraph) : List Glyph :=
  p.content.flatMap Inline.glyphs

/-- What is to be seen of a paragraph, with the heads of runs. -/
def headedGlyphs (p : Paragraph) : List Glyph :=
  Inline.headedGlyphsOf false p.content

/-- The paragraphs look alike, languages and proofing marks aside. -/
structure Alike (p q : Paragraph) : Prop where
  id : q.id = p.id
  style : q.style.withoutLang = p.style.withoutLang
  glyphs : q.glyphs = p.glyphs

/-- Nothing that is done in a filling tells the paragraphs apart. -/
structure Interchangeable (p q : Paragraph) : Prop where
  id : q.id = p.id
  style : q.style.withoutLang = p.style.withoutLang
  headedGlyphs : q.headedGlyphs = p.headedGlyphs

namespace Interchangeable

variable {p q r : Paragraph}

theorem refl (p : Paragraph) : p.Interchangeable p := ⟨rfl, rfl, rfl⟩

theorem symm (h : p.Interchangeable q) : q.Interchangeable p :=
  ⟨h.id.symm, h.style.symm, h.headedGlyphs.symm⟩

theorem trans (h : p.Interchangeable q) (h' : q.Interchangeable r) : p.Interchangeable r :=
  ⟨h'.id.trans h.id, h'.style.trans h.style, h'.headedGlyphs.trans h.headedGlyphs⟩

theorem alike (h : p.Interchangeable q) : p.Alike q where
  id := h.id
  style := h.style
  glyphs := by
    rw [Paragraph.glyphs, Paragraph.glyphs, ← Inline.filter_headedGlyphsOf false,
      ← Inline.filter_headedGlyphsOf false]
    exact congrArg _ h.headedGlyphs

end Interchangeable

/-! ### Cleaning up -/

theorem interchangeable_stripLanguage (p : Paragraph) : p.Interchangeable p.stripLanguage where
  id := rfl
  style := rfl
  headedGlyphs := by
    have hitems : ∀ (items : List Inline) (opened : Bool),
        Inline.headedGlyphsOf opened ((items.filter fun item => !item.isProof).map
          (Inline.mapRun fun r => { r with style := r.style.withoutLang })) =
            Inline.headedGlyphsOf opened items := by
      intro items
      induction items with
      | nil => exact fun _ => rfl
      | cons item items ih =>
        intro opened
        cases item with
        | proof mark => exact ih opened
        | run r => exact congrArg (r.head opened ++ r.glyphs ++ ·) (ih true)
        | _ => exact congrArg (Glyph.anchor _ :: ·) (ih false)
    exact hitems p.content false

/-- An item that is added joins the last one without a change of the glyphs. -/
theorem headedGlyphsOf_pushMerged (opened : Bool) (items : List Inline) (item : Inline) :
    Inline.headedGlyphsOf opened (pushMerged items item) =
      Inline.headedGlyphsOf opened (items ++ [item]) := by
  rcases pushMerged_cases items item with ⟨front, last, r, rfl, rfl, hstyle, heq⟩ | ⟨-, heq⟩
  · have hglyphs : Run.glyphs { last with
        content := r.content.foldl RunItem.pushJoined last.content } = last.glyphs ++ r.glyphs := by
      rw [Run.glyphs, RunItem.glyphsOf_foldl_pushJoined, Run.glyphs, Run.glyphs, hstyle]
    simp [heq, Inline.headedGlyphsOf_append, hglyphs, Run.head]
  · rw [heq]

theorem interchangeable_mergeRuns (p : Paragraph) : p.Interchangeable p.mergeRuns where
  id := rfl
  style := rfl
  headedGlyphs := by
    have hfold : ∀ more items : List Inline,
        Inline.headedGlyphsOf false (more.foldl pushMerged items) =
          Inline.headedGlyphsOf false (items ++ more) := by
      intro more
      induction more with
      | nil => simp
      | cons item more ih =>
        intro items
        rw [List.foldl_cons, ih, Inline.headedGlyphsOf_append, List.append_cons items,
          Inline.headedGlyphsOf_append _ (items ++ [item]), Inline.foldl_opens, Inline.foldl_opens,
          headedGlyphsOf_pushMerged]
    exact hfold p.content []

/-! ### What the glyphs tell -/

theorem anchors_eq_filterMap_headedGlyphs (p : Paragraph) :
    p.anchors = p.headedGlyphs.filterMap Glyph.anchor? := by
  have hrun : ∀ r : Run, r.glyphs.filterMap Glyph.anchor? = [] := fun r =>
    List.filterMap_eq_nil_iff.2 fun _ hg => RunItem.anchor?_of_mem_glyphsOf hg
  have hitems : ∀ (items : List Inline) (opened : Bool),
      items.filter (fun item => item.commentId?.isSome) =
        (Inline.headedGlyphsOf opened items).filterMap Glyph.anchor? := by
    intro items
    induction items with
    | nil => exact fun _ => rfl
    | cons item items ih =>
      intro opened
      cases item with
      | run r =>
        rw [Inline.headedGlyphsOf_run, List.filterMap_append, List.filterMap_append, hrun, ← ih]
        cases opened <;> rfl
      | proof mark => exact ih opened
      | _ => exact congrArg (_ :: ·) (ih false)
  exact hitems p.content false

end Paragraph

/-- The comments that enclose text among some glyphs, where the range of each comment in
    `opened` is open, and has text in it or not. -/
def Glyph.enclosing (opened : List (CommentId × Bool)) : List Glyph → List CommentId
  | [] => []
  | .anchor (.rangeStart id) :: gs => enclosing ((id, false) :: opened) gs
  | .anchor (.rangeEnd id) :: gs =>
    let rest := enclosing (opened.filter fun o => o.1 != id) gs
    if opened.lookup id = some true then id :: rest else rest
  | .char _ _ :: gs => enclosing (opened.map fun o => (o.1, true)) gs
  | _ :: gs => enclosing opened gs

/-- A text lies in every range that is open. -/
theorem RunItem.enclosing_glyphsOf (style : RunStyle) (items : List RunItem)
    (opened : List (CommentId × Bool)) (gs : List Glyph) :
    Glyph.enclosing opened (glyphsOf style items ++ gs) =
      Glyph.enclosing (if Text.width (charsOf items) = 0 then opened
        else opened.map fun o => (o.1, true)) gs := by
  have hchars : ∀ (cs : List Char) (opened : List (CommentId × Bool)) (gs : List Glyph),
      Glyph.enclosing opened (cs.map (fun c => .char c style) ++ gs) =
        Glyph.enclosing (if cs = [] then opened else opened.map fun o => (o.1, true)) gs := by
    intro cs
    induction cs with
    | nil => exact fun _ _ => rfl
    | cons c cs ih =>
      intro opened gs
      rw [List.map_cons, List.cons_append, Glyph.enclosing, ih]
      split <;> simp [Function.comp_def]
  have hwidth : ∀ cs : List Char, Text.width cs = 0 ↔ cs = [] := by
    intro cs
    refine ⟨fun h => ?_, fun h => by rw [h]; rfl⟩
    by_contra hne
    exact absurd h (Nat.ne_of_gt (Text.width_pos hne))
  induction items generalizing opened with
  | nil => rfl
  | cons item items ih =>
    rw [glyphsOf_cons, List.append_assoc]
    cases item with
    | text s =>
      rw [glyphs, hchars, ih]
      simp only [hwidth, charsOf, List.flatMap_cons, chars, List.append_eq_nil_iff]
      by_cases hs : s.toList = [] <;> by_cases hitems : items.flatMap chars = [] <;>
        simp [hs, hitems, Function.comp_def]
    | _ => exact ih opened

namespace Paragraph

theorem enclosing_headedGlyphsOf (o : Bool) (items : List Inline)
    (opened : List (CommentId × Bool)) :
    Glyph.enclosing opened (Inline.headedGlyphsOf o items) = enclosing opened items := by
  induction items generalizing o opened with
  | nil => rfl
  | cons item items ih =>
    cases item with
    | run r =>
      have hhead : ∀ gs, Glyph.enclosing opened (r.head o ++ gs) = Glyph.enclosing opened gs := by
        intro gs
        cases o <;> rfl
      rw [Inline.headedGlyphsOf_run, List.append_assoc, hhead, Run.glyphs,
        RunItem.enclosing_glyphsOf, ih]
      rfl
    | rangeStart id => exact ih false _
    | rangeEnd id =>
      rw [enclosing, ← ih false]
      rfl
    | reference id => exact ih false _
    | proof mark => exact ih o _

/-- The first run of a paragraph has a head. -/
theorem headStyle?_eq_headedGlyphs (p : Paragraph) :
    p.runs.head?.map (fun r => r.style.withoutLang) =
      p.headedGlyphs.findSome? Glyph.headStyle? := by
  have hitems : ∀ items : List Inline,
      (items.filterMap Inline.run?).head?.map (fun r => r.style.withoutLang) =
        (Inline.headedGlyphsOf false items).findSome? Glyph.headStyle? := by
    intro items
    induction items with
    | nil => rfl
    | cons item items ih => cases item <;> first | rfl | exact ih
  exact hitems p.content

theorem mem_runItems_iff_headedGlyphs {p : Paragraph} {i : RunItem} (hi : i.isText = false) :
    i ∈ p.runItems ↔ ∃ style, .item i style ∈ p.headedGlyphs := by
  have hrun : ∀ r : Run, i ∈ r.content ↔ ∃ style, .item i style ∈ r.glyphs := by
    intro r
    constructor
    · intro h
      refine ⟨r.style.withoutLang, List.mem_flatMap.2 ⟨i, h, ?_⟩⟩
      cases i with
      | text s => cases hi
      | _ => exact List.mem_singleton_self _
    · rintro ⟨style, h⟩
      rcases RunItem.exists_of_mem_glyphsOf h with ⟨c, h⟩ | ⟨j, hj, -, h⟩
      · cases h
      · cases h
        exact hj
  have hitems : ∀ (items : List Inline) (opened : Bool),
      i ∈ (items.filterMap Inline.run?).flatMap Run.content ↔
        ∃ style, .item i style ∈ Inline.headedGlyphsOf opened items := by
    intro items
    induction items with
    | nil => simp
    | cons item items ih =>
      intro opened
      cases item with
      | run r =>
        have hhead : ∀ style, .item i style ∉ r.head opened := by
          intro style
          cases opened <;> simp [Run.head]
        simp only [List.filterMap_cons, Inline.run?, List.flatMap_cons, List.mem_append,
          Inline.headedGlyphsOf_run, hhead, false_or, exists_or]
        exact or_congr (hrun r) (ih true)
      | proof mark => exact ih opened
      | _ =>
        rw [Inline.headedGlyphsOf_anchor rfl]
        simpa [Inline.run?] using ih false
  exact hitems p.content false

end Paragraph

/-- The glyphs without heads of runs that do not come first after an anchor. -/
def Glyph.settle : (opened : Bool) → List Glyph → List Glyph
  | _, [] => []
  | opened, g :: gs =>
    if opened && g.isHead then settle opened gs else g :: settle (g.opens opened) gs

/-- Whether a glyph stays if only some anchors are kept. -/
def Glyph.isKept (keep : CommentId → Bool) (g : Glyph) : Bool :=
  (g.anchor?.bind Inline.commentId?).all keep

theorem RunItem.filter_isKept (style : RunStyle) (items : List RunItem) (keep : CommentId → Bool) :
    (glyphsOf style items).filter (Glyph.isKept keep) = glyphsOf style items := by
  refine List.filter_eq_self.2 fun g hg => ?_
  rcases exists_of_mem_glyphsOf hg with ⟨c, rfl⟩ | ⟨i, -, -, rfl⟩ <;> rfl

theorem RunItem.settle_glyphsOf (style : RunStyle) (items : List RunItem) (opened : Bool)
    (gs : List Glyph) : Glyph.settle opened (glyphsOf style items ++ gs) =
      glyphsOf style items ++ Glyph.settle opened gs := by
  have h : ∀ g ∈ glyphsOf style items, g.isHead = false ∧ g.opens opened = opened :=
    fun g hg => ⟨isHead_of_mem_glyphsOf hg, opens_of_mem_glyphsOf hg opened⟩
  generalize glyphsOf style items = hs at h
  induction hs with
  | nil => rfl
  | cons g hs ih =>
    obtain ⟨hhead, hopens⟩ := h g List.mem_cons_self
    simp [Glyph.settle, hhead, hopens, ih fun g hg => h g (List.mem_cons_of_mem _ hg)]

namespace Paragraph

theorem headedGlyphs_keepAnchors (keep : CommentId → Bool) (p : Paragraph) :
    (p.keepAnchors keep).headedGlyphs =
      Glyph.settle false (p.headedGlyphs.filter (Glyph.isKept keep)) := by
  -- Once anchors are gone, there may be a run since the last one where there was none.
  have hitems : ∀ (items : List Inline) (opened opened' : Bool), (opened = true → opened' = true) →
      Inline.headedGlyphsOf opened' (items.filter fun item => item.commentId?.all keep) =
        Glyph.settle opened' ((Inline.headedGlyphsOf opened items).filter (Glyph.isKept keep)) := by
    intro items
    induction items with
    | nil => exact fun _ _ _ => rfl
    | cons item items ih =>
      intro opened opened' hopened
      have hanchor : ∀ {a : Inline}, a.commentId?.isSome →
          Inline.headedGlyphsOf opened' ((a :: items).filter fun item => item.commentId?.all keep) =
            Glyph.settle opened'
              ((Inline.headedGlyphsOf opened (a :: items)).filter (Glyph.isKept keep)) := by
        intro a ha
        have hkept : Glyph.isKept keep (.anchor a) = a.commentId?.all keep := rfl
        rw [Inline.headedGlyphsOf_anchor ha, List.filter_cons, List.filter_cons, hkept]
        split
        · rw [Inline.headedGlyphsOf_anchor ha, ih false false fun h => h]
          simp [Glyph.settle, Glyph.isHead, Glyph.opens]
        · exact ih false opened' nofun
      cases item with
      | run r =>
        change Inline.headedGlyphsOf opened' (.run r ::
          items.filter fun item => item.commentId?.all keep) = _
        rw [Inline.headedGlyphsOf_run, Inline.headedGlyphsOf_run, ih true true fun h => h,
          List.filter_append, List.filter_append, Run.glyphs, RunItem.filter_isKept,
          List.append_assoc, List.append_assoc]
        cases opened with
        | true =>
          rw [hopened rfl]
          exact (RunItem.settle_glyphsOf _ _ _ _).symm
        | false =>
          cases opened' with
          | true => exact (RunItem.settle_glyphsOf _ _ _ _).symm
          | false => exact congrArg (Glyph.head _ :: ·) (RunItem.settle_glyphsOf _ _ _ _).symm
      | proof mark => exact ih opened opened' hopened
      | _ => exact hanchor rfl
  exact hitems p.content false false fun h => h

/-! ### What interchangeable paragraphs have in common -/

namespace Interchangeable

variable {p q : Paragraph} (h : p.Interchangeable q)

include h

theorem text : q.text = p.text := by
  rw [← String.toList_inj, toList_text, toList_text, ← Inline.charsOf_headedGlyphsOf false,
    ← Inline.charsOf_headedGlyphsOf false]
  exact congrArg Glyph.charsOf h.headedGlyphs

theorem sectionBreak : q.style.sectionBreak = p.style.sectionBreak :=
  (congrArg ParagraphStyle.sectionBreak h.style : q.style.withoutLang.sectionBreak = _)

theorem endsSection : q.endsSection = p.endsSection :=
  congrArg Option.isSome h.sectionBreak

theorem anchors : q.anchors = p.anchors := by
  rw [anchors_eq_filterMap_headedGlyphs, anchors_eq_filterMap_headedGlyphs, h.headedGlyphs]

theorem enclosingComments : q.enclosingComments = p.enclosingComments := by
  rw [Paragraph.enclosingComments, Paragraph.enclosingComments, ← enclosing_headedGlyphsOf false,
    ← enclosing_headedGlyphsOf false]
  exact congrArg _ h.headedGlyphs

/-- The first runs have the same style but for the language, if there are any. -/
theorem headStyle : ((q.runs.head?.map Run.style).getD {}).withoutLang =
    ((p.runs.head?.map Run.style).getD {}).withoutLang := by
  have hheads : q.runs.head?.map (fun r => r.style.withoutLang) =
      p.runs.head?.map (fun r => r.style.withoutLang) := by
    rw [headStyle?_eq_headedGlyphs, headStyle?_eq_headedGlyphs, h.headedGlyphs]
  have hgetD : ∀ o : Option Run, ((o.map Run.style).getD {}).withoutLang =
      (o.map fun r => r.style.withoutLang).getD {} := by
    intro o
    cases o <;> rfl
  rw [hgetD, hgetD, hheads]

theorem mem_runItems_iff {i : RunItem} (hi : i.isText = false) :
    i ∈ q.runItems ↔ i ∈ p.runItems := by
  rw [mem_runItems_iff_headedGlyphs hi, mem_runItems_iff_headedGlyphs hi, h.headedGlyphs]

/-- They stay so if anchors go. -/
theorem keepAnchors (keep : CommentId → Bool) :
    (p.keepAnchors keep).Interchangeable (q.keepAnchors keep) where
  id := h.id
  style := h.style
  headedGlyphs := by
    rw [headedGlyphs_keepAnchors, headedGlyphs_keepAnchors, h.headedGlyphs]

end Interchangeable

end Paragraph

end DocTemplate
