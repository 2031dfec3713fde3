/-!
# Styles

The formatting of runs and paragraphs, and the layout of sections. None of it
is interpreted: styles are copied with the text they belong to, and compared
for equality when neighbouring runs are merged.

Each closed list of choices has its names (`name`) and all its elements
(`all`), from which documents are read and written.
-/

namespace DocTemplate

/-- The position of text relative to its line. -/
inductive VerticalAlign where
  | baseline | superscript | subscript
  deriving DecidableEq, Repr, Inhabited

namespace VerticalAlign

/-- Every position. -/
def all : List VerticalAlign := [baseline, superscript, subscript]

/-- The name of a position. -/
def name : VerticalAlign → String
  | baseline => "baseline"
  | superscript => "superscript"
  | subscript => "subscript"

end VerticalAlign

/-- The formatting of a run. -/
structure RunStyle where
  /-- The named style it is based on. -/
  styleId : Option String := none
  bold : Bool := false
  italic : Bool := false
  underline : Bool := false
  strikethrough : Bool := false
  verticalAlign : VerticalAlign := .baseline
  fontName : Option String := none
  /-- The size in half-points. -/
  fontSize : Option UInt32 := none
  color : Option String := none
  highlight : Option String := none
  /-- The language tag for proofing tools. -/
  lang : Option String := none
  deriving DecidableEq, Repr, Inhabited

namespace RunStyle

/-- Whether the style changes the look of the letters. -/
def hasStyling (s : RunStyle) : Bool :=
  s.bold || s.italic || s.underline || s.strikethrough || s.verticalAlign != .baseline

/-- The style without its language tag. -/
def withoutLang (s : RunStyle) : RunStyle :=
  { s with lang := none }

end RunStyle

/-- The alignment of the lines of a paragraph. -/
inductive Alignment where
  | left | center | right | justify
  deriving DecidableEq, Repr, Inhabited

namespace Alignment

/-- Every alignment. -/
def all : List Alignment := [left, center, right, justify]

/-- The name of an alignment. -/
def name : Alignment → String
  | left => "left"
  | center => "center"
  | right => "right"
  | justify => "justify"

end Alignment

/-- Where a section starts, relative to the one before it. -/
inductive SectionStart where
  | nextPage | continuous | evenPage | oddPage | nextColumn
  deriving DecidableEq, Repr, Inhabited

namespace SectionStart

/-- Every start. -/
def all : List SectionStart := [nextPage, continuous, evenPage, oddPage, nextColumn]

/-- The name of a start. -/
def name : SectionStart → String
  | nextPage => "next_page"
  | continuous => "continuous"
  | evenPage => "even_page"
  | oddPage => "odd_page"
  | nextColumn => "next_column"

end SectionStart

/-- The orientation of pages. -/
inductive Orientation where
  | portrait | landscape
  deriving DecidableEq, Repr, Inhabited

namespace Orientation

/-- Both orientations. -/
def all : List Orientation := [portrait, landscape]

/-- The name of an orientation. -/
def name : Orientation → String
  | portrait => "portrait"
  | landscape => "landscape"

end Orientation

/-- The layout of a section. It belongs to the paragraph that ends the section,
    or to the document for the last one. -/
structure SectionLayout where
  start : SectionStart := .nextPage
  pageWidth : Option UInt32 := none
  pageHeight : Option UInt32 := none
  orientation : Orientation := .portrait
  /-- The number of columns of text. -/
  columns : UInt8 := 1
  deriving DecidableEq, Repr, Inhabited

/-- The formatting of a paragraph. -/
structure ParagraphStyle where
  /-- The named style it is based on. -/
  styleId : Option String := none
  alignment : Alignment := .left
  /-- The formatting of the mark at the end of the paragraph. -/
  markStyle : RunStyle := {}
  /-- The layout of the section that the paragraph ends, if it ends one. -/
  sectionBreak : Option SectionLayout := none
  deriving DecidableEq, Repr, Inhabited

end DocTemplate
