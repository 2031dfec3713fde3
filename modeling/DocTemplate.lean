import DocTemplate.Proofs.Engine.Allotment
import DocTemplate.Proofs.Engine.Evaluation
import DocTemplate.Proofs.Engine.Nesting
import DocTemplate.Proofs.Engine.Parallel
import DocTemplate.Proofs.Engine.Recovery
import DocTemplate.Proofs.Engine.SectionBreak
import DocTemplate.Proofs.Engine.Tables
import DocTemplate.Proofs.Placeholder.Survival
import DocTemplate.Settings.Snapshot
import DocTemplate.Proofs.Engine.Application
import DocTemplate.Proofs.Document.Prune
import DocTemplate.Proofs.Directive.Display
import DocTemplate.Proofs.Engine.Display
import DocTemplate.Proofs.Placeholder.Bounds
import DocTemplate.Proofs.Expr.Quoting
import DocTemplate.Proofs.Directive.Sequence
import DocTemplate.Proofs.Placeholder.Enclosure
import DocTemplate.Proofs.Directive.Rewording
import DocTemplate.Proofs.Directive.Count
import DocTemplate.Proofs.Comment.Enclosure
import DocTemplate.Proofs.Engine.Rewording
import DocTemplate.Proofs.Expr.Relevance
import DocTemplate.Proofs.Expr.Failure
import DocTemplate.Proofs.Placeholder.Failure
import DocTemplate.Proofs.Engine.Relevance
import DocTemplate.Proofs.Engine.Failure
import DocTemplate.Proofs.Placeholder.Note
import DocTemplate.Proofs.Directive.Note
import DocTemplate.Proofs.Engine.Note
import DocTemplate.Proofs.Directive.Untouched
import DocTemplate.Proofs.Engine.Untouched
import DocTemplate.Proofs.Document.Snapshot
import DocTemplate.Proofs.Document.History
import DocTemplate.Proofs.Expr.Grammar
import DocTemplate.Proofs.Expr.Legible
import DocTemplate.Proofs.Placeholder.Scan
import DocTemplate.Proofs.Comment.Thread
import DocTemplate.Proofs.Placeholder.Outcome
import DocTemplate.Proofs.Document.Traversal
import DocTemplate.Proofs.Directive.TableFill
import DocTemplate.Proofs.Placeholder.LineBreak
import DocTemplate.Proofs.Directive.WordRange
import DocTemplate.Proofs.Document.Merging
import DocTemplate.Proofs.Document.Preparation
import DocTemplate.Proofs.Expr.Arithmetic
import DocTemplate.Proofs.Document.Splitting
import DocTemplate.Proofs.Document.Spans
import DocTemplate.Proofs.Document.BrokenText
import DocTemplate.Proofs.Directive.Registry
import DocTemplate.Proofs.Placeholder.Safety
