import DocTemplate.Directive.Dispatch

/-!
# Plans

Before a document is filled, its comments are interpreted, in the order in which
their ranges start. Replies are not interpreted. Nor is a comment that starts in
a *deferred* paragraph: a paragraph in the region of an earlier comment whose
directive takes care of the placeholders itself. So of two such regions that
overlap, the first wins.
-/

namespace DocTemplate

/-- What is to be done with the comments of a document. -/
structure Plan where
  /-- The comments to be dispatched, in the order of their starts. -/
  entries : List (Region × List Call) := []
  /-- The paragraphs whose placeholders are left to an edit. -/
  deferred : List NodeId := []
  /-- The comments skipped, each once. -/
  skipped : List CommentId := []

namespace Plan

/-- Whether a comment is interpreted. -/
def interprets (plan : Plan) (region : Region) : Bool :=
  region.parent.isNone && !plan.deferred.contains region.start

/-- The plan with another comment, of which the calls are known; `none` for a
    comment to skip. -/
def add (registry : Registry) (doc : Document) (plan : Plan) (region : Region) :
    Option (List Call) → Plan
  | none => { plan with skipped := plan.skipped.insert region.id }
  | some calls =>
    let defers := calls.any fun call => registry.defers call.name.toString
    { plan with
      entries := plan.entries ++ [(region, calls)]
      deferred := if defers then plan.deferred ++ region.paragraphIds doc else plan.deferred }

/-- The plan after one more comment. -/
def step (registry : Registry) (settings : Settings) (doc : Document) (plan : Plan)
    (region : Region) : Except Error Plan :=
  if plan.interprets region then
    (registry.interpret settings region.text).map (plan.add registry doc region)
  else
    .ok plan

/-- The plan for a document. -/
def ofDocument (registry : Registry) (settings : Settings) (doc : Document) : Except Error Plan :=
  doc.regions.foldlM (step registry settings doc) {}

/-- The comments to be dispatched at a paragraph. -/
def entriesAt (plan : Plan) (id : NodeId) : List (Region × List Call) :=
  plan.entries.filter fun entry => entry.1.start = id

end Plan

end DocTemplate
