import DocTemplate.Directive.Registry

/-!
# Engines

An engine fills documents. It has settings, an environment for expressions,
renderers of its own that are tried before the built-in ones, and a registry of
handlers. Whatever a filling changes is in the document it gives back, so one
engine may fill any number of documents.
-/

namespace DocTemplate

/-- What documents are filled by. -/
structure Engine where
  settings : Settings := {}
  /-- What expressions may use. -/
  environment : Environment := {}
  /-- The renderers tried before the built-in ones. -/
  renderers : List Renderer := []
  /-- The handlers of directives. -/
  registry : Registry := .builtin

namespace Engine

variable (e : Engine)

/-- The engine with a renderer that is tried after those added before. -/
def addRenderer (r : Renderer) : Engine :=
  { e with renderers := e.renderers ++ [r] }

/-- The engine with a function, in place of the one with its name. -/
def addFunction (f : Function) : Engine :=
  { e with environment := e.environment.addFunction f }

/-- The engine with an accessor that is asked after those added before. -/
def addAccessor (a : Accessor) : Engine :=
  { e with environment := e.environment.addAccessor a }

/-- The engine with a handler that commits after those added before. -/
def addHandler (h : Handler) : Except Error Engine :=
  (e.registry.register h).map fun registry => { e with registry }

/-- What fills the placeholders; an error if the delimiters are not usable. -/
def filler : Except Error Filler := do
  let delimiters ← Delimiters.make e.settings.opening e.settings.closing
  return {
    delimiters
    evaluate := e.environment.evaluate
    renderers := e.renderers ++ Renderer.builtin
    settings := e.settings }

end Engine

end DocTemplate
