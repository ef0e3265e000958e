import SvelteSyntax.Component.Variable
import SvelteSyntax.Scoping.Graph

namespace SvelteSyntax.Scoping

namespace Graph

def topLevel? (g : Graph) (name : String) : Option VariableId :=
  (g.variableIn? globalScope name).or
    (g.moduleScope?.bind fun module => g.variableIn? module name)

def matching (g : Graph) (v : Component.Variable) : Except Fault (VariableId × Graph) :=
  match g.topLevel? v.name with
  | some id => .ok (id, g)
  | none =>
    if v.injected then .ok (g.declare globalScope v.name ⟨.injected, 0, 0, "Program"⟩)
    else .error (.missingCompilerVariable v.name)

def applyVariable (g : Graph) (v : Component.Variable) : Except Fault Graph := do
  let (id, g) ← g.matching v
  let g ← if v.exportName.isSome then g.hoist id globalScope else pure g
  return g.modifyVariable id fun w =>
    { w with
      writable := v.writable
      injected := w.injected || v.injected
      used := w.used || v.referenced || v.exportName.isSome }

/-- The graph that knows the variables of the component. -/
def applyVariables (g : Graph) (vs : List Component.Variable) : Except Fault Graph := do
  return (← vs.foldlM applyVariable g).resolveThrough

end Graph

end SvelteSyntax.Scoping
