import SvelteSyntax.Component.Variable
import SvelteSyntax.Markup.Parser
import SvelteSyntax.Script.Usage

namespace SvelteSyntax.Component

open Text Markup Script

/-- A name that a top-level statement declares. -/
structure Declared where
  name : String
  span : Span
  writable : Bool := false
  exported : Bool := false

def declaredBy (x : Syntax) : List Declared :=
  let writable := x matches .variables _ "var" _ | .variables _ "let" _
  x.declaredNames.map fun (span, name) => { name, span, writable }

/-- The variable that a part of an import declares. -/
def imported? : Syntax → Option Declared
  | .importSpecifier _ _ (.binding span name) | .importDefault _ (.binding span name)
  | .importNamespace _ (.binding span name) => some { name, span }
  | _ => none

/-- The names a top-level statement declares. -/
def declaredAt : Syntax → List Declared
  | .importDeclaration _ specifiers _ => specifiers.filterMap imported?
  | .exportNamed _ (some declaration) _ _ =>
    (declaredBy declaration).map ({ · with exported := true })
  | x => declaredBy x

def exportPair? : Syntax → Option (String × String)
  | .exportSpecifier _ name exported => do return (← name.exportName?, ← exported.exportName?)
  | _ => none

/-- The names that a statement exports without declaring them, each with the name it gets. -/
def exportsOf : Syntax → List (String × String)
  | .exportNamed _ _ specifiers none => specifiers.filterMap exportPair?
  | _ => []

/-- The variable that a reactive statement assigns to. An assignment in parentheses is none. -/
def reactive? : Syntax → Option String
  | .labeled _ (.word _ "$") (.expressionStatement _ (.assignment _ _ (.reference _ name) _)) => some name
  | _ => none

/-- A script of the component: its statements, where it starts in the component, and the uses of names
in it. -/
structure ScriptFacts where
  module : Bool
  offset : Nat
  statements : List Syntax
  uses : List Use

def readScript (js : Frontend) (options : Options) (source : List Char) (module : Bool) (script : Node) :
    Except CompileError (Option ScriptFacts) := do
  let some content := script.child? "content" | return none
  match js.program? options.dialect (content.text source) with
  | none => throw { code := "parse-error", message := refusal, offset := content.start }
  | some p => return some { module, offset := content.start, statements := p.statements, uses := p.uses }

/-- A place in a script as one in the component. -/
def ScriptFacts.place (script : ScriptFacts) (span : Span) : Span :=
  ⟨span.start + script.offset, span.stop + script.offset⟩

def Table.declareScript (t : Table) (script : ScriptFacts) : Table :=
  (script.statements.flatMap declaredAt).foldl (fun t d =>
    t.declare
      { name := d.name, exportName := if d.exported then some d.name else none, module := script.module,
        writable := d.writable }
      (script.place d.span)) t

def Table.export (t : Table) (names : String × String) : Table :=
  t.update names.1 ({ · with exportName := some names.2 })

def Table.useInScript (t : Table) : Use → Table
  | .reads name _ => (t.subscribe name).update name ({ · with referencedFromScript := true })
  | .binds _ => t
  | .reassigns name => t.update name ({ · with reassigned := true })
  | .mutates name => t.update name ({ · with mutated := true })

def isRead (use : Use) : Bool := use matches .reads ..

/-- The names read and the names written by a script; the writes come after all reads. -/
def Table.useScript (t : Table) (script : ScriptFacts) : Table :=
  let (reads, others) := script.uses.partition isRead
  (reads ++ others).foldl Table.useInScript t

def freeReads (uses : List Use) : List (String × Nat) :=
  uses.filterMap fun
    | .reads name offset => if uses.contains (.binds name) then none else some (name, offset)
    | _ => none

structure TemplateReads where
  table : Table
  undeclared : List (String × Nat) := []

def TemplateReads.note (r : TemplateReads) (name : String) (offset : Nat) : TemplateReads :=
  let table := r.table.subscribe name
  if table.has name then { r with table := table.update name ({ · with referenced := true }) }
  else { table, undeclared := r.undeclared ++ [(name, offset)] }

def TemplateReads.expression (js : Frontend) (options : Options) (source : List Char) (sites : Sites)
    (r : TemplateReads) (span : Span) : Except CompileError TemplateReads :=
  match js.expression? options.dialect ((slice? span.start span.stop source).getD []) with
  | none => .error { code := "parse-error", message := refusal, offset := span.start }
  | some x =>
    .ok <| (freeReads x.uses).foldl (fun r (name, offset) =>
      if sites.declared.any (·.1 == name) then r else r.note name (offset + span.start)) r

/-- The variable that a binding writes to, and whether it replaces its value. -/
def bindingTarget? (js : Frontend) (options : Options) (source : List Char) (span : Span) :
    Option (String × Bool) := do
  let x ← js.expression? options.dialect ((slice? span.start span.stop source).getD [])
  return (← x.root?, x matches .reference ..)

def Table.bind (js : Frontend) (options : Options) (source : List Char) (sites : Sites) (t : Table)
    (span : Span) : Table :=
  match bindingTarget? js options source span with
  | none => t
  | some (name, replaces) =>
    if sites.declared.any (·.1 == name) then t
    else t.useInScript (if replaces then .reassigns name else .mutates name)

/-- The variables of a component and the template's reads of undeclared names. -/
abbrev Analysis := TemplateReads

/-- What the scripts of a template say, the module script first. -/
def readScripts (js : Frontend) (options : Options) (source : List Char) (template : Template) :
    Except CompileError (List ScriptFacts) :=
  [(true, template.moduleScript), (false, template.instanceScript)].filterMapM
    fun (module, script) =>
      match script with
      | none => return none
      | some script => readScript js options source module script

/-- The variables that the scripts declare, assign to in reactive statements, or read. -/
def Table.ofScripts (scripts : List ScriptFacts) : Table :=
  let statements := scripts.flatMap ScriptFacts.statements
  let table := scripts.foldl Table.declareScript {}
  let table := (statements.flatMap exportsOf).foldl Table.export table
  let table := (statements.filterMap reactive?).foldl Table.inject table
  scripts.foldl Table.useScript table

def Analysis.ofScripts (js : Frontend) (options : Options) (source : List Char) (sites : Sites)
    (scripts : List ScriptFacts) : Except CompileError Analysis := do
  let r ← sites.expressions.foldlM (TemplateReads.expression js options source sites)
    { table := .ofScripts scripts }
  return { r with table := sites.bindings.foldl (Table.bind js options source sites) r.table }

def analyze (js : Frontend) (options : Options) (source : List Char) (parsed : Markup.Parsed) :
    Except CompileError Analysis := do
  let scripts ← readScripts js options source parsed.template
  Analysis.ofScripts js options source parsed.sites scripts

end SvelteSyntax.Component
