import SvelteSyntax.Component.Analysis

namespace SvelteSyntax.Component

open Text Markup

structure Place where
  line : Nat
  column : Nat
  offset : Nat
  deriving DecidableEq, Repr, Inhabited

structure Warning where
  code : String
  message : String
  start : Place
  stop : Place
  deriving DecidableEq, Repr, Inhabited

/-- A warning that is not positioned yet. -/
structure Remark where
  code : String
  message : String
  span : Span

def Place.at (index : LineIndex) (offset : Nat) : Except Fault Place := do
  let p ← locate index offset
  return ⟨p.line, p.column, offset⟩

def Remark.toWarning (index : LineIndex) (r : Remark) : Except Fault Warning := do
  return ⟨r.code, r.message, ← Place.at index r.span.start, ← Place.at index r.span.stop⟩

/-- The names a template may use without declaring them. -/
def knownGlobals : List String :=
  ["Array", "Boolean", "Date", "Error", "Infinity", "Intl", "JSON", "Map", "Math", "NaN", "Number",
   "Object", "Promise", "RegExp", "Set", "String", "Symbol", "decodeURIComponent",
   "encodeURIComponent", "isNaN", "parseFloat", "parseInt", "undefined", "alert", "console",
   "document", "globalThis", "localStorage", "location", "navigator", "window"]

/-- The plain elements in a tree of at most the given depth, parents first. -/
def elementsWithin : Nat → Node → List Node
  | 0, _ => []
  | depth + 1, n =>
    (if n.is "Element" then [n] else []) ++
      n.fields.flatMap fun (key, value) =>
        if key = "attributes" then []
        else match value with
          | .node child => elementsWithin depth child
          | .nodes children => children.flatMap (elementsWithin depth)
          | _ => []

def elementsOf (n : Node) : List Node := elementsWithin n.depth n

def remarkOn (n : Node) (code message : String) : Remark := ⟨code, message, ⟨n.start, n.stop⟩⟩

def elementRemarks (element : Node) : List Remark :=
  match element.string? "name" with
  | none => []
  | some name =>
    let attributes := element.children "attributes"
    let named (wanted : String) : Option Node :=
      attributes.find? fun a => a.is "Attribute" && a.string? "name" == some wanted
    let distracting :=
      if name == "blink" || name == "marquee" then
        [remarkOn element "a11y-distracting-elements" ("A11y: Avoid <" ++ name ++ "> elements")]
      else []
    let unlabelled :=
      if name == "img" && !attributes.any (·.is "Spread") && (named "alt").isNone then
        [remarkOn element "a11y-missing-attribute"
          "A11y: <img> element should have an alt attribute"]
      else []
    let focused := (named "autofocus").toList.map
      (remarkOn · "a11y-autofocus" "A11y: Avoid using autofocus")
    distracting ++ unlabelled ++ focused

def Variable.isUnusedProperty (v : Variable) : Bool :=
  v.exportName.isSome && v.writable && !v.module && !v.referenced && !v.referencedFromScript

def unusedRemarks (table : Table) : List Remark :=
  (table.vars.filter Variable.isUnusedProperty).filterMap fun v =>
    (table.declaration? v.name).map fun span =>
      ⟨"unused-export-let",
       "Component has unused export property '" ++ v.name ++
        "'. If it is for external reference only, please consider using `export const " ++
        v.name ++ "`", span⟩

def undeclaredRemarks (template : Template) (undeclared : List (String × Nat)) : List Remark :=
  if template.instanceScript.isNone then []
  else
    (undeclared.filter fun (name, _) =>
      !knownGlobals.contains name && !startsWith "$$".toList name.toList).map fun (name, offset) =>
        ⟨"missing-declaration", "'" ++ name ++ "' is not defined", spanOf offset name.toList⟩

def Warning.le (a b : Warning) : Bool :=
  a.start.offset < b.start.offset ||
    (a.start.offset == b.start.offset && a.stop.offset ≤ b.stop.offset)

/-- The warnings about a component, by their places. -/
def warnings (index : LineIndex) (template : Template) (analysis : Analysis) :
    Except Fault (List Warning) := do
  let remarks := (elementsOf template.html).flatMap elementRemarks ++
    unusedRemarks analysis.table ++ undeclaredRemarks template analysis.undeclared
  return (← remarks.mapM (Remark.toWarning index)).mergeSort Warning.le

end SvelteSyntax.Component
