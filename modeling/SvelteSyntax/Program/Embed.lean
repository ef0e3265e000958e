import SvelteSyntax.Program.Names
import SvelteSyntax.Script.Parser

namespace SvelteSyntax.Program

open Text Script

/-- How a script in a template is read. -/
inductive Slot where
  | expression
  | pattern
  /-- What a `let:` declares. It was read as an expression first. -/
  | letTarget
  | program
  deriving DecidableEq, Repr

/-- Where scripts are read in one way: in a field of some kinds of nodes. -/
structure Handler where
  parents : List String
  field : String
  slot : Slot
  deriving DecidableEq, Repr

def Handler.covers (h : Handler) (p : Parent) : Bool := h.field == p.field && h.parents.contains p.kind

def embedHandlers : List Handler :=
  [⟨expressionParents, "expression", .expression⟩,
   ⟨["Let"], "expression", .letTarget⟩,
   ⟨["EachBlock"], "context", .pattern⟩,
   ⟨["EachBlock"], "key", .expression⟩,
   ⟨["ThenBlock"], "value", .pattern⟩,
   ⟨["CatchBlock"], "error", .pattern⟩,
   ⟨["DebugTag"], "identifiers", .expression⟩,
   ⟨["Script", "ScriptElement"], "content", .program⟩]

structure EmbedContext where
  source : List Char
  index : LineIndex
  parser : ScriptParser

def EmbedContext.lift {α : Type} (ctx : EmbedContext) (result : Except ScriptError α) : Collect α :=
  monadLift (result.mapError (ScriptError.toError ctx.index))

def embedExpression (ctx : EmbedContext) (n : Node) (expected : String) (assignable : Bool) :
    Collect Node := do
  let parsed ← ctx.lift (ctx.parser.expressionAt ctx.source n.start n.stop assignable)
  unless parsed.expression.kind = expected do
    fail (.expressionKindMismatch n.start expected parsed.expression.kind)
  modify (· ++ parsed.streams)
  return parsed.expression

def letKind? : String → Option String
  | "ObjectExpression" => some "ObjectPattern"
  | "ArrayExpression" => some "ArrayPattern"
  | "Identifier" => some "Identifier"
  | _ => none

def embedLet (ctx : EmbedContext) (n : Node) : Collect Node :=
  match letKind? n.kind with
  | some kind => embedExpression ctx n kind true
  | none =>
    throw (.at ctx.index n.start (ticked n.kind ++ " can not be used as a let: binding") .template)

def embedProgram (ctx : EmbedContext) (n : Node) : Collect Node := do
  let parsed ← ctx.lift (ctx.parser.programAt ctx.source n.start n.stop)
  modify (· ++ parsed.streams)
  return parsed.program

def embedSlot (ctx : EmbedContext) (n : Node) : Slot → Collect Node
  | .expression => embedExpression ctx n n.kind false
  | .pattern => embedExpression ctx n n.kind true
  | .letTarget => embedLet ctx n
  | .program => embedProgram ctx n

/-- Every handler for a field parses what is pending there, but only one may. -/
def runHandlers (ctx : EmbedContext) (parent : Option Parent) : List Handler → (replaced : Bool) → Node →
    Collect Step
  | [], replaced, n => return if replaced then .replaced n else .kept n
  | h :: hs, replaced, n => do
    if parent.any h.covers && n.placeholder then
      let n ← embedSlot ctx n h.slot
      if replaced then fail (.conflictingReplacement n.kind n.start)
      runHandlers ctx parent hs true n
    else runHandlers ctx parent hs replaced n

/-- Parses what is pending. -/
def embedPass (ctx : EmbedContext) : Pass Collect where
  enter parent n := runHandlers ctx parent embedHandlers false n
  leave n := return n

/-- Parses what is pending in a tree. What is pending in a parsed tree is only a part of its text, so
there are no more levels than bytes of the source. -/
def embedTree (ctx : EmbedContext) (n : Node) : Collect Node :=
  (embedPass ctx).traverse (byteLength ctx.source + 1) n.depth n

end SvelteSyntax.Program
