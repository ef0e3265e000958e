import SvelteSyntax.Script.Grammar.Modules
import SvelteSyntax.Script.Parser

namespace SvelteSyntax.Script

open Text

def grammar : (depth : Nat) → Grammar
  | 0 => .none
  | depth + 1 =>
    { expression := fun s => expressionRule (grammar depth) s
      assignment := fun allowType s => assignmentRule (grammar depth) allowType s
      binary := fun limit s => binaryRule (grammar depth) limit s
      unary := fun s => unaryRule (grammar depth) s
      leftHandSide := fun s => leftHandSideRule (grammar depth) s
      statement := fun alone s => statementRule (grammar depth) alone s
      pattern := fun s => patternRule (grammar depth) s
      type := fun s => typeRule (grammar depth) s }

/-- A grammar deep enough for every text of the length: a rule that calls another one without
consuming a character does so only a few times in a row. -/
def grammarFor (text : List Char) : Grammar := grammar (16 * (text.length + 4))

def initialState? (dialect : Dialect) (offset : Nat) (text : List Char) : Option State :=
  let (token, here, after) := nextToken (!dialect.module) true offset text
  if token.lexeme = .invalid then none
  else some { token, here, after, lastStop := 0, dialect, context := { awaits := dialect.module } }

/-- Whether nothing is left that refuses the text. -/
def State.isAccepted (s : State) : Bool := !s.faulty && s.initialisers.isEmpty

/-- Runs a rule on a text; what follows the part it takes is left alone. -/
def run? {α : Type} (rule : Parse α) (start : State) : Option α := do
  let (result, s) ← rule start
  if s.isAccepted then some result else none

def readExpression? (dialect : Dialect) (text : List Char) : Option Syntax := do
  run? (expressionRule (grammarFor text)) (← initialState? dialect 0 text)

/-- The first line of a text may say which program reads it. -/
def skipInterpreterLine : List Char → Nat × List Char
  | '#' :: '!' :: cs =>
    let line := cs.takeWhile (!isLineTerminator ·)
    (2 + byteLength line, cs.drop line.length)
  | cs => (0, cs)

def readProgram? (dialect : Dialect) (text : List Char) : Option SyntaxProgram := do
  let (offset, rest) := skipInterpreterLine text
  run? (programRule (grammarFor text)) (← initialState? dialect offset rest)

/-- Whether all parameters stand behind the start of the text. -/
def paramsBehind (x : Syntax) : Bool :=
  (x.params?.getD []).all fun p => p.nodes.all fun y => decide (0 < y.span.start ∧ 0 < y.span.stop)

/-- The names in a program with their places. -/
def namedPlaces (p : SyntaxProgram) : List (Span × String) :=
  p.nodes.filterMap fun y => y.name?.map (y.span, ·)

/-- Whether no two names stand at one place. -/
def namesUnique (p : SyntaxProgram) : Bool :=
  let places := namedPlaces p
  places.all fun a => places.all fun b => a.1 != b.1 || a.2 == b.2

theorem of_namesUnique {p : SyntaxProgram} (h : namesUnique p) {y z : Syntax} (hy : y ∈ p.nodes)
    (hz : z ∈ p.nodes) (hspan : y.span = z.span) {name name' : String} (hname : y.name? = some name)
    (hname' : z.name? = some name') : name = name' := by
  have hmem : ∀ {x name}, x ∈ p.nodes → x.name? = some name → (x.span, name) ∈ namedPlaces p := by
    intro x name hx hname
    exact List.mem_filterMap.mpr ⟨x, hx, by rw [hname]; rfl⟩
  have hall := List.all_eq_true.mp (List.all_eq_true.mp h _ (hmem hy hname)) _ (hmem hz hname')
  simpa [hspan] using hall

theorem of_paramsBehind {x : Syntax} {params : List Syntax} (h : paramsBehind x)
    (hparams : x.params? = some params) {p y : Syntax} (hp : p ∈ params) (hy : y ∈ p.nodes) :
    0 < y.span.start ∧ 0 < y.span.stop := by
  rw [paramsBehind, hparams] at h
  exact of_decide_eq_true (List.all_eq_true.mp (List.all_eq_true.mp h p hp) y hy)

/-- The parser of the grammar. A tree with names or parameters out of place is refused. -/
def javascript : Frontend where
  expression? dialect text :=
    (readExpression? dialect text).filter fun x => !text.head?.any (· == '(') || paramsBehind x
  program? dialect text := (readProgram? dialect text).filter namesUnique
  params_behind h hparams p hp y hy := by
    obtain ⟨-, hbehind⟩ := Option.filter_eq_some_iff.mp h
    exact of_paramsBehind (by simpa using hbehind) hparams hp hy
  name_unique h y hy z hz hspan name name' hname hname' :=
    of_namesUnique (Option.filter_eq_some_iff.mp h).2 hy hz hspan hname hname'

def parser (options : Options) : ScriptParser := javascript.parser options

end SvelteSyntax.Script
