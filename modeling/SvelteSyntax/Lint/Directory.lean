import SvelteSyntax.Lint.Report

namespace SvelteSyntax.Lint

/-- A path as the names from the root of the directory down to the file. -/
abbrev Path := List String

structure File where
  path : Path
  content : ByteArray

inductive Outcome where
  | reports (rs : List Report)
  | failed (e : Error)
  /-- The content is not text in UTF-8. -/
  | notText

/-- What follows the last dot of a name, unless the name starts with that dot. -/
def extensionOf? (name : List Char) : Option (List Char) :=
  let back := name.reverse
  let ext := back.takeWhile (· ≠ '.')
  match back.drop ext.length with
  | _ :: _ :: _ => some ext.reverse
  | _ => none

def File.hasExtension (f : File) (extensions : List String) : Bool :=
  match f.path.getLast?.bind fun name => extensionOf? name.toList with
  | some ext => extensions.contains (String.ofList ext)
  | none => false

/-- Paths are compared name by name. -/
def pathLe : Path → Path → Bool
  | [], _ => true
  | _ :: _, [] => false
  | a :: as, b :: bs => if a = b then pathLe as bs else decide (a < b)

def lintFile (config : Config) (f : File) : Outcome :=
  match String.fromUTF8? f.content with
  | none => .notText
  | some text =>
    match lint config text.toList with
    | .ok rs => .reports rs
    | .error e => .failed e

def lintDirectory (config : Config) (root : Path) (files : List File) :
    List (Path × Outcome) :=
  let wanted := files.filter fun f => root.isPrefixOf f.path && f.hasExtension config.extensions
  (wanted.mergeSort fun a b => pathLe a.path b.path).map fun f => (f.path, lintFile config f)

end SvelteSyntax.Lint
