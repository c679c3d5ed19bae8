import TimedPattern.Expression.Build
import TimedPattern.Expression.Written

/-!
# Patterns

A pattern is a chain of steps and a name: `step -> step => name`. Reading one reports the leftmost
fault, once there is exactly one `=>`.
-/

namespace TimedPattern

structure Pattern where
  name : String
  steps : List Expression
  deriving BEq

namespace Pattern

/-! ## Reading -/

/-- Cuts lexemes into steps. With each step goes the place where it ends. -/
def cut (stop : Nat) : List Lexeme → List (List Lexeme × Nat)
  | [] => [([], stop)]
  | l :: rest =>
    if l.isSymbol .next then ([], l.position) :: cut stop rest
    else
      match cut stop rest with
      | (step, stop) :: others => (l :: step, stop) :: others
      | [] => [([l], stop)]

/-- Compiles steps from left to right. A step must not be empty. -/
def compile (d : Defaults) (registry : Registry) :
    List (List Lexeme × Nat) → Except PatternError (List Expression) × Registry
  | [] => (.ok [], registry)
  | ([], stop) :: _ => (.error ⟨.emptyStep, stop⟩, registry)
  | (lexemes, _) :: rest =>
    match Expression.ofLexemes d registry lexemes with
    | (.error e, registry) => (.error e, registry)
    | (.ok step, registry) =>
      let (steps, registry) := compile d registry rest
      (steps.map (step :: ·), registry)

/-- The name after `=>`, trimmed first and then freed of its escapes. -/
def nameAfter (result : Lexeme) (text : List Char) : String :=
  let written := Text.trim (Text.dropBytes (result.position + Symbol.result.spelling.length) text)
  String.ofList ((Glyph.read 0 written).map Glyph.char)

/-- Reads a pattern. The registry gains the names that were met, also if there is a fault. -/
def parse (d : Defaults) (registry : Registry) (text : String) :
    Except PatternError Pattern × Registry :=
  let lexemes := Lexeme.ofText text
  match lexemes.filter (·.isSymbol .result) with
  | [] => (.error ⟨.missingResult, text.utf8ByteSize⟩, registry)
  | [result] =>
    let body := lexemes.takeWhile (! ·.isSymbol .result)
    let (steps, registry) := compile d registry (cut result.position body)
    (steps.map fun steps => ⟨nameAfter result text.toList, steps⟩, registry)
  | _ :: second :: _ => (.error ⟨.duplicateResult, second.position⟩, registry)

/-! ## Writing -/

/-- The name of a pattern, escaped so that it holds no second `=>`. -/
def writeResult : List Char → List Char
  | [] => []
  | c :: rest =>
    if c = Symbol.escape ∨ (c = '=' ∧ rest.head? = some '>') then
      Symbol.escape :: c :: writeResult rest
    else c :: writeResult rest

def writeSteps : List Expression → List Char
  | [] => []
  | [step] => step.write
  | step :: rest => step.write ++ [' ', '-', '>', ' '] ++ writeSteps rest

def write (p : Pattern) : List Char :=
  writeSteps p.steps ++ [' ', '=', '>', ' '] ++ writeResult p.name.toList

def text (p : Pattern) : String := String.ofList p.write

end Pattern

end TimedPattern
