import TimedPattern.Symbol
import TimedPattern.Text.Blank

/-!
# Lexemes

Pattern text is cut in three moves, none of which can fail: escapes are resolved into glyphs, glyphs
are joined into symbols and runs, and the runs are trimmed.
-/

namespace TimedPattern

/-! ## Glyphs -/

/-- A character of the text, with the byte where it starts. -/
structure Glyph where
  char : Char
  position : Nat
  escaped : Bool
  deriving DecidableEq, Repr

namespace Glyph

/-- The glyphs of a text that starts at a position. An escape at the very end escapes nothing and is
dropped. -/
def read (position : Nat) : List Char → List Glyph
  | [] => []
  | [c] => if c = Symbol.escape then [] else [⟨c, position, false⟩]
  | c :: d :: rest =>
    let after := position + c.utf8Size
    if c = Symbol.escape then ⟨d, after, true⟩ :: read (after + d.utf8Size) rest
    else ⟨c, position, false⟩ :: read after (d :: rest)

def symbol? (inRegion : Bool) (g : Glyph) : Option Symbol :=
  if g.escaped then none else Symbol.ofChar? inRegion g.char

def pair? (g h : Glyph) : Option Symbol :=
  if g.escaped ∨ h.escaped then none else Symbol.ofPair? g.char h.char

end Glyph

/-! ## Pieces -/

/-- A symbol, or the glyphs between two symbols. -/
inductive Piece where
  | symbol (s : Symbol) (position : Nat)
  | run (first : Glyph) (others : List Glyph)
  deriving DecidableEq, Repr

namespace Piece

/-- Puts a glyph in front of the run that comes next, or makes it a run of its own. -/
def cons (g : Glyph) : List Piece → List Piece
  | run first others :: rest => run g (first :: others) :: rest
  | rest => run g [] :: rest

/-- Joins glyphs. Inside a region the flags are symbols and win over a symbol of two characters. -/
def join (inRegion : Bool) : List Glyph → List Piece
  | [] => []
  | [g] =>
    match g.symbol? inRegion with
    | some s => [symbol s g.position]
    | none => [run g []]
  | g :: h :: rest =>
    match g.symbol? inRegion with
    | some s => symbol s g.position :: join (s.regionAfter inRegion) (h :: rest)
    | none =>
      match g.pair? h with
      | some s => symbol s g.position :: join inRegion rest
      | none => cons g (join inRegion (h :: rest))

end Piece

/-! ## Lexemes -/

/-- What a lexeme holds: a symbol, or the trimmed text between two symbols. -/
inductive LexemeKind where
  | symbol (s : Symbol)
  | text (t : String)
  deriving DecidableEq, Repr

/-- A lexeme and the byte where it starts. -/
structure Lexeme where
  kind : LexemeKind
  position : Nat
  deriving DecidableEq, Repr

namespace Piece

/-- A run starts after its leading white space. The white space is measured as it reads once escapes
are resolved, so an escape inside it is not counted. -/
def lexeme? : Piece → Option Lexeme
  | symbol s position => some ⟨.symbol s, position⟩
  | run first others =>
    let chars := (first :: others).map Glyph.char
    let trimmed := Text.trim chars
    let leading := Text.byteLength (chars.takeWhile Text.isBlank)
    if trimmed = [] then none
    else some ⟨.text (String.ofList trimmed), first.position + leading⟩

end Piece

namespace Lexeme

def ofChars (chars : List Char) : List Lexeme :=
  (Piece.join false (Glyph.read 0 chars)).filterMap Piece.lexeme?

def ofText (text : String) : List Lexeme := ofChars text.toList

def isSymbol (l : Lexeme) (s : Symbol) : Bool := l.kind = .symbol s

end Lexeme

end TimedPattern
