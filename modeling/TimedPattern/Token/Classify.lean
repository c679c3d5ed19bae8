import TimedPattern.Lexeme
import TimedPattern.Token.Region

/-!
# Tokens from lexemes

Text is a behavior outside a region and a number inside one.
-/

namespace TimedPattern

namespace Region

/-- Reads one lexeme inside a region that it does not close. -/
def item (r : Region) (l : Lexeme) : Except PatternError RegionItem :=
  match l.kind with
  | .symbol (.flag c) => .ok (.flag c)
  | .symbol s => .error ⟨.regionInterrupted s r.kind.close, l.position⟩
  | .text t =>
    match Decimal.read? t.toList with
    | some value => .ok (.number value)
    | none => .error ⟨.notANumber t, l.position⟩

end Region

/-- What a lexeme is outside a region. -/
inductive Reading where
  | token (kind : TokenKind)
  | region (kind : RegionKind)
  | fault (fault : Fault)

namespace Reading

def ofLexeme : LexemeKind → Reading
  | .text t => token (.behavior t)
  | .symbol .groupOpen => token .groupOpen
  | .symbol .groupClose => token .groupClose
  | .symbol .and => token (.operator .and)
  | .symbol .or => token (.operator .or)
  | .symbol .countOpen => region .occurrences
  | .symbol .timingOpen => region .timing
  | .symbol .countClose => fault (.regionNotOpened .countClose)
  | .symbol .timingClose => fault (.regionNotOpened .timingClose)
  | .symbol .except => fault .reservedOperator
  | .symbol s => fault (.unexpectedSymbol s)

end Reading

namespace Token

/-- Reads lexemes outside a region, or inside the one that is open. -/
def read : Option Region → List Lexeme → Except PatternError (List Token)
  | none, [] => .ok []
  | some r, [] => .error ⟨.regionNotClosed r.kind.close, r.position⟩
  | none, l :: rest =>
    match Reading.ofLexeme l.kind with
    | .token kind => (read none rest).map (⟨kind, l.position⟩ :: ·)
    | .region kind => read (some ⟨kind, l.position, []⟩) rest
    | .fault fault => .error ⟨fault, l.position⟩
  | some r, l :: rest =>
    if l.isSymbol r.kind.close then
      match r.token with
      | .ok token => (read none rest).map (token :: ·)
      | .error e => .error e
    else
      match r.item l with
      | .ok item => read (some { r with items := r.items ++ [item] }) rest
      | .error e => .error e

/-- The tokens of one step. -/
def ofLexemes (lexemes : List Lexeme) : Except PatternError (List Token) := read none lexemes

end Token

end TimedPattern
