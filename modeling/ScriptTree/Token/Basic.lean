import ScriptTree.Token.Keyword
import ScriptTree.Token.Symbol

/-!
# Tokens

A token is a kind together with its lexeme.  The two fields are free of each
other: which pairs a text can give is the business of `Token.scan`.

A token has three written forms: `Token.render` for a dump, `Token.describe` for
an error message, and `Token.spelling`, from which it can be scanned again.
-/

namespace ScriptTree

inductive TokenKind
  | symbol (s : Symbol)
  | keyword (k : Keyword)
  | string
  | int
  | float
  | identifier
  /-- One character that begins nothing else. -/
  | illegal
  /-- The end of the input. -/
  | eof
  deriving DecidableEq, Repr

namespace TokenKind

def name : TokenKind → String
  | symbol s => s.name
  | keyword k => k.text
  | string => "string"
  | int => "int"
  | float => "float"
  | identifier => "identifier"
  | illegal => "illegal_token"
  | eof => "eof"

def all : List TokenKind :=
  Symbol.all.map symbol ++ Keyword.all.map keyword ++ [string, int, float, identifier, illegal, eof]

def ofName? (name : String) : Option TokenKind := all.find? (·.name = name)

theorem mem_all (k : TokenKind) : k ∈ all := by
  cases k with
  | symbol s => simp [all, Symbol.mem_all s]
  | keyword k => simp [all, Keyword.mem_all k]
  | _ => simp [all]

end TokenKind

structure Token where
  kind : TokenKind
  lexeme : String
  deriving DecidableEq, Repr

namespace Token

def symbol (s : Symbol) : Token := ⟨.symbol s, s.text⟩

/-- The token of a word: a keyword's own kind, or an identifier. -/
def word (text : String) : Token :=
  match Keyword.ofText? text with
  | some k => ⟨.keyword k, text⟩
  | none => ⟨.identifier, text⟩

/-- The token that stands past the last one. -/
def eof : Token := ⟨.eof, "eof"⟩

/-- Only the kind decides, whatever the lexeme. -/
def isEof (t : Token) : Bool := t.kind = .eof

def render (t : Token) : String :=
  "Token(" ++ t.kind.name ++ ", '" ++ t.lexeme ++ "')"

/-- How an error message names a token that it did not expect. -/
def describe (t : Token) : String :=
  match t.kind with
  | .eof => "end of input"
  | .string => "string \"" ++ t.lexeme ++ "\""
  | _ => "'" ++ t.lexeme ++ "'"

/-- The source text of a token: a string stands between quotes, which are no part
of its lexeme. -/
def spelling (t : Token) : String :=
  match t.kind with
  | .string => "\"" ++ t.lexeme ++ "\""
  | _ => t.lexeme

@[simp]
theorem isEof_eof : eof.isEof = true := rfl

theorem isEof_iff {t : Token} : t.isEof = true ↔ t.kind = .eof := by
  simp [isEof]

end Token

end ScriptTree
