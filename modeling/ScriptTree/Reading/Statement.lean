import ScriptTree.Reading.Climb

/-!
# Reading statements

A statement is a binding (`let x = e;`, `const x = e;`), a block of expressions
between braces, or an expression by itself.  The current token decides which.
-/

namespace ScriptTree

/-- What has to follow the word that opens a binding. -/
def BindingKind.wanted : BindingKind → String
  | letBinding => "identifier after 'let'"
  | constBinding => "identifier after 'const'"

namespace Reading

/-- A binding, after the word that opens it. -/
def binding (kind : BindingKind) : Reader Node :=
  (Reader.expect .identifier kind.wanted).bind fun name =>
  (Reader.expect (.symbol .equal) "'=' after binding name").bind fun _ =>
  expression.bind fun value =>
  (Reader.expect (.symbol .semiColon) "';' after binding").map fun _ =>
  .binding kind name.lexeme value

/-- A block, after its opening brace. -/
def block : Reader Node where
  read ts :=
    (expression.repeated (·.kind = .symbol .rightBrace) ts).bind fun body rest =>
      ((Reader.expect (.symbol .rightBrace) "'\x7d' to close block").read rest).map fun _ =>
        .block body
  progress h := by
    obtain ⟨body, mid, hbody, hclose⟩ := Reading.bind_eq_ok_iff.mp h
    obtain ⟨t, ht, -⟩ := Reading.map_eq_ok_iff.mp hclose
    exact Nat.lt_of_lt_of_le ((Reader.expect ..).progress ht)
      (Reader.length_le_of_repeated hbody)

/-- What a token of this kind opens, to be read after it. -/
def opened? : TokenKind → Option (Reader Node)
  | .keyword .letWord => some (binding .letBinding)
  | .keyword .constWord => some (binding .constBinding)
  | .symbol .leftBrace => some block
  | _ => none

def statement : Reader Node where
  read ts :=
    match opened? (current ts).kind with
    | some reader => reader.read ts.tail
    | none => expression.read ts
  progress {ts rest a} h := by
    split at h
    · have := Reader.progress _ h
      rw [List.length_tail] at this
      omega
    · exact expression.progress h

/-- Statements up to the end of the input. -/
def statements (ts : List Token) : Reading (List Node) :=
  statement.repeated (fun _ => false) ts

end Reading

end ScriptTree
