import ScriptTree.Token.Kind

/-!
# Tokens

A token carries its kind, the text it was written as, and the line it stands on. Two texts are
made from a token: its entry in a token dump, and the short form in which a message names it.
-/

namespace ScriptTree

/-- One lexical unit of a script. -/
structure Token where
  /-- What the token is. -/
  kind : Kind
  /-- The token as written. -/
  lexeme : String
  /-- The line it stands on; the first line is line 1. -/
  line : Nat
  deriving DecidableEq, Repr, Inhabited

namespace Token

/-- The token that ends an input on the given line. -/
def endMark (line : Nat) : Token :=
  ⟨.eof, "", line⟩

/-- The entry of a token in a dump: kind, text and line. -/
def entry (t : Token) : String :=
  s!"[{t.kind.name}] '{t.lexeme}' (line {t.line})"

/-- How a message names a token. The end of the input has no text of its own. -/
def describe (t : Token) : String :=
  match t.kind with
  | .eof => "end of input"
  | .identifier => s!"identifier '{t.lexeme}'"
  | _ => s!"'{t.lexeme}'"

@[simp] theorem endMark_kind (n : Nat) : (endMark n).kind = .eof := rfl

@[simp] theorem endMark_line (n : Nat) : (endMark n).line = n := rfl

theorem describe_of_eof {t : Token} (h : t.kind = .eof) : t.describe = "end of input" := by
  simp [describe, h]

end Token

end ScriptTree
