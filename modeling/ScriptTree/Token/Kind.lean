/-!
# Kinds of tokens

A script is made of tokens of forty-four kinds: punctuation, operators, identifiers and literals,
reserved words, and the end of the input. This file lists the kinds with their names, the classes
that the grammar tells apart (type keywords, operands, operators), the fixed spelling of the kinds
that have one, and the table of reserved words.

The two tables agree: a reserved word that is not a truth value is the fixed spelling of its kind
(`spelling?_of_keyword?`), and a name belongs to one kind only (`ofName?_name`).
-/

namespace ScriptTree

/-- The kind of a token. Reserved words are marked `kw`. -/
inductive Kind where
  | leftParen | rightParen | leftBracket | rightBracket
  | comma | colon | dollar | equal
  | plus | minus | star | slash | modulo | ampersand
  | greater | greaterEqual | less | lessEqual | equalEqual | notEqual
  | identifier | intLiteral | floatLiteral | charLiteral | boolLiteral
  | kwScript | kwArea | kwStart | kwEnd
  | kwInt | kwFloat | kwChar | kwBool
  | kwIf | kwElse | kwRepeat | kwWhen | kwFor | kwScan | kwPrint
  | kwAnd | kwOr | kwNot
  | eof
  deriving DecidableEq, Repr, Inhabited

namespace Kind

/-- Every kind, in the order of declaration. -/
def all : List Kind :=
  [leftParen, rightParen, leftBracket, rightBracket, comma, colon, dollar, equal,
    plus, minus, star, slash, modulo, ampersand,
    greater, greaterEqual, less, lessEqual, equalEqual, notEqual,
    identifier, intLiteral, floatLiteral, charLiteral, boolLiteral,
    kwScript, kwArea, kwStart, kwEnd, kwInt, kwFloat, kwChar, kwBool,
    kwIf, kwElse, kwRepeat, kwWhen, kwFor, kwScan, kwPrint, kwAnd, kwOr, kwNot, eof]

theorem mem_all (k : Kind) : k ∈ all := by cases k <;> decide

/-! ### Names -/

/-- The upper-case name that token dumps and messages use. -/
def name : Kind → String
  | leftParen => "LEFT_PAREN"
  | rightParen => "RIGHT_PAREN"
  | leftBracket => "LEFT_BRACKET"
  | rightBracket => "RIGHT_BRACKET"
  | comma => "COMMA"
  | colon => "COLON"
  | dollar => "DOLLAR"
  | equal => "EQUAL"
  | plus => "PLUS"
  | minus => "MINUS"
  | star => "STAR"
  | slash => "SLASH"
  | modulo => "MODULO"
  | ampersand => "AMPERSAND"
  | greater => "GREATER"
  | greaterEqual => "GREATER_EQUAL"
  | less => "LESS"
  | lessEqual => "LESS_EQUAL"
  | equalEqual => "EQUAL_EQUAL"
  | notEqual => "NOT_EQUAL"
  | identifier => "IDENTIFIER"
  | intLiteral => "INT_LITERAL"
  | floatLiteral => "FLOAT_LITERAL"
  | charLiteral => "CHAR_LITERAL"
  | boolLiteral => "BOOL_LITERAL"
  | kwScript => "SCRIPT"
  | kwArea => "AREA"
  | kwStart => "START"
  | kwEnd => "END"
  | kwInt => "INT"
  | kwFloat => "FLOAT"
  | kwChar => "CHAR"
  | kwBool => "BOOL"
  | kwIf => "IF"
  | kwElse => "ELSE"
  | kwRepeat => "REPEAT"
  | kwWhen => "WHEN"
  | kwFor => "FOR"
  | kwScan => "SCAN"
  | kwPrint => "PRINT"
  | kwAnd => "AND"
  | kwOr => "OR"
  | kwNot => "NOT"
  | eof => "EOF"

/-- The kind that bears a name. -/
def ofName? (s : String) : Option Kind :=
  all.find? fun k => k.name == s

/-- No two kinds share a name. -/
theorem ofName?_name (k : Kind) : ofName? k.name = some k := by cases k <;> decide

/-! ### Classes -/

/-- The four kinds that begin a declaration. -/
def isTypeKeyword : Kind → Bool
  | kwInt | kwFloat | kwChar | kwBool => true
  | _ => false

theorem isTypeKeyword_iff {k : Kind} :
    k.isTypeKeyword = true ↔ k ∈ [kwInt, kwFloat, kwChar, kwBool] := by
  cases k <;> decide

/-- No end mark begins a declaration. -/
theorem ne_eof_of_isTypeKeyword {k : Kind} (h : k.isTypeKeyword = true) : k ≠ eof := by
  rintro rfl
  exact absurd (isTypeKeyword_iff.mp h) (by decide)

/-- The literals of an expression. -/
def isLiteral : Kind → Bool
  | intLiteral | floatLiteral | charLiteral | boolLiteral => true
  | _ => false

/-- The kinds that stand as a leaf of an expression: an identifier or a literal. -/
def isOperand : Kind → Bool
  | identifier | intLiteral | floatLiteral | charLiteral | boolLiteral => true
  | _ => false

/-- The kinds that may stand before an operand and apply to it alone. -/
def isPrefixOperator : Kind → Bool
  | plus | minus | kwNot => true
  | _ => false

/-- The binding strength of an infix operator; a stronger one takes its operands first, and equal
ones take them from the left. -/
def level? : Kind → Option Nat
  | star | slash | modulo => some 4
  | plus | minus | ampersand => some 3
  | greater | greaterEqual | less | lessEqual | equalEqual | notEqual => some 2
  | kwAnd => some 1
  | kwOr => some 0
  | _ => none

/-- Infix operators are of the levels 0 to 4. -/
theorem level_le {k : Kind} {n : Nat} (h : k.level? = some n) : n ≤ 4 := by
  cases k <;> simp [level?] at h <;> omega

/-- Arithmetic, joining, relational and logical operators, infix or prefix. -/
def isOperator : Kind → Bool
  | plus | minus | star | slash | modulo | ampersand => true
  | greater | greaterEqual | less | lessEqual | equalEqual | notEqual => true
  | kwAnd | kwOr | kwNot => true
  | _ => false

/-- The two operators whose node is a logical one. -/
def isLogical : Kind → Bool
  | kwAnd | kwOr => true
  | _ => false

/-- An operator is an infix one or `NOT`. -/
theorem isOperator_iff (k : Kind) : k.isOperator = true ↔ k.level?.isSome = true ∨ k = kwNot := by
  cases k <;> decide

theorem isOperand_iff (k : Kind) : k.isOperand = true ↔ k.isLiteral = true ∨ k = identifier := by
  cases k <;> decide

/-! ### Spelling -/

/-- The only text that a token of this kind can have in a script, where there is just one. -/
def spelling? : Kind → Option String
  | leftParen => some "("
  | rightParen => some ")"
  | leftBracket => some "["
  | rightBracket => some "]"
  | comma => some ","
  | colon => some ":"
  | dollar => some "$"
  | equal => some "="
  | plus => some "+"
  | minus => some "-"
  | star => some "*"
  | slash => some "/"
  | modulo => some "%"
  | ampersand => some "&"
  | greater => some ">"
  | greaterEqual => some ">="
  | less => some "<"
  | lessEqual => some "<="
  | equalEqual => some "=="
  | notEqual => some "<>"
  | identifier | intLiteral | floatLiteral | charLiteral | boolLiteral | eof => none
  | k => some k.name

/-- The reserved words, each with its kind. A truth value may be written in upper or lower case;
every other word is in upper case. -/
def reserved : List (String × Kind) :=
  [("SCRIPT", kwScript), ("AREA", kwArea), ("START", kwStart), ("END", kwEnd),
    ("INT", kwInt), ("FLOAT", kwFloat), ("CHAR", kwChar), ("BOOL", kwBool),
    ("IF", kwIf), ("ELSE", kwElse), ("REPEAT", kwRepeat), ("WHEN", kwWhen), ("FOR", kwFor),
    ("SCAN", kwScan), ("PRINT", kwPrint), ("AND", kwAnd), ("OR", kwOr), ("NOT", kwNot),
    ("TRUE", boolLiteral), ("FALSE", boolLiteral), ("true", boolLiteral), ("false", boolLiteral)]

/-- The kind of a reserved word; `none` for any other text. -/
def keyword? (word : String) : Option Kind :=
  reserved.lookup word

theorem mem_reserved_of_keyword? {w : String} {k : Kind} (h : keyword? w = some k) :
    (w, k) ∈ reserved := by
  unfold keyword? at h
  obtain ⟨l₁, l₂, hl, -⟩ := List.lookup_eq_some_iff.mp h
  rw [hl]
  simp

/-- A reserved word is the fixed spelling of its kind, unless it is a truth value. -/
theorem spelling?_of_keyword? {w : String} {k : Kind} (h : keyword? w = some k)
    (hk : k ≠ boolLiteral) : k.spelling? = some w := by
  have key : ∀ p ∈ reserved, p.2 ≠ boolLiteral → p.2.spelling? = some p.1 := by decide
  exact key (w, k) (mem_reserved_of_keyword? h) hk

end Kind

end ScriptTree
