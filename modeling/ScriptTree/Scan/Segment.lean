import ScriptTree.Token.Kind

/-!
# Segments of a source

A source is cut into consecutive segments: blanks, line ends, comments, tokens, and single
characters that begin none of these and are dropped. `Segment.first` decides, from the first
character and what follows it, what the next segment is and how far it reaches; it always reaches
as far as its category allows. `segments` repeats this to the end of the source.

Nothing is lost: the texts of the segments, put together, are the source (`flatMap_text_segments`),
and no segment is empty (`text_ne_nil_of_mem_segments`).
-/

namespace ScriptTree

/-- What a piece of source is. -/
inductive Category where
  /-- A space, tab or carriage return. -/
  | blank
  /-- The end of a line. -/
  | newline
  /-- Two percent signs and the rest of their line. -/
  | comment
  /-- A token of the given kind. -/
  | token (kind : Kind)
  /-- A character that begins nothing else. -/
  | dropped
  deriving DecidableEq, Repr

/-- A piece of source with what it is. -/
structure Segment where
  category : Category
  text : List Char
  deriving DecidableEq, Repr

/-! ### Characters -/

/-- A character that separates tokens within a line. -/
def isBlank (c : Char) : Bool :=
  c == ' ' || c == '\t' || c == '\r'

/-- A character that begins a word: an ASCII letter or an underscore. -/
def isWordStart (c : Char) : Bool :=
  c.isAlpha || c == '_'

/-- A character that continues a word: an ASCII letter or digit, or an underscore. -/
def isWordChar (c : Char) : Bool :=
  c.isAlphanum || c == '_'

/-- The mark that is written with this one character. -/
def mark? : Char → Option Kind
  | '(' => some .leftParen
  | ')' => some .rightParen
  | '[' => some .leftBracket
  | ']' => some .rightBracket
  | ',' => some .comma
  | ':' => some .colon
  | '$' => some .dollar
  | '=' => some .equal
  | '+' => some .plus
  | '-' => some .minus
  | '*' => some .star
  | '/' => some .slash
  | '%' => some .modulo
  | '&' => some .ampersand
  | '>' => some .greater
  | '<' => some .less
  | _ => none

/-- The mark that is written with these two characters. -/
def doubleMark? : Char → Char → Option Kind
  | '=', '=' => some .equalEqual
  | '>', '=' => some .greaterEqual
  | '<', '=' => some .lessEqual
  | '<', '>' => some .notEqual
  | _, _ => none

namespace Segment

/-! ### The next segment

Each function says what begins with a given character and how many of the characters after it
belong to the same segment. -/

/-- The length of the fraction that continues a run of digits: a point, a digit and the digits
after it. A point without a digit is not part of a number. -/
def fractionLength : List Char → Nat
  | '.' :: d :: cs => if d.isDigit then 2 + (cs.takeWhile Char.isDigit).length else 0
  | _ => 0

/-- A number whose first digit is followed by `cs`. -/
def number (cs : List Char) : Category × Nat :=
  let whole := (cs.takeWhile Char.isDigit).length
  let fraction := fractionLength (cs.drop whole)
  (.token (if fraction = 0 then .intLiteral else .floatLiteral), whole + fraction)

/-- The kind of a word: its entry among the reserved words, or an identifier. -/
def wordKind (word : List Char) : Kind :=
  (Kind.keyword? (String.ofList word)).getD .identifier

/-- A word that begins with `c`. -/
def word (c : Char) (cs : List Char) : Category × Nat :=
  let tail := cs.takeWhile isWordChar
  (.token (wordKind (c :: tail)), tail.length)

/-- What a quote begins: a literal of one character that is not a line end, if a second quote
closes it there and then; otherwise the quote alone is dropped. -/
def quoted : List Char → Category × Nat
  | c :: '\'' :: _ => if c = '\n' then (.dropped, 0) else (.token .charLiteral, 2)
  | _ => (.dropped, 0)

/-- A mark that begins with `c`; of two marks the longer one. -/
def mark (c : Char) (cs : List Char) : Category × Nat :=
  match cs.head?.bind (doubleMark? c) with
  | some k => (.token k, 1)
  | none =>
    match mark? c with
    | some k => (.token k, 0)
    | none => (.dropped, 0)

/-- What the segment that begins with `c` is, and how many of the characters after `c` belong
to it. -/
def first (c : Char) (cs : List Char) : Category × Nat :=
  if isBlank c then (.blank, 0)
  else if c = '\n' then (.newline, 0)
  else if isWordStart c then word c cs
  else if c.isDigit then number cs
  else if c = '\'' then quoted cs
  else if c = '%' ∧ cs.head? = some '%' then
    (.comment, (cs.takeWhile (· ≠ '\n')).length)
  else mark c cs

end Segment

/-! ### All segments -/

/-- The segments of a source, in order. -/
def segments : List Char → List Segment
  | [] => []
  | c :: cs =>
    let next := Segment.first c cs
    ⟨next.1, c :: cs.take next.2⟩ :: segments (cs.drop next.2)
termination_by source => source.length
decreasing_by simp only [List.length_drop, List.length_cons]; omega

/-- The segments of a source make up the source. -/
theorem flatMap_text_segments (source : List Char) :
    (segments source).flatMap Segment.text = source := by
  fun_induction segments source with
  | case1 => rfl
  | case2 c cs next ih => simp [ih]

/-- No segment is empty. -/
theorem text_ne_nil_of_mem_segments {source : List Char} {seg : Segment}
    (h : seg ∈ segments source) : seg.text ≠ [] := by
  fun_induction segments source with
  | case1 => simp at h
  | case2 c cs next ih =>
    rcases List.mem_cons.mp h with rfl | h
    · simp
    · exact ih h

end ScriptTree
