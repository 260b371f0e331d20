import ScriptTree.Scan.Spelling

/-!
# Scanning a source into tokens

A scan goes through the segments of a source, counts the line ends, and gives every token and every
dropped character the line it stands on. Dropped characters are reported and never stop a scan. The
tokens are closed by an end mark on the last line.

A `Scanner` remembers how far it has read, so that scanning again finds only the end of the input,
on the line already reached (`tokenize_tokenize`).
-/

namespace ScriptTree

/-- A character that was dropped, with its line. -/
structure ScanError where
  character : Char
  line : Nat
  deriving DecidableEq, Repr

namespace ScanError

/-- Why the character was dropped. A quote is dropped when no literal can be read there; every other
dropped character begins nothing at all. -/
def reason (e : ScanError) : String :=
  if e.character = '\'' then "Unterminated character literal"
  else s!"Unexpected character '{e.character}'"

/-- The report of a dropped character. -/
def message (e : ScanError) : String :=
  s!"Lexer error at line {e.line}: {e.reason}"

end ScanError

/-! ### Lines -/

/-- The tokens among segments whose first one stands on `line`. -/
def tokensFrom (line : Nat) : List Segment → List Token
  | [] => []
  | seg :: segs =>
    match seg.category with
    | .newline => tokensFrom (line + 1) segs
    | .token k => ⟨k, String.ofList seg.text, line⟩ :: tokensFrom line segs
    | _ => tokensFrom line segs

/-- The dropped characters among segments whose first one stands on `line`. -/
def errorsFrom (line : Nat) : List Segment → List ScanError
  | [] => []
  | seg :: segs =>
    match seg.category with
    | .newline => errorsFrom (line + 1) segs
    | .dropped => seg.text.map (⟨·, line⟩) ++ errorsFrom line segs
    | _ => errorsFrom line segs

/-- The number of line ends among segments. -/
def lineEnds (segs : List Segment) : Nat :=
  segs.countP fun seg => seg.category == .newline

/-- The tokens among segments are written as their kinds demand if the segments are. -/
theorem isWellSpelled_of_mem_tokensFrom {line : Nat} {segs : List Segment} {t : Token}
    (hsegs : ∀ seg ∈ segs, ∀ k, seg.category = .token k → k.admits seg.text = true)
    (h : t ∈ tokensFrom line segs) : t.isWellSpelled = true := by
  fun_induction tokensFrom line segs with
  | case1 => simp at h
  | case2 line seg segs hline ih =>
    exact ih (fun s hs => hsegs s (List.mem_cons_of_mem _ hs)) h
  | case3 line seg segs k hk ih =>
    rcases List.mem_cons.mp h with rfl | h
    · simpa [Token.isWellSpelled] using hsegs seg List.mem_cons_self k hk
    · exact ih (fun s hs => hsegs s (List.mem_cons_of_mem _ hs)) h
  | case4 line seg segs hline hk ih =>
    exact ih (fun s hs => hsegs s (List.mem_cons_of_mem _ hs)) h

/-! ### The scanner -/

/-- Where a scan stands: what is still to be read, the line reached, and the characters dropped so
far, in source order. -/
structure Scanner where
  rest : List Char
  line : Nat
  errors : List ScanError
  deriving DecidableEq, Repr

namespace Scanner

/-- A scanner at the start of a source. -/
def ofSource (source : String) : Scanner :=
  ⟨source.toList, 1, []⟩

/-- Reads everything that is left. -/
def tokenize (s : Scanner) : List Token × Scanner :=
  let segs := segments s.rest
  let last := s.line + lineEnds segs
  (tokensFrom s.line segs ++ [Token.endMark last],
    ⟨[], last, s.errors ++ errorsFrom s.line segs⟩)

/-- The tokens of a scan are well spelled, up to the end mark that closes them. -/
theorem isWellSpelled_of_mem_tokenize {s : Scanner} {t : Token} (h : t ∈ s.tokenize.1) :
    t.isWellSpelled = true ∨ t = Token.endMark s.tokenize.2.line := by
  rcases List.mem_append.mp h with h | h
  · exact .inl (isWellSpelled_of_mem_tokensFrom (fun _ hseg _ => admits_of_mem_segments hseg) h)
  · exact .inr (List.mem_singleton.mp h)

/-- A second scan finds nothing but the end of the input, and reports nothing new. -/
theorem tokenize_tokenize (s : Scanner) :
    s.tokenize.2.tokenize = ([Token.endMark s.tokenize.2.line], s.tokenize.2) := by
  simp [tokenize, segments, tokensFrom, errorsFrom, lineEnds]

end Scanner

/-- The outcome of scanning a source. -/
structure Scan where
  /-- The tokens, closed by an end mark. -/
  tokens : List Token
  /-- The dropped characters, in source order. -/
  errors : List ScanError
  deriving DecidableEq, Repr

/-- Scans a whole source. -/
def scan (source : String) : Scan :=
  let (tokens, after) := (Scanner.ofSource source).tokenize
  ⟨tokens, after.errors⟩

end ScriptTree
