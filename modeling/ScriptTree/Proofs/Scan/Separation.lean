import Mathlib.Data.List.Chain
import ScriptTree.Proofs.Scan.Lines
import ScriptTree.Proofs.Source.Words

/-!
# Tokens that are written out

Tokens may be written one after another with white space and comments between them, or with nothing
between them where the two lexemes do not fuse. `fuses` says when they do: the second one, or its
first character, would be read as a part of the first one. For all other pairs of lexemes the first
one ends where the second one begins (`endsBefore_append_of_not_fuses`).

So a text in which tokens are separated in this way (`Separates`) is cut into these tokens and what
stands between them (`Spaced.exists_isCut`). A scan of the text gives the tokens back, each on the
line on which it is written, and drops nothing (`Spaced.scan_text`); in particular, this holds of
the tokens of any scan when they are written with single blanks between them (`scan_intercalate`).
-/

namespace ScriptTree

/-! ### Lexemes that fuse -/

/-- A number with or without a fraction. -/
def isNumber (text : List Char) : Bool :=
  isWhole text || isDecimal text

/-- Whether the second of two lexemes would be read, at least in part, as a continuation of the
first. -/
def fuses (first second : List Char) : Bool :=
  isWord first && (isWord second || isNumber second) ||
    isNumber first && isNumber second ||
    first == ['%'] && second == ['%'] ||
    (first == ['='] || first == ['>']) && second.head? == some '=' ||
    first == ['<'] && (second.head? == some '=' || second.head? == some '>')

section

variable {k : Kind} {c : Char} {cs : List Char}

private theorem isWordChar_eq (c : Char) : isWordChar c = (isWordStart c || c.isDigit) := by
  simp only [isWordChar, isWordStart, Char.isAlphanum]
  exact Bool.or_right_comm _ _ _

/-- A lexeme that begins with a letter or an underscore is a word. -/
private theorem isWord_of_admits (h : k.admits (c :: cs) = true) (hc : isWordStart c = true) :
    isWord (c :: cs) = true := by
  have hfirst := Segment.first_of_admits h
  rw [Segment.first_word hc, Segment.word, Prod.mk.injEq] at hfirst
  have htake := (List.takeWhile_prefix isWordChar (l := cs)).eq_of_length hfirst.2
  rw [isWord, hc, Bool.true_and, ← htake]
  exact List.all_takeWhile

/-- A lexeme that begins with a digit is a number. -/
private theorem isNumber_of_admits (h : k.admits (c :: cs) = true) (hc : c.isDigit = true) :
    isNumber (c :: cs) = true := by
  have hfirst := Segment.first_of_admits h
  rw [Segment.first_number hc, Segment.number, Prod.mk.injEq, Category.token.injEq] at hfirst
  rw [isNumber, Bool.or_eq_true]
  obtain ⟨rfl, -⟩ := hfirst
  split at h
  · exact .inl h
  · exact .inr h

/-- No lexeme begins with a point. -/
private theorem ne_point_of_admits (h : k.admits (c :: cs) = true) : c ≠ '.' := by
  rintro rfl
  have hdropped := Segment.first_of_admits h ▸ Segment.first_point
  simp at hdropped

/-- A percent sign that begins a lexeme is the whole of it. -/
private theorem eq_nil_of_admits_percent (h : k.admits ('%' :: cs) = true) : cs = [] := by
  have hfirst := Segment.first_of_admits h
  rcases cs with _ | ⟨d, ds⟩
  · rfl
  · by_cases hd : d = '%'
    · subst hd
      simp [Segment.first_comment] at hfirst
    · have hmark : mark? '%' = some .modulo := rfl
      have hdouble : doubleMark? '%' d = none := rfl
      rw [Segment.first_mark hmark (by simpa using hd)] at hfirst
      simp [Segment.mark, hdouble, hmark] at hfirst

/-- A mark is not continued by a lexeme that it does not fuse with. -/
private theorem markEndsBefore_append_of_not_fuses {first : List Char}
    (h : fuses first (c :: cs) = false) (hsecond : k.admits (c :: cs) = true) (rest : List Char) :
    Segment.markEndsBefore first (c :: cs ++ rest) = true := by
  rcases first with _ | ⟨d, _ | ⟨e, es⟩⟩
  · rfl
  · rw [List.cons_append, Segment.markEndsBefore, Bool.and_eq_true, Option.isNone_iff_eq_none]
    constructor
    · unfold doubleMark?
      split <;> simp_all [fuses]
    · rw [Bool.not_eq_true', Bool.and_eq_false_iff, beq_eq_false_iff_ne, beq_eq_false_iff_ne]
      refine Decidable.not_and_iff_or_not.mp ?_
      rintro ⟨rfl, rfl⟩
      obtain rfl := eq_nil_of_admits_percent hsecond
      exact absurd h (by decide)
  · rfl

/-- Where two lexemes do not fuse, the first one ends before the second. -/
theorem endsBefore_append_of_not_fuses {first second : List Char} (h : fuses first second = false)
    (hsecond : k.admits second = true) (rest : List Char) :
    Segment.endsBefore first (second ++ rest) = true := by
  obtain ⟨c, cs, rfl⟩ := List.exists_cons_of_ne_nil
    (Category.matches_token_iff.mpr hsecond).ne_nil
  have hpoint : Segment.fractionLength (c :: (cs ++ rest)) = 0 :=
    Segment.fractionLength_cons (ne_point_of_admits hsecond)
  have hmark := markEndsBefore_append_of_not_fuses h hsecond rest
  simp only [fuses, Bool.or_eq_false_iff] at h
  obtain ⟨⟨⟨⟨hwords, hnumbers⟩, -⟩, -⟩, -⟩ := h
  by_cases hword : isWord first = true
  · -- After a word there is neither a word nor a number, so no character of a word.
    simp only [hword, Bool.true_and, Bool.or_eq_false_iff] at hwords
    have hstart : isWordStart c = false :=
      Bool.eq_false_iff.mpr fun hc => by simp [isWord_of_admits hsecond hc] at hwords
    have hdigit : c.isDigit = false :=
      Bool.eq_false_iff.mpr fun hc => by simp [isNumber_of_admits hsecond hc] at hwords
    simp [Segment.endsBefore_word hword, isWordChar_eq, hstart, hdigit]
  by_cases hnumber : isNumber first = true
  · rw [hnumber, Bool.true_and] at hnumbers
    have hdigit : c.isDigit = false :=
      Bool.eq_false_iff.mpr fun hc => by simp [isNumber_of_admits hsecond hc] at hnumbers
    rcases (Bool.or_eq_true _ _).mp hnumber with hwhole | hdecimal
    · simp [Segment.endsBefore_whole hwhole, hdigit, hpoint]
    · simp [Segment.endsBefore_decimal hdecimal, hdigit]
  · simp only [isNumber, Bool.or_eq_true, not_or, Bool.not_eq_true] at hnumber
    rwa [Segment.endsBefore_mark (Bool.eq_false_iff.mpr hword) hnumber.1 hnumber.2]

end

/-! ### What stands between two tokens -/

/-- White space and comments, each comment with the line end that closes it. -/
inductive IsLayout : List Char → Prop where
  | nil : IsLayout []
  | space {c : Char} {cs : List Char} : isBlank c = true ∨ c = '\n' → IsLayout cs →
    IsLayout (c :: cs)
  | comment {line cs : List Char} : '\n' ∉ line → IsLayout cs →
    IsLayout ('%' :: '%' :: line ++ '\n' :: cs)

/-- A text that keeps two tokens apart: white space with or without more layout after it, or nothing
if the lexemes do not fuse. -/
inductive Separates (t u : Token) : List Char → Prop where
  | layout {c : Char} {cs : List Char} : isBlank c = true ∨ c = '\n' → IsLayout cs →
    Separates t u (c :: cs)
  | nothing : fuses t.lexeme.toList u.lexeme.toList = false → Separates t u []

private theorem Separates.isLayout {t u : Token} {sep : List Char} (h : Separates t u sep) :
    IsLayout sep := by
  cases h with
  | layout hc hcs => exact .space hc hcs
  | nothing => exact .nil

/-- The segments that are neither tokens nor dropped. -/
def Category.isLayout : Category → Bool
  | blank | newline | comment => true
  | _ => false

/-- Layout before a source is cut off into pieces of layout. -/
theorem IsLayout.exists_isCut {cs rest : List Char} {segs : List Segment} (h : IsLayout cs)
    (hrest : IsCut rest segs) : ∃ between : List Segment,
      IsCut (cs ++ rest) (between ++ segs) ∧ between.flatMap Segment.text = cs ∧
        ∀ seg ∈ between, seg.category.isLayout = true := by
  induction h with
  | nil => exact ⟨[], hrest, rfl, by simp⟩
  | @space c cs hc _ ih =>
    obtain ⟨between, hcut, htext, hlayout⟩ := ih
    rcases hc with hc | rfl
    · exact ⟨⟨.blank, [c]⟩ :: between, hcut.blank hc, by simp [htext],
        by simpa [Category.isLayout] using hlayout⟩
    · exact ⟨⟨.newline, ['\n']⟩ :: between, hcut.newline, by simp [htext],
        by simpa [Category.isLayout] using hlayout⟩
  | @comment line cs hline _ ih =>
    obtain ⟨between, hcut, htext, hlayout⟩ := ih
    let note : Segment := ⟨.comment, '%' :: '%' :: line⟩
    have hnote : note.IsNext (note.text ++ '\n' :: (cs ++ rest)) :=
      (Segment.isNext_comment_iff hline).mpr (by simp)
    refine ⟨note :: ⟨.newline, ['\n']⟩ :: between, ?_, by simp [note, htext],
      by simpa [note, Category.isLayout] using hlayout⟩
    simpa [note] using IsCut.cons hnote hcut.newline

/-! ### Tokens with what separates them -/

/-- Tokens that are written out, each after the text that keeps it apart from the one before. -/
abbrev Spaced := List (List Char × Token)

namespace Spaced

/-- The text of tokens that are written out. -/
def text (ps : Spaced) : List Char :=
  ps.flatMap fun p => p.1 ++ p.2.lexeme.toList

/-- The tokens of such a text, each on the line on which it is written: one more than the line ends
before it. The text comes after the text `before`. -/
def tokens (before : List Char) : Spaced → List Token
  | [] => []
  | (sep, t) :: ps =>
    { t with line := 1 + (before ++ sep).count '\n' } ::
      tokens (before ++ sep ++ t.lexeme.toList) ps

/-- Each token is written as its kind demands, and kept apart from the next one. -/
structure IsSeparated (ps : Spaced) : Prop where
  spelled : ∀ p ∈ ps, p.2.isWellSpelled = true
  /-- Before the first token there may be layout. -/
  first : ∀ p ∈ ps.head?, IsLayout p.1
  separates : ps.IsChain fun p q => Separates p.2 q.2 q.1

namespace IsSeparated

variable {sep : List Char} {t : Token} {ps : Spaced}

private theorem tail (h : IsSeparated ((sep, t) :: ps)) : IsSeparated ps := by
  refine ⟨fun p hp => h.spelled p (List.mem_cons_of_mem _ hp), fun p hp => ?_, h.separates.tail⟩
  obtain ⟨qs, rfl⟩ := List.head?_eq_some_iff.mp hp
  exact (List.isChain_cons_cons.mp h.separates).1.isLayout

/-- The first token ends where the text goes on. -/
private theorem endsBefore (h : IsSeparated ((sep, t) :: ps)) :
    Segment.endsBefore t.lexeme.toList (text ps) = true := by
  rcases ps with _ | ⟨⟨next, u⟩, ps⟩
  · exact Segment.endsBefore_nil
  have hspelled : u.kind.admits u.lexeme.toList = true :=
    h.spelled (next, u) (List.mem_cons_of_mem _ List.mem_cons_self)
  have hsep : Separates t u next := (List.isChain_cons_cons.mp h.separates).1
  rw [text, List.flatMap_cons]
  cases hsep with
  | layout hc => exact Segment.endsBefore_space hc
  | nothing hfuses => exact endsBefore_append_of_not_fuses hfuses hspelled _

end IsSeparated

end Spaced

/-! ### The cut of such a text -/

private theorem withLines_append (before : List Char) (segs rest : List Segment) :
    withLines before (segs ++ rest)
      = withLines before segs ++ withLines (before ++ segs.flatMap Segment.text) rest := by
  induction segs generalizing before with
  | nil => simp [withLines]
  | cons seg segs ih => simp [withLines, ih]

/-- Layout holds no token and nothing that is dropped. -/
private theorem filterMap_withLines_of_isLayout {segs : List Segment} (before : List Char)
    (h : ∀ seg ∈ segs, seg.category.isLayout = true) :
    (withLines before segs).filterMap Segment.token? = [] ∧
      (withLines before segs).filterMap Segment.error? = [] := by
  induction segs generalizing before with
  | nil => exact ⟨rfl, rfl⟩
  | cons seg segs ih =>
    obtain ⟨htokens, herrors⟩ :=
      ih (before ++ seg.text) fun s hs => h s (List.mem_cons_of_mem _ hs)
    have hseg := h seg List.mem_cons_self
    obtain ⟨cat, text⟩ := seg
    cases cat <;> simp_all [withLines, Segment.token?, Segment.error?, Category.isLayout]

private theorem Token.token?_segment (t : Token) (line : Nat) :
    Segment.token? (t.segment, line) = some { t with line := line } := by
  simp [Segment.token?, segment]

/-- A text of separated tokens is cut into these tokens and layout. -/
theorem Spaced.exists_isCut {ps : Spaced} (h : ps.IsSeparated) : ∃ segs, IsCut ps.text segs ∧
    ∀ before, (withLines before segs).filterMap Segment.token? = ps.tokens before ∧
      (withLines before segs).filterMap Segment.error? = [] := by
  induction ps with
  | nil => exact ⟨[], .nil, fun _ => ⟨rfl, rfl⟩⟩
  | cons p ps ih =>
    obtain ⟨sep, t⟩ := p
    obtain ⟨segs, hcut, hlines⟩ := ih h.tail
    have hspelled : t.kind.admits t.lexeme.toList = true := h.spelled (sep, t) List.mem_cons_self
    have hnext : t.segment.IsNext (t.segment.text ++ text ps) :=
      (Segment.isNext_append_iff hspelled).mpr h.endsBefore
    obtain ⟨between, hcut, htext, hlayout⟩ := (h.first (sep, t) rfl).exists_isCut (hcut.cons hnext)
    refine ⟨between ++ t.segment :: segs, ?_, fun before => ?_⟩
    · rwa [text, List.flatMap_cons, List.append_assoc]
    · obtain ⟨htokens, herrors⟩ := hlines (before ++ sep ++ t.segment.text)
      obtain ⟨hnone, hsilent⟩ := filterMap_withLines_of_isLayout before hlayout
      rw [withLines_append, htext, withLines, List.filterMap_append, List.filterMap_append, hnone,
        hsilent, List.filterMap_cons, List.filterMap_cons, Token.token?_segment, htokens, herrors]
      exact ⟨rfl, rfl⟩

/-- A text of separated tokens is scanned as these tokens, and nothing is dropped. -/
theorem Spaced.scan_text {ps : Spaced} (h : ps.IsSeparated) :
    scan (String.ofList ps.text)
      = ⟨ps.tokens [] ++ [Token.endMark (1 + ps.text.count '\n')], []⟩ := by
  obtain ⟨segs, hcut, hlines⟩ := exists_isCut h
  have htokens : tokensFrom 1 segs = ps.tokens [] := (hcut.lines []).1.trans (hlines []).1
  have herrors : errorsFrom 1 segs = [] := (hcut.lines []).2.1.trans (hlines []).2
  simp only [scan, Scanner.ofSource, Scanner.tokenize, String.toList_ofList]
  rw [← isCut_iff.mp hcut, (hcut.lines []).2.2, htokens, herrors]
  rfl

/-! ### What is scanned can be written again -/

private theorem tokens_scan (source : String) :
    (scan source).tokens = tokensFrom 1 (segments source.toList) ++
      [Token.endMark (1 + lineEnds (segments source.toList))] :=
  rfl

/-- The tokens of a scan without its end mark are well spelled. -/
theorem isWellSpelled_of_mem_scan {source : String} {t : Token}
    (h : t ∈ (scan source).tokens.dropLast) : t.isWellSpelled = true := by
  rw [tokens_scan, List.dropLast_concat] at h
  exact isWellSpelled_of_mem_tokensFrom (fun _ hseg _ => admits_of_mem_segments hseg) h

/-- **Scanning undoes writing.** Well spelled tokens, written with white space and comments between
them or with nothing where the lexemes do not fuse, are scanned as these tokens, each on the line on
which it is written, and nothing is dropped. Conversely, the tokens of any source, written with
single blanks between them, are scanned as they are, up to their lines. -/
theorem scan_written :
    (∀ ps : Spaced, ps.IsSeparated → scan (String.ofList ps.text)
      = ⟨ps.tokens [] ++ [Token.endMark (1 + ps.text.count '\n')], []⟩) ∧
    ∀ source : String, scan (" ".intercalate ((scan source).tokens.dropLast.map Token.lexeme))
      = ⟨(scan source).tokens.map fun t => { t with line := 1 }, []⟩ := by
  refine ⟨fun ps => Spaced.scan_text, fun source => ?_⟩
  rw [scan_intercalate fun t ht => isWellSpelled_of_mem_scan ht, tokens_scan,
    List.dropLast_concat, List.map_append]
  rfl

/-- Five tokens with a comment after the first one and nothing between the others. -/
theorem scan_written_comment :
    ∃ ps : Spaced, ps.IsSeparated ∧ String.ofList ps.text = "IF %%'\n\tx<='''1.5" ∧
      scan (String.ofList ps.text) =
        ⟨[⟨.kwIf, "IF", 1⟩, ⟨.identifier, "x", 2⟩, ⟨.lessEqual, "<=", 2⟩, ⟨.charLiteral, "'''", 2⟩,
          ⟨.floatLiteral, "1.5", 2⟩, ⟨.eof, "", 2⟩], []⟩ := by
  let sep : List Char := [' ', '%', '%', '\'', '\n', '\t']
  let ps : Spaced := [([], ⟨.kwIf, "IF", 0⟩), (sep, ⟨.identifier, "x", 0⟩),
    ([], ⟨.lessEqual, "<=", 0⟩), ([], ⟨.charLiteral, "'''", 0⟩), ([], ⟨.floatLiteral, "1.5", 0⟩)]
  have hcomment : IsLayout ('%' :: '%' :: ['\''] ++ '\n' :: ['\t']) :=
    .comment (by decide) (.space (.inl rfl) .nil)
  have hps : ps.IsSeparated := by
    refine ⟨by decide, fun p hp => ?_, ?_⟩
    · obtain rfl := Option.some.inj hp
      exact .nil
    · exact .cons_cons (.layout (.inl rfl) hcomment) <| .cons_cons (.nothing (by decide)) <|
        .cons_cons (.nothing (by decide)) <| .cons_cons (.nothing (by decide)) (.singleton _)
  exact ⟨ps, hps, by decide, (scan_written.1 ps hps).trans (by decide)⟩

end ScriptTree
