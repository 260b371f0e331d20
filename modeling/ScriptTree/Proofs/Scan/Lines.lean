import ScriptTree.Proofs.Scan.LongestMatch

/-!
# Lines are scanned on their own

No segment goes over the end of a line, and none looks behind it: what the scanner decides before a
line end, it decides in the same way where the source ends there (`Segment.first_append_newline`).
So the segments of a source are those of the part before any of its line ends, that line end, and
those of the part after it (`segments_append_newline`).

The tokens and the reports follow (`scan_append_newline`): those of the first part are found where
they were, and those of the second part as many lines lower as the first part has.
-/

namespace ScriptTree

namespace Segment

variable (c : Char) (cs rest : List Char)

/-- A run of characters that are no line ends is over at a line end. -/
private theorem takeWhile_append_newline {p : Char → Bool} (hp : p '\n' = false) :
    (cs ++ '\n' :: rest).takeWhile p = cs.takeWhile p := by
  rw [List.takeWhile_append, List.takeWhile_cons, hp]
  split
  · next h => simpa using ((List.takeWhile_prefix p).eq_of_length h).symm
  · rfl

/-- No fraction goes over the end of a line. -/
private theorem fractionLength_append_newline :
    fractionLength (cs ++ '\n' :: rest) = fractionLength cs := by
  rcases cs with _ | ⟨d, _ | ⟨e, cs⟩⟩
  · rfl
  · by_cases hd : d = '.'
    · subst hd
      rfl
    · simp [fractionLength, hd]
  · by_cases hd : d = '.'
    · subst hd
      simp only [List.cons_append, fractionLength,
        takeWhile_append_newline cs rest (p := Char.isDigit) rfl]
    · simp [fractionLength, hd]

/-- A number ends at the end of its line. -/
private theorem number_append_newline : number (cs ++ '\n' :: rest) = number cs := by
  have hwhole := (List.takeWhile_prefix Char.isDigit (l := cs)).length_le
  simp only [number, takeWhile_append_newline cs rest (p := Char.isDigit) rfl,
    List.drop_append_of_le_length hwhole, fractionLength_append_newline]

/-- So does a word. -/
private theorem word_append_newline : word c (cs ++ '\n' :: rest) = word c cs := by
  simp only [word, takeWhile_append_newline cs rest (p := isWordChar) rfl]

/-- A quote before a line end is as good as one before the end of the source. -/
private theorem quoted_append_newline : quoted (cs ++ '\n' :: rest) = quoted cs := by
  rcases cs with _ | ⟨d, _ | ⟨e, cs⟩⟩
  · simp only [List.nil_append, quoted]
    split
    · next heq => exact if_pos (List.cons.inj heq).1.symm
    · rfl
  · simp [quoted]
  · by_cases he : e = '\''
    · subst he
      simp [quoted]
    · simp [quoted, he]

private theorem mark_append_newline : mark c (cs ++ '\n' :: rest) = mark c cs := by
  rcases cs with _ | ⟨d, cs⟩
  · have hnone : doubleMark? c '\n' = none := by
      unfold doubleMark?
      split <;> simp_all
    simp [mark, hnone]
  · rfl

/-- What is read up to a line end does not depend on what follows it. -/
theorem first_append_newline : first c (cs ++ '\n' :: rest) = first c cs := by
  have hhead : (cs ++ '\n' :: rest).head? = some '%' ↔ cs.head? = some '%' := by
    cases cs <;> simp
  simp only [first, word_append_newline, number_append_newline, quoted_append_newline,
    mark_append_newline, hhead, takeWhile_append_newline cs rest (p := (· ≠ '\n')) rfl]

end Segment

/-- The segments of a source are those before any of its line ends, the line end, and those after
it. -/
theorem segments_append_newline (before after : List Char) :
    segments (before ++ '\n' :: after)
      = segments before ++ ⟨.newline, ['\n']⟩ :: segments after := by
  fun_induction segments before with
  | case1 =>
    rw [List.nil_append, segments, Segment.first_newline]
    rfl
  | case2 c cs next ih =>
    have hle : next.2 ≤ cs.length := Segment.first_le c cs
    rw [List.cons_append, segments, Segment.first_append_newline,
      List.take_append_of_le_length hle, List.drop_append_of_le_length hle, ih]
    rfl

/-! ### Tokens and reports of segments put together -/

section

variable (line : Nat) (segs rest : List Segment)

/-- The tokens of two cuts, the second of which begins where the first one ends. -/
private theorem tokensFrom_append :
    tokensFrom line (segs ++ rest)
      = tokensFrom line segs ++ tokensFrom (line + lineEnds segs) rest := by
  induction segs generalizing line with
  | nil => rfl
  | cons seg segs ih =>
    cases hcat : seg.category <;>
      simp [tokensFrom, lineEnds, hcat, ih, Nat.add_assoc, Nat.add_comm 1]

private theorem errorsFrom_append :
    errorsFrom line (segs ++ rest)
      = errorsFrom line segs ++ errorsFrom (line + lineEnds segs) rest := by
  induction segs generalizing line with
  | nil => rfl
  | cons seg segs ih =>
    cases hcat : seg.category <;>
      simp [errorsFrom, lineEnds, hcat, ih, Nat.add_assoc, Nat.add_comm 1]

/-- Tokens further below are the same tokens on later lines. -/
private theorem tokensFrom_add (below : Nat) :
    tokensFrom (line + below) segs
      = (tokensFrom line segs).map fun t => { t with line := t.line + below } := by
  fun_induction tokensFrom line segs with
  | case1 => rfl
  | case2 line seg segs hcat ih => simp [tokensFrom, hcat, ← ih, Nat.add_right_comm]
  | case3 line seg segs k hcat ih => simp [tokensFrom, hcat, ih]
  | case4 line seg segs hline htoken ih =>
    cases hcat : seg.category <;> simp_all [tokensFrom]

private theorem errorsFrom_add (below : Nat) :
    errorsFrom (line + below) segs
      = (errorsFrom line segs).map fun e => { e with line := e.line + below } := by
  fun_induction errorsFrom line segs with
  | case1 => rfl
  | case2 line seg segs hcat ih => simp [errorsFrom, hcat, ← ih, Nat.add_right_comm]
  | case3 line seg segs hcat ih => simp [errorsFrom, hcat, ih]
  | case4 line seg segs hline hdropped ih =>
    cases hcat : seg.category <;> simp_all [errorsFrom]

end

/-- The line ends among the segments of a source are those of the source. -/
theorem lineEnds_segments (source : List Char) :
    lineEnds (segments source) = source.count '\n' :=
  ((isCut_iff.mpr rfl : IsCut source (segments source)).lines []).2.2

/-- **Line ends part a source.** A source of two parts with a line end between them has the tokens
of the first part, without its end mark, and then the tokens of the second part, one line lower than
the first part reaches; and the same holds of what is dropped. -/
theorem scan_append_newline (before after : String) :
    scan (before ++ "\n" ++ after) =
      let below := 1 + before.toList.count '\n'
      ⟨(scan before).tokens.dropLast ++
          (scan after).tokens.map fun t => { t with line := t.line + below },
        (scan before).errors ++
          (scan after).errors.map fun e => { e with line := e.line + below }⟩ := by
  have hlist : (before ++ "\n" ++ after).toList = before.toList ++ '\n' :: after.toList := by
    simp
  -- The tokens of the second part begin below the line ends of the first one and the one between.
  have hbelow : 1 + before.toList.count '\n' + 1 = 1 + (1 + before.toList.count '\n') := by omega
  have hlast : 1 + (before.toList ++ '\n' :: after.toList).count '\n'
      = 1 + after.toList.count '\n' + (1 + before.toList.count '\n') := by
    rw [List.count_append, List.count_cons_self]
    omega
  simp only [scan, Scanner.ofSource, Scanner.tokenize, hlist, lineEnds_segments, hlast]
  simp only [segments_append_newline, tokensFrom_append, errorsFrom_append, lineEnds_segments,
    tokensFrom, errorsFrom, hbelow, tokensFrom_add, errorsFrom_add]
  simp [Token.endMark]

end ScriptTree
