import ScriptTree.Command
import ScriptTree.Proofs.Lines
import ScriptTree.Proofs.Position.Anchors
import ScriptTree.Proofs.Scan.LongestMatch

/-!
# Every message is one line

The error output is a text, and it is read line by line (`Command.textLines`). The lines found are
the messages that were written, because no message has a line end in it: neither a token of a scan
nor a dropped character can hold one, the words of errors have none, and numbers are digits
(`Command.isLine_of_mem_respondToScan`). The only text from elsewhere is the name of the file, which
is in no message unless the file is missing.
-/

namespace ScriptTree

/-! ### Lines -/

namespace Command

/-- The lines of a text. What is behind the last line end counts as a line, empty as a rule. -/
def textLines (text : String) : List String :=
  (text.toList.splitOn '\n').map String.ofList

/-- The first line comes first, with its end. -/
private theorem toList_unlines_cons (l : String) (ls : List String) :
    (unlines (l :: ls)).toList = l.toList ++ '\n' :: (unlines ls).toList := by
  simp [unlines]

/-- Lines that were put together are found again. -/
theorem textLines_unlines {ls : List String} (h : ∀ l ∈ ls, IsLine l) :
    textLines (unlines ls) = ls ++ [""] := by
  unfold textLines
  induction ls with
  | nil => simp [unlines]
  | cons l ls ih =>
    obtain ⟨hl, hls⟩ := List.forall_mem_cons.mp h
    have hsep : ∀ c ∈ l.toList, (c == '\n') = false := by
      intro c hc
      simpa using fun heq : c = '\n' => hl (heq ▸ hc)
    rw [toList_unlines_cons, List.splitOn,
      List.splitOnP_append_cons_of_forall_mem hsep _ (by simp), List.map_cons]
    have hrest := ih hls
    rw [List.splitOn] at hrest
    rw [hrest, String.ofList_toList, List.cons_append]

/-- A text put together from lines, when the last one is left open and empty. -/
theorem intercalate_append_nil (ls : List String) :
    "\n".intercalate (ls ++ [""]) = unlines ls := by
  apply String.toList_injective
  induction ls with
  | nil => simp [unlines]
  | cons l ls ih =>
    rw [String.toList_intercalate] at ih ⊢
    rw [toList_unlines_cons, ← ih]
    cases ls with
    | nil => simp
    | cons l' ls => simp [List.intercalate_cons_cons]

end Command

/-! ### Words -/

/-- Names of kinds are words. -/
@[simp] theorem Kind.isLine_name (k : Kind) : IsLine k.name := by
  cases k <;> decide

/-- So are their spellings. -/
@[simp] theorem Kind.isLine_written (k : Kind) : IsLine k.written := by
  cases k <;> decide

@[simp] theorem Terminated.isLine_text (c : Terminated) : IsLine c.text := by
  cases c <;> decide

@[simp] theorem BlockPlace.isLine_text (p : BlockPlace) : IsLine p.text := by
  cases p <;> decide

@[simp] theorem NamePlace.isLine_text (p : NamePlace) : IsLine p.text := by
  cases p <;> decide

/-- What is expected is said on one line, whatever it is. -/
@[simp] theorem Expectation.isLine_text (x : Expectation) : IsLine x.text := by
  cases x <;>
    · unfold text
      simp +decide

/-- So is what is wrong with an expression. -/
@[simp] theorem ExpressionFault.isLine_text (x : ExpressionFault) : IsLine x.text := by
  cases x <;> decide

/-! ### Errors -/

/-- A description quotes the lexeme and adds nothing that could end a line. -/
private theorem Token.isLine_describe {t : Token} (h : IsLine t.lexeme) : IsLine t.describe := by
  unfold describe
  split
  · decide
  · simp +decide [h]
  · simp +decide [h]

/-- An end mark has no text. -/
private theorem Token.isLine_endMark (n : Nat) : IsLine (endMark n).lexeme := by
  change IsLine ""
  decide

private theorem ParseError.isLine_unexpected (expected : Expectation) {t : Token}
    (ht : IsLine t.describe) : IsLine (unexpected expected t).complaint := by
  unfold complaint unexpected complaintOfUnexpected
  simp +decide [ht]

private theorem ParseError.isLine_invalid (fault : ExpressionFault) {t : Token}
    (ht : IsLine t.describe) : IsLine (invalid fault t).complaint := by
  unfold complaint invalid complaintOfInvalid
  simp +decide [ht]

private theorem ParseError.isLine_missing {operator t : Token} (hop : IsLine operator.lexeme)
    (ht : IsLine t.describe) : IsLine (missing operator t).complaint := by
  unfold complaint missing
  simp +decide [hop, ht]

/-- The report adds the number of a line to the complaint. -/
private theorem ParseError.isLine_message {e : ParseError} (h : IsLine e.complaint) :
    IsLine e.message := by
  unfold message reportOf
  simp +decide [h]

/-- What an error says is one line if the tokens have no line ends. -/
theorem AnchoredAt.isLine_complaint {tokens : List Token} {i : Nat} {e : ParseError}
    (h : AnchoredAt tokens i e) (htokens : ∀ t ∈ tokens, IsLine t.lexeme) :
    IsLine e.complaint := by
  have hdescribe {k : Nat} {t : Token} (ht : tokens[k]? = some t) : IsLine t.describe :=
    Token.isLine_describe (htokens t (List.mem_of_getElem? ht))
  have hop {k : Nat} {op : Token} (hmem : op ∈ tokens.take k) : IsLine op.lexeme :=
    htokens op (List.mem_of_mem_take hmem)
  cases h with
  | unexpected ht => exact ParseError.isLine_unexpected _ (hdescribe ht)
  | unterminated =>
    unfold ParseError.complaint
    simp +decide
  | mismatched ht =>
    unfold ParseError.complaint
    simp +decide [hdescribe ht]
  | invalid ht => exact ParseError.isLine_invalid _ (hdescribe ht)
  | emptyBefore ht => exact ParseError.isLine_invalid _ (hdescribe ht)
  | missing ht hmem => exact ParseError.isLine_missing (hop hmem) (hdescribe ht)
  | missingBefore ht _ hmem => exact ParseError.isLine_missing (hop hmem) (hdescribe ht)

/-- No dropped character is a line end. -/
private theorem IsCut.character_ne {source : List Char} {segs : List Segment}
    (h : IsCut source segs) {line : Nat} {e : ScanError} (he : e ∈ errorsFrom line segs) :
    e.character ≠ '\n' := by
  induction h generalizing line with
  | nil => simp [errorsFrom] at he
  | @cons seg _ segs hnext _ ih =>
    unfold errorsFrom at he
    split at he
    · exact ih he
    · next hcat =>
      rcases List.mem_append.mp he with he | he
      · obtain ⟨c, hc, rfl⟩ := List.mem_map.mp he
        have hcount := hnext.count_newline
        rw [if_neg (by simp [hcat]), List.count_eq_zero] at hcount
        exact fun heq => hcount (heq ▸ hc)
      · exact ih he
    · exact ih he

/-- A message about a dropped character quotes it, so it must not be a line end. -/
private theorem ScanError.isLine_message {e : ScanError} (h : e.character ≠ '\n') :
    IsLine e.message := by
  have hreason : IsLine e.reason := by
    unfold reason
    split
    · decide
    · simp +decide [IsLine.toString_char h]
  unfold message
  simp +decide [hreason]

/-! ### Scans and programs -/

section Scan

variable (source : String)

/-- No lexeme of a scan goes over the end of a line. -/
theorem isLine_lexeme_of_mem_scan {t : Token} (h : t ∈ (scan source).tokens) : IsLine t.lexeme := by
  rcases Scanner.isWellSpelled_of_mem_tokenize h with hspelled | hend
  · exact (Category.matches_token_iff.mpr hspelled).not_mem_newline (by simp)
  · rw [hend]
    exact Token.isLine_endMark _

/-- The messages about dropped characters are one line each. -/
private theorem isLine_message_of_mem_scan {e : ScanError} (h : e ∈ (scan source).errors) :
    IsLine e.message :=
  ScanError.isLine_message ((isCut_iff.mpr rfl : IsCut source.toList _).character_ne h)

/-- An end mark has no text, so closing a list keeps its tokens free of line ends. -/
private theorem isLine_lexeme_of_mem_closeTokens {ts : List Token} (h : ∀ t ∈ ts, IsLine t.lexeme) :
    ∀ t ∈ closeTokens ts, IsLine t.lexeme := by
  unfold closeTokens
  split
  · simpa using Token.isLine_endMark 1
  · split
    · exact h
    · simpa [or_imp, forall_and] using ⟨h, Token.isLine_endMark _⟩

/-- So is the report of a failed reading, which quotes lexemes only. -/
private theorem isLine_message_of_parse {e : ParseError}
    (h : (Input.ofTokens (scan source).tokens).parse.result = .error e) : IsLine e.message := by
  have hanchored : AnchoredAt (closeTokens (scan source).tokens)
      (stopIndex (scan source).tokens 1) e := anchoredAt_of_parse h
  exact ParseError.isLine_message (hanchored.isLine_complaint
    (isLine_lexeme_of_mem_closeTokens fun _ => isLine_lexeme_of_mem_scan source))

end Scan

/-! ### Answers -/

namespace Command

/-- If only the tokens are asked for, nothing is read from them. -/
theorem respondToScan_tokens (s : Scan) :
    respondToScan true s = ⟨0, unlines (s.tokens.map Token.entry), scanMessages s⟩ :=
  rfl

/-- A program is drawn, and the summary comes after the trace. -/
theorem respondToScan_of_ok {s : Scan} {p : Program}
    (h : (Input.ofTokens s.tokens).parse.result = .ok p) :
    respondToScan false s = ⟨0, (Node.program p).text,
      scanMessages s ++ (Input.ofTokens s.tokens).parse.heads.map headMessage ++
        programMessages p⟩ := by
  simp [respondToScan, h]

/-- If reading fails, there is a report of the error and no output. -/
theorem respondToScan_of_error {s : Scan} {e : ParseError}
    (h : (Input.ofTokens s.tokens).parse.result = .error e) :
    respondToScan false s = ⟨1, "",
      scanMessages s ++ (Input.ofTokens s.tokens).parse.heads.map headMessage ++
        [.report s!"{errorTag} {e.message}"]⟩ := by
  simp [respondToScan, h]

/-- What holds of the messages of each sort holds of all messages about a text. -/
theorem forall_mem_respondToScan {P : Message → Prop} (tokens : Bool) {s : Scan}
    (hscan : ∀ m ∈ scanMessages s, P m) (hhead : ∀ head, P (headMessage head))
    (hprogram : ∀ p, ∀ m ∈ programMessages p, P m)
    (herror : ∀ e, (Input.ofTokens s.tokens).parse.result = .error e →
      P (.report s!"{errorTag} {e.message}")) :
    ∀ m ∈ (respondToScan tokens s).messages, P m := by
  have hheads : ∀ m ∈ scanMessages s ++
      (Input.ofTokens s.tokens).parse.heads.map headMessage, P m :=
    List.forall_mem_append.mpr ⟨hscan, List.forall_mem_map.mpr fun head _ => hhead head⟩
  cases tokens with
  | true => exact hscan
  | false =>
    cases h : (Input.ofTokens s.tokens).parse.result with
    | ok p =>
      rw [respondToScan_of_ok h]
      exact List.forall_mem_append.mpr ⟨hheads, hprogram p⟩
    | error e =>
      rw [respondToScan_of_error h]
      exact List.forall_mem_append.mpr ⟨hheads, List.forall_mem_singleton.mpr (herror e h)⟩

/-! ### Messages -/

@[simp] theorem LogLevel.isLine_tag (level : LogLevel) : IsLine level.tag := by
  cases level <;> decide

private theorem Message.isLine_log {level : LogLevel} {text : String} (h : IsLine text) :
    IsLine (log level text).line := by
  unfold line
  simp +decide [h]

private theorem isLine_of_mem_scanMessages (source : String) :
    ∀ m ∈ scanMessages (scan source), IsLine m.line := by
  have herror : ∀ e ∈ (scan source).errors, IsLine e.message :=
    fun _ => isLine_message_of_mem_scan source
  intro m hm
  simp only [scanMessages, List.mem_append, List.mem_map, List.mem_singleton] at hm
  rcases hm with (⟨e, he, rfl⟩ | rfl) | ⟨e, he, rfl⟩
  · refine Message.isLine_log ?_
    simp +decide [herror e he]
  · refine Message.isLine_log ?_
    simp +decide
  · change IsLine (_ ++ _)
    simp +decide [herror e he]

private theorem isLine_headMessage (head : Token) : IsLine (headMessage head).line := by
  refine Message.isLine_log ?_
  simp +decide

private theorem isLine_of_mem_programMessages (p : Program) :
    ∀ m ∈ programMessages p, IsLine m.line := by
  intro m hm
  simp only [programMessages, List.mem_cons, List.not_mem_nil, or_false] at hm
  rcases hm with rfl | rfl
  · refine Message.isLine_log ?_
    simp +decide
  · change IsLine (_ ++ _)
    simp +decide

private theorem isLine_error {text : String} (h : IsLine text) : IsLine s!"{errorTag} {text}" := by
  simp +decide [h]

/-- Every message about a text is one line. -/
theorem isLine_of_mem_respondToScan (tokens : Bool) (source : String) :
    ∀ m ∈ (respondToScan tokens (scan source)).messages, IsLine m.line :=
  forall_mem_respondToScan tokens (isLine_of_mem_scanMessages source) isLine_headMessage
    isLine_of_mem_programMessages fun _ he => isLine_error (isLine_message_of_parse source he)

/-- Every message about a document is one line, unless the name of a missing file is not. -/
theorem isLine_of_mem_respond (tokens : Bool) {file : String} {document : Document}
    (h : document = .missing → IsLine file) :
    ∀ m ∈ (respond tokens file document).messages, IsLine m.line := by
  cases document with
  | missing =>
    refine List.forall_mem_singleton.mpr ?_
    change IsLine (_ ++ _)
    simp +decide [h rfl]
  | undecodable =>
    refine List.forall_mem_singleton.mpr ?_
    change IsLine (_ ++ _)
    decide
  | text source => exact isLine_of_mem_respondToScan tokens source

end Command

end ScriptTree
