import ScriptTree.Proofs.Scan.Boundary

/-!
# Scanning words between blanks

A well spelled token ends before a blank, and at the end of a source. So tokens that are written
with a blank between any two of them are scanned as they are, all on the first line
(`scan_intercalate`).

A text is written for at most one kind of token (`Kind.admits_unique`), so a token is known by its
text and its line alone; `Token.ofWord` makes it from the text.
-/

namespace ScriptTree

/-! ### The kind of a text -/

/-- A text is written for at most one kind. -/
theorem Kind.admits_unique {k l : Kind} {text : List Char} (hk : k.admits text = true)
    (hl : l.admits text = true) : k = l := by
  obtain ⟨c, cs, rfl⟩ := List.exists_cons_of_ne_nil (Category.matches_token_iff.mpr hk).ne_nil
  have heq := (Segment.first_of_admits hk).symm.trans (Segment.first_of_admits hl)
  exact Category.token.inj (congrArg Prod.fst heq)

/-- The kind that a text is written for; the end mark if there is none. -/
def Kind.ofText (text : List Char) : Kind :=
  (all.find? (·.admits text)).getD .eof

theorem Kind.ofText_eq {k : Kind} {text : List Char} (h : k.admits text = true) :
    ofText text = k := by
  have hsome : (all.find? (·.admits text)).isSome = true :=
    List.find?_isSome.mpr ⟨k, mem_all k, h⟩
  obtain ⟨l, hl⟩ := Option.isSome_iff_exists.mp hsome
  rw [ofText, hl, Option.getD_some]
  exact admits_unique (by simpa using List.find?_some hl) h

private theorem Kind.admits_ofText {text : List Char} (h : ofText text ≠ .eof) :
    (ofText text).admits text = true := by
  cases hfind : all.find? (·.admits text) with
  | none => exact absurd (by rw [ofText, hfind, Option.getD_none]) h
  | some k =>
    rw [ofText, hfind, Option.getD_some]
    simpa using List.find?_some hfind

private theorem Kind.admits_of_spelling? {k : Kind} {w : String} (h : k.spelling? = some w) :
    k.admits w.toList = true := by
  cases k <;> simp_all [admits, spelling?]

namespace Token

/-- The token that a text stands for, on the first line. -/
def ofWord (w : String) : Token :=
  ⟨Kind.ofText w.toList, w, 1⟩

@[simp] theorem ofWord_lexeme (w : String) : (ofWord w).lexeme = w := rfl

/-- A well spelled token is the one that its text stands for, up to its line. -/
theorem ofWord_lexeme_of_isWellSpelled {t : Token} (h : t.isWellSpelled = true) :
    ofWord t.lexeme = { t with line := 1 } := by
  rw [ofWord, Kind.ofText_eq h]

/-- A fixed spelling stands for its kind. -/
theorem kind_ofWord {k : Kind} {w : String} (h : k.spelling? = some w) : (ofWord w).kind = k :=
  Kind.ofText_eq (Kind.admits_of_spelling? h)

theorem isWellSpelled_ofWord {w : String} (h : (ofWord w).kind ≠ .eof) :
    (ofWord w).isWellSpelled = true :=
  Kind.admits_ofText h

/-- The segment that a token is written as. -/
def segment (t : Token) : Segment :=
  ⟨.token t.kind, t.lexeme.toList⟩

end Token

/-! ### Words and blanks -/

/-- A token before a blank, or at the end, is the longest piece. -/
private theorem Segment.isNext_token {k : Kind} {text rest : List Char} (h : k.admits text = true)
    (hrest : rest = [] ∨ rest.head? = some ' ') : IsNext (text ++ rest) ⟨.token k, text⟩ := by
  refine (isNext_append_iff h).mpr ?_
  rcases hrest with rfl | hhead
  · exact endsBefore_nil
  · obtain ⟨cs, rfl⟩ := List.head?_eq_some_iff.mp hhead
    exact endsBefore_space (.inl rfl)

namespace Token

/-- The segments of tokens with a blank between any two of them. -/
def spacedSegments (ts : List Token) : List Segment :=
  (ts.map segment).intersperse ⟨.blank, [' ']⟩

/-- Tokens with blanks between them are cut into these tokens and blanks. -/
private theorem isCut_spacedSegments {ts : List Token} (h : ∀ t ∈ ts, t.isWellSpelled = true) :
    IsCut (" ".intercalate (ts.map lexeme)).toList (spacedSegments ts) := by
  induction ts with
  | nil => exact .nil
  | cons t ts ih =>
    have ht : t.kind.admits t.lexeme.toList = true := h t List.mem_cons_self
    have hcut := ih fun u hu => h u (List.mem_cons_of_mem _ hu)
    rcases ts with _ | ⟨u, us⟩
    · have hnext : t.segment.IsNext (t.segment.text ++ []) := Segment.isNext_token ht (.inl rfl)
      have hlast := IsCut.cons hnext .nil
      simpa [segment, spacedSegments] using hlast
    · have hnext (rest : List Char) : t.segment.IsNext (t.segment.text ++ ' ' :: rest) :=
        Segment.isNext_token ht (.inr rfl)
      simpa [segment, spacedSegments] using IsCut.cons (hnext _) (.blank rfl hcut)

private theorem tokensFrom_spacedSegments (line : Nat) (ts : List Token) :
    tokensFrom line (spacedSegments ts) = ts.map fun t => { t with line := line } := by
  induction ts with
  | nil => rfl
  | cons t ts ih =>
    rcases ts with _ | ⟨u, us⟩
    · simp [spacedSegments, tokensFrom, segment]
    · simpa [spacedSegments, tokensFrom, segment] using ih

private theorem errorsFrom_spacedSegments (line : Nat) (ts : List Token) :
    errorsFrom line (spacedSegments ts) = [] := by
  induction ts with
  | nil => rfl
  | cons t ts ih =>
    rcases ts with _ | ⟨u, us⟩
    · rfl
    · simpa [spacedSegments, errorsFrom, segment] using ih

private theorem lineEnds_spacedSegments (ts : List Token) : lineEnds (spacedSegments ts) = 0 := by
  induction ts with
  | nil => rfl
  | cons t ts ih =>
    rcases ts with _ | ⟨u, us⟩
    · rfl
    · simpa [spacedSegments, lineEnds, segment] using ih

end Token

/-- Well spelled tokens with blanks between them are scanned as they are, all on the first line, and
nothing is dropped. -/
theorem scan_intercalate {ts : List Token} (h : ∀ t ∈ ts, t.isWellSpelled = true) :
    scan (" ".intercalate (ts.map Token.lexeme))
      = ⟨ts.map (fun t => { t with line := 1 }) ++ [Token.endMark 1], []⟩ := by
  have hsegs := isCut_iff.mp (Token.isCut_spacedSegments h)
  simp only [scan, Scanner.ofSource, Scanner.tokenize]
  rw [← hsegs, Token.tokensFrom_spacedSegments, Token.errorsFrom_spacedSegments,
    Token.lineEnds_spacedSegments]
  rfl

end ScriptTree
