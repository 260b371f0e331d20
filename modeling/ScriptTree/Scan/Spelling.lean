import ScriptTree.Scan.Segment
import ScriptTree.Token.Basic

/-!
# Spelling

Every kind of token but the end mark can be written in a script, and `Kind.admits` says which texts
are written for it: the fixed spelling of marks and reserved words, words that are not reserved for
identifiers, digits with or without a fraction for numbers, one quoted character, and the four truth
values.

The pieces that a source is cut into agree with this: a segment that is a token of some kind has a
text that the kind admits (`admits_of_mem_segments`).
-/

namespace ScriptTree

/-- A letter or underscore followed by letters, digits and underscores. -/
def isWord : List Char → Bool
  | c :: cs => isWordStart c && cs.all isWordChar
  | [] => false

/-- One digit or more. -/
def isWhole (text : List Char) : Bool :=
  !text.isEmpty && text.all Char.isDigit

/-- Digits, a point, and digits. -/
def isDecimal (text : List Char) : Bool :=
  let whole := text.takeWhile Char.isDigit
  match text.drop whole.length with
  | '.' :: fraction => !whole.isEmpty && isWhole fraction
  | _ => false

/-- One character between quotes, not a line end. -/
def isQuoted : List Char → Bool
  | ['\'', c, '\''] => c != '\n'
  | _ => false

/-- Whether a text can be written for a token of this kind. -/
def Kind.admits (k : Kind) (text : List Char) : Bool :=
  match k with
  | .identifier => isWord text && (Kind.keyword? (String.ofList text)).isNone
  | .intLiteral => isWhole text
  | .floatLiteral => isDecimal text
  | .charLiteral => isQuoted text
  | .boolLiteral => Kind.keyword? (String.ofList text) == some .boolLiteral
  | .eof => false
  | k => k.spelling? == some (String.ofList text)

/-- Whether a token is written as its kind demands. -/
def Token.isWellSpelled (t : Token) : Bool :=
  t.kind.admits t.lexeme.toList

/-! ### Segments are well spelled -/

/-- A reserved word is admitted by its kind. -/
theorem Kind.admits_of_keyword? {text : List Char} {k : Kind}
    (h : Kind.keyword? (String.ofList text) = some k) : k.admits text = true := by
  by_cases hk : k = .boolLiteral
  · subst hk
    simp [admits, h]
  · have hs := Kind.spelling?_of_keyword? h hk
    cases k <;> simp_all [admits, spelling?]

/-- A word is admitted by the kind that it is given. -/
theorem Kind.admits_wordKind {text : List Char} (h : isWord text = true) :
    (Segment.wordKind text).admits text = true := by
  unfold Segment.wordKind
  cases hk : Kind.keyword? (String.ofList text) with
  | none => simp [admits, h, hk]
  | some k => exact admits_of_keyword? hk

namespace Segment

/-- A text begins with what `takeWhile` takes from it. -/
theorem take_length_takeWhile (p : Char → Bool) (cs : List Char) :
    cs.take (cs.takeWhile p).length = cs.takeWhile p :=
  (List.prefix_iff_eq_take.mp (List.takeWhile_prefix p)).symm

/-- The fraction that continues a number is a point and digits, or nothing. -/
theorem take_fractionLength (cs : List Char) :
    fractionLength cs = 0 ∨
      ∃ fraction, isWhole fraction = true ∧ cs.take (fractionLength cs) = '.' :: fraction := by
  unfold fractionLength
  split
  · next d cs =>
    split
    · next hd =>
      refine .inr ⟨d :: cs.takeWhile Char.isDigit, ?_, ?_⟩
      · simp [isWhole, hd, List.all_takeWhile]
      · rw [Nat.add_comm, List.take_succ_cons, List.take_succ_cons, take_length_takeWhile]
    · exact .inl rfl
  · exact .inl rfl

theorem isDecimal_append {whole fraction : List Char} (hw : isWhole whole = true)
    (hf : isWhole fraction = true) : isDecimal (whole ++ '.' :: fraction) = true := by
  simp only [isWhole, Bool.and_eq_true, Bool.not_eq_true', List.all_eq_true] at hw
  have htake : (whole ++ '.' :: fraction).takeWhile Char.isDigit = whole := by
    rw [List.takeWhile_append_of_pos hw.2]
    simp
  simp [isDecimal, htake, hw.1, hf]

/-- A number is written with digits, and with a point and more digits if it has a fraction. -/
theorem admits_number {c : Char} {cs : List Char} {k : Kind} (hc : c.isDigit = true)
    (h : (number cs).1 = .token k) : k.admits (c :: cs.take (number cs).2) = true := by
  have hwhole : isWhole (c :: cs.takeWhile Char.isDigit) = true := by
    simp [isWhole, hc, List.all_takeWhile]
  simp only [number, Category.token.injEq] at h ⊢
  rw [List.take_add, take_length_takeWhile]
  split at h
  · next hzero =>
    subst h
    simpa [hzero, Kind.admits] using hwhole
  · next hzero =>
    subst h
    rcases take_fractionLength (cs.drop (cs.takeWhile Char.isDigit).length) with h₀ | ⟨f, hf, he⟩
    · exact absurd h₀ hzero
    · rw [he]
      exact isDecimal_append hwhole hf

/-- A quote begins a well spelled literal or no token. -/
theorem admits_quoted {cs : List Char} {k : Kind} (h : (quoted cs).1 = .token k) :
    k.admits ('\'' :: cs.take (quoted cs).2) = true := by
  unfold quoted at h ⊢
  split at h
  · split at h
    · simp at h
    · next hc =>
      obtain rfl := Category.token.inj h
      simp [Kind.admits, isQuoted, hc]
  · simp at h

/-- A mark is written with its fixed spelling. -/
theorem admits_mark {c : Char} {cs : List Char} {k : Kind} (h : (mark c cs).1 = .token k) :
    k.admits (c :: cs.take (mark c cs).2) = true := by
  unfold mark at h ⊢
  split at h
  · next k' hk =>
    obtain rfl := Category.token.inj h
    obtain ⟨d, hd, hdouble⟩ := Option.bind_eq_some_iff.mp hk
    obtain ⟨tail, rfl⟩ : ∃ tail, cs = d :: tail := by cases cs <;> simp_all
    clear hk
    unfold doubleMark? at hdouble
    split at hdouble <;> simp_all <;> subst hdouble <;> decide
  · split at h
    · next hk =>
      obtain rfl := Category.token.inj h
      unfold mark? at hk
      split at hk <;> simp_all <;> subst hk <;> decide
    · simp at h

/-- Whatever the next segment is, a token is written as its kind demands. -/
theorem admits_first {c : Char} {cs : List Char} {k : Kind} (h : (first c cs).1 = .token k) :
    k.admits (c :: cs.take (first c cs).2) = true := by
  unfold first at h ⊢
  split at h
  · simp at h
  split at h
  · simp at h
  split at h
  · next hblank hline hstart =>
    simp only [hblank, hline, hstart, Bool.false_eq_true, ↓reduceIte]
    simp only [word, Category.token.injEq] at h ⊢
    subst h
    rw [take_length_takeWhile]
    exact Kind.admits_wordKind (by simp [isWord, hstart, List.all_takeWhile])
  split at h
  · next hblank hline hstart hdigit =>
    simp only [hblank, hline, hstart, hdigit, Bool.false_eq_true, ↓reduceIte]
    exact admits_number hdigit h
  split at h
  · next hquote =>
    subst hquote
    exact admits_quoted h
  split at h
  · simp at h
  · next hblank hline hstart hdigit hquote hcomment =>
    simp only [hblank, hline, hstart, hdigit, hquote, hcomment, Bool.false_eq_true, ↓reduceIte]
    exact admits_mark h

end Segment

/-- A segment that is a token has a text that the token's kind admits. -/
theorem admits_of_mem_segments {source : List Char} {seg : Segment} {k : Kind}
    (h : seg ∈ segments source) (hk : seg.category = .token k) : k.admits seg.text = true := by
  fun_induction segments source with
  | case1 => simp at h
  | case2 c cs next ih =>
    rcases List.mem_cons.mp h with rfl | h
    · exact Segment.admits_first hk
    · exact ih h

end ScriptTree
