import ScriptTree.Scan.Scanner

/-!
# The scanner takes the longest match

`Category.Matches` lists what the pieces of a source look like, class by class and without a word on
how they are found. `Segment.IsNext` says that a segment is the longest piece of any class with
which a source begins, or one dropped character of a source that begins with no such piece, and
`IsCut` that a source is cut into such segments from its start to its end.

Every source has exactly one cut (`isCut_iff`), and `scan_longest_match` says that a scan gives the
tokens and the dropped characters of this cut, in order, each on the line that the line ends before
it tell.
-/

namespace ScriptTree

/-! ### The classes -/

/-- The kinds of the marks: punctuation and the operators that are not words. -/
def Kind.marks : List Kind :=
  [leftParen, rightParen, leftBracket, rightBracket, comma, colon, dollar, equal,
    plus, minus, star, slash, modulo, ampersand,
    greater, greaterEqual, less, lessEqual, equalEqual, notEqual]

/-- The texts of each class of pieces. A word gets its kind from the table of reserved words. -/
inductive Category.Matches : Category → List Char → Prop where
  | blank {c : Char} : c = ' ' ∨ c = '\t' ∨ c = '\r' → Matches .blank [c]
  | newline : Matches .newline ['\n']
  | comment {text : List Char} : '\n' ∉ text → Matches .comment ('%' :: '%' :: text)
  | word {text : List Char} : isWord text = true → Matches (.token (Segment.wordKind text)) text
  | whole {text : List Char} : isWhole text = true → Matches (.token .intLiteral) text
  | decimal {whole fraction : List Char} : isWhole whole = true → isWhole fraction = true →
    Matches (.token .floatLiteral) (whole ++ '.' :: fraction)
  | quoted {c : Char} : c ≠ '\n' → Matches (.token .charLiteral) ['\'', c, '\'']
  | mark {k : Kind} {s : String} : k ∈ Kind.marks → k.spelling? = some s →
    Matches (.token k) s.toList

/-- A source begins with this segment: with the longest piece of any class, or with a character that
is dropped because no piece of any class stands there. -/
inductive Segment.IsNext (source : List Char) : Segment → Prop where
  | longest {cat : Category} {text : List Char} : text <+: source → cat.Matches text →
    (∀ cat' text', text' <+: source → Category.Matches cat' text' → text'.length ≤ text.length) →
      IsNext source ⟨cat, text⟩
  | dropped {c : Char} : [c] <+: source →
    (∀ cat text, text <+: source → ¬ Category.Matches cat text) → IsNext source ⟨.dropped, [c]⟩

/-- A source is cut into consecutive segments, each of which is the next one where it begins. -/
inductive IsCut : List Char → List Segment → Prop where
  | nil : IsCut [] []
  | cons {seg : Segment} {rest : List Char} {segs : List Segment} :
    seg.IsNext (seg.text ++ rest) → IsCut rest segs → IsCut (seg.text ++ rest) (seg :: segs)

namespace Category

/-! ### Classes and kinds -/

/-- A mark is one character, or two. -/
theorem mark_cases {k : Kind} {s : String} (hk : k ∈ Kind.marks) (hs : k.spelling? = some s) :
    (∃ c, s.toList = [c] ∧ mark? c = some k) ∨
      ∃ c d, s.toList = [c, d] ∧ doubleMark? c d = some k := by
  cases k <;> try exact absurd hk (by decide)
  all_goals
    obtain rfl := Option.some.inj hs
    first
      | exact .inl ⟨_, rfl, rfl⟩
      | exact .inr ⟨_, _, rfl, rfl⟩

/-- No piece of any class is empty. -/
theorem Matches.ne_nil {cat : Category} {text : List Char} (h : cat.Matches text) : text ≠ [] := by
  cases h with
  | word hw => rintro rfl; simp [isWord] at hw
  | whole hw => rintro rfl; simp [isWhole] at hw
  | mark hk hs =>
    rcases mark_cases hk hs with ⟨c, hc, -⟩ | ⟨c, d, hc, -⟩ <;> simp [hc]
  | _ => simp

end Category

namespace Segment

/-! ### The first character tells the class -/

variable {c : Char} {cs : List Char}

/-- A character with a property is none of those without it. -/
private theorem ne_of_property {p : Char → Bool} {c d : Char} (hc : p c = true)
    (hd : p d = false) : c ≠ d := by
  rintro rfl
  simp [hc] at hd

theorem first_blank (h : isBlank c = true) : first c cs = (.blank, 0) := by
  simp [first, h]

theorem first_newline : first '\n' cs = (.newline, 0) := rfl

theorem first_word (h : isWordStart c = true) : first c cs = word c cs := by
  have hne {d : Char} (hd : isWordStart d = false) : c ≠ d := ne_of_property h hd
  have hblank : isBlank c = false := by
    simp [isBlank, hne (d := ' ') rfl, hne (d := '\t') rfl, hne (d := '\r') rfl]
  simp [first, hblank, hne (d := '\n') rfl, h]

theorem isWordStart_eq_false_of_isDigit (h : c.isDigit = true) : isWordStart c = false := by
  have hne : c ≠ '_' := ne_of_property h rfl
  simp only [Char.isDigit, Bool.and_eq_true, decide_eq_true_eq, ge_iff_le,
    UInt32.le_iff_toNat_le] at h
  have hnine : '9'.val.toNat = 57 := rfl
  have hA : 'A'.val.toNat = 65 := rfl
  have ha : 'a'.val.toNat = 97 := rfl
  have hupper : ¬('A'.val ≤ c.val) := by
    rw [UInt32.le_iff_toNat_le]
    omega
  have hlower : ¬('a'.val ≤ c.val) := by
    rw [UInt32.le_iff_toNat_le]
    omega
  have halpha : c.isAlpha = false := by
    change (decide ('A'.val ≤ c.val ∧ c.val ≤ 'Z'.val) ||
      decide ('a'.val ≤ c.val) && decide (c.val ≤ 'z'.val)) = false
    simp only [hupper, hlower, false_and, decide_false, Bool.false_and, Bool.or_self]
  rw [isWordStart, halpha, Bool.false_or, beq_eq_false_iff_ne]
  exact hne

theorem first_number (h : c.isDigit = true) : first c cs = number cs := by
  have hne {d : Char} (hd : d.isDigit = false) : c ≠ d := ne_of_property h hd
  have hblank : isBlank c = false := by
    simp [isBlank, hne (d := ' ') rfl, hne (d := '\t') rfl, hne (d := '\r') rfl]
  simp [first, hblank, hne (d := '\n') rfl, isWordStart_eq_false_of_isDigit h, h]

theorem first_quote : first '\'' cs = quoted cs := rfl

theorem first_comment : first '%' ('%' :: cs)
    = (.comment, ('%' :: cs).takeWhile (· ≠ '\n') |>.length) := rfl

theorem first_mark {k : Kind} (h : mark? c = some k) (hcomment : c = '%' → cs.head? ≠ some '%') :
    first c cs = mark c cs := by
  unfold mark? at h
  split at h
  case h_13 => simp [first, isBlank, isWordStart, hcomment]
  all_goals first | rfl | contradiction

/-- Two characters that make a mark are read together. -/
theorem first_doubleMark {d : Char} {k : Kind} (h : doubleMark? c d = some k) :
    first c (d :: cs) = (.token k, 1) := by
  have hfirst : ∃ l, mark? c = some l ∧ c ≠ '%' := by
    unfold doubleMark? at h
    split at h <;> first | exact ⟨_, rfl, by decide⟩ | contradiction
  obtain ⟨l, hmark, hne⟩ := hfirst
  rw [first_mark hmark fun hc => absurd hc hne]
  simp [mark, h]

end Segment

namespace Category

/-! ### The next segment is the longest match -/

/-- What `next` announces is no shorter than the text, and of the same class if it is as long. -/
def Covers (cat : Category) (text : List Char) (next : Category × Nat) : Prop :=
  next.1 ≠ .dropped ∧ text.length ≤ next.2 + 1 ∧ (text.length = next.2 + 1 → next.1 = cat)

/-- Characters with a property at the start of a text are at most as many as it begins with. -/
private theorem prefix_takeWhile {p : Char → Bool} {text cs : List Char} (h : text <+: cs)
    (hp : ∀ c ∈ text, p c = true) : text <+: cs.takeWhile p := by
  obtain ⟨rest, rfl⟩ := h
  rw [List.takeWhile_append_of_pos hp]
  exact List.prefix_append _ _

private theorem covers_word {c : Char} {cs tail : List Char} (hword : isWord (c :: tail) = true)
    (h : tail <+: cs) :
    Covers (.token (Segment.wordKind (c :: tail))) (c :: tail) (Segment.first c cs) := by
  simp only [isWord, Bool.and_eq_true, List.all_eq_true] at hword
  have hpre := prefix_takeWhile h hword.2
  rw [Segment.first_word hword.1]
  refine ⟨by simp [Segment.word], by simpa [Segment.word] using hpre.length_le, fun hlen => ?_⟩
  have htail : tail = cs.takeWhile isWordChar :=
    hpre.eq_of_length (by simpa [Segment.word] using hlen)
  simp [Segment.word, htail]

private theorem covers_whole {c : Char} {cs tail : List Char} (hwhole : isWhole (c :: tail) = true)
    (h : tail <+: cs) : Covers (.token .intLiteral) (c :: tail) (Segment.first c cs) := by
  simp only [isWhole, List.isEmpty_cons, Bool.not_false, Bool.true_and, List.all_cons,
    Bool.and_eq_true, List.all_eq_true] at hwhole
  have hpre := (prefix_takeWhile h hwhole.2).length_le
  rw [Segment.first_number hwhole.1]
  simp only [Covers, Segment.number, List.length_cons]
  refine ⟨by simp, by omega, fun hlen => ?_⟩
  rw [if_pos (by omega)]

private theorem covers_decimal {c : Char} {cs whole fraction : List Char}
    (hwhole : isWhole (c :: whole) = true) (hfraction : isWhole fraction = true)
    (h : whole ++ '.' :: fraction <+: cs) :
    Covers (.token .floatLiteral) (c :: (whole ++ '.' :: fraction)) (Segment.first c cs) := by
  simp only [isWhole, List.isEmpty_cons, Bool.not_false, Bool.true_and, List.all_cons,
    Bool.and_eq_true, List.all_eq_true] at hwhole
  obtain ⟨d, ds, rfl, hd, hds⟩ : ∃ d ds, fraction = d :: ds ∧ d.isDigit = true ∧
      ∀ c ∈ ds, c.isDigit = true := by
    rcases fraction with _ | ⟨d, ds⟩ <;> simp [isWhole] at hfraction
    exact ⟨d, ds, rfl, hfraction.1, hfraction.2⟩
  obtain ⟨rest, rfl⟩ := h
  have htake : ((whole ++ '.' :: d :: ds) ++ rest).takeWhile Char.isDigit = whole := by
    rw [List.append_assoc, List.takeWhile_append_of_pos hwhole.2]
    simp
  have hdrop :
      ((whole ++ '.' :: d :: ds) ++ rest).drop whole.length = '.' :: d :: (ds ++ rest) := by
    simp
  have hpre : ds.length ≤ ((ds ++ rest).takeWhile Char.isDigit).length :=
    (prefix_takeWhile (List.prefix_append ds rest) hds).length_le
  rw [Segment.first_number hwhole.1]
  simp only [Covers, Segment.number, htake, hdrop, Segment.fractionLength, hd, if_true,
    List.length_cons, List.length_append]
  refine ⟨by simp, by omega, fun hlen => ?_⟩
  rw [if_neg (by omega)]

private theorem covers_comment {cs text : List Char} (hline : '\n' ∉ text) (h : text <+: cs) :
    Covers .comment ('%' :: '%' :: text) (Segment.first '%' ('%' :: cs)) := by
  have hall : ∀ c ∈ '%' :: text, decide (c ≠ '\n') = true := by
    intro c hc
    rcases List.mem_cons.mp hc with rfl | hc
    · rfl
    · exact decide_eq_true fun heq => hline (heq ▸ hc)
  have hpre := (prefix_takeWhile (List.cons_prefix_cons.mpr ⟨rfl, h⟩) hall).length_le
  rw [Segment.first_comment]
  exact ⟨by simp, Nat.succ_le_succ hpre, fun _ => rfl⟩

/-- A mark is covered by the longer one that begins with it, and two signs for a comment by that. -/
private theorem covers_mark {k : Kind} {s : String} {c : Char} {cs tail : List Char}
    (hk : k ∈ Kind.marks) (hs : k.spelling? = some s) (hsc : s.toList = c :: tail)
    (h : tail <+: cs) :
    Covers (.token k) (c :: tail) (Segment.first c cs) := by
  rcases mark_cases hk hs with ⟨c', hc', hmark⟩ | ⟨c', d, hc', hdouble⟩
  · obtain ⟨rfl, rfl⟩ := List.cons.inj (hsc.symm.trans hc')
    by_cases hcomment : c = '%' ∧ cs.head? = some '%'
    · -- A second sign makes a comment of the mark, which is longer.
      obtain ⟨rfl, hhead⟩ := hcomment
      obtain ⟨cs, rfl⟩ : ∃ ds, cs = '%' :: ds := by cases cs <;> simp_all
      rw [Segment.first_comment]
      simp [Covers]
    · rw [Segment.first_mark hmark fun hc hhead => hcomment ⟨hc, hhead⟩]
      unfold Segment.mark
      split
      · simp [Covers]
      · simp [Covers, hmark]
  · obtain ⟨rfl, rfl⟩ := List.cons.inj (hsc.symm.trans hc')
    obtain ⟨rest, rfl⟩ := h
    rw [List.singleton_append, Segment.first_doubleMark hdouble]
    simp [Covers]

/-- Whatever piece a source begins with, its next segment is no shorter. -/
theorem Matches.covers {cat : Category} {text : List Char} {c : Char} {cs : List Char}
    (h : cat.Matches text) (hpre : text <+: c :: cs) : cat.Covers text (Segment.first c cs) := by
  obtain ⟨c', tail, rfl⟩ := List.exists_cons_of_ne_nil h.ne_nil
  obtain ⟨rfl, htail⟩ := List.cons_prefix_cons.mp hpre
  generalize htext : c' :: tail = text at h
  cases h with
  | blank hc =>
    obtain ⟨rfl, rfl⟩ := List.cons.inj htext
    rw [Segment.first_blank (by simpa [isBlank, or_assoc] using hc)]
    simp [Covers]
  | newline =>
    obtain ⟨rfl, rfl⟩ := List.cons.inj htext
    simp [Covers, Segment.first_newline]
  | comment hline =>
    obtain ⟨rfl, rfl⟩ := List.cons.inj htext
    obtain ⟨rest, rfl⟩ := htail
    exact covers_comment hline (List.prefix_append _ rest)
  | word hword =>
    subst htext
    exact covers_word hword htail
  | whole hwhole =>
    subst htext
    exact covers_whole hwhole htail
  | @decimal whole fraction hwhole hfraction =>
    rcases whole with _ | ⟨d, whole⟩
    · simp [isWhole] at hwhole
    · obtain ⟨rfl, rfl⟩ := List.cons.inj htext
      exact covers_decimal hwhole hfraction htail
  | quoted hline =>
    obtain ⟨rfl, rfl⟩ := List.cons.inj htext
    obtain ⟨rest, rfl⟩ := htail
    simp [Covers, Segment.first_quote, Segment.quoted, hline]
  | mark hk hs => exact htext ▸ covers_mark hk hs htext.symm htail

/-- A reserved word is a piece of the class of its kind. -/
private theorem matches_of_keyword? {k : Kind} {text : List Char}
    (h : Kind.keyword? (String.ofList text) = some k) : Matches (.token k) text := by
  have hall : ∀ entry ∈ Kind.reserved, isWord entry.1.toList = true := by decide
  have hword := hall _ (Kind.mem_reserved_of_keyword? h)
  rw [String.toList_ofList] at hword
  have hkind : Segment.wordKind text = k := by rw [Segment.wordKind, h, Option.getD_some]
  exact hkind ▸ .word hword

/-- The fixed spelling of a kind that is no mark is a reserved word. -/
private theorem keyword?_of_spelling? {k : Kind} {w : String} (hk : k ∉ Kind.marks)
    (h : k.spelling? = some w) : Kind.keyword? w = some k := by
  cases k <;> first
    | exact absurd (by decide) hk
    | (obtain rfl := Option.some.inj h; decide)
    | contradiction

/-- A text with a decimal point is two runs of digits around it. -/
theorem exists_of_isDecimal {text : List Char} (h : isDecimal text = true) :
    ∃ whole fraction, text = whole ++ '.' :: fraction ∧ isWhole whole = true ∧
      isWhole fraction = true := by
  unfold isDecimal at h
  dsimp only at h
  split at h
  · next fraction hdrop =>
    rw [Bool.and_eq_true] at h
    refine ⟨text.takeWhile Char.isDigit, fraction, ?_, ?_, h.2⟩
    · calc text = text.take (text.takeWhile Char.isDigit).length ++
            text.drop (text.takeWhile Char.isDigit).length := (List.take_append_drop _ _).symm
        _ = text.takeWhile Char.isDigit ++ '.' :: fraction := by
          rw [Segment.take_length_takeWhile, hdrop]
    · simp [isWhole, List.all_takeWhile, h.1]
  · contradiction

theorem exists_of_isQuoted {text : List Char} (h : isQuoted text = true) :
    ∃ c, text = ['\'', c, '\''] ∧ c ≠ '\n' := by
  unfold isQuoted at h
  split at h
  · next c => exact ⟨c, rfl, by simpa using h⟩
  · contradiction

/-- A token is a piece of its class if and only if it is written as its kind demands. -/
theorem matches_token_iff {k : Kind} {text : List Char} :
    Matches (.token k) text ↔ k.admits text = true := by
  constructor
  · intro h
    cases h with
    | word hword => exact Kind.admits_wordKind hword
    | whole hwhole => exact hwhole
    | decimal hwhole hfraction => exact Segment.isDecimal_append hwhole hfraction
    | quoted hline => simp [Kind.admits, isQuoted, hline]
    | mark hk hs =>
      cases k <;> first
        | exact absurd hk (by decide)
        | simp [Kind.admits, hs]
  · intro h
    have spelled (hs : k.spelling? = some (String.ofList text)) : Matches (.token k) text := by
      by_cases hk : k ∈ Kind.marks
      · simpa using Matches.mark hk hs
      · exact matches_of_keyword? (keyword?_of_spelling? hk hs)
    unfold Kind.admits at h
    split at h
    · simp only [Bool.and_eq_true, Option.isNone_iff_eq_none] at h
      have hkind : Segment.wordKind text = .identifier := by
        rw [Segment.wordKind, h.2, Option.getD_none]
      exact hkind ▸ .word h.1
    · exact .whole h
    · obtain ⟨whole, fraction, rfl, hwhole, hfraction⟩ := exists_of_isDecimal h
      exact .decimal hwhole hfraction
    · obtain ⟨c, rfl, hline⟩ := exists_of_isQuoted h
      exact .quoted hline
    · exact matches_of_keyword? (by simpa using h)
    · contradiction
    · exact spelled (by simpa using h)

end Category

namespace Segment

variable {c : Char} {cs : List Char}

/-- What is no blank, line end or comment is a token or dropped alone. -/
theorem first_token_or_dropped (hblank : isBlank c = false) (hline : c ≠ '\n')
    (hcomment : ¬ (c = '%' ∧ cs.head? = some '%')) :
    (∃ k, (first c cs).1 = .token k) ∨ first c cs = (.dropped, 0) := by
  simp only [first, hblank, hline, hcomment, Bool.false_eq_true, if_false]
  split
  · exact .inl ⟨_, rfl⟩
  split
  · exact .inl ⟨_, rfl⟩
  split
  · unfold quoted
    split
    · split
      · exact .inr rfl
      · exact .inl ⟨_, rfl⟩
    · exact .inr rfl
  · unfold mark
    split
    · exact .inl ⟨_, rfl⟩
    · split
      · exact .inl ⟨_, rfl⟩
      · exact .inr rfl

/-- The next segment is a piece of its class, or one dropped character. -/
theorem matches_first_or_dropped (c : Char) (cs : List Char) :
    Category.Matches (first c cs).1 (c :: cs.take (first c cs).2) ∨ first c cs = (.dropped, 0) := by
  by_cases hblank : isBlank c = true
  · rw [first_blank hblank]
    exact .inl (.blank (by simpa [isBlank, or_assoc] using hblank))
  by_cases hline : c = '\n'
  · subst hline
    exact .inl .newline
  by_cases hcomment : c = '%' ∧ cs.head? = some '%'
  · obtain ⟨rfl, hhead⟩ := hcomment
    obtain ⟨cs, rfl⟩ : ∃ ds, cs = '%' :: ds := by cases cs <;> simp_all
    rw [first_comment, take_length_takeWhile]
    refine .inl (.comment fun hline => ?_)
    have := List.all_eq_true.mp (List.all_takeWhile (p := (· ≠ '\n')) (l := cs)) _ hline
    simp at this
  rcases first_token_or_dropped (by simpa using hblank) hline hcomment with ⟨k, hk⟩ | hdropped
  · rw [hk]
    exact .inl (Category.matches_token_iff.mpr (admits_first hk))
  · exact .inr hdropped

private theorem fractionLength_le (cs : List Char) : fractionLength cs ≤ cs.length := by
  unfold fractionLength
  split
  · next d cs =>
    have hlen := (List.takeWhile_prefix Char.isDigit (l := cs)).length_le
    split
    · simp only [List.length_cons]
      omega
    · exact Nat.zero_le _
  · exact Nat.zero_le _

/-- The next segment does not go beyond the source. -/
theorem first_le (c : Char) (cs : List Char) : (first c cs).2 ≤ cs.length := by
  unfold first
  split
  · exact Nat.zero_le _
  split
  · exact Nat.zero_le _
  split
  · exact (List.takeWhile_prefix isWordChar).length_le
  split
  · have hfraction := fractionLength_le (cs.drop (cs.takeWhile Char.isDigit).length)
    have hwhole := (List.takeWhile_prefix Char.isDigit (l := cs)).length_le
    rw [List.length_drop] at hfraction
    dsimp only [number]
    omega
  split
  · unfold quoted
    split
    · split
      · exact Nat.zero_le _
      · simp
    · exact Nat.zero_le _
  split
  · exact (List.takeWhile_prefix _).length_le
  · unfold mark
    split
    · next k hk => cases cs <;> simp_all
    · split <;> exact Nat.zero_le _

/-- The segment that is read next is the next one. -/
theorem isNext_iff {seg : Segment} :
    seg.IsNext (c :: cs) ↔ seg = ⟨(first c cs).1, c :: cs.take (first c cs).2⟩ := by
  have hle := first_le c cs
  have hlen : (c :: cs.take (first c cs).2).length = (first c cs).2 + 1 := by simp [hle]
  have hbegin : c :: cs.take (first c cs).2 <+: c :: cs :=
    List.cons_prefix_cons.mpr ⟨rfl, List.take_prefix _ _⟩
  have hmatch := matches_first_or_dropped c cs
  constructor
  · intro h
    cases h with
    | @longest cat text hpre htext hmax =>
      obtain ⟨hne, hcover, hcat⟩ := htext.covers hpre
      rcases hmatch with hmatch | hdropped
      · -- Each of the two is a piece, so neither is the longer one.
        have hlong := hmax _ _ hbegin hmatch
        have heq : text.length = (first c cs).2 + 1 := by omega
        have htext : text = c :: cs.take (first c cs).2 :=
          (List.prefix_of_prefix_length_le hpre hbegin (by omega)).eq_of_length (by omega)
        rw [hcat heq, htext]
      · exact absurd (by rw [hdropped]) hne
    | @dropped d hpre hnone =>
      obtain ⟨rfl, -⟩ := List.cons_prefix_cons.mp hpre
      rcases hmatch with hmatch | hdropped
      · exact absurd hmatch (hnone _ _ hbegin)
      · simp [hdropped]
  · rintro rfl
    rcases hmatch with hmatch | hdropped
    · refine .longest hbegin hmatch fun cat text hpre htext => ?_
      have := (htext.covers hpre).2.1
      omega
    · rw [hdropped]
      refine .dropped (by simp) fun cat text hpre htext => ?_
      exact (htext.covers hpre).1 (by rw [hdropped])

end Segment

/-! ### The cut of a source -/

theorem Segment.IsNext.text_ne_nil {source : List Char} {seg : Segment} (h : seg.IsNext source) :
    seg.text ≠ [] := by
  cases h with
  | longest _ hmatch _ => exact hmatch.ne_nil
  | dropped => simp

/-- A source has one cut, the one into the segments that are read. -/
theorem isCut_iff {source : List Char} {segs : List Segment} :
    IsCut source segs ↔ segs = segments source := by
  constructor
  · intro h
    induction h with
    | nil => simp [segments]
    | @cons seg rest segs hnext _ ih =>
      -- The first segment is the one that is read, so the rest is what is read after it.
      obtain ⟨c, tail, htext⟩ := List.exists_cons_of_ne_nil hnext.text_ne_nil
      rw [htext, List.cons_append] at hnext ⊢
      have hseg := Segment.isNext_iff.mp hnext
      have htail : tail = (tail ++ rest).take (Segment.first c (tail ++ rest)).2 := by
        rw [hseg] at htext
        exact (List.cons.inj htext).2.symm
      have hrest : rest = (tail ++ rest).drop (Segment.first c (tail ++ rest)).2 := by
        have := List.take_append_drop (Segment.first c (tail ++ rest)).2 (tail ++ rest)
        rw [← htail] at this
        exact (List.append_cancel_left this).symm
      rw [segments, ← hseg, ← hrest, ih]
  · rintro rfl
    fun_induction segments source with
    | case1 => exact .nil
    | case2 c cs next ih =>
      let seg : Segment := ⟨next.1, c :: cs.take next.2⟩
      have hnext : seg.IsNext (c :: cs) := Segment.isNext_iff.mpr rfl
      have hsource : c :: cs = seg.text ++ cs.drop next.2 := by simp [seg]
      rw [hsource] at hnext ⊢
      exact .cons hnext ih

/-- The segments of a cut make up the source. -/
theorem IsCut.flatMap_text {source : List Char} {segs : List Segment} (h : IsCut source segs) :
    segs.flatMap Segment.text = source := by
  rw [isCut_iff.mp h, flatMap_text_segments]

/-- Every segment of a cut is the next one where it begins. -/
theorem IsCut.isNext_of_append {source : List Char} {segs pre post : List Segment} {seg : Segment}
    (h : IsCut source segs) (hsegs : segs = pre ++ seg :: post) :
    seg.IsNext (seg.text ++ post.flatMap Segment.text) := by
  induction h generalizing pre with
  | nil => simp at hsegs
  | @cons first rest segs hnext hrest ih =>
    rcases pre with _ | ⟨p, pre⟩
    · obtain ⟨rfl, rfl⟩ := List.cons.inj hsegs
      rwa [hrest.flatMap_text]
    · exact ih (List.cons.inj hsegs).2

/-! ### Lines -/

/-- No token but a quoted character has a blank or a line end in it. -/
theorem Kind.not_mem_of_admits {k : Kind} {text : List Char} {c : Char} (h : k.admits text = true)
    (hk : k ≠ .charLiteral) (hc : c = ' ' ∨ c = '\n') : c ∉ text := by
  have hword : isWordStart c = false ∧ isWordChar c = false := by
    rcases hc with rfl | rfl <;> decide
  have hdigit : c.isDigit = false := by rcases hc with rfl | rfl <;> rfl
  have whole {text : List Char} (hwhole : isWhole text = true) : c ∉ text := by
    intro hmem
    rw [isWhole, Bool.and_eq_true, List.all_eq_true] at hwhole
    simp [hwhole.2 c hmem] at hdigit
  cases Category.matches_token_iff.mpr h with
  | @word text htext =>
    intro hmem
    rcases text with _ | ⟨d, ds⟩
    · contradiction
    · rw [isWord, Bool.and_eq_true, List.all_eq_true] at htext
      rcases List.mem_cons.mp hmem with rfl | hmem
      · simp [htext.1] at hword
      · simp [htext.2 c hmem] at hword
  | whole hwhole => exact whole hwhole
  | decimal hwhole hfraction =>
    have hpoint : c ≠ '.' := by rcases hc with rfl | rfl <;> decide
    simp [whole hwhole, whole hfraction, hpoint]
  | quoted => exact absurd rfl hk
  | mark hmark hs =>
    clear h hword hdigit
    cases k <;> first
      | exact absurd hmark (by decide)
      | (obtain rfl := Option.some.inj hs; rcases hc with rfl | rfl <;> decide)

/-- Only a line end has a line end in it. -/
theorem Category.Matches.not_mem_newline {cat : Category} {text : List Char}
    (h : cat.Matches text) (hcat : cat ≠ .newline) : '\n' ∉ text := by
  cases cat with
  | blank =>
    cases h with
    | blank hc => rcases hc with rfl | rfl | rfl <;> decide
  | newline => exact absurd rfl hcat
  | comment =>
    cases h with
    | comment hline => simpa using hline
  | token k =>
    have hadmits := matches_token_iff.mp h
    by_cases hk : k = .charLiteral
    · subst hk
      obtain ⟨c, rfl, hline⟩ := exists_of_isQuoted hadmits
      simpa using Ne.symm hline
    · exact Kind.not_mem_of_admits hadmits hk (.inr rfl)
  | dropped => cases h

/-- A segment has one line end in it if it is one, and else none. -/
theorem Segment.IsNext.count_newline {source : List Char} {seg : Segment} (h : seg.IsNext source) :
    seg.text.count '\n' = if seg.category = .newline then 1 else 0 := by
  cases h with
  | @longest cat text _ hmatch _ =>
    split
    · next hcat =>
      obtain rfl : cat = .newline := hcat
      cases hmatch
      rfl
    · next hcat => exact List.count_eq_zero.mpr (hmatch.not_mem_newline hcat)
  | @dropped c hpre hnone =>
    have hne : c ≠ '\n' := by
      rintro rfl
      exact hnone _ _ hpre .newline
    simpa [List.count_singleton] using hne

/-- The segments, each with the line on which it begins: one more than the line ends before it. -/
def withLines (before : List Char) : List Segment → List (Segment × Nat)
  | [] => []
  | seg :: segs => (seg, 1 + before.count '\n') :: withLines (before ++ seg.text) segs

/-- The token that a segment is, if it is one: written as the segment, of the kind of its class. -/
def Segment.token? : Segment × Nat → Option Token
  | (⟨.token k, text⟩, line) => some ⟨k, String.ofList text, line⟩
  | _ => none

/-- The report on a segment, if it is a dropped character. -/
def Segment.error? : Segment × Nat → Option ScanError
  | (⟨.dropped, [c]⟩, line) => some ⟨c, line⟩
  | _ => none

/-- Counting lines along a cut agrees with counting the line ends before each segment. -/
theorem IsCut.lines {source : List Char} {segs : List Segment} (h : IsCut source segs)
    (before : List Char) :
    tokensFrom (1 + before.count '\n') segs = (withLines before segs).filterMap Segment.token? ∧
      errorsFrom (1 + before.count '\n') segs
        = (withLines before segs).filterMap Segment.error? ∧
      lineEnds segs = source.count '\n' := by
  induction h generalizing before with
  | nil => simp [tokensFrom, errorsFrom, withLines, lineEnds]
  | @cons seg rest segs hnext _ ih =>
    -- What comes after a line end stands one line lower, and what comes after the rest does not.
    obtain ⟨htokens, herrors, hends⟩ := ih (before ++ seg.text)
    have hcount := hnext.count_newline
    rw [List.count_append, hcount] at htokens herrors
    rw [lineEnds, List.count_append, List.countP_cons, hcount, ← hends, withLines,
      List.filterMap_cons, List.filterMap_cons]
    cases hnext with
    | @longest cat text _ hmatch _ =>
      cases cat with
      | dropped => cases hmatch
      | newline =>
        rw [if_pos rfl, ← Nat.add_assoc] at htokens herrors
        exact ⟨htokens, herrors, Nat.add_comm _ _⟩
      | token k =>
        exact ⟨congrArg _ htokens, herrors, (Nat.zero_add _).symm⟩
      | _ => exact ⟨htokens, herrors, (Nat.zero_add _).symm⟩
    | @dropped c _ _ => exact ⟨htokens, congrArg _ herrors, (Nat.zero_add _).symm⟩

/-- A scan takes the longest match and loses nothing. Every source is the concatenation of non-empty
segments, each of which is the longest piece of any class where it begins, or one character if there
is no piece. The scan gives the segments that are tokens and then an end mark, and reports the
dropped characters; the line of each is one more than the number of line ends before it. -/
theorem scan_longest_match (source : String) :
    ∃ segs : List Segment,
      segs.flatMap Segment.text = source.toList ∧
      (∀ seg ∈ segs, seg.text ≠ []) ∧
      (∀ pre seg post, segs = pre ++ seg :: post →
        seg.IsNext (seg.text ++ post.flatMap Segment.text)) ∧
      (scan source).tokens = (withLines [] segs).filterMap Segment.token? ++
        [Token.endMark (1 + source.toList.count '\n')] ∧
      (scan source).errors = (withLines [] segs).filterMap Segment.error? := by
  have hcut : IsCut source.toList (segments source.toList) := isCut_iff.mpr rfl
  obtain ⟨htokens, herrors, hends⟩ := hcut.lines []
  refine ⟨segments source.toList, hcut.flatMap_text, fun _ => text_ne_nil_of_mem_segments,
    fun pre seg post => hcut.isNext_of_append, ?_, ?_⟩
  · rw [← htokens, ← hends]
    rfl
  · rw [← herrors]
    exact List.nil_append _

end ScriptTree
