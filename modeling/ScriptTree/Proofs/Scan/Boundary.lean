import ScriptTree.Proofs.Scan.LongestMatch

/-!
# Where a token ends

How far a token reaches depends on what follows it, but on little of that. `Segment.endsBefore` says
when a token with a given text ends where the rest of the source begins: a word ends before a
character that continues no word, a number before one that is no digit, and a whole number moreover
before anything that is no fraction; a mark ends unless it begins a longer mark or a comment; and a
quoted character ends whatever follows.

`Segment.isNext_append_iff` says that this is exact: the text of a token is the next segment of a
source that begins with it if and only if the token ends there.
-/

namespace ScriptTree

namespace Segment

/-- Whether a mark that reads `text` ends where `rest` follows it. -/
def markEndsBefore : List Char → List Char → Bool
  | [c], d :: _ => (doubleMark? c d).isNone && !(c == '%' && d == '%')
  | _, _ => true

/-- Whether a token that reads `text` ends where `rest` follows it. -/
def endsBefore (text rest : List Char) : Bool :=
  if isWord text then !rest.head?.any isWordChar
  else if isWhole text then !rest.head?.any Char.isDigit && fractionLength rest == 0
  else if isDecimal text then !rest.head?.any Char.isDigit
  else markEndsBefore text rest

variable {k : Kind} {c : Char} {cs text tail rest : List Char}

/-! ### What is read at the start -/

/-- The text of a token is a segment when nothing follows it. -/
theorem first_of_admits (h : k.admits (c :: cs) = true) :
    first c cs = (.token k, cs.length) := by
  obtain ⟨-, hcover, hcat⟩ := (Category.matches_token_iff.mpr h).covers (List.prefix_refl _)
  have hle := first_le c cs
  rw [List.length_cons] at hcover hcat
  have hlen : (first c cs).2 = cs.length := by omega
  exact Prod.ext (hcat (by omega)) hlen

/-- A dropped segment is one character. -/
theorem first_eq_of_dropped (h : (first c cs).1 = .dropped) : first c cs = (.dropped, 0) := by
  rcases matches_first_or_dropped c cs with hmatch | hdropped
  · rw [h] at hmatch
    cases hmatch
  · exact hdropped

/-- A point that continues no number is dropped. -/
theorem first_point : (first '.' cs).1 = .dropped := by
  have hmark : mark '.' cs = (.dropped, 0) := by
    cases cs <;> simp [mark, mark?, doubleMark?]
  exact congrArg Prod.fst hmark

/-! ### The classes apart -/

private theorem isWord_eq_false_of_isWhole (h : isWhole text = true) : isWord text = false := by
  rcases text with _ | ⟨c, cs⟩
  · rfl
  · simp only [isWhole, List.all_cons, Bool.and_eq_true] at h
    simp [isWord, isWordStart_eq_false_of_isDigit h.2.1]

private theorem isWhole_eq_false_of_isDecimal (h : isDecimal text = true) :
    isWhole text = false := by
  obtain ⟨whole, fraction, rfl, -, -⟩ := Category.exists_of_isDecimal h
  have hpoint : Char.isDigit '.' = false := rfl
  simp [isWhole, hpoint]

private theorem isWord_eq_false_of_isDecimal (h : isDecimal text = true) : isWord text = false := by
  obtain ⟨whole, fraction, rfl, hwhole, -⟩ := Category.exists_of_isDecimal h
  rcases whole with _ | ⟨c, cs⟩
  · simp [isWhole] at hwhole
  · simp only [isWhole, List.all_cons, Bool.and_eq_true] at hwhole
    simp [isWord, isWordStart_eq_false_of_isDigit hwhole.2.1]

theorem endsBefore_word (h : isWord text = true) :
    endsBefore text rest = !rest.head?.any isWordChar := by
  simp [endsBefore, h]

theorem endsBefore_whole (h : isWhole text = true) :
    endsBefore text rest = (!rest.head?.any Char.isDigit && fractionLength rest == 0) := by
  simp [endsBefore, h, isWord_eq_false_of_isWhole h]

theorem endsBefore_decimal (h : isDecimal text = true) :
    endsBefore text rest = !rest.head?.any Char.isDigit := by
  simp [endsBefore, h, isWord_eq_false_of_isDecimal h, isWhole_eq_false_of_isDecimal h]

/-- A token that is neither a word nor a number ends as a mark does. -/
theorem endsBefore_mark (hword : isWord text = false) (hwhole : isWhole text = false)
    (hdecimal : isDecimal text = false) : endsBefore text rest = markEndsBefore text rest := by
  simp [endsBefore, hword, hwhole, hdecimal]

/-! ### What is read of a token and what follows it -/

/-- Nothing is taken from a text whose first character is not of the class. -/
private theorem takeWhile_eq_nil_iff_head? (p : Char → Bool) (cs : List Char) :
    cs.takeWhile p = [] ↔ (!cs.head?.any p) = true := by
  cases cs <;> simp [List.takeWhile_cons]

private theorem first_append_word_iff (h : isWord (c :: tail) = true) :
    first c (tail ++ rest) = (.token (wordKind (c :: tail)), tail.length) ↔
      endsBefore (c :: tail) rest = true := by
  rw [endsBefore_word h, ← takeWhile_eq_nil_iff_head?]
  simp only [isWord, Bool.and_eq_true, List.all_eq_true] at h
  rw [first_word h.1, word, List.takeWhile_append_of_pos h.2]
  constructor
  · intro heq
    simpa using congrArg Prod.snd heq
  · intro hnil
    simp [hnil]

private theorem first_append_whole_iff (h : isWhole (c :: tail) = true) :
    first c (tail ++ rest) = (.token .intLiteral, tail.length) ↔
      endsBefore (c :: tail) rest = true := by
  rw [endsBefore_whole h, Bool.and_eq_true, ← takeWhile_eq_nil_iff_head?, beq_iff_eq]
  simp only [isWhole, List.isEmpty_cons, Bool.not_false, Bool.true_and, List.all_cons,
    Bool.and_eq_true, List.all_eq_true] at h
  rw [first_number h.1, number, List.takeWhile_append_of_pos h.2]
  constructor
  · intro heq
    have hlen := congrArg Prod.snd heq
    simp only [List.length_append] at hlen
    have hnil : rest.takeWhile Char.isDigit = [] := List.length_eq_zero_iff.mp (by omega)
    exact ⟨hnil, by simpa [hnil] using hlen⟩
  · rintro ⟨hnil, hzero⟩
    simp [hnil, hzero]

/-- The digits before the point are followed by a fraction, which reaches as far as digits do. -/
private theorem first_append_decimal_iff (h : isDecimal (c :: tail) = true) :
    first c (tail ++ rest) = (.token .floatLiteral, tail.length) ↔
      endsBefore (c :: tail) rest = true := by
  rw [endsBefore_decimal h, ← takeWhile_eq_nil_iff_head?]
  obtain ⟨whole, fraction, htext, hwhole, hfraction⟩ := Category.exists_of_isDecimal h
  rcases whole with _ | ⟨c', whole⟩
  · simp [isWhole] at hwhole
  rcases fraction with _ | ⟨d, fraction⟩
  · simp [isWhole] at hfraction
  obtain ⟨rfl, htail⟩ : c = c' ∧ tail = whole ++ '.' :: d :: fraction := List.cons.inj htext
  simp only [isWhole, List.isEmpty_cons, Bool.not_false, Bool.true_and, List.all_cons,
    Bool.and_eq_true, List.all_eq_true] at hwhole hfraction
  have htake : (whole ++ '.' :: d :: (fraction ++ rest)).takeWhile Char.isDigit = whole := by
    rw [List.takeWhile_append_of_pos hwhole.2]
    simp
  have hdrop : (whole ++ '.' :: d :: (fraction ++ rest)).drop whole.length
      = '.' :: d :: (fraction ++ rest) := by simp
  have hlen : fractionLength ('.' :: d :: (fraction ++ rest))
      = fraction.length + 2 + (rest.takeWhile Char.isDigit).length := by
    rw [fractionLength, if_pos hfraction.1, List.takeWhile_append_of_pos hfraction.2,
      List.length_append]
    omega
  rw [htail, List.append_assoc, List.cons_append, List.cons_append, first_number hwhole.1, number,
    htake, hdrop, hlen, if_neg (by omega), Prod.mk.injEq, List.length_append, List.length_cons,
    List.length_cons, ← List.length_eq_zero_iff]
  exact ⟨fun heq => by omega, fun heq => ⟨rfl, by omega⟩⟩

/-- A mark of two characters is read whatever follows, and one of one character if the next
character makes no longer piece of it. -/
private theorem first_append_mark_iff {s : String} (hk : k ∈ Kind.marks)
    (hs : k.spelling? = some s) (hsc : s.toList = c :: tail) :
    first c (tail ++ rest) = (.token k, tail.length) ↔ markEndsBefore (c :: tail) rest = true := by
  rcases Category.mark_cases hk hs with ⟨c', hc', hmark⟩ | ⟨c', d, hc', hdouble⟩
  · obtain ⟨rfl, rfl⟩ := List.cons.inj (hsc.symm.trans hc')
    rw [List.nil_append]
    rcases rest with _ | ⟨d, rest⟩
    · rw [first_mark hmark (by simp)]
      simp [mark, hmark, markEndsBefore]
    · by_cases hcomment : c = '%' ∧ d = '%'
      · obtain ⟨rfl, rfl⟩ := hcomment
        simp [first_comment, markEndsBefore]
      · rw [first_mark hmark (by simpa using hcomment)]
        simp only [mark, List.head?_cons, Option.bind_some, markEndsBefore]
        cases hd : doubleMark? c d with
        | some l => simp
        | none => simpa [hmark] using Decidable.not_and_iff_or_not.mp hcomment
  · obtain ⟨rfl, rfl⟩ := List.cons.inj (hsc.symm.trans hc')
    rw [List.singleton_append, first_doubleMark hdouble]
    simp [markEndsBefore]

/-- A token is read as it is written if and only if it ends there. -/
theorem first_append_iff (h : k.admits (c :: tail) = true) :
    first c (tail ++ rest) = (.token k, tail.length) ↔ endsBefore (c :: tail) rest = true := by
  have hmatch := Category.matches_token_iff.mpr h
  generalize htext : c :: tail = text at hmatch
  cases hmatch with
  | word hword => exact htext ▸ first_append_word_iff (htext ▸ hword)
  | whole hwhole => exact htext ▸ first_append_whole_iff (htext ▸ hwhole)
  | decimal hwhole hfraction =>
    exact htext ▸ first_append_decimal_iff (htext ▸ isDecimal_append hwhole hfraction)
  | @quoted d hline =>
    obtain ⟨rfl, rfl⟩ := List.cons.inj htext
    have hdigit : Char.isDigit '\'' = false := rfl
    rw [endsBefore_mark rfl (by simp [isWhole, hdigit]) (by simp [isDecimal, hdigit])]
    simp [first_quote, quoted, hline, markEndsBefore]
  | @mark _ s hk hs =>
    have htoken : isWord s.toList = false ∧ isWhole s.toList = false ∧
        isDecimal s.toList = false := by
      cases k <;> first
        | exact absurd hk (by decide)
        | (obtain rfl := Option.some.inj hs; decide)
    rw [endsBefore_mark htoken.1 htoken.2.1 htoken.2.2, ← htext]
    exact first_append_mark_iff hk hs htext.symm

/-- The text of a token is the next segment if and only if the token ends there. -/
theorem isNext_append_iff (h : k.admits text = true) :
    IsNext (text ++ rest) ⟨.token k, text⟩ ↔ endsBefore text rest = true := by
  obtain ⟨c, tail, rfl⟩ := List.exists_cons_of_ne_nil (Category.matches_token_iff.mpr h).ne_nil
  rw [← first_append_iff h, List.cons_append, isNext_iff, Segment.mk.injEq, List.cons.injEq]
  constructor
  · rintro ⟨hcat, -, htail⟩
    have hle := first_le c (tail ++ rest)
    have hlen := congrArg List.length htail
    rw [List.length_take, Nat.min_eq_left hle] at hlen
    exact Prod.ext hcat.symm hlen.symm
  · intro heq
    simp [heq]

/-- A comment is the next segment if and only if a line end follows it, or nothing at all. -/
theorem isNext_comment_iff (h : '\n' ∉ text) :
    IsNext ('%' :: '%' :: text ++ rest) ⟨.comment, '%' :: '%' :: text⟩ ↔
      ∀ d ∈ rest.head?, d = '\n' := by
  have hline : ∀ d ∈ '%' :: text, decide (d ≠ '\n') = true := by
    intro d hd
    rcases List.mem_cons.mp hd with rfl | hd
    · rfl
    · exact decide_eq_true fun heq => h (heq ▸ hd)
  have htake : ('%' :: (text ++ rest)).takeWhile (· ≠ '\n')
      = '%' :: text ++ rest.takeWhile (· ≠ '\n') := by
    rw [← List.cons_append, List.takeWhile_append_of_pos hline]
  rw [List.cons_append, List.cons_append, isNext_iff, first_comment, take_length_takeWhile, htake,
    Segment.mk.injEq, List.cons.injEq]
  rcases rest with _ | ⟨d, ds⟩ <;> simp [List.takeWhile_cons]

/-! ### What ends every token -/

theorem endsBefore_nil : endsBefore text [] = true := by
  simp [endsBefore, fractionLength, markEndsBefore]

theorem fractionLength_cons {d : Char} (h : d ≠ '.') : fractionLength (d :: rest) = 0 := by
  unfold fractionLength
  split
  · next heq => exact absurd (List.cons.inj heq).1 h
  · rfl

/-- The end of a token is seen from the first character after it, if that is no point. -/
theorem endsBefore_congr {rest' : List Char} (hhead : rest.head? = rest'.head?)
    (hpoint : rest.head? ≠ some '.') : endsBefore text rest = endsBefore text rest' := by
  rcases rest with _ | ⟨d, ds⟩ <;> rcases rest' with _ | ⟨d', ds'⟩ <;> try contradiction
  · rfl
  · obtain rfl := Option.some.inj hhead
    have hne : d ≠ '.' := fun heq => hpoint (congrArg some heq)
    have hmark : markEndsBefore text (d :: ds) = markEndsBefore text (d :: ds') := by
      rcases text with _ | ⟨c, _ | ⟨_, _⟩⟩ <;> rfl
    simp only [endsBefore, List.head?_cons, fractionLength_cons hne, hmark]

/-- White space ends every token. -/
theorem endsBefore_space {d : Char} (h : isBlank d = true ∨ d = '\n') :
    endsBefore text (d :: rest) = true := by
  have hd : isWordChar d = false ∧ d.isDigit = false ∧ d ≠ '.' ∧ d ≠ '%' ∧
      ∀ c, doubleMark? c d = none := by
    simp only [isBlank, Bool.or_eq_true, beq_iff_eq] at h
    rcases h with ((rfl | rfl) | rfl) | rfl <;>
      exact ⟨rfl, rfl, by decide, by decide, fun c => by unfold doubleMark?; split <;> simp_all⟩
  obtain ⟨hword, hdigit, hpoint, hcomment, hmark⟩ := hd
  have hends : markEndsBefore text (d :: rest) = true := by
    rcases text with _ | ⟨c, _ | ⟨_, _⟩⟩ <;> simp [markEndsBefore, hcomment, hmark]
  simp [endsBefore, hword, hdigit, fractionLength_cons hpoint, hends]

/-! ### White space is cut off alone -/

theorem isNext_blank (h : isBlank c = true) : IsNext (c :: rest) ⟨.blank, [c]⟩ := by
  rw [isNext_iff, first_blank h]
  rfl

theorem isNext_newline : IsNext ('\n' :: rest) ⟨.newline, ['\n']⟩ :=
  isNext_iff.mpr rfl

end Segment

/-- A blank before a source is cut off alone. -/
theorem IsCut.blank {c : Char} {rest : List Char} {segs : List Segment} (hc : isBlank c = true)
    (h : IsCut rest segs) : IsCut (c :: rest) (⟨.blank, [c]⟩ :: segs) :=
  @IsCut.cons ⟨.blank, [c]⟩ rest segs (Segment.isNext_blank hc) h

/-- So is a line end. -/
theorem IsCut.newline {rest : List Char} {segs : List Segment} (h : IsCut rest segs) :
    IsCut ('\n' :: rest) (⟨.newline, ['\n']⟩ :: segs) :=
  @IsCut.cons ⟨.newline, ['\n']⟩ rest segs Segment.isNext_newline h

end ScriptTree
