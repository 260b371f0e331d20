import ScriptTree.Parse.Program
import ScriptTree.Proofs.Scan.Boundary
import ScriptTree.Proofs.Scan.Lines

/-!
# Comments are inert

A comment is cut off up to the end of its line, and what the scanner looks at before it is never
decided by what the comment says. A piece that would go on into the comment would be a comment
itself, which begins earlier (`Segment.IsNext.recomment`). So with another text in the comment the
source is cut as before (`IsCut.recomment`). And a longest piece is still the longest one when the
source ends behind it (`Segment.IsNext.shorten`), so without the comment, too, what stands before it
is cut as before.

What is scanned does not depend on the segments that are comments (`scan_eq_of_significant`). The
main result is `scan_and_parse_comment`: a comment may be deleted, or say anything else.
-/

namespace ScriptTree

/-! ### The next segment of another source -/

/-- A piece with two percent signs behind its first character is a comment. -/
private theorem Category.Matches.eq_comment {cat : Category} {c : Char} {cs : List Char}
    (h : cat.Matches (c :: cs)) (hpercents : ['%', '%'] <:+: cs) : cat = .comment := by
  have hlen : 2 ≤ cs.length := hpercents.length_le
  have hmem : '%' ∈ c :: cs := List.mem_cons_of_mem c (hpercents.subset (by simp))
  have hword : isWordChar '%' = false := rfl
  have hdigit : Char.isDigit '%' = false := rfl
  have whole {text : List Char} (hwhole : isWhole text = true) : '%' ∉ text := by
    intro hmem
    rw [isWhole, Bool.and_eq_true, List.all_eq_true] at hwhole
    simp [hwhole.2 _ hmem] at hdigit
  generalize htext : c :: cs = text at h hmem
  cases h with
  | comment => rfl
  | blank | newline => simp [(List.cons.inj htext).2] at hlen
  | word htail =>
    rw [← htext, isWord, Bool.and_eq_true, List.all_eq_true] at htail
    simp [htail.2 '%' (hpercents.subset (by simp))] at hword
  | whole hwhole => exact absurd hmem (whole hwhole)
  | decimal hwhole hfraction => simp [whole hwhole, whole hfraction] at hmem
  | quoted =>
    obtain ⟨-, rfl⟩ := List.cons.inj htext
    exact absurd (hpercents.eq_of_length rfl) (by simp)
  | mark hk hs =>
    rcases Category.mark_cases hk hs with ⟨d, hd, -⟩ | ⟨d, e, hd, -⟩
    all_goals
      rw [hd] at htext
      simp [(List.cons.inj htext).2] at hlen

/-- What a comment begins with is a comment, from its two percent signs on. -/
private theorem Category.Matches.comment_of_prefix {text stem : List Char}
    (h : Category.comment.Matches text) (hstem : stem <+: text) (hlen : 2 ≤ stem.length) :
    Category.comment.Matches stem := by
  obtain ⟨c, d, rest, rfl⟩ : ∃ c d rest, stem = c :: d :: rest := by
    rcases stem with _ | ⟨c, _ | ⟨d, rest⟩⟩
    · simp at hlen
    · simp at hlen
    · exact ⟨c, d, rest, rfl⟩
  cases h with
  | comment hline =>
    obtain ⟨hc, htail⟩ := List.cons_prefix_cons.mp hstem
    obtain ⟨hd, hrest⟩ := List.cons_prefix_cons.mp htail
    rw [hc, hd]
    exact .comment fun hmem => hline (hrest.subset hmem)

namespace Segment

variable {seg : Segment} {source source' rest rest' : List Char}

/-- A segment is the next one of another source if for each piece there the first source has a piece
that is as long, or longer than the segment. -/
private theorem IsNext.transfer (h : seg.IsNext source) (hseg : seg.text <+: source')
    (hpieces : ∀ cat text, text <+: source' → Category.Matches cat text →
      ∃ cat' text', text' <+: source ∧ Category.Matches cat' text' ∧
        (text.length ≤ text'.length ∨ seg.text.length < text'.length)) : seg.IsNext source' := by
  cases h with
  | @longest cat text _ hmatch hmax =>
    refine .longest hseg hmatch fun cat₁ text₁ htext₁ hmatch₁ => ?_
    obtain ⟨cat₂, text₂, htext₂, hmatch₂, hlen⟩ := hpieces cat₁ text₁ htext₁ hmatch₁
    have hle := hmax cat₂ text₂ htext₂ hmatch₂
    rcases hlen with hlen | hlen
    · exact Nat.le_trans hlen hle
    · exact absurd hle (Nat.not_le.mpr hlen)
  | @dropped c _ hnone =>
    refine .dropped hseg fun cat₁ text₁ htext₁ hmatch₁ => ?_
    obtain ⟨cat₂, text₂, htext₂, hmatch₂, -⟩ := hpieces cat₁ text₁ htext₁ hmatch₁
    exact hnone cat₂ text₂ htext₂ hmatch₂

/-- A segment is still the next one if the source ends earlier behind it. -/
theorem IsNext.shorten (h : seg.IsNext (seg.text ++ rest)) (hrest : rest' <+: rest) :
    seg.IsNext (seg.text ++ rest') := by
  have hpre : seg.text ++ rest' <+: seg.text ++ rest := (List.prefix_append_right_inj _).mpr hrest
  exact h.transfer (List.prefix_append ..) fun cat text htext hmatch =>
    ⟨cat, text, htext.trans hpre, hmatch, .inl (Nat.le_refl _)⟩

/-- A segment somewhere before a comment is still the next one if the comment says something
else. -/
theorem IsNext.recomment {body body' : List Char}
    (h : seg.IsNext (seg.text ++ (rest ++ '%' :: '%' :: body))) :
    seg.IsNext (seg.text ++ (rest ++ '%' :: '%' :: body')) := by
  obtain ⟨c, tail, hc⟩ := List.exists_cons_of_ne_nil h.text_ne_nil
  -- Both sources begin with what stands before the comment and its two percent signs.
  let stem := seg.text ++ (rest ++ ['%', '%'])
  have hstem (body : List Char) : stem <+: seg.text ++ (rest ++ '%' :: '%' :: body) :=
    ⟨body, by simp [stem]⟩
  refine h.transfer (List.prefix_append ..) fun cat text htext hmatch => ?_
  rcases Nat.le_total text.length stem.length with hle | hle
  · have hpre := List.prefix_of_prefix_length_le htext (hstem body') hle
    exact ⟨cat, text, hpre.trans (hstem body), hmatch, .inl (Nat.le_refl _)⟩
  · -- A piece that goes into the comment is one itself, so it is one in the first source, too.
    obtain ⟨more, rfl⟩ := List.prefix_of_prefix_length_le (hstem body') htext hle
    have hcons : stem ++ more = c :: (tail ++ rest ++ ['%', '%'] ++ more) := by simp [stem, hc]
    obtain rfl : cat = .comment := by
      rw [hcons] at hmatch
      exact hmatch.eq_comment ⟨tail ++ rest, more, rfl⟩
    have hcomment : Category.comment.Matches stem :=
      hmatch.comment_of_prefix (List.prefix_append ..) (by simp [stem]; omega)
    exact ⟨.comment, stem, hstem body, hcomment, .inr (by simp [stem])⟩

end Segment

/-! ### The cut of another source -/

/-- A cut is a next segment and a cut of the rest. -/
private theorem isCut_cons_iff {seg : Segment} {segs : List Segment} :
    IsCut ((seg :: segs).flatMap Segment.text) (seg :: segs) ↔
      seg.IsNext (seg.text ++ segs.flatMap Segment.text) ∧
        IsCut (segs.flatMap Segment.text) segs := by
  constructor
  · generalize hsource : (seg :: segs).flatMap Segment.text = source
    intro h
    cases h with
    | @cons _ rest _ hnext hrest =>
      rw [hrest.flatMap_text]
      exact ⟨hnext, hrest⟩
  · rintro ⟨hnext, hrest⟩
    exact .cons hnext hrest

/-- The first segments of a source are the cut of what they are read from. -/
private theorem IsCut.left {before after : List Segment}
    (h : IsCut ((before ++ after).flatMap Segment.text) (before ++ after)) :
    IsCut (before.flatMap Segment.text) before := by
  induction before with
  | nil => exact .nil
  | cons seg before ih =>
    rw [List.cons_append] at h
    obtain ⟨hnext, hrest⟩ := isCut_cons_iff.mp h
    rw [List.flatMap_append] at hnext
    exact .cons (hnext.shorten (List.prefix_append ..)) (ih hrest)

/-- The segment of a comment. -/
def Segment.ofComment (body : List Char) : Segment :=
  ⟨.comment, '%' :: '%' :: body⟩

/-- A source that ends with a comment is cut as before if the comment says something else. -/
theorem IsCut.recomment {before : List Segment} {body body' : List Char} (hline : '\n' ∉ body')
    (h : IsCut ((before ++ [Segment.ofComment body]).flatMap Segment.text)
      (before ++ [Segment.ofComment body])) :
    IsCut ((before ++ [Segment.ofComment body']).flatMap Segment.text)
      (before ++ [Segment.ofComment body']) := by
  induction before with
  | nil =>
    refine isCut_cons_iff.mpr ⟨?_, IsCut.nil⟩
    have hend : ∀ c ∈ ([] : List Char).head?, c = '\n' := by simp
    exact (Segment.isNext_comment_iff hline).mpr hend
  | cons seg before ih =>
    rw [List.cons_append] at h ⊢
    obtain ⟨hnext, hrest⟩ := isCut_cons_iff.mp h
    refine isCut_cons_iff.mpr ⟨?_, ih hrest⟩
    rw [List.flatMap_append, List.flatMap_singleton] at hnext ⊢
    exact hnext.recomment

/-- The segments of a source are those before any of its line ends and those after it. -/
theorem segments_append {source rest : List Char} (h : ∀ c ∈ rest.head?, c = '\n') :
    segments (source ++ rest) = segments source ++ segments rest := by
  rcases rest with _ | ⟨c, cs⟩
  · simp [segments]
  · obtain rfl : c = '\n' := h c rfl
    have hrest := segments_append_newline [] cs
    rw [List.nil_append] at hrest
    rw [segments_append_newline, hrest]
    simp [segments]

/-- A segment that is a comment begins with two percent signs and ends before a line end, or where
the source ends. -/
private theorem exists_ofComment {source : List Char} {before after : List Segment} {seg : Segment}
    (h : segments source = before ++ seg :: after) (hcat : seg.category = .comment) :
    ∃ body, seg = .ofComment body ∧ '\n' ∉ body ∧
      ∀ c ∈ (after.flatMap Segment.text).head?, c = '\n' := by
  have hnext := (isCut_iff.mpr h.symm).isNext_of_append rfl
  obtain ⟨cat, text⟩ := seg
  obtain rfl : cat = .comment := hcat
  cases hnext with
  | longest _ hmatch hmax =>
    cases hmatch with
    | @comment body hline =>
      have hnext : Segment.IsNext _ _ := .longest (List.prefix_append ..) (.comment hline) hmax
      exact ⟨body, rfl, hline, (Segment.isNext_comment_iff hline).mp hnext⟩

/-- A source with a comment is cut as before if the comment is deleted or says something else. -/
theorem segments_edited {source body : List Char} {before after : List Segment}
    (h : segments source = before ++ .ofComment body :: after)
    (hend : ∀ c ∈ (after.flatMap Segment.text).head?, c = '\n') :
    segments (before.flatMap Segment.text ++ after.flatMap Segment.text) = before ++ after ∧
      ∀ body', '\n' ∉ body' →
        segments (before.flatMap Segment.text ++ '%' :: '%' :: body'
          ++ after.flatMap Segment.text) = before ++ .ofComment body' :: after := by
  have hsource : before ++ [Segment.ofComment body] ++ after = segments source := by simp [h]
  have hcut : IsCut ((before ++ [Segment.ofComment body] ++ after).flatMap Segment.text)
      (before ++ [Segment.ofComment body] ++ after) := by
    rw [hsource, flatMap_text_segments]
    exact isCut_iff.mpr rfl
  have hleft := hcut.left
  have hafter : segments (after.flatMap Segment.text) = after := by
    have hsplit : segments ((before ++ [Segment.ofComment body]).flatMap Segment.text ++ _) = _ :=
      segments_append hend
    rw [← isCut_iff.mp hleft, ← List.flatMap_append, hsource, flatMap_text_segments, ← hsource]
      at hsplit
    exact (List.append_cancel_left hsplit).symm
  refine ⟨?_, fun body' hline => ?_⟩
  · rw [segments_append hend, hafter, ← isCut_iff.mp hleft.left]
  · have hcomment := isCut_iff.mp (hleft.recomment hline)
    rw [List.flatMap_append, List.flatMap_singleton] at hcomment
    rw [segments_append hend, hafter]
    calc segments (before.flatMap Segment.text ++ (Segment.ofComment body').text) ++ after
      _ = before ++ [Segment.ofComment body'] ++ after := by rw [hcomment]
      _ = before ++ .ofComment body' :: after := List.append_cons .. |>.symm

/-! ### What is scanned -/

/-- Whether something is made of the segment. -/
def Segment.isSignificant (seg : Segment) : Bool :=
  seg.category != .comment

section

variable (line : Nat) (segs : List Segment)

private theorem tokensFrom_filter :
    tokensFrom line (segs.filter Segment.isSignificant) = tokensFrom line segs := by
  induction segs generalizing line with
  | nil => rfl
  | cons seg segs ih =>
    cases hcat : seg.category <;> simp [tokensFrom, Segment.isSignificant, hcat, ih]

private theorem errorsFrom_filter :
    errorsFrom line (segs.filter Segment.isSignificant) = errorsFrom line segs := by
  induction segs generalizing line with
  | nil => rfl
  | cons seg segs ih =>
    cases hcat : seg.category <;> simp [errorsFrom, Segment.isSignificant, hcat, ih]

private theorem lineEnds_filter : lineEnds (segs.filter Segment.isSignificant) = lineEnds segs := by
  rw [lineEnds, List.countP_filter]
  refine List.countP_congr fun seg _ => ?_
  cases hcat : seg.category <;> simp [Segment.isSignificant, hcat]

end

/-- What is scanned does not depend on comments. -/
theorem scan_eq_of_significant {source source' : String}
    (h : (segments source.toList).filter Segment.isSignificant
      = (segments source'.toList).filter Segment.isSignificant) : scan source = scan source' := by
  simp only [scan, Scanner.ofSource, Scanner.tokenize]
  rw [← tokensFrom_filter, ← errorsFrom_filter, ← lineEnds_filter, h, tokensFrom_filter,
    errorsFrom_filter, lineEnds_filter]

/-- **Comments are inert.** A comment that a scan finds begins with two percent signs and goes on to
the end of its line or of the source. Without the comment, and with any other text without a line
end behind its percent signs, the source has the same tokens on the same lines, the same characters
are dropped, and it parses to the same program or the same error. -/
theorem scan_and_parse_comment (source : String) {before after : List Segment} {seg : Segment}
    (h : segments source.toList = before ++ seg :: after) (hcat : seg.category = .comment) :
    let edited (comment : List Char) : String := String.ofList
      (before.flatMap Segment.text ++ comment ++ after.flatMap Segment.text)
    (∃ body, seg.text = '%' :: '%' :: body ∧ '\n' ∉ body ∧
        ∀ c ∈ (after.flatMap Segment.text).head?, c = '\n') ∧
      edited seg.text = source ∧
      (scan (edited []) = scan source ∧ parse (edited []) = parse source) ∧
      ∀ body, '\n' ∉ body →
        scan (edited ('%' :: '%' :: body)) = scan source ∧
          parse (edited ('%' :: '%' :: body)) = parse source := by
  intro edited
  obtain ⟨body, rfl, hline, hend⟩ := exists_ofComment h hcat
  obtain ⟨hdeleted, hother⟩ := segments_edited h hend
  have hsource : source.toList = before.flatMap Segment.text ++ '%' :: '%' :: body
      ++ after.flatMap Segment.text := by
    rw [← flatMap_text_segments source.toList, h]
    simp [Segment.ofComment]
  have hedited {comment : List Char} {segs : List Segment}
      (hsegs : segments (edited comment).toList = segs)
      (hsignificant : segs.filter Segment.isSignificant
        = (before ++ after).filter Segment.isSignificant) :
      scan (edited comment) = scan source ∧ parse (edited comment) = parse source := by
    have hscan : scan (edited comment) = scan source := by
      refine scan_eq_of_significant ?_
      rw [hsegs, hsignificant, h]
      simp [Segment.isSignificant, Segment.ofComment]
    exact ⟨hscan, by rw [parse, parse, hscan]⟩
  refine ⟨⟨body, rfl, hline, hend⟩, ?_, hedited (by simpa [edited] using hdeleted) rfl,
    fun body' hline' => hedited (by simpa [edited] using hother body' hline') ?_⟩
  · rw [← String.toList_inj, String.toList_ofList, hsource]
    rfl
  · simp [Segment.isSignificant, Segment.ofComment]

/-- A quote before a comment that holds a quote is dropped, with the comment, without it, and with
another one. -/
theorem scan_and_parse_comment_quote :
    let before : List Segment := [⟨.token .identifier, ['x']⟩, ⟨.dropped, ['\'']⟩]
    let seg : Segment := ⟨.comment, ['%', '%', '\'']⟩
    let after : List Segment := [⟨.newline, ['\n']⟩, ⟨.token .identifier, ['y']⟩]
    segments "x'%%'\ny".toList = before ++ seg :: after ∧ seg.category = .comment ∧
      scan "x'\ny" = scan "x'%%'\ny" ∧ parse "x'\ny" = parse "x'%%'\ny" ∧
      scan "x'%%@\ny" = scan "x'%%'\ny" ∧ parse "x'%%@\ny" = parse "x'%%'\ny" := by
  intro before seg after
  have h : segments "x'%%'\ny".toList = before ++ seg :: after := by decide +kernel
  obtain ⟨-, -, ⟨hscan, hparse⟩, hother⟩ := scan_and_parse_comment "x'%%'\ny" h rfl
  obtain ⟨hscan', hparse'⟩ := hother ['@'] (by decide)
  exact ⟨h, rfl, hscan, hparse, hscan', hparse'⟩

end ScriptTree
