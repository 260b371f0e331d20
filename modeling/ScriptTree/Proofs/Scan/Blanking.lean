import ScriptTree.Parse.Program
import ScriptTree.Proofs.Scan.Boundary

/-!
# Dropped characters are as good as blanks

A source is repaired by writing a blank for each character that its scan drops (`blanked`). No token
changes by this: what a token would go on with is no blank, and whatever else follows a token keeps
its first character, of which the token's end is seen (`Segment.endsBefore_blanked`). So the
repaired source is cut as before, with a blank for each dropped character (`isCut_blanked`).

Hence it has the same tokens and nothing is dropped from it, and it parses to the same result
(`scan_and_parse_blanked`).
-/

namespace ScriptTree

/-- The segment with blanks for its characters if they are dropped. -/
def Segment.blanked (seg : Segment) : Segment :=
  if seg.category = .dropped then ⟨.blank, seg.text.map fun _ => ' '⟩ else seg

/-- The source with a blank for each character that a scan drops. -/
def blanked (source : List Char) : List Char :=
  (segments source).flatMap fun seg => seg.blanked.text

/-- The characters that a scan drops, in order. -/
def droppedChars (source : List Char) : List Char :=
  (segments source).flatMap fun seg => if seg.category = .dropped then seg.text else []

namespace Segment

variable {c : Char} {cs text rest : List Char}

private theorem blanked_of_ne {seg : Segment} (h : seg.category ≠ .dropped) : seg.blanked = seg :=
  if_neg h

end Segment

private theorem blanked_nil : blanked [] = [] := by
  rw [blanked, segments, List.flatMap_nil]

private theorem blanked_cons (c : Char) (cs : List Char) :
    blanked (c :: cs)
      = (⟨(Segment.first c cs).1, c :: cs.take (Segment.first c cs).2⟩ : Segment).blanked.text ++
        blanked (cs.drop (Segment.first c cs).2) := by
  rw [blanked, segments, List.flatMap_cons]
  rfl

/-- A repaired source begins as before, or with a blank for a dropped character. -/
private theorem head?_blanked_cons (c : Char) (cs : List Char) :
    (blanked (c :: cs)).head? = some (if (Segment.first c cs).1 = .dropped then ' ' else c) := by
  rw [blanked_cons, Segment.blanked]
  split <;> rfl

namespace Segment

variable {text rest : List Char}

/-- A token ends before the repaired rest of a source if it ends before the rest. -/
theorem endsBefore_blanked (h : endsBefore text rest = true) :
    endsBefore text (ScriptTree.blanked rest) = true := by
  rcases rest with _ | ⟨c, cs⟩
  · rwa [blanked_nil]
  have hhead := head?_blanked_cons c cs
  split at hhead
  · obtain ⟨ds, hds⟩ := List.head?_eq_some_iff.mp hhead
    rw [hds]
    exact endsBefore_space (.inl rfl)
  · next hcat =>
    have hpoint : (c :: cs).head? ≠ some '.' := by
      intro heq
      obtain rfl : c = '.' := Option.some.inj heq
      exact hcat first_point
    have hcongr : endsBefore text (c :: cs) = endsBefore text (ScriptTree.blanked (c :: cs)) :=
      endsBefore_congr hhead.symm hpoint
    rwa [← hcongr]

/-- A segment that is not dropped is the next one before the repaired rest of a source if it is
before the rest. -/
theorem IsNext.blanked {seg : Segment} (h : seg.IsNext (seg.text ++ rest))
    (hcat : seg.category ≠ .dropped) : seg.IsNext (seg.text ++ ScriptTree.blanked rest) := by
  obtain ⟨cat, text⟩ := seg
  have hmatch : cat.Matches text := by
    cases h with
    | longest _ hmatch _ => exact hmatch
    | dropped => exact absurd rfl hcat
  cases cat with
  | blank =>
    cases hmatch with
    | blank hc => exact isNext_blank (by simpa [isBlank, or_assoc] using hc)
  | newline =>
    cases hmatch
    exact isNext_newline
  | comment =>
    cases hmatch with
    | comment hline =>
      refine (isNext_comment_iff hline).mpr fun d hd => ?_
      have hrest := (isNext_comment_iff hline).mp h
      rcases rest with _ | ⟨c, cs⟩
      · simp [blanked_nil] at hd
      · obtain rfl : c = '\n' := hrest c rfl
        rw [head?_blanked_cons, first_newline] at hd
        exact (Option.some.inj hd).symm
  | token k =>
    have hadmits := Category.matches_token_iff.mp hmatch
    exact (isNext_append_iff hadmits).mpr (endsBefore_blanked ((isNext_append_iff hadmits).mp h))
  | dropped => exact absurd rfl hcat

end Segment

/-- The repaired source is cut as the source is, with a blank for each dropped character. -/
theorem isCut_blanked (source : List Char) :
    IsCut (blanked source) ((segments source).map Segment.blanked) := by
  fun_induction segments source with
  | case1 =>
    rw [blanked_nil]
    exact .nil
  | case2 c cs next ih =>
    let seg : Segment := ⟨next.1, c :: cs.take next.2⟩
    have hsource : blanked (c :: cs) = seg.blanked.text ++ blanked (cs.drop next.2) :=
      blanked_cons c cs
    rw [hsource, List.map_cons]
    by_cases hcat : next.1 = .dropped
    · have hblank : seg.blanked = ⟨.blank, [' ']⟩ := by
        simp [seg, next, Segment.blanked, Segment.first_eq_of_dropped hcat]
      change IsCut _ (seg.blanked :: _)
      rw [hblank]
      exact .blank rfl ih
    · have hnext : seg.IsNext (seg.text ++ cs.drop next.2) := by
        rw [List.cons_append, List.take_append_drop]
        exact Segment.isNext_iff.mpr rfl
      change IsCut _ (seg.blanked :: _)
      rw [Segment.blanked_of_ne hcat]
      exact .cons (hnext.blanked hcat) ih

/-! ### What is scanned -/

section

variable (line : Nat) (segs : List Segment)

private theorem tokensFrom_map_blanked :
    tokensFrom line (segs.map Segment.blanked) = tokensFrom line segs := by
  induction segs generalizing line with
  | nil => rfl
  | cons seg segs ih =>
    cases hcat : seg.category <;> simp [tokensFrom, Segment.blanked, hcat, ih]

private theorem errorsFrom_map_blanked : errorsFrom line (segs.map Segment.blanked) = [] := by
  induction segs generalizing line with
  | nil => rfl
  | cons seg segs ih =>
    cases hcat : seg.category <;> simp [errorsFrom, Segment.blanked, hcat, ih]

private theorem lineEnds_map_blanked : lineEnds (segs.map Segment.blanked) = lineEnds segs := by
  rw [lineEnds, List.countP_map]
  refine List.countP_congr fun seg _ => ?_
  cases hcat : seg.category <;> simp [Segment.blanked, hcat]

/-- The reports are about the dropped segments, character by character. -/
private theorem map_character_errorsFrom :
    (errorsFrom line segs).map ScanError.character
      = segs.flatMap fun seg => if seg.category = .dropped then seg.text else [] := by
  induction segs generalizing line with
  | nil => rfl
  | cons seg segs ih =>
    cases hcat : seg.category <;> simp [errorsFrom, hcat, ih, Function.comp_def]

end

/-- **Dropped characters are blanks.** The characters reported by a scan are those that the scan
drops. With a blank in the place of each of them, the source has the same tokens on the same lines,
nothing is dropped from it, and it parses to the same program or the same error. -/
theorem scan_and_parse_blanked (source : String) :
    (scan source).errors.map ScanError.character = droppedChars source.toList ∧
      scan (String.ofList (blanked source.toList)) = ⟨(scan source).tokens, []⟩ ∧
      parse (String.ofList (blanked source.toList)) = parse source := by
  have hsegs := isCut_iff.mp (isCut_blanked source.toList)
  have hscan : scan (String.ofList (blanked source.toList)) = ⟨(scan source).tokens, []⟩ := by
    simp only [scan, Scanner.ofSource, Scanner.tokenize, String.toList_ofList]
    rw [← hsegs, tokensFrom_map_blanked, errorsFrom_map_blanked, lineEnds_map_blanked]
    rfl
  refine ⟨map_character_errorsFrom 1 _, hscan, ?_⟩
  rw [parse, parse, hscan]

end ScriptTree
