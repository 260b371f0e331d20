/-!
# Texts and their lines

A text is on one line if there is no line end in it (`IsLine`). A text of several lines can be moved
to the right with its first line left where it is (`hang`), as is done with what stands behind a
margin of its own. Texts are moved part by part, and a text on one line stays as it is.
-/

namespace ScriptTree

/-! ### Lines -/

/-- There is no line end in the text. -/
def IsLine (text : String) : Prop :=
  '\n' ∉ text.toList

instance (text : String) : Decidable (IsLine text) :=
  inferInstanceAs (Decidable ('\n' ∉ text.toList))

namespace IsLine

/-- Two texts next to each other are on one line if each of them is. -/
@[simp] theorem append_iff {a b : String} : IsLine (a ++ b) ↔ IsLine a ∧ IsLine b := by
  simp [IsLine]

/-- A number is written with digits. -/
@[simp] theorem repr (n : Nat) : IsLine n.repr := by
  intro h
  rw [Nat.toList_repr] at h
  exact absurd (Nat.isDigit_of_mem_toDigits (by decide) (by decide) h) (by decide)

@[simp] theorem toString_iff {a : String} : IsLine (toString a) ↔ IsLine a :=
  Iff.rfl

@[simp] theorem toString_nat (n : Nat) : IsLine (toString n) :=
  repr n

theorem toString_char {c : Char} (h : c ≠ '\n') : IsLine (toString c) := by
  change '\n' ∉ (String.singleton c).toList
  simpa using Ne.symm h

/-- Texts on one line with separators between them are on one line. -/
theorem intercalate {separator : String} (hseparator : IsLine separator) {texts : List String}
    (h : ∀ text ∈ texts, IsLine text) : IsLine (separator.intercalate texts) := by
  induction texts with
  | nil => simp [IsLine]
  | cons a texts ih =>
    obtain ⟨ha, htexts⟩ := List.forall_mem_cons.mp h
    cases texts with
    | nil => simpa using ha
    | cons b texts => simp [String.intercalate_cons_cons, ha, hseparator, ih htexts]

end IsLine

/-! ### Hanging texts -/

/-- The text with every line but the first one moved to the right by as many levels of two blanks
each. -/
def hang (levels : Nat) (text : String) : String :=
  String.ofList (text.toList.flatMap fun c =>
    if c = '\n' then c :: List.replicate (2 * levels) ' ' else [c])

/-- Texts are moved part by part. -/
@[simp] theorem hang_append (levels : Nat) (a b : String) :
    hang levels (a ++ b) = hang levels a ++ hang levels b := by
  simp [hang]

/-- A text on one line has no other lines to be moved. -/
theorem hang_of_isLine {text : String} (h : IsLine text) (levels : Nat) :
    hang levels text = text := by
  have hsame (cs : List Char) (hcs : '\n' ∉ cs) :
      (cs.flatMap fun c => if c = '\n' then c :: List.replicate (2 * levels) ' ' else [c])
        = cs := by
    induction cs with
    | nil => rfl
    | cons c cs ih =>
      rw [List.mem_cons, not_or] at hcs
      rw [List.flatMap_cons, if_neg (Ne.symm hcs.1), ih hcs.2, List.singleton_append]
  rw [hang, hsame _ h, String.ofList_toList]

end ScriptTree
