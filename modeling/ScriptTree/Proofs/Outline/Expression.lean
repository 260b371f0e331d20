import ScriptTree.Proofs.Outline.Normal
import ScriptTree.Proofs.Source.RoundTrip

/-!
# Reading the outline of an expression

The outline of an expression is an atom, or a head and one or two operands in parentheses: a `Form`.
A form is known from its text, and where the text ends is known as well (`Form.eq_of_append_eq`).
For an atom ends before a blank, a parenthesis, a comma, a colon or a line end, unless it is a
character in quotes, which has three characters; and a head ends before a blank.

The form of a canonical expression says which expression it is, up to lines and up to the difference
between a line break and a name `NEWLINE` (`Expr.normal_eq_of_append_eq`).
-/

namespace ScriptTree

/-! ### Atoms -/

/-- The characters that end an atom. -/
def isStop (c : Char) : Bool :=
  c == ' ' || c == ')' || c == '\n' || c == ',' || c == ':'

/-- The characters of an atom without quotes. -/
def isPlain (c : Char) : Bool :=
  !isStop c && c != '(' && c != '\''

/-- The text begins with a character that ends an atom. -/
def Stops (text : List Char) : Prop :=
  ∃ c cs, text = c :: cs ∧ isStop c = true

/-- The text of a leaf. -/
inductive IsAtom : List Char → Prop where
  | quoted (c : Char) : IsAtom ['\'', c, '\'']
  | plain {text : List Char} : text ≠ [] → (∀ c ∈ text, isPlain c = true) → IsAtom text

namespace IsAtom

variable {w v r s : List Char}

/-- Plain characters end where the text stops. -/
private theorem takeWhile_append (hw : ∀ c ∈ w, isPlain c = true) (hr : Stops r) :
    (w ++ r).takeWhile isPlain = w := by
  obtain ⟨c, cs, rfl, hc⟩ := hr
  rw [List.takeWhile_append_of_pos hw, List.takeWhile_cons_of_neg (by simp [isPlain, hc])]
  exact List.append_nil w

/-- An atom is known from a text that begins with it. -/
theorem eq_of_append_eq (hw : IsAtom w) (hv : IsAtom v) (hr : Stops r) (hs : Stops s)
    (h : w ++ r = v ++ s) : w = v ∧ r = s := by
  suffices heq : w = v from ⟨heq, List.append_cancel_left (heq ▸ h)⟩
  -- A quoted atom begins with a quote, and no plain one does.
  have quote {c : Char} {u t t' : List Char} (hne : u ≠ []) (hu : ∀ c ∈ u, isPlain c = true)
      (heq : ['\'', c, '\''] ++ t = u ++ t') : False := by
    obtain ⟨d, ds, rfl⟩ := List.exists_cons_of_ne_nil hne
    have hd := hu d (List.mem_cons_self ..)
    rw [← (List.cons.inj heq).1] at hd
    exact absurd hd (by decide)
  cases hw with
  | quoted c =>
    cases hv with
    | quoted d =>
      obtain ⟨rfl, -⟩ : c = d ∧ r = s := by simpa using h
      rfl
    | plain hne hv => exact (quote hne hv h).elim
  | plain hne hw =>
    cases hv with
    | quoted d => exact (quote hne hw h.symm).elim
    | plain _ hv => rw [← takeWhile_append hw hr, h, takeWhile_append hv hs]

/-- No atom begins with a parenthesis. -/
private theorem append_ne (hw : IsAtom w) (r s : List Char) : w ++ r ≠ '(' :: s := by
  intro h
  cases hw with
  | quoted c => simp at h
  | plain hne hw =>
    obtain ⟨d, ds, rfl⟩ := List.exists_cons_of_ne_nil hne
    have hd := hw d (List.mem_cons_self ..)
    obtain rfl : d = '(' := (List.cons.inj h).1
    exact absurd hd (by decide)

end IsAtom

/-- A character of a word is plain. -/
private theorem isPlain_of_isWordChar {c : Char} (h : isWordChar c = true) : isPlain c = true := by
  have hne {d : Char} (hd : isWordChar d = false) : c ≠ d := by
    rintro rfl
    simp [h] at hd
  simp [isPlain, isStop, hne (d := ' ') rfl, hne (d := ')') rfl, hne (d := '\n') rfl,
    hne (d := ',') rfl, hne (d := ':') rfl, hne (d := '(') rfl, hne (d := '\'') rfl]

private theorem isAtom_of_isWord {text : List Char} (h : isWord text = true) : IsAtom text := by
  rcases text with _ | ⟨c, cs⟩
  · contradiction
  rw [isWord, Bool.and_eq_true, List.all_eq_true] at h
  have hc : isWordChar c = true := by
    have hstart := h.1
    simp only [isWordStart, isWordChar, Char.isAlphanum, Bool.or_eq_true] at hstart ⊢
    exact hstart.imp_left .inl
  refine .plain (List.cons_ne_nil c cs) fun d hd => isPlain_of_isWordChar ?_
  rcases List.mem_cons.mp hd with rfl | hd
  · exact hc
  · exact h.2 d hd

/-- What can be written for an operand is an atom. -/
theorem Kind.isAtom_of_admits {k : Kind} {text : List Char} (hk : k.isOperand = true)
    (h : k.admits text = true) : IsAtom text := by
  have digits {ds : List Char} (hds : isWhole ds = true) :
      ds ≠ [] ∧ ∀ c ∈ ds, isPlain c = true := by
    rw [isWhole, Bool.and_eq_true, List.all_eq_true] at hds
    refine ⟨by simpa using hds.1, fun c hc => isPlain_of_isWordChar ?_⟩
    simp [isWordChar, Char.isAlphanum, hds.2 c hc]
  cases k <;> try contradiction
  · -- identifiers
    rw [admits, Bool.and_eq_true] at h
    exact isAtom_of_isWord h.1
  · exact .plain (digits h).1 (digits h).2
  · obtain ⟨whole, fraction, rfl, hwhole, hfraction⟩ := Category.exists_of_isDecimal h
    refine .plain (by simp) fun c hc => ?_
    rcases List.mem_append.mp hc with hc | hc
    · exact (digits hwhole).2 c hc
    · rcases List.mem_cons.mp hc with rfl | hc
      · rfl
      · exact (digits hfraction).2 c hc
  · obtain ⟨c, rfl, -⟩ := Category.exists_of_isQuoted h
    exact .quoted c
  · have htruth : ∀ p ∈ reserved, p.2 = .boolLiteral → isWord p.1.toList = true := by decide
    have hmem := mem_reserved_of_keyword? (by simpa [admits] using h)
    exact isAtom_of_isWord (by simpa using htruth _ hmem rfl)

/-- A head ends before a blank. -/
theorem eq_of_append_blank_eq {u v r s : List Char} (hu : ' ' ∉ u) (hv : ' ' ∉ v)
    (h : u ++ ' ' :: r = v ++ ' ' :: s) : u = v ∧ r = s := by
  have cut {w t : List Char} (hw : ' ' ∉ w) : (w ++ ' ' :: t).takeWhile (· != ' ') = w := by
    have hall : ∀ c ∈ w, (c != ' ') = true := fun c hc => by
      simpa using fun heq : c = ' ' => hw (heq ▸ hc)
    rw [List.takeWhile_append_of_pos hall]
    simp
  obtain rfl : u = v := by rw [← cut hu, h, cut hv]
  exact ⟨rfl, (List.cons.inj (List.append_cancel_left h)).2⟩

/-! ### Forms -/

/-- The shape of the outline of an expression. -/
inductive Form where
  | atom (text : List Char)
  /-- A head and one operand. -/
  | one (head : List Char) (operand : Form)
  /-- A head and two operands. -/
  | two (head : List Char) (left right : Form)

namespace Form

/-- The text of a form. -/
def text : Form → List Char
  | atom text => text
  | one head operand => '(' :: (head ++ ' ' :: (operand.text ++ [')']))
  | two head left right => '(' :: (head ++ ' ' :: (left.text ++ ' ' :: (right.text ++ [')'])))

/-- Leaves are atoms, and heads have no blank. -/
inductive IsReadable : Form → Prop where
  | atom {text : List Char} : IsAtom text → IsReadable (atom text)
  | one {head : List Char} {operand : Form} :
    ' ' ∉ head → IsReadable operand → IsReadable (one head operand)
  | two {head : List Char} {left right : Form} :
    ' ' ∉ head → IsReadable left → IsReadable right → IsReadable (two head left right)

/-- **Reading a form.** A readable form is known from a text that begins with it. -/
theorem eq_of_append_eq {a b : Form} (ha : a.IsReadable) (hb : b.IsReadable) {r s : List Char}
    (hr : Stops r) (hs : Stops s) (h : a.text ++ r = b.text ++ s) : a = b ∧ r = s := by
  have closing (t : List Char) : Stops (')' :: t) := ⟨')', t, rfl, rfl⟩
  have blank (t : List Char) : Stops (' ' :: t) := ⟨' ', t, rfl, rfl⟩
  induction ha generalizing b r s with
  | @atom w hw =>
    cases hb with
    | atom hv =>
      obtain ⟨rfl, hrest⟩ := hw.eq_of_append_eq hv hr hs h
      exact ⟨rfl, hrest⟩
    | one | two => exact absurd h (hw.append_ne _ _)
  | @one head a hhead _ ih =>
    cases hb with
    | atom hv => exact absurd h.symm (hv.append_ne _ _)
    | one hhead' hb =>
      simp only [text, List.cons_append, List.append_assoc, List.nil_append] at h
      obtain ⟨rfl, hinner⟩ := eq_of_append_blank_eq hhead hhead' (List.cons.inj h).2
      obtain ⟨rfl, hrest⟩ := ih hb (closing _) (closing _) hinner
      exact ⟨rfl, (List.cons.inj hrest).2⟩
    | two hhead' hb _ =>
      simp only [text, List.cons_append, List.append_assoc, List.nil_append] at h
      obtain ⟨-, hinner⟩ := eq_of_append_blank_eq hhead hhead' (List.cons.inj h).2
      obtain ⟨-, hrest⟩ := ih hb (closing _) (blank _) hinner
      exact absurd (List.cons.inj hrest).1 (by decide)
  | @two head a c hhead _ _ iha ihc =>
    cases hb with
    | atom hv => exact absurd h.symm (hv.append_ne _ _)
    | one hhead' hb =>
      simp only [text, List.cons_append, List.append_assoc, List.nil_append] at h
      obtain ⟨-, hinner⟩ := eq_of_append_blank_eq hhead hhead' (List.cons.inj h).2
      obtain ⟨-, hrest⟩ := iha hb (blank _) (closing _) hinner
      exact absurd (List.cons.inj hrest).1 (by decide)
    | two hhead' hb hd =>
      simp only [text, List.cons_append, List.append_assoc, List.nil_append] at h
      obtain ⟨rfl, hinner⟩ := eq_of_append_blank_eq hhead hhead' (List.cons.inj h).2
      obtain ⟨rfl, hsecond⟩ := iha hb (blank _) (blank _) hinner
      obtain ⟨rfl, hrest⟩ := ihc hd (closing _) (closing _) (List.cons.inj hsecond).2
      exact ⟨rfl, (List.cons.inj hrest).2⟩

end Form

/-! ### The form of an expression -/

namespace Expr

/-- The form of the outline of an expression. -/
def form : Expr → Form
  | binary left operator right | logical left operator right =>
    .two operator.lexeme.toList left.form right.form
  | unary operator operand => .one operator.lexeme.toList operand.form
  | grouping inner => .one "group".toList inner.form
  | literal value => .atom value.lexeme.toList
  | identifier name => .atom name.lexeme.toList
  | newline _ => .atom "NEWLINE".toList

private theorem toList_outline (e : Expr) : e.outline.toList = e.form.text := by
  induction e with
  | binary left operator right ihl ihr | logical left operator right ihl ihr =>
    simp [outline, form, Form.text, ihl, ihr]
  | unary operator operand ih => simp [outline, form, Form.text, ih]
  | grouping inner ih => simp [outline, form, Form.text, ih]
  | literal | identifier | newline => rfl

/-- A canonical expression has an outline that can be read. -/
theorem isReadable_form {e : Expr} (h : e.isCanonical = true) : e.form.IsReadable := by
  have blank {t : Token} (ht : t.isWellSpelled = true) (hk : t.kind ≠ .charLiteral) :
      ' ' ∉ t.lexeme.toList := Kind.not_mem_of_admits ht hk (.inl rfl)
  have infix_ne {k : Kind} {P : Nat → Bool} (hk : k.level?.any P = true) : k ≠ .charLiteral := by
    rintro rfl
    simp [Kind.level?] at hk
  induction e with
  | binary left operator right ihl ihr | logical left operator right ihl ihr =>
    simp only [isCanonical, Bool.and_eq_true] at h
    obtain ⟨⟨⟨⟨-, hspelled⟩, hlevel⟩, hleft⟩, hright⟩ := h
    exact .two (blank hspelled (infix_ne hlevel)) (ihl hleft) (ihr hright)
  | unary operator operand ih =>
    simp only [isCanonical, Bool.and_eq_true] at h
    obtain ⟨⟨⟨hunary, hspelled⟩, -⟩, hoperand⟩ := h
    refine .one (blank hspelled fun hk => ?_) (ih hoperand)
    simp [hk, Kind.isPrefixOperator] at hunary
  | grouping inner ih => exact .one (by decide) (ih h)
  | literal value =>
    simp only [isCanonical, Bool.and_eq_true] at h
    exact .atom (Kind.isAtom_of_admits ((Kind.isOperand_iff _).mpr (.inl h.1)) h.2)
  | identifier name =>
    simp only [isCanonical, Token.isName, Bool.and_eq_true, beq_iff_eq] at h
    exact .atom (Kind.isAtom_of_admits ((Kind.isOperand_iff _).mpr (.inr h.1)) h.2)
  | newline => exact .atom (isAtom_of_isWord rfl)

end Expr

/-- The token that a text stands for, on line zero. -/
def Token.ofText (text : List Char) : Token :=
  ⟨Kind.ofText text, String.ofList text, 0⟩

/-- But for its line, a well spelled token is the one that its text stands for. -/
theorem Token.forgetLines_eq_ofText {t : Token} (h : t.isWellSpelled = true) :
    Relabelling.forgetLines.token t = ofText t.lexeme.toList := by
  have hkind : Kind.ofText t.lexeme.toList = t.kind := Kind.ofText_eq h
  simp [Relabelling.forgetLines, ofText, hkind]

/-- The expression that a form shows. -/
def Form.expr : Form → Expr
  | atom text => .leaf (.ofText text)
  | one head operand =>
    if head = "group".toList then .grouping operand.expr else .unary (.ofText head) operand.expr
  | two head left right => .infixNode left.expr (.ofText head) right.expr

section

variable {t : Token}

private theorem Form.expr_atom (h : t.isWellSpelled = true) :
    (atom t.lexeme.toList).expr = .leaf (Relabelling.forgetLines.token t) := by
  rw [expr, Token.forgetLines_eq_ofText h]

private theorem Form.expr_two (h : t.isWellSpelled = true) (a b : Form) :
    (two t.lexeme.toList a b).expr
      = .infixNode a.expr (Relabelling.forgetLines.token t) b.expr := by
  rw [expr, Token.forgetLines_eq_ofText h]

/-- A sign before an operand is not read as the head of a group. -/
private theorem Form.expr_one (hunary : t.kind.isPrefixOperator = true) (h : t.isWellSpelled = true)
    (a : Form) :
    (one t.lexeme.toList a).expr = .unary (Relabelling.forgetLines.token t) a.expr := by
  have hgroup : t.lexeme.toList ≠ "group".toList := by
    intro heq
    rw [Token.isWellSpelled, heq] at h
    revert hunary h
    cases t.kind <;> decide
  rw [expr, if_neg hgroup, Token.forgetLines_eq_ofText h]

end

/-- A canonical expression is the one that its form shows, but for line breaks and lines. -/
theorem Expr.normal_eq {e : Expr} (h : e.isCanonical = true) : e.normal = e.form.expr := by
  unfold normal
  induction e with
  | binary left operator right ihl ihr =>
    simp only [isCanonical, Bool.and_eq_true, Bool.not_eq_true'] at h
    obtain ⟨⟨⟨⟨hplain, hspelled⟩, -⟩, hleft⟩, hright⟩ := h
    have hkind : ¬ (Relabelling.forgetLines.token operator).kind.isLogical = true := by
      simpa [Relabelling.forgetLines] using hplain
    rw [nameNewlines, relabel, ihl hleft, ihr hright, form, Form.expr_two hspelled, infixNode,
      if_neg hkind]
  | logical left operator right ihl ihr =>
    simp only [isCanonical, Bool.and_eq_true] at h
    obtain ⟨⟨⟨⟨hlogical, hspelled⟩, -⟩, hleft⟩, hright⟩ := h
    have hkind : (Relabelling.forgetLines.token operator).kind.isLogical = true := hlogical
    rw [nameNewlines, relabel, ihl hleft, ihr hright, form, Form.expr_two hspelled, infixNode,
      if_pos hkind]
  | unary operator operand ih =>
    simp only [isCanonical, Bool.and_eq_true] at h
    obtain ⟨⟨⟨hunary, hspelled⟩, -⟩, hoperand⟩ := h
    rw [nameNewlines, relabel, ih hoperand, form, Form.expr_one hunary hspelled]
  | grouping inner ih => rw [nameNewlines, relabel, ih h, form, Form.expr, if_pos rfl]
  | literal value =>
    simp only [isCanonical, Bool.and_eq_true] at h
    have hname : (Relabelling.forgetLines.token value).kind ≠ .identifier := by
      intro heq
      have hvalue : value.kind = .identifier := heq
      simp [hvalue, Kind.isLiteral] at h
    rw [nameNewlines, relabel, form, Form.expr_atom h.2, leaf, if_neg hname]
  | identifier name =>
    simp only [isCanonical, Token.isName, Bool.and_eq_true, beq_iff_eq] at h
    have hname : (Relabelling.forgetLines.token name).kind = .identifier := h.1
    rw [nameNewlines, relabel, form, Form.expr_atom h.2, leaf, if_pos hname]
  | newline line => exact (Form.expr_atom (t := ⟨.identifier, "NEWLINE", 0⟩) (by decide)).symm

/-- **Reading the outline of an expression.** The text of a canonical expression, with anything
after it at which an atom ends, determines the expression up to line breaks and lines, and where it
ends. -/
theorem Expr.normal_eq_of_append_eq {e f : Expr} (he : e.isCanonical = true)
    (hf : f.isCanonical = true) {r s : List Char} (hr : Stops r) (hs : Stops s)
    (h : e.outline.toList ++ r = f.outline.toList ++ s) : e.normal = f.normal ∧ r = s := by
  rw [toList_outline, toList_outline] at h
  obtain ⟨hform, hrest⟩ := Form.eq_of_append_eq (isReadable_form he) (isReadable_form hf) hr hs h
  exact ⟨by rw [normal_eq he, normal_eq hf, hform], hrest⟩

end ScriptTree
