import ScriptTree.Proofs.Outline.Depth
import ScriptTree.Proofs.Outline.Expression

/-!
# Programs with equal outlines

The outlines of two programs that sources are read as are equal exactly when the programs have the
same normal form (`text_eq_iff_normal_eq`). An outline is read from the left. Every part of it is
known, up to its normal form, from a text that begins with it, and so is the place where it ends:

* a declaration, an assignment and a statement end with a parenthesis that closes them, and the
  second character of a statement tells its kind (`Stmt.initial`);
* the lines of a block, of the declarations and of a program are read one by one, up to a rest that
  no further line begins (`map_eq_of_flatMap_append_eq`). After a block this is a parenthesis or the
  label of an alternative, which is told from a statement by the first character behind its margin.

The induction over statements carries `Stmt.IsReadable`, which is stated for all depths and all
rests.
-/

namespace ScriptTree

/-! ### Items one after another -/

/-- What holds of a text, and of every text that begins with an item, holds behind items. -/
private theorem ok_flatMap_append {α : Type} {write : α → List Char} {ok : List Char → Prop}
    (hok : ∀ a x, ok (write a ++ x)) {x : List Char} (hx : ok x) (l : List α) :
    ok (l.flatMap write ++ x) := by
  cases l with
  | nil => exact hx
  | cons a l =>
    rw [List.flatMap_cons, List.append_assoc]
    exact hok a _

/-- **Reading a list of items.** Items written one after another are known from a text that begins
with them if each of them is, up to rests that begin with no item. What follows an item satisfies
`ok`, and the items need to be known only before such a rest. -/
theorem map_eq_of_flatMap_append_eq {α β : Type} {write : α → List Char} (norm : α → β)
    (ok : List Char → Prop) {l m : List α} {r s : List Char} (hok : ∀ a x, ok (write a ++ x))
    (hread : ∀ a ∈ l, ∀ b ∈ m, ∀ x y, ok x → ok y → write a ++ x = write b ++ y →
      norm a = norm b ∧ x = y)
    (hr : ok r) (hs : ok s) (hr' : ∀ a x, r ≠ write a ++ x) (hs' : ∀ a x, s ≠ write a ++ x)
    (h : l.flatMap write ++ r = m.flatMap write ++ s) : l.map norm = m.map norm ∧ r = s := by
  induction l generalizing m with
  | nil =>
    cases m with
    | nil => exact ⟨rfl, h⟩
    | cons b m =>
      rw [List.flatMap_cons, List.append_assoc] at h
      exact absurd h (hr' b _)
  | cons a l ih =>
    cases m with
    | nil =>
      rw [List.flatMap_cons, List.append_assoc] at h
      exact absurd h.symm (hs' a _)
    | cons b m =>
      rw [List.flatMap_cons, List.flatMap_cons, List.append_assoc, List.append_assoc] at h
      obtain ⟨hnorm, htail⟩ := hread a (List.mem_cons_self ..) b (List.mem_cons_self ..) _ _
        (ok_flatMap_append hok hr l) (ok_flatMap_append hok hs m) h
      obtain ⟨hmap, hrest⟩ := ih (fun a ha b hb => hread a (List.mem_cons_of_mem _ ha) b
        (List.mem_cons_of_mem _ hb)) htail
      exact ⟨by rw [List.map_cons, List.map_cons, hnorm, hmap], hrest⟩

/-- Texts with separators between them are a first text and a list of items that begin with the
separator. -/
private theorem toList_intercalate_cons {α : Type} (separator : String) (f : α → String) (a : α)
    (l : List α) :
    (separator.intercalate ((a :: l).map f)).toList
      = (f a).toList ++ l.flatMap fun b => separator.toList ++ (f b).toList := by
  induction l generalizing a with
  | nil => simp
  | cons b l ih =>
    have htail := ih b
    simp only [String.toList_intercalate, List.map_cons] at htail ⊢
    rw [List.intercalate_cons_cons, htail, List.flatMap_cons, List.append_assoc, List.append_assoc]

/-- The first character behind a margin is known, whatever the depth. -/
private theorem eq_of_margin_append_eq {m n : Nat} {c d : Char} {r s : List Char} (hc : c ≠ ' ')
    (hd : d ≠ ' ') (h : (marginText m).toList ++ c :: r = (marginText n).toList ++ d :: s) :
    c = d := by
  have behind {k : Nat} {b : Char} {t : List Char} (hb : b ≠ ' ') :
      ((marginText k).toList ++ b :: t).dropWhile (· == ' ') = b :: t := by
    have hall : ∀ a ∈ (marginText k).toList, (a == ' ') = true := by simp [marginText]
    rw [List.dropWhile_append_of_pos hall, List.dropWhile_cons_of_neg (by simpa using hb)]
  have hcons : c :: r = d :: s := by rw [← behind hc, h, behind hd]
  exact (List.cons.inj hcons).1

/-! ### Assignments, declarations and names -/

namespace Stops

private theorem paren (r : List Char) : Stops (")".toList ++ r) :=
  ⟨')', r, rfl, rfl⟩

private theorem sign (r : List Char) : Stops (" = ".toList ++ r) :=
  ⟨' ', _, rfl, rfl⟩

private theorem comma (r : List Char) : Stops (", ".toList ++ r) :=
  ⟨',', _, rfl, rfl⟩

private theorem lineEnd (r : List Char) : Stops ("\n".toList ++ r) :=
  ⟨'\n', r, rfl, rfl⟩

private theorem colon (r : List Char) : Stops (":\n".toList ++ r) :=
  ⟨':', _, rfl, rfl⟩

end Stops

namespace Token

variable {t u : Token}

/-- Well spelled tokens of one text are equal, but for their lines. -/
private theorem forgetLines_eq_of_toList_eq (ht : t.isWellSpelled = true)
    (hu : u.isWellSpelled = true) (h : t.lexeme.toList = u.lexeme.toList) :
    Relabelling.forgetLines.token t = Relabelling.forgetLines.token u := by
  rw [forgetLines_eq_ofText ht, forgetLines_eq_ofText hu, h]

/-- A name is known from a text that begins with it and stops there. -/
private theorem forgetLines_eq_of_append_eq (ht : t.isName = true) (hu : u.isName = true)
    {r s : List Char} (hr : Stops r) (hs : Stops s)
    (h : t.lexeme.toList ++ r = u.lexeme.toList ++ s) :
    Relabelling.forgetLines.token t = Relabelling.forgetLines.token u ∧ r = s := by
  have atom {t : Token} (ht : t.kind = .identifier ∧ t.isWellSpelled = true) :
      IsAtom t.lexeme.toList :=
    Kind.isAtom_of_admits ((Kind.isOperand_iff _).mpr (.inr ht.1)) ht.2
  rw [isName, Bool.and_eq_true, beq_iff_eq] at ht hu
  obtain ⟨htext, hrest⟩ := (atom ht).eq_of_append_eq (atom hu) hr hs h
  exact ⟨forgetLines_eq_of_toList_eq ht.2 hu.2 htext, hrest⟩

end Token

/-- An assignment is known from a text that begins with its outline. -/
theorem Assignment.normal_eq_of_append_eq {a b : Assignment} (ha : a.isCanonical = true)
    (hb : b.isCanonical = true) {r s : List Char}
    (h : a.outline.toList ++ r = b.outline.toList ++ s) : a.normal = b.normal ∧ r = s := by
  rw [isCanonical, Bool.and_eq_true] at ha hb
  simp only [outline, String.toList_append, List.append_assoc] at h
  obtain ⟨hname, hsign⟩ := Token.forgetLines_eq_of_append_eq ha.1 hb.1 (.sign _) (.sign _)
    (List.append_cancel_left h)
  obtain ⟨hvalue, hclose⟩ := Expr.normal_eq_of_append_eq ha.2 hb.2 (.paren r) (.paren s)
    (List.append_cancel_left hsign)
  refine ⟨?_, List.append_cancel_left hclose⟩
  calc a.normal = ⟨Relabelling.forgetLines.token a.name, a.value.normal⟩ := rfl
    _ = b.normal := by rw [hname, hvalue]; rfl

/-- What a declaration shows after its name. -/
def VarDecl.tail (d : VarDecl) : List Char :=
  match d.init with
  | some e => " = ".toList ++ (e.outline.toList ++ ")".toList)
  | none => ")".toList

private theorem VarDecl.toList_outline (d : VarDecl) :
    d.outline.toList = "(Declare ".toList ++ (d.typeName.lexeme.toList ++ (" ".toList
      ++ (d.name.lexeme.toList ++ d.tail))) := by
  obtain ⟨typeName, name, init⟩ := d
  cases init <;> simp [outline, tail]

/-- The initial value of a declaration is known from what is shown after the name. -/
private theorem VarDecl.normal_init_eq_of_append_eq {d e : VarDecl}
    (hd : d.init.all Expr.isCanonical = true) (he : e.init.all Expr.isCanonical = true)
    {r s : List Char} (h : d.tail ++ r = e.tail ++ s) :
    d.normal.init = e.normal.init ∧ r = s := by
  obtain ⟨type, name, init⟩ := d
  obtain ⟨type', name', init'⟩ := e
  cases init with
  | none =>
    cases init' with
    | none => exact ⟨rfl, List.append_cancel_left h⟩
    | some f => exact absurd (List.cons.inj h).1 (by decide)
  | some f =>
    cases init' with
    | none => exact absurd (List.cons.inj h).1 (by decide)
    | some g =>
      simp only [tail, List.append_assoc] at h
      obtain ⟨hvalue, hclose⟩ := Expr.normal_eq_of_append_eq hd he (.paren r) (.paren s)
        (List.append_cancel_left h)
      exact ⟨congrArg some hvalue, List.append_cancel_left hclose⟩

/-- A declaration is known from a text that begins with its outline. -/
theorem VarDecl.normal_eq_of_append_eq {d e : VarDecl} (hd : d.isCanonical = true)
    (he : e.isCanonical = true) {r s : List Char}
    (h : d.outline.toList ++ r = e.outline.toList ++ s) : d.normal = e.normal ∧ r = s := by
  simp only [isCanonical, Bool.and_eq_true] at hd he
  obtain ⟨⟨⟨htype, hspelled⟩, hname⟩, hinit⟩ := hd
  obtain ⟨⟨⟨htype', hspelled'⟩, hname'⟩, hinit'⟩ := he
  have blank {t : Token} (ht : t.kind.isTypeKeyword = true) (hspelled : t.isWellSpelled = true) :
      ' ' ∉ t.lexeme.toList := by
    refine Kind.not_mem_of_admits hspelled (fun hk => ?_) (.inl rfl)
    simp [hk, Kind.isTypeKeyword] at ht
  have stops (d : VarDecl) (x : List Char) : Stops (d.tail ++ x) := by
    unfold tail
    split
    · exact .sign _
    · exact .paren x
  simp only [toList_outline, List.append_assoc] at h
  obtain ⟨htypes, hsecond⟩ := eq_of_append_blank_eq (blank htype hspelled) (blank htype' hspelled')
    (List.append_cancel_left h)
  obtain ⟨hnames, hthird⟩ := Token.forgetLines_eq_of_append_eq hname hname' (stops d r) (stops e s)
    hsecond
  obtain ⟨hvalue, hrest⟩ := normal_init_eq_of_append_eq hinit hinit' hthird
  have htypes := Token.forgetLines_eq_of_toList_eq hspelled hspelled' htypes
  refine ⟨?_, hrest⟩
  calc d.normal = ⟨Relabelling.forgetLines.token d.typeName,
        Relabelling.forgetLines.token d.name, d.normal.init⟩ := rfl
    _ = e.normal := by rw [htypes, hnames, hvalue]; rfl

/-- Names between commas are known from a text that begins with them and a parenthesis. -/
private theorem names_eq_of_append_eq {names names' : List Token} (hne : names ≠ [])
    (hne' : names' ≠ []) (hnames : names.all Token.isName = true)
    (hnames' : names'.all Token.isName = true) {r s : List Char}
    (h : (", ".intercalate (names.map Token.lexeme)).toList ++ (")".toList ++ r)
      = (", ".intercalate (names'.map Token.lexeme)).toList ++ (")".toList ++ s)) :
    names.map Relabelling.forgetLines.token = names'.map Relabelling.forgetLines.token ∧ r = s := by
  obtain ⟨t, ts, rfl⟩ := List.exists_cons_of_ne_nil hne
  obtain ⟨u, us, rfl⟩ := List.exists_cons_of_ne_nil hne'
  rw [List.all_eq_true] at hnames hnames'
  have comma (t : Token) (x : List Char) : Stops (", ".toList ++ t.lexeme.toList ++ x) := by
    rw [List.append_assoc]
    exact .comma _
  have paren_ne {x : List Char} (t : Token) (y : List Char) :
      ")".toList ++ x ≠ ", ".toList ++ t.lexeme.toList ++ y :=
    fun heq => absurd (List.cons.inj heq).1 (by decide)
  have known : ∀ v ∈ ts, ∀ w ∈ us, ∀ x y, Stops x → Stops y →
      ", ".toList ++ v.lexeme.toList ++ x = ", ".toList ++ w.lexeme.toList ++ y →
      Relabelling.forgetLines.token v = Relabelling.forgetLines.token w ∧ x = y := by
    intro v hv w hw x y hx hy heq
    rw [List.append_assoc, List.append_assoc] at heq
    exact Token.forgetLines_eq_of_append_eq (hnames v (List.mem_cons_of_mem _ hv))
      (hnames' w (List.mem_cons_of_mem _ hw)) hx hy (List.append_cancel_left heq)
  rw [toList_intercalate_cons, toList_intercalate_cons, List.append_assoc, List.append_assoc] at h
  obtain ⟨hfirst, hmore⟩ := Token.forgetLines_eq_of_append_eq (hnames t (List.mem_cons_self ..))
    (hnames' u (List.mem_cons_self ..)) (ok_flatMap_append comma (.paren r) ts)
    (ok_flatMap_append comma (.paren s) us) h
  obtain ⟨hlater, hrest⟩ := map_eq_of_flatMap_append_eq _ Stops comma known (.paren r) (.paren s)
    paren_ne paren_ne hmore
  exact ⟨by rw [List.map_cons, List.map_cons, hfirst, hlater], List.append_cancel_left hrest⟩

/-! ### Lines of statements -/

/-- The second character of the outline of a statement, which is different for each kind. -/
def Stmt.initial : Stmt → Char
  | assignment _ => 'A'
  | ifElse .. => 'I'
  | repeatWhen .. => 'R'
  | forLoop .. => 'F'
  | print _ => 'P'
  | scan _ => 'S'

private theorem Stmt.exists_toList_textAt (s : Stmt) (d : Nat) :
    ∃ text, (s.textAt d).toList = '(' :: s.initial :: text := by
  cases s <;> simp [initial, Assignment.outline]

/-- Statements whose outlines begin one text are of one kind. -/
private theorem Stmt.initial_eq_of_append_eq {s t : Stmt} {d : Nat} {r r' : List Char}
    (h : (s.textAt d).toList ++ r = (t.textAt d).toList ++ r') : s.initial = t.initial := by
  obtain ⟨text, htext⟩ := s.exists_toList_textAt d
  obtain ⟨text', htext'⟩ := t.exists_toList_textAt d
  rw [htext, htext'] at h
  exact (List.cons.inj (List.cons.inj h).2).1

/-- A line of a statement after a line end. -/
def lineAt (d : Nat) (s : Stmt) : List Char :=
  "\n".toList ++ (marginText d ++ s.textAt d).toList

/-- No line of a statement at this depth begins the text. -/
def NoLine (d : Nat) (text : List Char) : Prop :=
  ∀ s r, text ≠ lineAt d s ++ r

private theorem NoLine.paren (d : Nat) (r : List Char) : NoLine d (")".toList ++ r) :=
  fun _ _ heq => absurd (List.cons.inj heq).1 (by decide)

/-- The labels of alternatives are no statements. -/
private theorem ElseChain.noLine (c : ElseChain) (m d : Nat) (r : List Char) :
    NoLine d ((c.textAt m).toList ++ (")".toList ++ r)) := by
  have label {text : List Char} :
      NoLine d ("\n".toList ++ ((marginText m).toList ++ 'E' :: text)) := by
    intro s r heq
    obtain ⟨rest, hrest⟩ := s.exists_toList_textAt d
    simp only [lineAt, String.toList_append, hrest, List.append_assoc] at heq
    exact absurd (eq_of_margin_append_eq (by decide) (by decide) (List.append_cancel_left heq))
      (by decide)
  cases c with
  | done =>
    rw [textAt_done]
    exact .paren d r
  | otherwise body =>
    rw [textAt_otherwise]
    simp only [String.toList_append, List.append_assoc]
    exact label
  | elseIf cond body rest =>
    rw [textAt_elseIf]
    simp only [String.toList_append, List.append_assoc]
    exact label

/-- The statement is known, up to its normal form, from a text that begins with its outline. -/
def Stmt.IsReadable (s : Stmt) : Prop :=
  ∀ ⦃t : Stmt⦄ ⦃d : Nat⦄ ⦃r r' : List Char⦄, t.isCanonical = true →
    (s.textAt d).toList ++ r = (t.textAt d).toList ++ r' → s.normal = t.normal ∧ r = r'

private theorem isCanonical_of_areCanonical {ss : List Stmt} (h : areCanonical ss = true) :
    ∀ s ∈ ss, s.isCanonical = true := by
  induction ss with
  | nil => simp
  | cons s ss ih =>
    rw [areCanonical, Bool.and_eq_true] at h
    exact List.forall_mem_cons.mpr ⟨h.1, ih h.2⟩

private theorem toList_blockAt_cons (s : Stmt) (ss : List Stmt) (d : Nat) :
    (blockAt (s :: ss) d).toList = (marginText d).toList ++ ((s.textAt d).toList
      ++ ss.flatMap (lineAt d)) := by
  rw [blockAt_cons, toList_intercalate_cons, String.toList_append, List.append_assoc]
  rfl

section

variable {body body' : Block} {d : Nat} {r s : List Char}

/-- **Reading a block.** A block is known, up to its normal form, from a text that begins with its
outline, if its statements are and no line follows it. -/
theorem normal_eq_of_blockAt_append_eq (hbody : ∀ s ∈ body, s.IsReadable)
    (hbody' : areCanonical body' = true) (hr : NoLine d r) (hs : NoLine d s)
    (h : (blockAt body d).toList ++ r = (blockAt body' d).toList ++ s) :
    body.map Stmt.normal = body'.map Stmt.normal ∧ r = s := by
  -- The line of an empty block and that of a first statement differ in the second character.
  have empty_ne (t : Stmt) (x y : List Char) :
      "(empty)".toList ++ x ≠ (t.textAt d).toList ++ y := by
    obtain ⟨text, htext⟩ := t.exists_toList_textAt d
    rw [htext]
    intro heq
    have hinitial : 'e' = t.initial := (List.cons.inj (List.cons.inj heq).2).1
    cases t <;> simp [Stmt.initial] at hinitial
  cases body with
  | nil =>
    cases body' with
    | nil => exact ⟨rfl, List.append_cancel_left h⟩
    | cons t ts =>
      simp only [blockAt_nil, toList_blockAt_cons, String.toList_append, List.append_assoc] at h
      exact absurd (List.append_cancel_left h) (empty_ne t _ _)
  | cons t ts =>
    cases body' with
    | nil =>
      simp only [blockAt_nil, toList_blockAt_cons, String.toList_append, List.append_assoc] at h
      exact absurd (List.append_cancel_left h).symm (empty_ne t _ _)
    | cons u us =>
      rw [areCanonical, Bool.and_eq_true] at hbody'
      simp only [toList_blockAt_cons, List.append_assoc] at h
      obtain ⟨hfirst, hlines⟩ := hbody t (List.mem_cons_self ..) hbody'.1
        (List.append_cancel_left h)
      have line {v w : Stmt} {x y : List Char} (hv : v ∈ ts) (hw : w ∈ us)
          (heq : lineAt d v ++ x = lineAt d w ++ y) : v.normal = w.normal ∧ x = y := by
        simp only [lineAt, String.toList_append, List.append_assoc] at heq
        exact hbody v (List.mem_cons_of_mem _ hv) (isCanonical_of_areCanonical hbody'.2 w hw)
          (List.append_cancel_left (List.append_cancel_left heq))
      obtain ⟨hlater, hrest⟩ := map_eq_of_flatMap_append_eq Stmt.normal (fun _ => True)
        (fun _ _ => trivial) (fun v hv w hw x y _ _ => line hv hw) trivial trivial hr hs hlines
      exact ⟨by rw [List.map_cons, List.map_cons, hfirst, hlater], hrest⟩

end

/-- The alternatives are known, up to their normal form, from a text that begins with their outline
and a parenthesis. -/
def ElseChain.IsReadable (c : ElseChain) : Prop :=
  ∀ ⦃e : ElseChain⦄ ⦃d : Nat⦄ ⦃r r' : List Char⦄, e.isCanonical = true →
    (c.textAt d).toList ++ (")".toList ++ r) = (e.textAt d).toList ++ (")".toList ++ r') →
    c.normal = e.normal ∧ r = r'

/-! ### Statements -/

section

variable {cond : Expr} {body : Block}

private theorem Stmt.isReadable_assignment {a : Assignment} (ha : a.isCanonical = true) :
    (assignment a).IsReadable := by
  intro t d r r' ht h
  have hinitial := initial_eq_of_append_eq h
  cases t with
  | assignment b =>
    rw [textAt_assignment, textAt_assignment] at h
    obtain ⟨hnormal, hrest⟩ := Assignment.normal_eq_of_append_eq ha ht h
    exact ⟨by rw [normal_assignment, normal_assignment, hnormal], hrest⟩
  | _ => simp [initial] at hinitial

private theorem Stmt.isReadable_print {exprs : List Expr}
    (hexprs : (print exprs).isCanonical = true) : (print exprs).IsReadable := by
  have single {exprs : List Expr} (h : (print exprs).isCanonical = true) :
      ∃ e, exprs = [e] ∧ e.isCanonical = true := by
    simp only [isCanonical, Bool.and_eq_true, beq_iff_eq, List.length_eq_one_iff] at h
    obtain ⟨⟨e, rfl⟩, he⟩ := h
    exact ⟨e, rfl, by simpa using he⟩
  intro t d r r' ht h
  have hinitial := initial_eq_of_append_eq h
  cases t with
  | print exprs' =>
    obtain ⟨e, rfl, he⟩ := single hexprs
    obtain ⟨f, rfl, hf⟩ := single ht
    simp only [textAt_print, List.map_cons, List.map_nil, String.intercalate_singleton,
      String.toList_append, List.append_assoc] at h
    obtain ⟨hnormal, hrest⟩ := Expr.normal_eq_of_append_eq he hf (.paren r) (.paren r')
      (List.append_cancel_left h)
    refine ⟨?_, List.append_cancel_left hrest⟩
    rw [normal_print, normal_print, List.map_singleton, List.map_singleton, hnormal]
  | _ => simp [initial] at hinitial

private theorem Stmt.isReadable_scan {names : List Token}
    (hnames : (scan names).isCanonical = true) : (scan names).IsReadable := by
  have split {names : List Token} (h : (scan names).isCanonical = true) :
      names ≠ [] ∧ names.all Token.isName = true := by
    rw [isCanonical, Bool.and_eq_true] at h
    exact ⟨by simpa using h.1, h.2⟩
  intro t d r r' ht h
  have hinitial := initial_eq_of_append_eq h
  cases t with
  | scan names' =>
    simp only [textAt_scan, String.toList_append, List.append_assoc] at h
    obtain ⟨hmap, hrest⟩ := names_eq_of_append_eq (split hnames).1 (split ht).1 (split hnames).2
      (split ht).2 (List.append_cancel_left h)
    exact ⟨by rw [normal_scan, normal_scan, hmap], hrest⟩
  | _ => simp [initial] at hinitial

private theorem Stmt.isReadable_ifElse {alternatives : ElseChain} (hcond : cond.isCanonical = true)
    (hbody : ∀ s ∈ body, s.IsReadable) (halternatives : alternatives.IsReadable) :
    (ifElse cond body alternatives).IsReadable := by
  intro t d r r' ht h
  have hinitial := initial_eq_of_append_eq h
  cases t with
  | ifElse cond' body' alternatives' =>
    simp only [isCanonical, Bool.and_eq_true] at ht
    simp only [textAt_ifElse, String.toList_append, List.append_assoc] at h
    obtain ⟨hconds, hlabel⟩ := Expr.normal_eq_of_append_eq hcond ht.1.1 (.lineEnd _) (.lineEnd _)
      (List.append_cancel_left h)
    have hthen := List.append_cancel_left (List.append_cancel_left hlabel)
    obtain ⟨hbodies, hchains⟩ := normal_eq_of_blockAt_append_eq hbody ht.1.2
      (alternatives.noLine _ _ r) (alternatives'.noLine _ _ r') (List.append_cancel_left hthen)
    obtain ⟨halternatives, hrest⟩ := halternatives ht.2 hchains
    exact ⟨by rw [normal_ifElse, normal_ifElse, hconds, hbodies, halternatives], hrest⟩
  | _ => simp [initial] at hinitial

private theorem Stmt.isReadable_repeatWhen (hcond : cond.isCanonical = true)
    (hbody : ∀ s ∈ body, s.IsReadable) : (repeatWhen cond body).IsReadable := by
  intro t d r r' ht h
  have hinitial := initial_eq_of_append_eq h
  cases t with
  | repeatWhen cond' body' =>
    simp only [isCanonical, Bool.and_eq_true] at ht
    simp only [textAt_repeatWhen, String.toList_append, List.append_assoc] at h
    obtain ⟨hconds, hblocks⟩ := Expr.normal_eq_of_append_eq hcond ht.1 (.lineEnd _) (.lineEnd _)
      (List.append_cancel_left h)
    obtain ⟨hbodies, hrest⟩ := normal_eq_of_blockAt_append_eq hbody ht.2 (.paren _ r) (.paren _ r')
      (List.append_cancel_left hblocks)
    refine ⟨?_, List.append_cancel_left hrest⟩
    rw [normal_repeatWhen, normal_repeatWhen, hconds, hbodies]
  | _ => simp [initial] at hinitial

private theorem Stmt.isReadable_forLoop {init update : Assignment} (hinit : init.isCanonical = true)
    (hcond : cond.isCanonical = true) (hupdate : update.isCanonical = true)
    (hbody : ∀ s ∈ body, s.IsReadable) : (forLoop init cond update body).IsReadable := by
  intro t d r r' ht h
  have hinitial := initial_eq_of_append_eq h
  cases t with
  | forLoop init' cond' update' body' =>
    simp only [isCanonical, Bool.and_eq_true] at ht
    obtain ⟨⟨⟨hinit', hcond'⟩, hupdate'⟩, hbody'⟩ := ht
    simp only [textAt_forLoop, String.toList_append, List.append_assoc] at h
    obtain ⟨hinits, h⟩ := Assignment.normal_eq_of_append_eq hinit hinit' (List.append_cancel_left h)
    obtain ⟨hconds, h⟩ := Expr.normal_eq_of_append_eq hcond hcond' (.comma _) (.comma _)
      (List.append_cancel_left h)
    obtain ⟨hupdates, h⟩ := Assignment.normal_eq_of_append_eq hupdate hupdate'
      (List.append_cancel_left h)
    obtain ⟨hbodies, hrest⟩ := normal_eq_of_blockAt_append_eq hbody hbody' (.paren _ r)
      (.paren _ r') (List.append_cancel_left h)
    refine ⟨?_, List.append_cancel_left hrest⟩
    rw [normal_forLoop, normal_forLoop, hinits, hconds, hupdates, hbodies]
  | _ => simp [initial] at hinitial

end

namespace ElseChain

variable {cond : Expr} {body : Block}

private theorem isReadable_done : done.IsReadable := by
  intro e d r r' he h
  rw [textAt_done] at h
  cases e with
  | done =>
    rw [textAt_done] at h
    exact ⟨rfl, List.append_cancel_left h⟩
  | otherwise | elseIf =>
    simp only [textAt_otherwise, textAt_elseIf, String.toList_append, List.append_assoc] at h
    exact absurd (List.cons.inj h).1 (by decide)

private theorem isReadable_otherwise (hbody : ∀ s ∈ body, s.IsReadable) :
    (otherwise body).IsReadable := by
  intro e d r r' he h
  cases e with
  | done =>
    simp only [textAt_done, textAt_otherwise, String.toList_append, List.append_assoc] at h
    exact absurd (List.cons.inj h).1 (by decide)
  | otherwise body' =>
    simp only [textAt_otherwise, String.toList_append, List.append_assoc] at h
    have hlabel := List.append_cancel_left (List.append_cancel_left h)
    obtain ⟨hbodies, hrest⟩ := normal_eq_of_blockAt_append_eq hbody he (.paren _ r) (.paren _ r')
      (List.append_cancel_left hlabel)
    exact ⟨by rw [normal_otherwise, normal_otherwise, hbodies], List.append_cancel_left hrest⟩
  | elseIf cond' body' rest =>
    -- The labels `ELSE:` and `ELSE IF` stand behind equal margins.
    simp only [textAt_otherwise, textAt_elseIf, String.toList_append, List.append_assoc] at h
    have hlabel := List.append_cancel_left (List.append_cancel_left h)
    simp at hlabel

private theorem isReadable_elseIf {rest : ElseChain} (hcond : cond.isCanonical = true)
    (hbody : ∀ s ∈ body, s.IsReadable) (hrest : rest.IsReadable) :
    (elseIf cond body rest).IsReadable := by
  intro e d r r' he h
  cases e with
  | done =>
    simp only [textAt_done, textAt_elseIf, String.toList_append, List.append_assoc] at h
    exact absurd (List.cons.inj h).1 (by decide)
  | otherwise body' =>
    -- The labels `ELSE:` and `ELSE IF` stand behind equal margins.
    simp only [textAt_otherwise, textAt_elseIf, String.toList_append, List.append_assoc] at h
    have hlabel := List.append_cancel_left (List.append_cancel_left h)
    simp at hlabel
  | elseIf cond' body' rest' =>
    simp only [isCanonical, Bool.and_eq_true] at he
    simp only [textAt_elseIf, String.toList_append, List.append_assoc] at h
    have hlabel := List.append_cancel_left (List.append_cancel_left h)
    obtain ⟨hconds, hblocks⟩ := Expr.normal_eq_of_append_eq hcond he.1.1 (.colon _) (.colon _)
      (List.append_cancel_left hlabel)
    obtain ⟨hbodies, hchains⟩ := normal_eq_of_blockAt_append_eq hbody he.1.2 (rest.noLine _ _ r)
      (rest'.noLine _ _ r') (List.append_cancel_left hblocks)
    obtain ⟨hrests, hrest⟩ := hrest he.2 hchains
    exact ⟨by rw [normal_elseIf, normal_elseIf, hconds, hbodies, hrests], hrest⟩

end ElseChain

mutual

/-- A canonical statement is known from a text that begins with its outline. -/
theorem Stmt.isReadable {s : Stmt} (h : s.isCanonical = true) : s.IsReadable := by
  cases s with
  | assignment a => exact Stmt.isReadable_assignment h
  | print exprs => exact Stmt.isReadable_print h
  | scan names => exact Stmt.isReadable_scan h
  | ifElse cond body alternatives =>
    simp only [Stmt.isCanonical, Bool.and_eq_true] at h
    exact Stmt.isReadable_ifElse h.1.1 (isReadable_of_areCanonical h.1.2)
      (ElseChain.isReadable h.2)
  | repeatWhen cond body =>
    simp only [Stmt.isCanonical, Bool.and_eq_true] at h
    exact Stmt.isReadable_repeatWhen h.1 (isReadable_of_areCanonical h.2)
  | forLoop init cond update body =>
    simp only [Stmt.isCanonical, Bool.and_eq_true] at h
    exact Stmt.isReadable_forLoop h.1.1.1 h.1.1.2 h.1.2 (isReadable_of_areCanonical h.2)

private theorem isReadable_of_areCanonical {ss : List Stmt} (h : areCanonical ss = true) :
    ∀ s ∈ ss, s.IsReadable := by
  cases ss with
  | nil => simp
  | cons s ss =>
    rw [areCanonical, Bool.and_eq_true] at h
    exact List.forall_mem_cons.mpr ⟨Stmt.isReadable h.1, isReadable_of_areCanonical h.2⟩

theorem ElseChain.isReadable {c : ElseChain} (h : c.isCanonical = true) : c.IsReadable := by
  cases c with
  | done => exact ElseChain.isReadable_done
  | otherwise body => exact ElseChain.isReadable_otherwise (isReadable_of_areCanonical h)
  | elseIf cond body rest =>
    simp only [ElseChain.isCanonical, Bool.and_eq_true] at h
    exact ElseChain.isReadable_elseIf h.1.1 (isReadable_of_areCanonical h.1.2)
      (ElseChain.isReadable h.2)

end

/-! ### Programs -/

/-- A line of a program that shows the given text. -/
def programLine (text : String) : List Char :=
  (marginText 2 ++ text ++ "\n").toList

private theorem Program.toList_text (p : Program) :
    (Node.program p).text.toList = ("AST_ROOT:\n" ++ "  DECLARATIONS:\n").toList
      ++ (p.decls.flatMap (fun d => programLine d.outline)
        ++ ("  STATEMENTS:\n".toList ++ p.stmts.flatMap (fun s => programLine (s.textAt 2)))) := by
  rw [text_eq]
  simp only [String.toList_append, String.toList_join, List.flatMap_map, List.append_assoc,
    programLine]

/-- Programs that can be written and have equal outlines have the same normal form. -/
theorem Program.normal_eq_of_text_eq {p q : Program} (hp : p.isCanonical = true)
    (hq : q.isCanonical = true) (h : (Node.program p).text = (Node.program q).text) :
    p.normal = q.normal := by
  rw [isCanonical, Bool.and_eq_true, List.all_eq_true] at hp hq
  have htext := congrArg String.toList h
  rw [toList_text, toList_text] at htext
  -- The heading of the statements is no declaration, and nothing follows the statements.
  have heading {x : List Char} (d : VarDecl) (y : List Char) :
      "  STATEMENTS:\n".toList ++ x ≠ programLine d.outline ++ y := by
    intro heq
    simp [programLine, marginText, List.replicate] at heq
  have ending (s : Stmt) (y : List Char) : [] ≠ programLine (s.textAt 2) ++ y := by
    simp [programLine]
  have declLine {d e : VarDecl} {x y : List Char} (hd : d ∈ p.decls) (he : e ∈ q.decls)
      (heq : programLine d.outline ++ x = programLine e.outline ++ y) :
      d.normal = e.normal ∧ x = y := by
    simp only [programLine, String.toList_append, List.append_assoc] at heq
    obtain ⟨hnormal, hrest⟩ := VarDecl.normal_eq_of_append_eq (hp.1 d hd) (hq.1 e he)
      (List.append_cancel_left heq)
    exact ⟨hnormal, List.append_cancel_left hrest⟩
  have stmtLine {s t : Stmt} {x y : List Char} (hs : s ∈ p.stmts) (ht : t ∈ q.stmts)
      (heq : programLine (s.textAt 2) ++ x = programLine (t.textAt 2) ++ y) :
      s.normal = t.normal ∧ x = y := by
    simp only [programLine, String.toList_append, List.append_assoc] at heq
    obtain ⟨hnormal, hrest⟩ := isReadable_of_areCanonical hp.2 s hs
      (isCanonical_of_areCanonical hq.2 t ht) (List.append_cancel_left heq)
    exact ⟨hnormal, List.append_cancel_left hrest⟩
  obtain ⟨hdecls, hrest⟩ := map_eq_of_flatMap_append_eq VarDecl.normal (fun _ => True)
    (fun _ _ => trivial) (fun d hd e he x y _ _ => declLine hd he) trivial trivial heading heading
    (List.append_cancel_left htext)
  have hlines := List.append_cancel_left hrest
  rw [← List.append_nil (p.stmts.flatMap _), ← List.append_nil (q.stmts.flatMap _)] at hlines
  obtain ⟨hstmts, -⟩ := map_eq_of_flatMap_append_eq Stmt.normal (fun _ => True)
    (fun _ _ => trivial) (fun s hs t ht x y _ _ => stmtLine hs ht) trivial trivial ending ending
    hlines
  rw [normal_eq, normal_eq, hdecls, hstmts]

/-- **Equal outlines.** Two sources are read as programs with the same outline exactly when the
programs are equal up to lines, with names `NEWLINE` in the place of line breaks. -/
theorem text_eq_iff_normal_eq {source target : String} {p q : Program}
    (hp : parse source = .ok p) (hq : parse target = .ok q) :
    (Node.program p).text = (Node.program q).text ↔ p.normal = q.normal := by
  constructor
  · exact Program.normal_eq_of_text_eq (isCanonical_of_parse hp) (isCanonical_of_parse hq)
  · intro h
    rw [← p.text_normal, ← q.text_normal, h]

/-- A script that prints a line break and one that prints a name `NEWLINE` differ by more than their
lines and have the same outline. -/
theorem text_eq_newline :
    ∃ p q : Program,
      parse "SCRIPT AREA START SCRIPT PRINT : $ $ END SCRIPT" = .ok p ∧
      parse "SCRIPT AREA START SCRIPT PRINT : NEWLINE $ END SCRIPT" = .ok q ∧
      p.eraseLines ≠ q.eraseLines ∧ p.normal = q.normal ∧
      (Node.program p).text = (Node.program q).text := by
  let p : Program := ⟨[], [.print [.newline 1]]⟩
  let q : Program := ⟨[], [.print [.identifier ⟨.identifier, "NEWLINE", 1⟩]]⟩
  have hp : parse p.source = .ok p := parse_source (by decide)
  have hq : parse q.source = .ok q := parse_source (by decide)
  have hne : p.eraseLines ≠ q.eraseLines := by
    intro h
    cases h
  exact ⟨p, q, hp, hq, hne, rfl, (text_eq_iff_normal_eq hp hq).mpr rfl⟩

end ScriptTree
