import ScriptTree.Proofs.Program.Completeness
import ScriptTree.Proofs.Program.Openings

/-!
# The keywords that reading notes

A parser notes the keyword of every compound statement that it begins. `Parser.Notes taken p` says
that whenever the parser `p` succeeds, the keywords that it adds are the openings in the tokens that
it takes; `taken` says whether the first of these belongs to a word before it. The rules of the
first part follow the ways in which parsers are put together, and the parser of a statement has the
property if the one for the statements inside it has (`statementWith_notes`), which closes the
circle.

The main result is `heads_of_parse`: the keywords noted for a program are the openings in its
tokens, and the statements that begin there are the compound statements of the tree in pre-order.
-/

namespace ScriptTree.Parser

variable {α β : Type} {p : Parser α} {f : α → Parser β} {taken : Bool} {k : Kind} {r : Reading}

/-! ### Noting keywords -/

/-- If the parser succeeds on the reading, it adds the openings in the tokens that it takes. -/
def NotesAt (taken : Bool) (p : Parser α) (r : Reading) : Prop :=
  ∀ ⦃s : Reading⦄ ⦃a : α⦄, p r = .ok a s →
    ∃ used heads, r.input.ahead = used ++ s.input.ahead ∧ s.heads = r.heads ++ heads ∧
      Covers (fun head o => head = o.1) taken used heads

/-- Whenever the parser succeeds, it adds the openings in the tokens that it takes. -/
def Notes (taken : Bool) (p : Parser α) : Prop :=
  ∀ r, NotesAt taken p r

namespace NotesAt

/-- Only what the parser does on this reading matters. -/
private theorem congr {q : Parser α} (heq : p r = q r) (hq : NotesAt taken q r) :
    NotesAt taken p r := by
  intro s a h
  exact hq (heq ▸ h)

/-- A failure notes nothing that counts. -/
private theorem error {e : ParseError} {s : Reading} (h : p r = .error e s) :
    NotesAt taken p r := by
  intro t a hok
  rw [h] at hok
  contradiction

/-- A token that is taken and begins no statement. -/
theorem advance_bind {q : Unit → Parser β} (hcur : r.input.current.kind = k) (hne : k ≠ .eof)
    (hk : (k.isOpener && !taken) = false) (hq : Notes k.takesWord (q ())) :
    NotesAt taken (advance >>= q) r := by
  intro s b h
  obtain ⟨used, heads, hused, hheads, hcovers⟩ := hq _ h
  obtain ⟨⟨ahead, n⟩, noted⟩ := r
  cases ahead with
  | nil => exact absurd hcur.symm hne
  | cons t ts =>
    exact ⟨t :: used, heads, congrArg (t :: ·) hused, hheads, .cons hcur hk hcovers⟩

/-- A token that begins a statement is taken and noted. -/
theorem begin_bind {q : Unit → Parser β} (hopener : r.input.current.kind.isOpener = true)
    (hq : Notes false (q ())) :
    NotesAt false (advance >>= fun _ => begin r.input.current >>= q) r := by
  intro s b h
  obtain ⟨used, heads, hused, hheads, hcovers⟩ := hq _ h
  obtain ⟨⟨ahead, n⟩, noted⟩ := r
  cases ahead with
  | nil => exact absurd hopener Bool.false_ne_true
  | cons t ts =>
    refine ⟨t :: used, t :: heads, congrArg (t :: ·) hused, ?_, ?_⟩
    · rw [hheads]
      exact List.append_assoc ..
    · exact .head hopener (fun _ => rfl) hcovers

end NotesAt

namespace Notes

/-- Nothing is taken and nothing noted. -/
theorem pure (a : α) : Notes false (Pure.pure a) := by
  intro r s b h
  obtain ⟨rfl, rfl⟩ := EStateM.Result.ok.inj h
  exact ⟨[], [], rfl, (List.append_nil _).symm, .nil⟩

/-- A refusal is a failure. -/
theorem refuse (expected : Expectation) : Notes taken (Parser.refuse expected : Parser α) :=
  fun _ => .error rfl

private theorem throw_bind {e : ParseError} {f : α → Parser β} : Notes taken (throw e >>= f) :=
  fun _ => .error rfl

/-- What the second parser notes comes after what the first one has noted. -/
theorem bind (hp : Notes taken p) (hf : ∀ a, Notes false (f a)) : Notes taken (p >>= f) := by
  intro r s b h
  obtain ⟨a, t, ha, hb⟩ := bind_eq_ok_iff.mp h
  obtain ⟨ts, hs, hts, hnoted, hcovers⟩ := hp r ha
  obtain ⟨us, hs', hus, hnoted', hcovers'⟩ := hf a t hb
  exact ⟨ts ++ us, hs ++ hs', by rw [hts, hus, List.append_assoc],
    by rw [hnoted', hnoted, List.append_assoc], hcovers.append hcovers'⟩

/-- Looking at the next token takes nothing. -/
theorem current_bind {f : Token → Parser β} (hf : ∀ r, NotesAt taken (f r.input.current) r) :
    Notes taken (current >>= f) :=
  hf

/-- A token that is asked for and begins no statement. -/
theorem expect_bind {expected : Expectation} {f : Token → Parser β} (hne : k ≠ .eof)
    (hk : (k.isOpener && !taken) = false) (hf : ∀ t, Notes k.takesWord (f t)) :
    Notes taken (expect k expected >>= f) := by
  intro r
  by_cases hcur : r.input.current.kind = k
  · have heq : (expect k expected >>= f) r = (advance >>= fun _ => f r.input.current) r := by
      rw [bind_apply, expect_apply, if_pos hcur]
      rfl
    exact .congr heq (.advance_bind hcur hne hk (hf _))
  · exact .error (by rw [bind_apply, expect_apply, if_neg hcur])

/-- The same for a token that may be missing. -/
theorem accept_bind {f : Bool → Parser β} (hne : k ≠ .eof) (hk : (k.isOpener && !taken) = false)
    (hyes : Notes k.takesWord (f true)) (hno : Notes taken (f false)) :
    Notes taken (accept k >>= f) := by
  intro r
  by_cases hcur : r.input.current.kind = k
  · have heq : (accept k >>= f) r = (advance >>= fun _ => f true) r := by
      rw [bind_apply, accept_apply, if_pos hcur]
      rfl
    exact .congr heq (.advance_bind hcur hne hk hyes)
  · have heq : (accept k >>= f) r = f false r := by
      rw [bind_apply, accept_apply, if_neg hcur]
    exact .congr heq (hno r)

/-- The word of a block, behind the word that takes it. -/
theorem word_bind {expected : Expectation} {f : Token → Parser β} (hk : k.isBlock = true)
    (hf : ∀ t, Notes false (f t)) : Notes true (expect k expected >>= f) := by
  have hne : k ≠ .eof := by
    rintro rfl
    contradiction
  exact expect_bind hne (Bool.and_false _) fun t => takesWord_of_isBlock hk ▸ hf t

/-- A parser that refers to itself notes what it should if each of its steps does. -/
theorem recursive {atEnd : Parser α} {step : Parser α → Parser α} (hend : Notes taken atEnd)
    (hstep : ∀ p, Notes taken p → Notes taken (step p)) :
    Notes taken (recursive atEnd step) := by
  intro r
  obtain ⟨p, hp, heq⟩ := exists_recursive_eq hend hstep r
  exact .congr heq (hp r)

/-- A `$` begins no statement. -/
theorem terminator (construct : Terminated) : Notes false (terminator construct) := by
  have h : Notes false (expect .dollar (.terminator construct) >>= fun _ => Pure.pure ()) :=
    .expect_bind (by decide) rfl fun _ => .pure ()
  exact h

end Notes

/-! ### Simple statements -/

/-- No token of an expression begins a statement. -/
private theorem expression_notes (closing : Closing) : Notes false (expression closing) := by
  intro r s e h
  obtain ⟨used, hused, hs, hder, -⟩ := expression_eq_ok_iff.mp h
  refine ⟨used, [], hused, ?_, .of_forall hder.isStructural⟩
  rw [hs, List.append_nil]

private theorem assignment_notes (closing : Closing) : Notes false (assignment closing) := by
  refine .expect_bind (by decide) rfl fun name => .expect_bind (by decide) rfl fun _ => ?_
  exact (expression_notes closing).bind fun _ => .pure _

private theorem printRest_notes : Notes false printRest := by
  rw [printRest_eq]
  refine .expect_bind (by decide) rfl fun _ => (expression_notes .reject).bind fun _ => ?_
  exact (Notes.terminator .print).bind fun _ => .pure _

private theorem moreNames_notes : Notes false moreNames := by
  refine .recursive (.pure _) fun more hmore => .accept_bind (by decide) rfl ?_ (.pure _)
  exact .expect_bind (by decide) rfl fun _ => hmore.bind fun _ => .pure _

private theorem scanRest_notes : Notes false scanRest := by
  refine .expect_bind (by decide) rfl fun _ => .expect_bind (by decide) rfl fun name => ?_
  exact moreNames_notes.bind fun _ => (Notes.terminator .scan).bind fun _ => .pure _

/-! ### Blocks and compound statements -/

section Compound

variable {inner : Parser Stmt} (hinner : Notes false inner)

include hinner

/-- The statements of a block note what begins in them, up to the `END`. -/
private theorem statements_notes : Notes false (statements inner) := by
  refine .recursive (.pure _) fun more hmore => .current_bind fun r => ?_
  have hcons : Notes false (do let s ← inner; return s :: (← more)) :=
    hinner.bind fun _ => hmore.bind fun _ => .pure _
  split
  · exact Notes.pure _ r
  · exact Notes.pure _ r
  · exact hcons r

/-- The word behind the `END` belongs to the block and begins nothing. -/
private theorem blockRest_notes (hk : k.isBlock = true) (openedAt : Nat) :
    Notes false (blockRest inner k openedAt) := by
  refine (statements_notes hinner).bind fun body => .current_bind fun r => ?_
  split
  · exact Notes.throw_bind r
  · have hend : Notes false (do
        let _ ← expect .kwEnd (.blockEnd k)
        let _ ← expect k (.after k .kwEnd)
        return body) :=
      .expect_bind (by decide) rfl fun _ => .word_bind hk fun _ => .pure _
    exact hend r

/-- A block, also behind an `ELSE`. -/
theorem block_notes (hk : k.isBlock = true) (place : BlockPlace) :
    Notes taken (block inner k place) :=
  .expect_bind (by decide) rfl fun _ => .word_bind hk fun _ => blockRest_notes hinner hk _

/-- The `IF` of an alternative belongs to its `ELSE`, so it is not noted. -/
private theorem alternatives_notes : Notes false (alternatives inner) := by
  refine .recursive (.pure _) fun more hmore => .accept_bind (by decide) rfl ?_ (.pure _)
  -- The `IF` behind an `ELSE` is taken like any other token: no keyword is noted for it.
  refine .accept_bind (by decide) rfl ?_ ((block_notes hinner rfl _).bind fun _ => .pure _)
  refine (expression_notes .reject).bind fun _ => (block_notes hinner rfl _).bind fun _ => ?_
  exact hmore.bind fun _ => .pure _

/-- What a conditional notes is what its blocks note, once its own keyword is noted. -/
private theorem ifRest_notes : Notes false (ifRest inner) := by
  refine (expression_notes .reject).bind fun _ => (block_notes hinner rfl _).bind fun _ => ?_
  exact (alternatives_notes hinner).bind fun _ => .pure _

private theorem repeatRest_notes : Notes false (repeatRest inner) := by
  refine .expect_bind (by decide) rfl fun _ => (expression_notes .reject).bind fun _ => ?_
  exact (block_notes hinner rfl _).bind fun _ => .pure _

private theorem forRest_notes : Notes false (forRest inner) := by
  refine .expect_bind (by decide) rfl fun _ => (assignment_notes .reject).bind fun _ => ?_
  refine .expect_bind (by decide) rfl fun _ => (expression_notes .reject).bind fun _ => ?_
  refine .expect_bind (by decide) rfl fun _ => (assignment_notes .yield).bind fun _ => ?_
  exact .expect_bind (by decide) rfl fun _ => (block_notes hinner rfl _).bind fun _ => .pure _

/-- A parser of statements notes their keywords if the one for the statements inside does. -/
theorem statementWith_notes : Notes false (statementWith inner) := by
  refine .current_bind fun r => ?_
  have word {k : Kind} (hk : r.input.current.kind = k) (hopener : k.isOpener = true)
      {q : Unit → Parser Stmt} (hq : Notes false (q ())) :
      NotesAt false (advance >>= fun _ => begin r.input.current >>= q) r :=
    .begin_bind (hk ▸ hopener) hq
  split
  · next hk => exact .advance_bind hk (by decide) rfl printRest_notes
  · next hk => exact .advance_bind hk (by decide) rfl scanRest_notes
  · next hk => exact word hk rfl (ifRest_notes hinner)
  · next hk => exact word hk rfl (repeatRest_notes hinner)
  · next hk => exact word hk rfl (forRest_notes hinner)
  · have hassignment : Notes false (do
        let a ← assignment .reject
        terminator .assignment
        return Stmt.assignment a) :=
      (assignment_notes .reject).bind fun _ => (Notes.terminator .assignment).bind fun _ => .pure _
    exact hassignment r

end Compound

/-- A statement notes its keyword and what the statements inside it note. -/
private theorem statement_notes : Notes false statement :=
  .recursive (.refuse _) fun _ => statementWith_notes

/-! ### Declarations and programs -/

private theorem entry_notes (typeName : Token) : Notes false (entry typeName) := by
  refine .expect_bind (by decide) rfl fun name => .accept_bind (by decide) rfl ?_ (.pure _)
  exact (expression_notes .reject).bind fun _ => .pure _

/-- No token of a declaration begins a statement. -/
private theorem moreEntries_notes (typeName : Token) : Notes false (moreEntries typeName) := by
  refine .recursive (.pure _) fun more hmore => .accept_bind (by decide) rfl ?_ (.pure _)
  exact (entry_notes typeName).bind fun _ => hmore.bind fun _ => .pure _

private theorem declarationRest_notes (typeName : Token) :
    Notes false (declarationRest typeName) := by
  refine (entry_notes typeName).bind fun _ => (moreEntries_notes typeName).bind fun _ => ?_
  exact (Notes.terminator .declaration).bind fun _ => .pure _

/-- Declarations begin no statement. -/
private theorem declarations_notes : Notes false declarations := by
  rw [declarations_eq_recursive]
  refine .recursive (.pure _) fun more hmore => .current_bind fun r => ?_
  split
  · next htype =>
    have hplain : r.input.current.kind ≠ .eof ∧ r.input.current.kind.takesWord = false ∧
        r.input.current.kind.isOpener = false := by
      revert htype
      generalize r.input.current.kind = k
      cases k <;> decide
    obtain ⟨hne, htakes, hopener⟩ := hplain
    refine .advance_bind rfl hne (by rw [hopener, Bool.false_and]) (htakes ▸ ?_)
    exact (declarationRest_notes _).bind fun _ => hmore.bind fun _ => .pure _
  · exact Notes.pure _ r

/-- **A program notes the openings** in its tokens. -/
private theorem program_notes : Notes false program := by
  refine .expect_bind (by decide) rfl fun _ => .expect_bind (by decide) rfl fun _ => ?_
  refine .expect_bind (by decide) rfl fun _ => .expect_bind (by decide) rfl fun _ => ?_
  refine declarations_notes.bind fun _ => (blockRest_notes statement_notes rfl _).bind fun _ => ?_
  refine .current_bind fun r => ?_
  split
  · exact Notes.pure _ r
  · exact Notes.refuse _ r

end ScriptTree.Parser

namespace ScriptTree

/-- **The keywords noted.** If a program is read from the tokens of a list, the compound statements
of its tree in pre-order begin at the openings in the tokens before the first end mark, one by one,
and the tokens of these openings are the keywords that were noted. -/
theorem heads_of_parse {ts : List Token} {p : Program}
    (h : (Input.ofTokens ts).parse.result = .ok p) :
    (Input.ofTokens ts).parse.heads
        = (openings false (ts.takeWhile (·.kind != .eof))).map Prod.fst ∧
      List.Forall₂ Stmt.BeginsAt (compoundsIn (Node.program p).preorder)
        (openings false (ts.takeWhile (·.kind != .eof))) := by
  have hder := (Input.parse_eq_ok_iff_derives ts p).mp h
  rw [← Input.ahead_ofTokens] at hder ⊢
  unfold Input.parse at h ⊢
  split at h
  · next q r hok =>
    have hend : ∀ t ∈ (Input.ofTokens ts).ahead, t.kind ≠ .eof :=
      fun _ => Input.kind_ne_eof_of_mem_ahead
    obtain ⟨used, heads, hused, hheads, hcovers⟩ := Parser.program_notes _ hok
    rw [Parser.ahead_of_program hend hok, List.append_nil] at hused
    rw [List.nil_append] at hheads
    subst hused
    refine ⟨?_, hder.covers.forall₂⟩
    rw [hheads, ← List.forall₂_eq_eq_eq]
    exact List.forall₂_map_right_iff.mpr hcovers.forall₂
  · contradiction

end ScriptTree
