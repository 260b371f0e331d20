import ScriptTree.Proofs.Position.Walk
import ScriptTree.Proofs.Program.Unfolding

/-!
# Every parser walks

From every index of a closed list, up to its first end mark, each parser of statements, declarations
and programs has a walk (`Parser.program_walks`). So it never looks for a token that is not there,
and it comes to an end: a walk is finite, and the levels of recursion play no part in it.

`Parser.WalksFrom tokens l p` says this of the indices from `l` on. A parser that refers to itself
is unfolded by its equation, and walks from `l` on if the parsers inside it do; those that come
after a token was taken have to do so only from `l + 1` on, which is an induction from the end of
the list (`WalksFrom.of_succ`).
-/

namespace ScriptTree.Parser

variable {α β : Type} {tokens : List Token} {i j l : Nat}

/-! ### Walks and what they take -/

/-- A success on a list that the parser is sound for takes the tokens of a phrase. -/
theorem Walk.lt_of_sound {p : Parser α} {G : List Token → α → Prop} {a : α} {path : List Nat}
    (hclosed : IsClosed tokens) (h : Walk tokens p i path (.ok a) j) (hi : Within tokens i)
    (hp : Sound p G) (hne : ∀ ts, G ts a → ts ≠ []) : i < j := by
  obtain ⟨heads, hrun⟩ := h.apply_eq hclosed []
  obtain ⟨used, hused, hG⟩ := hp hrun
  have hahead : (Input.fromIndex tokens i).ahead = used ++ (Input.fromIndex tokens j).ahead := hused
  have hpos := List.length_pos_iff.mpr (hne used hG)
  have hstart := hi.add_length_ahead
  have hend := (h.within hclosed hi).add_length_ahead
  rw [hahead, List.length_append] at hstart
  omega

/-- The parser has a walk from the index. -/
def HasWalk (tokens : List Token) (p : Parser α) (i : Nat) : Prop :=
  ∃ path x j, Walk tokens p i path x j

/-- The parser has a walk from each index that can be reached, from `l` on. -/
def WalksFrom (tokens : List Token) (l : Nat) (p : Parser α) : Prop :=
  ∀ i, l ≤ i → Within tokens i → HasWalk tokens p i

namespace WalksFrom

variable {p : Parser α} {f : α → Parser β} {G : List Token → α → Prop}

/-- A walk from early indices is one from late ones. -/
theorem mono {m : Nat} (hlm : l ≤ m) (h : WalksFrom tokens l p) : WalksFrom tokens m p :=
  fun i hi => h i (Nat.le_trans hlm hi)

theorem pure (a : α) : WalksFrom tokens l (Pure.pure a) :=
  fun i _ _ => ⟨_, _, _, .pure a i⟩

/-- A parser that fails looks at the next token and stays. -/
theorem refuse {expected : Expectation} :
    WalksFrom tokens l (Parser.refuse expected : Parser α) := by
  intro i _ hi
  obtain ⟨t, ht⟩ := hi.getElem?
  exact ⟨_, _, _, .refuse ht⟩

/-- What depends on the next token has to walk from each index where this token stands. -/
theorem current_bind {f : Token → Parser β}
    (hf : ∀ i t, l ≤ i → Within tokens i → tokens[i]? = some t →
      HasWalk tokens (f t.seen) i) : WalksFrom tokens l (current >>= f) := by
  intro i hli hi
  obtain ⟨t, ht⟩ := hi.getElem?
  obtain ⟨path, x, j, h⟩ := hf i t hli hi ht
  exact ⟨_, _, _, .bind (.current ht) h⟩

/-- There is no index behind the list, so walks are found from its end on. -/
theorem of_succ (l : Nat)
    (h : ∀ m, l ≤ m → WalksFrom tokens (m + 1) p → WalksFrom tokens m p) :
    WalksFrom tokens l p := by
  have hback (n : Nat) : ∀ m, l ≤ m → tokens.length ≤ m + n → WalksFrom tokens m p := by
    induction n with
    | zero => exact fun m _ hm i hi hw => absurd hw.lt (by omega)
    | succ n ih => exact fun m hlm hm => h m hlm (ih (m + 1) (by omega) (by omega))
  exact hback tokens.length l (Nat.le_refl l) (Nat.le_add_left _ _)

section

variable (hclosed : IsClosed tokens)

include hclosed

/-- The second parser goes on where the first one has stopped. -/
theorem bind (hp : WalksFrom tokens l p) (hf : ∀ a, WalksFrom tokens l (f a)) :
    WalksFrom tokens l (p >>= f) := by
  intro i hli hi
  obtain ⟨path, x, j, h⟩ := hp i hli hi
  cases x with
  | error e => exact ⟨_, _, _, .bindError h⟩
  | ok a =>
    obtain ⟨path', x, k, h'⟩ := hf a j (Nat.le_trans hli h.bounds.1) (h.within hclosed hi)
    exact ⟨_, _, _, .bind h h'⟩

/-- After a parser that takes a token, the indices from the next one on are left. -/
theorem bind_of_ne_nil (hp : WalksFrom tokens l p) (hsound : Sound p G)
    (hne : ∀ ts a, G ts a → ts ≠ []) (hf : ∀ a, WalksFrom tokens (l + 1) (f a)) :
    WalksFrom tokens l (p >>= f) := by
  intro i hli hi
  obtain ⟨path, x, j, h⟩ := hp i hli hi
  cases x with
  | error e => exact ⟨_, _, _, .bindError h⟩
  | ok a =>
    have hlt := h.lt_of_sound hclosed hi hsound fun ts => hne ts a
    obtain ⟨path', x, k, h'⟩ := hf a j (Nat.lt_of_le_of_lt hli hlt) (h.within hclosed hi)
    exact ⟨_, _, _, .bind h h'⟩

/-- A token that was looked at is taken if it is no end mark. -/
theorem advance_bind {q : Unit → Parser β} {t : Token} (hli : l ≤ i) (hi : Within tokens i)
    (ht : tokens[i]? = some t) (hk : t.kind ≠ .eof) (hq : WalksFrom tokens (l + 1) (q ())) :
    HasWalk tokens (advance >>= q) i := by
  obtain ⟨path, x, j, h⟩ := hq (i + 1) (Nat.succ_le_succ hli) (hi.succ hclosed ht hk)
  exact ⟨_, _, _, .bind (.advance_of_ne ht hk) h⟩

theorem begin_bind {head : Token} {q : Unit → Parser β} (hq : WalksFrom tokens l (q ())) :
    WalksFrom tokens l (begin head >>= q) :=
  bind hclosed (fun i _ _ => ⟨_, _, _, .begin head i⟩) fun _ => hq

/-- A token that is asked for is taken, or the walk ends there with an error. -/
theorem expect {k : Kind} {expected : Expectation} (hk : k ≠ .eof) :
    WalksFrom tokens l (expect k expected) := by
  refine current_bind fun i t hli hi ht => ?_
  split
  · next hkind =>
    exact advance_bind hclosed hli hi ht (by simpa [← hkind] using hk) (.pure _)
  · exact refuse i hli hi

/-- After a token that was asked for, the indices from the next one on are left. -/
theorem expect_bind {k : Kind} {expected : Expectation} {f : Token → Parser β} (hk : k ≠ .eof)
    (hf : ∀ t, WalksFrom tokens (l + 1) (f t)) :
    WalksFrom tokens l (Parser.expect k expected >>= f) :=
  bind_of_ne_nil hclosed (expect hclosed hk) (expect_sound hk expected)
    (by rintro _ t ⟨rfl, -⟩; simp) hf

/-- A token that may be missing is taken if it comes next. -/
theorem accept_bind {k : Kind} {f : Bool → Parser β} (hk : k ≠ .eof)
    (hyes : WalksFrom tokens (l + 1) (f true)) (hno : WalksFrom tokens l (f false)) :
    WalksFrom tokens l (accept k >>= f) := by
  intro i hli hi
  obtain ⟨t, ht⟩ := hi.getElem?
  by_cases hkind : t.seen.kind = k
  · have hne : t.kind ≠ .eof := by simpa [← hkind] using hk
    have haccept : Walk tokens (accept k) i ([i] ++ ([i] ++ [])) (.ok true) (i + 1) := by
      refine .bind (.current ht) ?_
      rw [if_pos hkind]
      exact .bind (.advance_of_ne ht hne) (.pure true (i + 1))
    obtain ⟨path, x, j, h⟩ := hyes (i + 1) (Nat.succ_le_succ hli) (hi.succ hclosed ht hne)
    exact ⟨_, _, _, .bind haccept h⟩
  · have haccept : Walk tokens (accept k) i ([i] ++ []) (.ok false) i := by
      refine .bind (.current ht) ?_
      rw [if_neg hkind]
      exact .pure false i
    obtain ⟨path, x, j, h⟩ := hno i hli hi
    exact ⟨_, _, _, .bind haccept h⟩

/-- A `$` is asked for like any token. -/
theorem terminator (construct : Terminated) :
    WalksFrom tokens l (Parser.terminator construct) := by
  have hconst : Parser.terminator construct
      = Function.const Token () <$> Parser.expect .dollar (.terminator construct) := rfl
  rw [hconst, map_eq_pure_bind]
  exact bind hclosed (expect hclosed (by decide)) fun _ => .pure _

end

end WalksFrom

/-! ### Simple statements -/

section

variable (hclosed : IsClosed tokens)

include hclosed

private theorem identifier_walks (l : Nat) (place : NamePlace) :
    WalksFrom tokens l (identifier place) :=
  .expect hclosed (by decide)

/-- An expression walks as its automaton does. -/
private theorem expression_walks (l : Nat) (closing : Closing) :
    WalksFrom tokens l (expression closing) := by
  intro i _ hi
  obtain ⟨path, x, j, h⟩ := Automaton.exists_walk closing hclosed hi .start
  exact ⟨_, _, _, .expression h⟩

private theorem assignment_walks (l : Nat) (closing : Closing) :
    WalksFrom tokens l (assignment closing) := by
  refine .expect_bind hclosed (by decide) fun name => ?_
  refine .expect_bind hclosed (by decide) fun sign => ?_
  exact .bind hclosed (expression_walks hclosed _ _) fun value => .pure _

private theorem printRest_walks (l : Nat) : WalksFrom tokens l printRest := by
  rw [printRest_eq]
  refine .expect_bind hclosed (by decide) fun colon => ?_
  refine .bind hclosed (expression_walks hclosed _ _) fun value => ?_
  exact .bind hclosed (.terminator hclosed _) fun _ => .pure _

/-- Each round of the loop takes a comma and a name, so there are fewer indices left. -/
private theorem moreNames_walks (l : Nat) : WalksFrom tokens l moreNames := by
  refine .of_succ l fun m _ hmore => ?_
  rw [moreNames_eq]
  refine .accept_bind hclosed (by decide) ?_ (.pure _)
  exact .bind hclosed (identifier_walks hclosed _ _) fun name =>
    .bind hclosed hmore fun names => .pure _

private theorem scanRest_walks (l : Nat) : WalksFrom tokens l scanRest := by
  refine .expect_bind hclosed (by decide) fun colon => ?_
  refine .bind hclosed (identifier_walks hclosed _ _) fun name => ?_
  refine .bind hclosed (moreNames_walks hclosed _) fun names => ?_
  exact .bind hclosed (.terminator hclosed _) fun _ => .pure _

/-! ### Blocks and compound statements -/

section Compound

variable {inner : Parser Stmt} (hsound : Sound inner Stmt.Derives)
  (hinner : WalksFrom tokens l inner)

include hsound hinner

/-- Each statement takes a token, so there are fewer indices left for the others. -/
private theorem statements_walks : WalksFrom tokens l (statements inner) := by
  refine .of_succ l fun m hlm hmore => ?_
  have hcons : WalksFrom tokens m (do let s ← inner; return s :: (← statements inner)) :=
    .bind_of_ne_nil hclosed (hinner.mono hlm) hsound (fun _ _ => ne_nil_of_statement) fun s =>
      .bind hclosed hmore fun ss => .pure _
  rw [statements_eq hsound]
  refine .current_bind fun i t hmi hi ht => ?_
  split
  · exact WalksFrom.pure _ i hmi hi
  · exact WalksFrom.pure _ i hmi hi
  · exact hcons i hmi hi

/-- The input may end inside a block. -/
theorem blockRest_walks {k : Kind} (hk : k ≠ .eof) (openedAt : Nat) :
    WalksFrom tokens l (blockRest inner k openedAt) := by
  refine .bind hclosed (statements_walks hclosed hsound hinner) fun body => ?_
  refine .current_bind fun i t hli hi ht => ?_
  split
  · next heof =>
    rw [Token.seen_line]
    exact ⟨_, _, _, .bindError (.unterminated ht (by simpa using heof))⟩
  · refine WalksFrom.expect_bind hclosed (by decide) (fun ending => ?_) i hli hi
    exact .expect_bind hclosed hk fun closing => .pure _

/-- The statements of a block come after two tokens. -/
private theorem block_walks {k : Kind} (hk : k ≠ .eof) (place : BlockPlace) :
    WalksFrom tokens l (block inner k place) := by
  refine .expect_bind hclosed (by decide) fun opener => ?_
  refine .expect_bind hclosed hk fun word => ?_
  exact blockRest_walks hclosed hsound (hinner.mono (by omega)) hk _

/-- Each alternative takes an `ELSE` and more, so there are fewer indices left. -/
private theorem alternatives_walks : WalksFrom tokens l (alternatives inner) := by
  refine .of_succ l fun m hlm hmore => ?_
  have hblock (place : BlockPlace) : WalksFrom tokens (m + 1) (block inner .kwIf place) :=
    block_walks hclosed hsound (hinner.mono (by omega)) (by decide) place
  rw [alternatives_eq hsound]
  refine .accept_bind hclosed (by decide) ?_ (.pure _)
  refine .accept_bind hclosed (by decide) ?_ (.bind hclosed (hblock _) fun body => .pure _)
  refine .bind hclosed (expression_walks hclosed _ _) fun cond => ?_
  refine .bind hclosed ((hblock _).mono (by omega)) fun body => ?_
  exact .bind hclosed (hmore.mono (by omega)) fun rest => .pure _

/-- The parts of a conditional are walked one after another. -/
private theorem ifRest_walks : WalksFrom tokens l (ifRest inner) := by
  refine .bind hclosed (expression_walks hclosed _ _) fun cond => ?_
  refine .bind hclosed (block_walks hclosed hsound hinner (by decide) _) fun body => ?_
  exact .bind hclosed (alternatives_walks hclosed hsound hinner) fun rest => .pure _

private theorem repeatRest_walks : WalksFrom tokens l (repeatRest inner) := by
  refine .bind hclosed (.expect hclosed (by decide)) fun word => ?_
  refine .bind hclosed (expression_walks hclosed _ _) fun cond => ?_
  exact .bind hclosed (block_walks hclosed hsound hinner (by decide) _) fun body => .pure _

/-- The header of a loop is walked part by part, and then its block. -/
private theorem forRest_walks : WalksFrom tokens l (forRest inner) := by
  refine .bind hclosed (.expect hclosed (by decide)) fun opener => ?_
  refine .bind hclosed (assignment_walks hclosed _ _) fun init => ?_
  refine .bind hclosed (.expect hclosed (by decide)) fun comma => ?_
  refine .bind hclosed (expression_walks hclosed _ _) fun cond => ?_
  refine .bind hclosed (.expect hclosed (by decide)) fun comma => ?_
  refine .bind hclosed (assignment_walks hclosed _ _) fun update => ?_
  refine .bind hclosed (.expect hclosed (by decide)) fun closer => ?_
  exact .bind hclosed (block_walks hclosed hsound hinner (by decide) _) fun body => .pure _

end Compound

/-- A statement takes a token before it comes to the statements inside. -/
theorem statement_walks (l : Nat) : WalksFrom tokens l statement := by
  refine .of_succ l fun m _ hinner => ?_
  rw [statement_eq]
  have hsound := statement_sound
  refine .current_bind fun i t hmi hi ht => ?_
  have word {k : Kind} (hkind : t.seen.kind = k) (hk : k ≠ .eof) {rest : Unit → Parser Stmt}
      (hrest : WalksFrom tokens (m + 1) (rest ())) :
      HasWalk tokens (advance >>= rest) i :=
    WalksFrom.advance_bind hclosed hmi hi ht (by simpa [← hkind] using hk) hrest
  split
  · next hk => exact word hk (by decide) (printRest_walks hclosed _)
  · next hk => exact word hk (by decide) (scanRest_walks hclosed _)
  · next hk => exact word hk (by decide) (.begin_bind hclosed (ifRest_walks hclosed hsound hinner))
  · next hk =>
    exact word hk (by decide) (.begin_bind hclosed (repeatRest_walks hclosed hsound hinner))
  · next hk => exact word hk (by decide) (.begin_bind hclosed (forRest_walks hclosed hsound hinner))
  · refine WalksFrom.bind hclosed (assignment_walks hclosed m _) (fun a => ?_) i hmi hi
    exact .bind hclosed (.terminator hclosed _) fun _ => .pure _

/-! ### Declarations and programs -/

private theorem entry_walks (l : Nat) (typeName : Token) : WalksFrom tokens l (entry typeName) := by
  refine .bind hclosed (identifier_walks hclosed _ _) fun name => ?_
  refine .accept_bind hclosed (by decide) ?_ (.pure _)
  exact .bind hclosed (expression_walks hclosed _ _) fun value => .pure _

/-- Each variable comes after a comma, so there are fewer indices left. -/
private theorem moreEntries_walks (l : Nat) (typeName : Token) :
    WalksFrom tokens l (moreEntries typeName) := by
  refine .of_succ l fun m _ hmore => ?_
  rw [moreEntries_eq]
  refine .accept_bind hclosed (by decide) ?_ (.pure _)
  exact .bind hclosed (entry_walks hclosed _ _) fun d => .bind hclosed hmore fun ds => .pure _

private theorem declarationRest_walks (l : Nat) (typeName : Token) :
    WalksFrom tokens l (declarationRest typeName) := by
  refine .bind hclosed (entry_walks hclosed _ _) fun d => ?_
  refine .bind hclosed (moreEntries_walks hclosed _ _) fun ds => ?_
  exact .bind hclosed (.terminator hclosed _) fun _ => .pure _

/-- A declaration takes its type keyword, so there are fewer indices left. -/
private theorem declarations_walks (l : Nat) : WalksFrom tokens l declarations := by
  refine .of_succ l fun m _ hmore => ?_
  rw [declarations_eq]
  refine .current_bind fun i t hmi hi ht => ?_
  split
  · next htype =>
    have hne : t.kind ≠ .eof := Kind.ne_eof_of_isTypeKeyword (by simpa using htype)
    refine WalksFrom.advance_bind hclosed hmi hi ht hne ?_
    refine .bind hclosed (declarationRest_walks hclosed _ _) fun ds => ?_
    exact .bind hclosed hmore fun more => .pure _
  · exact WalksFrom.pure _ i hmi hi

/-- **Every program walks.** From each index that can be reached, the reading of a program goes
along tokens of the list and comes to an end. -/
theorem program_walks (l : Nat) : WalksFrom tokens l program := by
  refine .expect_bind hclosed (by decide) fun word => ?_
  refine .expect_bind hclosed (by decide) fun area => ?_
  refine .expect_bind hclosed (by decide) fun opener => ?_
  refine .expect_bind hclosed (by decide) fun opening => ?_
  refine .bind hclosed (declarations_walks hclosed _) fun decls => ?_
  refine .bind hclosed ?_ fun stmts => .current_bind fun i t hli hi ht => ?_
  · exact blockRest_walks hclosed statement_sound (statement_walks hclosed _) (by decide) _
  · split
    · exact WalksFrom.pure _ i hli hi
    · exact WalksFrom.refuse i hli hi

end

end ScriptTree.Parser
