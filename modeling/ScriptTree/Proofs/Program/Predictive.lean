import ScriptTree.Proofs.Expression.Failure
import ScriptTree.Proofs.Program.Completeness
import ScriptTree.Proofs.Program.Unfolding

/-!
# Parsers that look one token ahead

What a parser has done so far was decided by the tokens that it took and the one after them. This
is put as a property of one reading (`Parser.PredictsAt`): a success is repeated wherever the tokens
taken and the next one come again, and a failure is a `Fault`, so that the parser fails wherever the
tokens up to the wrong one come again. With it goes that the tokens before the wrong one begin a
phrase of the grammar.

`Predictive n p G` says this of all readings with fewer than `n` tokens ahead. The rules of the
first part follow the ways in which parsers are put together. A parser that refers to itself is
predictive as its equation shows, by induction on the number of tokens ahead (`Predictive.of_eq`).

The main result is `program_predictive`.
-/

namespace ScriptTree.Parser

variable {α β : Type} {n : Nat}

/-! ### Predictions -/

/-- The parser fails wherever these tokens come next. -/
def Rejects (p : Parser α) (us : List Token) : Prop :=
  ∀ ⦃r s : Reading⦄ ⦃a : α⦄, us <+: r.input.ahead → p r ≠ .ok a s

/-- What the parser does on this reading tells what it does where the same tokens come next. -/
structure PredictsAt (p : Parser α) (G : List Token → α → Prop) (r : Reading) : Prop where
  ok : ∀ ⦃a : α⦄ ⦃s : Reading⦄, p r = .ok a s →
    ∃ used, r.input.ahead = used ++ s.input.ahead ∧ G used a ∧
      ∀ t ts m, t ∈ s.input.ahead.head? → Reads p ⟨used ++ t :: ts, m⟩ a ⟨t :: ts, m⟩
  error : ∀ ⦃e : ParseError⦄ ⦃s : Reading⦄, p r = .error e s →
    Fault (Begins G) (Rejects p) r.input.ahead e s.input.ahead

/-- The parser predicts wherever fewer than `n` tokens are ahead, and there are phrases of its
grammar. -/
structure Predictive (n : Nat) (p : Parser α) (G : List Token → α → Prop) : Prop where
  begins : Begins G []
  predicts : ∀ r : Reading, r.input.ahead.length < n → PredictsAt p G r

namespace Rejects

variable {p : Parser α} {f : α → Parser β} {us : List Token}

/-- What the first parser rejects is rejected. -/
theorem bind_left (h : Rejects p us) : Rejects (p >>= f) us := by
  intro r s b hpre hok
  obtain ⟨a, s', ha, -⟩ := bind_eq_ok_iff.mp hok
  exact h hpre ha

/-- What is rejected stays rejected with more tokens after it. -/
theorem append (h : Rejects p us) (vs : List Token) : Rejects p (us ++ vs) :=
  fun _ _ _ hpre => h ((List.prefix_append us vs).trans hpre)

/-- What the second parser rejects is rejected after what the first one reads. -/
theorem bind_right {a : α} (used : List Token)
    (hread : ∀ ts m, Reads p ⟨used ++ (us ++ ts), m⟩ a ⟨us ++ ts, m⟩) (h : Rejects (f a) us) :
    Rejects (p >>= f) (used ++ us) := by
  rintro ⟨⟨_, m⟩, heads⟩ s b ⟨ts, rfl⟩ hok
  obtain ⟨heads', ha⟩ := hread ts m heads
  rw [List.append_assoc, bind_apply, ha] at hok
  exact h (List.prefix_append us ts) hok

/-- What is rejected once the next token is known is rejected where this token comes next. -/
theorem current_bind {f : Token → Parser β} {t : Token} (h : Rejects (f t) (t :: us)) :
    Rejects (current >>= f) (t :: us) := by
  rintro ⟨⟨_, m⟩, heads⟩ s b ⟨ts, rfl⟩ hok
  exact h (List.prefix_append (t :: us) ts) hok

end Rejects

/-- What comes next is what an error describes. -/
private theorem describe_current (r : Reading) : r.input.current.describe = foundAt r.input.ahead :=
  describe_headD rfl _

namespace PredictsAt

variable {p : Parser α} {f : α → Parser β} {G : List Token → α → Prop} {H : List Token → β → Prop}
  {r : Reading}

/-- A result that needs no token is there whatever comes next. -/
theorem pure {a : α} (h : G [] a) : PredictsAt (Pure.pure a) G r where
  ok := by
    intro b s hb
    obtain ⟨rfl, rfl⟩ := EStateM.Result.ok.inj hb
    exact ⟨[], rfl, h, fun t ts m _ => .pure _ _⟩
  error := by
    intro e s he
    contradiction

/-- A parser that fails at the first token, whatever is ahead of it. -/
theorem of_error {e : ParseError} (hbegins : Begins G []) (hp : p r = .error e r)
    (hfound : e.found = foundAt r.input.ahead)
    (hreject : ∀ t ∈ r.input.ahead.head?, Rejects p [t]) : PredictsAt p G r where
  ok := by
    intro a s ha
    rw [hp] at ha
    contradiction
  error := by
    intro e' s he
    rw [hp] at he
    obtain ⟨rfl, rfl⟩ := EStateM.Result.error.inj he
    exact .here hbegins hreject hfound (.inl rfl)

/-- A refusal is a fault at the next token. -/
theorem refuse (hbegins : Begins G []) (expected : Expectation) :
    PredictsAt (Parser.refuse expected) G r :=
  .of_error hbegins (refuse_apply expected r) (describe_current r) fun _ _ _ _ _ _ h => by
    contradiction

/-- What comes second is predicted by the tokens of both. -/
theorem bind (hp : PredictsAt p G r)
    (hbegins : ∀ used a, G used a → Begins (fun us b => H (used ++ us) b) [])
    (hf : ∀ used a s, r.input.ahead = used ++ s.input.ahead → G used a →
      PredictsAt (f a) (fun us b => H (used ++ us) b) s) : PredictsAt (p >>= f) H r where
  ok := by
    intro b s' h
    obtain ⟨a, s, ha, hb⟩ := bind_eq_ok_iff.mp h
    obtain ⟨used, hahead, hG, hread⟩ := hp.ok ha
    obtain ⟨used', hahead', hH, hread'⟩ := (hf used a s hahead hG).ok hb
    refine ⟨used ++ used', by rw [hahead, hahead', List.append_assoc], hH, fun t ts m ht => ?_⟩
    rw [List.append_assoc]
    refine Reads.bind ?_ (hread' t ts m ht)
    -- The token after the first part begins the second part, or comes after both.
    cases used' with
    | nil => exact hread t ts m (by simpa [hahead'] using ht)
    | cons u us => exact hread u _ m (by simp [hahead'])
  error := by
    intro e s' h
    rw [bind_apply] at h
    cases hres : p r with
    | error e' s =>
      rw [hres] at h
      obtain ⟨rfl, rfl⟩ := EStateM.Result.error.inj h
      refine (hp.error hres).mono (fun us ⟨vs, a, hG⟩ => ?_) fun us t _ hreject => hreject.bind_left
      obtain ⟨ws, b, hH⟩ := hbegins _ a hG
      exact ⟨vs ++ ws, b, by simpa using hH⟩
    | ok a s =>
      rw [hres] at h
      obtain ⟨used, hahead, hG, hread⟩ := hp.ok hres
      rw [hahead]
      refine ((hf used a s hahead hG).error h).append used (fun us ⟨vs, b, hH⟩ => ?_)
        fun us t hus hreject => hreject.bind_right used fun ts m => ?_
      · exact ⟨vs, b, by simpa using hH⟩
      · -- The first part is read in the same way, as the token after it is the same.
        obtain ⟨u, vs, hvs⟩ : ∃ u vs, us ++ [t] = u :: vs := by cases us <;> simp
        obtain ⟨zs, hzs⟩ := hus
        rw [hvs]
        exact hread u (vs ++ ts) m (by simp [← hzs, hvs])

/-- A parser that depends on the next token is the one for this token. -/
theorem current_bind {f : Token → Parser β} (h : PredictsAt (f r.input.current) H r) :
    PredictsAt (current >>= f) H r := by
  have hsame (us : List Token) (t : Token) {i : Input} (hpre : us ++ [t] <+: r.input.ahead)
      (hi : us ++ [t] <+: i.ahead) : i.current = r.input.current := by
    obtain ⟨u, vs, hvs⟩ : ∃ u vs, us ++ [t] = u :: vs := by cases us <;> simp
    obtain ⟨zs, hzs⟩ := hpre
    obtain ⟨zs', hzs'⟩ := hi
    simp [Input.current, ← hzs, ← hzs', hvs]
  refine ⟨fun b s hb => ?_, fun e s he => ?_⟩
  · obtain ⟨used, hahead, hH, hread⟩ := h.ok hb
    refine ⟨used, hahead, hH, fun t ts m ht => .current_bind ?_⟩
    obtain ⟨zs, hzs⟩ := List.head?_eq_some_iff.mp ht
    have hcur : Input.current ⟨used ++ t :: ts, m⟩ = r.input.current :=
      hsame used t ⟨zs, by simp [hahead, hzs]⟩ ⟨ts, by simp⟩
    rw [hcur]
    exact hread t ts m ht
  · refine (h.error he).mono (fun _ hus => hus) fun us t hus hreject r' s' b hpre hok => ?_
    rw [bind_apply, current_apply] at hok
    dsimp only at hok
    rw [hsame us t hus hpre] at hok
    exact hreject hpre hok

end PredictsAt

/-- A token of one kind is asked for. -/
private theorem expect_predicts {k : Kind} (hk : k ≠ .eof) (expected : Expectation) (r : Reading) :
    PredictsAt (expect k expected) (fun us t => us = [t] ∧ t.kind = k) r := by
  have hbegins : Begins (fun us t => us = [t] ∧ t.kind = k) [] := ⟨[⟨k, "", 1⟩], _, rfl, rfl⟩
  by_cases hcur : r.input.current.kind = k
  · refine ⟨fun t s ht => ?_, fun e s he => ?_⟩
    · obtain ⟨used, hahead, rfl, hkind⟩ := expect_sound hk expected ht
      exact ⟨[t], hahead, ⟨rfl, hkind⟩, fun u ts m _ => .expect hkind expected _ m⟩
    · rw [expect_apply, if_pos hcur] at he
      contradiction
  · refine .of_error (e := .unexpected expected r.input.current) hbegins ?_ (describe_current r) ?_
    · rw [expect_apply, if_neg hcur]
    · intro t ht r' s a hpre hok
      obtain ⟨zs, hzs⟩ := List.head?_eq_some_iff.mp ht
      obtain ⟨zs', hzs'⟩ := hpre
      have hsame : r'.input.current = r.input.current := by
        simp [Input.current, hzs, ← hzs']
      rw [expect_apply, hsame, if_neg hcur] at hok
      contradiction

/-- A token of one kind is taken if it comes next. -/
private theorem accept_predicts {k : Kind} (hk : k ≠ .eof) (r : Reading) :
    PredictsAt (accept k)
      (fun us found => (found = true ∧ ∃ t, us = [t] ∧ t.kind = k) ∨ (found = false ∧ us = []))
      r := by
  obtain ⟨⟨ahead, m⟩, heads⟩ := r
  refine ⟨fun found s hfound => ?_, fun e s he => ?_⟩
  · rw [accept_apply] at hfound
    split at hfound
    · next hcur =>
      obtain ⟨rfl, rfl⟩ := EStateM.Result.ok.inj hfound
      cases ahead with
      | nil => exact absurd hcur.symm hk
      | cons t ts =>
        exact ⟨[t], rfl, .inl ⟨rfl, t, rfl, hcur⟩, fun u us m _ => .accept hcur _ m⟩
    · next hcur =>
      obtain ⟨rfl, rfl⟩ := EStateM.Result.ok.inj hfound
      refine ⟨[], rfl, .inr ⟨rfl, rfl⟩, fun t ts m ht => .accept_false ?_⟩
      obtain ⟨zs, hzs⟩ := List.head?_eq_some_iff.mp ht
      obtain rfl : ahead = t :: zs := hzs
      exact hcur
  · rw [accept_apply] at he
    split at he <;> contradiction

/-- An expression is read by an automaton, which goes on token by token; its faults are those of
`Automaton.Reads.fault`. -/
private theorem expression_predicts (closing : Closing) (r : Reading) :
    PredictsAt (expression closing) (Expr.Derives 0) r := by
  refine ⟨fun e s he => ?_, fun err s herr => ?_⟩
  · obtain ⟨used, hahead, -, hder, hfollow⟩ := expression_eq_ok_iff.mp he
    refine ⟨used, hahead, hder, fun t ts m ht => expression_reads hder ?_⟩
    obtain ⟨zs, hzs⟩ := List.head?_eq_some_iff.mp ht
    simpa [Input.current, hzs] using hfollow
  · unfold expression at herr
    split at herr
    · contradiction
    next err' rest hrun =>
    obtain ⟨rfl, rfl⟩ := EStateM.Result.error.inj herr
    refine ((Automaton.Reads.expecting .start).fault rfl hrun).mono (fun us hus => hus) ?_
    rintro us t - hreject r' s' e ⟨zs, hzs⟩ hok
    unfold expression at hok
    split at hok
    · next e' rest' hrun' =>
      refine hreject r'.input.last zs e' ?_
      rw [hzs]
      exact congrArg Prod.fst hrun'
    · contradiction

/-! ### Bounded readings -/

namespace Predictive

variable {p : Parser α} {f : α → Parser β} {G : List Token → α → Prop} {H : List Token → β → Prop}

/-- Fewer tokens ahead are a special case. -/
theorem mono {m : Nat} (hmn : m ≤ n) (h : Predictive n p G) : Predictive m p G :=
  ⟨h.begins, fun r hr => h.predicts r (Nat.lt_of_lt_of_le hr hmn)⟩

/-- The grammar may be a larger one. -/
private theorem imp {G' : List Token → α → Prop} (hp : Predictive n p G)
    (himp : ∀ ts a, G ts a → G' ts a) : Predictive n p G' where
  begins := by
    obtain ⟨vs, a, hG⟩ := hp.begins
    exact ⟨vs, a, himp _ a hG⟩
  predicts r hr := by
    have h := hp.predicts r hr
    refine ⟨fun a s ha => ?_, fun e s he => ?_⟩
    · obtain ⟨used, hahead, hG, hread⟩ := h.ok ha
      exact ⟨used, hahead, himp used a hG, hread⟩
    · exact (h.error he).mono (fun us ⟨vs, a, hG⟩ => ⟨vs, a, himp _ a hG⟩) fun _ _ _ => id

theorem pure {a : α} (h : G [] a) : Predictive n (Pure.pure a) G :=
  ⟨⟨[], a, h⟩, fun _ _ => .pure h⟩

/-- What the first parser takes is no longer ahead of the second one. -/
theorem bind (hp : Predictive n p G)
    (hf : ∀ used a, G used a → Predictive (n - used.length) (f a) fun us b => H (used ++ us) b) :
    Predictive n (p >>= f) H := by
  have hbegins (used : List Token) (a : α) (hG : G used a) := (hf used a hG).begins
  obtain ⟨us, a, hG⟩ := hp.begins
  obtain ⟨vs, b, hH⟩ := hbegins _ a hG
  refine ⟨⟨_, b, hH⟩, fun r hr => (hp.predicts r hr).bind hbegins fun used a s hahead hG => ?_⟩
  refine (hf used a hG).predicts s ?_
  simp only [hahead, List.length_append] at hr
  omega

/-- After a token that is asked for, one token less is ahead. -/
theorem expect_bind {k : Kind} {expected : Expectation} {f : Token → Parser β} (hk : k ≠ .eof)
    (hf : ∀ t, t.kind = k → Predictive (n - 1) (f t) fun us b => H (t :: us) b) :
    Predictive n (expect k expected >>= f) H := by
  have hexpect : Predictive n (expect k expected) fun us t => us = [t] ∧ t.kind = k :=
    ⟨⟨[⟨k, "", 1⟩], _, rfl, rfl⟩, fun r _ => expect_predicts hk expected r⟩
  refine hexpect.bind ?_
  rintro used t ⟨rfl, ht⟩
  exact hf t ht

/-- A `$` is asked for like any token. -/
theorem terminator_bind {construct : Terminated} {q : Unit → Parser β}
    (hq : ∀ t, t.kind = .dollar → Predictive (n - 1) (q ()) fun us b => H (t :: us) b) :
    Predictive n (terminator construct >>= q) H := by
  have hconst : terminator construct
      = Function.const Token () <$> expect .dollar (.terminator construct) := rfl
  rw [hconst, map_eq_pure_bind, bind_assoc]
  simp only [pure_bind, Function.const_apply]
  exact .expect_bind (by decide) hq

/-- A token that may be missing is one token less if it comes next. -/
theorem accept_bind {k : Kind} {f : Bool → Parser β} (hk : k ≠ .eof)
    (hyes : ∀ t, t.kind = k → Predictive (n - 1) (f true) fun us b => H (t :: us) b)
    (hno : Predictive n (f false) H) : Predictive n (accept k >>= f) H := by
  have haccept : Predictive n (accept k) fun us found =>
      (found = true ∧ ∃ t, us = [t] ∧ t.kind = k) ∨ (found = false ∧ us = []) :=
    ⟨⟨[], false, .inr ⟨rfl, rfl⟩⟩, fun r _ => accept_predicts hk r⟩
  refine haccept.bind ?_
  rintro used found (⟨rfl, t, rfl, ht⟩ | ⟨rfl, rfl⟩)
  · exact hyes t ht
  · exact hno

/-- The keywords that are noted for the log do not count. -/
theorem begin_bind {head : Token} {q : Unit → Parser β} (hq : Predictive n (q ()) H) :
    Predictive n (begin head >>= q) H := by
  refine Predictive.bind (G := fun us _ => us = []) ⟨⟨[], (), rfl⟩, fun r _ => ?_⟩ ?_
  · refine ⟨fun u s hu => ?_, fun e s he => by contradiction⟩
    obtain ⟨-, rfl⟩ := EStateM.Result.ok.inj hu
    exact ⟨[], rfl, rfl, fun t ts m _ => .begin head _⟩
  · rintro used u rfl
    exact hq

/-- What depends on the next token may be shown reading by reading. -/
theorem current_bind {f : Token → Parser β} (hbegins : Begins H [])
    (hf : ∀ r : Reading, r.input.ahead.length < n → PredictsAt (f r.input.current) H r) :
    Predictive n (current >>= f) H :=
  ⟨hbegins, fun r hr => (hf r hr).current_bind⟩

/-- A token that was looked at is the one that is taken. -/
theorem advance_bind {r : Reading} {q : Unit → Parser β} (hr : r.input.ahead.length < n)
    (hk : r.input.current.kind ≠ .eof)
    (hq : Predictive (n - 1) (q ()) fun us b => H (r.input.current :: us) b) :
    PredictsAt (advance >>= q) H r := by
  obtain ⟨⟨ahead, m⟩, heads⟩ := r
  cases ahead with
  | nil => exact absurd rfl hk
  | cons t ts =>
    refine PredictsAt.bind (G := fun us _ => us = [t]) ⟨fun u s hu => ?_, fun e s he => ?_⟩ ?_ ?_
    · obtain ⟨-, rfl⟩ := EStateM.Result.ok.inj hu
      exact ⟨[t], rfl, rfl, fun u us m _ => .advance t _ m⟩
    · contradiction
    · rintro used u rfl
      exact hq.begins
    · rintro used u s hs rfl
      refine hq.predicts s ?_
      have hts : ts = s.input.ahead := (List.cons.inj hs).2
      rw [← hts]
      exact Nat.lt_sub_of_add_lt hr

/-- A parser that refers to itself is predictive if it is so where one more token is ahead. -/
theorem of_succ (hbegins : Begins G []) (n : Nat)
    (hstep : ∀ m < n, Predictive m p G → Predictive (m + 1) p G) : Predictive n p G := by
  induction n with
  | zero => exact ⟨hbegins, fun r hr => absurd hr (Nat.not_lt_zero _)⟩
  | succ n ih => exact hstep n (Nat.lt_succ_self n) (ih fun m hm => hstep m (Nat.lt_succ_of_lt hm))

end Predictive

/-- An expression is predictive wherever it is read. -/
private theorem expression_predictive (n : Nat) (closing : Closing) :
    Predictive n (expression closing) (Expr.Derives 0) :=
  ⟨Automaton.Reads.begins (.expecting .start), fun r _ => expression_predicts closing r⟩

/-! ### Simple statements -/

private theorem assignment_predictive (n : Nat) (closing : Closing) :
    Predictive n (assignment closing) Assignment.Derives := by
  refine .expect_bind (by decide) fun name hname => .expect_bind (by decide) fun sign hsign => ?_
  refine (expression_predictive _ closing).bind fun ts value hvalue => .pure ?_
  rw [List.append_nil]
  exact .intro hname hsign hvalue

private theorem printRest_predictive (n : Nat) : Predictive n printRest (RestDerives .kwPrint) := by
  rw [printRest_eq]
  refine .expect_bind (by decide) fun colon hcolon => ?_
  refine (expression_predictive _ .reject).bind fun ts e he => ?_
  refine .terminator_bind fun dollar hdollar => ?_
  exact .pure fun head hhead => .print hhead hcolon he hdollar

/-- The names that are still to come are described by what a name before them makes of them. -/
private theorem moreNames_predictive (n : Nat) : Predictive n moreNames fun ts names =>
    ∀ name : Token, name.kind = .identifier → NamesDerive (name :: ts) (name :: names) := by
  refine .of_succ ⟨[], [], fun name hname => .last hname⟩ n fun m _ hmore => ?_
  rw [moreNames_eq]
  refine .accept_bind (by decide) (fun comma hcomma => ?_) (.pure fun name hname => .last hname)
  refine .expect_bind (by decide) fun next hnext => ?_
  refine (hmore.mono (Nat.sub_le _ _)).bind fun ts names hnames => .pure ?_
  intro name hname
  rw [List.append_nil]
  exact .more hname hcomma (hnames next hnext)

private theorem scanRest_predictive (n : Nat) : Predictive n scanRest (RestDerives .kwScan) := by
  refine .expect_bind (by decide) fun colon hcolon => .expect_bind (by decide) fun name hname => ?_
  refine (moreNames_predictive _).bind fun ts names hnames => ?_
  refine .terminator_bind fun dollar hdollar => ?_
  exact .pure fun head hhead => .scan hhead hcolon (hnames name hname) hdollar

/-! ### Blocks and compound statements -/

section Compound

variable {inner : Parser Stmt} (hsound : Sound inner Stmt.Derives)
  (hinner : Predictive n inner Stmt.Derives)

include hsound hinner

/-- A word that begins no statement ends the statements, so the next token decides whether they go
on. -/
private theorem statements_predictive : Predictive n (statements inner) StmtsDerive := by
  refine .of_succ ⟨[], [], .nil⟩ n fun m hm hmore => ?_
  have hcons : Predictive (m + 1) (do let s ← inner; return s :: (← statements inner))
      StmtsDerive := by
    refine (hinner.mono hm).bind fun ts s hs => ?_
    have hne := List.length_pos_iff.mpr (ne_nil_of_statement hs)
    refine (hmore.mono (by omega)).bind fun us ss hss => .pure ?_
    rw [List.append_nil]
    exact .cons hs hss
  rw [statements_eq hsound]
  refine .current_bind ⟨[], [], .nil⟩ fun r hr => ?_
  split
  · exact .pure .nil
  · exact .pure .nil
  · exact hcons.predicts r hr

/-- The input may end inside a block. -/
theorem blockRest_predictive {k : Kind} (hk : k ≠ .eof) (openedAt : Nat) :
    Predictive n (blockRest inner k openedAt) fun ts body =>
      ∃ us ending closing, ts = us ++ [ending, closing] ∧ StmtsDerive us body ∧
        ending.kind = .kwEnd ∧ closing.kind = k := by
  refine (statements_predictive hsound hinner).bind fun ts body hbody => ?_
  have hmarks : Predictive (n - ts.length)
      (do let _ ← expect .kwEnd (.blockEnd k); let _ ← expect k (.after k .kwEnd); return body)
      fun us body => ∃ vs ending closing, ts ++ us = vs ++ [ending, closing] ∧
        StmtsDerive vs body ∧ ending.kind = .kwEnd ∧ closing.kind = k := by
    refine .expect_bind (by decide) fun ending hending => .expect_bind hk fun closing hclosing => ?_
    exact .pure ⟨ts, ending, closing, rfl, hbody, hending, hclosing⟩
  refine .current_bind hmarks.begins fun r hr => ?_
  split
  · next heof =>
    refine .of_error hmarks.begins rfl ?_ ?_
    · rw [← describe_current, Token.describe_of_eof heof]
      rfl
    · intro t ht r' s b hpre hok
      contradiction
  · exact hmarks.predicts r hr

/-- A block is its frame with statements inside. -/
private theorem block_predictive {k : Kind} (hk : k ≠ .eof) (place : BlockPlace) :
    Predictive n (block inner k place) fun ts body =>
      ∃ us, StmtsDerive us body ∧ BlockFrame k us ts := by
  refine .expect_bind (by decide) fun start hstart => .expect_bind hk fun opening hopening => ?_
  have hbelow : n - 1 - 1 ≤ n := by omega
  refine (blockRest_predictive hsound (hinner.mono hbelow) hk _).imp ?_
  rintro ts body ⟨us, ending, closing, rfl, hbody, hending, hclosing⟩
  exact ⟨us, hbody, .intro hstart hopening hending hclosing⟩

/-- An `ELSE` decides whether there is an alternative, and the token after it which one. -/
private theorem alternatives_predictive : Predictive n (alternatives inner) ElseChain.Derives := by
  refine .of_succ ⟨[], _, .done⟩ n fun m hm hmore => ?_
  have hblock {l : Nat} (hl : l ≤ m) (place : BlockPlace) :=
    block_predictive hsound (hinner.mono (Nat.le_trans hl (Nat.le_of_lt hm))) (k := .kwIf)
      (by decide) place
  rw [alternatives_eq hsound]
  refine .accept_bind (by decide) (fun head hhead => ?_) (.pure .done)
  refine .accept_bind (by decide) (fun word hword => ?_) ?_
  · refine (expression_predictive _ .reject).bind fun cs cond hcond => ?_
    refine (hblock (by omega) _).bind fun bs body ⟨us, hbody, hframe⟩ => ?_
    refine (hmore.mono (by omega)).bind fun as rest hrest => .pure ?_
    simpa using ElseChain.Derives.elseIf hhead hword hcond hbody hframe hrest
  · refine (hblock (by omega) _).bind fun bs body ⟨us, hbody, hframe⟩ => .pure ?_
    simpa using ElseChain.Derives.otherwise hhead hbody hframe

private theorem ifRest_predictive : Predictive n (ifRest inner) (RestDerives .kwIf) := by
  refine (expression_predictive _ .reject).bind fun cs cond hcond => ?_
  refine (block_predictive hsound (hinner.mono (by omega)) (by decide) _).bind ?_
  rintro bs body ⟨us, hbody, hframe⟩
  refine (alternatives_predictive hsound (hinner.mono (by omega))).bind fun as rest hrest => ?_
  refine .pure fun head hhead => ?_
  simpa using Stmt.Derives.ifElse hhead hcond hbody hframe hrest

private theorem repeatRest_predictive :
    Predictive n (repeatRest inner) (RestDerives .kwRepeat) := by
  refine .expect_bind (by decide) fun word hword => ?_
  refine (expression_predictive _ .reject).bind fun cs cond hcond => ?_
  refine (block_predictive hsound (hinner.mono (by omega)) (by decide) _).bind ?_
  rintro bs body ⟨us, hbody, hframe⟩
  refine .pure fun head hhead => ?_
  simpa using Stmt.Derives.repeatWhen hhead hword hcond hbody hframe

private theorem forRest_predictive : Predictive n (forRest inner) (RestDerives .kwFor) := by
  refine .expect_bind (by decide) fun opener hopener => ?_
  refine (assignment_predictive _ .reject).bind fun is init hinit => ?_
  refine .expect_bind (by decide) fun comma hcomma => ?_
  refine (expression_predictive _ .reject).bind fun cs cond hcond => ?_
  refine .expect_bind (by decide) fun comma' hcomma' => ?_
  refine (assignment_predictive _ .yield).bind fun us update hupdate => ?_
  refine .expect_bind (by decide) fun closer hcloser => ?_
  refine (block_predictive hsound (hinner.mono (by omega)) (by decide) _).bind ?_
  rintro bs body ⟨vs, hbody, hframe⟩
  refine .pure fun head hhead => ?_
  simpa using Stmt.Derives.forLoop hhead hopener hinit hcomma hcond hcomma' hupdate hcloser
    hbody hframe

/-- A statement of one word more than those inside it. -/
theorem statementWith_predictive : Predictive (n + 1) (statementWith inner) Stmt.Derives := by
  have hassign : Predictive (n + 1)
      (do let a ← assignment .reject; terminator .assignment; return .assignment a)
      Stmt.Derives := by
    refine (assignment_predictive _ .reject).bind fun ts a ha => ?_
    exact .terminator_bind fun dollar hdollar => .pure (.assignment ha hdollar)
  refine .current_bind hassign.begins fun r hr => ?_
  -- The word that tells the statement is the one that is taken.
  have word {k : Kind} {q : Unit → Parser Stmt} (hk : r.input.current.kind = k) (hne : k ≠ .eof)
      (hq : Predictive n (q ()) (RestDerives k)) : PredictsAt (advance >>= q) Stmt.Derives r :=
    Predictive.advance_bind hr (hk ▸ hne) (hq.imp fun _ _ hrest => hrest _ hk)
  split
  · next hk => exact word hk (by decide) (printRest_predictive n)
  · next hk => exact word hk (by decide) (scanRest_predictive n)
  · next hk => exact word hk (by decide) (.begin_bind (ifRest_predictive hsound hinner))
  · next hk => exact word hk (by decide) (.begin_bind (repeatRest_predictive hsound hinner))
  · next hk => exact word hk (by decide) (.begin_bind (forRest_predictive hsound hinner))
  · exact hassign.predicts r hr

end Compound

/-- A statement is predictive, by induction on the tokens ahead: those inside it are shorter. -/
private theorem statement_predictive (n : Nat) : Predictive n statement Stmt.Derives := by
  have hbegins : Begins Stmt.Derives [] := by
    obtain ⟨vs, a, ha⟩ := (assignment_predictive n .reject).begins
    exact ⟨vs ++ [⟨.dollar, "$", 1⟩], .assignment a, .assignment ha rfl⟩
  refine .of_succ hbegins n fun m _ hinner => ?_
  rw [statement_eq]
  exact statementWith_predictive statement_sound hinner

/-! ### Declarations and programs -/

private theorem entry_predictive (n : Nat) (typeName : Token) :
    Predictive n (entry typeName) (VarDecl.Derives typeName) := by
  refine .expect_bind (by decide) fun name hname => ?_
  refine .accept_bind (by decide) (fun sign hsign => ?_) (.pure (.plain hname))
  refine (expression_predictive _ .reject).bind fun ts value hvalue => .pure ?_
  simpa using VarDecl.Derives.withValue hname hsign hvalue

/-- The variables that are still to come are described by what a variable before them makes of them.
-/
private theorem moreEntries_predictive (n : Nat) (typeName : Token) :
    Predictive n (moreEntries typeName) fun ts ds =>
      ∀ us d, VarDecl.Derives typeName us d → EntriesDerive typeName (us ++ ts) (d :: ds) := by
  have stop (us : List Token) (d : VarDecl) (hd : VarDecl.Derives typeName us d) :
      EntriesDerive typeName (us ++ []) [d] := by simpa using EntriesDerive.last hd
  refine .of_succ ⟨[], [], stop⟩ n fun m _ hmore => ?_
  rw [moreEntries_eq]
  refine .accept_bind (by decide) (fun comma hcomma => ?_) (.pure stop)
  refine (entry_predictive _ typeName).bind fun vs next hnext => ?_
  refine (hmore.mono (by omega)).bind fun ts ds hds => .pure fun us d hd => ?_
  simpa using EntriesDerive.more hd hcomma (hds vs next hnext)

/-- A declaration ends with the `$` after its variables. -/
private theorem declarationRest_predictive (n : Nat) (typeName : Token) :
    Predictive n (declarationRest typeName) fun ts ds =>
      ∃ us dollar, ts = us ++ [dollar] ∧ EntriesDerive typeName us ds ∧ dollar.kind = .dollar := by
  refine (entry_predictive _ typeName).bind fun us d hd => ?_
  refine (moreEntries_predictive _ typeName).bind fun ts ds hds => ?_
  refine .terminator_bind fun dollar hdollar => .pure ?_
  exact ⟨us ++ ts, dollar, by simp, hds us d hd, hdollar⟩

private theorem declarations_predictive (n : Nat) :
    Predictive n declarations DeclarationsDerive := by
  refine .of_succ ⟨[], [], .nil⟩ n fun m _ hmore => ?_
  rw [declarations_eq]
  refine .current_bind ⟨[], [], .nil⟩ fun r hr => ?_
  split
  · next htype =>
    have hne := Kind.ne_eof_of_isTypeKeyword htype
    refine Predictive.advance_bind hr hne ((declarationRest_predictive _ _).bind ?_)
    rintro ts ds ⟨us, dollar, rfl, hds, hdollar⟩
    refine (hmore.mono (by omega)).bind fun rest more hrest => .pure ?_
    simpa using DeclarationsDerive.cons htype hds hdollar hrest
  · exact .pure .nil

/-- **Programs are predictive.** What reading does is decided by the tokens taken and the next one.
-/
theorem program_predictive (n : Nat) : Predictive n program Program.Derives := by
  refine .expect_bind (by decide) fun word hword => .expect_bind (by decide) fun area harea => ?_
  refine .expect_bind (by decide) fun start hstart => ?_
  refine .expect_bind (by decide) fun opening hopening => ?_
  refine (declarations_predictive _).bind fun ds decls hdecls => ?_
  refine (blockRest_predictive statement_sound (statement_predictive _) (by decide) _).bind ?_
  rintro ts stmts ⟨us, ending, closing, rfl, hstmts, hending, hclosing⟩
  have hframe : BlockFrame .kwScript (ds ++ us) _ :=
    .intro hstart hopening hending hclosing
  have hprogram := Program.Derives.intro hword harea hdecls hstmts hframe
  refine .current_bind ⟨[], _, by simpa using hprogram⟩ fun r _ => ?_
  split
  · exact .pure (by simpa using hprogram)
  · exact .refuse ⟨[], _, by simpa using hprogram⟩ _

end ScriptTree.Parser
