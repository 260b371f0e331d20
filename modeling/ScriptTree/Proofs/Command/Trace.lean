import ScriptTree.Proofs.Command.Verbosity
import ScriptTree.Proofs.Program.Heads

/-!
# The trace of a program

From verbosity 2 on, the command writes a line of trace for every compound statement that it begins
to read. If a program is read, these lines follow the compound statements of its tree in pre-order:
each names the word that its statement begins with and the line that this word is on.

The trace is written while the tree is not there yet, and the tree has no keywords in it. What
brings the two together are the openings in the tokens, where compound statements begin.

The main result is `run_trace`.
-/

namespace ScriptTree.Command

/-! ### Lines of trace -/

/-- The tag of a line of trace tells its topic. -/
private theorem Message.IsAbout.beginsWith_trace {t : Topic} {m : Message} (h : m.IsAbout t) :
    beginsWith LogLevel.trace.tag m.line = beginsWith Topic.head.opening m.line := by
  obtain ⟨⟨rest, hline⟩, -⟩ := h
  have htag : beginsWith t.opening LogLevel.trace.tag = false := by cases t <;> decide
  rw [hline, beginsWith_append htag]
  by_cases hhead : t = .head
  · subst hhead
    rw [beginsWith_self_append]
    decide
  · rw [Topic.beginsWith_opening_append (Ne.symm hhead)]
    revert hhead
    cases t <;> decide

/-- The lines of trace of an answer are those about compound statements. -/
private theorem trace_report {r : Response} (hline : ∀ m ∈ r.messages, IsLine m.line)
    (habout : ∀ m ∈ r.messages, ∃ t, m.IsAbout t) (v : Nat) :
    (textLines (r.report v).errors).filter (beginsWith LogLevel.trace.tag)
      = linesAbout .head v r.messages := by
  have hlines : ∀ l ∈ (r.messages.filter (·.shownAt v)).map Message.line, IsLine l :=
    List.forall_mem_map.mpr fun m hm => hline m (List.mem_filter.mp hm |>.1)
  have hempty : [""].filter (beginsWith LogLevel.trace.tag) = [] := by decide
  rw [Response.report, textLines_unlines hlines, List.filter_append, hempty, List.append_nil,
    linesAbout]
  refine List.filter_congr (List.forall_mem_map.mpr fun m hm => ?_)
  obtain ⟨t, ht⟩ := habout m (List.mem_filter.mp hm |>.1)
  exact ht.beginsWith_trace

/-- The lines about compound statements when a program is read. -/
private theorem linesAbout_head_of_ok {s : Scan} {p : Program} {v : Nat} (hv : 2 ≤ v)
    (h : (Input.ofTokens s.tokens).parse.result = .ok p) :
    linesAbout .head v (respondToScan false s).messages
      = (Input.ofTokens s.tokens).parse.heads.map fun head => (headMessage head).line := by
  -- The other messages are about the scan or about the whole program.
  have hdebug : 1 ≤ v := Nat.le_of_succ_le hv
  have hheads (heads : List Token) : linesAbout .head v (heads.map headMessage)
      = (heads.map headMessage).map Message.line :=
    linesAbout_of_shown (List.forall_mem_map.mpr fun head _ => isAbout_headMessage head)
      (List.forall_mem_map.mpr fun head _ => decide_eq_true hv)
  rw [respondToScan_of_ok h, linesAbout_append, linesAbout_append,
    linesAbout_scanMessages hdebug, linesAbout_programMessages hdebug, hheads, List.map_map]
  simp

/-! ### The main result -/

/-- **The trace is the pre-order of compound statements.** Run the command at verbosity 2 or more,
without asking for the tokens, on a file from which a program is read. The compound statements of
its tree in pre-order begin at the openings in the tokens of the file, one by one; the lines of
trace name the words and the lines of these openings in this order; and they are as many as a
census of the program counts conditionals and loops. -/
theorem run_trace (content : String → Option ByteArray) {o : Options} {source : String}
    {p : Program} (htokens : o.tokens = false) (hv : 2 ≤ o.verbosity)
    (hsource : content o.file = some source.toUTF8) (hp : parse source = .ok p) :
    let errors := (run o fun name => Document.ofContent (content name)).errors
    let trace := (textLines errors).filter (beginsWith LogLevel.trace.tag)
    let openers := openings false ((scan source).tokens.takeWhile (·.kind != .eof))
    let census := Census.ofNode (.program p)
    List.Forall₂ Stmt.BeginsAt (compoundsIn (Node.program p).preorder) openers ∧
      trace = openers.map (fun o => LogLevel.trace.tag ++ " " ++
        s!"{o.1.kind.name} statement at line {o.1.line}") ∧
      trace.length = census.count .ifElse + census.count .repeatWhen + census.count .forLoop := by
  intro errors trace openers census
  obtain ⟨hheads, hbegin⟩ := heads_of_parse hp
  have hrun : run o (fun name => Document.ofContent (content name))
      = (respondToScan false (scan source)).report o.verbosity := by
    rw [run_of_text hsource, htokens]
  have htrace : trace = openers.map fun o => (headMessage o.1).line := by
    have hreport := trace_report (isLine_of_mem_respondToScan false source)
      (isAbout_of_mem_respond false o.file (.text source)) o.verbosity
    rw [← hrun, linesAbout_head_of_ok hv hp, hheads, List.map_map] at hreport
    exact hreport
  refine ⟨hbegin, htrace, ?_⟩
  rw [htrace, List.length_map, ← hbegin.length_eq, length_compoundsIn]
  simp only [census, Census.count_ofNode]

/-- A script with a conditional that has a loop in its block and goes on with an `ELSE IF`. -/
def branchingScript : String :=
  "SCRIPT AREA START SCRIPT IF a START IF\nREPEAT WHEN b START REPEAT END REPEAT END IF\n" ++
    "ELSE IF c START IF END IF END SCRIPT"

/-- The tokens of the script. -/
def branchingTokens : List Token :=
  [⟨.kwScript, "SCRIPT", 1⟩, ⟨.kwArea, "AREA", 1⟩, ⟨.kwStart, "START", 1⟩, ⟨.kwScript, "SCRIPT", 1⟩,
    ⟨.kwIf, "IF", 1⟩, ⟨.identifier, "a", 1⟩, ⟨.kwStart, "START", 1⟩, ⟨.kwIf, "IF", 1⟩,
    ⟨.kwRepeat, "REPEAT", 2⟩, ⟨.kwWhen, "WHEN", 2⟩, ⟨.identifier, "b", 2⟩,
    ⟨.kwStart, "START", 2⟩, ⟨.kwRepeat, "REPEAT", 2⟩, ⟨.kwEnd, "END", 2⟩, ⟨.kwRepeat, "REPEAT", 2⟩,
    ⟨.kwEnd, "END", 2⟩, ⟨.kwIf, "IF", 2⟩,
    ⟨.kwElse, "ELSE", 3⟩, ⟨.kwIf, "IF", 3⟩, ⟨.identifier, "c", 3⟩,
    ⟨.kwStart, "START", 3⟩, ⟨.kwIf, "IF", 3⟩, ⟨.kwEnd, "END", 3⟩, ⟨.kwIf, "IF", 3⟩,
    ⟨.kwEnd, "END", 3⟩, ⟨.kwScript, "SCRIPT", 3⟩, .endMark 3]

/-- The tree of the script. -/
def branching : Program :=
  ⟨[], [.ifElse (.identifier ⟨.identifier, "a", 1⟩)
    [.repeatWhen (.identifier ⟨.identifier, "b", 2⟩) []]
    (.elseIf (.identifier ⟨.identifier, "c", 3⟩) [] .done)]⟩

private theorem scan_branchingScript : scan branchingScript = ⟨branchingTokens, []⟩ := by
  decide +kernel

private theorem parse_branchingScript : parse branchingScript = .ok branching := by
  rw [parse, scan_branchingScript]
  rfl

/-- The conditional and the loop in its block are in the trace, and the `ELSE IF` is not. -/
theorem run_trace_branching :
    let o : Options := ⟨"input.lxr", false, 2⟩
    let document := fun _ => Document.ofContent (some branchingScript.toUTF8)
    parse branchingScript = .ok branching ∧
      (textLines (run o document).errors).filter (beginsWith LogLevel.trace.tag)
        = [LogLevel.trace.tag ++ " IF statement at line 1",
            LogLevel.trace.tag ++ " REPEAT statement at line 2"] := by
  intro o document
  have htokens : o.tokens = false := rfl
  obtain ⟨-, htrace, -⟩ := run_trace (fun _ => some branchingScript.toUTF8) htokens
    (Nat.le_refl 2) rfl parse_branchingScript
  rw [scan_branchingScript] at htrace
  exact ⟨parse_branchingScript, htrace.trans (by decide)⟩

end ScriptTree.Command
