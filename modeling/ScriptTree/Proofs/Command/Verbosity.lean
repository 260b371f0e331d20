import ScriptTree.Proofs.Command.Lines

/-!
# The verbosity adds log lines and nothing else

The command is run with options and on what a file may hold: nothing, if there is no file, or any
bytes. Whatever the verbosity, the exit code and the output are the same, and the error output is
that of a silent run with log lines added (`run_verbosity`). A log line is known from the coloured
tag at its start.

The lines of the error output can be told apart by their first words (`Topic.opening`), none of
which begins like another. So the lines about a topic are found again in the text, and they say what
scanning and reading the same text gives.
-/

namespace ScriptTree.Command

/-! ### Files -/

/-- What is found where a file with this content should be; there may be no file. -/
def Document.ofContent : Option ByteArray → Document
  | none => .missing
  | some bytes => .ofBytes bytes

/-- Bytes that are no text in UTF-8 are not read. -/
theorem Document.ofBytes_of_not_isValidUTF8 {bytes : ByteArray} (h : ¬bytes.IsValidUTF8) :
    ofBytes bytes = .undecodable := by
  simp [ofBytes, String.fromUTF8?, h]

/-- A text is read as what it is. -/
theorem Document.ofBytes_toUTF8 (source : String) : ofBytes source.toUTF8 = .text source := by
  have hread : String.fromUTF8? source.toUTF8 = some source := dif_pos source.isValidUTF8
  rw [ofBytes, hread]

/-- A file is missing, or its bytes are not a text, or they are one. -/
theorem content_cases (content : Option ByteArray) :
    content = none ∨ (∃ bytes, content = some bytes ∧ ¬bytes.IsValidUTF8) ∨
      ∃ source : String, content = some source.toUTF8 := by
  rcases content with _ | bytes
  · exact .inl rfl
  · by_cases h : bytes.IsValidUTF8
    · exact .inr (.inr ⟨String.fromUTF8 bytes h, rfl⟩)
    · exact .inr (.inl ⟨bytes, rfl, h⟩)

/-- The answer of a run whose file holds a text. -/
theorem run_of_text {content : String → Option ByteArray} {o : Options} {source : String}
    (h : content o.file = some source.toUTF8) :
    run o (fun name => Document.ofContent (content name))
      = (respondToScan o.tokens (scan source)).report o.verbosity := by
  simp only [run, respond, h, Document.ofContent, Document.ofBytes_toUTF8]

/-! ### Beginnings of lines -/

/-- Whether a line begins with these words. -/
def beginsWith (opening line : String) : Bool :=
  opening.toList.isPrefixOf line.toList

private theorem beginsWith_iff {a b : String} : beginsWith a b = true ↔ a.toList <+: b.toList :=
  List.isPrefixOf_iff_prefix

theorem beginsWith_self_append (a s : String) : beginsWith a (a ++ s) = true := by
  simp [beginsWith_iff]

/-- What comes behind words that are not the first ones of `a` cannot make a line begin with `a`. -/
theorem beginsWith_append {a b : String} (h : beginsWith b a = false) (s : String) :
    beginsWith a (b ++ s) = beginsWith a b := by
  rw [Bool.eq_iff_iff, beginsWith_iff, beginsWith_iff, String.toList_append]
  constructor
  · intro hpre
    rcases List.prefix_or_prefix_of_prefix hpre (List.prefix_append ..) with hab | hba
    · exact hab
    · rw [beginsWith_iff.mpr hba] at h
      contradiction
  · exact fun hpre => hpre.trans (List.prefix_append ..)

/-- Whether a line begins with the tag of a log line. -/
def isLogLine (line : String) : Bool :=
  beginsWith LogLevel.debug.tag line || beginsWith LogLevel.trace.tag line

/-- A text without those of its lines that begin with the tag of a log line. -/
def withoutLogLines (text : String) : String :=
  "\n".intercalate ((textLines text).filter (!isLogLine ·))

/-! ### Topics -/

/-- What a line of the error output is about. -/
inductive Topic where
  | dropped | scanned | head | parsed | warning | error | undecodable | summary
  deriving DecidableEq

namespace Topic

/-- The words with which a line begins. -/
def opening : Topic → String
  | dropped => LogLevel.debug.tag ++ " " ++ "dropped input: "
  | scanned => LogLevel.debug.tag ++ " " ++ "scanned "
  | head => LogLevel.trace.tag ++ " "
  | parsed => LogLevel.debug.tag ++ " " ++ "parsed "
  | warning => warningTag ++ " "
  | error => errorTag ++ " "
  | undecodable => "Error: "
  | summary => "Parsed successfully. Found "

/-- No line is about two topics. -/
private theorem beginsWith_opening {t u : Topic} (h : t ≠ u) :
    beginsWith t.opening u.opening = false := by
  revert h
  cases t <;> cases u <;> decide

theorem beginsWith_opening_append {t u : Topic} (h : t ≠ u) (s : String) :
    beginsWith t.opening (u.opening ++ s) = false := by
  rw [beginsWith_append (beginsWith_opening h.symm), beginsWith_opening h]

/-- Whether lines about this are log lines. -/
def isLog : Topic → Bool
  | dropped | scanned | head | parsed => true
  | _ => false

private theorem isLogLine_opening_append (t : Topic) (s : String) :
    isLogLine (t.opening ++ s) = t.isLog := by
  have hdebug : beginsWith t.opening LogLevel.debug.tag = false := by cases t <;> decide
  have htrace : beginsWith t.opening LogLevel.trace.tag = false := by cases t <;> decide
  rw [isLogLine, beginsWith_append hdebug, beginsWith_append htrace]
  cases t <;> decide

end Topic

/-! ### What the messages are about -/

/-- The line of the message begins with the words of the topic, and it is a log line just if the
message is one. -/
structure Message.IsAbout (t : Topic) (m : Message) : Prop where
  begins : ∃ rest, m.line = t.opening ++ rest
  isLog : m.shownAt 0 = !t.isLog

section Lines

variable (e : ScanError) (s : Scan) (p : Program)

private theorem line_dropped : (Message.log .debug s!"dropped input: {e.message}").line
    = Topic.dropped.opening ++ e.message :=
  (String.append_assoc ..).symm

private theorem line_scanned : (Message.log .debug
      s!"scanned {s.tokens.length} tokens with {s.errors.length} lexical error(s)").line
    = Topic.scanned.opening ++
      s!"{s.tokens.length} tokens with {s.errors.length} lexical error(s)" := by
  simp [Message.line, Topic.opening, String.append_assoc, -String.reduceAppend]
  rfl

private theorem line_warning : (Message.report s!"{warningTag} {e.message}").line
    = Topic.warning.opening ++ e.message :=
  rfl

private theorem line_missing (file : String) :
    (Message.report s!"{errorTag} File '{file}' not found").line
      = Topic.error.opening ++ s!"File '{file}' not found" := by
  change errorTag ++ (" " ++ "File '") ++ file ++ "' not found" = _
  simp only [Topic.opening, String.append_assoc]
  rfl

private theorem line_headMessage (head : Token) : (headMessage head).line
    = Topic.head.opening ++ s!"{head.kind.name} statement at line {head.line}" :=
  rfl

private theorem line_parsed : (Message.log .debug
      s!"parsed {p.decls.length} declaration(s) and {p.stmts.length} statement(s)").line
    = Topic.parsed.opening ++
      s!"{p.decls.length} declaration(s) and {p.stmts.length} statement(s)" := by
  simp [Message.line, Topic.opening, String.append_assoc, -String.reduceAppend]
  rfl

private theorem line_summary : (Message.report (
      s!"Parsed successfully. Found {p.decls.length} declaration(s), " ++
        s!"{p.stmts.length} statement(s), {(Census.ofNode (.program p)).total} node(s).")).line
    = Topic.summary.opening ++ (s!"{p.decls.length} declaration(s), " ++
        s!"{p.stmts.length} statement(s), {(Census.ofNode (.program p)).total} node(s).") := by
  simp [Message.line, Topic.opening, String.append_assoc, -String.reduceAppend]
  rfl

end Lines

private theorem isAbout_of_mem_scanMessages (s : Scan) :
    ∀ m ∈ scanMessages s, ∃ t, m.IsAbout t := by
  intro m hm
  simp only [scanMessages, List.mem_append, List.mem_map, List.mem_singleton] at hm
  rcases hm with (⟨e, -, rfl⟩ | rfl) | ⟨e, -, rfl⟩
  · exact ⟨.dropped, ⟨_, line_dropped e⟩, rfl⟩
  · exact ⟨.scanned, ⟨_, line_scanned s⟩, rfl⟩
  · exact ⟨.warning, ⟨_, line_warning e⟩, rfl⟩

theorem isAbout_headMessage (head : Token) : (headMessage head).IsAbout .head :=
  ⟨⟨_, line_headMessage head⟩, rfl⟩

private theorem isAbout_error (text : String) :
    (Message.report s!"{errorTag} {text}").IsAbout .error :=
  ⟨⟨_, rfl⟩, rfl⟩

private theorem isAbout_of_mem_programMessages (p : Program) :
    ∀ m ∈ programMessages p, ∃ t, m.IsAbout t := by
  intro m hm
  simp only [programMessages, List.mem_cons, List.not_mem_nil, or_false] at hm
  rcases hm with rfl | rfl
  · exact ⟨.parsed, ⟨_, line_parsed p⟩, rfl⟩
  · exact ⟨.summary, ⟨_, line_summary p⟩, rfl⟩

/-- Every message has a topic. -/
theorem isAbout_of_mem_respond (tokens : Bool) (file : String) (document : Document) :
    ∀ m ∈ (respond tokens file document).messages, ∃ t, m.IsAbout t := by
  cases document with
  | missing => exact List.forall_mem_singleton.mpr ⟨.error, ⟨_, line_missing file⟩, rfl⟩
  | undecodable =>
    refine List.forall_mem_singleton.mpr ⟨.undecodable, ⟨"Error \x7b kind: InvalidData, " ++
      "message: \"stream did not contain valid UTF-8\" \x7d", ?_⟩, rfl⟩
    rfl
  | text source =>
    exact forall_mem_respondToScan tokens (isAbout_of_mem_scanMessages _)
      (fun head => ⟨.head, isAbout_headMessage head⟩) isAbout_of_mem_programMessages
      fun e _ => ⟨.error, isAbout_error e.message⟩

/-! ### Deleting log lines -/

/-- What is shown silently is shown at every verbosity. -/
private theorem Message.shownAt_of_shownAt_zero {m : Message} (h : m.shownAt 0 = true) (v : Nat) :
    m.shownAt v = true := by
  cases m with
  | log level =>
    cases level <;> simp [shownAt, LogLevel.shownFrom] at h
  | report => rfl

private theorem Message.shownAt_debug {v : Nat} (h : 1 ≤ v) (text : String) :
    (log .debug text).shownAt v = true :=
  decide_eq_true h

/-- A message is a log line or it is shown silently. -/
private theorem Message.IsAbout.isLogLine_eq {t : Topic} {m : Message} (h : m.IsAbout t) :
    (!isLogLine m.line) = m.shownAt 0 := by
  obtain ⟨⟨rest, hline⟩, hlog⟩ := h
  rw [hline, Topic.isLogLine_opening_append, hlog]

/-- **Deleting the log lines** of an answer leaves what is shown silently. -/
theorem withoutLogLines_report {r : Response} (hline : ∀ m ∈ r.messages, IsLine m.line)
    (habout : ∀ m ∈ r.messages, ∃ t, m.IsAbout t) (v : Nat) :
    withoutLogLines (r.report v).errors = (r.report 0).errors := by
  have hlines : ∀ l ∈ (r.messages.filter (·.shownAt v)).map Message.line, IsLine l :=
    List.forall_mem_map.mpr fun m hm => hline m (List.mem_filter.mp hm |>.1)
  have hempty : [""].filter (!isLogLine ·) = [""] := by decide
  rw [withoutLogLines, Response.report, textLines_unlines hlines, List.filter_append, hempty,
    intercalate_append_nil, List.filter_map, List.filter_filter]
  refine congrArg (fun ms : List Message => unlines (ms.map Message.line))
    (List.filter_congr fun m hm => ?_)
  obtain ⟨t, ht⟩ := habout m hm
  rw [Function.comp_apply, ht.isLogLine_eq]
  cases h : m.shownAt 0 with
  | false => rfl
  | true => simp [Message.shownAt_of_shownAt_zero h]

/-! ### Lines about a topic -/

/-- The lines about a topic among the messages that are shown. -/
def linesAbout (t : Topic) (v : Nat) (ms : List Message) : List String :=
  ((ms.filter (·.shownAt v)).map Message.line).filter (beginsWith t.opening)

section LinesAbout

variable {t u : Topic} {v : Nat} {ms : List Message}

@[simp] theorem linesAbout_append (t : Topic) (v : Nat) (ms ms' : List Message) :
    linesAbout t v (ms ++ ms') = linesAbout t v ms ++ linesAbout t v ms' := by
  simp [linesAbout]

/-- Messages about something else have no line about the topic. -/
private theorem linesAbout_of_ne (h : ∀ m ∈ ms, m.IsAbout u) (hne : t ≠ u) :
    linesAbout t v ms = [] := by
  refine List.filter_eq_nil_iff.mpr (List.forall_mem_map.mpr fun m hm => ?_)
  obtain ⟨rest, hline⟩ := (h m (List.mem_filter.mp hm |>.1)).begins
  rw [hline, Topic.beginsWith_opening_append hne]
  exact Bool.false_ne_true

/-- Messages about the topic that are shown are all lines about it. -/
theorem linesAbout_of_shown (h : ∀ m ∈ ms, m.IsAbout t) (hshown : ∀ m ∈ ms, m.shownAt v = true) :
    linesAbout t v ms = ms.map Message.line := by
  rw [linesAbout, List.filter_eq_self.mpr hshown]
  refine List.filter_eq_self.mpr (List.forall_mem_map.mpr fun m hm => ?_)
  obtain ⟨rest, hline⟩ := (h m hm).begins
  rw [hline, beginsWith_self_append]

/-- Messages about one topic, each of which is shown. -/
private theorem linesAbout_eq (h : ∀ m ∈ ms, m.IsAbout u) (hshown : ∀ m ∈ ms, m.shownAt v = true) :
    linesAbout t v ms = if t = u then ms.map Message.line else [] := by
  split
  · next heq =>
    subst heq
    exact linesAbout_of_shown h hshown
  · next hne => exact linesAbout_of_ne h hne

variable (hv : 1 ≤ v)

include hv

/-- The lines about a scan. -/
theorem linesAbout_scanMessages (s : Scan) (t : Topic) : linesAbout t v (scanMessages s) =
    match t with
    | .dropped => s.errors.map fun e => Topic.dropped.opening ++ e.message
    | .scanned => [Topic.scanned.opening ++
        s!"{s.tokens.length} tokens with {s.errors.length} lexical error(s)"]
    | .warning => s.errors.map fun e => Topic.warning.opening ++ e.message
    | _ => [] := by
  rw [scanMessages, linesAbout_append, linesAbout_append,
    linesAbout_eq (u := .dropped) (List.forall_mem_map.mpr fun e _ => ⟨⟨_, line_dropped e⟩, rfl⟩)
      (List.forall_mem_map.mpr fun e _ => Message.shownAt_debug hv _),
    linesAbout_eq (u := .scanned) (List.forall_mem_singleton.mpr ⟨⟨_, line_scanned s⟩, rfl⟩)
      (List.forall_mem_singleton.mpr (Message.shownAt_debug hv _)),
    linesAbout_eq (u := .warning) (List.forall_mem_map.mpr fun e _ => ⟨⟨_, line_warning e⟩, rfl⟩)
      (List.forall_mem_map.mpr fun e _ => rfl)]
  cases t with
  | dropped => simp [line_dropped]
  | scanned => exact congrArg ([·]) (line_scanned s)
  | warning => simp [line_warning]
  | _ => rfl

/-- The lines about a program. -/
theorem linesAbout_programMessages (p : Program) (t : Topic) :
    linesAbout t v (programMessages p) = match t with
    | .parsed => [Topic.parsed.opening ++
        s!"{p.decls.length} declaration(s) and {p.stmts.length} statement(s)"]
    | .summary => [Topic.summary.opening ++ (s!"{p.decls.length} declaration(s), " ++
        s!"{p.stmts.length} statement(s), {(Census.ofNode (.program p)).total} node(s).")]
    | _ => [] := by
  rw [programMessages, ← List.singleton_append, linesAbout_append,
    linesAbout_eq (u := .parsed) (List.forall_mem_singleton.mpr ⟨⟨_, line_parsed p⟩, rfl⟩)
      (List.forall_mem_singleton.mpr (Message.shownAt_debug hv _)),
    linesAbout_eq (u := .summary) (List.forall_mem_singleton.mpr ⟨⟨_, line_summary p⟩, rfl⟩)
      (List.forall_mem_singleton.mpr rfl)]
  cases t with
  | parsed => exact congrArg ([·]) (line_parsed p)
  | summary => exact congrArg ([·]) (line_summary p)
  | _ => rfl

end LinesAbout

/-- The program that is read, unless only tokens are asked for. -/
def programRead (tokens : Bool) (source : String) : Option Program :=
  if tokens then none else (parse source).toOption

/-- The lines about the scan and about the program are all there is besides those about compound
statements and errors. -/
private theorem linesAbout_respondToScan {t : Topic} (hhead : t ≠ .head) (herror : t ≠ .error)
    (v : Nat) (tokens : Bool) (source : String) :
    linesAbout t v (respondToScan tokens (scan source)).messages
      = linesAbout t v (scanMessages (scan source)) ++
        (programRead tokens source).toList.flatMap fun p => linesAbout t v (programMessages p) := by
  have hheads (heads : List Token) : linesAbout t v (heads.map headMessage) = [] :=
    linesAbout_of_ne (List.forall_mem_map.mpr fun head _ => isAbout_headMessage head) hhead
  cases tokens with
  | true => simp [respondToScan_tokens, programRead]
  | false =>
    cases h : parse source with
    | ok p =>
      rw [respondToScan_of_ok h, linesAbout_append, linesAbout_append, hheads]
      simp [programRead, h, Except.toOption]
    | error e =>
      rw [respondToScan_of_error h, linesAbout_append, linesAbout_append, hheads,
        linesAbout_of_ne (List.forall_mem_singleton.mpr (isAbout_error e.message)) herror]
      simp [programRead, h, Except.toOption]

/-- What the lines of the error output say about a text: one line for each dropped character in the
log and one among the warnings, one with the numbers of tokens and of dropped characters, and, if a
program is read, one in the log and one in the summary with the same numbers of declarations and
statements. -/
structure LogTells (tokens : Bool) (source : String) (lines : List String) : Prop where
  dropped : lines.filter (beginsWith Topic.dropped.opening)
    = (scan source).errors.map fun e => Topic.dropped.opening ++ e.message
  warnings : lines.filter (beginsWith Topic.warning.opening)
    = (scan source).errors.map fun e => Topic.warning.opening ++ e.message
  scanned : lines.filter (beginsWith Topic.scanned.opening) = [Topic.scanned.opening ++
    s!"{(scan source).tokens.length} tokens with {(scan source).errors.length} lexical error(s)"]
  parsed : lines.filter (beginsWith Topic.parsed.opening)
    = (programRead tokens source).toList.map fun p => Topic.parsed.opening ++
      s!"{p.decls.length} declaration(s) and {p.stmts.length} statement(s)"
  summary : lines.filter (beginsWith Topic.summary.opening)
    = (programRead tokens source).toList.map fun p => Topic.summary.opening ++
      (s!"{p.decls.length} declaration(s), " ++
        s!"{p.stmts.length} statement(s), {(Census.ofNode (.program p)).total} node(s).")

/-- **The log tells what was found** at every verbosity but 0. -/
theorem logTells_report {v : Nat} (hv : 1 ≤ v) (tokens : Bool) (source : String) :
    LogTells tokens source
      (textLines ((respondToScan tokens (scan source)).report v).errors) := by
  have hlines : ∀ l ∈ ((respondToScan tokens (scan source)).messages.filter (·.shownAt v)).map
      Message.line, IsLine l :=
    List.forall_mem_map.mpr fun m hm =>
      isLine_of_mem_respondToScan tokens source m (List.mem_filter.mp hm |>.1)
  have habout (t : Topic) (hhead : t ≠ .head) (herror : t ≠ .error) :
      (textLines ((respondToScan tokens (scan source)).report v).errors).filter
          (beginsWith t.opening)
        = linesAbout t v (scanMessages (scan source)) ++ (programRead tokens source).toList.flatMap
          fun p => linesAbout t v (programMessages p) := by
    have hempty : [""].filter (beginsWith t.opening) = [] := by cases t <;> decide
    rw [← linesAbout_respondToScan hhead herror, Response.report, textLines_unlines hlines,
      List.filter_append, hempty, List.append_nil, linesAbout]
  have hparsed := habout .parsed (by decide) (by decide)
  have hsummary := habout .summary (by decide) (by decide)
  simp only [linesAbout_scanMessages hv, linesAbout_programMessages hv, List.nil_append]
    at hparsed hsummary
  exact {
    dropped := by simp [habout, linesAbout_scanMessages hv, linesAbout_programMessages hv]
    warnings := by simp [habout, linesAbout_scanMessages hv, linesAbout_programMessages hv]
    scanned := by simp [habout, linesAbout_scanMessages hv, linesAbout_programMessages hv]
    parsed := by rw [hparsed, List.map_eq_flatMap]
    summary := by rw [hsummary, List.map_eq_flatMap] }

/-! ### Exit code and output -/

/-- There is no file, or no text in it, or, unless only tokens are asked for, no program. -/
def GivesUp (tokens : Bool) (content : Option ByteArray) : Prop :=
  content = none ∨ (∃ bytes, content = some bytes ∧ ¬bytes.IsValidUTF8) ∨
    tokens = false ∧ ∃ source e, content = some (String.toUTF8 source) ∧ parse source = .error e

/-- The exit code tells whether the command gives up, with nothing on the output; if it does not,
the output is the dump of the tokens, or the outline of the program. -/
structure Answers (tokens : Bool) (content : Option ByteArray) (r : Report) : Prop where
  fails_iff : r.exitCode = 1 ∧ r.output = "" ↔ GivesUp tokens content
  succeeds : ¬GivesUp tokens content → r.exitCode = 0
  dump : ∀ source, content = some (String.toUTF8 source) → tokens = true →
    r.output = unlines ((scan source).tokens.map Token.entry)
  tree : ∀ source p, content = some (String.toUTF8 source) → tokens = false →
    parse source = .ok p → r.output = (Node.program p).text

/-- A content is the text of one source only. -/
private theorem source_inj {source source' : String}
    (h : some source.toUTF8 = some source'.toUTF8) : source = source' :=
  String.toByteArray_inj.mp (Option.some.inj h)

private theorem givesUp_text_iff {tokens : Bool} {source : String} :
    GivesUp tokens (some source.toUTF8) ↔ tokens = false ∧ ∃ e, parse source = .error e := by
  constructor
  · rintro (h | ⟨bytes, h, hbytes⟩ | ⟨htokens, source', e, h, he⟩)
    · contradiction
    · exact absurd (Option.some.inj h ▸ source.isValidUTF8) hbytes
    · exact ⟨htokens, e, source_inj h ▸ he⟩
  · rintro ⟨htokens, e, he⟩
    exact .inr (.inr ⟨htokens, source, e, rfl, he⟩)

/-- The answer of a command that gives up. -/
private theorem answers_of_givesUp {tokens : Bool} {content : Option ByteArray}
    (h : GivesUp tokens content) (errors : String) : Answers tokens content ⟨1, "", errors⟩ where
  fails_iff := iff_of_true ⟨rfl, rfl⟩ h
  succeeds hnot := absurd h hnot
  dump source hsource htokens := by
    subst hsource
    rw [(givesUp_text_iff.mp h).1] at htokens
    contradiction
  tree source p hsource _ hp := by
    subst hsource
    obtain ⟨-, e, he⟩ := givesUp_text_iff.mp h
    rw [he] at hp
    contradiction

/-- The answer of a command that does not give up. -/
private theorem answers_of_not_givesUp {tokens : Bool} {source output : String}
    (h : ¬GivesUp tokens (some source.toUTF8))
    (hdump : tokens = true → output = unlines ((scan source).tokens.map Token.entry))
    (htree : ∀ p, tokens = false → parse source = .ok p → output = (Node.program p).text)
    (errors : String) : Answers tokens (some source.toUTF8) ⟨0, output, errors⟩ where
  fails_iff := iff_of_false (fun hcode => Nat.zero_ne_one hcode.1) h
  succeeds _ := rfl
  dump source' hsource htokens := by
    rw [← source_inj hsource]
    exact hdump htokens
  tree source' p hsource htokens hp := by
    rw [← source_inj hsource] at hp
    exact htree p htokens hp

/-- The answer about a text. -/
theorem answers_text (tokens : Bool) (source : String) (v : Nat) :
    Answers tokens (some source.toUTF8) ((respondToScan tokens (scan source)).report v) := by
  cases tokens with
  | true =>
    exact answers_of_not_givesUp (mt givesUp_text_iff.mp (by simp)) (fun _ => rfl)
      (fun _ h => absurd h (by decide)) _
  | false =>
    cases h : parse source with
    | error e =>
      rw [respondToScan_of_error h]
      exact answers_of_givesUp (givesUp_text_iff.mpr ⟨rfl, e, h⟩) _
    | ok p =>
      rw [respondToScan_of_ok h]
      refine answers_of_not_givesUp (mt givesUp_text_iff.mp (by simp [h]))
        (fun h => absurd h (by decide)) (fun p' _ hp => ?_) _
      rw [h] at hp
      rw [Except.ok.inj hp]

/-! ### The main result -/

/-- **The verbosity adds log lines and nothing else.** Run the command with any options and with the
same at verbosity 0. The exit code and the output are the same, and they are those that scanning and
reading the file's text gives. Deleting the log lines from the error output leaves that of the
silent run. (The report of a missing file quotes its name, in which a line end could be followed by
a tag; other names are never written.) If the file holds a text and the verbosity is not 0, the log
lines tell what was found in it. -/
theorem run_verbosity (content : String → Option ByteArray) (o : Options) :
    let document := fun name => Document.ofContent (content name)
    let silent := { o with verbosity := 0 }
    Answers o.tokens (content o.file) (run o document) ∧
      (run o document).exitCode = (run silent document).exitCode ∧
      (run o document).output = (run silent document).output ∧
      ((content o.file = none → IsLine o.file) →
        withoutLogLines (run o document).errors = (run silent document).errors) ∧
      ∀ source, content o.file = some (String.toUTF8 source) → 1 ≤ o.verbosity →
        LogTells o.tokens source (textLines (run o document).errors) := by
  intro document silent
  refine ⟨?_, rfl, rfl, fun hfile => ?_, fun source hsource hv => ?_⟩
  · rcases content_cases (content o.file) with h | ⟨bytes, h, hbytes⟩ | ⟨source, h⟩
    · simp only [run, document, h]
      exact answers_of_givesUp (.inl rfl) _
    · simp only [run, document, h, Document.ofContent, Document.ofBytes_of_not_isValidUTF8 hbytes]
      exact answers_of_givesUp (.inr (.inl ⟨bytes, rfl, hbytes⟩)) _
    · rw [run_of_text h, h]
      exact answers_text o.tokens source o.verbosity
  · refine withoutLogLines_report (isLine_of_mem_respond o.tokens fun h => hfile ?_)
      (isAbout_of_mem_respond _ _ _) o.verbosity
    cases hcontent : content o.file with
    | none => rfl
    | some bytes =>
      simp only [document, hcontent, Document.ofContent, Document.ofBytes] at h
      split at h <;> contradiction
  · rw [run_of_text hsource]
    exact logTells_report hv o.tokens source

/-- A dropped character is in the log and among the warnings, and the program is not read. -/
theorem run_verbosity_dropped :
    let document := fun _ : String => Document.ofContent (some "@".toUTF8)
    let loud : Options := ⟨"input.lxr", true, 1⟩
    let silent : Options := ⟨"input.lxr", true, 0⟩
    (run loud document).output = (run silent document).output ∧
      withoutLogLines (run loud document).errors = (run silent document).errors ∧
      LogTells true "@" (textLines (run loud document).errors) := by
  intro document loud silent
  obtain ⟨-, -, houtput, herrors, htells⟩ := run_verbosity (fun _ => some "@".toUTF8) loud
  exact ⟨houtput, herrors fun h => by contradiction, htells "@" rfl (by decide)⟩

end ScriptTree.Command
