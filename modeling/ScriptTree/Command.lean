import ScriptTree.Census
import ScriptTree.Outline
import ScriptTree.Parse.Program

/-!
# The command

The command reads one script and shows its tree, or its tokens. Dropped characters are warned about
and do not stop it; a syntax error does. What the command says besides its result goes to the
messages: reports, which are always shown, and log lines, which are shown from a verbosity on.

`respond` says everything about an answer except the verbosity, which only decides which of the
messages are shown (`Response.report`).
-/

namespace ScriptTree.Command

/-! ### What a script file holds -/

/-- What is found where a script should be. -/
inductive Document where
  /-- There is no file. -/
  | missing
  /-- There is a file that is not text in UTF-8. -/
  | undecodable
  /-- There is a text. -/
  | text (source : String)
  deriving DecidableEq, Repr

/-- Reads bytes as text. -/
def Document.ofBytes (bytes : ByteArray) : Document :=
  match String.fromUTF8? bytes with
  | some source => text source
  | none => undecodable

/-! ### Options -/

/-- What the command is asked to do. -/
structure Options where
  /-- The name of the script file. -/
  file : String
  /-- Show the tokens and do not read a program. -/
  tokens : Bool
  /-- How much of the log is shown. -/
  verbosity : Nat
  deriving DecidableEq, Repr

/-! ### Messages -/

/-- The levels of log lines. -/
inductive LogLevel where
  | debug | trace
  deriving DecidableEq, Repr

/-- The verbosity from which a level is shown. -/
def LogLevel.shownFrom : LogLevel → Nat
  | debug => 1
  | trace => 2

/-- The coloured tag at the start of a log line. It stands between the ANSI escape sequences that
the terminal library `crossterm` writes for a foreground colour: `38;5;n` selects the colour, which
is 14 for cyan and 8 for dark grey, and `39` goes back to the one before. -/
def LogLevel.tag : LogLevel → String
  | debug => "\x1b[38;5;14m[DEBUG]\x1b[39m"
  | trace => "\x1b[38;5;8m[TRACE]\x1b[39m"

/-- The coloured word at the start of a warning. It is written by `crossterm` too, in yellow (11)
and bold (`1`); where there is an attribute besides the colour, `0` resets both. -/
def warningTag : String := "\x1b[38;5;11m\x1b[1mwarning:\x1b[0m"

/-- The coloured word at the start of an error, in red (9) and bold. -/
def errorTag : String := "\x1b[38;5;9m\x1b[1merror:\x1b[0m"

/-- A line on the error output. -/
inductive Message where
  /-- A line of the log. -/
  | log (level : LogLevel) (text : String)
  /-- A line that is always shown. -/
  | report (text : String)
  deriving DecidableEq, Repr

namespace Message

/-- Whether a message is shown at a verbosity. -/
def shownAt (verbosity : Nat) : Message → Bool
  | log level _ => level.shownFrom ≤ verbosity
  | report _ => true

/-- The line that a message fills. -/
def line : Message → String
  | log level text => level.tag ++ " " ++ text
  | report text => text

end Message

/-! ### Answers -/

/-- An answer before the verbosity is known. -/
structure Response where
  exitCode : Nat
  output : String
  messages : List Message

/-- What is given back: the exit code and the text of the two outputs. -/
structure Report where
  exitCode : Nat
  output : String
  errors : String
  deriving DecidableEq, Repr

/-- Lines put together, each with its end. -/
def unlines (lines : List String) : String :=
  String.join (lines.map (· ++ "\n"))

/-- The answer at a verbosity. -/
def Response.report (r : Response) (verbosity : Nat) : Report :=
  ⟨r.exitCode, r.output, unlines ((r.messages.filter (·.shownAt verbosity)).map Message.line)⟩

/-! ### What there is to say -/

/-- The messages about a scan: the log first, then the warnings. -/
def scanMessages (s : Scan) : List Message :=
  s.errors.map (fun e => .log .debug s!"dropped input: {e.message}")
    ++ [.log .debug
      s!"scanned {s.tokens.length} tokens with {s.errors.length} lexical error(s)"]
    ++ s.errors.map (fun e => .report s!"{warningTag} {e.message}")

/-- The log line of a compound statement that was begun. -/
def headMessage (head : Token) : Message :=
  .log .trace s!"{head.kind.name} statement at line {head.line}"

/-- The messages about a program that was read. -/
def programMessages (p : Program) : List Message :=
  [.log .debug s!"parsed {p.decls.length} declaration(s) and {p.stmts.length} statement(s)",
    .report (s!"Parsed successfully. Found {p.decls.length} declaration(s), " ++
      s!"{p.stmts.length} statement(s), {(Census.ofNode (.program p)).total} node(s).")]

/-- The answer about a text whose scan is `s`. -/
def respondToScan (tokens : Bool) (s : Scan) : Response :=
  if tokens then ⟨0, unlines (s.tokens.map Token.entry), scanMessages s⟩
  else
    let outcome := (Input.ofTokens s.tokens).parse
    let messages := scanMessages s ++ outcome.heads.map headMessage
    match outcome.result with
    | .ok p => ⟨0, (Node.program p).text, messages ++ programMessages p⟩
    | .error e => ⟨1, "", messages ++ [.report s!"{errorTag} {e.message}"]⟩

/-- The answer about the document found under the name `file`. -/
def respond (tokens : Bool) (file : String) : Document → Response
  | .missing => ⟨1, "", [.report s!"{errorTag} File '{file}' not found"]⟩
  | .undecodable =>
    ⟨1, "", [.report ("Error: Error \x7b kind: InvalidData, " ++
      "message: \"stream did not contain valid UTF-8\" \x7d")]⟩
  | .text source => respondToScan tokens (scan source)

/-- Runs the command, given what each file name leads to. -/
def run (o : Options) (document : String → Document) : Report :=
  (respond o.tokens o.file (document o.file)).report o.verbosity

end ScriptTree.Command
