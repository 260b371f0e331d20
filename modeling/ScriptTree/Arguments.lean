import ScriptTree.Command

/-!
# Arguments

The arguments of a process say what the command is asked to do. An argument that begins with a dash
gives flags, as letters behind one dash or as a word behind two, and any other argument is the name
of a file; behind a lone `--` there are only names. The flag for the tokens may be given once, the
one for more of the log any number of times, and there has to be one name.

This is the way into the command. What the command does is said in terms of `Options`.
-/

namespace ScriptTree.Command

/-- The flags of the command. -/
inductive Flag where
  | tokens | verbose
  deriving DecidableEq, Repr

/-- The flag that a letter behind one dash gives. -/
def Flag.ofLetter? : Char → Option Flag
  | 't' => some tokens
  | 'v' => some verbose
  | _ => none

/-- The flag that a word behind two dashes gives. -/
def Flag.ofWord? (word : String) : Option Flag :=
  if word = "tokens" then some tokens
  else if word = "verbose" then some verbose
  else none

/-- Sorts arguments into flags and names. -/
def sortArguments : List String → Option (List Flag × List String)
  | [] => some ([], [])
  | arg :: args =>
    match arg.toList with
    | ['-', '-'] => some ([], args)
    | '-' :: '-' :: word => do
      let flag ← Flag.ofWord? (String.ofList word)
      let (flags, names) ← sortArguments args
      return (flag :: flags, names)
    | '-' :: c :: letters => do
      let given ← (c :: letters).mapM Flag.ofLetter?
      let (flags, names) ← sortArguments args
      return (given ++ flags, names)
    | _ => do
      let (flags, names) ← sortArguments args
      return (flags, arg :: names)

/-- What the arguments ask for, if they make sense. -/
def readArguments (arguments : List String) : Option Options := do
  let (flags, names) ← sortArguments arguments
  match names with
  | [file] =>
    if 1 < flags.count .tokens then none
    else some ⟨file, flags.contains .tokens, flags.count .verbose⟩
  | _ => none

end ScriptTree.Command
