import Mathlib.Data.List.Basic
import ScriptTree.Proofs.Command.Verbosity

/-!
# A dump of tokens is read back

A dump has a line for each token: the name of its kind in brackets, the lexeme between quotes, and
the number of its line in parentheses. The lexeme is written as it is, though it may hold quotes,
brackets and blanks. So the kind is read from the front of an entry and the line from its end, where
nothing but a name and digits can stand, and what remains between them is the lexeme
(`Token.ofLine?_entry`). No lexeme of a scan holds a line end, so the lines of its dump are the
entries (`readDump_unlines`).

The main result is `readDump_run`: the text that the command writes gives back all tokens of the
scan, and so it determines what is read from them.
-/

namespace ScriptTree

/-! ### Entries -/

/-- The kind whose name in brackets stands at the front of an entry, and what follows the quote
after it. -/
def kindAtFront? (entry : List Char) : Option (Kind × List Char) := do
  let named ← entry.dropPrefix? "[".toList
  let kind ← Kind.ofName? (String.ofList (named.takeWhile (· != ']')))
  let rest ← (named.dropWhile (· != ']')).dropPrefix? "] '".toList
  return (kind, rest)

/-- The line whose number stands at the end of an entry, and what precedes the quote before it. The
entry is read from its end, since a quote may also stand in what precedes. -/
def lineAtEnd? (entry : List Char) : Option (List Char × Nat) := do
  let numbered ← entry.reverse.dropPrefix? ")".toList
  let before ← (numbered.dropWhile Char.isDigit).dropPrefix? "' (line ".toList.reverse
  return (before.reverse, Nat.ofDigitChars 10 (numbered.takeWhile Char.isDigit).reverse 0)

/-- The token that has this entry in a dump. -/
def Token.ofLine? (entry : String) : Option Token := do
  let (kind, rest) ← kindAtFront? entry.toList
  let (lexeme, line) ← lineAtEnd? rest
  return ⟨kind, String.ofList lexeme, line⟩

private theorem dropPrefix?_append (front rest : List Char) :
    (front ++ rest).dropPrefix? front = some rest :=
  List.dropPrefix?_append_of_beq rest BEq.rfl

/-- No name of a kind has a bracket in it. -/
private theorem Kind.not_mem_name (k : Kind) : ']' ∉ k.name.toList := by
  cases k <;> decide

/-- The kind is found whatever follows it. -/
private theorem kindAtFront?_append (k : Kind) (rest : List Char) :
    kindAtFront? ("[".toList ++ (k.name.toList ++ ("] '".toList ++ rest))) = some (k, rest) := by
  have hname : ∀ c ∈ k.name.toList, (c != ']') = true := fun c hc =>
    bne_iff_ne.mpr (ne_of_mem_of_not_mem hc k.not_mem_name)
  have htake : (k.name.toList ++ ("] '".toList ++ rest)).takeWhile (· != ']') = k.name.toList := by
    rw [List.takeWhile_append_of_pos hname]
    simp
  have hdrop : (k.name.toList ++ ("] '".toList ++ rest)).dropWhile (· != ']')
      = "] '".toList ++ rest := by
    rw [List.dropWhile_append_of_pos hname]
    simp
  simp only [kindAtFront?, dropPrefix?_append, htake, hdrop, String.ofList_toList,
    Kind.ofName?_name, Option.bind_eq_bind, Option.bind_some, Option.pure_def]

/-- The line is found whatever precedes it. -/
private theorem lineAtEnd?_append (before : List Char) (line : Nat) :
    lineAtEnd? (before ++ ("' (line ".toList ++ (line.repr.toList ++ ")".toList)))
      = some (before, line) := by
  have hdigits : ∀ c ∈ line.repr.toList.reverse, c.isDigit = true := by
    intro c hc
    rw [List.mem_reverse, Nat.toList_repr] at hc
    exact Nat.isDigit_of_mem_toDigits (by decide) (by decide) hc
  have hreverse : (before ++ ("' (line ".toList ++ (line.repr.toList ++ ")".toList))).reverse
      = ")".toList ++
        (line.repr.toList.reverse ++ ("' (line ".toList.reverse ++ before.reverse)) := by
    simp
  have htake : (line.repr.toList.reverse ++ ("' (line ".toList.reverse ++ before.reverse)).takeWhile
      Char.isDigit = line.repr.toList.reverse := by
    rw [List.takeWhile_append_of_pos hdigits]
    simp
  have hdrop : (line.repr.toList.reverse ++ ("' (line ".toList.reverse ++ before.reverse)).dropWhile
      Char.isDigit = "' (line ".toList.reverse ++ before.reverse := by
    rw [List.dropWhile_append_of_pos hdigits]
    simp
  have hnumber : Nat.ofDigitChars 10 line.repr.toList 0 = line := by
    rw [Nat.toList_repr, Nat.ofDigitChars_ten_toDigits]
  simp only [lineAtEnd?, hreverse, dropPrefix?_append, htake, hdrop, List.reverse_reverse, hnumber,
    Option.bind_eq_bind, Option.bind_some, Option.pure_def]

namespace Token

/-- The characters of an entry. -/
theorem toList_entry (t : Token) : t.entry.toList =
    "[".toList ++ (t.kind.name.toList ++ ("] '".toList ++ (t.lexeme.toList ++
      ("' (line ".toList ++ (t.line.repr.toList ++ ")".toList))))) := by
  simp only [entry, String.toList_append, List.append_assoc]
  rfl

/-- **An entry is read back**, whatever stands in the lexeme. -/
theorem ofLine?_entry (t : Token) : ofLine? t.entry = some t := by
  simp only [ofLine?, toList_entry, kindAtFront?_append, lineAtEnd?_append, String.ofList_toList,
    Option.bind_eq_bind, Option.bind_some, Option.pure_def]

/-- An entry is one line if the lexeme is. -/
theorem isLine_entry {t : Token} (h : IsLine t.lexeme) : IsLine t.entry := by
  unfold entry
  simp +decide [h]

end Token

namespace Command

/-! ### Dumps -/

/-- The tokens that have their entries on the lines of a text, one after the other. -/
def readDump (text : String) : Option (List Token) :=
  (textLines text).dropLast.mapM Token.ofLine?

/-- **A dump is read back** if no lexeme goes over the end of a line. -/
theorem readDump_unlines {ts : List Token} (h : ∀ t ∈ ts, IsLine t.lexeme) :
    readDump (unlines (ts.map Token.entry)) = some ts := by
  have hlines : ∀ l ∈ ts.map Token.entry, IsLine l :=
    List.forall_mem_map.mpr fun t ht => Token.isLine_entry (h t ht)
  have hentries : Token.ofLine? ∘ Token.entry = fun t => some t := funext Token.ofLine?_entry
  rw [readDump, textLines_unlines hlines, List.dropLast_concat, List.mapM_map, hentries]
  exact List.mapM_pure.trans (congrArg some (List.map_id ts))

/-! ### The main result -/

/-- The options ask for the tokens of a file, at some verbosity, and the file holds the source. -/
def AsksForTokens (o : Options) (content : String → Option ByteArray) (source : String) : Prop :=
  o.tokens = true ∧ content o.file = some source.toUTF8

/-- What the command writes then is the dump of the scan. -/
theorem AsksForTokens.output_eq {o : Options} {content : String → Option ByteArray}
    {source : String} (h : AsksForTokens o content source) :
    (run o fun name => Document.ofContent (content name)).output
      = unlines ((scan source).tokens.map Token.entry) := by
  obtain ⟨htokens, hsource⟩ := h
  rw [run_of_text hsource, htokens]
  rfl

/-- **A dump gives back the tokens.** Run the command with options that ask for the tokens of a
file. Reading the text that it writes gives exactly the tokens of the scan, the end mark included,
with every kind, lexeme and line. So two sources with the same dump have the same tokens, and the
same comes of reading a program from them. -/
theorem readDump_run {o : Options} {content : String → Option ByteArray} {source : String}
    (h : AsksForTokens o content source) :
    let dump := (run o fun name => Document.ofContent (content name)).output
    readDump dump = some (scan source).tokens ∧
      ∀ (o' : Options) (content' : String → Option ByteArray) (source' : String),
        AsksForTokens o' content' source' →
        (run o' fun name => Document.ofContent (content' name)).output = dump →
        (scan source').tokens = (scan source).tokens ∧ parse source' = parse source := by
  intro dump
  have hread {o : Options} {content : String → Option ByteArray} {source : String}
      (h : AsksForTokens o content source) :
      readDump (run o fun name => Document.ofContent (content name)).output
        = some (scan source).tokens := by
    rw [h.output_eq]
    exact readDump_unlines fun _ => isLine_lexeme_of_mem_scan source
  refine ⟨hread h, fun o' content' source' h' hdump => ?_⟩
  have htokens : (scan source').tokens = (scan source).tokens := by
    have hsame := hread h'
    rw [hdump] at hsame
    exact Option.some.inj (hsame.symm.trans (hread h))
  exact ⟨htokens, by rw [parse, parse, htokens]⟩

/-- A quote, a bracket and a blank as lexemes, with one blank or two between the last two of them:
the dump is the same, and the tokens come back from it. -/
theorem readDump_run_quotes :
    let content (source : String) : String → Option ByteArray := fun _ => some source.toUTF8
    let o : Options := ⟨"input.lxr", true, 0⟩
    let dump (source : String) :=
      (run o fun name => Document.ofContent (content source name)).output
    AsksForTokens o (content "''' ']' ' '") "''' ']' ' '" ∧
      readDump (dump "''' ']' ' '") = some [⟨.charLiteral, "'''", 1⟩, ⟨.charLiteral, "']'", 1⟩,
        ⟨.charLiteral, "' '", 1⟩, .endMark 1] ∧
      dump "''' ']'  ' '" = dump "''' ']' ' '" ∧
      parse "''' ']'  ' '" = parse "''' ']' ' '" := by
  intro content o dump
  have hasks (source : String) : AsksForTokens o (content source) source := ⟨rfl, rfl⟩
  have hscan : (scan "''' ']' ' '").tokens = [⟨.charLiteral, "'''", 1⟩, ⟨.charLiteral, "']'", 1⟩,
      ⟨.charLiteral, "' '", 1⟩, .endMark 1] := by
    decide +kernel
  have hscan' : (scan "''' ']'  ' '").tokens = (scan "''' ']' ' '").tokens := by
    decide +kernel
  have hdump : dump "''' ']'  ' '" = dump "''' ']' ' '" := by
    simp only [dump, (hasks _).output_eq, hscan']
  obtain ⟨hread, hsame⟩ := readDump_run (hasks "''' ']' ' '")
  exact ⟨hasks _, hread.trans (congrArg some hscan), hdump, (hsame _ _ _ (hasks _) hdump).2⟩

end Command

end ScriptTree
