import ExtendedBnf.Dialect
import ExtendedBnf.Naming
import ExtendedBnf.Replace

/-!
# Node grammars

A node grammar has a block for each rule, its name on one line and its body
below, and alternatives of the whole body on lines of their own. Blocks are set
off by an empty line. The start symbol becomes a last block `SourceFile`. In the
finished text two runs of tokens that only a parser needs are replaced by one
token: a quoted string, and the choice of a space, a tab and a line feed.
-/
namespace ExtendedBnf
namespace NodeGrammar

/-- Items next to each other, neither predicates nor counted repetition. -/
def dialect : Dialect where
  joint := [' ']
  predicates := false
  bounds := false

/-- The name of the block made for the start symbol. -/
def startName : Text := "SourceFile".toList

/-- The alternatives of a body as lines. -/
def bodyText : Expr → Except Construct Text
  | .alt es => (es.mapM (Expr.textIn dialect)).map (Text.join "\n| ".toList)
  | e => e.textIn dialect

/-- The block of a rule. -/
def ruleText (r : Rule) : Except Fault Text :=
  match bodyText r.body with
  | .error construct => .error (.unresolvedConstruct r.name construct)
  | .ok body => .ok (r.name ++ " =\n  ".toList ++ body)

/-- The block made for the start symbol. -/
def startBlock (symbol : Text) : Text := startName ++ " = ".toList ++ symbol

/-- The blocks of a grammar. -/
def blocks (g : Grammar) : Except Fault (List Text) := do
  let written ← g.rules.mapM ruleText
  match g.start with
  | none => return written
  | some symbol =>
    if g.rules.any (·.name == startName) then .error (.malformedStart 0 (.reserved startName))
    else return written ++ [startBlock symbol]

/-- The grammar before tokens are replaced. -/
def layout (g : Grammar) : Except Fault Text :=
  (blocks g).map fun written => Text.join "\n\n".toList written ++ ['\n']

/-- How long the tokens of a double-quoted string are, where a text starts with them. -/
def stringTokens? (t : Text) : Option Nat := do
  let rest ← t.after? "'\"' ANY* '\"'".toList
  return t.length - rest.length

/-- How long the choice of a space, a tab and a line feed is, where a text starts with it. -/
def spaceTokens? (t : Text) : Option Nat := do
  let rest ← t.after? "' '".toList
  let rest ← rest.trimStart.after? ['|']
  let rest ← rest.trimStart.after? "'\\t'".toList
  let rest ← rest.trimStart.after? ['|']
  let rest ← rest.trimStart.after? "'\\n'".toList
  return t.length - rest.length

/-- The text with one token in place of each such run. -/
def mergeTokens (t : Text) : Text :=
  (t.replaceAll stringTokens? "'Str'".toList).replaceAll spaceTokens? "' '".toList

/-- The whole grammar. -/
def text (g : Grammar) : Except Fault Text := (layout g).map mergeTokens

end NodeGrammar
end ExtendedBnf
