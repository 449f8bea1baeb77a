import ExtendedBnf.Dialect
import ExtendedBnf.Naming

/-!
# Grammars for pest

A pest grammar has one rule per line with its body in braces, `@` in front of the
body of an atomic rule. Literals stand between double quotes, since pest takes a
single-quoted one for a character. An atomic rule is set off by an empty line.
The start symbol becomes a last rule `start` that spans the whole input.
-/
namespace ExtendedBnf
namespace PestGrammar

/-- Items joined with `~`, predicates and counted repetition. -/
def dialect : Dialect where
  joint := " ~ ".toList
  predicates := true
  bounds := true

/-- The name of the rule made for the start symbol. -/
def startName : Text := "start".toList

/-- The line of a rule. -/
def ruleText (r : Rule) : Except Fault Text :=
  match (r.withQuotes .double).body.textIn dialect with
  | .error construct => .error (.unresolvedConstruct r.name construct)
  | .ok body =>
    .ok (r.name ++ (if r.atomic then " = @\x7b ".toList else " = \x7b ".toList) ++ body ++
      " \x7d\n".toList)

/-- What stands between the line of a rule and the one before. -/
def gapBefore (r : Rule) : Text := if r.atomic then ['\n'] else []

/-- The lines of rules that follow others. -/
def furtherRules : List Rule → Except Fault Text
  | [] => .ok []
  | r :: rs => do
    let line ← ruleText r
    let lines ← furtherRules rs
    return gapBefore r ++ line ++ lines

/-- The lines of all rules. -/
def rules : List Rule → Except Fault Text
  | [] => .ok []
  | r :: rs => do
    let line ← ruleText r
    let lines ← furtherRules rs
    return line ++ lines

/-- The line of the rule made for the start symbol. -/
def startRule (symbol : Text) : Text :=
  startName ++ " = \x7b SOI ~ ".toList ++ symbol ++ " ~ EOI \x7d\n".toList

/-- The whole grammar. -/
def text (g : Grammar) : Except Fault Text := do
  let lines ← rules g.rules
  match g.start with
  | none => return lines
  | some symbol =>
    if g.rules.any (·.name == startName) then .error (.malformedStart 0 (.reserved startName))
    else return lines ++ startRule symbol

end PestGrammar
end ExtendedBnf
