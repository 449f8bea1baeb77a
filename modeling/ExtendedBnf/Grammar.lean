import ExtendedBnf.ExprReader
import ExtendedBnf.Outline

/-!
# Rules and grammars

A rule gives a name an expression, and a grammar is a list of rules, possibly
with a start symbol. Reading a grammar source checks that no rule is defined
twice and that the start symbol names a rule. A grammar built otherwise need not
satisfy this. `text` writes rules one per line, the start declaration first.
-/
namespace ExtendedBnf

structure Rule where
  name : Text
  body : Expr
  /-- Whether the rule matches without white space between its parts. -/
  atomic : Bool
  deriving DecidableEq, Repr

structure Grammar where
  rules : List Rule
  start : Option Text
  deriving DecidableEq, Repr

/-- The rule in grammar notation. -/
def Rule.text (r : Rule) : Text :=
  (if r.atomic then Line.atomicMarker ++ [' '] else []) ++ r.name ++ " ::= ".toList ++ r.body.text

namespace Grammar

/-- The first rule of the given name. -/
def rule? (g : Grammar) (name : Text) : Option Rule := g.rules.find? (·.name == name)

/-- The grammar in grammar notation. -/
def text (g : Grammar) : Text :=
  (match g.start with
    | some symbol => "# start ".toList ++ symbol ++ ['\n']
    | none => []) ++
  g.rules.flatMap fun r => r.text ++ ['\n']

/-- The rules that the definitions say, each of a name that is not taken. -/
def readRules (taken : List Text) : List Definition → Except Fault (List Rule)
  | [] => .ok []
  | d :: ds =>
    if d.name ∈ taken then .error (.malformedRule (some d.name) d.nameOffset (.duplicate d.name))
    else do
      let body ← (Expr.ofText d.body).mapError (Fault.inRule d.name d.bodyOffset)
      let rules ← readRules (d.name :: taken) ds
      return ⟨d.name, body, d.atomic⟩ :: rules

/-- The grammar that an outline says. -/
def ofOutline (outline : Outline) : Except Fault Grammar := do
  let rules ← readRules [] outline.definitions
  match outline.start with
  | none => return ⟨rules, none⟩
  | some declared =>
    if rules.any (·.name == declared.symbol) then return ⟨rules, some declared.symbol⟩
    else .error (.malformedStart declared.offset (.undefined declared.symbol))

/-- The grammar that a source says. -/
def ofText (source : Text) : Except Fault Grammar := Outline.ofText source >>= ofOutline

end Grammar

/-- The rule that a source with nothing else says. -/
def Rule.ofText (source : Text) : Except Fault Rule := do
  let g ← Grammar.ofText source
  match g.rules, g.start with
  | [r], none => .ok r
  | rules, _ => .error (.malformedRule none 0 (.notExactlyOne rules.length))

end ExtendedBnf
