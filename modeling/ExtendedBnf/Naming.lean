import ExtendedBnf.Grammar
import ExtendedBnf.Transform

/-!
# Names and quotes of a target

Node grammars name rules in Pascal case, write tokens between single quotes, and
have tokens of their own for the built-in character classes. Separators of lists
keep their quotes, since lists are gone before rules are written.
-/
namespace ExtendedBnf

/-- The built-in character classes and the tokens of node grammars that stand for them. -/
def builtinTokens : List (Text × Text) :=
  [("ASCII_DIGIT".toList, "digit".toList),
   ("ASCII_ALPHA".toList, "alpha".toList),
   ("ASCII_ALPHANUMERIC".toList, "alnum".toList)]

/-- The token for a built-in character class, under its own name or that name in Pascal case. -/
def builtinToken? (name : Text) : Option Text :=
  (builtinTokens.find? fun b => name == b.1 || name == b.1.pascalCase).map (·.2)

/-- Puts every literal between the given quotes. -/
def Expr.withQuotes (quote : Quote) : Expr → Expr :=
  Transform.apply { literal := fun l => .literal (l.withQuote quote) }

/-- Names and quotes as node grammars write them. -/
def Expr.nodeNamed : Expr → Expr :=
  Transform.apply
    { name := fun n =>
        match builtinToken? n with
        | some token => .literal ⟨token, .single⟩
        | none => .name n.pascalCase
      literal := fun l => .literal (l.withQuote .single) }

namespace Rule

/-- The rule with every literal between the given quotes. -/
def withQuotes (quote : Quote) (r : Rule) : Rule := { r with body := r.body.withQuotes quote }

/-- The rule with names and quotes as node grammars write them. -/
def nodeNamed (r : Rule) : Rule := { r with name := r.name.pascalCase, body := r.body.nodeNamed }

end Rule
end ExtendedBnf
