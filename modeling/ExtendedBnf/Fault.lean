import ExtendedBnf.Text

/-!
# What can be wrong with a grammar

A fault says what went wrong, in which rule if that is known, and at which byte
of the text. Faults met while one rule body is read count from the start of that
body; `inRule` names the rule and moves the count to the whole text.
-/
namespace ExtendedBnf

/-- A construct that a target may have no way to write. -/
inductive Construct where
  | boundedRepetition
  | lookahead
  | negativeLookahead
  | separatedList
  deriving DecidableEq, Repr

def Construct.describe : Construct → Text
  | .boundedRepetition => "bounded repetition".toList
  | .lookahead => "lookahead".toList
  | .negativeLookahead => "negative lookahead".toList
  | .separatedList => "separated list".toList

/-- What makes the text of a rule malformed. -/
inductive RuleFlaw where
  | missingDefinition
  | invalidName (name : Text)
  | emptyBody
  | strayAlternative
  | strayAtomic
  | duplicate (name : Text)
  | notExactlyOne (count : Nat)
  | onlyPredicates
  | unexpectedEnd
  | unexpected (word : Text)
  | unterminatedLiteral
  | emptyGroup
  | missingSeparator
  | invalidBounds
  /-- A flaw in the caller's own words. -/
  | described (reason : Text)
  deriving DecidableEq, Repr

/-- What makes a start declaration malformed. -/
inductive StartFlaw where
  | invalidName (name : Text)
  | repeated (first : Text)
  | undefined (name : Text)
  | reserved (name : Text)
  /-- A flaw in the caller's own words. -/
  | described (reason : Text)
  deriving DecidableEq, Repr

/-- The text between two grave accents. -/
def Text.marked (t : Text) : Text := "`".toList ++ t ++ "`".toList

def RuleFlaw.describe : RuleFlaw → Text
  | .missingDefinition => "expected `::=`".toList
  | .invalidName name => name.marked ++ " is not a valid rule name".toList
  | .emptyBody => "empty rule body".toList
  | .strayAlternative => "alternative continues no rule".toList
  | .strayAtomic => "`#atomic` is not followed by a rule".toList
  | .duplicate name => "rule ".toList ++ name.marked ++ " is defined more than once".toList
  | .notExactlyOne count => "expected exactly one rule, found ".toList ++ Text.ofNat count
  | .onlyPredicates => "rule body consists only of predicates".toList
  | .unexpectedEnd => "unexpected end of rule".toList
  | .unexpected word => "unexpected ".toList ++ word.marked
  | .unterminatedLiteral => "unterminated literal".toList
  | .emptyGroup => "empty group".toList
  | .missingSeparator => "expected a quoted separator after `%`".toList
  | .invalidBounds => "invalid repetition bounds".toList
  | .described reason => reason

def StartFlaw.describe : StartFlaw → Text
  | .invalidName name => name.marked ++ " is not a valid identifier".toList
  | .repeated first => "start symbol already declared as ".toList ++ first.marked
  | .undefined name => name.marked ++ " does not name a rule".toList
  | .reserved name => "a rule is already named ".toList ++ name.marked
  | .described reason => reason

/-- A reason to give up on a grammar, with the byte offset where there is one. -/
inductive Fault where
  | malformedRule (rule : Option Text) (offset : Nat) (flaw : RuleFlaw)
  | malformedStart (offset : Nat) (flaw : StartFlaw)
  | unbalancedGroup (rule : Option Text) (offset : Nat)
  | invalidSeparatorOperator (rule : Option Text) (offset : Nat) (operator : Text)
  /-- A construct that the chosen target cannot write is still there when the rule is written. -/
  | unresolvedConstruct (rule : Text) (construct : Construct)
  deriving DecidableEq, Repr

namespace Fault

/-- The name of the rule at fault, if it is known. -/
def rule? : Fault → Option Text
  | malformedRule rule _ _ => rule
  | malformedStart _ _ => none
  | unbalancedGroup rule _ => rule
  | invalidSeparatorOperator rule _ _ => rule
  | unresolvedConstruct rule _ => some rule

/-- The byte of the text at fault, if there is one. -/
def offset? : Fault → Option Nat
  | malformedRule _ offset _ => some offset
  | malformedStart offset _ => some offset
  | unbalancedGroup _ offset => some offset
  | invalidSeparatorOperator _ offset _ => some offset
  | unresolvedConstruct _ _ => none

/-- The fault as seen from the whole text, when the body of rule `name` starts at byte `base`. A
rule that is already named keeps its name, and only faults of a rule's text move. -/
def inRule (name : Text) (base : Nat) : Fault → Fault
  | malformedRule rule offset flaw => malformedRule (rule.or (some name)) (base + offset) flaw
  | unbalancedGroup rule offset => unbalancedGroup (rule.or (some name)) (base + offset)
  | invalidSeparatorOperator rule offset operator =>
    invalidSeparatorOperator (rule.or (some name)) (base + offset) operator
  | fault => fault

/-- The separator operators as messages list them. -/
def operatorChoices : Text := "expected one of `+`, `*`, `...+`, `...*`".toList

/-- What went wrong, without the rule. -/
def describe : Fault → Text
  | malformedRule _ _ flaw => "malformed rule: ".toList ++ flaw.describe
  | malformedStart _ flaw => "malformed start declaration: ".toList ++ flaw.describe
  | unbalancedGroup _ _ => "unbalanced parentheses".toList
  | invalidSeparatorOperator _ _ [] => "missing separator operator, ".toList ++ operatorChoices
  | invalidSeparatorOperator _ _ operator =>
    "invalid separator operator ".toList ++ operator.marked ++ ", ".toList ++ operatorChoices
  | unresolvedConstruct _ construct =>
    "internal error: ".toList ++ construct.describe ++ " survived the rewrite pipeline".toList

/-- The message for the user. -/
def message (fault : Fault) : Text :=
  match fault.rule? with
  | some rule => fault.describe ++ " (in rule ".toList ++ rule.marked ++ ")".toList
  | none => fault.describe

end Fault
end ExtendedBnf
