import ExtendedBnf.Lowering
import ExtendedBnf.NodeGrammar
import ExtendedBnf.PestGrammar

/-!
# Conversion to a target

A target is a kind of grammar to write. Converting lowers each rule to what the
target has, gives it the target's names, and writes the rules in their order.
-/
namespace ExtendedBnf

/-- The kinds of grammar that can be written. -/
inductive Target where
  | pest
  | ungram
  deriving DecidableEq, Repr

namespace Target

/-- The extension of files that hold such grammars, which is also the target's name. -/
def extension : Target → Text
  | pest => "pest".toList
  | ungram => "ungram".toList

/-- The target that files with this extension are for. -/
def ofExtension? (ext : Text) : Option Target := [pest, ungram].find? fun t => t.extension == ext

/-- The target of this name. Both have a second one. -/
def ofName? (name : Text) : Option Target :=
  if name = "pest".toList ∨ name = "peg".toList then some pest
  else if name = "ungram".toList ∨ name = "ungrammar".toList then some ungram
  else none

/-- The message for a name that is no target's. -/
def unknownMessage (name : Text) : Text :=
  "unknown target ".toList ++ name.marked ++ ", expected `pest` or `ungram`".toList

/-- What has to be lowered for the target. Pest has `+`, which is lowered only if so asked. -/
def lowering (expandPlus : Bool) : Target → Lowering
  | pest => { plus := expandPlus, bounds := false, predicates := false }
  | ungram => { plus := true, bounds := true, predicates := true }

@[simp] theorem ofExtension?_extension (t : Target) : ofExtension? t.extension = some t := by
  cases t <;> rfl

@[simp] theorem ofName?_extension (t : Target) : ofName? t.extension = some t := by
  cases t <;> rfl

end Target

/-- Lowering for node grammars runs all passes, and fails if no part of the body is left. -/
theorem Rule.lower_ungram_eq_ok_iff {r lowered : Rule} {expandPlus : Bool} :
    r.lower (Target.ungram.lowering expandPlus) = .ok lowered ↔
      ∃ body, r.body.withoutLists.withoutPlus.withoutBounds.withoutPredicates = some body ∧
        lowered = { r with body } := by
  simp only [Rule.lower, Target.lowering, if_true]
  split
  next body hbody => simp [hbody, eq_comm]
  next hbody => simp [hbody]

/-- The grammar as a text for the target. -/
def Grammar.convert (target : Target) (expandPlus : Bool) (g : Grammar) : Except Fault Text := do
  let rules ← g.rules.mapM (Rule.lower (target.lowering expandPlus))
  match target with
  | .pest => PestGrammar.text ⟨rules, g.start⟩
  | .ungram => NodeGrammar.text ⟨rules.map Rule.nodeNamed, g.start.map Text.pascalCase⟩

/-- The grammar that a source says, as a text for the target. -/
def convertText (target : Target) (expandPlus : Bool) (source : Text) : Except Fault Text := do
  (← Grammar.ofText source).convert target expandPlus

end ExtendedBnf
