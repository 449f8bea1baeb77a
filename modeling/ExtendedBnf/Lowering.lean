import ExtendedBnf.Grammar
import ExtendedBnf.Transform

/-!
# Lowering rules to what a target has

Separated lists become plain repetition for every target. A target that lacks
`+`, counted repetition or predicates has these lowered too: `e+` becomes `e e*`,
`e{m, n}` becomes `e*`, and predicates are dropped. The last two lose meaning. A
body that holds nothing but predicates cannot be lowered so.
-/
namespace ExtendedBnf

namespace Expr

/-- The separated list as plain repetition:
```
item % sep +       (item sep)* item
item % sep *       ((item sep)* item)?
item % sep ...+    (item sep)* item sep?
item % sep ...*    (item sep)* (item sep?)?
```
-/
def spelledOut (item : Expr) (separator : Literal) (op : ListOp) : Expr :=
  let pairs := star (sequence [item, literal separator])
  if op.finalSeparator then
    let last := sequence [item, optional (literal separator)]
    sequence [pairs, if op.atLeastOne then last else optional last]
  else
    let items := sequence [pairs, item]
    if op.atLeastOne then items else optional items

/-- Spells out every separated list. -/
def withoutLists : Expr → Expr := Transform.apply { list := spelledOut }

/-- Writes every `e+` as `e e*`. -/
def withoutPlus : Expr → Expr := Transform.apply { plus := fun e => sequence [e, star e] }

/-- Makes every counted repetition unbounded. -/
def withoutBounds : Expr → Expr := Transform.apply { repeated := fun e _ => star e }

mutual
/-- The expression without its predicates, or nothing if it holds nothing else. A choice that loses
an alternative becomes optional, since a dropped predicate matches the empty text. -/
def withoutPredicates : Expr → Option Expr
  | name n => some (name n)
  | literal l => some (literal l)
  | seq es =>
    match (withoutPredicatesAll es).filterMap id with
    | [] => none
    | kept => some (sequence kept)
  | alt es =>
    match (withoutPredicatesAll es).filterMap id with
    | [] => none
    | kept =>
      if (withoutPredicatesAll es).any Option.isNone then some (optional (choice kept))
      else some (choice kept)
  | optional e => (withoutPredicates e).map optional
  | star e => (withoutPredicates e).map star
  | plus e => (withoutPredicates e).map plus
  | repeated e bounds => (withoutPredicates e).map (repeated · bounds)
  | ahead _ | notAhead _ => none
  | list e separator op => (withoutPredicates e).map (list · separator op)

def withoutPredicatesAll : List Expr → List (Option Expr)
  | [] => []
  | e :: es => withoutPredicates e :: withoutPredicatesAll es
end

@[simp] theorem withoutPredicatesAll_eq_map (es : List Expr) :
    withoutPredicatesAll es = es.map withoutPredicates := by
  induction es with
  | nil => simp [withoutPredicatesAll]
  | cons e es ih => simp [withoutPredicatesAll, ih]

end Expr

/-- What is lowered beside separated lists. -/
structure Lowering where
  plus : Bool
  bounds : Bool
  predicates : Bool
  deriving DecidableEq, Repr

/-- The rule with its body lowered. -/
def Rule.lower (l : Lowering) (r : Rule) : Except Fault Rule :=
  let body := r.body.withoutLists
  let body := if l.plus then body.withoutPlus else body
  let body := if l.bounds then body.withoutBounds else body
  if l.predicates then
    match body.withoutPredicates with
    | some body => .ok { r with body }
    | none => .error (.malformedRule (some r.name) 0 .onlyPredicates)
  else .ok { r with body }

end ExtendedBnf
