import ExtendedBnf.ExprText
import ExtendedBnf.Fault

/-!
# Expressions in the notation of a target

A target has its own way to join the items of a sequence, and it may lack
predicates or counted repetition; no target has separated lists. `Expr.textIn`
writes an expression for a target, or names the first construct, parents before
their parts and from left to right, that the target lacks.
-/
namespace ExtendedBnf

/-- How a target writes expressions. -/
structure Dialect where
  /-- What stands between two items of a sequence. -/
  joint : Text
  /-- Whether it has predicates. -/
  predicates : Bool
  /-- Whether it has counted repetition. -/
  bounds : Bool
  deriving DecidableEq, Repr

namespace Expr

mutual
/-- The expression in the notation of a target. -/
def textIn (d : Dialect) : Expr → Except Construct Text
  | name n => .ok n
  | literal l => .ok l.text
  | seq es => (operandTextsIn d .sequence es).map (Text.join d.joint)
  | alt es => (operandTextsIn d .choice es).map (Text.join " | ".toList)
  | optional e => (textIn d e).map fun t => t.operand .atom e.precedence ++ ['?']
  | star e => (textIn d e).map fun t => t.operand .atom e.precedence ++ ['*']
  | plus e => (textIn d e).map fun t => t.operand .atom e.precedence ++ ['+']
  | repeated e bounds =>
    if d.bounds then (textIn d e).map fun t => t.operand .atom e.precedence ++ bounds.text
    else .error .boundedRepetition
  | ahead e =>
    if d.predicates then (textIn d e).map fun t => '&' :: t.operand .predicate e.precedence
    else .error .lookahead
  | notAhead e =>
    if d.predicates then (textIn d e).map fun t => '!' :: t.operand .predicate e.precedence
    else .error .negativeLookahead
  | list _ _ _ => .error .separatedList

/-- The expressions as operands where at least `least` is asked. -/
def operandTextsIn (d : Dialect) (least : Precedence) : List Expr → Except Construct (List Text)
  | [] => .ok []
  | e :: es => do
    let t ← textIn d e
    let ts ← operandTextsIn d least es
    return t.operand least e.precedence :: ts
end

theorem operandTextsIn_eq_mapM (d : Dialect) (least : Precedence) (es : List Expr) :
    operandTextsIn d least es = (es.mapM (textIn d)).map fun ts =>
      es.zipWith (fun e t => t.operand least e.precedence) ts := by
  induction es with
  | nil => rfl
  | cons e es ih =>
    rw [operandTextsIn, List.mapM_cons, ih]
    cases e.textIn d with
    | error c => rfl
    | ok t => cases es.mapM (textIn d) <;> rfl

end Expr
end ExtendedBnf
