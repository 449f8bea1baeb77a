import ExtendedBnf.Expr

/-!
# Transforms of expressions

A transform replaces names, literals and some repetitions, and rebuilds all
around them. `apply` goes through the tree once from the leaves up, so what a
transform puts in is not looked at again. Sequences and choices are rebuilt by
splicing.
-/
namespace ExtendedBnf

/-- What to put in place of some constructs, given their parts after the transform. -/
structure Transform where
  name : Text → Expr := .name
  literal : Literal → Expr := .literal
  plus : Expr → Expr := .plus
  repeated : Expr → Bounds → Expr := .repeated
  list : Expr → Literal → ListOp → Expr := .list

namespace Transform

mutual
/-- The expression after the transform. -/
def apply (t : Transform) : Expr → Expr
  | .name n => t.name n
  | .literal l => t.literal l
  | .seq es => .sequence (applyAll t es)
  | .alt es => .choice (applyAll t es)
  | .optional e => .optional (apply t e)
  | .star e => .star (apply t e)
  | .plus e => t.plus (apply t e)
  | .repeated e bounds => t.repeated (apply t e) bounds
  | .ahead e => .ahead (apply t e)
  | .notAhead e => .notAhead (apply t e)
  | .list e separator op => t.list (apply t e) separator op

def applyAll (t : Transform) : List Expr → List Expr
  | [] => []
  | e :: es => apply t e :: applyAll t es
end

@[simp] theorem applyAll_eq_map (t : Transform) (es : List Expr) :
    t.applyAll es = es.map t.apply := by
  induction es with
  | nil => simp [applyAll]
  | cons e es ih => simp [applyAll, ih]

end Transform
end ExtendedBnf
