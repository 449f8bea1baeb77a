import ExtendedBnf.Literal

/-!
# Expressions

The body of a rule is an expression: a tree of names, literals, sequences,
choices, repetitions, predicates and separated lists. Trees may be raw, that is
hold sequences and choices with fewer than two parts or directly inside one of
their own kind. `Expr.sequence` and `Expr.choice` build trees without these by
splicing, and everything that rebuilds a tree goes through them.
-/
namespace ExtendedBnf

/-- How many items a separated list has, at least one or any number, and whether a separator may
follow the last. -/
structure ListOp where
  atLeastOne : Bool
  finalSeparator : Bool
  deriving DecidableEq, Repr

/-- How often an expression is repeated. A missing end leaves that side open. -/
structure Bounds where
  min : Option UInt32
  max : Option UInt32
  deriving DecidableEq, Repr

/-- The body of a rule. -/
inductive Expr where
  | name (name : Text)
  | literal (literal : Literal)
  | seq (items : List Expr)
  | alt (alternatives : List Expr)
  | optional (body : Expr)
  | star (body : Expr)
  | plus (body : Expr)
  | repeated (body : Expr) (bounds : Bounds)
  | ahead (body : Expr)
  | notAhead (body : Expr)
  | list (item : Expr) (separator : Literal) (op : ListOp)
  deriving Repr

instance : Inhabited Expr := ⟨.seq []⟩

namespace Expr

section
variable {motive : Expr → Prop} (name : ∀ n, motive (name n)) (literal : ∀ l, motive (literal l))
  (seq : ∀ es, (∀ e ∈ es, motive e) → motive (seq es))
  (alt : ∀ es, (∀ e ∈ es, motive e) → motive (alt es))
  (optional : ∀ e, motive e → motive (optional e)) (star : ∀ e, motive e → motive (star e))
  (plus : ∀ e, motive e → motive (plus e))
  (repeated : ∀ e bounds, motive e → motive (repeated e bounds))
  (ahead : ∀ e, motive e → motive (ahead e)) (notAhead : ∀ e, motive e → motive (notAhead e))
  (list : ∀ e separator op, motive e → motive (list e separator op))
include name literal seq alt optional star plus repeated ahead notAhead list

/-- What holds of an expression as soon as it holds of its parts holds of all expressions. -/
@[induction_eliminator]
theorem induction (e : Expr) : motive e :=
  @Expr.rec motive (fun es => ∀ e ∈ es, motive e)
    name literal seq alt optional star plus repeated ahead notAhead list
    (fun _ h => absurd h List.not_mem_nil)
    (fun _ _ he hes _ hx => (List.mem_cons.1 hx).elim (fun h => h ▸ he) (hes _)) e

end

mutual
/-- Whether two expressions are the same tree. -/
def same : Expr → Expr → Bool
  | name a, name b => a == b
  | literal a, literal b => a == b
  | seq a, seq b => sameAll a b
  | alt a, alt b => sameAll a b
  | optional a, optional b => same a b
  | star a, star b => same a b
  | plus a, plus b => same a b
  | repeated a m, repeated b n => same a b && m == n
  | ahead a, ahead b => same a b
  | notAhead a, notAhead b => same a b
  | list a s o, list b t p => same a b && s == t && o == p
  | _, _ => false

/-- Whether two lists hold the same trees. -/
def sameAll : List Expr → List Expr → Bool
  | [], [] => true
  | a :: as, b :: bs => same a b && sameAll as bs
  | _, _ => false
end

mutual
theorem same_iff : ∀ a b : Expr, same a b = true ↔ a = b
  | name _, b | literal _, b => by cases b <;> simp [same]
  | seq as, b | alt as, b => by cases b <;> simp [same, sameAll_iff as]
  | optional a, b | star a, b | plus a, b | ahead a, b | notAhead a, b => by
    cases b <;> simp [same, same_iff a]
  | repeated a _, b => by cases b <;> simp [same, same_iff a]
  | list a _ _, b => by cases b <;> simp [same, same_iff a, and_assoc]

theorem sameAll_iff : ∀ as bs : List Expr, sameAll as bs = true ↔ as = bs
  | [], bs => by cases bs <;> simp [sameAll]
  | a :: as, bs => by cases bs <;> simp [sameAll, same_iff a, sameAll_iff as]
end

instance : DecidableEq Expr := fun a b => decidable_of_iff _ (same_iff a b)

/-- The parts an expression adds to a sequence it is an item of. -/
def items : Expr → List Expr
  | seq es => es
  | e => [e]

/-- The parts an expression adds to a choice it is an alternative of. -/
def alternatives : Expr → List Expr
  | alt es => es
  | e => [e]

/-- The sequence of the given items, with nested sequences spliced in. One item is itself. -/
def sequence (es : List Expr) : Expr :=
  match es.flatMap items with
  | [e] => e
  | es => seq es

/-- The choice of the given alternatives, with nested choices spliced in. One alternative is
itself. -/
def choice (es : List Expr) : Expr :=
  match es.flatMap alternatives with
  | [e] => e
  | es => alt es

/-- The direct parts of an expression. The separator of a list is not one. -/
def children : Expr → List Expr
  | name _ | literal _ => []
  | seq es | alt es => es
  | optional e | star e | plus e | repeated e _ | ahead e | notAhead e | list e _ _ => [e]

/-- What holds of an expression as soon as it holds of its direct parts holds of all. -/
theorem children_induction {motive : Expr → Prop}
    (step : ∀ e, (∀ c ∈ e.children, motive c) → motive e) (e : Expr) : motive e := by
  induction e with
  | name n | literal l => exact step _ fun _ hc => absurd hc List.not_mem_nil
  | seq es ih | alt es ih => exact step _ ih
  | optional e ih | star e ih | plus e ih | repeated e _ ih | ahead e ih | notAhead e ih
  | list e _ _ ih => exact step _ (List.forall_mem_singleton.2 ih)

/-- The expression with other direct parts in place of its own, spliced where it is a sequence or a
choice. -/
def withChildren : Expr → List Expr → Expr
  | seq _, es => sequence es
  | alt _, es => choice es
  | optional _, [e] => optional e
  | star _, [e] => star e
  | plus _, [e] => plus e
  | repeated _ bounds, [e] => repeated e bounds
  | ahead _, [e] => ahead e
  | notAhead _, [e] => notAhead e
  | list _ separator op, [e] => list e separator op
  | e, _ => e

mutual
/-- Whether any node of the tree satisfies `p`. -/
def any (p : Expr → Bool) : Expr → Bool
  | name n => p (name n)
  | literal l => p (literal l)
  | seq es => p (seq es) || anyOf p es
  | alt es => p (alt es) || anyOf p es
  | optional e => p (optional e) || any p e
  | star e => p (star e) || any p e
  | plus e => p (plus e) || any p e
  | repeated e bounds => p (repeated e bounds) || any p e
  | ahead e => p (ahead e) || any p e
  | notAhead e => p (notAhead e) || any p e
  | list e separator op => p (list e separator op) || any p e

/-- Whether any node of the trees satisfies `p`. -/
def anyOf (p : Expr → Bool) : List Expr → Bool
  | [] => false
  | e :: es => any p e || anyOf p es
end

theorem anyOf_eq_any (p : Expr → Bool) (es : List Expr) : anyOf p es = es.any (any p) := by
  induction es with
  | nil => simp [anyOf]
  | cons e es ih => simp [anyOf, ih]

theorem any_eq (p : Expr → Bool) (e : Expr) : any p e = (p e || e.children.any (any p)) := by
  cases e <;> simp [any, children, anyOf_eq_any]

end Expr
end ExtendedBnf
