import ExtendedBnf.Conversion
import ExtendedBnf.Proofs.NormalForm

/-!
# The names in a tree

Lowering for node grammars keeps the names of a tree that are not under a predicate.
It may repeat them, as the item of a list is repeated, but it brings none in. With
the names of node grammars, names stay in their order: those of built-in character
classes become literals, and the others are written in Pascal case.
-/
namespace ExtendedBnf

namespace Expr

mutual
/-- The names that are not under a predicate, from left to right. -/
def names : Expr → List Text
  | name n => [n]
  | literal _ => []
  | seq es | alt es => namesOf es
  | optional e | star e | plus e | repeated e _ | list e _ _ => names e
  | ahead _ | notAhead _ => []

/-- The names of all the trees. -/
def namesOf : List Expr → List Text
  | [] => []
  | e :: es => names e ++ namesOf es
end

@[simp] theorem namesOf_eq_flatMap (es : List Expr) : namesOf es = es.flatMap names := by
  induction es with
  | nil => rfl
  | cons e es ih => rw [namesOf, ih, List.flatMap_cons]

end Expr

namespace Splicing
variable {s : Splicing}

@[simp] theorem names_node (es : List Expr) : (s.node es).names = es.flatMap Expr.names := by
  cases s <;> exact Expr.namesOf_eq_flatMap es

theorem names_parts (e : Expr) : (s.parts e).flatMap Expr.names = e.names := by
  cases hnode : s.isNode e with
  | true =>
    obtain ⟨es, rfl⟩ := exists_eq_node hnode
    rw [parts_node, names_node]
  | false => rw [parts_of_isNode hnode, List.flatMap_singleton]

/-- Splicing keeps the names. -/
theorem names_build (es : List Expr) : (s.build es).names = es.flatMap Expr.names := by
  have hparts : (es.flatMap s.parts).flatMap Expr.names = es.flatMap Expr.names := by
    rw [List.flatMap_assoc]
    exact List.flatMap_congr fun e _ => names_parts e
  by_cases hone : (es.flatMap s.parts).length = 1
  · obtain ⟨e, he⟩ := List.length_eq_one_iff.1 hone
    rw [build_eq_of_singleton he, ← hparts, he, List.flatMap_singleton]
  · rw [build_eq_node hone, names_node, hparts]

end Splicing

namespace Transform

/-- A transform puts names in place of names as far as what it puts in has the names of its parts.
They may be compared by any relation that goes through lists of names part by part. -/
theorem names_apply {t : Transform} {R : List Text → List Text → Prop} {f : Text → List Text}
    (hnil : R [] []) (happend : ∀ ⦃a b c d⦄, R a b → R c d → R (a ++ c) (b ++ d))
    (hname : ∀ n, R (t.name n).names (f n)) (hliteral : ∀ l, R (t.literal l).names [])
    (hplus : ∀ e ns, R e.names ns → R (t.plus e).names ns)
    (hrepeated : ∀ e bounds ns, R e.names ns → R (t.repeated e bounds).names ns)
    (hlist : ∀ e separator op ns, R e.names ns → R (t.list e separator op).names ns) (e : Expr) :
    R (t.apply e).names (e.names.flatMap f) := by
  have hbuild {s : Splicing} {es : List Expr}
      (hes : ∀ e ∈ es, R (t.apply e).names (e.names.flatMap f)) :
      R (s.build (es.map t.apply)).names ((es.flatMap Expr.names).flatMap f) := by
    rw [Splicing.names_build, List.flatMap_map, List.flatMap_assoc]
    induction es with
    | nil => exact hnil
    | cons e es ih =>
      exact happend (hes e List.mem_cons_self) (ih fun x hx => hes x (List.mem_cons_of_mem e hx))
  induction e with
  | name n => simpa [apply, Expr.names] using hname n
  | literal l => exact hliteral l
  | seq es ih =>
    rw [apply, applyAll_eq_map, Expr.names, Expr.namesOf_eq_flatMap]
    exact hbuild (s := .row) ih
  | alt es ih =>
    rw [apply, applyAll_eq_map, Expr.names, Expr.namesOf_eq_flatMap]
    exact hbuild (s := .choice) ih
  | optional e ih | star e ih => exact ih
  | plus e ih => exact hplus _ _ ih
  | repeated e bounds ih => exact hrepeated _ bounds _ ih
  | ahead e | notAhead e => exact hnil
  | list e separator op ih => exact hlist _ separator op _ ih

end Transform

namespace Expr
variable {e : Expr}

/-- The names of a body as node grammars write them. -/
theorem names_nodeNamed (e : Expr) :
    e.nodeNamed.names =
      (e.names.filter fun n => (builtinToken? n).isNone).map Text.pascalCase := by
  -- name by name a list of at most one name, so that transforms can be compared part by part
  let written (n : Text) : List Text :=
    if (builtinToken? n).isNone then [n.pascalCase] else []
  have hwritten (ns : List Text) : ns.flatMap written =
      (ns.filter fun n => (builtinToken? n).isNone).map Text.pascalCase := by
    induction ns with
    | nil => rfl
    | cons n ns ih =>
      rw [List.flatMap_cons, List.filter_cons, ih]
      unfold written
      split <;> rfl
  rw [← hwritten]
  refine Transform.names_apply (R := Eq) rfl (fun _ _ _ _ hab hcd => by rw [hab, hcd]) (fun n => ?_)
    (fun _ => rfl) (fun _ _ => id) (fun _ _ _ => id) (fun _ _ _ _ => id) e
  dsimp only
  unfold written
  split
  next token htoken => rw [htoken]; rfl
  next hnone => rw [hnone]; rfl

/-- Dropping predicates keeps the names that are not under one. -/
theorem names_withoutPredicates (e : Expr) : e.withoutPredicates.elim [] names = e.names := by
  have hkept {es : List Expr} (hes : ∀ e ∈ es, e.withoutPredicates.elim [] names = e.names) :
      (es.filterMap withoutPredicates).flatMap names = es.flatMap names := by
    induction es with
    | nil => rfl
    | cons e es ih =>
      have hhere := hes e List.mem_cons_self
      have hrest := ih fun x hx => hes x (List.mem_cons_of_mem e hx)
      rw [List.filterMap_cons, List.flatMap_cons, ← hhere, ← hrest]
      cases e.withoutPredicates <;> rfl
  have hmap {x : Option Expr} {f : Expr → Expr} {ns : List Text}
      (hf : ∀ e, (f e).names = e.names) (hx : x.elim [] names = ns) :
      (x.map f).elim [] names = ns := by
    cases x with
    | none => exact hx
    | some e => exact (hf e).trans hx
  induction e with
  | name n | literal l => rfl
  | seq es ih =>
    rw [withoutPredicates, withoutPredicatesAll_eq_map, List.filterMap_map, names,
      namesOf_eq_flatMap, ← hkept ih]
    split
    next hnil =>
      rw [show es.filterMap withoutPredicates = [] from hnil]
      rfl
    next => exact Splicing.names_build (s := .row) _
  | alt es ih =>
    rw [withoutPredicates, withoutPredicatesAll_eq_map, List.filterMap_map, names,
      namesOf_eq_flatMap, ← hkept ih]
    split
    next hnil =>
      rw [show es.filterMap withoutPredicates = [] from hnil]
      rfl
    next => split <;> exact Splicing.names_build (s := .choice) _
  | optional e ih | star e ih | plus e ih | repeated e _ ih | list e _ _ ih =>
    rw [withoutPredicates]
    refine hmap ?_ ih
    exact fun _ => rfl
  | ahead e | notAhead e => rfl

/-- Lowering keeps the names, though it may repeat them. -/
theorem mem_names_lowered {n : Text} :
    n ∈ e.withoutLists.withoutPlus.withoutBounds.names ↔ n ∈ e.names := by
  have hsame {t : Transform} (hname : t.name = .name) (hliteral : t.literal = .literal)
      (hplus : ∀ e, n ∈ (t.plus e).names ↔ n ∈ e.names)
      (hrepeated : ∀ e bounds, n ∈ (t.repeated e bounds).names ↔ n ∈ e.names)
      (hlist : ∀ e separator op, n ∈ (t.list e separator op).names ↔ n ∈ e.names) (e : Expr) :
      n ∈ (t.apply e).names ↔ n ∈ e.names := by
    have hall := Transform.names_apply (t := t) (R := fun a b => n ∈ a ↔ n ∈ b) (f := fun n => [n])
      Iff.rfl (fun a b c d hab hcd => by rw [List.mem_append, List.mem_append, hab, hcd])
      (fun _ => by rw [hname]; rfl) (fun _ => by rw [hliteral]; rfl)
      (fun e ns h => (hplus e).trans h) (fun e bounds ns h => (hrepeated e bounds).trans h)
      (fun e separator op ns h => (hlist e separator op).trans h) e
    rwa [List.flatMap_singleton'] at hall
  have hsequence (es : List Expr) : (sequence es).names = es.flatMap names :=
    Splicing.names_build (s := .row) es
  have hspelled (e : Expr) (separator : Literal) (op : ListOp) :
      n ∈ (spelledOut e separator op).names ↔ n ∈ e.names := by
    unfold spelledOut
    dsimp only
    split_ifs <;> simp [hsequence, names]
  rw [withoutBounds, hsame rfl rfl (fun _ => Iff.rfl) (fun _ _ => Iff.rfl) (fun _ _ _ => Iff.rfl),
    withoutPlus, hsame rfl rfl (fun _ => by simp [hsequence, names]) (fun _ _ => Iff.rfl)
      (fun _ _ _ => Iff.rfl),
    withoutLists, hsame rfl rfl (fun _ => Iff.rfl) (fun _ _ => Iff.rfl) hspelled]

end Expr

theorem Rule.mem_names_of_lower {r lowered : Rule} {expandPlus : Bool}
    (h : r.lower (Target.ungram.lowering expandPlus) = .ok lowered) (n : Text) :
    n ∈ lowered.body.names ↔ n ∈ r.body.names := by
  obtain ⟨body, hbody, rfl⟩ := lower_ungram_eq_ok_iff.1 h
  have hnames := Expr.names_withoutPredicates r.body.withoutLists.withoutPlus.withoutBounds
  rw [hbody] at hnames
  rw [← Expr.mem_names_lowered (e := r.body), ← hnames]
  rfl

end ExtendedBnf
