import ExtendedBnf.Lowering
import Mathlib.Tactic.SplitIfs

/-!
# What a tree has no node of

Lowering takes some constructs out of a tree and must bring none of them back.
An empty choice, which matches nothing, counts as one of them: no source says
one. `Expr.Lacks` says that a tree has no node of a form. Splicing keeps this, and
so does a transform, for every form that it does not put in itself.
-/
namespace ExtendedBnf

/-- The constructs that a tree may have to lack. -/
inductive Form where
  | emptyChoice
  | plus
  | repeated
  | ahead
  | notAhead
  | list
  deriving DecidableEq, Repr

namespace Form

/-- Whether nodes of the form are predicates. -/
def isPredicate : Form → Bool
  | ahead | notAhead => true
  | _ => false

theorem ne_of_isPredicate {f g : Form} (hf : f.isPredicate) (hg : g.isPredicate = false) :
    f ≠ g := by
  rintro rfl
  rw [hg] at hf
  cases hf

theorem ne_of_imp {f g h : Form} (himp : f = g → f = h) (hne : g ≠ h) : f ≠ g := by
  intro heq
  exact hne (heq.symm.trans (himp heq))

end Form

namespace Expr

/-- The form of the outermost node, if it is one of these. -/
def form? : Expr → Option Form
  | alt [] => some .emptyChoice
  | plus _ => some .plus
  | repeated _ _ => some .repeated
  | ahead _ => some .ahead
  | notAhead _ => some .notAhead
  | list _ _ _ => some .list
  | _ => none

/-- No node of the tree is of the form. -/
def Lacks (e : Expr) (f : Form) : Prop := e.any (·.form? == some f) = false

instance (e : Expr) (f : Form) : Decidable (e.Lacks f) := inferInstanceAs (Decidable (_ = _))

variable {e : Expr} {es : List Expr} {f : Form}

theorem lacks_iff : e.Lacks f ↔ e.form? ≠ some f ∧ ∀ c ∈ e.children, c.Lacks f := by
  unfold Lacks
  rw [any_eq]
  simp

/-- A node of none of the forms. -/
theorem lacks_node (hform : e.form? = none) (hchildren : e.children = es) :
    e.Lacks f ↔ ∀ c ∈ es, c.Lacks f := by
  rw [lacks_iff, hform, hchildren]
  simp

@[simp] theorem lacks_name (n : Text) : (name n).Lacks f :=
  (lacks_node rfl rfl).2 (List.forall_mem_nil _)

@[simp] theorem lacks_literal (l : Literal) : (literal l).Lacks f :=
  (lacks_node rfl rfl).2 (List.forall_mem_nil _)

@[simp] theorem lacks_seq : (seq es).Lacks f ↔ ∀ e ∈ es, e.Lacks f := lacks_node rfl rfl

theorem lacks_alt :
    (alt es).Lacks f ↔ (es = [] → f ≠ .emptyChoice) ∧ ∀ e ∈ es, e.Lacks f := by
  cases es with
  | nil =>
    have hform : (alt []).form? = some .emptyChoice := rfl
    have hchildren : (alt []).children = [] := rfl
    rw [lacks_iff, hform, hchildren]
    simp [eq_comm]
  | cons e es =>
    rw [lacks_node rfl (show (alt (e :: es)).children = e :: es from rfl)]
    simp

@[simp] theorem lacks_optional : (optional e).Lacks f ↔ e.Lacks f :=
  (lacks_node rfl rfl).trans List.forall_mem_singleton

@[simp] theorem lacks_star : (star e).Lacks f ↔ e.Lacks f :=
  (lacks_node rfl rfl).trans List.forall_mem_singleton

/-- A node of a form with one part. -/
theorem lacks_node_of_form {c : Expr} {g : Form} (hform : e.form? = some g)
    (hchildren : e.children = [c]) : e.Lacks f ↔ f ≠ g ∧ c.Lacks f := by
  rw [lacks_iff, hform, hchildren, List.forall_mem_singleton]
  simp [eq_comm]

@[simp] theorem lacks_plus : (plus e).Lacks f ↔ f ≠ .plus ∧ e.Lacks f :=
  lacks_node_of_form rfl rfl

@[simp] theorem lacks_repeated {bounds : Bounds} :
    (repeated e bounds).Lacks f ↔ f ≠ .repeated ∧ e.Lacks f :=
  lacks_node_of_form rfl rfl

@[simp] theorem lacks_ahead : (ahead e).Lacks f ↔ f ≠ .ahead ∧ e.Lacks f :=
  lacks_node_of_form rfl rfl

@[simp] theorem lacks_notAhead : (notAhead e).Lacks f ↔ f ≠ .notAhead ∧ e.Lacks f :=
  lacks_node_of_form rfl rfl

@[simp] theorem lacks_list {separator : Literal} {op : ListOp} :
    (list e separator op).Lacks f ↔ f ≠ .list ∧ e.Lacks f :=
  lacks_node_of_form rfl rfl

theorem lacks_of_mem_items {i : Expr} (h : e.Lacks f) (hi : i ∈ e.items) : i.Lacks f := by
  cases e with
  | seq es => exact lacks_seq.1 h i hi
  | _ => obtain rfl := List.mem_singleton.1 hi; exact h

/-- Splicing sequences brings nothing in. -/
theorem lacks_sequence (h : ∀ e ∈ es, e.Lacks f) : (sequence es).Lacks f := by
  have hitems : ∀ i ∈ es.flatMap items, i.Lacks f := by
    intro i hi
    obtain ⟨e, he, hie⟩ := List.mem_flatMap.1 hi
    exact lacks_of_mem_items (h e he) hie
  unfold sequence
  split
  next i hone => exact hitems i (by simp [hone])
  next => exact lacks_seq.2 hitems

theorem lacks_of_mem_alternatives {a : Expr} (h : e.Lacks f) (ha : a ∈ e.alternatives) :
    a.Lacks f := by
  cases e with
  | alt es => exact (lacks_alt.1 h).2 a ha
  | _ => obtain rfl := List.mem_singleton.1 ha; exact h

theorem alternatives_ne_nil (h : e.Lacks .emptyChoice) : e.alternatives ≠ [] := by
  cases e with
  | alt es => exact fun hnil => (lacks_alt.1 h).1 hnil rfl
  | _ => simp [alternatives]

/-- Splicing choices brings nothing in, unless the choice is empty. -/
theorem lacks_choice (h : ∀ e ∈ es, e.Lacks f) (hne : es = [] → f ≠ .emptyChoice) :
    (choice es).Lacks f := by
  have hparts : ∀ a ∈ es.flatMap alternatives, a.Lacks f := by
    intro a ha
    obtain ⟨e, he, hae⟩ := List.mem_flatMap.1 ha
    exact lacks_of_mem_alternatives (h e he) hae
  unfold choice
  split
  next a hone => exact hparts a (by simp [hone])
  next =>
    refine lacks_alt.2 ⟨?_, hparts⟩
    rintro hnil rfl
    obtain ⟨e, he⟩ := List.exists_mem_of_ne_nil es fun hes => hne hes rfl
    exact alternatives_ne_nil (h e he) (List.flatMap_eq_nil_iff.1 hnil e he)

end Expr

/-- What the transform puts in has no node of the form `f` unless its parts have one. When `all`
holds, every node of the form is replaced, so that sources with such nodes count as well. -/
structure Transform.Avoids (t : Transform) (f : Form) (all : Prop) : Prop where
  name (n : Text) : (t.name n).Lacks f := by simp
  literal (l : Literal) : (t.literal l).Lacks f := by simp
  plus (e : Expr) : (f = .plus → all) → e.Lacks f → (t.plus e).Lacks f
  repeated (e : Expr) (bounds : Bounds) :
    (f = .repeated → all) → e.Lacks f → (t.repeated e bounds).Lacks f
  list (e : Expr) (separator : Literal) (op : ListOp) :
    (f = .list → all) → e.Lacks f → (t.list e separator op).Lacks f
  replaced : all → f = .plus ∨ f = .repeated ∨ f = .list

namespace Transform
variable {t : Transform} {f : Form} {all : Prop}

/-- The forms that no transform replaces. -/
theorem Avoids.ne_of_all (h : t.Avoids f all) (hall : all) {g : Form}
    (hg : decide (g = .plus ∨ g = .repeated ∨ g = .list) = false) : f ≠ g := by
  rintro rfl
  exact of_decide_eq_false hg (h.replaced hall)

/-- A transform leaves no node of a form that it avoids. -/
theorem lacks_apply (h : t.Avoids f all) {e : Expr} (he : all ∨ e.Lacks f) :
    (t.apply e).Lacks f := by
  induction e with
  | name n => rw [apply]; exact h.name n
  | literal l => rw [apply]; exact h.literal l
  | seq es ih =>
    rw [Expr.lacks_seq] at he
    rw [apply, applyAll_eq_map]
    refine Expr.lacks_sequence (List.forall_mem_map.2 fun e hmem => ?_)
    exact ih e hmem (he.imp_right fun hes => hes e hmem)
  | alt es ih =>
    rw [Expr.lacks_alt] at he
    rw [apply, applyAll_eq_map]
    refine Expr.lacks_choice (List.forall_mem_map.2 fun e hmem => ?_) fun hnil => ?_
    · exact ih e hmem (he.imp_right fun hes => hes.2 e hmem)
    · exact he.elim (fun hall => h.ne_of_all hall rfl) fun hes => hes.1 (List.map_eq_nil_iff.1 hnil)
  | optional e ih =>
    rw [Expr.lacks_optional] at he
    rw [apply, Expr.lacks_optional]
    exact ih he
  | star e ih =>
    rw [Expr.lacks_star] at he
    rw [apply, Expr.lacks_star]
    exact ih he
  | plus e ih =>
    rw [Expr.lacks_plus] at he
    rw [apply]
    exact h.plus _ (fun hf => he.resolve_right fun he => he.1 hf) (ih (he.imp_right And.right))
  | repeated e bounds ih =>
    rw [Expr.lacks_repeated] at he
    rw [apply]
    exact h.repeated _ bounds (fun hf => he.resolve_right fun he => he.1 hf)
      (ih (he.imp_right And.right))
  | ahead e ih =>
    rw [Expr.lacks_ahead] at he
    rw [apply, Expr.lacks_ahead]
    exact ⟨he.elim (fun hall => h.ne_of_all hall rfl) And.left, ih (he.imp_right And.right)⟩
  | notAhead e ih =>
    rw [Expr.lacks_notAhead] at he
    rw [apply, Expr.lacks_notAhead]
    exact ⟨he.elim (fun hall => h.ne_of_all hall rfl) And.left, ih (he.imp_right And.right)⟩
  | list e separator op ih =>
    rw [Expr.lacks_list] at he
    rw [apply]
    exact h.list _ separator op (fun hf => he.resolve_right fun he => he.1 hf)
      (ih (he.imp_right And.right))

end Transform

namespace Expr
variable {e : Expr} {f : Form}

/-- No list is left, and nothing that was missing is brought in. -/
theorem lacks_withoutLists (he : f = .list ∨ e.Lacks f) : e.withoutLists.Lacks f := by
  have h : Transform.Avoids { list := spelledOut } f (f = .list) := by
    refine { plus := ?_, repeated := ?_, list := ?_, replaced := fun h => .inr (.inr h) }
    · intro e hall he
      exact lacks_plus.2 ⟨Form.ne_of_imp hall (by decide), he⟩
    · intro e bounds hall he
      exact lacks_repeated.2 ⟨Form.ne_of_imp hall (by decide), he⟩
    · intro e separator op _ he
      have hsequence (a b : Expr) (ha : a.Lacks f) (hb : b.Lacks f) : (sequence [a, b]).Lacks f :=
        lacks_sequence (by simp [ha, hb])
      unfold spelledOut
      dsimp only
      split_ifs <;> simp [hsequence, he]
  exact Transform.lacks_apply h he

/-- No `+` is left, and nothing that was missing is brought in. -/
theorem lacks_withoutPlus (he : f = .plus ∨ e.Lacks f) : e.withoutPlus.Lacks f := by
  have h : Transform.Avoids { plus := fun e => sequence [e, star e] } f (f = .plus) := by
    refine { plus := ?_, repeated := ?_, list := ?_, replaced := .inl }
    · intro e _ he
      exact lacks_sequence (by simp [he])
    · intro e bounds hall he
      exact lacks_repeated.2 ⟨Form.ne_of_imp hall (by decide), he⟩
    · intro e separator op hall he
      exact lacks_list.2 ⟨Form.ne_of_imp hall (by decide), he⟩
  exact Transform.lacks_apply h he

/-- No counted repetition is left, and nothing that was missing is brought in. -/
theorem lacks_withoutBounds (he : f = .repeated ∨ e.Lacks f) : e.withoutBounds.Lacks f := by
  have h : Transform.Avoids { repeated := fun e _ => star e } f (f = .repeated) := by
    refine { plus := ?_, repeated := ?_, list := ?_, replaced := fun h => .inr (.inl h) }
    · intro e hall he
      exact lacks_plus.2 ⟨Form.ne_of_imp hall (by decide), he⟩
    · intro e bounds _ he
      exact lacks_star.2 he
    · intro e separator op hall he
      exact lacks_list.2 ⟨Form.ne_of_imp hall (by decide), he⟩
  exact Transform.lacks_apply h he

/-- What the passes before the last leave out, they leave out together. -/
theorem lacks_lowered (h : f = .list ∨ f = .plus ∨ f = .repeated ∨ e.Lacks f) :
    e.withoutLists.withoutPlus.withoutBounds.Lacks f := by
  rcases h with hlist | hplus | hrepeated | he
  · exact lacks_withoutBounds (.inr (lacks_withoutPlus (.inr (lacks_withoutLists (.inl hlist)))))
  · exact lacks_withoutBounds (.inr (lacks_withoutPlus (.inl hplus)))
  · exact lacks_withoutBounds (.inl hrepeated)
  · exact lacks_withoutBounds (.inr (lacks_withoutPlus (.inr (lacks_withoutLists (.inr he)))))

/-- No predicate is left, and nothing that was missing is brought in. -/
theorem lacks_withoutPredicates (he : f.isPredicate ∨ e.Lacks f) {k : Expr}
    (hk : e.withoutPredicates = some k) : k.Lacks f := by
  induction e generalizing k with
  | name n =>
    rw [withoutPredicates] at hk
    cases hk
    exact lacks_name n
  | literal l =>
    rw [withoutPredicates] at hk
    cases hk
    exact lacks_literal l
  | seq es ih =>
    rw [lacks_seq] at he
    rw [withoutPredicates, withoutPredicatesAll_eq_map, List.filterMap_map] at hk
    split at hk
    · cases hk
    · cases hk
      refine lacks_sequence fun k hk => ?_
      obtain ⟨e, hmem, hrest⟩ := List.mem_filterMap.1 hk
      exact ih e hmem (he.imp_right fun hes => hes e hmem) hrest
  | alt es ih =>
    rw [lacks_alt] at he
    rw [withoutPredicates, withoutPredicatesAll_eq_map, List.filterMap_map] at hk
    split at hk
    · cases hk
    next hne =>
      have hchoice : (choice (es.filterMap withoutPredicates)).Lacks f := by
        refine lacks_choice (fun k hk => ?_) fun hnil => absurd hnil hne
        obtain ⟨e, hmem, hrest⟩ := List.mem_filterMap.1 hk
        exact ih e hmem (he.imp_right fun hes => hes.2 e hmem) hrest
      split at hk
      · cases hk
        exact lacks_optional.2 hchoice
      · cases hk
        exact hchoice
  | optional e ih =>
    rw [lacks_optional] at he
    rw [withoutPredicates, Option.map_eq_some_iff] at hk
    obtain ⟨k, hk, rfl⟩ := hk
    exact lacks_optional.2 (ih he hk)
  | star e ih =>
    rw [lacks_star] at he
    rw [withoutPredicates, Option.map_eq_some_iff] at hk
    obtain ⟨k, hk, rfl⟩ := hk
    exact lacks_star.2 (ih he hk)
  | plus e ih =>
    rw [lacks_plus] at he
    rw [withoutPredicates, Option.map_eq_some_iff] at hk
    obtain ⟨k, hk, rfl⟩ := hk
    exact lacks_plus.2 ⟨he.elim (Form.ne_of_isPredicate · rfl) And.left,
      ih (he.imp_right And.right) hk⟩
  | repeated e bounds ih =>
    rw [lacks_repeated] at he
    rw [withoutPredicates, Option.map_eq_some_iff] at hk
    obtain ⟨k, hk, rfl⟩ := hk
    exact lacks_repeated.2 ⟨he.elim (Form.ne_of_isPredicate · rfl) And.left,
      ih (he.imp_right And.right) hk⟩
  | ahead e | notAhead e =>
    rw [withoutPredicates] at hk
    cases hk
  | list e separator op ih =>
    rw [lacks_list] at he
    rw [withoutPredicates, Option.map_eq_some_iff] at hk
    obtain ⟨k, hk, rfl⟩ := hk
    exact lacks_list.2 ⟨he.elim (Form.ne_of_isPredicate · rfl) And.left,
      ih (he.imp_right And.right) hk⟩

end Expr
end ExtendedBnf
