import ExtendedBnf.Lowering
import ExtendedBnf.Proofs.Outcomes
import Mathlib.Logic.Relation

/-!
# Parsing without `+`

A parser that meets `e e*` in place of `e+` comes to the same outcome from every
position: it fails where it failed, ends where it ended, and goes on for ever where
it did. The sequences that are put in are spliced into those around them, which a
parser does not notice, and no more does it notice that choices are spliced, since
it tries the same alternatives in the same order.
-/
namespace ExtendedBnf
open Relation

namespace Matcher

section
variable (l m n : Matcher)

theorem nowhere_else : Else Nowhere m = m := by
  ext i o
  constructor
  · rintro (h | ⟨-, h⟩)
    · cases h
    · exact h
  · exact .second .fail

theorem else_nowhere : Else m Nowhere = m := by
  ext i o
  constructor
  · rintro (h | ⟨h, hnowhere⟩)
    · exact h
    · cases hnowhere
      exact h
  · intro h
    cases o with
    | none => exact .second h .fail
    | some j => exact .first h

theorem else_assoc : Else (Else l m) n = Else l (Else m n) := by
  ext i o
  constructor
  · rintro ((hl | ⟨hl, hm⟩) | ⟨h, hn⟩)
    · exact .first hl
    · exact .second hl (.first hm)
    · cases h with
      | second hl hm => exact .second hl (.second hm hn)
  · rintro (hl | ⟨hl, hm | ⟨hm, hn⟩⟩)
    · exact .first (.first hl)
    · exact .first (.second hl hm)
    · exact .second (.second hl hm) hn

end

/-- One match that takes something. -/
def Takes (m : Matcher) (i j : Nat) : Prop := m i (some j) ∧ i ≠ j

variable {m : Matcher} {i j : Nat}

/-- A repetition ends where matches that take something lead to a position without a match. -/
theorem star_iff {o : Option Nat} :
    Star m i o ↔ ∃ j, o = some j ∧ ReflTransGen m.Takes i j ∧ m j none := by
  constructor
  · intro h
    induction h with
    | stop hi => exact ⟨_, rfl, .refl, hi⟩
    | more hij hne _ ih =>
      obtain ⟨k, rfl, hjk, hk⟩ := ih
      exact ⟨k, rfl, .head ⟨hij, hne⟩ hjk, hk⟩
  · rintro ⟨j, rfl, hij, hj⟩
    induction hij using ReflTransGen.head_induction_on with
    | refl => exact .stop hj
    | head hij _ ih => exact .more hij.1 hij.2 ih

/-- One match and then a repetition is a repetition of one match at least. -/
theorem then_star_iff (hm : m.Functional) :
    Then m (Star m) i (some j) ↔ TransGen m.Takes i j ∧ m j none := by
  constructor
  · rintro (_ | ⟨hik, hstar⟩)
    next k =>
    obtain ⟨j, ⟨⟩, hkj, hj⟩ := star_iff.1 hstar
    refine ⟨?_, hj⟩
    by_cases hne : i = k
    · -- a first match that takes nothing comes up again, so the repetition has no end
      subst hne
      obtain rfl | ⟨k, hstep, -⟩ := hkj.cases_head
      · cases hm hik hj
      · cases hm hik hstep.1
        exact absurd rfl hstep.2
    · exact TransGen.head' ⟨hik, hne⟩ hkj
  · rintro ⟨hij, hj⟩
    obtain ⟨k, hik, hkj⟩ := TransGen.head'_iff.1 hij
    exact .next hik.1 (star_iff.2 ⟨j, rfl, hkj, hj⟩)

end Matcher

namespace Expr
open Matcher
variable {μ : Leaves}

/-- What `e+` comes to is one match of `e` at least and as many as there are. It fails where `e`
does. -/
theorem outcomes_plus_iff (hμ : μ.Functional) (e : Expr) (i : Nat) (o : Option Nat) :
    (plus e).outcomes μ i o ↔ match o with
      | some j => TransGen (e.outcomes μ).Takes i j ∧ e.outcomes μ j none
      | none => e.outcomes μ i none := by
  rw [outcomes]
  cases o with
  | some j => exact then_star_iff (functional_outcomes hμ e)
  | none =>
    constructor
    · rintro (hi | ⟨-, hstar⟩)
      · exact hi
      · obtain ⟨k, ⟨⟩, -⟩ := star_iff.1 hstar
    · exact .fail

section
variable (μ)

theorem firstOutcomes_append (es fs : List Expr) :
    firstOutcomes μ (es ++ fs) = Else (firstOutcomes μ es) (firstOutcomes μ fs) := by
  induction es with
  | nil => rw [List.nil_append, firstOutcomes, nowhere_else]
  | cons e es ih => rw [List.cons_append, firstOutcomes, ih, firstOutcomes, else_assoc]

theorem firstOutcomes_singleton (e : Expr) : firstOutcomes μ [e] = e.outcomes μ := by
  rw [firstOutcomes, firstOutcomes, else_nowhere]

theorem firstOutcomes_flatMap_alternatives (es : List Expr) :
    firstOutcomes μ (es.flatMap alternatives) = firstOutcomes μ es := by
  have halternatives (e : Expr) : firstOutcomes μ e.alternatives = e.outcomes μ := by
    cases e with
    | alt es => rw [alternatives, outcomes]
    | _ => exact firstOutcomes_singleton μ _
  induction es with
  | nil => rfl
  | cons e es ih =>
    rw [List.flatMap_cons, firstOutcomes_append, halternatives, ih, firstOutcomes]

/-- Splicing choices keeps the outcomes. -/
theorem outcomes_choice (es : List Expr) : (choice es).outcomes μ = firstOutcomes μ es := by
  rw [← firstOutcomes_flatMap_alternatives]
  unfold choice
  split
  next e h => rw [h, firstOutcomes_singleton]
  next => rw [outcomes]

end

variable {f : Expr → Expr} {es : List Expr}

theorem rowOutcomes_map (h : ∀ e ∈ es, (f e).outcomes μ = e.outcomes μ) :
    rowOutcomes μ (es.map f) = rowOutcomes μ es := by
  induction es with
  | nil => rfl
  | cons e es ih =>
    rw [List.map_cons, rowOutcomes, h e List.mem_cons_self,
      ih fun x hx => h x (List.mem_cons_of_mem e hx), rowOutcomes]

theorem firstOutcomes_map (h : ∀ e ∈ es, (f e).outcomes μ = e.outcomes μ) :
    firstOutcomes μ (es.map f) = firstOutcomes μ es := by
  induction es with
  | nil => rfl
  | cons e es ih =>
    rw [List.map_cons, firstOutcomes, h e List.mem_cons_self,
      ih fun x hx => h x (List.mem_cons_of_mem e hx), firstOutcomes]

/-- The outcomes of `e e*` are those of `e+`. -/
theorem outcomes_sequence_star (μ : Leaves) (e : Expr) :
    (sequence [e, star e]).outcomes μ = (plus e).outcomes μ := by
  rw [outcomes_sequence, rowOutcomes, rowOutcomes_singleton, outcomes, outcomes]

/-- Writing `e+` as `e e*` everywhere keeps the outcomes, whatever names and literals match. -/
theorem outcomes_withoutPlus (μ : Leaves) (e : Expr) :
    e.withoutPlus.outcomes μ = e.outcomes μ := by
  unfold withoutPlus
  induction e with
  | name n | literal l => rfl
  | seq es ih =>
    rw [Transform.apply, Transform.applyAll_eq_map, outcomes_sequence, rowOutcomes_map ih, outcomes]
  | alt es ih =>
    rw [Transform.apply, Transform.applyAll_eq_map, outcomes_choice, firstOutcomes_map ih, outcomes]
  | optional e ih | star e ih | ahead e ih | notAhead e ih | repeated e _ ih =>
    rw [Transform.apply, outcomes, ih, outcomes]
  | plus e ih =>
    rw [Transform.apply, outcomes_sequence_star, outcomes, ih, outcomes]
  | list e separator op => rfl

end Expr
end ExtendedBnf
