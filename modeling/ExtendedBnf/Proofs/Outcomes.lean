import ExtendedBnf.Proofs.Spans

/-!
# The outcome of parsing an expression

A parser of a pest grammar does not look for all spans of an expression. From a
position it comes to one outcome, which is failure or the position where the match
ends. It takes the first alternative that matches, and a repetition takes all it
can and gives nothing back. A repetition of a match that takes nothing goes on for
ever and has no outcome. Predicates take nothing. Separated lists are unknown to
pest and have no outcome either.
-/
namespace ExtendedBnf

/-- From which positions a match comes to which outcomes. Failure is `none`. -/
abbrev Matcher := Nat → Option Nat → Prop

namespace Matcher

/-- From no position there are two outcomes. -/
def Functional (m : Matcher) : Prop := ∀ ⦃i o p⦄, m i o → m i p → o = p

/-- Success without taking anything. -/
inductive Empty : Matcher
  | here {i : Nat} : Empty i (some i)

/-- Failure everywhere. -/
inductive Nowhere : Matcher
  | fail {i : Nat} : Nowhere i none

/-- One match and then another. -/
inductive Then (m n : Matcher) : Matcher
  | fail {i : Nat} : m i none → Then m n i none
  | next {i j : Nat} {o : Option Nat} : m i (some j) → n j o → Then m n i o

/-- One match, or another where it fails. -/
inductive Else (m n : Matcher) : Matcher
  | first {i j : Nat} : m i (some j) → Else m n i (some j)
  | second {i : Nat} {o : Option Nat} : m i none → n i o → Else m n i o

/-- Matches until there is none. -/
inductive Star (m : Matcher) : Matcher
  | stop {i : Nat} : m i none → Star m i (some i)
  | more {i j : Nat} {o : Option Nat} : m i (some j) → i ≠ j → Star m j o → Star m i o

/-- A look at whether there is a match. -/
inductive Ahead (m : Matcher) : Matcher
  | found {i j : Nat} : m i (some j) → Ahead m i (some i)
  | missed {i : Nat} : m i none → Ahead m i none

/-- A look at whether there is no match. -/
inductive NotAhead (m : Matcher) : Matcher
  | found {i j : Nat} : m i (some j) → NotAhead m i none
  | missed {i : Nat} : m i none → NotAhead m i (some i)

/-- So many matches. -/
def times (m : Matcher) : Nat → Matcher
  | 0 => Empty
  | k + 1 => Then m (times m k)

/-- So many matches or fewer. -/
def upTo (m : Matcher) : Nat → Matcher
  | 0 => Empty
  | k + 1 => Else (Then m (upTo m k)) Empty

/-- Matches within the bounds, as many as there are. -/
def repeated (m : Matcher) (bounds : Bounds) : Matcher :=
  let min := (bounds.min.map UInt32.toNat).getD 0
  Then (m.times min) <|
    match bounds.max with
    | none => Star m
    | some max => m.upTo (max.toNat - min)

section
variable {m n : Matcher}

theorem functional_empty : Functional Empty := by
  rintro i o p ⟨⟩ ⟨⟩
  rfl

theorem functional_nowhere : Functional Nowhere := by
  rintro i o p ⟨⟩ ⟨⟩
  rfl

theorem Functional.andThen (hm : m.Functional) (hn : n.Functional) : (Then m n).Functional := by
  intro i o p ho hp
  cases ho with
  | fail hi =>
    cases hp with
    | fail => rfl
    | next hj => cases hm hi hj
  | next hi ho =>
    cases hp with
    | fail hj => cases hm hi hj
    | next hj hp =>
      cases hm hi hj
      exact hn ho hp

theorem Functional.orElse (hm : m.Functional) (hn : n.Functional) : (Else m n).Functional := by
  intro i o p ho hp
  cases ho with
  | first hi =>
    cases hp with
    | first hj => exact hm hi hj
    | second hj => cases hm hi hj
  | second hi ho =>
    cases hp with
    | first hj => cases hm hi hj
    | second hj hp => exact hn ho hp

theorem Functional.star (hm : m.Functional) : (Star m).Functional := by
  intro i o p ho hp
  induction ho with
  | stop hi =>
    cases hp with
    | stop => rfl
    | more hj => cases hm hi hj
  | more hi _ _ ih =>
    cases hp with
    | stop hj => cases hm hi hj
    | more hj _ hp =>
      cases hm hi hj
      exact ih hp

theorem Functional.ahead (hm : m.Functional) : (Ahead m).Functional := by
  rintro i o p (hi | hi) (hj | hj)
  · rfl
  · cases hm hi hj
  · cases hm hi hj
  · rfl

theorem Functional.notAhead (hm : m.Functional) : (NotAhead m).Functional := by
  rintro i o p (hi | hi) (hj | hj)
  · rfl
  · cases hm hi hj
  · cases hm hi hj
  · rfl

theorem Functional.times (hm : m.Functional) (k : Nat) : (m.times k).Functional := by
  induction k with
  | zero => exact functional_empty
  | succ k ih => exact hm.andThen ih

theorem Functional.upTo (hm : m.Functional) (k : Nat) : (m.upTo k).Functional := by
  induction k with
  | zero => exact functional_empty
  | succ k ih => exact (hm.andThen ih).orElse functional_empty

theorem Functional.repeated (hm : m.Functional) (bounds : Bounds) :
    (m.repeated bounds).Functional := by
  refine (hm.times _).andThen ?_
  split
  · exact hm.star
  · exact hm.upTo _

end

section
variable (l m n : Matcher)

theorem empty_then : Then Empty m = m := by
  ext i o
  constructor
  · rintro (h | ⟨h, hm⟩)
    · cases h
    · cases h
      exact hm
  · exact .next .here

theorem then_empty : Then m Empty = m := by
  ext i o
  constructor
  · rintro (h | ⟨h, hempty⟩)
    · exact h
    · cases hempty
      exact h
  · intro h
    cases o with
    | none => exact .fail h
    | some j => exact .next h .here

theorem then_assoc : Then (Then l m) n = Then l (Then m n) := by
  ext i o
  constructor
  · rintro ((h | ⟨hl, hm⟩) | ⟨h | ⟨hl, hm⟩, hn⟩)
    · exact .fail h
    · exact .next hl (.fail hm)
    · exact .next hl (.next hm hn)
  · rintro (h | ⟨hl, h | ⟨hm, hn⟩⟩)
    · exact .fail (.fail h)
    · exact .fail (.next hl h)
    · exact .next (.next hl hm) hn

end

end Matcher

/-- What names and literals match. -/
structure Leaves where
  name : Text → Matcher
  literal : Literal → Matcher

/-- No name and no literal has two outcomes from a position. -/
structure Leaves.Functional (μ : Leaves) : Prop where
  name (n : Text) : (μ.name n).Functional
  literal (l : Literal) : (μ.literal l).Functional

namespace Expr
open Matcher

mutual
/-- From which positions a parser comes to which outcomes. -/
def outcomes (μ : Leaves) : Expr → Matcher
  | name n => μ.name n
  | literal l => μ.literal l
  | seq es => rowOutcomes μ es
  | alt es => firstOutcomes μ es
  | optional e => Else (outcomes μ e) Empty
  | star e => Star (outcomes μ e)
  | plus e => Then (outcomes μ e) (Star (outcomes μ e))
  | repeated e bounds => (outcomes μ e).repeated bounds
  | ahead e => Ahead (outcomes μ e)
  | notAhead e => NotAhead (outcomes μ e)
  | list _ _ _ => fun _ _ => False

/-- The outcomes of the expressions one after the other. -/
def rowOutcomes (μ : Leaves) : List Expr → Matcher
  | [] => Empty
  | e :: es => Then (outcomes μ e) (rowOutcomes μ es)

/-- The outcomes of the first of the expressions that matches. -/
def firstOutcomes (μ : Leaves) : List Expr → Matcher
  | [] => Nowhere
  | e :: es => Else (outcomes μ e) (firstOutcomes μ es)
end

variable {μ : Leaves}

/-- A parser comes to one outcome at most. -/
theorem functional_outcomes (hμ : μ.Functional) (e : Expr) : (e.outcomes μ).Functional := by
  induction e with
  | name n => exact hμ.name n
  | literal l => exact hμ.literal l
  | seq es ih =>
    rw [outcomes]
    induction es with
    | nil => exact functional_empty
    | cons e es ihes =>
      exact (ih e List.mem_cons_self).andThen (ihes fun x hx => ih x (List.mem_cons_of_mem e hx))
  | alt es ih =>
    rw [outcomes]
    induction es with
    | nil => exact functional_nowhere
    | cons e es ihes =>
      exact (ih e List.mem_cons_self).orElse (ihes fun x hx => ih x (List.mem_cons_of_mem e hx))
  | optional e ih => exact ih.orElse functional_empty
  | star e ih => exact ih.star
  | plus e ih => exact ih.andThen ih.star
  | repeated e bounds ih => exact ih.repeated bounds
  | ahead e ih => exact ih.ahead
  | notAhead e ih => exact ih.notAhead
  | list e separator op => exact fun _ _ _ h => h.elim

section
variable (μ)

theorem rowOutcomes_append (es fs : List Expr) :
    rowOutcomes μ (es ++ fs) = Then (rowOutcomes μ es) (rowOutcomes μ fs) := by
  induction es with
  | nil => rw [List.nil_append, rowOutcomes, empty_then]
  | cons e es ih => rw [List.cons_append, rowOutcomes, ih, rowOutcomes, then_assoc]

theorem rowOutcomes_singleton (e : Expr) : rowOutcomes μ [e] = e.outcomes μ := by
  rw [rowOutcomes, rowOutcomes, then_empty]

theorem rowOutcomes_flatMap_items (es : List Expr) :
    rowOutcomes μ (es.flatMap items) = rowOutcomes μ es := by
  have hitems (e : Expr) : rowOutcomes μ e.items = e.outcomes μ := by
    cases e with
    | seq es => rw [items, outcomes]
    | _ => exact rowOutcomes_singleton μ _
  induction es with
  | nil => rfl
  | cons e es ih => rw [List.flatMap_cons, rowOutcomes_append, hitems, ih, rowOutcomes]

/-- Splicing sequences keeps the outcomes. -/
theorem outcomes_sequence (es : List Expr) : (sequence es).outcomes μ = rowOutcomes μ es := by
  rw [← rowOutcomes_flatMap_items]
  unfold sequence
  split
  next e h => rw [h, rowOutcomes_singleton]
  next => rw [outcomes]

end

end Expr
end ExtendedBnf
