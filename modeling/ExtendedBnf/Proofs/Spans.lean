import ExtendedBnf.Transform
import Mathlib.Logic.Relation
import Mathlib.Tactic.SplitIfs

/-!
# The spans of an expression

Over a string of tokens an expression relates the positions where a match can
start to the positions where it can end. Sequences compose these relations,
choices join them, and repetitions iterate them. What names and literals relate
is given. `Reading` also gives counted repetitions and predicates, since a
target that lacks them reads them in its own way.
-/
namespace ExtendedBnf

/-- From which positions to which there is a match. -/
abbrev Span := Nat → Nat → Prop

namespace Span
open Relation

/-- So many matches one after the other. -/
def times (r : Span) : Nat → Span
  | 0 => Eq
  | k + 1 => Comp r (times r k)

/-- Items with a separator between each two, and what else the operator admits. -/
def list (item separator : Span) (op : ListOp) : Span :=
  let items := Comp item (ReflTransGen (Comp separator item))
  let ended := if op.finalSeparator then Comp items (ReflGen separator) else items
  if op.atLeastOne then ended else ReflGen ended

/-- A repetition can be shifted by half a round. -/
theorem comp_star_comm (r s : Span) :
    Comp (ReflTransGen (Comp r s)) r = Comp r (ReflTransGen (Comp s r)) := by
  ext i j
  constructor
  · rintro ⟨k, hik, hkj⟩
    induction hik using ReflTransGen.head_induction_on with
    | refl => exact ⟨j, hkj, .refl⟩
    | head hstep _ ih =>
      obtain ⟨m, hr, hs⟩ := hstep
      obtain ⟨n, hn, hrest⟩ := ih
      exact ⟨m, hr, .head ⟨_, hs, hn⟩ hrest⟩
  · rintro ⟨k, hik, hkj⟩
    induction hkj with
    | refl => exact ⟨i, .refl, hik⟩
    | tail _ hstep ih =>
      obtain ⟨m, hs, hr⟩ := hstep
      obtain ⟨n, hrest, hn⟩ := ih
      exact ⟨m, .tail hrest ⟨_, hn, hs⟩, hr⟩

theorem star_eq_reflGen (r : Span) : ReflTransGen r = ReflGen (Comp (ReflTransGen r) r) := by
  ext i j
  rw [reflGen_iff, ReflTransGen.cases_tail_iff]
  rfl

theorem plus_eq_comp_star (r : Span) : TransGen r = Comp r (ReflTransGen r) := by
  ext i j
  exact TransGen.head'_iff

/-- An empty match before the rest is none. -/
theorem comp_reflGen (r s : Span) (i j : Nat) :
    Comp r (ReflGen s) i j ↔ r i j ∨ Comp r s i j := by
  constructor
  · rintro ⟨k, hr, hs⟩
    cases hs with
    | refl => exact .inl hr
    | single hs => exact .inr ⟨k, hr, hs⟩
  · rintro (hr | ⟨k, hr, hs⟩)
    · exact ⟨j, hr, .refl⟩
    · exact ⟨k, hr, .single hs⟩

/-- Separated items are items each before its separator, and a last one. -/
theorem list_eq (r s : Span) (op : ListOp) :
    list r s op =
      let pairs := ReflTransGen (Comp r s)
      let last := if op.finalSeparator then Comp r (ReflGen s) else r
      if op.atLeastOne then Comp pairs last else ReflGen (Comp pairs last) := by
  unfold list
  split_ifs <;> simp only [← comp_star_comm, comp_assoc]

/-- Pairs and perhaps a last item are nothing, or pairs and a last item. -/
theorem comp_star_reflGen (r s : Span) :
    Comp (ReflTransGen (Comp r s)) (ReflGen (Comp r (ReflGen s))) =
      ReflGen (Comp (ReflTransGen (Comp r s)) (Comp r (ReflGen s))) := by
  ext i j
  rw [comp_reflGen, reflGen_iff]
  constructor
  · rintro (hpairs | hlast)
    · rw [star_eq_reflGen, reflGen_iff] at hpairs
      refine hpairs.imp_right fun ⟨k, hik, m, hr, hs⟩ => ⟨k, hik, m, hr, .single hs⟩
    · exact .inr hlast
  · rintro (rfl | hlast)
    · exact .inl .refl
    · exact .inr hlast

theorem reflGen_eq : ReflGen (Eq : Span) = Eq := by
  ext i j
  rw [reflGen_iff]
  constructor
  · rintro (rfl | rfl) <;> rfl
  · exact fun h => .inl h.symm

theorem reflTransGen_eq : ReflTransGen (Eq : Span) = Eq := by
  ext i j
  exact ⟨fun h => by induction h with
    | refl => rfl
    | tail _ h ih => exact ih.trans h, fun h => h ▸ .refl⟩

theorem transGen_eq : TransGen (Eq : Span) = Eq := by
  rw [plus_eq_comp_star, reflTransGen_eq, eq_comp]

end Span

/-- What the leaves of an expression match, and how counted repetitions and predicates are read. -/
structure Reading where
  name : Text → Span
  literal : Literal → Span
  repeated : Span → Bounds → Span
  ahead : Span → Span
  notAhead : Span → Span

namespace Expr
open Relation

mutual
/-- From which positions to which the expression matches. -/
def spans (ρ : Reading) : Expr → Span
  | name n => ρ.name n
  | literal l => ρ.literal l
  | seq es => rowSpans ρ es
  | alt es => anySpans ρ es
  | optional e => ReflGen (spans ρ e)
  | star e => ReflTransGen (spans ρ e)
  | plus e => TransGen (spans ρ e)
  | repeated e bounds => ρ.repeated (spans ρ e) bounds
  | ahead e => ρ.ahead (spans ρ e)
  | notAhead e => ρ.notAhead (spans ρ e)
  | list e separator op => Span.list (spans ρ e) (ρ.literal separator) op

/-- From which positions to which the expressions match one after the other. -/
def rowSpans (ρ : Reading) : List Expr → Span
  | [] => Eq
  | e :: es => Comp (spans ρ e) (rowSpans ρ es)

/-- From which positions to which some of the expressions matches. -/
def anySpans (ρ : Reading) : List Expr → Span
  | [] => fun _ _ => False
  | e :: es => fun i j => spans ρ e i j ∨ anySpans ρ es i j
end

section
variable {ρ σ : Reading} {f : Expr → Expr} {es : List Expr}

theorem rowSpans_map (h : ∀ e ∈ es, (f e).spans ρ = e.spans σ) :
    rowSpans ρ (es.map f) = rowSpans σ es := by
  induction es with
  | nil => rfl
  | cons e es ih =>
    rw [List.map_cons, rowSpans, h e List.mem_cons_self,
      ih fun x hx => h x (List.mem_cons_of_mem e hx), rowSpans]

theorem anySpans_map (h : ∀ e ∈ es, (f e).spans ρ = e.spans σ) :
    anySpans ρ (es.map f) = anySpans σ es := by
  induction es with
  | nil => rfl
  | cons e es ih =>
    rw [List.map_cons, anySpans, h e List.mem_cons_self,
      ih fun x hx => h x (List.mem_cons_of_mem e hx), anySpans]

theorem rowSpans_congr (h : ∀ e ∈ es, e.spans ρ = e.spans σ) : rowSpans ρ es = rowSpans σ es := by
  rw [← rowSpans_map (f := id) h, List.map_id]

theorem anySpans_congr (h : ∀ e ∈ es, e.spans ρ = e.spans σ) : anySpans ρ es = anySpans σ es := by
  rw [← anySpans_map (f := id) h, List.map_id]

end

section
variable (ρ : Reading)

theorem rowSpans_append (es fs : List Expr) :
    rowSpans ρ (es ++ fs) = Comp (rowSpans ρ es) (rowSpans ρ fs) := by
  induction es with
  | nil => rw [List.nil_append, rowSpans, eq_comp]
  | cons e es ih => rw [List.cons_append, rowSpans, ih, rowSpans, comp_assoc]

theorem rowSpans_singleton (e : Expr) : rowSpans ρ [e] = e.spans ρ := by
  rw [rowSpans, rowSpans, comp_eq]

theorem rowSpans_items (e : Expr) : rowSpans ρ e.items = e.spans ρ := by
  cases e with
  | seq es => rw [items, spans]
  | _ => exact rowSpans_singleton ρ _

theorem rowSpans_flatMap_items (es : List Expr) :
    rowSpans ρ (es.flatMap items) = rowSpans ρ es := by
  induction es with
  | nil => rfl
  | cons e es ih => rw [List.flatMap_cons, rowSpans_append, rowSpans_items, ih, rowSpans]

/-- Splicing sequences keeps what is matched. -/
@[simp] theorem spans_sequence (es : List Expr) : (sequence es).spans ρ = rowSpans ρ es := by
  rw [← rowSpans_flatMap_items]
  unfold sequence
  split
  next e h => rw [h, rowSpans_singleton]
  next => rw [spans]

theorem anySpans_iff {es : List Expr} {i j : Nat} :
    anySpans ρ es i j ↔ ∃ e ∈ es, e.spans ρ i j := by
  induction es with
  | nil => simp [anySpans]
  | cons e es ih => simp [anySpans, ih]

theorem anySpans_singleton (e : Expr) : anySpans ρ [e] = e.spans ρ := by
  ext i j
  simp [anySpans]

theorem anySpans_alternatives (e : Expr) : anySpans ρ e.alternatives = e.spans ρ := by
  cases e with
  | alt es => rw [alternatives, spans]
  | _ => exact anySpans_singleton ρ _

theorem anySpans_flatMap_alternatives (es : List Expr) :
    anySpans ρ (es.flatMap alternatives) = anySpans ρ es := by
  ext i j
  rw [anySpans_iff, anySpans_iff]
  constructor
  · rintro ⟨a, ha, hij⟩
    obtain ⟨e, he, hae⟩ := List.mem_flatMap.1 ha
    refine ⟨e, he, ?_⟩
    rw [← anySpans_alternatives, anySpans_iff]
    exact ⟨a, hae, hij⟩
  · rintro ⟨e, he, hij⟩
    rw [← anySpans_alternatives, anySpans_iff] at hij
    obtain ⟨a, hae, hij⟩ := hij
    exact ⟨a, List.mem_flatMap.2 ⟨e, he, hae⟩, hij⟩

/-- Splicing choices keeps what is matched. -/
@[simp] theorem spans_choice (es : List Expr) : (choice es).spans ρ = anySpans ρ es := by
  rw [← anySpans_flatMap_alternatives]
  unfold choice
  split
  next e h => rw [h, anySpans_singleton]
  next => rw [spans]

end

end Expr

/-- What a transform puts in matches what it replaces. -/
structure Transform.Keeps (t : Transform) (ρ : Reading) : Prop where
  name (n : Text) : (t.name n).spans ρ = ρ.name n := by intros; rfl
  literal (l : Literal) : (t.literal l).spans ρ = ρ.literal l := by intros; rfl
  plus (e : Expr) : (t.plus e).spans ρ = Relation.TransGen (e.spans ρ) := by intros; rfl
  repeated (e : Expr) (bounds : Bounds) :
    (t.repeated e bounds).spans ρ = ρ.repeated (e.spans ρ) bounds := by intros; rfl
  list (e : Expr) (separator : Literal) (op : ListOp) :
    (t.list e separator op).spans ρ = Span.list (e.spans ρ) (ρ.literal separator) op := by
      intros; rfl

namespace Transform
variable {t : Transform} {ρ : Reading}

/-- Replacing parts by what matches the same keeps what the whole matches. -/
theorem spans_apply (h : t.Keeps ρ) (e : Expr) : (t.apply e).spans ρ = e.spans ρ := by
  induction e with
  | name n => rw [apply, h.name, Expr.spans]
  | literal l => rw [apply, h.literal, Expr.spans]
  | seq es ih =>
    rw [apply, applyAll_eq_map, Expr.spans_sequence, Expr.rowSpans_map ih, Expr.spans]
  | alt es ih =>
    rw [apply, applyAll_eq_map, Expr.spans_choice, Expr.anySpans_map ih, Expr.spans]
  | optional e ih | star e ih | ahead e ih | notAhead e ih =>
    rw [apply, Expr.spans, ih, Expr.spans]
  | plus e ih => rw [apply, h.plus, ih, Expr.spans]
  | repeated e bounds ih => rw [apply, h.repeated, ih, Expr.spans]
  | list e separator op ih => rw [apply, h.list, ih, Expr.spans]

end Transform

/-- What names and literals match in a string of tokens. -/
structure Terminals (τ : Type*) where
  name : Text → List τ → Span
  literal : Literal → List τ → Span

/-- Whether so many rounds are within the bounds. A missing end bounds nothing. -/
def Bounds.Admit (bounds : Bounds) (k : Nat) : Prop :=
  (∀ min ∈ bounds.min, min.toNat ≤ k) ∧ ∀ max ∈ bounds.max, k ≤ max.toNat

namespace Terminals
variable {τ : Type*}

/-- Tokens are words, which match the names and the literals that are spelled like them. -/
def words : Terminals Text where
  name n tokens i j := tokens[i]? = some n ∧ j = i + 1
  literal l tokens i j := tokens[i]? = some l.body ∧ j = i + 1

/-- Counts count, and predicates look ahead and match the empty text. -/
def exactly (terminals : Terminals τ) (tokens : List τ) : Reading where
  name n := terminals.name n tokens
  literal l := terminals.literal l tokens
  repeated r bounds i j := ∃ k, bounds.Admit k ∧ r.times k i j
  ahead r i j := i = j ∧ ∃ k, r i k
  notAhead r i j := i = j ∧ ¬ ∃ k, r i k

/-- Counts are ignored, and predicates match the empty text wherever they stand. -/
def loosely (terminals : Terminals τ) (tokens : List τ) : Reading where
  name n := terminals.name n tokens
  literal l := terminals.literal l tokens
  repeated r _ := Relation.ReflTransGen r
  ahead _ := Eq
  notAhead _ := Eq

end Terminals
end ExtendedBnf
