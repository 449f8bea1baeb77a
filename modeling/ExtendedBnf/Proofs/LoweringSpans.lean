import ExtendedBnf.Conversion
import ExtendedBnf.Proofs.Forms
import ExtendedBnf.Proofs.Spans

/-!
# Lowering and what rules match

Spelling lists and `+` out keeps the spans of an expression however the rest is
read, so a rule lowered for pest matches exactly what it matched. Lowering for
node grammars drops counts and predicates. What it keeps is the reading in which
counts are ignored and predicates match the empty text.
-/
namespace ExtendedBnf
open Relation

namespace Expr
variable {ρ : Reading}

theorem rowSpans_pair (e f : Expr) : rowSpans ρ [e, f] = Comp (e.spans ρ) (f.spans ρ) := by
  rw [rowSpans, rowSpans_singleton]

/-- A list in plain repetition matches what the list matches. -/
theorem spans_spelledOut (item : Expr) (separator : Literal) (op : ListOp) :
    (spelledOut item separator op).spans ρ =
      Span.list (item.spans ρ) (ρ.literal separator) op := by
  have hpairs : (star (sequence [item, literal separator])).spans ρ =
      ReflTransGen (Comp (item.spans ρ) (ρ.literal separator)) := by
    rw [spans, spans_sequence, rowSpans_pair, spans]
  have hlast : (sequence [item, optional (literal separator)]).spans ρ =
      Comp (item.spans ρ) (ReflGen (ρ.literal separator)) := by
    rw [spans_sequence, rowSpans_pair, spans, spans]
  rw [Span.list_eq]
  unfold spelledOut
  split_ifs with hfinal hone hone
  · rw [spans_sequence, rowSpans_pair, hpairs, hlast]
  · rw [spans_sequence, rowSpans_pair, hpairs, spans, hlast, Span.comp_star_reflGen]
  · rw [spans_sequence, rowSpans_pair, hpairs]
  · rw [spans, spans_sequence, rowSpans_pair, hpairs]

theorem keeps_spelledOut : Transform.Keeps { list := spelledOut } ρ :=
  { list := spans_spelledOut }

theorem keeps_plus : Transform.Keeps { plus := fun e => sequence [e, star e] } ρ :=
  { plus := fun e => by rw [spans_sequence, rowSpans_pair, spans, Span.plus_eq_comp_star] }

theorem keeps_bounds (h : ∀ r bounds, ρ.repeated r bounds = ReflTransGen r) :
    Transform.Keeps { repeated := fun e _ => star e } ρ :=
  { repeated := fun e bounds => by rw [spans, h] }

/-- Writing every `+` out keeps the spans however the rest is read. -/
theorem spans_lowered_plus (plus : Bool) (e : Expr) :
    (if plus then e.withoutLists.withoutPlus else e.withoutLists).spans ρ = e.spans ρ := by
  split_ifs
  · rw [withoutPlus, Transform.spans_apply keeps_plus, withoutLists,
      Transform.spans_apply keeps_spelledOut]
  · rw [withoutLists, Transform.spans_apply keeps_spelledOut]

/-- The spans of what is left of an expression. Nothing left matches the empty text. -/
def spansOfRest (ρ : Reading) : Option Expr → Span
  | some e => e.spans ρ
  | none => Eq

theorem spansOfRest_map {build : Expr → Expr} {iterate : Span → Span}
    (hbuild : ∀ e, (build e).spans ρ = iterate (e.spans ρ)) (hempty : iterate Eq = Eq)
    (rest : Option Expr) : spansOfRest ρ (rest.map build) = iterate (spansOfRest ρ rest) := by
  cases rest with
  | none => exact hempty.symm
  | some e => exact hbuild e

section
variable {es : List Expr}
  (h : ∀ e ∈ es, spansOfRest ρ e.withoutPredicates = e.spans ρ)
include h

/-- Items of which nothing is left match nothing in a row. -/
theorem rowSpans_filterMap_withoutPredicates :
    rowSpans ρ (es.filterMap withoutPredicates) = rowSpans ρ es := by
  induction es with
  | nil => rfl
  | cons e es ih =>
    have he := h e List.mem_cons_self
    have hes := ih fun x hx => h x (List.mem_cons_of_mem e hx)
    rw [rowSpans, ← hes, ← he]
    cases hrest : e.withoutPredicates with
    | none => rw [List.filterMap_cons_none hrest, spansOfRest, eq_comp]
    | some k => rw [List.filterMap_cons_some hrest, spansOfRest, rowSpans]

/-- An alternative of which nothing is left matches the empty text. -/
theorem anySpans_iff_filterMap_withoutPredicates {i j : Nat} :
    anySpans ρ es i j ↔ anySpans ρ (es.filterMap withoutPredicates) i j ∨
      i = j ∧ ∃ e ∈ es, e.withoutPredicates = none := by
  simp only [anySpans_iff, List.mem_filterMap]
  constructor
  · rintro ⟨e, he, hij⟩
    rw [← h e he] at hij
    cases hrest : e.withoutPredicates with
    | none => rw [hrest] at hij; exact .inr ⟨hij, e, he, hrest⟩
    | some k => rw [hrest] at hij; exact .inl ⟨k, ⟨e, he, hrest⟩, hij⟩
  · rintro (⟨k, ⟨e, he, hrest⟩, hij⟩ | ⟨rfl, e, he, hrest⟩)
    · exact ⟨e, he, by rw [← h e he, hrest]; exact hij⟩
    · exact ⟨e, he, by rw [← h e he, hrest]; rfl⟩

/-- A choice that loses an alternative can match the empty text instead. -/
theorem spansOfRest_withoutPredicates_alt (hne : es ≠ []) :
    spansOfRest ρ (alt es).withoutPredicates = (alt es).spans ρ := by
  ext i j
  rw [spans, anySpans_iff_filterMap_withoutPredicates h, withoutPredicates,
    withoutPredicatesAll_eq_map, List.filterMap_map, Function.id_comp]
  split
  next hnone =>
    obtain ⟨e, he⟩ := List.exists_mem_of_ne_nil es hne
    have hrest : e.withoutPredicates = none := List.filterMap_eq_nil_iff.1 hnone e he
    rw [hnone, spansOfRest, anySpans, false_or]
    exact (and_iff_left ⟨e, he, hrest⟩).symm
  next =>
    split
    next hany =>
      obtain ⟨e, he, hrest⟩ : ∃ e ∈ es, e.withoutPredicates = none := by simpa using hany
      rw [spansOfRest, spans, spans_choice, reflGen_iff, eq_comm (a := j), or_comm]
      exact or_congr_right (and_iff_left ⟨e, he, hrest⟩).symm
    next hall =>
      have hsome : ¬ ∃ e ∈ es, e.withoutPredicates = none := by simpa using hall
      rw [spansOfRest, spans_choice]
      exact (or_iff_left fun hempty => hsome hempty.2).symm

end

section
variable {τ : Type*} (terminals : Terminals τ) (tokens : List τ) {e : Expr}

/-- Dropping predicates keeps the loose spans of an expression without lists and empty choices. -/
theorem spansOfRest_withoutPredicates (hlist : e.Lacks .list)
    (hempty : e.Lacks .emptyChoice) :
    spansOfRest (terminals.loosely tokens) e.withoutPredicates =
      e.spans (terminals.loosely tokens) := by
  induction e with
  | name n | literal l => rw [withoutPredicates, spansOfRest]
  | seq es ih =>
    rw [lacks_seq] at hlist hempty
    have hes := rowSpans_filterMap_withoutPredicates
      fun e he => ih e he (hlist e he) (hempty e he)
    rw [spans, ← hes, withoutPredicates, withoutPredicatesAll_eq_map, List.filterMap_map,
      Function.id_comp]
    split
    next hnone => rw [hnone, spansOfRest, rowSpans]
    next => rw [spansOfRest, spans_sequence]
  | alt es ih =>
    rw [lacks_alt] at hlist hempty
    have hes : ∀ e ∈ es, spansOfRest (terminals.loosely tokens) e.withoutPredicates =
        e.spans (terminals.loosely tokens) :=
      fun e he => ih e he (hlist.2 e he) (hempty.2 e he)
    have hne : es ≠ [] := fun hnil => hempty.1 hnil rfl
    exact spansOfRest_withoutPredicates_alt hes hne
  | optional e ih =>
    rw [lacks_optional] at hlist hempty
    rw [withoutPredicates, spansOfRest_map (fun e => by rw [spans]) Span.reflGen_eq,
      ih hlist hempty, spans]
  | star e ih =>
    rw [lacks_star] at hlist hempty
    rw [withoutPredicates, spansOfRest_map (fun e => by rw [spans]) Span.reflTransGen_eq,
      ih hlist hempty, spans]
  | plus e ih =>
    rw [lacks_plus] at hlist hempty
    rw [withoutPredicates, spansOfRest_map (fun e => by rw [spans]) Span.transGen_eq,
      ih hlist.2 hempty.2, spans]
  | repeated e bounds ih =>
    rw [lacks_repeated] at hlist hempty
    rw [withoutPredicates, spansOfRest_map (fun e => by rw [spans]; rfl) Span.reflTransGen_eq,
      ih hlist.2 hempty.2, spans]
    rfl
  | ahead e | notAhead e =>
    rw [withoutPredicates, spans]
    rfl
  | list e separator op => exact absurd rfl (lacks_list.1 hlist).1

/-- Both readings agree where there is nothing they read differently. -/
theorem spans_loosely_eq_exactly (hrepeated : e.Lacks .repeated)
    (hahead : e.Lacks .ahead) (hnotAhead : e.Lacks .notAhead) :
    e.spans (terminals.loosely tokens) = e.spans (terminals.exactly tokens) := by
  induction e with
  | name n | literal l => rfl
  | seq es ih =>
    rw [lacks_seq] at hrepeated hahead hnotAhead
    rw [spans, spans]
    exact rowSpans_congr fun e he => ih e he (hrepeated e he) (hahead e he) (hnotAhead e he)
  | alt es ih =>
    rw [lacks_alt] at hrepeated hahead hnotAhead
    rw [spans, spans]
    exact anySpans_congr fun e he =>
      ih e he (hrepeated.2 e he) (hahead.2 e he) (hnotAhead.2 e he)
  | optional e ih =>
    rw [lacks_optional] at hrepeated hahead hnotAhead
    rw [spans, spans, ih hrepeated hahead hnotAhead]
  | star e ih =>
    rw [lacks_star] at hrepeated hahead hnotAhead
    rw [spans, spans, ih hrepeated hahead hnotAhead]
  | plus e ih =>
    rw [lacks_plus] at hrepeated hahead hnotAhead
    rw [spans, spans, ih hrepeated.2 hahead.2 hnotAhead.2]
  | repeated e bounds => exact absurd rfl (lacks_repeated.1 hrepeated).1
  | ahead e => exact absurd rfl (lacks_ahead.1 hahead).1
  | notAhead e => exact absurd rfl (lacks_notAhead.1 hnotAhead).1
  | list e separator op ih =>
    rw [lacks_list] at hrepeated hahead hnotAhead
    rw [spans, spans, ih hrepeated.2 hahead.2 hnotAhead.2]
    rfl

end

end Expr

/-- A rule lowered for pest matches exactly what it matched before. -/
theorem Rule.spans_lower_pest (r : Rule) (expandPlus : Bool) :
    ∃ lowered, r.lower (Target.pest.lowering expandPlus) = .ok lowered ∧
      ∀ {τ : Type*} (terminals : Terminals τ) (tokens : List τ),
        lowered.body.spans (terminals.exactly tokens) =
          r.body.spans (terminals.exactly tokens) := by
  refine ⟨{ r with body := if expandPlus then r.body.withoutLists.withoutPlus
    else r.body.withoutLists }, rfl, ?_⟩
  intro τ terminals tokens
  exact Expr.spans_lowered_plus expandPlus r.body

/-- A rule lowered for node grammars matches exactly what it matched when counts are ignored and
predicates match the empty text. Nothing is left that is to be read in this way. -/
theorem Rule.spans_lower_ungram {r lowered : Rule} (expandPlus : Bool)
    (hr : r.body.Lacks .emptyChoice)
    (h : r.lower (Target.ungram.lowering expandPlus) = .ok lowered)
    {τ : Type*} (terminals : Terminals τ) (tokens : List τ) :
    lowered.body.spans (terminals.loosely tokens) = r.body.spans (terminals.loosely tokens) ∧
      lowered.body.spans (terminals.exactly tokens) =
        r.body.spans (terminals.loosely tokens) := by
  obtain ⟨body, hbody, rfl⟩ := Rule.lower_ungram_eq_ok_iff.1 h
  have hlacks {f : Form} := Expr.lacks_lowered (e := r.body) (f := f)
  have hloose : body.spans (terminals.loosely tokens) =
      r.body.spans (terminals.loosely tokens) := by
    have hrest := Expr.spansOfRest_withoutPredicates terminals tokens
      (hlacks (.inl rfl)) (hlacks (.inr (.inr (.inr hr))))
    rw [hbody, Expr.spansOfRest] at hrest
    rw [hrest, Expr.withoutBounds, Transform.spans_apply (Expr.keeps_bounds fun _ _ => rfl)]
    exact Expr.spans_lowered_plus true r.body
  have hexact := Expr.spans_loosely_eq_exactly terminals tokens
    (Expr.lacks_withoutPredicates (.inr (hlacks (.inr (.inr (.inl rfl))))) hbody)
    (Expr.lacks_withoutPredicates (.inl rfl) hbody)
    (Expr.lacks_withoutPredicates (.inl rfl) hbody)
  exact ⟨hloose, hexact.symm.trans hloose⟩

/-- `a ::= &x | y{2, }` becomes `a ::= (y*)?`. -/
theorem Rule.spans_lower_ungram_lookahead :
    let body : Expr := .alt [.ahead (.name ['x']), .repeated (.name ['y']) ⟨some 2, none⟩]
    let r : Rule := ⟨['a'], body, false⟩
    let lowered : Rule := ⟨['a'], .optional (.star (.name ['y'])), false⟩
    r.body.Lacks .emptyChoice ∧ r.lower (Target.ungram.lowering false) = .ok lowered ∧
      lowered.body.spans (Terminals.words.loosely [['y'], ['x']]) =
        r.body.spans (Terminals.words.loosely [['y'], ['x']]) ∧
      lowered.body.spans (Terminals.words.exactly [['y'], ['x']]) =
        r.body.spans (Terminals.words.loosely [['y'], ['x']]) :=
  ⟨by decide, rfl, Rule.spans_lower_ungram false (by decide) rfl Terminals.words [['y'], ['x']]⟩

end ExtendedBnf
