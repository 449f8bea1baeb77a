import ExtendedBnf.Dialect
import ExtendedBnf.Proofs.Forms
import ExtendedBnf.Result

/-!
# What a target refuses to write

A target writes a tree unless a node of it is of a construct the target lacks. It names
the first such node, where a node comes before its parts and these come from left to
right, although it has written what stands before the node by then. A target that has
everything but lists, and that joins items by a space, writes trees as grammars do.
-/
namespace ExtendedBnf

/-- The construct of the node, if the target cannot write it. -/
def Dialect.lacking? (d : Dialect) : Expr → Option Construct
  | .repeated _ _ => if d.bounds then none else some .boundedRepetition
  | .ahead _ => if d.predicates then none else some .lookahead
  | .notAhead _ => if d.predicates then none else some .negativeLookahead
  | .list _ _ _ => some .separatedList
  | _ => none

/-- The target that has everything but lists, with a space between the items of a sequence. -/
def Dialect.grammar : Dialect := ⟨[' '], true, true⟩

namespace Expr

mutual
/-- The nodes of the tree, each before its parts and these from left to right. -/
def nodes : Expr → List Expr
  | name n => [name n]
  | literal l => [literal l]
  | seq es => seq es :: nodesOf es
  | alt es => alt es :: nodesOf es
  | optional e => optional e :: nodes e
  | star e => star e :: nodes e
  | plus e => plus e :: nodes e
  | repeated e bounds => repeated e bounds :: nodes e
  | ahead e => ahead e :: nodes e
  | notAhead e => notAhead e :: nodes e
  | list e separator op => list e separator op :: nodes e

/-- The nodes of the trees. -/
def nodesOf : List Expr → List Expr
  | [] => []
  | e :: es => nodes e ++ nodesOf es
end

theorem nodesOf_eq_flatMap (es : List Expr) : nodesOf es = es.flatMap nodes := by
  induction es with
  | nil => simp [nodesOf]
  | cons e es ih => simp [nodesOf, ih]

theorem nodes_eq (e : Expr) : e.nodes = e :: e.children.flatMap nodes := by
  cases e <;> simp [nodes, children, nodesOf_eq_flatMap]

theorem lacks_iff_forall_nodes {e : Expr} {f : Form} :
    e.Lacks f ↔ ∀ n ∈ e.nodes, n.form? ≠ some f := by
  induction e using children_induction with
  | step e ih =>
    rw [lacks_iff, nodes_eq, List.forall_mem_cons, List.forall_mem_flatMap]
    exact and_congr_right fun _ => forall₂_congr ih

/-- The construct of the first node that the target lacks. -/
def firstLacking? (d : Dialect) (e : Expr) : Option Construct := e.nodes.findSome? d.lacking?

section
variable {d : Dialect} {e : Expr} {es : List Expr} {c : Construct}

/-- A node comes before its parts. -/
theorem firstLacking?_of_lacking (h : d.lacking? e = some c) : e.firstLacking? d = some c := by
  rw [firstLacking?, nodes_eq, List.findSome?_cons, h]

theorem findSome?_flatMap_nodes (d : Dialect) (es : List Expr) :
    (es.flatMap nodes).findSome? d.lacking? = es.findSome? (firstLacking? d) := by
  induction es with
  | nil => rfl
  | cons e es ih =>
    rw [List.flatMap_cons, List.findSome?_append, ih, List.findSome?_cons, firstLacking?]
    cases e.nodes.findSome? d.lacking? <;> rfl

/-- The parts come one after the other. -/
theorem firstLacking?_of_has (h : d.lacking? e = none) (hchildren : e.children = es) :
    e.firstLacking? d = es.findSome? (firstLacking? d) := by
  rw [firstLacking?, nodes_eq, List.findSome?_cons, h, hchildren]
  exact findSome?_flatMap_nodes d es

section
variable {k : Construct} (hlacks : d.lacking? e = some k) (ht : e.textIn d = .error k)
include hlacks ht

theorem textIn_eq_error_iff_of_lacking : e.textIn d = .error c ↔ e.firstLacking? d = some c := by
  rw [ht, firstLacking?_of_lacking hlacks, Except.error.injEq, Option.some.injEq]

end

section
variable {b : Expr} {f : Text → Text} (hhas : d.lacking? e = none) (hchildren : e.children = [b])
  (ht : e.textIn d = (b.textIn d).map f)
  (hb : ∀ {c}, b.textIn d = .error c ↔ b.firstLacking? d = some c)
include hhas hchildren ht hb

theorem textIn_eq_error_iff_of_part : e.textIn d = .error c ↔ e.firstLacking? d = some c := by
  have hfirst : e.firstLacking? d = b.firstLacking? d := by
    rw [firstLacking?_of_has hhas hchildren, List.findSome?_cons]
    cases b.firstLacking? d <;> rfl
  rw [ht, map_eq_error, hfirst, hb]

end

/-- Writing stops at the first node that the target lacks. -/
theorem textIn_eq_error_iff : e.textIn d = .error c ↔ e.firstLacking? d = some c := by
  induction e generalizing c with
  | name n | literal l =>
    rw [textIn, firstLacking?_of_has rfl rfl]
    exact iff_of_false nofun nofun
  | seq es ih | alt es ih =>
    -- Parts are written in order, and the first that cannot be written ends it.
    rw [textIn, map_eq_error, operandTextsIn_eq_mapM, map_eq_error, firstLacking?_of_has rfl rfl]
    exact mapM_eq_error_iff fun e he c => ih e he
  | optional e ih | star e ih | plus e ih =>
    exact textIn_eq_error_iff_of_part rfl rfl (by rw [textIn]) ih
  | repeated e bounds ih =>
    by_cases hhas : d.bounds
    · exact textIn_eq_error_iff_of_part (if_pos hhas) rfl (by rw [textIn, if_pos hhas]) ih
    · exact textIn_eq_error_iff_of_lacking (if_neg hhas) (by rw [textIn, if_neg hhas])
  | ahead e ih | notAhead e ih =>
    by_cases hhas : d.predicates
    · exact textIn_eq_error_iff_of_part (if_pos hhas) rfl (by rw [textIn, if_pos hhas]) ih
    · exact textIn_eq_error_iff_of_lacking (if_neg hhas) (by rw [textIn, if_neg hhas])
  | list e separator op => exact textIn_eq_error_iff_of_lacking rfl (by rw [textIn])

end

/-- A target that has everything but lists writes as grammars do. -/
theorem textIn_grammar {e : Expr} (h : e.Lacks .list) : e.textIn .grammar = .ok e.text := by
  have hparts {es : List Expr} {least : Precedence}
      (hes : ∀ e ∈ es, e.textIn .grammar = .ok e.text) :
      operandTextsIn .grammar least es = .ok (operandTexts least es) := by
    rw [operandTextsIn_eq_mapM, mapM_eq_ok_map hes, operandTexts_eq_map]
    simp [Except.map, List.zipWith_map_right]
  induction e with
  | name n | literal l => rw [textIn, text]
  | seq es ih =>
    rw [textIn, hparts fun e he => ih e he (lacks_seq.1 h e he), text]
    rfl
  | alt es ih =>
    rw [textIn, hparts fun e he => ih e he ((lacks_alt.1 h).2 e he), text]
    rfl
  | optional e ih =>
    rw [textIn, ih (lacks_optional.1 h), text]
    rfl
  | star e ih =>
    rw [textIn, ih (lacks_star.1 h), text]
    rfl
  | plus e ih =>
    rw [textIn, ih (lacks_plus.1 h).2, text]
    rfl
  | repeated e bounds ih =>
    rw [textIn, ih (lacks_repeated.1 h).2, text]
    rfl
  | ahead e ih =>
    rw [textIn, ih (lacks_ahead.1 h).2, text]
    rfl
  | notAhead e ih =>
    rw [textIn, ih (lacks_notAhead.1 h).2, text]
    rfl
  | list e separator op => exact absurd rfl (lacks_list.1 h).1

/-- A target writes a tree just when it lacks none of its nodes, and else names the first one that
it lacks. Where it has everything, both ways of writing a tree without lists give one text. -/
theorem textIn_stops_at_first (e : Expr) :
    (∀ d : Dialect, ((∃ c, e.textIn d = .error c) ↔ ∃ n ∈ e.nodes, d.lacking? n ≠ none) ∧
      ∀ c, e.textIn d = .error c ↔ ∃ before n after, e.nodes = before ++ n :: after ∧
        d.lacking? n = some c ∧ ∀ m ∈ before, d.lacking? m = none) ∧
    (e.Lacks .list → e.textIn .grammar = .ok e.text) := by
  refine ⟨fun d => ⟨?_, fun c => ?_⟩, textIn_grammar⟩
  · simp only [textIn_eq_error_iff, firstLacking?, ← Option.ne_none_iff_exists', ne_eq,
      List.findSome?_eq_none_iff, Classical.not_forall, exists_prop]
  · rw [textIn_eq_error_iff, firstLacking?, List.findSome?_eq_some_iff]

/-- In `(!a{2})* &b` the negative lookahead comes first, and `(a*)+ | ()?` has parentheses around
what has one part or none. -/
theorem textIn_stops_at_first_nested :
    let twice : Expr := .repeated (.name ['a']) ⟨some 2, some 2⟩
    let e : Expr := .seq [.star (.notAhead twice), .ahead (.name ['b'])]
    let raw : Expr := .alt [.seq [.plus (.star (.name ['a']))], .optional (.seq [])]
    e.textIn ⟨[' '], false, false⟩ = .error .negativeLookahead ∧
      raw.Lacks .list ∧ raw.textIn .grammar = .ok "(a*)+ | ()?".toList := by
  intro twice e raw
  have hlist : raw.Lacks .list := by decide
  refine ⟨?_, hlist, (textIn_stops_at_first raw).2 hlist⟩
  exact ((textIn_stops_at_first e).1 _ |>.2 _).2
    ⟨[e, .star (.notAhead twice)], .notAhead twice, _, rfl, rfl, by decide⟩

end Expr
end ExtendedBnf
