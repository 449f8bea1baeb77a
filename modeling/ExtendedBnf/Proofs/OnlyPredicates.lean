import ExtendedBnf.Proofs.Forms

/-!
# Bodies of predicates alone

A target without predicates has nothing to write for a body that holds nothing else.
Such a body has no name, no literal and no list but below a predicate. Lowering lists,
`+` and bounds copies and moves parts of a body, but puts in no predicate and nothing in
place of one, so the question is settled by the body as it was read. A list always
leaves its separator, whatever its item is.
-/
namespace ExtendedBnf

namespace Expr

/-- Every part of the expression is in a predicate. A list is not, for its separator. -/
inductive OnlyPredicates : Expr → Prop
  | seq {es : List Expr} : (∀ e ∈ es, OnlyPredicates e) → OnlyPredicates (.seq es)
  | alt {es : List Expr} : (∀ e ∈ es, OnlyPredicates e) → OnlyPredicates (.alt es)
  | optional {e : Expr} : OnlyPredicates e → OnlyPredicates (.optional e)
  | star {e : Expr} : OnlyPredicates e → OnlyPredicates (.star e)
  | plus {e : Expr} : OnlyPredicates e → OnlyPredicates (.plus e)
  | repeated {e : Expr} (bounds : Bounds) : OnlyPredicates e → OnlyPredicates (.repeated e bounds)
  | ahead (e : Expr) : OnlyPredicates (.ahead e)
  | notAhead (e : Expr) : OnlyPredicates (.notAhead e)

section
variable {e : Expr} {es : List Expr}

@[simp] theorem not_onlyPredicates_name (n : Text) : ¬ (name n).OnlyPredicates := nofun

@[simp] theorem not_onlyPredicates_literal (l : Literal) : ¬ (literal l).OnlyPredicates := nofun

@[simp] theorem not_onlyPredicates_list (e : Expr) (separator : Literal) (op : ListOp) :
    ¬ (list e separator op).OnlyPredicates := nofun

@[simp] theorem onlyPredicates_ahead : (ahead e).OnlyPredicates := .ahead e

@[simp] theorem onlyPredicates_notAhead : (notAhead e).OnlyPredicates := .notAhead e

@[simp] theorem onlyPredicates_seq : (seq es).OnlyPredicates ↔ ∀ e ∈ es, e.OnlyPredicates :=
  ⟨fun | .seq h => h, .seq⟩

@[simp] theorem onlyPredicates_alt : (alt es).OnlyPredicates ↔ ∀ e ∈ es, e.OnlyPredicates :=
  ⟨fun | .alt h => h, .alt⟩

@[simp] theorem onlyPredicates_optional : (optional e).OnlyPredicates ↔ e.OnlyPredicates :=
  ⟨fun | .optional h => h, .optional⟩

@[simp] theorem onlyPredicates_star : (star e).OnlyPredicates ↔ e.OnlyPredicates :=
  ⟨fun | .star h => h, .star⟩

@[simp] theorem onlyPredicates_plus : (plus e).OnlyPredicates ↔ e.OnlyPredicates :=
  ⟨fun | .plus h => h, .plus⟩

@[simp] theorem onlyPredicates_repeated {bounds : Bounds} :
    (repeated e bounds).OnlyPredicates ↔ e.OnlyPredicates :=
  ⟨fun | .repeated _ h => h, .repeated bounds⟩

theorem forall_flatMap_iff {f : Expr → List Expr}
    (hf : ∀ e, (∀ i ∈ f e, i.OnlyPredicates) ↔ e.OnlyPredicates) :
    (∀ i ∈ es.flatMap f, i.OnlyPredicates) ↔ ∀ e ∈ es, e.OnlyPredicates :=
  List.forall_mem_flatMap.trans (forall₂_congr fun e _ => hf e)

/-- Splicing changes nothing. -/
@[simp] theorem onlyPredicates_sequence :
    (sequence es).OnlyPredicates ↔ ∀ e ∈ es, e.OnlyPredicates := by
  rw [sequence, ← forall_flatMap_iff (f := items) fun e => by cases e <;> simp [items]]
  split
  next h => simp [h]
  next => exact onlyPredicates_seq

@[simp] theorem onlyPredicates_choice :
    (choice es).OnlyPredicates ↔ ∀ e ∈ es, e.OnlyPredicates := by
  rw [choice, ← forall_flatMap_iff (f := alternatives) fun e => by cases e <;> simp [alternatives]]
  split
  next h => simp [h]
  next => exact onlyPredicates_alt

end

/-- A transform changes nothing about it if what it puts in does not. -/
theorem onlyPredicates_apply {t : Transform} (hname : t.name = .name)
    (hliteral : t.literal = .literal)
    (hplus : ∀ e, (t.plus e).OnlyPredicates ↔ e.OnlyPredicates)
    (hrepeated : ∀ e bounds, (t.repeated e bounds).OnlyPredicates ↔ e.OnlyPredicates)
    (hlist : ∀ e separator op, ¬ (t.list e separator op).OnlyPredicates) {e : Expr} :
    (t.apply e).OnlyPredicates ↔ e.OnlyPredicates := by
  induction e with
  | name n => simp [Transform.apply, hname]
  | literal l => simp [Transform.apply, hliteral]
  | seq es ih => simpa [Transform.apply] using forall₂_congr ih
  | alt es ih => simpa [Transform.apply] using forall₂_congr ih
  | optional e ih | star e ih => simp [Transform.apply, ih]
  | plus e ih => simp [Transform.apply, hplus, ih]
  | repeated e bounds ih => simp [Transform.apply, hrepeated, ih]
  | ahead e | notAhead e => simp [Transform.apply]
  | list e separator op => simp [Transform.apply, hlist]

theorem not_onlyPredicates_spelledOut (item : Expr) (separator : Literal) (op : ListOp) :
    ¬ (spelledOut item separator op).OnlyPredicates := by
  unfold spelledOut
  split_ifs <;> simp

theorem onlyPredicates_withoutLists {e : Expr} :
    e.withoutLists.OnlyPredicates ↔ e.OnlyPredicates :=
  onlyPredicates_apply rfl rfl (by simp) (by simp) not_onlyPredicates_spelledOut

theorem onlyPredicates_withoutPlus {e : Expr} :
    e.withoutPlus.OnlyPredicates ↔ e.OnlyPredicates :=
  onlyPredicates_apply rfl rfl (by simp) (by simp) (by simp)

theorem onlyPredicates_withoutBounds {e : Expr} :
    e.withoutBounds.OnlyPredicates ↔ e.OnlyPredicates :=
  onlyPredicates_apply rfl rfl (by simp) (by simp) (by simp)

/-- Where lists are spelled out, nothing is left just if there is nothing but predicates. -/
theorem withoutPredicates_eq_none_iff {e : Expr} (h : e.Lacks .list) :
    e.withoutPredicates = none ↔ e.OnlyPredicates := by
  have hkept {es : List Expr} (hes : ∀ e ∈ es, e.withoutPredicates = none ↔ e.OnlyPredicates) :
      es.filterMap withoutPredicates = [] ↔ ∀ e ∈ es, e.OnlyPredicates :=
    List.filterMap_eq_nil_iff.trans (forall₂_congr hes)
  induction e with
  | name n | literal l => simp [withoutPredicates]
  | seq es ih =>
    rw [onlyPredicates_seq, ← hkept fun e he => ih e he (lacks_seq.1 h e he), withoutPredicates,
      withoutPredicatesAll_eq_map, List.filterMap_map, Function.id_comp]
    split
    next hnone => exact iff_of_true rfl hnone
    next hsome => exact iff_of_false (Option.some_ne_none _) hsome
  | alt es ih =>
    rw [onlyPredicates_alt, ← hkept fun e he => ih e he ((lacks_alt.1 h).2 e he),
      withoutPredicates, withoutPredicatesAll_eq_map, List.filterMap_map, Function.id_comp]
    split
    next hnone => exact iff_of_true rfl hnone
    next hsome => split <;> exact iff_of_false (Option.some_ne_none _) hsome
  | optional e ih => simpa [withoutPredicates] using ih (lacks_optional.1 h)
  | star e ih => simpa [withoutPredicates] using ih (lacks_star.1 h)
  | plus e ih => simpa [withoutPredicates] using ih (lacks_plus.1 h).2
  | repeated e bounds ih => simpa [withoutPredicates] using ih (lacks_repeated.1 h).2
  | ahead e | notAhead e => simp [withoutPredicates]
  | list e separator op => exact absurd rfl (lacks_list.1 h).1

/-- The node `n` stands in the tree below the nodes `above`, from the outermost on. -/
inductive Holds : Expr → List Expr → Expr → Prop
  | root (e : Expr) : Holds e [] e
  | part {e c n : Expr} {above : List Expr} : c ∈ e.children → Holds c above n →
      Holds e (e :: above) n

def isPredicate : Expr → Bool
  | ahead _ | notAhead _ => true
  | _ => false

/-- Whether the node is a name, a literal or a list. -/
def isLasting : Expr → Bool
  | name _ | literal _ | list _ _ _ => true
  | _ => false

/-- Every name, every literal and every list of the tree stands below a predicate. -/
def Covered (e : Expr) : Prop :=
  ∀ above n, e.Holds above n → n.isLasting → ∃ p ∈ above, p.isPredicate

theorem covered_of_isPredicate {e : Expr} (h : e.isPredicate) : e.Covered := by
  intro above n hn hlasting
  cases hn with
  | root =>
    cases e with
    | ahead | notAhead => cases hlasting
    | _ => cases h
  | part => exact ⟨e, List.mem_cons_self, h⟩

/-- Any other node covers nothing itself, so its parts have to be covered. -/
theorem covered_iff {e : Expr} (h : e.isPredicate = false) :
    e.Covered ↔ e.isLasting = false ∧ ∀ c ∈ e.children, c.Covered := by
  constructor
  · refine fun hall => ⟨?_, fun c hc above n hn hlasting => ?_⟩
    · rw [← Bool.not_eq_true]
      intro hlasting
      obtain ⟨p, hp, -⟩ := hall [] e (.root e) hlasting
      cases hp
    · obtain ⟨p, hp, hpredicate⟩ := hall _ n (.part hc hn) hlasting
      rcases List.mem_cons.1 hp with rfl | hp
      · cases h.symm.trans hpredicate
      · exact ⟨p, hp, hpredicate⟩
  · rintro ⟨hroot, hparts⟩ above n hn hlasting
    cases hn with
    | root => cases hroot.symm.trans hlasting
    | part hc hn =>
      obtain ⟨p, hp, hpredicate⟩ := hparts _ hc _ n hn hlasting
      exact ⟨p, List.mem_cons_of_mem e hp, hpredicate⟩

theorem covered_iff_onlyPredicates {e : Expr} : e.Covered ↔ e.OnlyPredicates := by
  induction e with
  | name n | literal l | list e separator op =>
    rw [covered_iff rfl]
    simp [isLasting]
  | seq es ih | alt es ih =>
    rw [covered_iff rfl]
    simpa [isLasting, children] using forall₂_congr ih
  | optional e ih | star e ih | plus e ih | repeated e bounds ih =>
    rw [covered_iff rfl]
    simp [isLasting, children, ih]
  | ahead e => exact iff_of_true (covered_of_isPredicate rfl) (.ahead e)
  | notAhead e => exact iff_of_true (covered_of_isPredicate rfl) (.notAhead e)

end Expr

namespace Rule
variable {r : Rule} {l : Lowering}

/-- Lowering fails just where predicates are dropped from a body of predicates alone. -/
theorem lower_eq_error_iff {fault : Fault} :
    r.lower l = .error fault ↔ l.predicates ∧ r.body.OnlyPredicates ∧
      fault = .malformedRule (some r.name) 0 .onlyPredicates := by
  let spelled := r.body.withoutLists
  let expanded := if l.plus then spelled.withoutPlus else spelled
  let lowered := if l.bounds then expanded.withoutBounds else expanded
  -- Lists are gone before predicates are dropped, and no pass in between puts one in.
  have hspelled : spelled.Lacks .list := Expr.lacks_withoutLists (.inl rfl)
  have hexpanded : expanded.Lacks .list := by
    unfold expanded
    split
    · exact Expr.lacks_withoutPlus (.inr hspelled)
    · exact hspelled
  have hlowered : lowered.Lacks .list := by
    unfold lowered
    split
    · exact Expr.lacks_withoutBounds (.inr hexpanded)
    · exact hexpanded
  have honly : lowered.OnlyPredicates ↔ r.body.OnlyPredicates := by
    unfold lowered expanded spelled
    split_ifs <;> simp only [Expr.onlyPredicates_withoutBounds, Expr.onlyPredicates_withoutPlus,
      Expr.onlyPredicates_withoutLists]
  rw [← honly, ← Expr.withoutPredicates_eq_none_iff hlowered]
  change (if l.predicates then _ else _) = _ ↔ _
  split
  next hdrops =>
    cases hbody : lowered.withoutPredicates with
    | none => simp [hdrops, eq_comm]
    | some body => simp
  next hkeeps => simp [hkeeps]

/-- Lowering fails just where predicates are dropped and each name, literal and list of the body
stands below one. So a list that stands below none lets the rule be lowered, whatever its item. -/
theorem lower_fails_iff (r : Rule) (l : Lowering) :
    ((∃ fault, r.lower l = .error fault) ↔ l.predicates ∧
      ∀ above n, r.body.Holds above n → n.isLasting → ∃ p ∈ above, p.isPredicate) ∧
    (∀ fault, r.lower l = .error fault → fault = .malformedRule (some r.name) 0 .onlyPredicates) ∧
    ∀ above item separator op, r.body.Holds above (.list item separator op) →
      (∀ p ∈ above, p.isPredicate = false) → ∃ lowered, r.lower l = .ok lowered := by
  have hiff {fault : Fault} : r.lower l = .error fault ↔ l.predicates ∧ r.body.OnlyPredicates ∧
      fault = .malformedRule (some r.name) 0 .onlyPredicates := lower_eq_error_iff
  rw [← Expr.covered_iff_onlyPredicates] at hiff
  refine ⟨⟨?_, ?_⟩, fun fault h => (hiff.1 h).2.2, ?_⟩
  · rintro ⟨fault, h⟩
    exact ⟨(hiff.1 h).1, (hiff.1 h).2.1⟩
  · rintro ⟨hdrops, hcovered⟩
    exact ⟨_, hiff.2 ⟨hdrops, hcovered, rfl⟩⟩
  · intro above item separator op hlist hfree
    cases h : r.lower l with
    | ok lowered => exact ⟨lowered, rfl⟩
    | error fault =>
      obtain ⟨p, hp, hpredicate⟩ := (hiff.1 h).2.1 above _ hlist rfl
      cases (hfree p hp).symm.trans hpredicate

/-- In `r ::= &a % ',' + !b` the separator is left. -/
theorem lower_fails_iff_predicate_item :
    let item : Expr := .ahead (.name ['a'])
    let comma : Literal := ⟨[','], .single⟩
    let r : Rule := ⟨['r'], .seq [.list item comma ⟨true, false⟩, .notAhead (.name ['b'])], false⟩
    r.body.Holds [r.body] (.list item comma ⟨true, false⟩) ∧
      (∀ p ∈ [r.body], p.isPredicate = false) ∧
      ∃ lowered, r.lower ⟨true, true, true⟩ = .ok lowered := by
  intro item comma r
  have hlist : r.body.Holds [r.body] (.list item comma ⟨true, false⟩) :=
    .part List.mem_cons_self (.root _)
  have hfree : ∀ p ∈ [r.body], p.isPredicate = false := List.forall_mem_singleton.2 rfl
  exact ⟨hlist, hfree, (lower_fails_iff r ⟨true, true, true⟩).2.2 _ _ _ _ hlist hfree⟩

end Rule
end ExtendedBnf
