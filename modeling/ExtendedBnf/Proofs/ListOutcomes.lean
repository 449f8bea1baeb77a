import ExtendedBnf.Lowering
import ExtendedBnf.Proofs.Outcomes

/-!
# Separated lists as pest parses them

A list in plain repetition takes pairs of an item and a separator as long as there
are any. Where a list ends with a separator the last item is in such a pair, so the
form for `...+`, which asks for an item behind the pairs, fails there. All other
lists of single tokens are parsed whole.
-/
namespace ExtendedBnf
open Relation

namespace Span

/-- Matches as long as there are any. -/
def greedy (r : Span) : Span := fun i j => ReflTransGen r i j ∧ ¬ ∃ k, r j k

/-- A match if there is one. -/
def attempt (r : Span) : Span := fun i j => r i j ∨ (¬ ∃ k, r i k) ∧ i = j

/-- From no position there are two matches. -/
def Functional (r : Span) : Prop := ∀ ⦃i j k⦄, r i j → r i k → j = k

/-- A match takes something, and ends at `size` or before. -/
def Advances (r : Span) (size : Nat) : Prop := ∀ ⦃i j⦄, r i j → i < j ∧ j ≤ size

section
variable {r s : Span} {size : Nat}

theorem Functional.comp (hr : r.Functional) (hs : s.Functional) :
    Functional (Comp r s) := by
  rintro i j k ⟨m, him, hmj⟩ ⟨n, hin, hnk⟩
  cases hr him hin
  exact hs hmj hnk

theorem Advances.comp (hr : r.Advances size) (hs : s.Advances size) :
    Advances (Comp r s) size := by
  rintro i j ⟨k, hik, hkj⟩
  have hi := hr hik
  have hk := hs hkj
  omega

theorem Functional.greedy (hr : r.Functional) : Functional r.greedy := by
  rintro i j k ⟨hij, hj⟩ ⟨hik, hk⟩
  induction hij using ReflTransGen.head_induction_on with
  | refl =>
    obtain rfl | ⟨m, him, _⟩ := hik.cases_head
    · rfl
    · exact absurd ⟨m, him⟩ hj
  | head him _ ih =>
    obtain rfl | ⟨n, hin, hnk⟩ := hik.cases_head
    · exact absurd ⟨_, him⟩ hk
    · cases hr him hin
      exact ih hnk

theorem Functional.attempt (hr : r.Functional) : Functional r.attempt := by
  rintro i j k (hij | ⟨hj, rfl⟩) (hik | ⟨hk, rfl⟩)
  · exact hr hij hik
  · exact absurd ⟨j, hij⟩ hk
  · exact absurd ⟨k, hik⟩ hj
  · rfl

/-- Matches that advance come to an end. -/
theorem Advances.exists_greedy (hr : r.Advances size) (i : Nat) : ∃ j, r.greedy i j := by
  by_cases h : ∃ j, r i j
  · obtain ⟨j, hij⟩ := h
    have hlt := hr hij
    obtain ⟨k, hjk, hend⟩ := hr.exists_greedy j
    exact ⟨k, .head hij hjk, hend⟩
  · exact ⟨i, .refl, h⟩
termination_by size - i

theorem Advances.not_from_end (hr : r.Advances size) : ¬ ∃ j, r size j := by
  rintro ⟨j, hj⟩
  have := hr hj
  omega

end

/-- What a parser takes of a list in plain repetition. -/
def parsedList (item separator : Span) (op : ListOp) : Span :=
  let pairs := greedy (Comp item separator)
  if op.finalSeparator then
    let last := Comp item separator.attempt
    Comp pairs (if op.atLeastOne then last else attempt last)
  else
    let items := Comp pairs item
    if op.atLeastOne then items else attempt items

theorem Functional.parsedList {r s : Span} (hr : r.Functional) (hs : s.Functional) (op : ListOp) :
    Functional (parsedList r s op) := by
  have hpairs := (hr.comp hs).greedy
  have hlast := hr.comp hs.attempt
  unfold Span.parsedList
  split_ifs
  · exact hpairs.comp hlast
  · exact hpairs.comp hlast.attempt
  · exact hpairs.comp hr
  · exact (hpairs.comp hr).attempt

section
variable {r s : Span} {size : Nat} (hr : r.Functional) (hrsize : r.Advances size)
  (hssize : s.Advances size)
include hr hssize

/-- The last item is in no pair. -/
theorem greedy_of_last {k : Nat} (hpairs : ReflTransGen (Comp r s) 0 k) (hlast : r k size) :
    greedy (Comp r s) 0 k := by
  refine ⟨hpairs, ?_⟩
  rintro ⟨j, m, hkm, hmj⟩
  cases hr hlast hkm
  exact hssize.not_from_end ⟨j, hmj⟩

theorem comp_greedy_iff :
    Comp (greedy (Comp r s)) r 0 size ↔ Comp (ReflTransGen (Comp r s)) r 0 size := by
  constructor
  · rintro ⟨k, hpairs, hlast⟩
    exact ⟨k, hpairs.1, hlast⟩
  · rintro ⟨k, hpairs, hlast⟩
    exact ⟨k, greedy_of_last hr hssize hpairs hlast, hlast⟩

/-- The pairs take the last item where a separator follows it. -/
theorem comp_greedy_last_iff (hrs : ∀ ⦃i j k⦄, r i k → ¬ s j k) :
    Comp (greedy (Comp r s)) (Comp r s.attempt) 0 size ↔
      Comp (ReflTransGen (Comp r s)) (Comp r (ReflGen s)) 0 size ∧ ¬ ∃ k, s k size := by
  constructor
  · rintro ⟨k, ⟨hpairs, hend⟩, m, hkm, hm⟩
    obtain hm | ⟨_, rfl⟩ := hm
    · exact absurd ⟨size, m, hkm, hm⟩ hend
    · exact ⟨⟨k, hpairs, m, hkm, .refl⟩, fun ⟨j, hj⟩ => hrs hkm hj⟩
  · rintro ⟨⟨k, hpairs, m, hkm, hm⟩, hnone⟩
    cases hm with
    | single hm => exact absurd ⟨m, hm⟩ hnone
    | refl =>
      exact ⟨k, greedy_of_last hr hssize hpairs hkm, size, hkm, .inr ⟨hssize.not_from_end, rfl⟩⟩

include hrsize

theorem attempt_comp_greedy_iff :
    attempt (Comp (greedy (Comp r s)) r) 0 size ↔
      ReflGen (Comp (ReflTransGen (Comp r s)) r) 0 size := by
  rw [reflGen_iff, attempt, comp_greedy_iff hr hssize]
  constructor
  · rintro (hlast | ⟨_, hnil⟩)
    · exact .inr hlast
    · exact .inl hnil.symm
  · rintro (hnil | hlast)
    · refine .inr ⟨?_, hnil.symm⟩
      rintro ⟨j, k, ⟨hpairs, _⟩, hkj⟩
      obtain rfl | ⟨m, hm, _⟩ := hpairs.cases_head
      · exact hrsize.not_from_end ⟨j, hnil ▸ hkj⟩
      · exact (hrsize.comp hssize).not_from_end ⟨m, hnil ▸ hm⟩
    · exact .inl hlast

/-- After all pairs there may be nothing. -/
theorem comp_greedy_attempt_iff :
    Comp (greedy (Comp r s)) (attempt (Comp r s.attempt)) 0 size ↔
      Comp (ReflTransGen (Comp r s)) (ReflGen (Comp r (ReflGen s))) 0 size := by
  constructor
  · rintro ⟨k, ⟨hpairs, hend⟩, ⟨m, hkm, hm⟩ | ⟨_, rfl⟩⟩
    · obtain hm | ⟨_, rfl⟩ := hm
      · exact absurd ⟨size, m, hkm, hm⟩ hend
      · exact ⟨k, hpairs, .single ⟨m, hkm, .refl⟩⟩
    · exact ⟨k, hpairs, .refl⟩
  · have hall (hpairs : ReflTransGen (Comp r s) 0 size) :
        Comp (greedy (Comp r s)) (attempt (Comp r s.attempt)) 0 size := by
      refine ⟨size, ⟨hpairs, (hrsize.comp hssize).not_from_end⟩, .inr ⟨?_, rfl⟩⟩
      rintro ⟨j, m, hm, _⟩
      exact hrsize.not_from_end ⟨m, hm⟩
    rintro ⟨k, hpairs, hlast⟩
    cases hlast with
    | refl => exact hall hpairs
    | single hlast =>
      obtain ⟨m, hkm, hm⟩ := hlast
      cases hm with
      | single hm => exact hall (hpairs.tail ⟨m, hkm, hm⟩)
      | refl =>
        exact ⟨k, greedy_of_last hr hssize hpairs hkm,
          .inl ⟨size, hkm, .inr ⟨hssize.not_from_end, rfl⟩⟩⟩

/-- A list is parsed whole, unless it is one for `...+` that ends with a separator. -/
theorem parsedList_iff (hrs : ∀ ⦃i j k⦄, r i k → ¬ s j k) (op : ListOp) :
    parsedList r s op 0 size ↔
      list r s op 0 size ∧ (op.atLeastOne → op.finalSeparator → ¬ ∃ k, s k size) := by
  obtain ⟨_ | _, _ | _⟩ := op
  · simp [parsedList, list_eq, attempt_comp_greedy_iff hr hrsize hssize]
  · simp [parsedList, list_eq, comp_greedy_attempt_iff hr hrsize hssize, comp_star_reflGen]
  · simp [parsedList, list_eq, comp_greedy_iff hr hssize]
  · simp [parsedList, list_eq, comp_greedy_last_iff hr hssize hrs]

end

section
variable {τ : Type*} {tokens : List τ}

/-- One token that is the given one. -/
def token (tokens : List τ) (a : τ) : Span := fun i j => tokens[i]? = some a ∧ j = i + 1

theorem functional_token (a : τ) : Functional (token tokens a) := by
  rintro i j k ⟨_, rfl⟩ ⟨_, rfl⟩
  rfl

theorem advances_token (a : τ) : Advances (token tokens a) tokens.length := by
  rintro i j ⟨ha, rfl⟩
  obtain ⟨hi, _⟩ := List.getElem?_eq_some_iff.1 ha
  exact ⟨i.lt_succ_self, hi⟩

theorem not_token_of_token {a b : τ} (hab : a ≠ b) ⦃i j k : Nat⦄ (ha : token tokens a i k) :
    ¬ token tokens b j k := by
  rintro ⟨hb, hk⟩
  obtain rfl : i = j := Nat.succ.inj (ha.2.symm.trans hk)
  exact hab (Option.some.inj (ha.1.symm.trans hb))

theorem exists_token_length (a : τ) :
    (∃ i, token tokens a i tokens.length) ↔ tokens.getLast? = some a := by
  rw [List.getLast?_eq_getElem?]
  constructor
  · rintro ⟨i, ha, hi⟩
    rwa [hi, Nat.add_sub_cancel]
  · intro ha
    obtain ⟨hlt, _⟩ := List.getElem?_eq_some_iff.1 ha
    exact ⟨tokens.length - 1, ha, by omega⟩

end
end Span

namespace Matcher

/-- Ends where the span does, and fails where it has no end. -/
def ofSpan (r : Span) : Matcher
  | i, some j => r i j
  | i, none => ¬ ∃ j, r i j

variable {r s : Span} {size : Nat}

theorem functional_ofSpan (hr : r.Functional) : (ofSpan r).Functional := by
  intro i o p ho hp
  cases o with
  | none =>
    cases p with
    | none => rfl
    | some k => exact absurd ⟨k, hp⟩ ho
  | some j =>
    cases p with
    | none => exact absurd ⟨j, ho⟩ hp
    | some k => rw [hr ho hp]

theorem exists_ofSpan (r : Span) (i : Nat) : ∃ o, ofSpan r i o := by
  by_cases h : ∃ j, r i j
  · obtain ⟨j, hij⟩ := h
    exact ⟨some j, hij⟩
  · exact ⟨none, h⟩

theorem then_ofSpan (hr : r.Functional) : Then (ofSpan r) (ofSpan s) = ofSpan (Comp r s) := by
  ext i o
  constructor
  · rintro (h | ⟨hij, ho⟩)
    · exact fun ⟨j, k, hik, hkj⟩ => h ⟨k, hik⟩
    · cases o with
      | none =>
        rintro ⟨k, m, him, hmk⟩
        cases hr hij him
        exact ho ⟨k, hmk⟩
      | some k => exact ⟨_, hij, ho⟩
  · intro h
    cases o with
    | none =>
      by_cases hi : ∃ j, r i j
      · obtain ⟨j, hij⟩ := hi
        exact .next (m := ofSpan r) hij fun ⟨k, hjk⟩ => h ⟨k, j, hij, hjk⟩
      · exact .fail hi
    | some k =>
      obtain ⟨j, hij, hjk⟩ := h
      exact .next (m := ofSpan r) hij hjk

theorem else_ofSpan : Else (ofSpan r) Empty = ofSpan r.attempt := by
  ext i o
  constructor
  · rintro (hij | ⟨hi, ⟨⟩⟩)
    · exact .inl hij
    · exact .inr ⟨hi, rfl⟩
  · intro h
    cases o with
    | none =>
      by_cases hi : ∃ j, r i j
      · obtain ⟨j, hij⟩ := hi
        exact absurd ⟨j, .inl hij⟩ h
      · exact absurd ⟨i, .inr ⟨hi, rfl⟩⟩ h
    | some j =>
      obtain hij | ⟨hi, rfl⟩ := h
      · exact .first (m := ofSpan r) hij
      · exact .second (m := ofSpan r) hi .here

theorem star_ofSpan (hr : r.Advances size) : Star (ofSpan r) = ofSpan r.greedy := by
  ext i o
  constructor
  · intro h
    induction h with
    | stop hi => exact ⟨.refl, hi⟩
    | @more i j o hij _ _ ih =>
      cases o with
      | none => exact absurd (hr.exists_greedy j) ih
      | some k => exact ⟨.head hij ih.1, ih.2⟩
  · intro h
    cases o with
    | none => exact absurd (hr.exists_greedy i) h
    | some k =>
      obtain ⟨hik, hend⟩ := h
      induction hik using ReflTransGen.head_induction_on with
      | refl => exact .stop hend
      | head hij _ ih => exact .more (m := ofSpan r) hij (Nat.ne_of_lt (hr hij).1) ih

end Matcher

namespace Terminals
variable {τ : Type*}

/-- What a parser finds of the terminals in the tokens. -/
def leaves (terminals : Terminals τ) (tokens : List τ) : Leaves where
  name n := .ofSpan (terminals.name n tokens)
  literal l := .ofSpan (terminals.literal l tokens)

end Terminals

namespace Expr
open Matcher

/-- A list of simple items in plain repetition is parsed to the end of what the parser takes. -/
theorem outcomes_spelledOut {μ : Leaves} {item : Expr} {separator : Literal} {r s : Span}
    {size : Nat} (hr : r.Functional) (hs : s.Functional) (hrsize : r.Advances size)
    (hssize : s.Advances size) (hitem : item.outcomes μ = .ofSpan r)
    (hseparator : μ.literal separator = .ofSpan s) (op : ListOp) :
    (spelledOut item separator op).outcomes μ = .ofSpan (Span.parsedList r s op) := by
  have hliteral : (literal separator).outcomes μ = .ofSpan s := by rw [outcomes, hseparator]
  have hpairs : (star (sequence [item, literal separator])).outcomes μ =
      .ofSpan (Span.greedy (Comp r s)) := by
    rw [outcomes, outcomes_sequence, rowOutcomes, rowOutcomes_singleton, hitem, hliteral,
      then_ofSpan hr, star_ofSpan (hrsize.comp hssize)]
  have hlast : (sequence [item, optional (literal separator)]).outcomes μ =
      .ofSpan (Comp r s.attempt) := by
    rw [outcomes_sequence, rowOutcomes, rowOutcomes_singleton, outcomes, hitem, hliteral,
      else_ofSpan, then_ofSpan hr]
  have hgreedy : Span.Functional (Span.greedy (Comp r s)) := (hr.comp hs).greedy
  have hitems : (sequence [star (sequence [item, literal separator]), item]).outcomes μ =
      .ofSpan (Comp (Span.greedy (Comp r s)) r) := by
    rw [outcomes_sequence, rowOutcomes, rowOutcomes_singleton, hpairs, hitem, then_ofSpan hgreedy]
  unfold spelledOut Span.parsedList
  split_ifs
  · rw [outcomes_sequence, rowOutcomes, rowOutcomes_singleton, hpairs, hlast, then_ofSpan hgreedy]
  · rw [outcomes_sequence, rowOutcomes, rowOutcomes_singleton, outcomes, hpairs, hlast,
      else_ofSpan, then_ofSpan hgreedy]
  · exact hitems
  · rw [outcomes, hitems, else_ofSpan]

/-- A list with a name for its items, where the name and the separator each match one token, comes
to one outcome in plain repetition. This is the end of the tokens exactly if they are such a list
and do not end with the separator of `...+`. -/
theorem outcomes_withoutLists_list {τ : Type*} {terminals : Terminals τ} {tokens : List τ}
    {n : Text} {l : Literal} {item separator : τ} (hne : item ≠ separator)
    (hitem : terminals.name n tokens = Span.token tokens item)
    (hseparator : terminals.literal l tokens = Span.token tokens separator) (op : ListOp) :
    let e := list (name n) l op
    ∃ o, (∀ p, e.withoutLists.outcomes (terminals.leaves tokens) 0 p ↔ p = o) ∧
      (o = some tokens.length ↔ e.spans (terminals.exactly tokens) 0 tokens.length ∧
        (op.atLeastOne → op.finalSeparator → tokens.getLast? ≠ some separator)) := by
  intro e
  have hr : Span.Functional (Span.token tokens item) := Span.functional_token item
  have hs : Span.Functional (Span.token tokens separator) := Span.functional_token separator
  have hrsize : Span.Advances (Span.token tokens item) tokens.length := Span.advances_token item
  have hssize : Span.Advances (Span.token tokens separator) tokens.length :=
    Span.advances_token separator
  let parsed := Span.parsedList (Span.token tokens item) (Span.token tokens separator) op
  have hname : (name n).outcomes (terminals.leaves tokens) =
      .ofSpan (Span.token tokens item) := by
    rw [← hitem]
    rfl
  have hparsed : e.withoutLists.outcomes (terminals.leaves tokens) = .ofSpan parsed :=
    outcomes_spelledOut hr hs hrsize hssize hname (congrArg ofSpan hseparator) op
  have hspans : e.spans (terminals.exactly tokens) =
      Span.list (Span.token tokens item) (Span.token tokens separator) op := by
    rw [← hitem, ← hseparator]
    rfl
  have hwhole := Span.parsedList_iff hr hrsize hssize (Span.not_token_of_token hne) op
  rw [← hspans, Span.exists_token_length] at hwhole
  obtain ⟨o, ho⟩ := exists_ofSpan parsed 0
  have hone (p : Option Nat) : ofSpan parsed 0 p ↔ p = o :=
    ⟨fun hp => functional_ofSpan (hr.parsedList hs op) hp ho, fun hp => hp ▸ ho⟩
  refine ⟨o, fun p => by rw [hparsed, hone], ?_⟩
  rw [← hwhole, eq_comm, ← hone]
  rfl

/-- `x % "," ...+` over `x,x` is parsed whole. -/
theorem outcomes_withoutLists_list_words :
    let e := list (name ['x']) ⟨[','], .double⟩ ⟨true, true⟩
    let tokens : List Text := [['x'], [','], ['x']]
    ∃ o, (∀ p, e.withoutLists.outcomes (Terminals.words.leaves tokens) 0 p ↔ p = o) ∧
      (o = some 3 ↔ e.spans (Terminals.words.exactly tokens) 0 3 ∧
        (true → true → tokens.getLast? ≠ some [','])) :=
  outcomes_withoutLists_list (by decide) rfl rfl ⟨true, true⟩

/-- `x % "," ...+` matches `x,` but its plain repetition fails there. -/
theorem outcomes_withoutLists_list_final :
    let e := list (name ['x']) ⟨[','], .double⟩ ⟨true, true⟩
    let tokens : List Text := [['x'], [',']]
    e.spans (Terminals.words.exactly tokens) 0 2 ∧
      ∀ p, e.withoutLists.outcomes (Terminals.words.leaves tokens) 0 p ↔ p = none := by
  intro e tokens
  have hfunctional : (Terminals.words.leaves tokens).Functional :=
    ⟨fun n => functional_ofSpan (Span.functional_token n),
      fun l => functional_ofSpan (Span.functional_token l.body)⟩
  have hfails : e.withoutLists.outcomes (Terminals.words.leaves tokens) 0 none := by
    have hitem : (name ['x']).outcomes (Terminals.words.leaves tokens) 2 none := by
      rintro ⟨j, hj, _⟩
      cases hj
    have hpair : Star ((seq [name ['x'], literal ⟨[','], .double⟩]).outcomes
        (Terminals.words.leaves tokens)) 0 (some 2) :=
      .more (.next ⟨rfl, rfl⟩ (.next ⟨rfl, rfl⟩ .here)) (by decide) (.stop (.fail hitem))
    exact .next hpair (.fail hitem)
  refine ⟨⟨1, ⟨1, ⟨rfl, rfl⟩, .refl⟩, .single ⟨rfl, rfl⟩⟩, fun p => ?_⟩
  exact ⟨fun hp => functional_outcomes hfunctional _ hp hfails, fun hp => hp ▸ hfails⟩

end Expr
end ExtendedBnf
