import ExtendedBnf.Proofs.ReadGrammars

/-!
# Trees that every pass keeps regular

A source says normal trees only. In Pascal case a name may be no name any more, so
of the names in a regular tree nothing is asked, and otherwise what is asked of a
normal one. Every pass that rewrites a tree makes a regular one of a regular one,
also where it leaves one part of a sequence that is to be spliced further up.
-/
namespace ExtendedBnf

namespace Expr

/-- Whether the node is normal. A name may be any text. -/
def isRegular : Expr → Bool
  | name _ => true
  | e => e.isNormal

/-- No sequence or choice has fewer than two parts or a direct part of its own kind, literals end
where they are written to end, and bounds can be met. -/
abbrev Regular (e : Expr) : Prop := e.All isRegular

theorem Normal.regular {e : Expr} (h : e.Normal) : e.Regular := by
  refine h.imp fun node hnode => ?_
  cases node <;> first | rfl | exact hnode

theorem isLocal_isRegular : IsLocal isRegular where
  settled e h := by
    cases e with
    | name n => rfl
    | _ => exact settles_isNormal.settled _ h
  node s es h := by
    have hnode := settles_isNormal.node s es h
    cases s <;> exact hnode
  optional _ := rfl
  star _ := rfl
  ahead _ := rfl
  notAhead _ := rfl
  plus _ := rfl
  repeated _ _ _ h := h
  list _ _ _ _ h := h
  separator _ _ _ h := h

variable {e : Expr}

theorem isRegular_literal {l : Literal} : (literal l).isRegular ↔ l.isWhole :=
  Bool.and_eq_true_iff.trans (and_iff_left rfl)

theorem regular_withQuotes (h : e.Regular) (quote : Quote) : (e.withQuotes quote).Regular :=
  isLocal_isRegular.all_withQuotes
    (fun _ hl => isRegular_literal.2 (Literal.isWhole_withQuote (isRegular_literal.1 hl) quote)) h

theorem regular_nodeNamed (h : e.Regular) : e.nodeNamed.Regular := by
  refine isLocal_isRegular.all_apply (fun n _ => ?_) (fun l hl => (all_leaf rfl).2 ?_)
    (fun _ => id) (fun _ _ => id) (fun _ _ _ => id) h
  · dsimp only
    split
    next token htoken =>
      exact (all_leaf rfl).2 (isRegular_literal.2 (isWhole_of_builtinToken? htoken))
    next => exact (all_leaf rfl).2 rfl
  · exact isRegular_literal.2 (Literal.isWhole_withQuote (isRegular_literal.1 hl) .single)

end Expr

namespace Grammar

/-- A grammar that is read has rules with names of their own, its start symbol is one of these, and
its bodies are normal. From there on every pass keeps trees regular. -/
theorem regular_from_reading_on :
    (∀ source g, ofText source = .ok g →
      (g.rules.map (·.name)).Nodup ∧ (∀ r ∈ g.rules, r.name.isName ∧ r.body.Normal) ∧
        ∀ symbol ∈ g.start, symbol ∈ g.rules.map (·.name)) ∧
    ∀ e : Expr, e.Regular →
      e.withoutLists.Regular ∧ e.withoutPlus.Regular ∧ e.withoutBounds.Regular ∧
        (∀ k, e.withoutPredicates = some k → k.Regular) ∧
        (∀ quote, (e.withQuotes quote).Regular) ∧ e.nodeNamed.Regular := by
  have hlocal := Expr.isLocal_isRegular
  refine ⟨fun source g h => ?_, fun e he => ?_⟩
  · obtain ⟨outline, -, hreads⟩ := ofText_eq_ok_iff_reads.1 h
    exact ⟨hreads.distinct, normal_of_ofText h, hreads.defined⟩
  · exact ⟨hlocal.all_withoutLists he, hlocal.all_withoutPlus he, hlocal.all_withoutBounds he,
      fun _ => hlocal.all_withoutPredicates he, Expr.regular_withQuotes he,
      Expr.regular_nodeNamed he⟩

/-- Without its predicate a sequence comes down to a choice, which is spliced into the choice
around it. -/
theorem regular_from_reading_on_spliced :
    let b : Expr := .name ['b']
    let c : Expr := .literal ⟨['c'], .double⟩
    let body : Expr := .alt [.seq [.notAhead b, .alt [b, c]], .plus c]
    let g : Grammar := ⟨[⟨['a'], body, true⟩, ⟨['b'], c, false⟩], some ['b']⟩
    let source : Text :=
      "# start b\n#atomic a ::= !b (b | \"c\") | \"c\"+ # or\nb ::= \"c\"\n".toList
    ofText source = .ok g ∧
      (g.rules.map (·.name)).Nodup ∧ body.Normal ∧
      body.withoutPredicates = some (.alt [b, c, .plus c]) ∧
      Expr.Regular (.alt [b, c, .plus c]) := by
  intro b c body g source
  have hg : g.WellFormed := by
    refine ⟨List.forall_mem_cons.2 ⟨?_, List.forall_mem_singleton.2 ?_⟩, by decide, by decide⟩ <;>
      exact ⟨by decide, by decide, by decide, by decide⟩
  have hread : ofText source = .ok g := by
    let definitions : List Definition :=
      [⟨['a'], 18, " !b (b | \"c\") | \"c\"+".toList, 23, true⟩,
        ⟨['b'], 49, " \"c\"".toList, 54, false⟩]
    have houtline : Outline.ofText source = .ok ⟨definitions, some ⟨['b'], 0⟩⟩ := rfl
    have hdefines : List.Forall₂ Definition.Defines definitions g.rules :=
      .cons ⟨rfl, by decide, rfl⟩ (.cons ⟨rfl, by decide, rfl⟩ .nil)
    exact ofText_of_defines hg houtline hdefines rfl
  obtain ⟨hnodup, hrules, -⟩ := regular_from_reading_on.1 _ g hread
  have hbody : body.Normal := (hrules _ List.mem_cons_self).2
  have hkept : body.withoutPredicates = some (.alt [b, c, .plus c]) := by decide
  have hpasses := regular_from_reading_on.2 body hbody.regular
  exact ⟨hread, hnodup, hbody, hkept, hpasses.2.2.2.1 _ hkept⟩

end Grammar
end ExtendedBnf
