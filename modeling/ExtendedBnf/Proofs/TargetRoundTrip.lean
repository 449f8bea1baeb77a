import ExtendedBnf.NodeGrammar
import ExtendedBnf.PestGrammar
import ExtendedBnf.Proofs.RoundTrip
import ExtendedBnf.Proofs.SoundTrees
import ExtendedBnf.Result

/-!
# Expressions read back from the text of a target

Targets write expressions the way grammars do, but for what stands between the items
of a sequence and, in node grammars, between the alternatives of a whole body. The
grammar of expressions knows both as joints. So what a target writes for a tree says
that tree, and grammar notation reads it back.
-/
namespace ExtendedBnf

namespace Says

theorem joins_tilde : Joins .row " ~ ".toList := fun _ _ h => .tilde isGap_space isGap_space h

end Says

namespace Expr
open Says (AtLevel)

variable {d : Dialect} {e : Expr} {es : List Expr} {t : Text}

/-- The operands that a target writes are the texts of the parts, in parentheses where they need
these. -/
theorem exists_text_of_operandTextsIn {least : Precedence} {ts : List Text}
    (h : operandTextsIn d least es = .ok ts) :
    ∃ text : Expr → Text, (∀ e ∈ es, e.textIn d = .ok (text e)) ∧
      ts = es.map fun e => (text e).operand least e.precedence := by
  rw [operandTextsIn_eq_mapM] at h
  obtain ⟨us, hus, rfl⟩ := map_eq_ok.1 h
  obtain ⟨text, htext, rfl⟩ := exists_map_of_mapM_eq_ok hus
  exact ⟨text, htext, by rw [List.zipWith_map_right, List.zipWith_self]⟩

/-- What a target writes says the expression, spliced, and binds as its precedence says. -/
theorem atLevel_textIn (hjoint : Says.Joins .row d.joint) (h : e.Printable)
    (ht : e.textIn d = .ok t) : AtLevel e.precedence.level t e.spliced := by
  induction e generalizing t with
  | name n | literal l =>
    cases ht
    exact atLevel_text h
  | seq es ih =>
    have hes := ((Splicing.printable_node (s := .row)).1 h).2
    obtain ⟨ts, hts, rfl⟩ := map_eq_ok.1 ht
    obtain ⟨text, htext, rfl⟩ := exists_text_of_operandTextsIn hts
    exact Says.atLevel_node (s := .row) hjoint h fun e he => ih e he (hes e he) (htext e he)
  | alt es ih =>
    have hes := ((Splicing.printable_node (s := .choice)).1 h).2
    obtain ⟨ts, hts, rfl⟩ := map_eq_ok.1 ht
    obtain ⟨text, htext, rfl⟩ := exists_text_of_operandTextsIn hts
    exact Says.atLevel_node (s := .choice) (Says.joins_bar isGap_space) h
      fun e he => ih e he (hes e he) (htext e he)
  | optional e ih =>
    obtain ⟨u, hu, rfl⟩ := map_eq_ok.1 ht
    have he := (ih ((all_iff.1 h).2 e List.mem_cons_self) hu).as_operand .atom
    rw [spliced_eq]
    exact he.suffix (.optional isGap_nil)
  | star e ih =>
    obtain ⟨u, hu, rfl⟩ := map_eq_ok.1 ht
    have he := (ih ((all_iff.1 h).2 e List.mem_cons_self) hu).as_operand .atom
    rw [spliced_eq]
    exact he.suffix (.star isGap_nil)
  | plus e ih =>
    obtain ⟨u, hu, rfl⟩ := map_eq_ok.1 ht
    have he := (ih ((all_iff.1 h).2 e List.mem_cons_self) hu).as_operand .atom
    rw [spliced_eq]
    exact he.suffix (.plus isGap_nil)
  | repeated e bounds ih =>
    obtain ⟨hbounds, hparts⟩ := all_iff.1 h
    rw [textIn] at ht
    split at ht
    · obtain ⟨u, hu, rfl⟩ := map_eq_ok.1 ht
      have he := (ih (hparts e List.mem_cons_self) hu).as_operand .atom
      rw [spliced_eq]
      exact he.suffix (.bounds isGap_nil (Says.bounded_text hbounds))
    · cases ht
  | ahead e ih =>
    rw [textIn] at ht
    split at ht
    · obtain ⟨u, hu, rfl⟩ := map_eq_ok.1 ht
      have he := (ih ((all_iff.1 h).2 e List.mem_cons_self) hu).as_operand .predicate
      rw [spliced_eq]
      exact Says.Term.ahead isGap_nil he
    · cases ht
  | notAhead e ih =>
    rw [textIn] at ht
    split at ht
    · obtain ⟨u, hu, rfl⟩ := map_eq_ok.1 ht
      have he := (ih ((all_iff.1 h).2 e List.mem_cons_self) hu).as_operand .predicate
      rw [spliced_eq]
      exact Says.Term.notAhead isGap_nil he
    · cases ht
  | list e separator op => cases ht

theorem ofText_of_atLevel {n : Nat} (h : e.Normal) (ht : AtLevel n t e.spliced) :
    ofText t = .ok e := by
  rw [spliced_eq_self (normal_iff.1 h).2] at ht
  exact ofText_of_meaning ht.meaning

/-- An expression reads back from what a target writes for it. -/
theorem ofText_of_textIn (hjoint : Says.Joins .row d.joint) (h : e.Normal)
    (ht : e.textIn d = .ok t) : ofText t = .ok e :=
  ofText_of_atLevel h (atLevel_textIn hjoint (normal_iff.1 h).1 ht)

end Expr

namespace NodeGrammar

/-- A body reads back from what a node grammar has for it, with its alternatives on lines of their
own. -/
theorem ofText_of_bodyText {e : Expr} {t : Text} (h : e.Normal) (ht : bodyText e = .ok t) :
    Expr.ofText t = .ok e := by
  cases e with
  | alt es =>
    obtain ⟨hne, hes⟩ := (Splicing.printable_node (s := .choice)).1 (Expr.normal_iff.1 h).1
    obtain ⟨ts, hts, rfl⟩ := map_eq_ok.1 ht
    obtain ⟨text, htext, rfl⟩ := exists_map_of_mapM_eq_ok hts
    have hgap : IsGap ['\n'] := List.forall_mem_singleton.2 rfl
    have hline : Says.Joins .choice "\n| ".toList := Says.joins_bar hgap
    have hnode := Says.atLevel_node (s := .choice) hline (Expr.normal_iff.1 h).1 fun e he =>
      Expr.atLevel_textIn Says.joins_space (hes e he) (htext e he)
    exact Expr.ofText_of_atLevel h hnode
  | _ => exact Expr.ofText_of_textIn (d := dialect) Says.joins_space h ht

end NodeGrammar

namespace Expr

/-- What pest grammars write for the tree with double quotes, and what node grammars write for it
as a whole body, reads back as the tree. -/
theorem ofText_of_targets {e : Expr} (hprintable : e.Printable) (hspliced : e.IsSpliced) :
    (∀ t, (e.withQuotes .double).textIn PestGrammar.dialect = .ok t →
      ofText t = .ok (e.withQuotes .double)) ∧
    ∀ t, NodeGrammar.bodyText e = .ok t → ofText t = .ok e := by
  have hnormal : e.Normal := normal_iff.2 ⟨hprintable, hspliced⟩
  refine ⟨fun t ht => ?_, fun t ht => NodeGrammar.ofText_of_bodyText hnormal ht⟩
  exact ofText_of_textIn Says.joins_tilde (normal_withQuotes hnormal .double) ht

/-- The literal holds quotes of both kinds, which trade their escapes, and the parts need their
parentheses. -/
theorem ofText_of_targets_quotes :
    let tree (l : Literal) : Expr :=
      .alt [.seq [.star (.alt [.name ['a'], .seq [.literal l, .name ['b']]]), .name ['c']],
        .optional (.optional (.name ['d']))]
    let single := tree ⟨['\\', '\x27', '"'], .single⟩
    let double := tree ⟨['\x27', '\\', '"'], .double⟩
    let inPest := "(a | \"'\\\"\" ~ b)* ~ c | (d?)?".toList
    let inNodes := "(a | '\\'\"' b)* c\n| (d?)?".toList
    (single.withQuotes .double).textIn PestGrammar.dialect = .ok inPest ∧
      ofText inPest = .ok double ∧
      NodeGrammar.bodyText single = .ok inNodes ∧ ofText inNodes = .ok single := by
  intro tree single double inPest inNodes
  have hnormal : single.Printable ∧ single.IsSpliced := by decide
  have hdouble : single.withQuotes .double = double := by decide
  obtain ⟨hpest, hnodes⟩ := ofText_of_targets hnormal.1 hnormal.2
  rw [hdouble] at hpest ⊢
  exact ⟨rfl, hpest inPest rfl, rfl, hnodes inNodes rfl⟩

end Expr
end ExtendedBnf
