import ExtendedBnf.Conversion
import ExtendedBnf.Proofs.LackingNodes
import ExtendedBnf.Proofs.OnlyPredicates

/-!
# What a target can write

A target can write an expression just when the expression suits it, that is has no
node of a form the target lacks. Lowering a rule for a target makes its body suit
the target, and so it stays under the names and quotes of the target. Hence a
conversion fails only where a body holds nothing but predicates or a rule has the
name kept for the start symbol.
-/
namespace ExtendedBnf

/-- Whether the target can write nodes of the form. -/
def Dialect.has (d : Dialect) : Form → Bool
  | .emptyChoice | .plus => true
  | .repeated => d.bounds
  | .ahead | .notAhead => d.predicates
  | .list => false

namespace Expr

/-- No node of the tree is of a form that the target lacks. -/
def Suits (e : Expr) (d : Dialect) : Prop := ∀ f, d.has f = false → e.Lacks f

variable {d : Dialect} {e : Expr} {es : List Expr}

theorem lacking?_eq_none_iff : d.lacking? e = none ↔ ∀ f, e.form? = some f → d.has f := by
  cases e with
  | alt es => cases es <;> simp [Dialect.lacking?, form?, Dialect.has]
  | _ => simp [Dialect.lacking?, form?, Dialect.has]

theorem suits_iff_forall_nodes : e.Suits d ↔ ∀ n ∈ e.nodes, d.lacking? n = none := by
  constructor
  · refine fun h n hn => lacking?_eq_none_iff.2 fun f hf => ?_
    cases hhas : d.has f with
    | true => rfl
    | false => exact absurd hf (lacks_iff_forall_nodes.1 (h f hhas) n hn)
  · refine fun h f hlacks => lacks_iff_forall_nodes.2 fun n hn hf => ?_
    cases hlacks.symm.trans (lacking?_eq_none_iff.1 (h n hn) f hf)

theorem suits_iff :
    e.Suits d ↔ (∀ f, e.form? = some f → d.has f) ∧ ∀ c ∈ e.children, c.Suits d := by
  rw [suits_iff_forall_nodes, nodes_eq, List.forall_mem_cons, List.forall_mem_flatMap,
    lacking?_eq_none_iff]
  simp only [suits_iff_forall_nodes]

theorem suits_alt : (alt es).Suits d ↔ ∀ e ∈ es, e.Suits d := by
  rw [suits_iff, children]
  refine and_iff_right fun f hf => ?_
  cases es with
  | nil =>
    obtain rfl := Option.some.inj hf
    rfl
  | cons e es => cases hf

/-- A target can write just the expressions that suit it. -/
theorem exists_textIn_iff : (∃ t, e.textIn d = .ok t) ↔ e.Suits d := by
  have hok : (∃ t, e.textIn d = .ok t) ↔ ∀ c, e.textIn d ≠ .error c := by
    cases e.textIn d <;> simp
  simp only [hok, ne_eq, textIn_eq_error_iff, ← Option.eq_none_iff_forall_ne_some, firstLacking?,
    List.findSome?_eq_none_iff, suits_iff_forall_nodes]

end Expr

namespace Transform

/-- A transform that replaces names and literals only, by something without parts, brings nothing
in. -/
theorem lacks_apply_of_leaves {t : Transform} {f : Form} {e : Expr}
    (hname : ∀ n, (t.name n).Lacks f) (hliteral : ∀ l, (t.literal l).Lacks f)
    (hplus : t.plus = .plus) (hrepeated : t.repeated = .repeated) (hlist : t.list = .list)
    (he : e.Lacks f) : (t.apply e).Lacks f := by
  have havoids : t.Avoids f False := by
    refine ⟨hname, hliteral, ?_, ?_, ?_, False.elim⟩
    · intro e hne he
      rw [hplus, Expr.lacks_plus]
      exact ⟨hne, he⟩
    · intro e bounds hne he
      rw [hrepeated, Expr.lacks_repeated]
      exact ⟨hne, he⟩
    · intro e separator op hne he
      rw [hlist, Expr.lacks_list]
      exact ⟨hne, he⟩
  exact lacks_apply havoids (.inr he)

end Transform

namespace Expr
variable {e : Expr} {f : Form}

theorem lacks_withQuotes (quote : Quote) (he : e.Lacks f) : (e.withQuotes quote).Lacks f :=
  Transform.lacks_apply_of_leaves lacks_name (fun _ => lacks_literal _) rfl rfl rfl he

theorem lacks_nodeNamed (he : e.Lacks f) : e.nodeNamed.Lacks f := by
  refine Transform.lacks_apply_of_leaves (fun n => ?_) (fun _ => lacks_literal _) rfl rfl rfl he
  dsimp only
  split
  · exact lacks_literal _
  · exact lacks_name _

end Expr

namespace Target

/-- The name of a rule as the target writes it. -/
def ruleName : Target → Rule → Text
  | pest, r => r.name
  | ungram, r => r.name.pascalCase

/-- The name of the rule made for the start symbol. -/
def startName : Target → Text
  | pest => PestGrammar.startName
  | ungram => NodeGrammar.startName

end Target

namespace Rule
variable {r lowered : Rule} {expandPlus : Bool} {f : Form}

theorem exists_body_of_lower {l : Lowering} (h : r.lower l = .ok lowered) :
    ∃ body, lowered = { r with body } := by
  unfold lower at h
  dsimp only at h
  split at h
  · split at h
    · cases h
      exact ⟨_, rfl⟩
    · cases h
  · cases h
    exact ⟨_, rfl⟩

/-- Lowering keeps the name of a rule. -/
theorem ruleName_of_lower (target : Target) {l : Lowering} (h : r.lower l = .ok lowered) :
    target.ruleName lowered = target.ruleName r := by
  obtain ⟨body, rfl⟩ := exists_body_of_lower h
  cases target <;> rfl

/-- Lowering for pest always succeeds, and leaves no list. -/
theorem exists_lower_pest (r : Rule) (expandPlus : Bool) :
    ∃ lowered, r.lower (Target.pest.lowering expandPlus) = .ok lowered ∧
      lowered.body.Lacks .list := by
  refine ⟨_, rfl, ?_⟩
  have hlist : r.body.withoutLists.Lacks .list := Expr.lacks_withoutLists (.inl rfl)
  cases expandPlus with
  | false => exact hlist
  | true => exact Expr.lacks_withoutPlus (.inr hlist)

/-- Lowering for node grammars leaves nothing that could be left out but empty choices. -/
theorem lacks_of_lower_ungram (h : r.lower (Target.ungram.lowering expandPlus) = .ok lowered)
    (hf : f ≠ .emptyChoice) : lowered.body.Lacks f := by
  obtain ⟨body, hbody, rfl⟩ := lower_ungram_eq_ok_iff.1 h
  refine Expr.lacks_withoutPredicates ?_ hbody
  cases f with
  | emptyChoice => exact absurd rfl hf
  | list => exact .inr (Expr.lacks_lowered (.inl rfl))
  | plus => exact .inr (Expr.lacks_lowered (.inr (.inl rfl)))
  | repeated => exact .inr (Expr.lacks_lowered (.inr (.inr (.inl rfl))))
  | ahead | notAhead => exact .inl rfl

theorem suits_of_lower_pest (h : r.lower (Target.pest.lowering expandPlus) = .ok lowered) :
    (lowered.withQuotes .double).body.Suits PestGrammar.dialect := by
  obtain ⟨other, hother, hlist⟩ := exists_lower_pest r expandPlus
  cases hother.symm.trans h
  intro f hf
  cases f with
  | list => exact Expr.lacks_withQuotes .double hlist
  | _ => cases hf

theorem suits_of_lower_ungram (h : r.lower (Target.ungram.lowering expandPlus) = .ok lowered) :
    lowered.nodeNamed.body.Suits NodeGrammar.dialect := by
  intro f hf
  refine Expr.lacks_nodeNamed (lacks_of_lower_ungram h ?_)
  rintro rfl
  cases hf

end Rule

namespace PestGrammar

theorem exists_ruleText {r : Rule} (h : (r.withQuotes .double).body.Suits dialect) :
    ∃ line, ruleText r = .ok line := by
  obtain ⟨t, ht⟩ := Expr.exists_textIn_iff.2 h
  rw [ruleText, ht]
  exact ⟨_, rfl⟩

section
variable {rs : List Rule} (h : ∀ r ∈ rs, (r.withQuotes .double).body.Suits dialect)
include h

theorem exists_furtherRules : ∃ lines, furtherRules rs = .ok lines := by
  induction rs with
  | nil => exact ⟨[], rfl⟩
  | cons r rs ih =>
    obtain ⟨line, hline⟩ := exists_ruleText (h r List.mem_cons_self)
    obtain ⟨lines, hlines⟩ := ih fun x hx => h x (List.mem_cons_of_mem r hx)
    rw [furtherRules, hline, hlines]
    exact ⟨_, rfl⟩

theorem exists_rules : ∃ lines, rules rs = .ok lines := by
  cases rs with
  | nil => exact ⟨[], rfl⟩
  | cons r rs =>
    obtain ⟨line, hline⟩ := exists_ruleText (h r List.mem_cons_self)
    obtain ⟨lines, hlines⟩ := exists_furtherRules fun x hx => h x (List.mem_cons_of_mem r hx)
    rw [rules, hline, hlines]
    exact ⟨_, rfl⟩

end

/-- Only a rule of the name kept for the start symbol is in the way. -/
theorem eq_reserved_of_text {g : Grammar} {fault : Fault}
    (hsuits : ∀ r ∈ g.rules, (r.withQuotes .double).body.Suits dialect)
    (h : text g = .error fault) : fault = .malformedStart 0 (.reserved startName) ∧
      g.start.isSome ∧ ∃ r ∈ g.rules, r.name = startName := by
  obtain ⟨lines, hlines⟩ := exists_rules hsuits
  rw [text, hlines] at h
  obtain hfirst | ⟨_, -, hrest⟩ := bind_eq_error.1 h
  · cases hfirst
  · split at hrest
    next => cases hrest
    next symbol hstart =>
      split at hrest <;> cases hrest
      next htaken => exact ⟨rfl, hstart ▸ rfl, by simpa using htaken⟩

end PestGrammar

namespace NodeGrammar

theorem exists_bodyText {e : Expr} (h : e.Suits dialect) : ∃ t, bodyText e = .ok t := by
  cases e with
  | alt es =>
    rw [bodyText, exists_map_eq_ok]
    cases hparts : es.mapM (Expr.textIn dialect) with
    | ok ts => exact ⟨ts, rfl⟩
    | error construct =>
      obtain ⟨e, he, hfault⟩ := exists_mem_of_mapM_eq_error hparts
      obtain ⟨t, ht⟩ := Expr.exists_textIn_iff.2 (Expr.suits_alt.1 h e he)
      cases ht.symm.trans hfault
  | _ => exact Expr.exists_textIn_iff.2 h

theorem exists_ruleText {r : Rule} (h : r.body.Suits dialect) :
    ∃ block, ruleText r = .ok block := by
  obtain ⟨t, ht⟩ := exists_bodyText h
  rw [ruleText, ht]
  exact ⟨_, rfl⟩

/-- Only a rule of the name kept for the start symbol is in the way. -/
theorem eq_reserved_of_text {g : Grammar} {fault : Fault}
    (hsuits : ∀ r ∈ g.rules, r.body.Suits dialect) (h : text g = .error fault) :
    fault = .malformedStart 0 (.reserved startName) ∧
      g.start.isSome ∧ ∃ r ∈ g.rules, r.name = startName := by
  rw [text, layout, map_eq_error, map_eq_error, blocks, bind_eq_error] at h
  obtain hwritten | ⟨_, -, hrest⟩ := h
  · obtain ⟨r, hr, hfault⟩ := exists_mem_of_mapM_eq_error hwritten
    obtain ⟨block, hblock⟩ := exists_ruleText (hsuits r hr)
    cases hblock.symm.trans hfault
  · split at hrest
    next => cases hrest
    next symbol hstart =>
      split at hrest <;> cases hrest
      next htaken => exact ⟨rfl, hstart ▸ rfl, by simpa using htaken⟩

end NodeGrammar

namespace Grammar

/-- Why a grammar cannot be converted: a rule cannot be lowered, or a rule has the name kept for the
start symbol. -/
theorem cause_of_convert {g : Grammar} {target : Target} {expandPlus : Bool} {fault : Fault}
    (h : g.convert target expandPlus = .error fault) :
    (∃ r ∈ g.rules, r.lower (target.lowering expandPlus) = .error fault) ∨
      fault = .malformedStart 0 (.reserved target.startName) ∧ g.start.isSome ∧
        ∃ r ∈ g.rules, target.ruleName r = target.startName := by
  obtain hlower | ⟨rules, hrules, hwrite⟩ := bind_eq_error.1 h
  · exact .inl (exists_mem_of_mapM_eq_error hlower)
  refine .inr ?_
  cases target with
  | pest =>
    obtain ⟨hfault, hstart, lowered, hlowered, hreserved⟩ :=
      PestGrammar.eq_reserved_of_text (fun lowered hlowered => by
        obtain ⟨r, -, hr⟩ := exists_mem_of_mem_mapM hrules hlowered
        exact Rule.suits_of_lower_pest hr) hwrite
    obtain ⟨r, hr, hlower⟩ := exists_mem_of_mem_mapM hrules hlowered
    exact ⟨hfault, hstart, r, hr, (Rule.ruleName_of_lower .pest hlower).symm.trans hreserved⟩
  | ungram =>
    obtain ⟨hfault, hstart, named, hnamed, hreserved⟩ :=
      NodeGrammar.eq_reserved_of_text (fun named hnamed => by
        obtain ⟨lowered, hlowered, rfl⟩ := List.mem_map.1 hnamed
        obtain ⟨r, -, hr⟩ := exists_mem_of_mem_mapM hrules hlowered
        exact Rule.suits_of_lower_ungram hr) hwrite
    obtain ⟨lowered, hlowered, rfl⟩ := List.mem_map.1 hnamed
    obtain ⟨r, hr, hlower⟩ := exists_mem_of_mem_mapM hrules hlowered
    refine ⟨hfault, by simpa using hstart, r, hr, ?_⟩
    exact (Rule.ruleName_of_lower .ungram hlower).symm.trans hreserved

/-- A conversion fails for a body that holds nothing but predicates, or for the name of the start
symbol. -/
theorem fault_of_convert {g : Grammar} {target : Target} {expandPlus : Bool} {fault : Fault}
    (h : g.convert target expandPlus = .error fault) :
    (∃ r ∈ g.rules, fault = .malformedRule (some r.name) 0 .onlyPredicates) ∨
      ∃ name, fault = .malformedStart 0 (.reserved name) := by
  obtain ⟨r, hr, hlower⟩ | ⟨hfault, -⟩ := cause_of_convert h
  · exact .inl ⟨r, hr, (Rule.lower_eq_error_iff.1 hlower).2.2⟩
  · exact .inr ⟨_, hfault⟩

/-- No conversion meets a construct that the target cannot write. Bodies lowered for pest have no
list, bodies lowered for node grammars have no list, `+`, counted repetition or predicate, and the
names and quotes of the target bring none back. -/
theorem convert_meets_no_unresolved (g : Grammar) (expandPlus : Bool) :
    (∀ target rule construct,
      g.convert target expandPlus ≠ .error (.unresolvedConstruct rule construct)) ∧
    (∀ r ∈ g.rules, ∃ lowered, r.lower (Target.pest.lowering expandPlus) = .ok lowered ∧
      lowered.body.Lacks .list ∧ (lowered.withQuotes .double).body.Lacks .list) ∧
    ∀ r ∈ g.rules, ∀ lowered, r.lower (Target.ungram.lowering expandPlus) = .ok lowered →
      ∀ f ∈ [Form.list, .plus, .repeated, .ahead, .notAhead],
        lowered.body.Lacks f ∧ lowered.nodeNamed.body.Lacks f := by
  refine ⟨fun target rule construct h => ?_, fun r _ => ?_, fun r _ lowered h f hf => ?_⟩
  · obtain ⟨r, -, hfault⟩ | ⟨name, hfault⟩ := fault_of_convert h <;> cases hfault
  · obtain ⟨lowered, hlowered, hlist⟩ := Rule.exists_lower_pest r expandPlus
    exact ⟨lowered, hlowered, hlist, Expr.lacks_withQuotes .double hlist⟩
  · have hne : f ≠ .emptyChoice := by
      rintro rfl
      simp at hf
    have hlacks := Rule.lacks_of_lower_ungram h hne
    exact ⟨hlacks, Expr.lacks_nodeNamed hlacks⟩

/-- For node grammars `r ::= a+{2,} % ',' + !b` becomes `r ::= ((a a*)* ',')* (a a*)*`. -/
theorem convert_meets_no_unresolved_nested :
    let item : Expr := .repeated (.plus (.name ['a'])) ⟨some 2, none⟩
    let comma : Literal := ⟨[','], .single⟩
    let list : Expr := .list item comma ⟨true, false⟩
    let r : Rule := ⟨['r'], .seq [list, .notAhead (.name ['b'])], false⟩
    let items : Expr := .star (.seq [.name ['a'], .star (.name ['a'])])
    let lowered : Rule := ⟨['r'], .seq [.star (.seq [items, .literal comma]), items], false⟩
    r.lower (Target.ungram.lowering false) = .ok lowered ∧
      ∀ f ∈ [Form.list, .plus, .repeated, .ahead, .notAhead],
        lowered.body.Lacks f ∧ lowered.nodeNamed.body.Lacks f := by
  intro item comma list r items lowered
  have hlower : r.lower (Target.ungram.lowering false) = .ok lowered :=
    Rule.lower_ungram_eq_ok_iff.2 ⟨lowered.body, by decide, rfl⟩
  exact ⟨hlower, (convert_meets_no_unresolved ⟨[r], none⟩ false).2.2 r List.mem_cons_self lowered
    hlower⟩

end Grammar
end ExtendedBnf
