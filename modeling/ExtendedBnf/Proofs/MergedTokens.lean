import ExtendedBnf.Proofs.MergedNodes
import ExtendedBnf.Proofs.ReadGrammars
import Mathlib.Data.List.Infix

/-!
# Whole node grammars without runs

The blocks of a node grammar are tokens as well, and between them are line feeds
only, which are no joints. So merging tokens changes the finished text just if a
node of a body is merged, provided that names are words and bodies plain. They are
where the grammar was read from a source and lowered. A node may be merged although
its parts are not the three that a token stands for: the first alternative of a run
of blanks may be any sequence that ends with a space, and the last one any that
starts with a line feed.
-/
namespace ExtendedBnf
open Reader (Starts Stops starts_cons stops_cons)

namespace Expr
variable {e : Expr} {es : List Expr}

theorem operandTextsIn_eq_ok {d : Dialect} {least : Precedence}
    (h : ∀ e ∈ es, e.textIn d = .ok e.text) :
    operandTextsIn d least es = .ok (operandTexts least es) := by
  induction es with
  | nil => rfl
  | cons e es ih =>
    have hrest := ih fun x hx => h x (List.mem_cons_of_mem e hx)
    rw [operandTextsIn, h e List.mem_cons_self, hrest]
    rfl

/-- Node grammars write expressions the way grammars do. -/
theorem textIn_eq_ok (h : e.Suits NodeGrammar.dialect) :
    e.textIn NodeGrammar.dialect = .ok e.text := by
  induction e with
  | name n | literal l => rfl
  | seq es ih | alt es ih =>
    obtain ⟨-, hes⟩ := suits_iff.1 h
    rw [textIn, operandTextsIn_eq_ok fun e he => ih e he (hes e he)]
    rfl
  | optional e ih | star e ih | plus e ih =>
    rw [textIn, ih ((suits_iff.1 h).2 e List.mem_cons_self)]
    rfl
  | repeated e | ahead e | notAhead e | list e => cases (suits_iff.1 h).1 _ rfl

end Expr

/-- The name of the rule is a word and its body plain. -/
structure Rule.IsPlain (r : Rule) : Prop where
  name : r.name.isWord
  body : r.body.IsPlain

namespace NodeGrammar
variable {e : Expr} {r : Rule} {g : Grammar} {t : Text} {bs : List Text}

/-! ## Blocks -/

/-- The text brings a run about just if a node of the tree is merged. -/
structure Shows (t : Text) (e : Expr) : Prop where
  quiet : e.All (fun node => !node.isMerged) → ∀ s : Splicing, s.Quiet True t
  hasRun : (¬ e.All fun node => !node.isMerged) → ∃ s : Splicing, s.HasRun t

theorem shows_text (h : e.IsPlain) : Shows e.text e :=
  ⟨fun hmerged s => (h.quiet_text hmerged s).imp fun _ => trivial, Expr.exists_hasRun_text⟩

/-- The alternatives of a whole body are on lines of their own, which are joints as well. -/
theorem shows_alternatives {es : List Expr} (h : (Expr.alt es).IsPlain) :
    Shows (Text.join "\n| ".toList (Expr.operandTexts .choice es)) (.alt es) := by
  constructor
  · intro hmerged s
    obtain ⟨hnode, hes⟩ := Expr.all_iff.1 hmerged
    have hhere : (Expr.alt es).isMerged = false := by simpa using hnode
    have hquiet := Expr.IsPlain.quiet_node (s := s) (k := .choice) .line h hhere
      fun e he => (h.child he).quiet_text (hes e he) s
    exact hquiet.imp fun _ => trivial
  · intro hmerged
    rw [Expr.all_iff, not_and_or] at hmerged
    obtain hhere | hparts := hmerged
    · have hnode : (Expr.alt es).isMerged := by simpa using hhere
      exact ⟨.choice, Splicing.hasRun_of_merges .line hnode⟩
    · simp only [not_forall] at hparts
      obtain ⟨e, he, hpart⟩ := hparts
      obtain ⟨s, hrun⟩ := Expr.exists_hasRun_text hpart
      exact ⟨s, hrun.mono (Expr.isInfix_join_operandTexts he)⟩

theorem bodyText_alt {es : List Expr} (h : (Expr.alt es).IsPlain) :
    bodyText (.alt es) = .ok (Text.join "\n| ".toList (Expr.operandTexts .choice es)) := by
  have htexts : es.mapM (Expr.textIn dialect) = .ok (Expr.operandTexts .choice es) := by
    rw [Expr.operandTexts_eq_map]
    exact mapM_eq_ok_map fun e he => Expr.textIn_eq_ok (h.child he).suits
  rw [bodyText, htexts]
  rfl

theorem exists_bodyText_shows (h : e.IsPlain) : ∃ t, bodyText e = .ok t ∧ Shows t e := by
  cases e with
  | alt es => exact ⟨_, bodyText_alt h, shows_alternatives h⟩
  | _ => exact ⟨_, Expr.textIn_eq_ok h.suits, shows_text h⟩

theorem Shows.append {u : Text} (h : Shows t e) (hu : ∀ c ∈ u, isBare c) : Shows (u ++ t) e := by
  constructor
  · intro hmerged s r hr hcontinues hbreaks
    rw [List.append_assoc]
    refine (h.quiet hmerged s r hr (fun hfirst => hcontinues ?_) hbreaks).append_of_forall hu
    exact hfirst.trans (List.suffix_append u t)
  · intro hmerged
    obtain ⟨s, hrun⟩ := h.hasRun hmerged
    exact ⟨s, hrun.mono (List.suffix_append u t).isInfix⟩

theorem exists_ruleText_shows (h : r.IsPlain) :
    ∃ b, ruleText r = .ok b ∧ Starts isNameRest b ∧ Shows b r.body := by
  obtain ⟨t, ht, hshows⟩ := exists_bodyText_shows h.body
  have hmark : ∀ c ∈ " =\n  ".toList, isBare c := List.all_eq_true.1 (by decide)
  have hhead : ∀ c ∈ r.name ++ " =\n  ".toList, isBare c :=
    List.forall_mem_append.2 ⟨isBare_of_isWord h.name, hmark⟩
  refine ⟨r.name ++ " =\n  ".toList ++ t, by rw [ruleText, ht], ?_, hshows.append hhead⟩
  exact ((Text.starts_of_isWord h.name).append _).append _

/-- Every block is that of a rule or of the start symbol. -/
theorem of_mem_blocks (h : blocks g = .ok bs) {b : Text} (hb : b ∈ bs) :
    (∃ r ∈ g.rules, ruleText r = .ok b) ∨ ∃ symbol ∈ g.start, b = startBlock symbol := by
  obtain ⟨written, hwritten, hrest⟩ := bind_eq_ok.1 h
  split at hrest
  · cases hrest
    exact .inl (exists_mem_of_mem_mapM hwritten hb)
  next symbol hsymbol =>
    split at hrest
    · cases hrest
    · cases hrest
      obtain hb | hb := List.mem_append.1 hb
      · exact .inl (exists_mem_of_mem_mapM hwritten hb)
      · exact .inr ⟨symbol, hsymbol, List.mem_singleton.1 hb⟩

/-- Every rule has a block. -/
theorem mem_blocks (h : blocks g = .ok bs) (hr : r ∈ g.rules) : ∃ b ∈ bs, ruleText r = .ok b := by
  obtain ⟨written, hwritten, hrest⟩ := bind_eq_ok.1 h
  obtain ⟨b, hb, hrule⟩ := exists_mem_mapM_of_mem hwritten hr
  split at hrest
  · cases hrest
    exact ⟨b, hb, hrule⟩
  · split at hrest
    · cases hrest
    · cases hrest
      exact ⟨b, List.mem_append_left _ hb, hrule⟩

/-- Blocks that bring no run about are a text without one. -/
theorem clear_blocks {s : Splicing} (hbs : ∀ b ∈ bs, Starts isNameRest b ∧ s.Quiet True b) :
    s.Clear (Text.join "\n\n".toList bs ++ ['\n']) := by
  have hend : s.Clear ['\n'] := s.clear_nil.cons rfl
  have hbar : Reader.Apart isNameRest (· == '|') := by
    intro c hc
    refine beq_false_of_ne ?_
    rintro rfl
    cases hc
  have hquiet {b t : Text} (hb : s.Quiet True b) (ht : s.Clear ('\n' :: t))
      (hnext : Stops (· == '|') (Text.trimStart ('\n' :: t))) : s.Clear (b ++ '\n' :: t) := by
    have hjoins : ¬ s.Joins ('\n' :: t) := Splicing.not_joins (by simp) hnext
    have hhead : ∀ c ∈ ('\n' :: t).head?, c ∉ s.middle := by cases s <;> simp [Splicing.middle]
    exact hb _ ht (fun _ => mt Splicing.Continues.joins hjoins)
      fun _ => Splicing.breaks_of_not_joins hjoins hhead
  induction bs with
  | nil => exact hend
  | cons b bs ih =>
    have hb := hbs b List.mem_cons_self
    cases bs with
    | nil => exact hquiet hb.2 hend Reader.stops_nil
    | cons b' bs =>
      have hb' := hbs b' (List.mem_cons_of_mem b List.mem_cons_self)
      have hrest := ih fun x hx => hbs x (List.mem_cons_of_mem b hx)
      have hstarts : Starts isNameRest (Text.join "\n\n".toList (b' :: bs) ++ ['\n']) := by
        obtain ⟨y, hy⟩ := Text.exists_join_eq "\n\n".toList b' bs
        rw [hy, List.append_assoc]
        exact hb'.1.append _
      rw [Text.join_cons_cons, List.append_assoc, List.append_assoc]
      generalize Text.join "\n\n".toList (b' :: bs) ++ ['\n'] = rest at hrest hstarts ⊢
      have hlines : "\n\n".toList = '\n' :: ['\n'] := rfl
      rw [hlines, List.cons_append]
      refine hquiet hb.2 ((hrest.cons (c := '\n') rfl).cons rfl) ?_
      rw [← List.cons_append, Text.trimStart_append rfl,
        Text.trimStart_of_starts (hstarts.imp fun _ => Text.isInk_of_isNameRest)]
      exact hstarts.stops hbar

/-- Merging tokens changes a node grammar just if a node of a body is merged. -/
theorem mergeTokens_layout (hrules : ∀ r ∈ g.rules, r.IsPlain)
    (hstart : ∀ symbol ∈ g.start, symbol.isWord) (h : layout g = .ok t) :
    mergeTokens t = t ↔ ∀ r ∈ g.rules, r.body.All fun node => !node.isMerged := by
  obtain ⟨bs, hbs, rfl⟩ := map_eq_ok.1 h
  rw [mergeTokens_eq_self_iff_hasRun]
  constructor
  · intro hnone r hr
    by_contra hmerged
    obtain ⟨b, hb, hrule⟩ := mem_blocks hbs hr
    obtain ⟨b', hrule', -, hshows⟩ := exists_ruleText_shows (hrules r hr)
    cases hrule.symm.trans hrule'
    obtain ⟨s, hrun⟩ := hshows.hasRun hmerged
    have hblock : b <:+: Text.join "\n\n".toList bs := Text.isInfix_join hb
    exact hnone s (hrun.mono (hblock.trans (List.prefix_append _ _).isInfix))
  · intro hmerged s hrun
    refine (clear_blocks fun b hb => ?_).none hrun
    obtain ⟨r, hr, hrule⟩ | ⟨symbol, hsymbol, rfl⟩ := of_mem_blocks hbs hb
    · obtain ⟨b', hrule', hstarts, hshows⟩ := exists_ruleText_shows (hrules r hr)
      cases hrule.symm.trans hrule'
      exact ⟨hstarts, hshows.quiet (hmerged r hr) s⟩
    · have hname : ∀ c ∈ startName ++ " = ".toList, isBare c := List.all_eq_true.1 (by decide)
      have hbare : ∀ c ∈ startBlock symbol, isBare c :=
        List.forall_mem_append.2 ⟨hname, isBare_of_isWord (hstart symbol hsymbol)⟩
      exact ⟨starts_cons.2 rfl, fun r hr _ _ => hr.append_of_forall hbare⟩

end NodeGrammar

/-! ## Grammars from sources -/

/-- A rule with a sound body is plain when it is lowered and has the names of node grammars. -/
theorem Rule.isPlain_of_lower {r lowered : Rule} {expandPlus : Bool} (hname : r.name.isName)
    (hbody : r.body.Sound) (h : r.lower (Target.ungram.lowering expandPlus) = .ok lowered) :
    lowered.nodeNamed.IsPlain := by
  have hsuits := Rule.suits_of_lower_ungram h
  have hlist : lowered.body.Lacks .list := Rule.lacks_of_lower_ungram h (by decide)
  obtain ⟨body, hlowered, rfl⟩ := Rule.lower_ungram_eq_ok_iff.1 h
  have hlocal := Expr.isLocal_isSound fun _ => true
  have hlists : r.body.withoutLists.Sound := hlocal.all_withoutLists hbody
  have hbounds : r.body.withoutLists.withoutPlus.withoutBounds.Sound :=
    hlocal.all_withoutBounds (hlocal.all_withoutPlus hlists)
  have hsound : body.Sound := hlocal.all_withoutPredicates hbounds hlowered
  exact ⟨Text.isWord_pascalCase (Text.isWord_of_isName hname),
    Expr.all_isSound_nodeNamed hsound hlist, hsuits⟩

/-- The parts that one token stands for. -/
def Splicing.tokenParts : Splicing → List Expr
  | row => [.literal row.first, .star (.name "ANY".toList), .literal row.last]
  | choice => [.literal choice.first, .literal ⟨['\\', 't'], .single⟩, .literal choice.last]

namespace Expr

/-- Whether the node has the parts in a row that one token stands for. -/
def hasTokenParts : Expr → Bool
  | seq es => es.tails.any Splicing.row.tokenParts.isPrefixOf
  | alt es => es.tails.any Splicing.choice.tokenParts.isPrefixOf
  | _ => false

/-- Parts that one token stands for are merged. -/
theorem isMerged_of_hasTokenParts {e : Expr} (h : e.hasTokenParts) : e.isMerged := by
  have hnode {s : Splicing} {es : List Expr} (h : es.tails.any s.tokenParts.isPrefixOf) :
      s.merges (operandTexts s.binding es) := by
    obtain ⟨rest, hrest, hstarts⟩ := List.any_eq_true.1 h
    obtain ⟨us, rfl⟩ := (List.mem_tails _ _).1 hrest
    obtain ⟨ts, rfl⟩ := List.isPrefixOf_iff_prefix.1 hstarts
    have hparts : operandTexts s.binding s.tokenParts = [s.first.text, s.middle, s.last.text] := by
      cases s <;> rfl
    rw [operandTexts_eq_map] at hparts ⊢
    rw [List.map_append, List.map_append, hparts]
    refine Splicing.merges_append ?_
    simp [Splicing.merges, List.isSuffixOf_iff_suffix, List.isPrefixOf_iff_prefix]
  cases e with
  | seq es => exact hnode (s := .row) h
  | alt es => exact hnode (s := .choice) h
  | _ => cases h

end Expr

namespace NodeGrammar

/-- Merging tokens leaves the text of a grammar from a source alone just if no node is merged. -/
theorem mergeTokens_eq_self_iff {source t : Text} {g : Grammar} {rules : List Rule}
    {expandPlus : Bool} (hread : Grammar.ofText source = .ok g)
    (hlower : g.rules.mapM (Rule.lower (Target.ungram.lowering expandPlus)) = .ok rules)
    (hlayout : layout ⟨rules.map Rule.nodeNamed, g.start.map Text.pascalCase⟩ = .ok t) :
    mergeTokens t = t ↔ ∀ r ∈ rules, r.nodeNamed.body.All fun node => !node.isMerged := by
  obtain ⟨hrules, hstart⟩ := Grammar.sound_of_ofText hread
  have hplain : ∀ r ∈ rules.map Rule.nodeNamed, r.IsPlain := by
    refine List.forall_mem_map.2 fun lowered hlowered => ?_
    obtain ⟨r, hr, hrule⟩ := exists_mem_of_mem_mapM hlower hlowered
    exact Rule.isPlain_of_lower (hrules r hr).1 (hrules r hr).2 hrule
  have hsymbol : ∀ symbol ∈ g.start.map Text.pascalCase, symbol.isWord := by
    intro symbol hsymbol
    obtain ⟨n, hn, rfl⟩ := Option.map_eq_some_iff.1 hsymbol
    exact Text.isWord_pascalCase (Text.isWord_of_isName (hstart n hn))
  rw [mergeTokens_layout hplain hsymbol hlayout, List.forall_mem_map]

/-- With a quote of the other kind at its end, a quoted string is no token. -/
theorem mergeTokens_eq_self_other_quote :
    let body : Expr := .seq [.literal ⟨['"'], .single⟩, .star (.name "ANY".toList),
      .literal ⟨['\x27'], .double⟩]
    let g : Grammar := ⟨[⟨['q'], body, false⟩], none⟩
    let source := "q ::= '\"' ANY* \"'\"\n".toList
    let t := "Q =\n  '\"' ANY* '\\''\n".toList
    Grammar.ofText source = .ok g ∧
      g.rules.mapM (Rule.lower (Target.ungram.lowering true)) = .ok g.rules ∧
      layout ⟨g.rules.map Rule.nodeNamed, g.start.map Text.pascalCase⟩ = .ok t ∧
      mergeTokens t = t := by
  intro body g source t
  have hrule : Rule.WellFormed ⟨['q'], body, false⟩ := ⟨by decide, by decide, by decide, by decide⟩
  have hg : g.WellFormed := ⟨List.forall_mem_singleton.2 hrule, by decide, by decide⟩
  have houtline : Outline.ofText source = .ok ⟨[⟨['q'], 0, ' ' :: body.text, 5, false⟩], none⟩ := by
    decide
  have hread : Grammar.ofText source = .ok g :=
    Grammar.ofText_of_defines hg houtline (.cons ⟨rfl, rfl, rfl⟩ .nil) rfl
  have hlower : g.rules.mapM (Rule.lower (Target.ungram.lowering true)) = .ok g.rules := by decide
  have hlayout : layout ⟨g.rules.map Rule.nodeNamed, g.start.map Text.pascalCase⟩ = .ok t := by
    decide
  exact ⟨hread, hlower, hlayout, (mergeTokens_eq_self_iff hread hlower hlayout).2 (by decide)⟩

/-- In `r ::= a ' ' | '\t' | '\n' b` no alternatives are those of a blank, but they are merged, and
the choice becomes a sequence. -/
theorem mergeTokens_choice_to_sequence :
    let space : Expr := .literal ⟨[' '], .single⟩
    let feed : Expr := .literal ⟨['\\', 'n'], .single⟩
    let body : Expr := .alt [.seq [.name ['a'], space], .literal ⟨['\\', 't'], .single⟩,
      .seq [feed, .name ['b']]]
    let g : Grammar := ⟨[⟨['r'], body, false⟩], none⟩
    let source := "r ::= a ' ' | '\\t' | '\\n' b\n".toList
    let t := "R =\n  A ' '\n| '\\t'\n| '\\n' B\n".toList
    Grammar.ofText source = .ok g ∧
      g.rules.mapM (Rule.lower (Target.ungram.lowering false)) = .ok g.rules ∧
      layout ⟨g.rules.map Rule.nodeNamed, g.start.map Text.pascalCase⟩ = .ok t ∧
      (∀ r ∈ g.rules, r.nodeNamed.body.All fun node => !node.hasTokenParts) ∧
      mergeTokens t = "R =\n  A ' ' B\n".toList ∧ mergeTokens t ≠ t := by
  intro space feed body g source t
  have hrule : Rule.WellFormed ⟨['r'], body, false⟩ := ⟨by decide, by decide, by decide, by decide⟩
  have hg : g.WellFormed := ⟨List.forall_mem_singleton.2 hrule, by decide, by decide⟩
  have houtline : Outline.ofText source = .ok ⟨[⟨['r'], 0, ' ' :: body.text, 5, false⟩], none⟩ := by
    decide
  have hread : Grammar.ofText source = .ok g :=
    Grammar.ofText_of_defines hg houtline (.cons ⟨rfl, rfl, rfl⟩ .nil) rfl
  have hmerged : mergeTokens t = "R =\n  A ' ' B\n".toList := by decide
  refine ⟨hread, by decide, by decide, by decide, hmerged, ?_⟩
  rw [hmerged]
  decide

end NodeGrammar
end ExtendedBnf
