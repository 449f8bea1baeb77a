import ExtendedBnf.Proofs.MergedWords
import ExtendedBnf.Proofs.PascalNames
import ExtendedBnf.Proofs.RuleByRule

/-!
# The names of blocks

A block of a node grammar has the name of its rule in Pascal case, and wherever a
body has the name of a rule, the block has the name of that rule's block. There are
three exceptions. Names of built-in character classes become tokens even if there
are rules of these names, `ANY` may be lost where a quoted string becomes a token,
and what is under a predicate is dropped. Different names may be the same in Pascal
case.
-/
namespace ExtendedBnf

/-- The block has the name of its rule. Its words are the names of the lowered body from left to
right, without those of built-in character classes, until tokens are merged, which takes out `ANY`
only. The names of the lowered body are those of the body that are not under a predicate, though
lowering may repeat them. -/
def Rule.IsBlock (expandPlus : Bool) (r : Rule) (block : Text) : Prop :=
  ∃ lowered body, r.lower (Target.ungram.lowering expandPlus) = .ok lowered ∧
    block = Target.ungram.ruleName r ++ " =\n  ".toList ++ NodeGrammar.mergeTokens body ∧
    body.words = (lowered.body.names.filter fun n => (builtinToken? n).isNone).map
      Text.pascalCase ∧
    (NodeGrammar.mergeTokens body).words.filter Splicing.isKept =
      body.words.filter Splicing.isKept ∧
    ∀ n, n ∈ lowered.body.names ↔ n ∈ r.body.names

theorem Rule.isBlock_of_ruleText {r lowered : Rule} {expandPlus : Bool} {b : Text}
    (hname : r.name.isName) (hbody : r.body.Sound)
    (hlower : r.lower (Target.ungram.lowering expandPlus) = .ok lowered)
    (h : NodeGrammar.ruleText lowered.nodeNamed = .ok b) :
    r.IsBlock expandPlus (NodeGrammar.mergeTokens b) := by
  have hplain := isPlain_of_lower hname hbody hlower
  have hkept : lowered.nodeNamed.name = Target.ungram.ruleName r :=
    ruleName_of_lower .ungram hlower
  unfold NodeGrammar.ruleText at h
  split at h
  next => cases h
  next body hwritten =>
    cases h
    obtain ⟨htokens, hwords⟩ := hplain.body.words_bodyText hwritten
    have hhead : '\x27' ∉ lowered.nodeNamed.name ++ " =\n  ".toList :=
      List.not_mem_append (Text.quote_notMem_of_isWord hplain.name) (by decide)
    refine ⟨lowered, body, hlower, ?_, ?_, NodeGrammar.words_mergeTokens htokens,
      mem_names_of_lower hlower⟩
    · rw [NodeGrammar.mergeTokens_append_of_notMem hhead, hkept]
    · rw [hwords]
      exact Expr.names_nodeNamed lowered.body

namespace Grammar

/-- Blocks have the names of their rules and go by these names in bodies. -/
theorem blocks_of_convert {source t : Text} {g : Grammar} {expandPlus : Bool}
    (hread : ofText source = .ok g) (h : g.convert .ungram expandPlus = .ok t) :
    ∃ blocks, List.Forall₂ (Rule.IsBlock expandPlus) g.rules blocks ∧
      t = Text.join "\n\n".toList (blocks ++ g.start.elim [] fun symbol =>
        [NodeGrammar.startBlock symbol.pascalCase]) ++ ['\n'] ∧
      Target.ungram.LeavesStart g ∧
      ∀ r ∈ g.rules, ∀ r' ∈ g.rules, r ≠ r' →
        r.name.isSnake ∧ r'.name.isSnake ∨ r.name.folded ≠ r'.name.folded →
          Target.ungram.ruleName r ≠ Target.ungram.ruleName r' := by
  obtain ⟨hsound, hstart⟩ := sound_of_ofText hread
  have hsymbol : ∀ symbol ∈ g.start, symbol.isWord :=
    fun symbol hsymbol => Text.isWord_of_isName (hstart symbol hsymbol)
  rw [convert_eq, bind_eq_ok] at h
  obtain ⟨rules, hlower, htext⟩ := h
  obtain ⟨lowered, hlowered, rfl⟩ := exists_map_of_mapM_eq_ok hlower
  have hnames : ∀ r ∈ g.rules.map lowered, r.name.isWord :=
    List.forall_mem_map.2 fun r hr => Rule.isWord_name_of_lower (hsound r hr).1 (hlowered r hr)
  obtain ⟨bs, hbs, hfree, rfl⟩ := (NodeGrammar.grammarText_eq_ok_iff
    (g := ⟨g.rules.map lowered, g.start⟩) hnames hsymbol).1 htext
  rw [List.mapM_map] at hbs
  obtain ⟨block, hblock, rfl⟩ := exists_map_of_mapM_eq_ok hbs
  have hblocks : List.Forall₂ (Rule.IsBlock expandPlus) g.rules
      ((g.rules.map block).map NodeGrammar.mergeTokens) := by
    rw [List.map_map, List.forall₂_map_right_iff, List.forall₂_same]
    exact fun r hr =>
      Rule.isBlock_of_ruleText (hsound r hr).1 (hsound r hr).2 (hlowered r hr) (hblock r hr)
  have hstarts : Target.ungram.LeavesStart g :=
    (Target.leavesStart_map fun r hr => Rule.ruleName_of_lower .ungram (hlowered r hr)).1 hfree
  refine ⟨_, hblocks, rfl, hstarts, fun r hr r' hr' hne happart => ?_⟩
  have hrest {r : Rule} (hr : r ∈ g.rules) : ∀ c ∈ r.name, isNameRest c :=
    fun _ => Text.isNameRest_of_mem (hsound r hr).1
  exact Text.pascalCase_ne (hrest hr) (hrest hr') (name_ne_of_ofText hread hr hr' hne) happart

theorem blocks_of_convert_snake :
    let list : Rule :=
      ⟨"stmt_list".toList, .list (.name "stmt".toList) ⟨[';'], .single⟩ ⟨true, true⟩, false⟩
    let stmt : Rule :=
      ⟨"stmt".toList, .seq [.name "ASCII_DIGIT".toList, .ahead (.name "EOI".toList)], false⟩
    let g : Grammar := ⟨[list, stmt], some list.name⟩
    let source :=
      "# start stmt_list\nstmt_list ::= stmt % ';' ...+\nstmt ::= ASCII_DIGIT &EOI\n".toList
    let text := ("StmtList =\n  (Stmt ';')* Stmt ';'?\n\nStmt =\n  'digit'\n\n".toList ++
      "SourceFile = StmtList\n".toList)
    (ofText source = .ok g ∧ g.convert .ungram false = .ok text) ∧
      Target.ungram.ruleName list ≠ Target.ungram.ruleName stmt ∧
      ∃ blocks, List.Forall₂ (Rule.IsBlock false) [list, stmt] blocks ∧
        text = Text.join "\n\n".toList (blocks ++ [NodeGrammar.startBlock "StmtList".toList]) ++
          ['\n'] := by
  intro list stmt g source text
  have hg : g.WellFormed := ⟨by decide, by decide, by decide⟩
  have houtline : Outline.ofText source =
      .ok ⟨[⟨list.name, 18, ' ' :: list.body.text, 31, false⟩,
        ⟨stmt.name, 48, ' ' :: stmt.body.text, 56, false⟩], some ⟨list.name, 0⟩⟩ := by decide
  have hread : ofText source = .ok g :=
    ofText_of_defines hg houtline (.cons ⟨rfl, rfl, rfl⟩ (.cons ⟨rfl, rfl, rfl⟩ .nil)) rfl
  have hconvert : g.convert .ungram false = .ok text := by decide
  obtain ⟨blocks, hblocks, htext, -, hapart⟩ := blocks_of_convert hread hconvert
  exact ⟨⟨hread, hconvert⟩,
    hapart list (by decide) stmt (by decide) (by decide) (.inl ⟨by decide, by decide⟩),
    blocks, hblocks, htext⟩

/-- The name of a rule may become a token, and may be lost under a predicate and in a quoted string.
Two rules may become blocks of one name. -/
theorem blocks_may_coincide :
    let digit : Rule := ⟨"ASCII_DIGIT".toList, .literal ⟨['0'], .double⟩, false⟩
    let num : Rule := ⟨"num".toList, .name digit.name, false⟩
    let any : Rule := ⟨"ANY".toList, .literal ⟨['x'], .single⟩, false⟩
    let quote : Expr := .literal ⟨['"'], .single⟩
    let string : Rule := ⟨"a_b".toList, .seq [quote, .star (.name any.name), quote], false⟩
    let other : Rule := ⟨"aB".toList, .seq [.notAhead (.name any.name), .name string.name], false⟩
    let name := Target.ungram.ruleName
    (ofText "ASCII_DIGIT ::= \"0\"\nnum ::= ASCII_DIGIT\n".toList = .ok ⟨[digit, num], none⟩ ∧
      Grammar.convert .ungram false ⟨[digit, num], none⟩ =
        .ok (name digit ++ " =\n  '0'\n\n".toList ++ name num ++ " =\n  'digit'\n".toList)) ∧
    (ofText "ANY ::= 'x'\na_b ::= '\"' ANY* '\"'\naB ::= !ANY a_b\n".toList =
        .ok ⟨[any, string, other], none⟩ ∧
      Grammar.convert .ungram false ⟨[any, string, other], none⟩ =
        .ok (name any ++ " =\n  'x'\n\n".toList ++ name string ++ " =\n  'Str'\n\n".toList ++
          name other ++ " =\n  ".toList ++ name string ++ ['\n']) ∧
      string ≠ other ∧ name string = name other) := by
  intro digit num any quote string other name
  have hpair : WellFormed ⟨[digit, num], none⟩ := ⟨by decide, by decide, by decide⟩
  have hthree : WellFormed ⟨[any, string, other], none⟩ :=
    ⟨by decide, by decide, by decide⟩
  have hpairLines : Outline.ofText "ASCII_DIGIT ::= \"0\"\nnum ::= ASCII_DIGIT\n".toList =
      .ok ⟨[⟨digit.name, 0, ' ' :: digit.body.text, 15, false⟩,
        ⟨num.name, 20, ' ' :: num.body.text, 27, false⟩], none⟩ := by decide
  have hthreeLines : Outline.ofText
      "ANY ::= 'x'\na_b ::= '\"' ANY* '\"'\naB ::= !ANY a_b\n".toList =
      .ok ⟨[⟨any.name, 0, ' ' :: any.body.text, 7, false⟩,
        ⟨string.name, 12, ' ' :: string.body.text, 19, false⟩,
        ⟨other.name, 33, ' ' :: other.body.text, 39, false⟩], none⟩ := by decide
  refine ⟨⟨?_, by decide⟩, ?_, by decide, by decide, by decide⟩
  · exact ofText_of_defines hpair hpairLines
      (.cons ⟨rfl, rfl, rfl⟩ (.cons ⟨rfl, rfl, rfl⟩ .nil)) rfl
  · exact ofText_of_defines hthree hthreeLines
      (.cons ⟨rfl, rfl, rfl⟩ (.cons ⟨rfl, rfl, rfl⟩ (.cons ⟨rfl, rfl, rfl⟩ .nil))) rfl

end Grammar
end ExtendedBnf
