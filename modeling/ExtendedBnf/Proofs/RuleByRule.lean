import ExtendedBnf.Conversion
import ExtendedBnf.Proofs.MergedBlocks
import ExtendedBnf.Proofs.ReadGrammars
import ExtendedBnf.Proofs.Writable

/-!
# Conversion rule by rule

Each rule is lowered, named and written without regard to the others, and tokens are
merged block by block. So the text of a grammar is put together from the texts of
its rules, each converted alone, and from the start rule. Only the name of the start
rule is compared with the names of the rules.
-/
namespace ExtendedBnf
open Reader (Starts starts_cons)

namespace Target

/-- What stands between the text of a rule and the one before. -/
def gapBefore : Target → Rule → Text
  | pest, r => PestGrammar.gapBefore r
  | ungram, _ => ['\n']

/-- The rule made for the start symbol, with what sets it off. -/
def startText : Target → Text → Text
  | pest, symbol => PestGrammar.startRule symbol
  | ungram, symbol => '\n' :: NodeGrammar.startBlock symbol.pascalCase ++ ['\n']

/-- The texts of the rules one after the other, each but the first with its gap before it. -/
def assemble (target : Target) : List Rule → List Text → Text
  | _ :: rs, t :: ts => t ++ (List.zipWith (fun r t => target.gapBefore r ++ t) rs ts).flatten
  | _, _ => []

theorem assemble_map {target : Target} {f : Rule → Rule} {rs : List Rule} {ts : List Text}
    (h : ∀ r ∈ rs, target.gapBefore (f r) = target.gapBefore r) :
    target.assemble (rs.map f) ts = target.assemble rs ts := by
  have hgaps {rs : List Rule} (h : ∀ r ∈ rs, target.gapBefore (f r) = target.gapBefore r)
      (ts : List Text) : List.zipWith (fun r t => target.gapBefore (f r) ++ t) rs ts =
        List.zipWith (fun r t => target.gapBefore r ++ t) rs ts := by
    induction rs generalizing ts with
    | nil => rfl
    | cons r rs ih =>
      cases ts with
      | nil => rfl
      | cons t ts =>
        have hrest := ih (fun x hx => h x (List.mem_cons_of_mem r hx)) ts
        rw [List.zipWith_cons_cons, List.zipWith_cons_cons, hrest, h r List.mem_cons_self]
  cases rs with
  | nil => rfl
  | cons r rs =>
    cases ts with
    | nil => rfl
    | cons t ts =>
      rw [List.map_cons, assemble, assemble, List.zipWith_map_left,
        hgaps (fun x hx => h x (List.mem_cons_of_mem r hx))]

/-- A lowered rule as the target writes it. -/
def ruleText : Target → Rule → Except Fault Text
  | pest, r => PestGrammar.ruleText r
  | ungram, r =>
    (NodeGrammar.ruleText r.nodeNamed).map fun block => NodeGrammar.mergeTokens block ++ ['\n']

/-- A grammar of lowered rules as the target writes it. -/
def grammarText : Target → Grammar → Except Fault Text
  | pest, g => PestGrammar.text g
  | ungram, g => NodeGrammar.text ⟨g.rules.map Rule.nodeNamed, g.start.map Text.pascalCase⟩

/-- If there is a start symbol, no rule has the name of the rule made for it. -/
def LeavesStart (target : Target) (g : Grammar) : Prop :=
  g.start.isSome → ∀ r ∈ g.rules, target.ruleName r ≠ target.startName

theorem leavesStart_map {target : Target} {f : Rule → Rule} {g : Grammar}
    (h : ∀ r ∈ g.rules, target.ruleName (f r) = target.ruleName r) :
    target.LeavesStart ⟨g.rules.map f, g.start⟩ ↔ target.LeavesStart g := by
  refine imp_congr_right fun _ => ?_
  rw [List.forall_mem_map]
  exact forall₂_congr fun r hr => by rw [h r hr]

end Target

/-- Converting is lowering the rules and writing them. -/
theorem Grammar.convert_eq (target : Target) (expandPlus : Bool) (g : Grammar) :
    g.convert target expandPlus = g.rules.mapM (Rule.lower (target.lowering expandPlus)) >>=
      fun rules => target.grammarText ⟨rules, g.start⟩ := by
  cases target <;> rfl

namespace Rule
variable {r lowered : Rule} {l : Lowering}

instance : Inhabited Rule := ⟨⟨[], default, false⟩⟩

/-- The rule alone as a text for the target. -/
def convertAlone (target : Target) (expandPlus : Bool) (r : Rule) : Except Fault Text :=
  (⟨[r], none⟩ : Grammar).convert target expandPlus

theorem isWord_name_of_lower (hname : r.name.isName) (h : r.lower l = .ok lowered) :
    lowered.name.isWord := by
  obtain ⟨body, rfl⟩ := exists_body_of_lower h
  exact Text.isWord_of_isName hname

theorem gapBefore_of_lower (target : Target) (h : r.lower l = .ok lowered) :
    target.gapBefore lowered = target.gapBefore r := by
  obtain ⟨body, rfl⟩ := exists_body_of_lower h
  cases target <;> rfl

/-- Lowering a rule and writing it is all there is to a rule alone. -/
theorem convertAlone_eq (target : Target) (expandPlus : Bool) (r : Rule) :
    r.convertAlone target expandPlus =
      r.lower (target.lowering expandPlus) >>= target.ruleText := by
  have hone (lowered : Rule) : target.grammarText ⟨[lowered], none⟩ = target.ruleText lowered := by
    cases target with
    | pest =>
      simp only [Target.grammarText, Target.ruleText, PestGrammar.text, PestGrammar.rules,
        PestGrammar.furtherRules]
      cases PestGrammar.ruleText lowered with
      | error fault => rfl
      | ok line => exact congrArg Except.ok (List.append_nil line)
    | ungram =>
      simp only [Target.grammarText, Target.ruleText, NodeGrammar.text, NodeGrammar.layout,
        NodeGrammar.blocks, List.map_singleton, List.mapM_cons, List.mapM_nil]
      cases NodeGrammar.ruleText lowered.nodeNamed with
      | error fault => rfl
      | ok block => exact congrArg Except.ok (NodeGrammar.mergeTokens_append_break .last)
  rw [convertAlone, Grammar.convert_eq, List.mapM_cons, List.mapM_nil]
  cases r.lower (target.lowering expandPlus) with
  | error fault => rfl
  | ok lowered => exact hone lowered

end Rule

/-- A start rule is added just if no rule has its name. -/
theorem withStart_eq_ok_iff {α : Type} {g : Grammar} {name : Text} {fault : Fault}
    {written all : List α} {added : Text → List α} :
    (match g.start with
      | none => (pure written : Except Fault (List α))
      | some symbol =>
        if g.rules.any (·.name == name) then .error fault else pure (written ++ added symbol)) =
          .ok all ↔
      (g.start.isSome → ∀ r ∈ g.rules, r.name ≠ name) ∧ all = written ++ g.start.elim [] added := by
  cases g.start with
  | none => simp [pure_eq_ok, eq_comm (a := all)]
  | some symbol =>
    dsimp only
    split
    next hany =>
      obtain ⟨r, hr, hname⟩ := List.any_eq_true.1 hany
      simp only [reduceCtorEq, false_iff]
      exact fun h => h.1 rfl r hr (eq_of_beq hname)
    next hnone =>
      have hfree : ∀ r ∈ g.rules, r.name ≠ name := by simpa using hnone
      exact ⟨fun h => ⟨fun _ => hfree, (pure_eq_ok.1 h).symm⟩, fun h => pure_eq_ok.2 h.2.symm⟩

namespace PestGrammar

theorem furtherRules_eq_ok_iff {rs : List Rule} {t : Text} : furtherRules rs = .ok t ↔
    ∃ ts, rs.mapM ruleText = .ok ts ∧
      t = (List.zipWith (fun r t => gapBefore r ++ t) rs ts).flatten := by
  induction rs generalizing t with
  | nil =>
    constructor
    · rintro ⟨⟩
      exact ⟨[], rfl, rfl⟩
    · rintro ⟨_, ⟨⟩, rfl⟩
      rfl
  | cons r rs ih =>
    simp only [furtherRules, List.mapM_cons, bind_eq_ok, pure_eq_ok, ih]
    constructor
    · rintro ⟨line, hline, _, ⟨ts, hts, rfl⟩, rfl⟩
      exact ⟨line :: ts, ⟨line, hline, ts, hts, rfl⟩, by simp⟩
    · rintro ⟨_, ⟨line, hline, ts, hts, rfl⟩, rfl⟩
      exact ⟨line, hline, _, ⟨ts, hts, rfl⟩, by simp⟩

theorem rules_eq_ok_iff {rs : List Rule} {t : Text} : rules rs = .ok t ↔
    ∃ ts, rs.mapM ruleText = .ok ts ∧ t = Target.pest.assemble rs ts := by
  cases rs with
  | nil =>
    constructor
    · rintro ⟨⟩
      exact ⟨[], rfl, rfl⟩
    · rintro ⟨_, ⟨⟩, rfl⟩
      rfl
  | cons r rs =>
    simp only [rules, List.mapM_cons, bind_eq_ok, pure_eq_ok, furtherRules_eq_ok_iff]
    constructor
    · rintro ⟨line, hline, _, ⟨ts, hts, rfl⟩, rfl⟩
      exact ⟨line :: ts, ⟨line, hline, ts, hts, rfl⟩, rfl⟩
    · rintro ⟨_, ⟨line, hline, ts, hts, rfl⟩, rfl⟩
      exact ⟨line, hline, _, ⟨ts, hts, rfl⟩, rfl⟩

theorem text_eq_ok_iff {g : Grammar} {t : Text} : text g = .ok t ↔
    ∃ ts, g.rules.mapM ruleText = .ok ts ∧ Target.pest.LeavesStart g ∧
      t = Target.pest.assemble g.rules ts ++ g.start.elim [] startRule := by
  unfold text
  rw [bind_eq_ok]
  simp only [rules_eq_ok_iff]
  constructor
  · rintro ⟨_, ⟨ts, hts, rfl⟩, hstart⟩
    exact ⟨ts, hts, withStart_eq_ok_iff.1 hstart⟩
  · rintro ⟨ts, hts, hstart⟩
    exact ⟨_, ⟨ts, hts, rfl⟩, withStart_eq_ok_iff.2 hstart⟩

end PestGrammar

namespace NodeGrammar
variable {g : Grammar} {t : Text}

theorem blocks_eq_ok_iff {bs : List Text} : blocks g = .ok bs ↔
    ∃ written, g.rules.mapM ruleText = .ok written ∧
      (g.start.isSome → ∀ r ∈ g.rules, r.name ≠ startName) ∧
      bs = written ++ g.start.elim [] fun symbol => [startBlock symbol] := by
  unfold blocks
  rw [bind_eq_ok]
  exact exists_congr fun written => and_congr_right fun _ => withStart_eq_ok_iff

/-- A block starts with the name of its rule. -/
theorem starts_of_ruleText {r : Rule} {b : Text} (hname : r.name.isWord)
    (h : ruleText r = .ok b) : Starts isNameRest b := by
  unfold ruleText at h
  split at h
  next => cases h
  next =>
    cases h
    exact ((Text.starts_of_isWord hname).append _).append _

/-- The block of the start symbol has no tokens. -/
theorem mergeTokens_startBlock {symbol : Text} (h : symbol.isWord) :
    mergeTokens (startBlock symbol) = startBlock symbol := by
  have hname : '\x27' ∉ startName ++ " = ".toList := by decide
  exact mergeTokens_eq_self_of_notMem (List.not_mem_append hname (Text.quote_notMem_of_isWord h))

/-- Every block but the first with an empty line before it, and each with its line feed. -/
theorem join_append_feed (b : Text) (bs : List Text) :
    Text.join "\n\n".toList (b :: bs) ++ ['\n'] =
      b ++ ['\n'] ++ bs.flatMap fun b => '\n' :: b ++ ['\n'] := by
  induction bs generalizing b with
  | nil => exact (List.append_nil _).symm
  | cons b' bs ih =>
    rw [Text.join_cons_cons, List.append_assoc, List.append_assoc, ih b']
    simp

theorem assemble_eq {rs : List Rule} {t : Text} {ts : List Text} {r : Rule}
    (h : rs.length = ts.length) :
    Target.ungram.assemble (r :: rs) (t :: ts) = t ++ ts.flatMap ('\n' :: ·) := by
  have hgaps : (List.zipWith (fun r t => Target.ungram.gapBefore r ++ t) rs ts).flatten =
      ts.flatMap ('\n' :: ·) := by
    induction rs generalizing ts with
    | nil =>
      obtain rfl := List.length_eq_zero_iff.1 h.symm
      rfl
    | cons r rs ih =>
      obtain ⟨t, ts, rfl⟩ := List.exists_cons_of_length_eq_add_one h.symm
      have hrest := ih (Nat.succ.inj h)
      rw [List.zipWith_cons_cons, List.flatten_cons, hrest]
      rfl
  rw [Target.assemble, hgaps]

/-- The text of a grammar is its blocks with their tokens merged. -/
theorem text_eq_ok_iff (hnames : ∀ r ∈ g.rules, r.name.isWord)
    (hstart : ∀ symbol ∈ g.start, symbol.isWord) : text g = .ok t ↔
      ∃ bs, g.rules.mapM ruleText = .ok bs ∧
        (g.start.isSome → ∀ r ∈ g.rules, r.name ≠ startName) ∧
        t = Text.join "\n\n".toList (bs.map mergeTokens ++
          g.start.elim [] fun symbol => [startBlock symbol]) ++ ['\n'] := by
  have hmerged {bs : List Text} (hbs : g.rules.mapM ruleText = .ok bs) :
      mergeTokens (Text.join "\n\n".toList
        (bs ++ g.start.elim [] fun symbol => [startBlock symbol]) ++ ['\n']) =
      Text.join "\n\n".toList (bs.map mergeTokens ++
        g.start.elim [] fun symbol => [startBlock symbol]) ++ ['\n'] := by
    have hblocks : ∀ b ∈ bs, Starts isNameRest b := by
      intro b hb
      obtain ⟨r, hr, hrule⟩ := exists_mem_of_mem_mapM hbs hb
      exact starts_of_ruleText (hnames r hr) hrule
    cases hsymbol : g.start with
    | none =>
      rw [Option.elim, List.append_nil, List.append_nil]
      exact mergeTokens_join hblocks
    | some symbol =>
      have hall : ∀ b ∈ bs ++ [startBlock symbol], Starts isNameRest b :=
        List.forall_mem_append.2 ⟨hblocks, List.forall_mem_singleton.2 (starts_cons.2 rfl)⟩
      rw [Option.elim, mergeTokens_join hall, List.map_append, List.map_singleton,
        mergeTokens_startBlock (hstart symbol hsymbol)]
  simp only [text, layout, map_eq_ok, blocks_eq_ok_iff]
  constructor
  · rintro ⟨_, ⟨_, ⟨bs, hbs, hfree, rfl⟩, rfl⟩, rfl⟩
    exact ⟨bs, hbs, hfree, hmerged hbs⟩
  · rintro ⟨bs, hbs, hfree, rfl⟩
    exact ⟨_, ⟨_, ⟨bs, hbs, hfree, rfl⟩, rfl⟩, hmerged hbs⟩

/-- The text of a grammar of lowered rules is their blocks with the tokens merged. -/
theorem grammarText_eq_ok_iff (hnames : ∀ r ∈ g.rules, r.name.isWord)
    (hstart : ∀ symbol ∈ g.start, symbol.isWord) : Target.ungram.grammarText g = .ok t ↔
      ∃ bs, g.rules.mapM (fun r => ruleText r.nodeNamed) = .ok bs ∧ Target.ungram.LeavesStart g ∧
        t = Text.join "\n\n".toList (bs.map mergeTokens ++
          g.start.elim [] fun symbol => [startBlock symbol.pascalCase]) ++ ['\n'] := by
  have hnamed : ∀ r ∈ g.rules.map Rule.nodeNamed, r.name.isWord :=
    List.forall_mem_map.2 fun r hr => Text.isWord_pascalCase (hnames r hr)
  have hsymbol : ∀ symbol ∈ g.start.map Text.pascalCase, symbol.isWord := by
    intro symbol hsymbol
    obtain ⟨n, hn, rfl⟩ := Option.map_eq_some_iff.1 hsymbol
    exact Text.isWord_pascalCase (hstart n hn)
  have hfree : ((g.start.map Text.pascalCase).isSome → ∀ r ∈ g.rules.map Rule.nodeNamed,
      r.name ≠ startName) ↔ Target.ungram.LeavesStart g := by
    rw [Option.isSome_map, List.forall_mem_map]
    rfl
  have hadded : ((g.start.map Text.pascalCase).elim [] fun symbol => [startBlock symbol]) =
      g.start.elim [] fun symbol => [startBlock symbol.pascalCase] := by
    cases g.start <;> rfl
  have htext := text_eq_ok_iff (t := t)
    (g := ⟨g.rules.map Rule.nodeNamed, g.start.map Text.pascalCase⟩) hnamed hsymbol
  rwa [hfree, hadded, List.mapM_map] at htext

/-- Blocks in a row are the rules with an empty line between them. -/
theorem join_blocks {rs : List Rule} {bs : List Text} (hrules : rs ≠ [])
    (h : rs.mapM (fun r => ruleText r.nodeNamed) = .ok bs) (start : Option Text) :
    Text.join "\n\n".toList (bs.map mergeTokens ++
        start.elim [] fun symbol => [startBlock symbol.pascalCase]) ++ ['\n'] =
      Target.ungram.assemble rs (bs.map fun b => mergeTokens b ++ ['\n']) ++
        start.elim [] Target.ungram.startText := by
  obtain ⟨block, -, rfl⟩ := exists_map_of_mapM_eq_ok h
  obtain ⟨r, rs, rfl⟩ := List.exists_cons_of_ne_nil hrules
  rw [List.map_cons, List.map_cons, List.map_cons, List.cons_append, join_append_feed,
    assemble_eq (by simp)]
  cases start <;> simp [List.flatMap_map, Target.startText]

end NodeGrammar

/-- A grammar of lowered rules is written rule by rule. -/
theorem Target.grammarText_eq_ok_iff (target : Target) {g : Grammar} {t : Text}
    (hrules : g.rules ≠ []) (hnames : ∀ r ∈ g.rules, r.name.isWord)
    (hstart : ∀ symbol ∈ g.start, symbol.isWord) : target.grammarText g = .ok t ↔
      ∃ ts, g.rules.mapM target.ruleText = .ok ts ∧ target.LeavesStart g ∧
        t = target.assemble g.rules ts ++ g.start.elim [] target.startText := by
  cases target with
  | pest => exact PestGrammar.text_eq_ok_iff
  | ungram =>
    rw [NodeGrammar.grammarText_eq_ok_iff hnames hstart]
    constructor
    · rintro ⟨bs, hbs, hfree, rfl⟩
      exact ⟨_, mapM_map_eq_ok_iff.2 ⟨bs, hbs, rfl⟩, hfree,
        NodeGrammar.join_blocks hrules hbs g.start⟩
    · rintro ⟨_, hts, hfree, rfl⟩
      obtain ⟨bs, hbs, rfl⟩ := mapM_map_eq_ok_iff.1 hts
      exact ⟨bs, hbs, hfree, (NodeGrammar.join_blocks hrules hbs g.start).symm⟩

/-- Lowered rules are written with the names and the gaps of the rules they come from. -/
theorem Target.grammarText_lowered_eq_ok_iff (target : Target) {g : Grammar} {l : Lowering}
    {rules : List Rule} {t : Text} (hrules : g.rules ≠ []) (hnames : ∀ r ∈ g.rules, r.name.isName)
    (hstart : ∀ symbol ∈ g.start, symbol.isWord)
    (hlower : g.rules.mapM (Rule.lower l) = .ok rules) :
    target.grammarText ⟨rules, g.start⟩ = .ok t ↔
      ∃ ts, rules.mapM target.ruleText = .ok ts ∧ target.LeavesStart g ∧
        t = target.assemble g.rules ts ++ g.start.elim [] target.startText := by
  obtain ⟨lowered, hlowered, rfl⟩ := exists_map_of_mapM_eq_ok hlower
  have hgap : ∀ r ∈ g.rules, target.gapBefore (lowered r) = target.gapBefore r :=
    fun r hr => Rule.gapBefore_of_lower target (hlowered r hr)
  have hname : ∀ r ∈ g.rules, target.ruleName (lowered r) = target.ruleName r :=
    fun r hr => Rule.ruleName_of_lower target (hlowered r hr)
  have hwords : ∀ r ∈ g.rules.map lowered, r.name.isWord :=
    List.forall_mem_map.2 fun r hr => Rule.isWord_name_of_lower (hnames r hr) (hlowered r hr)
  have htext := target.grammarText_eq_ok_iff (t := t) (g := ⟨g.rules.map lowered, g.start⟩)
    (by simpa) hwords hstart
  rw [htext, Target.leavesStart_map hname]
  simp only [Target.assemble_map hgap]

namespace Grammar

/-- Rules are converted independently and in their order. -/
theorem convert_eq_ok_iff {source t : Text} {g : Grammar} (target : Target) (expandPlus : Bool)
    (hread : ofText source = .ok g) (hrules : g.rules ≠ []) :
    g.convert target expandPlus = .ok t ↔
      ∃ ts, g.rules.mapM (Rule.convertAlone target expandPlus) = .ok ts ∧ target.LeavesStart g ∧
        t = target.assemble g.rules ts ++ g.start.elim [] target.startText := by
  obtain ⟨hsound, hstart⟩ := sound_of_ofText hread
  have hnames : ∀ r ∈ g.rules, r.name.isName := fun r hr => (hsound r hr).1
  have hsymbol : ∀ symbol ∈ g.start, symbol.isWord :=
    fun symbol h => Text.isWord_of_isName (hstart symbol h)
  have halone : Rule.convertAlone target expandPlus =
      fun r => r.lower (target.lowering expandPlus) >>= target.ruleText :=
    funext (Rule.convertAlone_eq target expandPlus)
  rw [convert_eq, bind_eq_ok, halone]
  simp only [mapM_bind_eq_ok_iff]
  constructor
  · rintro ⟨rules, hlower, htext⟩
    obtain ⟨ts, hts, hrest⟩ :=
      (target.grammarText_lowered_eq_ok_iff hrules hnames hsymbol hlower).1 htext
    exact ⟨ts, ⟨rules, hlower, hts⟩, hrest⟩
  · rintro ⟨ts, ⟨rules, hlower, hts⟩, hrest⟩
    have htext := (target.grammarText_lowered_eq_ok_iff hrules hnames hsymbol hlower).2
      ⟨ts, hts, hrest⟩
    exact ⟨rules, hlower, htext⟩

theorem convert_eq_ok_iff_merged :
    let quote : Expr := .literal ⟨['"'], .single⟩
    let string : Rule := ⟨['s'], .seq [quote, .star (.name "ANY".toList), quote], false⟩
    let gap : Rule := ⟨"gap".toList, .alt [.literal ⟨[' '], .single⟩,
      .literal ⟨['\\', 't'], .single⟩, .literal ⟨['\\', 'n'], .single⟩], true⟩
    let g : Grammar := ⟨[string, gap], some ['s']⟩
    let source := "# start s\ns ::= '\"' ANY* '\"'\n#atomic gap ::= ' ' | '\\t' | '\\n'\n".toList
    ofText source = .ok g ∧ g.rules ≠ [] ∧
      g.convert .ungram false =
        .ok "S =\n  'Str'\n\nGap =\n  ' '\n\nSourceFile = S\n".toList ∧
      g.convert .pest false = .ok ("s = \x7b \"\\\"\" ~ ANY* ~ \"\\\"\" \x7d\n\n".toList ++
        "gap = @\x7b \" \" | \"\\t\" | \"\\n\" \x7d\nstart = \x7b SOI ~ s ~ EOI \x7d\n".toList) := by
  intro quote string gap g source
  have hg : g.WellFormed := ⟨by decide, by decide, by decide⟩
  have houtline : Outline.ofText source =
      .ok ⟨[⟨['s'], 10, ' ' :: string.body.text, 15, false⟩,
        ⟨"gap".toList, 37, ' ' :: gap.body.text, 44, true⟩], some ⟨['s'], 0⟩⟩ := by decide
  have hread : ofText source = .ok g :=
    ofText_of_defines hg houtline (.cons ⟨rfl, rfl, rfl⟩ (.cons ⟨rfl, rfl, rfl⟩ .nil)) rfl
  have hrules : g.rules ≠ [] := by decide
  have hnodes : g.rules.mapM (Rule.convertAlone .ungram false) =
      .ok ["S =\n  'Str'\n".toList, "Gap =\n  ' '\n".toList] := by decide
  have hlines : g.rules.mapM (Rule.convertAlone .pest false) =
      .ok ["s = \x7b \"\\\"\" ~ ANY* ~ \"\\\"\" \x7d\n".toList,
        "gap = @\x7b \" \" | \"\\t\" | \"\\n\" \x7d\n".toList] := by decide
  refine ⟨hread, hrules, ?_, ?_⟩
  · exact (convert_eq_ok_iff .ungram false hread hrules).2
      ⟨_, hnodes, fun _ => by decide, by decide⟩
  · exact (convert_eq_ok_iff .pest false hread hrules).2
      ⟨_, hlines, fun _ => by decide, by decide⟩

end Grammar
end ExtendedBnf
