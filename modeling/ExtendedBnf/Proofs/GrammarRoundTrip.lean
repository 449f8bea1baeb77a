import ExtendedBnf.Proofs.LineSteps
import ExtendedBnf.Proofs.RoundTrip
import ExtendedBnf.Proofs.SourceLines
import Mathlib.Data.List.Forall2

/-!
# Grammars read back from their text

The lines of a written grammar are read one after the other. After each of them the
definitions known so far are the rules written so far, each with its body as text,
and no mark is left over. At the end every body reads back from its text, so the
grammar is the one that was written.
-/
namespace ExtendedBnf

/-- The definition is the rule with its body still as text. -/
structure Definition.Defines (d : Definition) (r : Rule) : Prop where
  name : d.name = r.name
  body : d.body = ' ' :: r.body.text
  atomic : d.atomic = r.atomic

/-- The rule is read from the definition. -/
structure Definition.Reads (d : Definition) (r : Rule) : Prop where
  name : d.name = r.name
  body : Expr.ofText d.body = .ok r.body
  atomic : d.atomic = r.atomic

theorem Definition.Reads.says {d : Definition} {r : Rule} (h : d.Reads r) : Says d.body r.body :=
  Reader.meaning_of_read (Expr.ofText_eq_ok_iff_read.1 h.body)

/-- The grammar is read from the outline: rule by rule, no two with the same name, and the start
symbol is the name of one. -/
structure Outline.Reads (o : Outline) (g : Grammar) : Prop where
  rules : List.Forall₂ Definition.Reads o.definitions g.rules
  distinct : (g.rules.map (·.name)).Nodup
  start : o.start.map (·.symbol) = g.start
  defined : ∀ symbol ∈ g.start, symbol ∈ g.rules.map (·.name)

namespace Outline.State
variable {s : State} {rules : List Rule} {start : Option Text} {r : Rule}

/-- What is known is that the grammar has these rules so far, and this start symbol. -/
structure Holds (s : State) (rules : List Rule) (start : Option Text) : Prop where
  mark : s.mark = none
  start : s.outline.start.map (·.symbol) = start
  written : List.Forall₂ Definition.Defines s.written rules
  /-- The pending definition has a body. -/
  solid : ∀ p ∈ s.pending, p.definition.body.isBlankText = false

theorem close_eq (h : ∀ p ∈ s.pending, p.definition.body.isBlankText = false) :
    s.close = .ok { s with
      outline := { s.outline with definitions := s.written }
      pending := none } := by
  obtain ⟨offset, outline, pending, mark⟩ := s
  unfold close written
  cases pending with
  | none => simp
  | some p =>
    have hsolid := h p rfl
    simp [hsolid]

/-- The mark of a rule is noted where there is one. -/
theorem takeMark_rule (hmark : s.mark = none) (ending : Text) :
    ∃ mark : Option Nat, s.takeMark ⟨[], r.marker, r.code, [], ending⟩ = .ok { s with mark } ∧
      mark.isSome = r.atomic := by
  obtain ⟨offset, outline, pending, mark⟩ := s
  obtain rfl : mark = none := hmark
  unfold takeMark Line.isMarked Rule.marker
  cases r.atomic with
  | true => exact ⟨some _, rfl, rfl⟩
  | false => exact ⟨none, rfl, rfl⟩

theorem takeContent_of_hasCode {line : Line} (h : line.hasCode) :
    s.takeContent line = s.takeCode line := by rw [takeContent, if_pos h]

section
variable (hr : r.WellFormed)
include hr

/-- The code of a rule ends the definition before it and is pending itself. -/
theorem takeCode_rule (hsolid : ∀ p ∈ s.pending, p.definition.body.isBlankText = false)
    (ending : Text) :
    ∃ d gap, s.takeCode ⟨[], r.marker, r.code, [], ending⟩ = .ok { s with
        outline := { s.outline with definitions := s.written }
        pending := some ⟨d, gap⟩
        mark := none } ∧
      d.name = r.name ∧ d.body = ' ' :: r.body.text ∧ d.atomic = s.mark.isSome := by
  have hbody : Text.trimEnd (("::= ".toList ++ r.body.text).drop 3) = ' ' :: r.body.text :=
    Text.trimEnd_of_ends (hr.tight.ends.append [' '])
  let line : Line := ⟨[], r.marker, r.code, [], ending⟩
  let offset := s.offset + line.codeOffset
  let head : Text := (if r.atomic then [' '] else []) ++ r.name ++ [' ']
  let d : Definition :=
    { name := r.name
      nameOffset := offset + Text.size (r.code.takeWhile Text.isBlank)
      body := ' ' :: r.body.text
      bodyOffset := offset + head.size + 3
      atomic := s.mark.isSome }
  refine ⟨d, gapAfter line, ?_, rfl, rfl, rfl⟩
  unfold takeCode
  dsimp only
  rw [hr.not_bar_code, if_neg Bool.false_ne_true, hr.cutCode_code, close_eq hsolid]
  dsimp only [bind, Except.bind]
  rw [hr.trim_head, hr.name, hbody]
  rfl

/-- A rule ends the definition before it and is pending itself. -/
theorem takeLine_rule (h : s.Holds rules start) :
    ∃ s', s.takeLine (r.text ++ ['\n']) = .ok s' ∧ s'.Holds (rules ++ [r]) start := by
  obtain ⟨mark, hmark, hatomic⟩ := takeMark_rule (r := r) h.mark ['\n']
  obtain ⟨d, gap, hdefinition, hname, hbody, hd⟩ :=
    takeCode_rule (s := { s with mark }) hr h.solid ['\n']
  have hline := hr.line_ofText
  have hstart : takeStart ⟨[], r.marker, r.code, [], ['\n']⟩ { s with mark } =
      .ok { s with mark } := by simp [takeStart, Line.startSymbol?]
  have hcontent := hdefinition
  rw [← takeContent_of_hasCode (by simp [Line.hasCode, hr.isBlankText_code])] at hcontent
  rw [← hline] at hmark hstart hcontent
  refine ⟨_, takeLine_eq_ok_iff.2 ⟨_, _, _, hmark, hstart, hcontent, rfl⟩, ?_⟩
  have hdefines : d.Defines r := ⟨hname, hbody, hd.trans hatomic⟩
  refine ⟨rfl, h.start, List.rel_append h.written (.cons hdefines .nil), ?_⟩
  rintro p ⟨⟩
  rw [hbody]
  exact Text.isBlankText_of_ends (hr.tight.ends.append [' '])

end

/-- The rules of the lines are known after them. -/
theorem foldlM_takeLine {rs : List Rule} (hrs : ∀ r ∈ rs, r.WellFormed) (h : s.Holds rules start) :
    ∃ s', (rs.map fun r => r.text ++ ['\n']).foldlM takeLine s = .ok s' ∧
      s'.Holds (rules ++ rs) start := by
  induction rs generalizing s rules with
  | nil => exact ⟨s, rfl, by simpa using h⟩
  | cons r rs ih =>
    obtain ⟨s', hs', hholds⟩ := takeLine_rule (hrs r List.mem_cons_self) h
    obtain ⟨s'', hs'', hall⟩ := ih (fun x hx => hrs x (List.mem_cons_of_mem r hx)) hholds
    refine ⟨s'', ?_, by simpa using hall⟩
    rw [List.map_cons, List.foldlM_cons]
    exact bind_eq_ok.2 ⟨s', hs', hs''⟩

/-- The line of the start symbol makes it known. -/
theorem takeLine_start {symbol : Text} (h : symbol.isName) :
    ∃ s', takeLine {} ("# start ".toList ++ symbol ++ ['\n']) = .ok s' ∧
      s'.Holds [] (some symbol) := by
  have hline := Line.ofText_start h
  have hstart : takeStart ⟨[], [], [], "# start ".toList ++ symbol, ['\n']⟩ {} =
      .ok { outline := { start := some ⟨symbol, 0⟩ } } := by
    rw [takeStart, Line.startSymbol?_start h]
    dsimp only
    rw [h]
    rfl
  rw [← hline] at hstart
  have hcontent (s : State) (hnone : s.pending = none) : s.takeContent
      (Line.ofText ("# start ".toList ++ symbol ++ ['\n'])) = .ok { s with pending := none } := by
    rw [hline]
    simp [takeContent, Line.hasCode, Line.isVacant, Line.isMarked, Text.isBlankText, hnone]
  refine ⟨_, takeLine_eq_ok_iff.2 ⟨_, _, _, ?_, hstart, hcontent _ rfl, rfl⟩,
    ⟨rfl, rfl, .nil, by simp⟩⟩
  rw [hline]
  rfl

/-- At the end of the source the pending definition is a rule like the others. -/
theorem finish_of_holds (h : s.Holds rules start) :
    ∃ outline, s.finish = .ok outline ∧
      List.Forall₂ Definition.Defines outline.definitions rules ∧
      outline.start.map (·.symbol) = start := by
  refine ⟨{ s.outline with definitions := s.written }, ?_, h.written, h.start⟩
  rw [finish, close_eq h.solid]
  dsimp only [bind, Except.bind]
  rw [h.mark]

end Outline.State

/-- What is said is said after a gap too. -/
theorem Says.gap {g t : Text} {e : Expr} (hg : IsGap g) (h : Says t e) : Says (g ++ t) e := by
  rw [Says.iff_whole] at h ⊢
  cases h with
  | @spaced k t u e hk halternatives hu =>
    have hwhole := Says.Whole.spaced (hg.append hk) halternatives hu
    simpa using hwhole

/-- The body of a rule reads back as it stands in a definition. -/
theorem Rule.WellFormed.ofText_body {r : Rule} (h : r.WellFormed) :
    Expr.ofText (' ' :: r.body.text) = .ok r.body := by
  have hsays := Says.gap isGap_space (Expr.atLevel_text h.printable).meaning
  rw [Expr.spliced_eq_self h.spliced] at hsays
  exact Expr.ofText_of_meaning hsays

namespace Grammar

/-- The rules are well-formed and have names of their own, and the start symbol is one of these. -/
structure WellFormed (g : Grammar) : Prop where
  rules : ∀ r ∈ g.rules, r.WellFormed
  distinct : (g.rules.map (·.name)).Nodup
  start : ∀ symbol ∈ g.start, symbol ∈ g.rules.map (·.name)

theorem WellFormed.isName_start {g : Grammar} (h : g.WellFormed) :
    ∀ symbol ∈ g.start, symbol.isName := by
  intro symbol hsymbol
  obtain ⟨r, hr, rfl⟩ := List.mem_map.1 (h.start symbol hsymbol)
  exact (h.rules r hr).name

/-- Definitions are read one by one, and each name must be new. -/
theorem readRules_eq_ok_iff {ds : List Definition} {rs : List Rule} {taken : List Text} :
    readRules taken ds = .ok rs ↔ List.Forall₂ Definition.Reads ds rs ∧
      (rs.map (·.name)).Nodup ∧ ∀ r ∈ rs, r.name ∉ taken := by
  induction ds generalizing taken rs with
  | nil =>
    rw [readRules, List.forall₂_nil_left_iff]
    constructor
    · rintro ⟨⟩
      exact ⟨rfl, List.nodup_nil, fun _ hr => absurd hr List.not_mem_nil⟩
    · rintro ⟨rfl, -⟩
      rfl
  | cons d ds ih =>
    constructor
    · intro h
      rw [readRules] at h
      split at h
      next => cases h
      next hfree =>
        obtain ⟨body, hbody, hmore⟩ := bind_eq_ok.1 h
        obtain ⟨rest, hrest, hpure⟩ := bind_eq_ok.1 hmore
        cases hpure
        obtain ⟨hreads, hnodup, hothers⟩ := ih.1 hrest
        have hread : Expr.ofText d.body = .ok body := mapError_eq_ok.1 hbody
        have hnew : ∀ r ∈ rest, r.name ≠ d.name ∧ r.name ∉ taken := by
          simpa only [List.mem_cons, not_or] using hothers
        have hfirst : d.name ∉ rest.map (·.name) := by
          intro hmem
          obtain ⟨r, hr, hname⟩ := List.mem_map.1 hmem
          exact (hnew r hr).1 hname
        refine ⟨.cons ⟨rfl, hread, rfl⟩ hreads, List.nodup_cons.2 ⟨hfirst, hnodup⟩, ?_⟩
        exact List.forall_mem_cons.2 ⟨hfree, fun r hr => (hnew r hr).2⟩
    · rintro ⟨hreads, hnodup, hfree⟩
      cases hreads with
      | @cons _ r _ rs hd hreads =>
        rw [List.map_cons, List.nodup_cons] at hnodup
        obtain ⟨hfirst, hothers⟩ := List.forall_mem_cons.1 hfree
        have hrest : readRules (d.name :: taken) ds = .ok rs := by
          refine ih.2 ⟨hreads, hnodup.2, fun x hx => ?_⟩
          rw [hd.name, List.mem_cons, not_or]
          exact ⟨fun heq => hnodup.1 (heq ▸ List.mem_map_of_mem hx), hothers x hx⟩
        rw [readRules, if_neg (hd.name ▸ hfirst), hd.body, hrest, hd.name, hd.atomic]
        rfl

theorem ofOutline_eq_ok_iff {o : Outline} {g : Grammar} : ofOutline o = .ok g ↔ o.Reads g := by
  obtain ⟨rules, start⟩ := g
  have hany (symbol : Text) :
      rules.any (·.name == symbol) = true ↔ symbol ∈ rules.map (·.name) := by
    simp
  unfold ofOutline
  rw [bind_eq_ok]
  constructor
  · rintro ⟨read, hread, hrest⟩
    obtain ⟨hreads, hdistinct, -⟩ := readRules_eq_ok_iff.1 hread
    cases hstart : o.start with
    | none =>
      rw [hstart] at hrest
      cases hrest
      exact ⟨hreads, hdistinct, congrArg _ hstart, nofun⟩
    | some declared =>
      rw [hstart] at hrest
      dsimp only at hrest
      split at hrest
      next hdefined =>
        cases hrest
        refine ⟨hreads, hdistinct, congrArg _ hstart, ?_⟩
        rintro symbol ⟨⟩
        exact (hany declared.symbol).1 hdefined
      next => cases hrest
  · rintro ⟨hreads, hdistinct, hsymbol, hdefined⟩
    refine ⟨rules, readRules_eq_ok_iff.2 ⟨hreads, hdistinct, fun _ _ => List.not_mem_nil⟩, ?_⟩
    cases hstart : o.start with
    | none =>
      rw [hstart] at hsymbol
      cases hsymbol
      rfl
    | some declared =>
      rw [hstart] at hsymbol
      cases hsymbol
      dsimp only
      rw [if_pos ((hany declared.symbol).2 (hdefined declared.symbol rfl))]
      rfl

/-- A grammar is read from the outline of its source. -/
theorem ofText_eq_ok_iff_reads {source : Text} {g : Grammar} :
    ofText source = .ok g ↔ ∃ o, Outline.ofText source = .ok o ∧ o.Reads g := by
  rw [ofText, bind_eq_ok]
  exact exists_congr fun o => and_congr_right fun _ => ofOutline_eq_ok_iff

/-- The outline of a written grammar defines its rules and declares its start symbol. -/
theorem exists_outline {g : Grammar} (h : g.WellFormed) :
    ∃ outline, Outline.ofText g.text = .ok outline ∧
      List.Forall₂ Definition.Defines outline.definitions g.rules ∧
      outline.start.map (·.symbol) = g.start := by
  have hlines : Text.lines (g.rules.flatMap fun r => r.text ++ ['\n']) =
      g.rules.map fun r => r.text ++ ['\n'] :=
    Text.lines_flatMap fun r hr => (h.rules r hr).not_mem_text
  have hrun {s : Outline.State} {start : Option Text} (hs : s.Holds [] start) :
      ∃ s', (g.rules.map fun r => r.text ++ ['\n']).foldlM Outline.State.takeLine s = .ok s' ∧
        s'.Holds g.rules start := Outline.State.foldlM_takeLine h.rules hs
  have hread : ∃ s', g.text.lines.foldlM Outline.State.takeLine {} = .ok s' ∧
      s'.Holds g.rules g.start := by
    unfold text
    cases hstart : g.start with
    | none =>
      have hfirst : Outline.State.Holds {} [] none := ⟨rfl, rfl, .nil, by simp⟩
      rw [List.nil_append, hlines]
      exact hrun hfirst
    | some symbol =>
      have hname := h.isName_start symbol hstart
      have hfeed : '\n' ∉ "# start ".toList ++ symbol := by
        rw [List.mem_append, not_or]
        refine ⟨by decide, fun hmem => ?_⟩
        cases Text.isNameRest_of_mem hname hmem
      obtain ⟨s, hs, hholds⟩ := Outline.State.takeLine_start hname
      obtain ⟨s', hs', hall⟩ := hrun hholds
      refine ⟨s', ?_, hall⟩
      dsimp only
      rw [List.append_assoc, List.singleton_append, Text.lines_append hfeed, hlines,
        List.foldlM_cons]
      exact bind_eq_ok.2 ⟨s, hs, hs'⟩
  obtain ⟨s, hs, hholds⟩ := hread
  obtain ⟨outline, houtline, hdefines, hstart⟩ := Outline.State.finish_of_holds hholds
  exact ⟨outline, bind_eq_ok.2 ⟨s, hs, houtline⟩, hdefines, hstart⟩

theorem WellFormed.reads {g : Grammar} {o : Outline} (h : g.WellFormed)
    (hdefines : List.Forall₂ Definition.Defines o.definitions g.rules)
    (hstart : o.start.map (·.symbol) = g.start) : o.Reads g where
  rules := by
    refine List.forall₂_iff_get.2 ⟨hdefines.length_eq, fun i hd hr => ?_⟩
    have hdefine := hdefines.get hd hr
    refine ⟨hdefine.name, ?_, hdefine.atomic⟩
    rw [hdefine.body]
    exact (h.rules _ (List.get_mem _ _)).ofText_body
  distinct := h.distinct
  start := hstart
  defined := h.start

/-- A source that defines the rules of a well-formed grammar says the grammar. -/
theorem ofText_of_defines {g : Grammar} {source : Text} {outline : Outline} (h : g.WellFormed)
    (houtline : Outline.ofText source = .ok outline)
    (hdefines : List.Forall₂ Definition.Defines outline.definitions g.rules)
    (hstart : outline.start.map (·.symbol) = g.start) : ofText source = .ok g :=
  ofText_eq_ok_iff_reads.2 ⟨outline, houtline, h.reads hdefines hstart⟩

/-- A well-formed grammar reads back from its text. -/
theorem ofText_text_of_wellFormed {g : Grammar} (h : g.WellFormed) : ofText g.text = .ok g := by
  obtain ⟨outline, houtline, hdefines, hstart⟩ := exists_outline h
  exact ofText_of_defines h houtline hdefines hstart

/-- Comments, marks, headers, bars, parentheses and quotes of the other kind in literals do not
matter. -/
theorem ofText_text_of_wellFormed_odd :
    let quoted (body : Text) : Expr := .literal ⟨body, .double⟩
    let odd : Expr := .seq [quoted ['#'], quoted ['#', 'a', 't', 'o', 'm', 'i', 'c'],
      quoted ['b', ' ', ':', ':', '=', '('], quoted [')', '|', '\x27'], .name ['b']]
    let hash : Literal := ⟨['#', '"'], .single⟩
    let other : Expr := .alt [.star (.list (.name ['a']) hash ⟨true, true⟩), quoted ['|']]
    let g : Grammar := ⟨[⟨['a'], odd, true⟩, ⟨['b'], other, false⟩], some ['b']⟩
    g.WellFormed ∧ ofText g.text = .ok g := by
  intro quoted odd hash other g
  have hrules : ∀ r ∈ g.rules, r.WellFormed := by
    have hodd : Rule.WellFormed ⟨['a'], odd, true⟩ := ⟨by decide, by decide, by decide, by decide⟩
    have hother : Rule.WellFormed ⟨['b'], other, false⟩ :=
      ⟨by decide, by decide, by decide, by decide⟩
    exact List.forall_mem_cons.2 ⟨hodd, List.forall_mem_singleton.2 hother⟩
  have hg : g.WellFormed := ⟨hrules, by decide, by decide⟩
  exact ⟨hg, ofText_text_of_wellFormed hg⟩

end Grammar
end ExtendedBnf
