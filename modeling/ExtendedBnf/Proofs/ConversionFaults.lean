import ExtendedBnf.CommandLine
import ExtendedBnf.Proofs.AtomicMarks
import ExtendedBnf.Proofs.OnlyPredicates
import ExtendedBnf.Proofs.ReadGrammars
import ExtendedBnf.Proofs.Writable

/-!
# Where faults of a conversion are

A grammar that has been read cannot be converted for two reasons only. For node
grammars, a body may be made of predicates alone, and for both targets a rule may
have the name of the rule made for the start symbol. Trees hold no places, so the
fault is at byte 0 in either case. This is in the rule at fault only if the source
starts with its name, and on the line of the start declaration or of the rule in its
way only if this is the first line.
-/
namespace ExtendedBnf

/-- Lowering for node grammars fails just for bodies of predicates alone. -/
theorem Rule.lower_ungram_eq_error_iff {r : Rule} {expandPlus : Bool} {fault : Fault} :
    r.lower (Target.ungram.lowering expandPlus) = .error fault ↔
      r.body.OnlyPredicates ∧ fault = .malformedRule (some r.name) 0 .onlyPredicates := by
  rw [lower_eq_error_iff]
  exact and_iff_right rfl

/-- Whether the target gives the definition the name of the rule made for the start symbol. -/
def Definition.TakesStart (target : Target) (d : Definition) : Prop :=
  match target with
  | .pest => d.name = target.startName
  | .ungram => d.name.pascalCase = target.startName

/-- The byte is where the fault arose: in the definition at fault, or else on the line of the start
declaration or of the name of a definition in its way. -/
def Outline.PointsAtCause (o : Outline) (target : Target) (source : Text) (fault : Fault)
    (n : Nat) : Prop :=
  match fault.rule? with
  | some name => ∃ d ∈ o.definitions, d.name = name ∧
      d.nameOffset ≤ n ∧ n ≤ d.bodyOffset + d.body.size
  | none =>
    (∃ declared ∈ o.start, (Position.ofOffset source n).line =
        (Position.ofOffset source declared.offset).line) ∨
      ∃ d ∈ o.definitions, d.TakesStart target ∧
        (Position.ofOffset source n).line = d.headerLine source

theorem Definition.takesStart_iff {target : Target} {d : Definition} {r : Rule}
    (h : d.name = r.name) : d.TakesStart target ↔ target.ruleName r = target.startName := by
  cases target <;> rw [TakesStart, h] <;> rfl

/-- There is one definition of a name. -/
theorem Outline.Reads.eq_of_name {o : Outline} {g : Grammar} (h : o.Reads g) {d e : Definition}
    (hd : d ∈ o.definitions) (he : e ∈ o.definitions) (hname : d.name = e.name) : d = e := by
  have hnames : o.definitions.map (·.name) = g.rules.map (·.name) := by
    rw [← List.forall₂_eq_eq_eq, List.forall₂_map_left_iff, List.forall₂_map_right_iff]
    exact h.rules.imp fun _ _ hreads => hreads.name
  have hdistinct := h.distinct
  rw [← hnames] at hdistinct
  exact List.inj_on_of_nodup_map hdistinct hd he hname

theorem Position.ofOffset_zero (source : Text) : ofOffset source 0 = ⟨1, 1⟩ := by
  rw [ofOffset, Text.takeBytes_zero, after_nil]

namespace CommandLine

theorem faultMessage_of_zero {fault : Fault} (h : fault.offset? = some 0) (path source : Text) :
    faultMessage path source fault = path ++ ":1:1: ".toList ++ fault.message := by
  have hone : Text.ofNat 1 = ['1'] := by decide
  simp [faultMessage, h, Position.ofOffset_zero, hone]

end CommandLine

namespace Grammar

/-- The fault of a conversion is at byte 0 and shown at line 1, column 1, whatever its cause. It is
where it arose only if the definition of predicates alone has its name at byte 0, or if the start
declaration or a definition in its way is on the first line. -/
theorem place_of_conversion_fault {target : Target} {expandPlus : Bool} {source : Text}
    {g : Grammar} {fault : Fault} (hread : ofText source = .ok g)
    (h : convertText target expandPlus source = .error fault) :
    ∃ o, Outline.ofText source = .ok o ∧ fault.offset? = some 0 ∧
      (∀ path, CommandLine.faultMessage path source fault =
        path ++ ":1:1: ".toList ++ fault.message) ∧
      ((∃ d ∈ o.definitions, ∃ body, target = .ungram ∧ Expr.ofText d.body = .ok body ∧
          body.OnlyPredicates ∧ fault = .malformedRule (some d.name) 0 .onlyPredicates ∧
          (o.PointsAtCause target source fault 0 ↔ d.nameOffset = 0)) ∨
        ∃ declared ∈ o.start, (∃ d ∈ o.definitions, d.TakesStart target) ∧
          fault = .malformedStart 0 (.reserved target.startName) ∧
          (o.PointsAtCause target source fault 0 ↔
            (Position.ofOffset source declared.offset).line = 1 ∨
              ∃ d ∈ o.definitions, d.TakesStart target ∧ d.headerLine source = 1)) := by
  obtain ⟨o, houtline, hreads⟩ := ofText_eq_ok_iff_reads.1 hread
  have hconvert : g.convert target expandPlus = .error fault := by
    obtain hfault | ⟨g', hg', hfault⟩ := bind_eq_error.1 h
    · cases hread.symm.trans hfault
    · obtain rfl := Except.ok.inj (hread.symm.trans hg')
      exact hfault
  refine ⟨o, houtline, ?_⟩
  obtain ⟨r, hr, hlower⟩ | ⟨rfl, hstart, r, hr, hreserved⟩ := cause_of_convert hconvert
  · cases target with
    | pest =>
      obtain ⟨lowered, hlowered, -⟩ := Rule.exists_lower_pest r expandPlus
      cases hlowered.symm.trans hlower
    | ungram =>
      obtain ⟨honly, rfl⟩ := Rule.lower_ungram_eq_error_iff.1 hlower
      obtain ⟨d, hd, hbody⟩ := exists_reads hreads.rules hr
      refine ⟨rfl, fun path => CommandLine.faultMessage_of_zero rfl path source,
        .inl ⟨d, hd, r.body, rfl, hbody.body, honly, ?_, ?_⟩⟩
      · rw [hbody.name]
      · constructor
        · rintro ⟨e, he, hname, hle, -⟩
          obtain rfl := hreads.eq_of_name he hd (hname.trans hbody.name.symm)
          exact Nat.le_zero.1 hle
        · exact fun hzero => ⟨d, hd, hbody.name, hzero.le, Nat.zero_le _⟩
  · obtain ⟨declared, hdeclared⟩ : ∃ declared, o.start = some declared := by
      rw [← hreads.start] at hstart
      exact Option.isSome_iff_exists.1 (by simpa using hstart)
    obtain ⟨d, hd, hbody⟩ := exists_reads hreads.rules hr
    have htakes : d.TakesStart target := (Definition.takesStart_iff hbody.name).2 hreserved
    refine ⟨rfl, fun path => CommandLine.faultMessage_of_zero rfl path source,
      .inr ⟨declared, hdeclared, ⟨d, hd, htakes⟩, rfl, ?_⟩⟩
    simp only [Outline.PointsAtCause, Fault.rule?, Position.ofOffset_zero, hdeclared,
      Option.mem_some_iff, exists_eq_left', @eq_comm Nat 1]

/-- The start declaration is on line 2 and the rule in its way on line 3. -/
theorem place_of_conversion_fault_reserved :
    let source : Text := "a ::= 'é'\n# start a\nstart ::= a\n".toList
    let a : Definition := ⟨['a'], 0, " 'é'".toList, 5, false⟩
    let start : Definition := ⟨"start".toList, 21, " a".toList, 30, false⟩
    let o : Outline := ⟨[a, start], some ⟨['a'], 11⟩⟩
    let fault : Fault := .malformedStart 0 (.reserved "start".toList)
    Outline.ofText source = .ok o ∧ convertText .pest false source = .error fault ∧
      CommandLine.faultMessage ['g'] source fault = "g:1:1: ".toList ++ fault.message ∧
      ¬ o.PointsAtCause .pest source fault 0 := by
  intro source a start o fault
  have houtline : Outline.ofText source = .ok o := rfl
  let g : Grammar :=
    ⟨[⟨['a'], .literal ⟨['é'], .single⟩, false⟩, ⟨"start".toList, .name ['a'], false⟩], some ['a']⟩
  have hg : g.WellFormed := ⟨by decide, by decide, by decide⟩
  have hread : ofText source = .ok g :=
    ofText_of_defines hg houtline (.cons ⟨rfl, rfl, rfl⟩ (.cons ⟨rfl, rfl, rfl⟩ .nil)) rfl
  have hconvert : g.convert .pest false = .error fault := by decide
  have h : convertText .pest false source = .error fault :=
    bind_eq_error.2 (.inr ⟨g, hread, hconvert⟩)
  obtain ⟨o', ho', -, hmessage, hcause⟩ := place_of_conversion_fault hread h
  obtain rfl := Except.ok.inj (houtline.symm.trans ho')
  refine ⟨houtline, h, hmessage ['g'], ?_⟩
  obtain ⟨d, -, body, hungram, -⟩ | ⟨declared, hdeclared, -, -, hplace⟩ := hcause
  · cases hungram
  · obtain rfl := Option.some.inj hdeclared
    rw [hplace]
    rintro (hline | ⟨d, hd, htakes, hline⟩)
    · exact absurd hline (by decide)
    · obtain rfl | hd := List.mem_cons.1 hd
      · exact absurd htakes (show ¬ a.name = PestGrammar.startName by decide)
      · obtain rfl := List.mem_singleton.1 hd
        exact absurd hline (by decide)

/-- A rule of a predicate alone is on line 2, and the fault is not in it. -/
theorem conversion_fault_outside_rule :
    let source : Text := "a ::= \"x\"\nguard ::= &a\n".toList
    let fault : Fault := .malformedRule (some "guard".toList) 0 .onlyPredicates
    (∃ g, ofText source = .ok g) ∧ convertText .ungram false source = .error fault ∧
      ∃ o, Outline.ofText source = .ok o ∧
        ¬ ∃ n, fault.offset? = some n ∧ o.PointsAtCause .ungram source fault n := by
  intro source fault
  let a : Definition := ⟨['a'], 0, " \"x\"".toList, 5, false⟩
  let guard : Definition := ⟨"guard".toList, 10, " &a".toList, 19, false⟩
  have houtline : Outline.ofText source = .ok ⟨[a, guard], none⟩ := rfl
  let g : Grammar := ⟨[⟨['a'], .literal ⟨['x'], .double⟩, false⟩,
    ⟨"guard".toList, .ahead (.name ['a']), false⟩], none⟩
  have hg : g.WellFormed := ⟨by decide, by decide, nofun⟩
  have hread : ofText source = .ok g :=
    ofText_of_defines hg houtline (.cons ⟨rfl, rfl, rfl⟩ (.cons ⟨rfl, rfl, rfl⟩ .nil)) rfl
  have hconvert : g.convert .ungram false = .error fault := by decide
  refine ⟨⟨g, hread⟩, bind_eq_error.2 (.inr ⟨g, hread, hconvert⟩), _, houtline, ?_⟩
  rintro ⟨n, hn, d, hd, hname, hle, -⟩
  obtain rfl := Option.some.inj hn
  obtain rfl | hd := List.mem_cons.1 hd
  · exact absurd hname (by decide)
  · obtain rfl := List.mem_singleton.1 hd
    exact absurd hle (by decide)

end Grammar
end ExtendedBnf
