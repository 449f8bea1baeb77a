import ExtendedBnf.Proofs.Loosening

/-!
# Sources one after the other

A source may follow another one that ends with a line end. Its lines then do what they
do alone: a definition that the first source leaves pending ends with it, since the
second source starts with no alternative. So the outline of both is the outline of the
first and then that of the second, moved by the bytes in front of it, as long as they do
not both declare a start symbol.
-/
namespace ExtendedBnf

theorem Text.IsLines.lines_append {s : Text} (h : s.IsLines) (t : Text) :
    Text.lines (s ++ t) = s.lines ++ t.lines := by
  induction s using lines_induction with
  | nil => rfl
  | last l hne hl =>
    obtain rfl | ⟨r, rfl⟩ := h
    · rfl
    · exact absurd (List.mem_append_right r List.mem_cons_self) hl
  | line l r hl ih =>
    have hr : r.IsLines := by
      obtain hnil | ⟨x, hx⟩ := h
      · simp at hnil
      · obtain rfl | ⟨y, c, rfl⟩ := List.eq_nil_or_concat' r
        · exact .inl rfl
        · rw [← List.cons_append, ← List.append_assoc] at hx
          exact .inr ⟨y, by rw [(List.append_inj' hx rfl).2]⟩
    rw [List.append_assoc, List.cons_append, Text.lines_append hl, Text.lines_append hl, ih hr,
      List.cons_append]

/-- The definition in a source with further bytes in front. -/
def Definition.moved (n : Nat) (d : Definition) : Definition :=
  { d with nameOffset := n + d.nameOffset, bodyOffset := n + d.bodyOffset }

/-- The start declaration in a source with further bytes in front. -/
def StartDeclaration.moved (n : Nat) (d : StartDeclaration) : StartDeclaration :=
  { d with offset := n + d.offset }

namespace Outline

/-- The outline in a source with further bytes in front. -/
def moved (n : Nat) (o : Outline) : Outline where
  definitions := o.definitions.map (·.moved n)
  start := o.start.map (·.moved n)

/-- The pending definition in a source with further bytes in front. -/
def Pending.moved (n : Nat) (p : Pending) : Pending := { p with definition := p.definition.moved n }

namespace State
variable {o : Outline} {n : Nat} {s s' t : State} {line : Line} {raw : Text} {ls : List Text}

theorem start_of_takeLine (h : s.takeLine raw = .ok t) {d : StartDeclaration}
    (hs : s.outline.start = some d) : t.outline.start = some d := by
  obtain ⟨marked, started, taken, hmark, hstart, htake, rfl⟩ := takeLine_eq_ok_iff.1 h
  have hmarked : marked.outline.start = some d := (start_of_takeMark hmark).trans hs
  have hstarted : started.outline.start = some d := by
    obtain ⟨-, rfl⟩ | ⟨symbol, -, -, hnone, -⟩ := takeStart_eq_ok_iff.1 hstart
    · exact hmarked
    · cases hnone.symm.trans hmarked
  exact (start_of_takes (takes_of_takeContent htake)).trans hstarted

/-- A start declaration is never given up. -/
theorem start_of_foldlM (h : ls.foldlM takeLine s = .ok t) {d : StartDeclaration}
    (hs : s.outline.start = some d) : t.outline.start = some d := by
  induction ls generalizing s with
  | nil =>
    cases h
    exact hs
  | cons raw ls ih =>
    rw [List.foldlM_cons] at h
    obtain ⟨next, hnext, hrest⟩ := bind_eq_ok.1 h
    exact ih hrest (start_of_takeLine hnext hs)

/-- The line that declares the start symbol. -/
theorem exists_line_of_start (h : ls.foldlM takeLine s = .ok t) (hs : s.outline.start = none)
    {d : StartDeclaration} (ht : t.outline.start = some d) :
    ∃ before raw after u v, ls = before ++ raw :: after ∧ before.foldlM takeLine s = .ok u ∧
      u.outline.start = none ∧ u.takeLine raw = .ok v ∧ v.outline.start = some d := by
  induction ls generalizing s with
  | nil =>
    cases h
    cases hs.symm.trans ht
  | cons raw ls ih =>
    rw [List.foldlM_cons] at h
    obtain ⟨next, hnext, hrest⟩ := bind_eq_ok.1 h
    cases hstart : next.outline.start with
    | none =>
      obtain ⟨before, line, after, u, v, rfl, hu, hrest⟩ := ih hrest hstart
      exact ⟨raw :: before, line, after, u, v, rfl, bind_eq_ok.2 ⟨next, hnext, hu⟩, hrest⟩
    | some first =>
      obtain rfl := Option.some.inj ((start_of_foldlM hrest hstart).symm.trans ht)
      exact ⟨[], raw, ls, s, next, rfl, rfl, hs, hnext, hstart⟩

/-- The definitions after two sources are those of the first and then those of the second. As long
as the second has none the last one of the first may be pending. -/
inductive InRow (o : Outline) (n : Nat) (ds : List Definition) (q : Option Pending)
    (ds' : List Definition) (q' : Option Pending) : Prop
  | ended : ds' = o.definitions ++ ds.map (·.moved n) → q' = q.map (·.moved n) →
      InRow o n ds q ds' q'
  | pending {p : Pending} : ds = [] → q = none → q' = some p →
      p.definition.body.isBlankText = false → o.definitions = ds' ++ [p.definition] →
      InRow o n ds q ds' q'

/-- What is known after a source of outline `o` with `n` bytes and some lines of a second one, if
`s` is known after these lines alone. -/
structure Behind (o : Outline) (n : Nat) (s s' : State) : Prop where
  offset : s'.offset = n + s.offset
  start : s'.outline.start = o.start.or (s.outline.start.map (·.moved n))
  mark : s'.mark = s.mark.map (n + ·)
  inRow : InRow o n s.outline.definitions s.pending s'.outline.definitions s'.pending

theorem Behind.takeMark (hs : Behind o n s s') (h : s.takeMark line = .ok t) :
    ∃ t', s'.takeMark line = .ok t' ∧ Behind o n t t' := by
  obtain ⟨hmarked, rfl⟩ | ⟨hmarked, hmark, rfl⟩ := takeMark_eq_ok_iff.1 h
  · exact ⟨s', takeMark_eq_ok_iff.2 (.inl ⟨hmarked, rfl⟩), hs⟩
  · have hnone : s'.mark = none := by rw [hs.mark, hmark, Option.map_none]
    refine ⟨_, takeMark_eq_ok_iff.2 (.inr ⟨hmarked, hnone, rfl⟩), hs.offset, hs.start, ?_, hs.inRow⟩
    dsimp only
    rw [hs.offset, Option.map_some, Nat.add_assoc]

/-- A start declaration is taken if the first source has none. -/
theorem Behind.takeStart (hs : Behind o n s s') (h : s.takeStart line = .ok t)
    (hone : o.start = none ∨ t.outline.start = none) :
    ∃ t', s'.takeStart line = .ok t' ∧ Behind o n t t' := by
  obtain ⟨hsymbol, rfl⟩ | ⟨symbol, hsymbol, hname, hstart, rfl⟩ := takeStart_eq_ok_iff.1 h
  · exact ⟨s', takeStart_eq_ok_iff.2 (.inl ⟨hsymbol, rfl⟩), hs⟩
  · have ho : o.start = none := hone.resolve_right (Option.some_ne_none _)
    have hnone : s'.outline.start = none := by
      rw [hs.start, ho, hstart]
      rfl
    refine ⟨_, takeStart_eq_ok_iff.2 (.inr ⟨symbol, hsymbol, hname, hnone, rfl⟩), hs.offset, ?_,
      hs.mark, hs.inRow⟩
    dsimp only
    rw [ho, hs.offset, Nat.add_assoc]
    rfl

/-- It is the second one if the first source has one, too. -/
theorem Behind.takeStart_again (hs : Behind o n s s') (h : s.takeStart line = .ok t)
    {first second : StartDeclaration} (hfirst : o.start = some first)
    (hnone : s.outline.start = none) (hsecond : t.outline.start = some second) :
    s'.takeStart line = .error (.malformedStart (n + second.offset) (.repeated first.symbol)) := by
  obtain ⟨-, rfl⟩ | ⟨symbol, hsymbol, hname, -, rfl⟩ := takeStart_eq_ok_iff.1 h
  · cases hnone.symm.trans hsecond
  · obtain rfl := Option.some.inj hsecond
    have hstart : s'.outline.start = some first := by
      rw [hs.start, hfirst]
      rfl
    simp only [State.takeStart, hsymbol, hname, hstart, hs.offset, Nat.add_assoc]
    rfl

/-- Once the pending definition has ended the definitions are one after the other. -/
theorem Behind.close (hs : Behind o n s s') (h : s.close = .ok t) :
    ∃ t', s'.close = .ok t' ∧ Behind o n t t' ∧
      t'.outline.definitions = o.definitions ++ t.outline.definitions.map (·.moved n) := by
  obtain ⟨hnone, rfl⟩ | ⟨p, hp, hbody, rfl⟩ := close_eq_ok_iff.1 h
  · cases hs.inRow with
    | ended hdefinitions hpending =>
      rw [hnone, Option.map_none] at hpending
      exact ⟨s', close_eq_ok_iff.2 (.inl ⟨hpending, rfl⟩), hs, hdefinitions⟩
    | @pending q hnil hempty hpending hbody ho =>
      have hall : s'.outline.definitions ++ [q.definition] =
          o.definitions ++ t.outline.definitions.map (·.moved n) := by
        rw [hnil, ho, List.map_nil, List.append_nil]
      refine ⟨_, close_eq_ok_iff.2 (.inr ⟨q, hpending, hbody, rfl⟩), ?_, hall⟩
      exact ⟨hs.offset, hs.start, hs.mark, .ended hall (by rw [hnone]; rfl)⟩
  · cases hs.inRow with
    | ended hdefinitions hpending =>
      rw [hp, Option.map_some] at hpending
      have hall : s'.outline.definitions ++ [p.definition.moved n] =
          o.definitions ++ (s.outline.definitions ++ [p.definition]).map (·.moved n) := by
        rw [hdefinitions, List.map_append, List.append_assoc]
        rfl
      refine ⟨_, close_eq_ok_iff.2 (.inr ⟨p.moved n, hpending, hbody, rfl⟩), ?_, hall⟩
      exact ⟨hs.offset, hs.start, hs.mark, .ended hall rfl⟩
    | pending _ hempty => cases hempty.symm.trans hp

/-- The content of a line of the second source does the same behind the first. -/
theorem Behind.takes (hs : Behind o n s s') (h : Takes line s t) :
    ∃ t', Takes line s' t' ∧ Behind o n t t' := by
  cases h with
  | vacant hcode hvacant hclose =>
    obtain ⟨t', hclose', ht, -⟩ := hs.close hclose
    exact ⟨t', .vacant hcode hvacant hclose', ht⟩
  | idle hcode hvacant =>
    refine ⟨_, .idle hcode hvacant, hs.offset, hs.start, hs.mark, ?_⟩
    cases hs.inRow with
    | ended hdefinitions hpending =>
      refine .ended hdefinitions ?_
      rw [hpending, Option.map_map, Option.map_map]
      rfl
    | @pending p hnil hempty hpending hbody ho =>
      refine .pending (p := { p with gap := p.gap ++ line.blanked }) hnil ?_ ?_ hbody ho
      · rw [hempty, Option.map_none]
      · rw [hpending, Option.map_some]
  | @alternative p hcode hbar hp hmark =>
    have hmark' : s'.mark = none := by rw [hs.mark, hmark, Option.map_none]
    cases hs.inRow with
    | ended hdefinitions hpending =>
      rw [hp, Option.map_some] at hpending
      refine ⟨_, .alternative hcode hbar hpending hmark', hs.offset, hs.start, hs.mark, ?_⟩
      exact .ended hdefinitions rfl
    | pending _ hempty => cases hempty.symm.trans hp
  | @header before rest closed hcode hbar hcut hclose hname =>
    obtain ⟨closed', hclose', hclosed, hdefinitions⟩ := hs.close hclose
    have hmark : closed'.mark.isSome = closed.mark.isSome := by
      rw [hclosed.mark, Option.isSome_map]
    refine ⟨_, .header hcode hbar hcut hclose' hname, hclosed.offset, hclosed.start, rfl, ?_⟩
    refine .ended hdefinitions ?_
    simp only [Option.map_some, Pending.moved, Definition.moved, hs.offset, hmark, Nat.add_assoc]

theorem Behind.takeLine (hs : Behind o n s s') (h : s.takeLine raw = .ok t)
    (hone : o.start = none ∨ t.outline.start = none) :
    ∃ t', s'.takeLine raw = .ok t' ∧ Behind o n t t' := by
  obtain ⟨marked, started, taken, hmark, hstart, htake, rfl⟩ := takeLine_eq_ok_iff.1 h
  have htakes := takes_of_takeContent htake
  have hone : o.start = none ∨ started.outline.start = none :=
    hone.imp_right fun hnone => (start_of_takes htakes).symm.trans hnone
  obtain ⟨marked', hmark', hmarked⟩ := hs.takeMark hmark
  obtain ⟨started', hstart', hstarted⟩ := hmarked.takeStart hstart hone
  obtain ⟨taken', htake', htaken⟩ := hstarted.takes htakes
  refine ⟨_, takeLine_eq_ok_iff.2
    ⟨marked', started', taken', hmark', hstart', takeContent_of_takes htake', rfl⟩, ?_⟩
  refine ⟨?_, htaken.start, htaken.mark, htaken.inRow⟩
  dsimp only
  rw [htaken.offset, Nat.add_assoc]

theorem Behind.takeLine_again (hs : Behind o n s s') (h : s.takeLine raw = .ok t)
    {first second : StartDeclaration} (hfirst : o.start = some first)
    (hnone : s.outline.start = none) (hsecond : t.outline.start = some second) :
    s'.takeLine raw = .error (.malformedStart (n + second.offset) (.repeated first.symbol)) := by
  obtain ⟨marked, started, taken, hmark, hstart, htake, rfl⟩ := takeLine_eq_ok_iff.1 h
  have hmarked : marked.outline.start = none := (start_of_takeMark hmark).trans hnone
  have hstarted : started.outline.start = some second :=
    (start_of_takes (takes_of_takeContent htake)).symm.trans hsecond
  obtain ⟨marked', hmark', hbehind⟩ := hs.takeMark hmark
  have hfault := hbehind.takeStart_again hstart hfirst hmarked hstarted
  simp only [State.takeLine, hmark', hfault, bind, Except.bind]

/-- Induction on the lines of the second source. -/
theorem Behind.foldlM (hs : Behind o n s s') (h : ls.foldlM State.takeLine s = .ok t)
    (hone : o.start = none ∨ t.outline.start = none) :
    ∃ t', ls.foldlM State.takeLine s' = .ok t' ∧ Behind o n t t' := by
  induction ls generalizing s s' with
  | nil =>
    cases h
    exact ⟨s', rfl, hs⟩
  | cons raw ls ih =>
    rw [List.foldlM_cons] at h
    obtain ⟨next, hnext, hrest⟩ := bind_eq_ok.1 h
    have hone' : o.start = none ∨ next.outline.start = none := by
      refine hone.imp_right fun hnone => ?_
      cases hstart : next.outline.start with
      | none => rfl
      | some d => cases (start_of_foldlM hrest hstart).symm.trans hnone
    obtain ⟨next', hnext', hbehind⟩ := hs.takeLine hnext hone'
    obtain ⟨t', ht', ht⟩ := ih hbehind hrest
    exact ⟨t', bind_eq_ok.2 ⟨next', hnext', ht'⟩, ht⟩

/-- Two start declarations are one too many. -/
theorem Behind.foldlM_again (hs : Behind o n s s') (h : ls.foldlM State.takeLine s = .ok t)
    {first second : StartDeclaration} (hfirst : o.start = some first)
    (hnone : s.outline.start = none) (hsecond : t.outline.start = some second) :
    ls.foldlM State.takeLine s' =
      .error (.malformedStart (n + second.offset) (.repeated first.symbol)) := by
  obtain ⟨before, raw, after, u, v, rfl, hu, hstart, hv, hdeclared⟩ :=
    exists_line_of_start h hnone hsecond
  obtain ⟨u', hu', hbehind⟩ := hs.foldlM hu (.inr hstart)
  have hfault := hbehind.takeLine_again hv hfirst hstart hdeclared
  rw [List.foldlM_append, hu']
  simp only [List.foldlM_cons, hfault, bind, Except.bind]

/-- A source that has been read is continued by the empty one. -/
theorem behind_of_finish (h : s.finish = .ok o) : Behind o s.offset {} s := by
  obtain ⟨closed, hclose, hmark, rfl⟩ := finish_eq_ok_iff.1 h
  have hstart : s.outline.start = closed.outline.start.or none := by
    rw [start_of_close hclose, Option.or_none]
  refine ⟨rfl, hstart, (mark_of_close hclose).symm.trans hmark, ?_⟩
  obtain ⟨hpending, rfl⟩ | ⟨p, hpending, hbody, rfl⟩ := close_eq_ok_iff.1 hclose
  · exact .ended (List.append_nil _).symm hpending
  · exact .pending rfl rfl hpending hbody rfl

theorem Behind.finish {p : Outline} (hs : Behind o n s s') (h : s.finish = .ok p) :
    s'.finish = .ok ⟨o.definitions ++ (p.moved n).definitions, o.start.or (p.moved n).start⟩ := by
  obtain ⟨closed, hclose, hmark, rfl⟩ := finish_eq_ok_iff.1 h
  obtain ⟨closed', hclose', hbehind, hdefinitions⟩ := hs.close hclose
  refine finish_eq_ok_iff.2 ⟨closed', hclose', ?_, ?_⟩
  · rw [hbehind.mark, hmark, Option.map_none]
  · exact congr (congrArg Outline.mk hdefinitions) hbehind.start

end State

/-- The outline of two sources in a row is the outline of the first and then that of the second,
moved by the bytes of the first. If they both declare a start symbol, the second declaration is at
fault. -/
theorem ofText_append_of_isLines {s t : Text} {o p : Outline} (hlines : s.IsLines)
    (hs : ofText s = .ok o) (ht : ofText t = .ok p) :
    (o.start = none ∨ p.start = none → ofText (s ++ t) =
      .ok ⟨o.definitions ++ (p.moved s.size).definitions, o.start.or (p.moved s.size).start⟩) ∧
    ∀ first second, o.start = some first → p.start = some second → ofText (s ++ t) =
      .error (.malformedStart (s.size + second.offset) (.repeated first.symbol)) := by
  obtain ⟨u, hu, hfinish⟩ := bind_eq_ok.1 hs
  obtain ⟨v, hv, hlast⟩ := bind_eq_ok.1 ht
  have hsize : u.offset = s.size :=
    (State.covers_nil.foldlM hu).offset.trans (Text.size_blanked s)
  have hbehind : State.Behind o s.size {} u := hsize ▸ State.behind_of_finish hfinish
  have hstart : p.start = v.outline.start := by
    obtain ⟨closed, hclose, -, rfl⟩ := State.finish_eq_ok_iff.1 hlast
    exact State.start_of_close hclose
  have hrun : (s ++ t).lines.foldlM State.takeLine {} = t.lines.foldlM State.takeLine u := by
    rw [hlines.lines_append, List.foldlM_append, hu]
    rfl
  refine ⟨fun hone => ?_, fun first second hfirst hsecond => ?_⟩
  · obtain ⟨v', hv', hboth⟩ := hbehind.foldlM hv (hstart ▸ hone)
    rw [ofText, hrun, hv']
    exact hboth.finish hlast
  · have hfault := hbehind.foldlM_again hv hfirst rfl (hstart.symm.trans hsecond)
    rw [ofText, hrun, hfault]
    rfl

/-- The last definition of the first source goes on to the header in the other one. -/
theorem ofText_append_of_isLines_pending :
    let s : Text := "# start a\na ::= b # é\n#atomic\nc ::= 'é'\n".toList
    let t : Text := "  # é\n#atomic d ::= c\n  | 'x'".toList
    let u : Text := "\n# start e\ne ::= a".toList
    let known : List Definition :=
      [⟨['a'], 10, " b".toList, 15, false⟩, ⟨['c'], 31, " 'é'".toList, 36, true⟩]
    s.IsLines ∧ ofText s = .ok ⟨known, some ⟨['a'], 0⟩⟩ ∧
      ofText t = .ok ⟨[⟨['d'], 15, " c\n  | 'x'".toList, 20, true⟩], none⟩ ∧
      ofText u = .ok ⟨[⟨['e'], 11, " a".toList, 16, false⟩], some ⟨['e'], 1⟩⟩ ∧
      ofText (s ++ t) =
        .ok ⟨known ++ [⟨['d'], 57, " c\n  | 'x'".toList, 62, true⟩], some ⟨['a'], 0⟩⟩ ∧
      ofText (s ++ u) = .error (.malformedStart 43 (.repeated ['a'])) := by
  intro s t u known
  have hlines : s.IsLines := .inr ⟨"# start a\na ::= b # é\n#atomic\nc ::= 'é'".toList, rfl⟩
  have hs : ofText s = .ok ⟨known, some ⟨['a'], 0⟩⟩ := rfl
  have ht : ofText t = .ok ⟨[⟨['d'], 15, " c\n  | 'x'".toList, 20, true⟩], none⟩ := rfl
  have hu : ofText u = .ok ⟨[⟨['e'], 11, " a".toList, 16, false⟩], some ⟨['e'], 1⟩⟩ := rfl
  exact ⟨hlines, hs, ht, hu, (ofText_append_of_isLines hlines hs ht).1 (.inr rfl),
    (ofText_append_of_isLines hlines hs hu).2 ⟨['a'], 0⟩ ⟨['e'], 1⟩ rfl rfl⟩

end Outline
end ExtendedBnf
