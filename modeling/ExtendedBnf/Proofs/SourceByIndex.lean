import ExtendedBnf.Proofs.LinesByIndex

/-!
# Sources by byte indices

A definition that may still go on is known by the bytes of the blanked source between which
its body stands, and its body is cut out only when it ends. Meanwhile the blanked source
has grown, at the end by the very line that ends the definition. Line by line this follows
the outline, in which the body is put together as text, so the bytes are in their order
and between characters whenever a definition ends. No cut on the way from a
source to its grammar slips.
-/
namespace ExtendedBnf
namespace ByIndex
open Halt

/-- A definition that may still go on, with the places between which its body stands. -/
structure Opened where
  name : Text
  nameOffset : Nat
  bodyStart : Nat
  bodyEnd : Nat
  atomic : Bool
  deriving DecidableEq, Repr

/-- What is known of a source after some of its lines. -/
structure State where
  /-- Where the next line starts. -/
  offset : Nat := 0
  /-- The lines with spaces for all but their code and their ends. -/
  blanked : Text := []
  outline : Outline := {}
  opened : Option Opened := none
  /-- The place of a mark that no rule has followed yet. -/
  mark : Option Nat := none
  deriving DecidableEq, Repr

namespace State

/-- Notes the mark of a line. -/
def takeMark (line : Line) (s : State) : Except (Halt Fault) State :=
  if line.isMarked then
    match s.mark with
    | some earlier => .error (.fault (.malformedRule none earlier .strayAtomic))
    | none => .ok { s with mark := some (s.offset + line.indent.size) }
  else .ok s

/-- Notes the start declaration of a line. -/
def takeStart (line : Line) (s : State) : Except (Halt Fault) State := do
  match ← startSymbol? line with
  | none => .ok s
  | some symbol =>
    let offset := s.offset + line.indent.size
    if !symbol.isName then .error (.fault (.malformedStart offset (.invalidName symbol)))
    else
      match s.outline.start with
      | some first => .error (.fault (.malformedStart offset (.repeated first.symbol)))
      | none => .ok { s with outline := { s.outline with start := some ⟨symbol, offset⟩ } }

/-- Ends the opened definition. -/
def close (s : State) : Except (Halt Fault) State :=
  match s.opened with
  | none => .ok s
  | some o => do
    let body ← s.blanked.cut o.bodyStart o.bodyEnd
    if body.isBlankText then
      .error (.fault (.malformedRule (some o.name) o.bodyStart .emptyBody))
    else
      let definition : Definition := ⟨o.name, o.nameOffset, body, o.bodyStart, o.atomic⟩
      .ok { s with
        outline := { s.outline with definitions := s.outline.definitions ++ [definition] }
        opened := none }

/-- Reads the code of a line. -/
def takeCode (line : Line) (s : State) : Except (Halt Fault) State := do
  let offset := s.offset + line.codeOffset
  let indent ← minus line.code.size (Text.size line.code.trimStart)
  if ['|'].isPrefixOf line.code.trimStart then
    match s.opened, s.mark with
    | some o, none =>
      .ok { s with opened := some { o with bodyEnd := offset + Text.size line.code.trimEnd } }
    | _, _ => .error (.fault (.malformedRule none (offset + indent) .strayAlternative))
  else
    match ← findCode? line.code "::=".toList with
    | none => .error (.fault (.malformedRule none (offset + indent) .missingDefinition))
    | some sep =>
      let s ← s.close
      let before ← line.code.cut 0 sep
      if !before.trim.isName then
        .error (.fault (.malformedRule none (offset + indent) (.invalidName before.trim)))
      else
        let opened : Opened :=
          { name := before.trim
            nameOffset := offset + indent
            bodyStart := offset + sep + 3
            bodyEnd := offset + Text.size line.code.trimEnd
            atomic := s.mark.isSome }
        .ok { s with opened := some opened, mark := none }

/-- Reads what a line means as a whole. -/
def takeContent (line : Line) (s : State) : Except (Halt Fault) State :=
  if line.hasCode then s.takeCode line else if line.isVacant then s.close else .ok s

/-- Reads a line. -/
def takeLine (s : State) (raw : Text) : Except (Halt Fault) State := do
  let line ← cutLine raw
  let s ← s.takeMark line
  let s ← s.takeStart line
  let s ← State.takeContent line { s with blanked := s.blanked ++ line.blanked }
  .ok { s with offset := s.offset + raw.size }

/-- The outline at the end of the source. -/
def finish (s : State) : Except (Halt Fault) Outline := do
  let s ← s.close
  match s.mark with
  | some place => .error (.fault (.malformedRule none place .strayAtomic))
  | none => .ok s.outline

end State

/-- The outline of a source. -/
def outline (source : Text) : Except (Halt Fault) Outline := do
  let s ← source.lines.foldlM State.takeLine {}
  s.finish

/-- The rules that the definitions say, each of a name that is not taken. -/
def readRules (taken : List Text) : List Definition → Except (Halt Fault) (List Rule)
  | [] => .ok []
  | d :: ds =>
    if taken.contains d.name then
      .error (.fault (.malformedRule (some d.name) d.nameOffset (.duplicate d.name)))
    else do
      let body ← (expr d.body).mapError (Halt.map (Fault.inRule d.name d.bodyOffset))
      let rules ← readRules (d.name :: taken) ds
      .ok (⟨d.name, body, d.atomic⟩ :: rules)

/-- The grammar that an outline says. -/
def ofOutline (outline : Outline) : Except (Halt Fault) Grammar := do
  let rules ← readRules [] outline.definitions
  match outline.start with
  | none => .ok ⟨rules, none⟩
  | some declared =>
    if rules.any (·.name == declared.symbol) then .ok ⟨rules, some declared.symbol⟩
    else .error (.fault (.malformedStart declared.offset (.undefined declared.symbol)))

/-- The grammar that a source says. -/
def grammar (source : Text) : Except (Halt Fault) Grammar := outline source >>= ofOutline

/-! ### Line by line -/

/-- The pending definition is the opened one, whose body stands in the blanked text where it says it
does. Only the gap and what is still to be taken in follow it. -/
structure Shows (blanked ahead : Text) (p : Outline.Pending) (o : Opened) : Prop where
  name : o.name = p.definition.name
  nameOffset : o.nameOffset = p.definition.nameOffset
  bodyOffset : o.bodyStart = p.definition.bodyOffset
  atomic : o.atomic = p.definition.atomic
  body : ∃ u, blanked = u ++ p.definition.body ++ p.gap ++ ahead ∧ o.bodyStart = u.size ∧
    o.bodyEnd = u.size + p.definition.body.size

/-- The same is known of the lines so far. Of the blanked text `ahead` is not yet taken in. -/
structure Tracks (ahead : Text) (s : Outline.State) (s' : State) : Prop where
  offset : s'.offset = s.offset
  outline : s'.outline = s.outline
  mark : s'.mark = s.mark
  blanked : ∃ t, s'.blanked = t ++ ahead ∧ t.size = s.offset
  opened : Option.Rel (Shows s'.blanked ahead) s.pending s'.opened

section
variable {s : Outline.State} {s' : State} {ahead : Text} {line : Line}

/-- An opened definition is pending. -/
theorem Tracks.exists_shows (h : Tracks ahead s s') {o : Opened} (ho : s'.opened = some o) :
    ∃ p, s.pending = some p ∧ Shows s'.blanked ahead p o := by
  have hopened := h.opened
  rw [ho] at hopened
  generalize s.pending = p at hopened
  cases hopened with
  | some hshows => exact ⟨_, rfl, hshows⟩

theorem Tracks.takeMark (h : Tracks ahead s s') (line : Line) :
    Follows (Tracks ahead) (s.takeMark line) (s'.takeMark line) := by
  unfold Outline.State.takeMark State.takeMark
  rw [h.mark, h.offset]
  cases line.isMarked with
  | false => exact .ok h
  | true =>
    cases s.mark with
    | some earlier => exact .fault _
    | none => exact .ok ⟨rfl, h.outline, rfl, h.blanked, h.opened⟩

theorem Tracks.takeStart (h : Tracks ahead s s') (raw : Text) :
    Follows (Tracks ahead) (s.takeStart (Line.ofText raw)) (s'.takeStart (Line.ofText raw)) := by
  unfold Outline.State.takeStart State.takeStart
  rw [startSymbol?_eq, h.outline, h.offset]
  dsimp only [bind, Except.bind]
  cases (Line.ofText raw).startSymbol? with
  | none => exact .ok h
  | some symbol =>
    dsimp only
    cases symbol.isName with
    | false => exact .fault _
    | true =>
      cases s.outline.start with
      | some first => exact .fault _
      | none => exact .ok ⟨rfl, rfl, h.mark, h.blanked, h.opened⟩

/-- The body of a definition is cut out where it was put together. -/
theorem Tracks.close (h : Tracks ahead s s') :
    Follows (fun t t' => Tracks ahead t t' ∧ t.offset = s.offset ∧ t.pending = none ∧
      t'.opened = none) s.close s'.close := by
  have hopened := h.opened
  unfold Outline.State.close State.close
  generalize hp : s.pending = p at hopened ⊢
  generalize ho : s'.opened = o at hopened ⊢
  cases hopened with
  | none => exact .ok ⟨h, rfl, hp, ho⟩
  | @some p o hshows =>
    obtain ⟨u, hblanked, hstart, hend⟩ := hshows.body
    have hcut : (s'.blanked.cut o.bodyStart o.bodyEnd : Except (Halt Fault) Text) =
        .ok p.definition.body :=
      Text.cut_of_eq (b := p.gap ++ ahead) (by rw [hblanked, List.append_assoc]) hstart hend
    dsimp only
    rw [hcut, h.outline, hshows.name, hshows.nameOffset, hshows.bodyOffset, hshows.atomic]
    dsimp only [bind, Except.bind]
    split
    · exact .fault _
    · exact .ok ⟨⟨h.offset, rfl, h.mark, h.blanked, .none⟩, rfl, rfl, rfl⟩

/-- What a line adds to the blanked text is taken in. -/
theorem Tracks.next {raw : Text} (h : Tracks (Line.ofText raw).blanked s s')
    {p : Option Outline.Pending} {o : Option Opened}
    (hopened : Option.Rel (Shows s'.blanked []) p o) (mark : Option Nat) :
    Tracks [] { s with offset := s.offset + raw.size, pending := p, mark := mark }
      { s' with offset := s.offset + raw.size, opened := o, mark := mark } where
  offset := rfl
  outline := h.outline
  mark := rfl
  blanked := by
    obtain ⟨t, hblanked, hsize⟩ := h.blanked
    refine ⟨s'.blanked, (List.append_nil _).symm, ?_⟩
    rw [hblanked, Text.size_append, hsize, Line.size_blanked, Line.source_ofText]
  opened := hopened

/-- A further alternative moves the end of the body behind it. -/
theorem Shows.extend {raw : Text} {p : Outline.Pending} {o : Opened} {blanked t : Text} {n : Nat}
    (h : Shows blanked (Line.ofText raw).blanked p o)
    (hblanked : blanked = t ++ (Line.ofText raw).blanked) (hn : t.size = n) :
    Shows blanked [] (Outline.State.extend (Line.ofText raw) p)
      { o with bodyEnd := n + (Line.ofText raw).codeOffset +
        Text.size (Line.ofText raw).code.trimEnd } where
  name := h.name
  nameOffset := h.nameOffset
  bodyOffset := h.bodyOffset
  atomic := h.atomic
  body := by
    obtain ⟨u, hbody, hstart, -⟩ := h.body
    obtain rfl : t = u ++ p.definition.body ++ p.gap :=
      List.append_cancel_right (hblanked.symm.trans hbody)
    refine ⟨u, ?_, hstart, ?_⟩
    · rw [hblanked, Outline.State.blanked_eq]
      simp [Outline.State.extend]
    · rw [← hn]
      simp [Outline.State.extend, Line.codeOffset]
      omega

/-- The body of a new definition stands behind its `::=`. -/
theorem shows_header {raw : Text} {blanked t before rest : Text} {n nameOffset : Nat}
    {atomic : Bool}
    (hcut : (Line.ofText raw).code.cutCode "::=".toList.isPrefixOf .code = some (before, rest))
    (hblanked : blanked = t ++ (Line.ofText raw).blanked) (hn : t.size = n) :
    Shows blanked []
      { definition :=
          { name := before.trim
            nameOffset := nameOffset
            body := Text.trimEnd (rest.drop 3)
            bodyOffset := n + (Line.ofText raw).codeOffset + before.size + 3
            atomic := atomic }
        gap := Outline.State.gapAfter (Line.ofText raw) }
      { name := before.trim
        nameOffset := nameOffset
        bodyStart := n + (Line.ofText raw).codeOffset + before.size + 3
        bodyEnd := n + (Line.ofText raw).codeOffset + Text.size (Line.ofText raw).code.trimEnd
        atomic := atomic } where
  name := rfl
  nameOffset := rfl
  bodyOffset := rfl
  atomic := rfl
  body := by
    have hmark : Text.size "::=".toList = 3 := rfl
    have htrim : (Line.ofText raw).code.trimEnd =
        before ++ "::=".toList ++ Text.trimEnd (rest.drop 3) := by
      obtain ⟨after, rfl⟩ := List.isPrefixOf_iff_prefix.1 (Text.of_cutCode hcut)
      rw [← Text.append_eq_of_cutCode hcut, ← List.append_assoc,
        Text.trimEnd_append (Outline.State.ends_header before)]
      rfl
    refine ⟨t ++ (Line.ofText raw).indent.spaces ++ (Line.ofText raw).marker.spaces ++ before ++
      "::=".toList, ?_, ?_, ?_⟩
    · rw [hblanked, Outline.State.blanked_eq, htrim]
      simp only [List.append_assoc, List.append_nil]
    · simp only [Text.size_append, Text.size_spaces, hmark, hn, Line.codeOffset]
      omega
    · rw [htrim]
      simp only [Text.size_append, Text.size_spaces, hmark, hn, Line.codeOffset]
      omega

theorem Tracks.takeCode {raw : Text} (h : Tracks (Line.ofText raw).blanked s s') :
    Follows (fun t t' => Tracks [] { t with offset := t.offset + raw.size }
      { t' with offset := t'.offset + raw.size })
      (s.takeCode (Line.ofText raw)) (s'.takeCode (Line.ofText raw)) := by
  obtain ⟨t, hblanked, hsize⟩ := h.blanked
  unfold Outline.State.takeCode State.takeCode
  rw [minus_size_trimStart, ok_bind, h.offset]
  dsimp only
  split
  next hbar =>
    have hopened := h.opened
    generalize hp : s.pending = p at hopened ⊢
    generalize ho : s'.opened = o at hopened ⊢
    rw [h.mark]
    cases hopened with
    | none => exact .fault _
    | some hshows =>
      cases s.mark with
      | some place => exact .fault _
      | none => exact .ok (h.next (.some (hshows.extend hblanked hsize)) none)
  next hbar =>
    rw [findCode?_eq, ok_bind, Text.findCode?, if_neg (by simp)]
    cases hcut : (Line.ofText raw).code.cutCode "::=".toList.isPrefixOf .code with
    | none => exact .fault _
    | some cut =>
      obtain ⟨before, rest⟩ := cut
      have hbefore : ((Line.ofText raw).code.cut 0 before.size : Except (Halt Fault) Text) =
          .ok before := Text.cut_front (Text.append_eq_of_cutCode hcut).symm
      refine h.close.bind fun closed closed' hclosed => ?_
      obtain ⟨htracks, hoffset, -, -⟩ := hclosed
      obtain ⟨u, hu, husize⟩ := htracks.blanked
      rw [hoffset] at husize
      dsimp only
      rw [hbefore, ok_bind, htracks.mark, htracks.offset]
      cases before.trim.isName with
      | false => exact .fault _
      | true => exact .ok (htracks.next (.some (shows_header hcut hu husize)) none)

/-- A line without code is a part of the gap. -/
theorem Shows.idle {p : Outline.Pending} {o : Opened} {blanked w : Text} (h : Shows blanked w p o) :
    Shows blanked [] { p with gap := p.gap ++ w } o where
  name := h.name
  nameOffset := h.nameOffset
  bodyOffset := h.bodyOffset
  atomic := h.atomic
  body := by
    obtain ⟨u, hbody, hplaces⟩ := h.body
    exact ⟨u, by simpa using hbody, hplaces⟩

theorem Shows.push {p : Outline.Pending} {o : Opened} {blanked : Text} (h : Shows blanked [] p o)
    (w : Text) : Shows (blanked ++ w) w p o where
  name := h.name
  nameOffset := h.nameOffset
  bodyOffset := h.bodyOffset
  atomic := h.atomic
  body := by
    obtain ⟨u, hbody, hplaces⟩ := h.body
    exact ⟨u, by rw [hbody, List.append_nil], hplaces⟩

/-- What the content of a line does is done by both. -/
theorem Tracks.takeContent {raw : Text} (h : Tracks (Line.ofText raw).blanked s s') :
    Follows (fun t t' => Tracks [] { t with offset := t.offset + raw.size }
      { t' with offset := t'.offset + raw.size })
      (s.takeContent (Line.ofText raw)) (s'.takeContent (Line.ofText raw)) := by
  unfold Outline.State.takeContent State.takeContent
  split
  next => exact h.takeCode
  next =>
    split
    next =>
      refine h.close.imp fun closed closed' hclosed => ?_
      obtain ⟨htracks, -, hnone, hnone'⟩ := hclosed
      have hopened : Option.Rel (Shows closed'.blanked []) closed.pending closed'.opened := by
        rw [hnone, hnone']
        exact .none
      rw [htracks.offset, htracks.mark]
      exact htracks.next hopened closed.mark
    next =>
      refine .ok ?_
      dsimp only
      rw [h.offset, h.mark]
      refine h.next ?_ s.mark
      have hopened := h.opened
      generalize s.pending = p at hopened ⊢
      generalize s'.opened = o at hopened ⊢
      cases hopened with
      | none => exact .none
      | some hshows => exact .some hshows.idle

/-- A line is added to the blanked text before it is taken in. -/
theorem Tracks.push (h : Tracks [] s s') (w : Text) :
    Tracks w s { s' with blanked := s'.blanked ++ w } where
  offset := h.offset
  outline := h.outline
  mark := h.mark
  blanked := by
    obtain ⟨t, hblanked, hsize⟩ := h.blanked
    exact ⟨t, by rw [hblanked, List.append_nil], hsize⟩
  opened := by
    have hopened := h.opened
    generalize s.pending = p at hopened ⊢
    generalize s'.opened = o at hopened ⊢
    cases hopened with
    | none => exact .none
    | some hshows => exact .some (hshows.push w)

theorem Tracks.takeLine (h : Tracks [] s s') (raw : Text) :
    Follows (Tracks []) (s.takeLine raw) (s'.takeLine raw) := by
  unfold Outline.State.takeLine State.takeLine
  rw [cutLine_eq, ok_bind]
  refine (h.takeMark _).bind fun marked marked' hmarked => ?_
  refine (hmarked.takeStart raw).bind fun started started' hstarted => ?_
  exact (hstarted.push _).takeContent.bind fun taken taken' htaken => .ok htaken

theorem Tracks.foldlM (h : Tracks [] s s') (ls : List Text) :
    Follows (Tracks []) (ls.foldlM Outline.State.takeLine s) (ls.foldlM State.takeLine s') :=
  Follows.foldlM (fun _ _ raw h => h.takeLine raw) ls h

theorem Tracks.finish (h : Tracks ahead s s') : Follows Eq s.finish s'.finish := by
  unfold Outline.State.finish State.finish
  refine h.close.bind fun closed closed' hclosed => ?_
  rw [hclosed.1.mark, hclosed.1.outline]
  cases closed.mark with
  | some place => exact .fault _
  | none => exact .ok rfl

/-- Before the first line nothing is known. -/
theorem tracks_nil : Tracks [] {} {} := ⟨rfl, rfl, rfl, ⟨[], rfl, rfl⟩, .none⟩

/-- The body of an opened definition starts in front of its end, and both are places to cut,
whatever the blanked text goes on with. -/
theorem Tracks.places (h : Tracks [] s s') {o : Opened} (ho : s'.opened = some o) (w : Text) :
    o.bodyStart ≤ o.bodyEnd ∧ (s'.blanked ++ w).IsPlace o.bodyStart ∧
      (s'.blanked ++ w).IsPlace o.bodyEnd := by
  obtain ⟨p, -, hshows⟩ := h.exists_shows ho
  obtain ⟨u, hbody, hstart, hend⟩ := hshows.body
  have hplace : s'.blanked.IsPlace o.bodyStart :=
    ⟨u, p.definition.body ++ p.gap, by simpa using hbody, hstart⟩
  have hlast : s'.blanked.IsPlace o.bodyEnd :=
    ⟨u ++ p.definition.body, p.gap, by simpa using hbody, by rw [hend, Text.size_append]⟩
  exact ⟨by rw [hstart, hend]; exact Nat.le_add_right .., hplace.append w, hlast.append w⟩

end

/-! ### Whole sources -/

theorem outline_eq (source : Text) : outline source = lift (Outline.ofText source) :=
  follows_eq_iff.1 ((tracks_nil.foldlM source.lines).bind fun _ _ h => h.finish)

theorem readRules_eq (taken : List Text) (ds : List Definition) :
    readRules taken ds = lift (Grammar.readRules taken ds) := by
  induction ds generalizing taken with
  | nil => rfl
  | cons d ds ih =>
    rw [readRules, Grammar.readRules]
    by_cases htaken : d.name ∈ taken
    · rw [if_pos (List.contains_iff_mem.2 htaken), if_pos htaken]
      rfl
    · rw [if_neg (mt List.contains_iff_mem.1 htaken), if_neg htaken, expr_eq, ← lift_mapError]
      refine bind_eq_lift rfl fun body => ?_
      exact bind_eq_lift (ih (d.name :: taken)) fun _ => rfl

theorem ofOutline_eq (o : Outline) : ofOutline o = lift (Grammar.ofOutline o) := by
  unfold ofOutline Grammar.ofOutline
  refine bind_eq_lift (readRules_eq [] o.definitions) fun rules => ?_
  cases o.start with
  | none => rfl
  | some declared =>
    dsimp only
    split <;> rfl

/-- No cut and no difference slips while a source is read: what reading by byte indices comes to is
the grammar or the fault of the source. After any of the lines the body of a definition that may
still go on starts in front of its end in the blanked text, and both are places to cut, whatever
the text goes on with. -/
theorem grammar_never_slips (source : Text) :
    grammar source ≠ .error .slip ∧ grammar source = lift (Grammar.ofText source) ∧
      ∀ ls s o w, ls <+: source.lines → ls.foldlM State.takeLine {} = .ok s → s.opened = some o →
        o.bodyStart ≤ o.bodyEnd ∧ (s.blanked ++ w).IsPlace o.bodyStart ∧
          (s.blanked ++ w).IsPlace o.bodyEnd := by
  have heq : grammar source = lift (Grammar.ofText source) :=
    bind_eq_lift (outline_eq source) ofOutline_eq
  refine ⟨?_, heq, fun ls s o w _ hs ho => ?_⟩
  · rw [heq]
    exact lift_ne_slip _
  · have hfollows := tracks_nil.foldlM ls
    rw [hs] at hfollows
    generalize ls.foldlM Outline.State.takeLine {} = result at hfollows
    cases hfollows with
    | ok htracks => exact htracks.places ho w

/-- The two bytes of `ü` are two blanks in front of a body that goes on over lines, and those of `é`
stand in it. -/
theorem grammar_never_slips_multibyte :
    let source : Text := "# ü\na ::= 'é' # ü\n | \"#é\"\nb ::= a\n".toList
    grammar source ≠ .error .slip ∧
      ∃ s o, (source.lines.take 3).foldlM State.takeLine {} = .ok s ∧ s.opened = some o ∧
        o.bodyStart = 10 ∧ o.bodyEnd = 29 ∧ o.bodyStart ≤ o.bodyEnd ∧
        (s.blanked ++ "b ::= a\n".toList).IsPlace o.bodyStart ∧
        (s.blanked ++ "b ::= a\n".toList).IsPlace o.bodyEnd := by
  intro source
  obtain ⟨hslip, -, hplaces⟩ := grammar_never_slips source
  obtain ⟨m, hm, hpending⟩ : ∃ m, (source.lines.take 3).foldlM Outline.State.takeLine {} = .ok m ∧
      m.pending = some ⟨⟨['a'], 5, " 'é'     \n | \"#é\"".toList, 10, false⟩, ['\n']⟩ :=
    ⟨_, rfl, rfl⟩
  have hfollows := tracks_nil.foldlM (source.lines.take 3)
  rw [hm] at hfollows
  generalize hs : (source.lines.take 3).foldlM State.takeLine {} = result at hfollows
  cases hfollows with
  | @ok _ s htracks =>
    have hopened := htracks.opened
    rw [hpending] at hopened
    generalize ho : s.opened = found at hopened
    cases hopened with
    | @some _ o hshows =>
      obtain ⟨u, -, hstart, hend⟩ := hshows.body
      have hbodyStart : o.bodyStart = 10 := hshows.bodyOffset
      have hsize : Text.size " 'é'     \n | \"#é\"".toList = 19 := rfl
      refine ⟨hslip, s, o, rfl, ho, hbodyStart, ?_, hplaces _ s o _ (List.take_prefix ..) hs ho⟩
      rw [hend, ← hstart, hbodyStart]
      exact congrArg (10 + ·) hsize

end ByIndex
end ExtendedBnf
