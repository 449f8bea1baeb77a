import ExtendedBnf.Proofs.Loosening
import ExtendedBnf.Proofs.ReadGrammars
import Mathlib.Data.Option.Basic

/-!
# Sources that differ in their layout

What is known of two sources is alike if the definitions are the same up to white space
where lines end and in front of bars. A line that is read in both, or two lines alike,
keep this up. So the outlines are alike in the end, and outlines that are alike say the
same grammar, if no literal of it goes over a line feed.
-/
namespace ExtendedBnf

/-- The definitions are the same up to the layout of their bodies. -/
structure Definition.Alike (d d' : Definition) : Prop where
  name : d'.name = d.name
  atomic : d'.atomic = d.atomic
  body : d.body.Loosened d'.body

namespace Outline

/-- The outlines are the same up to layout. -/
structure Alike (o o' : Outline) : Prop where
  definitions : List.Forall₂ Definition.Alike o.definitions o'.definitions
  start : o'.start.map (·.symbol) = o.start.map (·.symbol)

/-- Outlines that are the same up to layout say the same grammar, if no literal of it goes over a
line feed. -/
theorem Alike.reads {o o' : Outline} {g : Grammar} (h : o.Alike o') (hreads : o.Reads g)
    (hlines : ∀ r ∈ g.rules, ∀ l ∈ r.body.literals, '\n' ∉ l.body) : o'.Reads g where
  rules := by
    refine List.forall₂_iff_get.2 ⟨?_, fun i hd' hr => ?_⟩
    · rw [← h.definitions.length_eq, hreads.rules.length_eq]
    · have hd : i < o.definitions.length := h.definitions.length_eq ▸ hd'
      have halike := h.definitions.get hd hd'
      have hread := hreads.rules.get hd hr
      have hsays := hread.says.loosened (hlines _ (List.get_mem _ ⟨i, hr⟩)) halike.body
      exact ⟨halike.name.trans hread.name, Expr.ofText_of_meaning hsays,
        halike.atomic.trans hread.atomic⟩
  distinct := hreads.distinct
  start := h.start.trans hreads.start
  defined := hreads.defined

/-- The pending definitions are the same up to layout. If more lines follow, the line before them
has ended, and the texts so far are the same up to layout. -/
structure Pending.Alike (more : Prop) (p p' : Pending) : Prop where
  definition : p.definition.Alike p'.definition
  ends : more → p.gap.EndsLine
  text : more → (p.definition.body ++ p.gap).Loosened (p'.definition.body ++ p'.gap)

namespace State
variable {more : Prop} {s s' t : State} {line line' : Line}

/-- What is known is the same up to layout. -/
structure Alike (more : Prop) (s s' : State) : Prop where
  definitions : List.Forall₂ Definition.Alike s.outline.definitions s'.outline.definitions
  start : s'.outline.start.map (·.symbol) = s.outline.start.map (·.symbol)
  mark : s'.mark.isSome = s.mark.isSome
  pending : Option.Rel (Pending.Alike more) s.pending s'.pending

/-- The lines do the same, and what they add to a body is the same up to layout. -/
structure AlikeLines (more : Prop) (line line' : Line) : Prop where
  marked : line'.isMarked = line.isMarked
  start : line'.startSymbol? = line.startSymbol?
  vacant : line'.isVacant = line.isVacant
  code : ∃ x, x.isBlankText ∧ line'.code = line.code ++ x
  front : ∀ u : Text, u.EndsLine →
    Text.Loosened (u ++ line.indent.spaces ++ line.marker.spaces)
      (u ++ line'.indent.spaces ++ line'.marker.spaces)
  ends : more → (gapAfter line).EndsLine
  gap : more → ∀ u : Text, Text.Loosened (u ++ gapAfter line) (u ++ gapAfter line')

theorem ends_gapAfter {raw : Text} (h : raw.EndsLine) : (gapAfter (Line.ofText raw)).EndsLine := by
  obtain ⟨r, rfl⟩ := h
  rw [gapAfter, Line.ending_append_feed]
  exact Text.EndsLine.append ⟨_, rfl⟩ _

theorem AlikeLines.refl (h : more → (gapAfter line).EndsLine) :
    AlikeLines more line line where
  marked := rfl
  start := rfl
  vacant := rfl
  code := ⟨[], rfl, (List.append_nil _).symm⟩
  front _ _ := .refl
  ends := h
  gap _ _ := .refl

theorem AlikeLines.hasCode (h : AlikeLines more line line') : line'.hasCode = line.hasCode := by
  obtain ⟨x, hx, hcode⟩ := h.code
  simp only [Line.hasCode, hcode, Text.isBlankText, List.all_append] at hx ⊢
  rw [hx, Bool.and_true]

theorem AlikeLines.trimEnd_code (h : AlikeLines more line line') :
    line'.code.trimEnd = line.code.trimEnd := by
  obtain ⟨x, hx, hcode⟩ := h.code
  rw [hcode]
  exact Text.dropEndWhile_append_all (List.all_eq_true.1 hx) line.code

theorem Alike.takeMark (hs : s.Alike more s') (hl : line'.isMarked = line.isMarked)
    (h : s.takeMark line = .ok t) : ∃ t', s'.takeMark line' = .ok t' ∧ t.Alike more t' := by
  obtain ⟨hmarked, rfl⟩ | ⟨hmarked, hmark, rfl⟩ := takeMark_eq_ok_iff.1 h
  · exact ⟨s', takeMark_eq_ok_iff.2 (.inl ⟨hl.trans hmarked, rfl⟩), hs⟩
  · have hnone : s'.mark = none := by
      have hsome := hs.mark
      rw [hmark] at hsome
      exact Option.not_isSome_iff_eq_none.1 (Bool.eq_false_iff.1 hsome)
    refine ⟨_, takeMark_eq_ok_iff.2 (.inr ⟨hl.trans hmarked, hnone, rfl⟩), ?_⟩
    exact ⟨hs.definitions, hs.start, rfl, hs.pending⟩

theorem Alike.takeStart (hs : s.Alike more s') (hl : line'.startSymbol? = line.startSymbol?)
    (h : s.takeStart line = .ok t) : ∃ t', s'.takeStart line' = .ok t' ∧ t.Alike more t' := by
  obtain ⟨hsymbol, rfl⟩ | ⟨symbol, hsymbol, hname, hstart, rfl⟩ := takeStart_eq_ok_iff.1 h
  · exact ⟨s', takeStart_eq_ok_iff.2 (.inl ⟨hl.trans hsymbol, rfl⟩), hs⟩
  · have hnone : s'.outline.start = none := by
      have hmap := hs.start
      rw [hstart] at hmap
      exact Option.map_eq_none_iff.1 hmap
    refine ⟨_, takeStart_eq_ok_iff.2
      (.inr ⟨symbol, hl.trans hsymbol, hname, hnone, rfl⟩), ?_⟩
    exact ⟨hs.definitions, rfl, hs.mark, hs.pending⟩

theorem Alike.pending_eq_none (hs : s.Alike more s') (h : s.pending = none) :
    s'.pending = none := by
  have hrel := hs.pending
  rw [h] at hrel
  generalize s'.pending = q at hrel
  cases hrel
  rfl

theorem Alike.exists_pending (hs : s.Alike more s') {p : Pending} (h : s.pending = some p) :
    ∃ p', s'.pending = some p' ∧ p.Alike more p' := by
  have hrel := hs.pending
  rw [h] at hrel
  generalize s'.pending = q at hrel ⊢
  cases hrel with
  | some hp => exact ⟨_, rfl, hp⟩

theorem Alike.close (hs : s.Alike more s') (h : s.close = .ok t) (later : Prop) :
    ∃ t', s'.close = .ok t' ∧ t.Alike later t' := by
  obtain ⟨hpending, rfl⟩ | ⟨p, hpending, hbody, rfl⟩ := close_eq_ok_iff.1 h
  · have hnone := hs.pending_eq_none hpending
    refine ⟨s', close_eq_ok_iff.2 (.inl ⟨hnone, rfl⟩), hs.definitions, hs.start, hs.mark, ?_⟩
    rw [hpending, hnone]
    exact .none
  · obtain ⟨p', hpending', hp⟩ := hs.exists_pending hpending
    have hbody' : p'.definition.body.isBlankText = false :=
      hp.definition.body.isBlankText.trans hbody
    refine ⟨_, close_eq_ok_iff.2 (.inr ⟨p', hpending', hbody', rfl⟩), ?_, hs.start, hs.mark, .none⟩
    exact List.rel_append hs.definitions (.cons hp.definition .nil)

/-- A further line keeps pending definitions alike. -/
theorem alike_extend {p p' : Pending} (hp : p.Alike True p') (hl : AlikeLines more line line') :
    (extend line p).Alike more (extend line' p') := by
  have hfront := hl.front _ ((hp.ends trivial).append p.definition.body)
  have hbody : (extend line p).definition.body.Loosened (extend line' p').definition.body := by
    have hold := (hp.text trivial).append (line'.indent.spaces ++ line'.marker.spaces)
    rw [← List.append_assoc, ← List.append_assoc] at hold
    have hboth := (hfront.trans hold).append line.code.trimEnd
    simpa only [extend, hl.trimEnd_code] using hboth
  refine ⟨⟨hp.definition.name, hp.definition.atomic, hbody⟩, hl.ends, fun hmore => ?_⟩
  exact (hbody.append _).trans (hl.gap hmore _)

theorem alike_gap {p p' : Pending} (hp : p.Alike True p') (hl : AlikeLines more line line') :
    Pending.Alike more { p with gap := p.gap ++ line.blanked }
      { p' with gap := p'.gap ++ line'.blanked } := by
  have htext := (alike_extend hp hl).text
  refine ⟨hp.definition, fun hmore => ?_, fun hmore => ?_⟩
  · rw [blanked_eq]
    exact ((hl.ends hmore).append _).append p.gap
  · simpa only [extend, blanked_eq, List.append_assoc] using htext hmore

/-- A line does the same to states that are alike. -/
theorem Alike.takes (hs : s.Alike True s') (hl : AlikeLines more line line')
    (h : Takes line s t) : ∃ t', Takes line' s' t' ∧ t.Alike more t' := by
  have hcode := hl.hasCode
  obtain ⟨x, hx, hline⟩ := hl.code
  cases h with
  | vacant hnone hvacant hclose =>
    obtain ⟨t', hclose', ht⟩ := hs.close hclose more
    exact ⟨t', .vacant (hcode.trans hnone) (hl.vacant.trans hvacant) hclose', ht⟩
  | idle hnone hvacant =>
    refine ⟨_, .idle (hcode.trans hnone) (hl.vacant.trans hvacant), hs.definitions, hs.start,
      hs.mark, ?_⟩
    cases hpending : s.pending with
    | none =>
      rw [hs.pending_eq_none hpending]
      exact .none
    | some p =>
      obtain ⟨p', hpending', hp⟩ := hs.exists_pending hpending
      rw [hpending']
      exact .some (alike_gap hp hl)
  | @alternative p hsome hbar hpending hmark =>
    obtain ⟨p', hpending', hp⟩ := hs.exists_pending hpending
    have hmark' : s'.mark = none := by
      rw [← Option.not_isSome_iff_eq_none, hs.mark, hmark]
      exact Bool.false_ne_true
    have hblank : line.code.isBlankText = false := by simpa [Line.hasCode] using hsome
    have hbar' : ['|'].isPrefixOf line'.code.trimStart := by
      rwa [hline, Text.isPrefixOf_trimStart_append hblank]
    refine ⟨_, .alternative (hcode.trans hsome) hbar' hpending' hmark', ?_⟩
    exact ⟨hs.definitions, hs.start, hs.mark, .some (alike_extend hp hl)⟩
  | @header before rest closed hsome hbar hcut hclose hname =>
    obtain ⟨closed', hclose', hclosed⟩ := hs.close hclose more
    have hblank : line.code.isBlankText = false := by simpa [Line.hasCode] using hsome
    have hbar' : ['|'].isPrefixOf line'.code.trimStart = false := by
      rwa [hline, Text.isPrefixOf_trimStart_append hblank]
    have hcut' : line'.code.cutCode "::=".toList.isPrefixOf .code = some (before, rest ++ x) := by
      rw [hline]
      exact Text.cutCode_isPrefixOf_append hcut x
    have hrest : Text.trimEnd ((rest ++ x).drop 3) = Text.trimEnd (rest.drop 3) := by
      obtain ⟨body, rfl⟩ := List.isPrefixOf_iff_prefix.1 (Text.of_cutCode hcut)
      exact Text.dropEndWhile_append_all (List.all_eq_true.1 hx) body
    refine ⟨_, .header (hcode.trans hsome) hbar' hcut' hclose' hname, hclosed.definitions,
      hclosed.start, rfl, .some ⟨⟨rfl, hclosed.mark, ?_⟩, hl.ends, fun hmore => ?_⟩⟩
    · dsimp only
      rw [hrest]
      exact .refl
    · dsimp only
      rw [hrest]
      exact hl.gap hmore _

theorem Alike.takeLine {raw raw' : Text} (hs : s.Alike True s')
    (hl : AlikeLines more (Line.ofText raw) (Line.ofText raw')) (h : s.takeLine raw = .ok t) :
    ∃ t', s'.takeLine raw' = .ok t' ∧ t.Alike more t' := by
  obtain ⟨marked, started, taken, hmarked, hstarted, htaken, rfl⟩ := takeLine_eq_ok_iff.1 h
  obtain ⟨marked', hmarked', hmark⟩ := hs.takeMark hl.marked hmarked
  obtain ⟨started', hstarted', hstart⟩ := hmark.takeStart hl.start hstarted
  obtain ⟨taken', htaken', htake⟩ := hstart.takes hl (takes_of_takeContent htaken)
  refine ⟨_, takeLine_eq_ok_iff.2
    ⟨marked', started', taken', hmarked', hstarted', takeContent_of_takes htaken', rfl⟩, ?_⟩
  exact ⟨htake.definitions, htake.start, htake.mark, htake.pending⟩

theorem Alike.imp {later : Prop} (hs : s.Alike more s') (h : later → more) : s.Alike later s' where
  definitions := hs.definitions
  start := hs.start
  mark := hs.mark
  pending := by
    have hrel := hs.pending
    revert hrel
    generalize s.pending = p
    generalize s'.pending = p'
    rintro (hp | _)
    · exact .some ⟨hp.definition, hp.ends ∘ h, hp.text ∘ h⟩
    · exact .none

/-- Induction on lines that end. -/
theorem Alike.foldlM_ended {ls : List Text} (hls : ∀ l ∈ ls, l.EndsLine)
    (hs : s.Alike True s') (h : ls.foldlM State.takeLine s = .ok t) :
    ∃ t', ls.foldlM State.takeLine s' = .ok t' ∧ t.Alike True t' := by
  induction ls generalizing s s' with
  | nil =>
    cases h
    exact ⟨s', rfl, hs⟩
  | cons raw ls ih =>
    obtain ⟨hraw, hls⟩ := List.forall_mem_cons.1 hls
    rw [List.foldlM_cons] at h
    obtain ⟨next, hnext, hrest⟩ := bind_eq_ok.1 h
    obtain ⟨next', hnext', halike⟩ :=
      hs.takeLine (.refl fun _ => ends_gapAfter hraw) hnext
    obtain ⟨t', ht', ht⟩ := ih hls halike hrest
    exact ⟨t', bind_eq_ok.2 ⟨next', hnext', ht'⟩, ht⟩

/-- What the last lines of a source do to states that are alike. -/
theorem Alike.foldlM {source : Text} {before after : List Text}
    (hlines : source.lines = before ++ after) (hs : s.Alike (after ≠ []) s')
    (h : after.foldlM State.takeLine s = .ok t) :
    ∃ t', after.foldlM State.takeLine s' = .ok t' ∧ t.Alike False t' := by
  obtain rfl | ⟨ls, raw, rfl⟩ := List.eq_nil_or_concat' after
  · cases h
    exact ⟨s', rfl, hs.imp False.elim⟩
  · have hls : ∀ l ∈ ls, l.EndsLine := by
      intro l hl
      obtain ⟨x, y, rfl⟩ := List.append_of_mem hl
      refine Text.ends_of_lines (t := source) (a := before ++ x) (b := y ++ [raw]) ?_ (by simp)
      simpa using hlines
    rw [List.foldlM_append] at h ⊢
    obtain ⟨last, hlast, hraw⟩ := bind_eq_ok.1 h
    obtain ⟨last', hlast', halike⟩ := (hs.imp fun _ => by simp).foldlM_ended hls hlast
    rw [List.foldlM_cons, bind_eq_ok] at hraw
    obtain ⟨next, hnext, hpure⟩ := hraw
    cases hpure
    have hraw : AlikeLines False (Line.ofText raw) (Line.ofText raw) := .refl False.elim
    obtain ⟨t', ht', ht⟩ := halike.takeLine hraw hnext
    refine ⟨t', bind_eq_ok.2 ⟨last', hlast', ?_⟩, ht⟩
    rw [List.foldlM_cons]
    exact bind_eq_ok.2 ⟨t', ht', rfl⟩

theorem Alike.finish {o : Outline} (hs : s.Alike more s') (h : s.finish = .ok o) :
    ∃ o', s'.finish = .ok o' ∧ o.Alike o' := by
  obtain ⟨closed, hclosed, hmark, rfl⟩ := finish_eq_ok_iff.1 h
  obtain ⟨closed', hclosed', halike⟩ := hs.close hclosed False
  have hnone : closed'.mark = none := by
    rw [← Option.not_isSome_iff_eq_none, halike.mark, hmark]
    exact Bool.false_ne_true
  exact ⟨closed'.outline, finish_eq_ok_iff.2 ⟨closed', hclosed', hnone, rfl⟩, halike.definitions,
    halike.start⟩

end State

/-- A source is read up to some lines, over them and to its end. -/
theorem ofText_eq_ok_iff_run {source : Text} {before mid after : List Text} {o : Outline}
    (hlines : source.lines = before ++ (mid ++ after)) :
    ofText source = .ok o ↔ ∃ s t u, before.foldlM State.takeLine {} = .ok s ∧
      mid.foldlM State.takeLine s = .ok t ∧ after.foldlM State.takeLine t = .ok u ∧
        u.finish = .ok o := by
  simp only [ofText, hlines, List.foldlM_append, bind_eq_ok]
  constructor
  · rintro ⟨u, ⟨s, hs, t, ht, hu⟩, hfinish⟩
    exact ⟨s, t, u, hs, ht, hu, hfinish⟩
  · rintro ⟨s, t, u, hs, ht, hu, hfinish⟩
    exact ⟨u, ⟨s, hs, t, ht, hu⟩, hfinish⟩

/-- Lines may be replaced by lines that leave what is known the same up to layout. -/
theorem exists_alike_of_replaced {source source' : Text} {before mid mid' after : List Text}
    {o : Outline} (h : ofText source = .ok o) (hlines : source.lines = before ++ (mid ++ after))
    (hlines' : source'.lines = before ++ (mid' ++ after)) (hne : mid' ≠ [])
    (hmid : ∀ s t u, s.Alike True s → mid.foldlM State.takeLine s = .ok t →
      after.foldlM State.takeLine t = .ok u → u.finish = .ok o →
        ∃ t', mid'.foldlM State.takeLine s = .ok t' ∧ t.Alike (after ≠ []) t') :
    ∃ o', ofText source' = .ok o' ∧ o.Alike o' := by
  obtain ⟨s, t, u, hs, ht, hu, hfinish⟩ := (ofText_eq_ok_iff_run hlines).1 h
  have hbefore : ∀ l ∈ before, l.EndsLine := by
    intro l hl
    obtain ⟨x, y, rfl⟩ := List.append_of_mem hl
    refine Text.ends_of_lines (t := source') (a := x) (b := y ++ (mid' ++ after)) ?_ (by simp [hne])
    simpa using hlines'
  have hempty : State.Alike True {} {} := ⟨.nil, rfl, rfl, .none⟩
  obtain ⟨s', hs', halike⟩ := hempty.foldlM_ended hbefore hs
  obtain rfl := Except.ok.inj (hs.symm.trans hs')
  obtain ⟨t', ht', halike⟩ := hmid s t u halike ht hu hfinish
  rw [← List.append_assoc] at hlines
  obtain ⟨u', hu', hlast⟩ := halike.foldlM hlines hu
  obtain ⟨o', ho', halike⟩ := hlast.finish hfinish
  exact ⟨o', (ofText_eq_ok_iff_run hlines').2 ⟨s, t', u', hs, ht', hu', ho'⟩, halike⟩

end Outline
end ExtendedBnf
