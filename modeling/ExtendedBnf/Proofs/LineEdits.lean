import ExtendedBnf.Proofs.AlikeStates

/-!
# Edited lines

More indentation, another line end and a further comment change only the white space
that a line adds to a body. A remark adds white space to the end of a line before it. A
line that is broken in front of a bar is a shorter line and an alternative that goes on
with it, and both together add what the line did, with white space in front of the bar.
-/
namespace ExtendedBnf

theorem Text.spaces_append (s t : Text) : spaces (s ++ t) = spaces s ++ spaces t := by
  rw [spaces, size_append, ← List.replicate_append_replicate]
  rfl

theorem Text.isGap_spaces (t : Text) : IsGap t.spaces := by
  intro c hc
  rw [List.eq_of_mem_replicate hc]
  rfl

theorem Line.isGap_front (line : Line) : IsGap (line.indent.spaces ++ line.marker.spaces) :=
  (Text.isGap_spaces _).append (Text.isGap_spaces _)

/-- The blanks at the end of a text are those behind its last ink. -/
theorem Text.takeEndWhile_append_ink {s : Text} (hs : Ends isInk s) (t : Text) :
    takeEndWhile isBlank (s ++ t) = takeEndWhile isBlank t := by
  have hwhole := dropEndWhile_append_takeEndWhile isBlank (s ++ t)
  have hdrop : dropEndWhile isBlank (s ++ t) = s ++ dropEndWhile isBlank t := trimEnd_append hs t
  nth_rewrite 3 [← dropEndWhile_append_takeEndWhile isBlank t] at hwhole
  rw [hdrop, List.append_assoc] at hwhole
  exact List.append_cancel_left (List.append_cancel_left hwhole)

/-- The line is a comment only, and neither a mark nor a start declaration. -/
structure Line.IsRemark (line : Line) : Prop where
  code : line.hasCode = false
  marked : line.isMarked = false
  comment : line.comment ≠ []
  start : line.startSymbol? = none

namespace Outline.State
variable {more : Prop} {s t : State} {raw u w : Text}

theorem alikeLines_indented (hw : w.IsIndent) (hmore : more → raw.EndsLine) :
    AlikeLines more (Line.ofText raw) (Line.ofText (w ++ raw)) := by
  have hline : Line.ofText (w ++ raw) =
      { Line.ofText raw with indent := w ++ (Line.ofText raw).indent } := by
    rw [← ((Line.isCut_ofText raw).indented hw).ofText_source]
    nth_rewrite 1 [← Line.source_ofText raw]
    simp only [Line.source, List.append_assoc]
  rw [hline]
  refine ⟨rfl, rfl, rfl, ⟨[], rfl, (List.append_nil _).symm⟩, fun u hu => ?_,
    fun h => ends_gapAfter (hmore h), fun _ _ => .refl⟩
  -- the indentation widens the line end before it
  obtain ⟨r, rfl⟩ := hu
  have hgap : IsGap ('\n' :: w.spaces) := List.forall_mem_cons.2 ⟨rfl, Text.isGap_spaces w⟩
  have hfeed := Text.Loosens.feed r
    ((Line.ofText raw).indent.spaces ++ (Line.ofText raw).marker.spaces) hgap (List.cons_ne_nil _ _)
  refine .single ?_
  simpa [Text.spaces_append] using hfeed

/-- A last line may get its line feed. -/
theorem alikeLines_ended (hmore : more → raw.EndsLine) (hfeed : '\n' ∉ raw) :
    AlikeLines more (Line.ofText raw) (Line.ofText (raw ++ ['\n'])) := by
  have hlast : ¬ more := by
    intro h
    obtain ⟨r, rfl⟩ := hmore h
    exact hfeed (List.mem_append_right r List.mem_cons_self)
  rw [Line.ofText_append (List.forall_mem_singleton.2 rfl)]
  exact ⟨rfl, rfl, rfl, ⟨[], rfl, (List.append_nil _).symm⟩, fun _ _ => .refl,
    fun h => absurd h hlast, fun h => absurd h hlast⟩

theorem alikeLines_returned (u : Text) :
    AlikeLines more (Line.ofText (u ++ ['\n'])) (Line.ofText (u ++ ['\r', '\n'])) := by
  have hreturned : ∀ c ∈ ['\r', '\n'], Line.isEnding c :=
    List.forall_mem_cons.2 ⟨rfl, List.forall_mem_singleton.2 rfl⟩
  have hends := ends_gapAfter ⟨u, rfl⟩
  rw [Line.ofText_append (List.forall_mem_singleton.2 rfl)] at hends ⊢
  rw [Line.ofText_append hreturned]
  refine ⟨rfl, rfl, rfl, ⟨[], rfl, (List.append_nil _).symm⟩, fun _ _ => .refl,
    fun _ => hends, fun _ v => ?_⟩
  have hfeed := Text.Loosens.feed
    (v ++ (Line.ofText u).code.takeEndWhile Text.isBlank ++ (Line.ofText u).comment.spaces ++
      (Line.ofText u).ending) [] (Line.isGap_of_isEnding hreturned) (List.cons_ne_nil _ _)
  refine .single ?_
  simpa [gapAfter] using hfeed

theorem alikeLines_noted {e note : Text} (hcode : (Line.ofText (u ++ e)).hasCode)
    (hclosed : Place.code.after (Line.ofText (u ++ e)).code = .code)
    (he : ∀ c ∈ e, Line.isEnding c) (hw : w.IsIndent) (hmore : more → (u ++ e).EndsLine) :
    AlikeLines more (Line.ofText (u ++ e)) (Line.ofText (u ++ w ++ '#' :: note ++ e)) := by
  have hcut := Line.isCut_ofText (u ++ e)
  obtain ⟨x, k, f, hline, hx, hf, hlength⟩ :=
    hcut.exists_ofText_noted note hcode hclosed (Line.source_ofText _) he hw
  rw [hline]
  have hmuch : Line.hasCode ⟨(Line.ofText (u ++ e)).indent, (Line.ofText (u ++ e)).marker,
      (Line.ofText (u ++ e)).code ++ x, k, f⟩ := by
    simp only [Line.hasCode, Text.isBlankText, List.all_append, Bool.not_eq_true',
      Bool.and_eq_false_iff] at hcode ⊢
    exact .inl hcode
  refine ⟨rfl, ?_, ?_, ⟨x, hx.isBlankText, rfl⟩, fun _ _ => .refl,
    fun h => ends_gapAfter (hmore h), fun h v => ?_⟩
  · simp [Line.startSymbol?, Line.code_ne_nil hcode]
  · simp only [Line.isVacant, hcode, hmuch, Bool.not_true, Bool.false_and]
  · have hfeed : '\n' ∈ (Line.ofText (u ++ e)).ending := by
      obtain ⟨r, hr⟩ := hmore h
      rw [hr, Line.ending_append_feed]
      exact List.mem_append_right _ List.mem_cons_self
    have hgap := Text.Loosens.gap
      (v ++ (Line.ofText (u ++ e)).code.takeEndWhile Text.isBlank) []
      (g := (Line.ofText (u ++ e)).comment.spaces ++ (Line.ofText (u ++ e)).ending)
      (h := x ++ k.spaces ++ f)
      ((Text.isGap_spaces _).append (Line.isGap_of_isEnding hcut.ending))
      (List.mem_append_right _ hfeed)
      ((hx.append (Text.isGap_spaces k)).append (Line.isGap_of_isEnding hf))
      (by simpa [Text.spaces, Nat.add_assoc] using hlength)
    have hblank : (Text.takeEndWhile Text.isBlank ((Line.ofText (u ++ e)).code ++ x)) =
        (Line.ofText (u ++ e)).code.takeEndWhile Text.isBlank ++ x :=
      Text.takeEndWhile_append_all (List.all_eq_true.1 hx.isBlankText) _
    refine .single ?_
    simpa [gapAfter, hblank] using hgap

/-- A remark leaves everything as it was up to layout. -/
theorem Alike.remark (hs : s.Alike True s) (h : (Line.ofText raw).IsRemark) :
    ∃ t, s.takeLine raw = .ok t ∧ s.Alike True t := by
  have hcut := Line.isCut_ofText raw
  have hmarker : (Line.ofText raw).marker = [] := by simpa [Line.isMarked] using h.marked
  have hcode : (Line.ofText raw).code = [] := by
    have hblank : (Line.ofText raw).code.isBlankText := by simpa [Line.hasCode] using h.code
    have hstart := hcut.start
    rw [hmarker, List.nil_append] at hstart
    cases hc : (Line.ofText raw).code with
    | nil => rfl
    | cons c r =>
      rw [hc] at hblank hstart
      have hfirst := (Bool.and_eq_true_iff.1 hblank).1
      rw [hstart c rfl] at hfirst
      cases hfirst
  have hvacant : (Line.ofText raw).isVacant = false := by
    simp [Line.isVacant, h.comment]
  have hblanked : IsGap (Line.ofText raw).blanked := by
    rw [Line.blanked, hcode, List.append_nil]
    exact ((Line.isGap_front _).append (Text.isGap_spaces _)).append
      (Line.isGap_of_isEnding hcut.ending)
  refine ⟨_, takeLine_eq_ok_iff.2 ⟨s, s, _, takeMark_eq_ok_iff.2 (.inl ⟨h.marked, rfl⟩),
    takeStart_eq_ok_iff.2 (.inl ⟨h.start, rfl⟩),
    takeContent_of_takes (.idle h.code hvacant), rfl⟩, hs.definitions, rfl, rfl, ?_⟩
  cases hpending : s.pending with
  | none => exact .none
  | some p =>
    obtain ⟨q, hq, hp⟩ := hs.exists_pending hpending
    obtain rfl := Option.some.inj (hpending.symm.trans hq)
    refine .some ⟨hp.definition, hp.ends, fun _ => ?_⟩
    obtain ⟨r, hr⟩ := hp.ends trivial
    have hgap : IsGap ('\n' :: (Line.ofText raw).blanked) :=
      List.forall_mem_cons.2 ⟨rfl, hblanked⟩
    have hfeed := Text.Loosens.feed (p.definition.body ++ r) [] hgap (List.cons_ne_nil _ _)
    refine .single ?_
    simpa [hr] using hfeed

/-! ## Broken lines -/

/-- The first definition has the body of the second one up to a bar, and ends its line there. -/
structure IsFront (q p : Pending) (y : Text) : Prop where
  name : q.definition.name = p.definition.name
  atomic : q.definition.atomic = p.definition.atomic
  text : ∃ a v, a.IsLines ∧ Place.code.after v = .code ∧
    p.definition.body = a ++ v ++ '|' :: y.trimEnd ∧
    q.definition.body ++ q.gap = a ++ v ++ ['\n']

section
variable {line : Line} {x y r : Text} (hsplit : line.code = x ++ r ++ '|' :: y)
  (hplace : Place.code.after (x ++ r) = .code)
include hsplit hplace

/-- An alternative that is broken in front of a further bar. -/
theorem isFront_extend {p : Pending} (hp : p.gap.EndsLine) :
    IsFront (extend ⟨line.indent, line.marker, x, [], r ++ ['\n']⟩ p) (extend line p) y := by
  have htrim : line.code.trimEnd = x ++ r ++ '|' :: y.trimEnd := by
    have hink : Text.Ends Text.isInk (x ++ r ++ ['|']) := Text.ends_concat.2 rfl
    have htrim := Text.trimEnd_append hink y
    simpa [hsplit] using htrim
  refine ⟨rfl, rfl, p.definition.body ++ p.gap,
    line.indent.spaces ++ line.marker.spaces ++ (x ++ r), .inr (hp.append _), ?_, ?_, ?_⟩
  · rw [Place.after_append, Text.after_of_isBlankText (Line.isGap_front line).isBlankText, hplace]
  · simp [extend, htrim]
  · simp only [extend, gapAfter, List.append_assoc]
    rw [← List.append_assoc x.trimEnd, Text.trimEnd_append_takeEndWhile]
    rfl

variable (hr : ∀ c ∈ r, Line.isEnding c) {before rest : Text}
  (hcut : line.code.cutCode "::=".toList.isPrefixOf .code = some (before, rest))
  (hname : before.trim.isName)
include hr hcut hname

/-- The bar is behind the `::=`. -/
theorem exists_cutCode_front :
    ∃ v, x = before ++ "::=".toList ++ v ∧ rest = "::=".toList ++ (v ++ r ++ '|' :: y) ∧
      x.cutCode "::=".toList.isPrefixOf .code = some (before, "::=".toList ++ v) := by
  have hbar : '|' ∉ before ++ "::=".toList := by
    obtain ⟨h, hh, hbefore⟩ := Text.exists_eq_trim before
    have hfront := List.all_eq_true.1 (Text.isBlankText_takeWhile before)
    rw [hbefore]
    simp only [List.mem_append, not_or]
    refine ⟨⟨⟨fun hmem => ?_, fun hmem => ?_⟩, fun hmem => ?_⟩, by decide⟩
    · cases hfront '|' hmem
    · cases Text.isNameRest_of_mem hname hmem
    · cases List.all_eq_true.1 hh '|' hmem
  obtain ⟨body, rfl⟩ := List.isPrefixOf_iff_prefix.1 (Text.of_cutCode hcut)
  have hcode := Text.append_eq_of_cutCode hcut
  rw [← List.append_assoc, hsplit] at hcode
  obtain ⟨z, hxr, hbody⟩ : ∃ z, x ++ r = before ++ "::=".toList ++ z ∧ body = z ++ '|' :: y := by
    obtain ⟨z, hxr, hbody⟩ | ⟨z, hmark, hbody⟩ := List.append_eq_append_iff.1 hcode
    · exact ⟨z, hxr, hbody⟩
    · cases z with
      | nil => exact ⟨[], by simpa using hmark.symm, hbody.symm⟩
      | cons c z =>
        obtain ⟨rfl, -⟩ := List.cons.inj hbody
        exact absurd (hmark ▸ List.mem_append_right _ List.mem_cons_self) hbar
  have hblank := (Line.isGap_of_isEnding hr).isBlankText
  obtain ⟨v, rfl, rfl⟩ := Text.exists_of_append_blank (ends_header before) hblank hxr
  refine ⟨v, rfl, by rw [hbody], ?_⟩
  have hmark (u : Text) : "::=".toList ++ u = ':' :: (":=".toList ++ u) := rfl
  rw [List.append_assoc, hmark]
  refine Text.cutCode_append (fun a d b hsplit' => ?_) ?_ ?_
  · have hstop := Text.before_cutCode hcut hsplit'
    refine Bool.eq_false_iff.2 fun hnot => Bool.eq_false_iff.1 hstop ?_
    obtain ⟨hplace', hword⟩ := Bool.and_eq_true_iff.1 hnot
    refine Bool.and_eq_true_iff.2 ⟨hplace', List.isPrefixOf_iff_prefix.2 ?_⟩
    refine (List.isPrefixOf_iff_prefix.1 hword).trans ⟨r ++ '|' :: y, ?_⟩
    rw [hbody, hmark]
    simp
  · rw [Text.after_cutCode hcut]
    rfl
  · rfl

end

section
variable {line : Line} {x y r : Text} (hsplit : line.code = x ++ r ++ '|' :: y)
  (hx : x.isBlankText = false) (hr : ∀ c ∈ r, Line.isEnding c)
  (hplace : Place.code.after (x ++ r) = .code)
include hsplit hx hr hplace

/-- What is in front of a bar does what the whole line does, up to the bar. -/
theorem exists_takes_front (hs : s.Alike True s) (h : Takes line s t) :
    ∃ p q, t.pending = some p ∧ t.mark = none ∧ p.gap = gapAfter line ∧ IsFront q p y ∧
      Takes ⟨line.indent, line.marker, x, [], r ++ ['\n']⟩ s { t with pending := some q } := by
  have hmore : line.code = x ++ (r ++ '|' :: y) := by rw [hsplit, List.append_assoc]
  have hsome : line.hasCode := by simp [Line.hasCode, Text.isBlankText, hmore, Text.isBlank]
  have hcode : Line.hasCode ⟨line.indent, line.marker, x, [], r ++ ['\n']⟩ := by
    simp [Line.hasCode, hx]
  have hbar : ['|'].isPrefixOf line.code.trimStart = ['|'].isPrefixOf x.trimStart := by
    rw [hmore, Text.isPrefixOf_trimStart_append hx]
  cases h with
  | vacant hnone => exact absurd hsome (Bool.eq_false_iff.1 hnone)
  | idle hnone => exact absurd hsome (Bool.eq_false_iff.1 hnone)
  | @alternative p _ hfirst hpending hmark =>
    obtain ⟨p', hpending', hp⟩ := hs.exists_pending hpending
    obtain rfl := Option.some.inj (hpending.symm.trans hpending')
    exact ⟨extend line p, _, rfl, hmark, rfl, isFront_extend hsplit hplace (hp.ends trivial),
      .alternative hcode (hbar ▸ hfirst) hpending hmark⟩
  | @header before rest closed _ hfirst hcut hclose hname =>
    obtain ⟨v, rfl, rfl, hcut'⟩ := exists_cutCode_front hsplit hplace hr hcut hname
    have htakes := Takes.header hcode (hbar ▸ hfirst) hcut' hclose hname
    refine ⟨_, _, rfl, rfl, rfl, ⟨?_, ?_, [], v ++ r, .inl rfl, ?_, ?_, ?_⟩, htakes⟩
    · rfl
    · rfl
    · rwa [List.append_assoc, Place.after_append, after_header hcut] at hplace
    · have htrim := Text.trimEnd_append (Text.ends_concat (t := v ++ r) (c := '|').2 rfl) y
      simpa using htrim
    · have hbody : List.drop 3 ("::=".toList ++ v) = v := rfl
      simp only [gapAfter, Text.takeEndWhile_append_ink (ends_header before), hbody]
      simp only [List.append_assoc]
      rw [← List.append_assoc v.trimEnd, Text.trimEnd_append_takeEndWhile]
      rfl

end

/-- A line with code declares no start symbol. -/
theorem takeLine_eq_ok_iff_of_code {line : Line} (hline : Line.ofText raw = line)
    (hcode : line.code ≠ []) :
    s.takeLine raw = .ok t ↔ ∃ marked taken, s.takeMark line = .ok marked ∧
      Takes line marked taken ∧ { taken with offset := taken.offset + raw.size } = t := by
  have hstart : line.startSymbol? = none := by simp [Line.startSymbol?, hcode]
  rw [takeLine_eq_ok_iff, hline]
  constructor
  · rintro ⟨marked, started, taken, hmarked, hstarted, htaken, heq⟩
    obtain ⟨-, rfl⟩ | ⟨symbol, hsymbol, -⟩ := takeStart_eq_ok_iff.1 hstarted
    · exact ⟨started, taken, hmarked, takes_of_takeContent htaken, heq⟩
    · rw [hstart] at hsymbol
      cases hsymbol
  · rintro ⟨marked, taken, hmarked, htaken, heq⟩
    exact ⟨marked, marked, taken, hmarked, takeStart_eq_ok_iff.2 (.inl ⟨hstart, rfl⟩),
      takeContent_of_takes htaken, heq⟩

/-- The blanks at the end of a line do not depend on what is in front of a bar. -/
theorem gapAfter_eq_of_bar {line back : Line} {x y : Text} (hsplit : line.code = x ++ '|' :: y)
    (hcode : back.code = '|' :: y) (hcomment : back.comment = line.comment)
    (hending : back.ending = line.ending) : gapAfter line = gapAfter back := by
  have hbar (u : Text) : Text.Ends Text.isInk (u ++ ['|']) := Text.ends_concat.2 rfl
  have hlong := Text.takeEndWhile_append_ink (hbar x) y
  have hshort := Text.takeEndWhile_append_ink (hbar []) y
  simp only [List.append_assoc, List.singleton_append, List.nil_append] at hlong hshort
  simp only [gapAfter, hsplit, hcode, hcomment, hending, hlong, hshort]

/-- The alternative behind a break goes on up to the end of the line. -/
theorem IsFront.alike {p q : Pending} {y : Text} {line : Line} (h : IsFront q p y)
    (hcode : line.code = '|' :: y) (hmarker : line.marker = []) (hgap : p.gap = gapAfter line)
    (hends : more → p.gap.EndsLine) : p.Alike more (extend line q) := by
  obtain ⟨a, v, ha, hv, hp, hq⟩ := h.text
  have htrim : line.code.trimEnd = '|' :: y.trimEnd := by
    rw [hcode]
    exact Text.trimEnd_append (s := ['|']) (Text.ends_singleton.2 rfl) y
  have hspace : IsGap ('\n' :: line.indent.spaces) :=
    List.forall_mem_cons.2 ⟨rfl, Text.isGap_spaces _⟩
  have hbody : p.definition.body.Loosened (extend line q).definition.body := by
    have hbar := Text.Loosens.bar y.trimEnd ha hv hspace
    refine .single ?_
    simpa [extend, hp, hq, htrim, hmarker, Text.spaces] using hbar
  refine ⟨⟨h.name, h.atomic, hbody⟩, hends, fun _ => ?_⟩
  rw [hgap]
  exact hbody.append _

/-- A line that is broken in front of a bar does what it did, up to layout. -/
theorem Alike.broken {x y : Text} (hs : s.Alike True s) (h : s.takeLine raw = .ok t)
    (hsplit : (Line.ofText raw).code = x ++ '|' :: y) (hx : x.isBlankText = false)
    (hplace : Place.code.after x = .code) (hw : w.IsIndent)
    (hmore : more → raw.EndsLine) :
    ∃ t', [(Line.ofText raw).indent ++ (Line.ofText raw).marker ++ x ++ ['\n'],
        w ++ '|' :: y ++ (Line.ofText raw).comment ++ (Line.ofText raw).ending].foldlM
          State.takeLine s = .ok t' ∧ t.Alike more t' := by
  obtain ⟨marked, taken, hmarked, htaken, rfl⟩ :=
    (takeLine_eq_ok_iff_of_code rfl (by simp [hsplit])).1 h
  obtain ⟨marked', hmarked', halike⟩ := hs.takeMark rfl hmarked
  obtain rfl := Except.ok.inj (hmarked.symm.trans hmarked')
  -- carriage returns in front of the break belong to the end of the first line
  obtain ⟨z, r, rfl, hz, hlast, hr⟩ := Line.exists_ended_front hx
  have hne : z ≠ [] := by
    rintro rfl
    cases hz
  obtain ⟨hfront, hback⟩ :=
    (Line.isCut_ofText raw).ofText_broken hsplit hne hlast hr hplace hw
  obtain ⟨p, q, hpending, hmark, hgap, hpq, hfirst⟩ :=
    exists_takes_front hsplit hz hr hplace halike htaken
  let next : State := { taken with
    offset := taken.offset +
      Text.size ((Line.ofText raw).indent ++ (Line.ofText raw).marker ++ (z ++ r) ++ ['\n'])
    pending := some q }
  have hnext := (takeLine_eq_ok_iff_of_code hfront hne).2 ⟨marked, _, hmarked, hfirst, rfl⟩
  let back : Line := ⟨w, [], '|' :: y, (Line.ofText raw).comment, (Line.ofText raw).ending⟩
  have hsecond : Takes back next { next with pending := some (extend back q) } :=
    .alternative rfl rfl rfl hmark
  have hfinal := (takeLine_eq_ok_iff_of_code hback (List.cons_ne_nil _ _)).2
    ⟨next, _, takeMark_eq_ok_iff.2 (.inl ⟨rfl, rfl⟩), hsecond, rfl⟩
  refine ⟨_, bind_eq_ok.2 ⟨_, hnext, bind_eq_ok.2 ⟨_, hfinal, rfl⟩⟩,
    List.forall₂_same.2 fun d _ => ⟨rfl, rfl, .refl⟩, rfl, rfl, ?_⟩
  rw [hpending]
  refine .some (hpq.alike rfl rfl (hgap.trans (gapAfter_eq_of_bar hsplit rfl rfl rfl)) ?_)
  rw [hgap]
  exact fun hyes => ends_gapAfter (hmore hyes)

end Outline.State
end ExtendedBnf
