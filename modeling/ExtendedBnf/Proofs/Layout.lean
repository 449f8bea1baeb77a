import ExtendedBnf.Proofs.LineSteps
import ExtendedBnf.Proofs.SourceLines

/-!
# Definitions in their places

In the blanked source only code and line ends are left. From left to right it is
made of blanks and of the definitions of its outline, each with its name and its
body at the bytes it says. After some lines this holds of the blanked text of these
lines, where a pending definition is the last one and only blanks follow its body.
-/
namespace ExtendedBnf
open Reader (Starts)

namespace Text

/-- The source with spaces for all but the code and the ends of its lines. -/
def blanked (source : Text) : Text := source.lines.flatMap fun raw => (Line.ofText raw).blanked

theorem size_flatMap_blanked (lines : List Text) :
    size (lines.flatMap fun raw => (Line.ofText raw).blanked) = size lines.flatten := by
  induction lines with
  | nil => rfl
  | cons raw lines ih =>
    rw [List.flatMap_cons, List.flatten_cons, size_append, size_append, ih, Line.size_blanked,
      Line.source_ofText]

/-- Every byte keeps its place. -/
theorem size_blanked (source : Text) : source.blanked.size = source.size := by
  rw [blanked, size_flatMap_blanked, flatten_lines]

theorem isBlankText_append {s t : Text} :
    (s ++ t).isBlankText ↔ s.isBlankText ∧ t.isBlankText := by
  rw [isBlankText, List.all_append, Bool.and_eq_true]
  rfl

theorem isBlankText_spaces (t : Text) : t.spaces.isBlankText := by
  refine List.all_eq_true.2 fun c hc => ?_
  rw [(List.mem_replicate.1 hc).2]
  rfl

theorem isBlankText_takeEndWhile (t : Text) : (t.takeEndWhile isBlank).isBlankText :=
  List.all_eq_true.2 fun _ hc => List.mem_takeWhile_imp (List.mem_reverse.1 hc)

theorem isBlankText_takeWhile (t : Text) : isBlankText (t.takeWhile isBlank) :=
  List.all_eq_true.2 fun _ hc => List.mem_takeWhile_imp hc

theorem takeWhile_append_ink {g t : Text} (hg : g.isBlankText) (ht : Starts isInk t) :
    (g ++ t).takeWhile isBlank = g :=
  Reader.takeWhile_append (List.all_eq_true.1 hg) (ht.stops fun c hc => by simpa [isInk] using hc)

theorem trimEnd_append_takeEndWhile (t : Text) : t.trimEnd ++ t.takeEndWhile isBlank = t :=
  dropEndWhile_append_takeEndWhile isBlank t

section
variable {q : Char → Bool} {w : Text} (hw : ∀ c ∈ w, q c)
include hw

theorem dropEndWhile_append_all (t : Text) : dropEndWhile q (t ++ w) = dropEndWhile q t := by
  have hall : ∀ c ∈ w.reverse, q c := fun c hc => hw c (List.mem_reverse.1 hc)
  rw [dropEndWhile, List.reverse_append, List.dropWhile_append_of_pos hall, dropEndWhile]

theorem takeEndWhile_append_all (t : Text) :
    takeEndWhile q (t ++ w) = takeEndWhile q t ++ w := by
  have hall : ∀ c ∈ w.reverse, q c := fun c hc => hw c (List.mem_reverse.1 hc)
  rw [takeEndWhile, List.reverse_append, List.takeWhile_append_of_pos hall, List.reverse_append,
    List.reverse_reverse, takeEndWhile]

end

/-- Without the blanks around it a text is the trimmed text. -/
theorem exists_eq_trim (t : Text) :
    ∃ h, h.isBlankText ∧ t = t.takeWhile isBlank ++ t.trim ++ h := by
  refine ⟨t.trimStart.takeEndWhile isBlank, isBlankText_takeEndWhile _, ?_⟩
  rw [List.append_assoc, trim, trimEnd_append_takeEndWhile]
  exact List.takeWhile_append_dropWhile.symm

/-- Characters are dropped behind the last one that is kept. -/
theorem dropEndWhile_append_of_ends {q : Char → Bool} {s : Text} (hs : Ends (fun c => !q c) s)
    (t : Text) : dropEndWhile q (s ++ t) = s ++ dropEndWhile q t := by
  obtain ⟨r, c, rfl, hc⟩ := hs.exists_eq_concat
  have hkept : q c = false := by simpa using hc
  have hstops : (r ++ [c]).reverse.dropWhile q = (r ++ [c]).reverse := by simp [hkept]
  rw [dropEndWhile, List.reverse_append, List.dropWhile_append, hstops]
  split
  next hall =>
    rw [dropEndWhile, List.isEmpty_iff.1 hall]
    simp
  next => simp [dropEndWhile]

/-- Only what follows a text that does not end with a blank is trimmed. -/
theorem trimEnd_append {s : Text} (hs : Ends isInk s) (t : Text) :
    trimEnd (s ++ t) = s ++ trimEnd t := dropEndWhile_append_of_ends hs t

section
variable {p : Text → Bool} {here : Place} {t before rest a b : Text} {c : Char}

/-- No character of code in front of a cut satisfies the condition. -/
theorem before_cutCode (h : cutCode p here t = some (before, rest)) (ht : before = a ++ c :: b) :
    ((here.after a).isCode c && p (c :: b ++ rest)) = false := by
  fun_induction cutCode p here t generalizing before a with
  | case1 => cases h
  | case2 =>
    cases h
    simp at ht
  | case3 here d r hstop ih =>
    obtain ⟨cut, hcut, heq⟩ := Option.map_eq_some_iff.1 h
    cases heq
    cases a with
    | nil =>
      obtain ⟨rfl, rfl⟩ := List.cons.inj ht
      rw [List.cons_append, append_eq_of_cutCode hcut]
      exact Bool.eq_false_iff.2 hstop
    | cons e a =>
      obtain ⟨rfl, ht⟩ := List.cons.inj ht
      exact ih hcut (by simpa using ht)

/-- Where nothing is cut no character of code satisfies the condition. -/
theorem of_cutCode_eq_none (h : cutCode p here (a ++ c :: b) = none) :
    ((here.after a).isCode c && p (c :: b)) = false := by
  induction a generalizing here with
  | nil =>
    rw [List.nil_append, cutCode] at h
    split at h
    next => cases h
    next hstop => exact Bool.eq_false_iff.2 hstop
  | cons d a ih =>
    rw [List.cons_append, cutCode] at h
    split at h
    next => cases h
    next => exact ih (Option.map_eq_none_iff.1 h)

/-- A cut is made in code. -/
theorem after_cutCode (h : cutCode p here t = some (before, rest)) : here.after before = .code := by
  fun_induction cutCode p here t generalizing before with
  | case1 => cases h
  | case2 here c r hstop =>
    cases h
    have hcode := (Bool.and_eq_true_iff.1 hstop).1
    simpa [Place.isCode] using (Bool.and_eq_true_iff.1 hcode).1
  | case3 here c r _ ih =>
    obtain ⟨cut, hcut, heq⟩ := Option.map_eq_some_iff.1 h
    cases heq
    exact ih hcut

end

end Text

namespace Line
variable {raw : Text}

/-- There is no `#` of code in front of a comment. -/
theorem isCode_of_cutComment {t a b : Text} (h : (cutComment t).1 = a ++ '#' :: b) :
    (Place.code.after a).isCode '#' = false := by
  unfold cutComment at h
  cases hcut : t.cutCode ['#'].isPrefixOf .code with
  | none =>
    rw [hcut] at h
    obtain rfl : t = a ++ '#' :: b := h
    simpa [List.isPrefixOf] using Text.of_cutCode_eq_none hcut
  | some cut =>
    rw [hcut] at h
    simpa [List.isPrefixOf] using Text.before_cutCode hcut h

/-- A comment starts with a `#` of code. -/
theorem comment_of_cutComment {t : Text} (h : (cutComment t).2 ≠ []) :
    Place.code.after (cutComment t).1 = .code ∧ ['#'].isPrefixOf (cutComment t).2 := by
  unfold cutComment at h ⊢
  cases hcut : t.cutCode ['#'].isPrefixOf .code with
  | none => simp [hcut] at h
  | some cut => exact ⟨Text.after_cutCode hcut, Text.of_cutCode hcut⟩

/-- A line by its parts: blanks, perhaps the mark, code without a `#` outside literals, and a
comment that starts with such a `#`. -/
structure IsParted (line : Line) : Prop where
  indent : line.indent.isBlankText
  marker : line.marker = (cutMarker (line.marker ++ line.code ++ line.comment)).1
  code : ∀ a b, line.code = a ++ '#' :: b → (Place.code.after a).isCode '#' = false
  comment : line.comment ≠ [] →
    Place.code.after line.code = .code ∧ ['#'].isPrefixOf line.comment

theorem isParted_ofText (raw : Text) : (ofText raw).IsParted where
  indent := Text.isBlankText_takeWhile _
  marker := by
    simp only [ofText, List.append_assoc, append_cutComment, append_cutMarker]
  code _ _ := isCode_of_cutComment
  comment := comment_of_cutComment

theorem isBlankText_ending (raw : Text) : (ofText raw).ending.isBlankText := by
  refine List.all_eq_true.2 fun c hc => ?_
  have hending : isEnding c := List.mem_takeWhile_imp (List.mem_reverse.1 hc)
  simp only [isEnding, Bool.or_eq_true, beq_iff_eq] at hending
  rcases hending with rfl | rfl <;> rfl

/-- What is put behind a line end is part of it. -/
theorem ofText_append {e : Text} (he : ∀ c ∈ e, isEnding c) (raw : Text) :
    ofText (raw ++ e) = { ofText raw with ending := (ofText raw).ending ++ e } := by
  simp only [ofText, Text.dropEndWhile_append_all he, Text.takeEndWhile_append_all he]

theorem ending_append_feed (raw : Text) :
    (ofText (raw ++ ['\n'])).ending = (ofText raw).ending ++ ['\n'] := by
  rw [ofText_append (List.forall_mem_singleton.2 rfl)]

theorem isBlankText_blanked (h : (ofText raw).hasCode = false) :
    (ofText raw).blanked.isBlankText := by
  have hcode : (ofText raw).code.isBlankText := by simpa [hasCode] using h
  simp [blanked, Text.isBlankText_append, Text.isBlankText_spaces, hcode, isBlankText_ending]

end Line

namespace Outline

/-- From left to right the text is made of blanks and of the definitions, each with its name and
its body at the bytes it says and with nothing but blanks and `::=` between them. -/
inductive LaidOut : List Definition → Text → Prop
  | blank {g : Text} : g.isBlankText → LaidOut [] g
  | definition {ds : List Definition} {d : Definition} {t w g : Text} : LaidOut ds t →
      w.isBlankText → g.isBlankText → d.nameOffset = t.size →
      d.bodyOffset = Text.size (t ++ d.name ++ w ++ "::=".toList) →
      LaidOut (ds ++ [d]) (t ++ d.name ++ w ++ "::=".toList ++ d.body ++ g)

theorem LaidOut.append_blank {ds : List Definition} {t g : Text} (h : LaidOut ds t)
    (hg : g.isBlankText) : LaidOut ds (t ++ g) := by
  cases h with
  | blank ht => exact .blank (Text.isBlankText_append.2 ⟨ht, hg⟩)
  | definition ht hw hblank hname hbody =>
    rw [List.append_assoc _ _ g]
    exact .definition ht hw (Text.isBlankText_append.2 ⟨hblank, hg⟩) hname hbody

theorem LaidOut.exists_body {ds : List Definition} {t : Text} (h : LaidOut ds t) {d : Definition}
    (hd : d ∈ ds) : ∃ a b, t = a ++ d.body ++ b ∧ d.bodyOffset = a.size := by
  induction h with
  | blank => cases hd
  | @definition ds last t w g _ _ _ _ hbody ih =>
    obtain hd | hd := List.mem_append.1 hd
    · obtain ⟨a, b, rfl, hsize⟩ := ih hd
      exact ⟨a, b ++ last.name ++ w ++ "::=".toList ++ last.body ++ g, by simp, hsize⟩
    · obtain rfl := List.mem_singleton.1 hd
      exact ⟨_, g, rfl, hbody⟩

namespace State
variable {s s' : State} {raw t : Text}

/-- The pending definition is the last one in the text, with its gap behind it. -/
def Pends (ds : List Definition) (p : Pending) (t : Text) : Prop :=
  ∃ u w, LaidOut ds u ∧ w.isBlankText ∧ p.gap.isBlankText ∧
    p.definition.nameOffset = u.size ∧
    p.definition.bodyOffset = Text.size (u ++ p.definition.name ++ w ++ "::=".toList) ∧
    t = u ++ p.definition.name ++ w ++ "::=".toList ++ p.definition.body ++ p.gap

/-- The text holds what is known, and nothing else but blanks. -/
structure Covers (s : State) (t : Text) : Prop where
  offset : s.offset = t.size
  known : s.pending = none → LaidOut s.outline.definitions t
  pending : ∀ p, s.pending = some p → Pends s.outline.definitions p t

theorem covers_nil : Covers {} [] := ⟨rfl, fun _ => .blank rfl, nofun⟩

theorem Covers.takeMark {line : Line} (hs : s.Covers t) (h : s.takeMark line = .ok s') :
    s'.Covers t := by
  obtain ⟨-, rfl⟩ | ⟨-, -, rfl⟩ := takeMark_eq_ok_iff.1 h
  · exact hs
  · exact ⟨hs.offset, hs.known, hs.pending⟩

theorem Covers.takeStart {line : Line} (hs : s.Covers t) (h : s.takeStart line = .ok s') :
    s'.Covers t := by
  obtain ⟨-, rfl⟩ | ⟨symbol, -, -, -, rfl⟩ := takeStart_eq_ok_iff.1 h
  · exact hs
  · exact ⟨hs.offset, hs.known, hs.pending⟩

theorem Covers.close (hs : s.Covers t) (h : s.close = .ok s') :
    s'.offset = t.size ∧ LaidOut s'.outline.definitions t := by
  obtain ⟨hpending, rfl⟩ | ⟨p, hpending, -, rfl⟩ := close_eq_ok_iff.1 h
  · exact ⟨hs.offset, hs.known hpending⟩
  · obtain ⟨u, w, hu, hw, hgap, hname, hbody, rfl⟩ := hs.pending p hpending
    exact ⟨hs.offset, .definition hu hw hgap hname hbody⟩

theorem gapAfter_isBlankText (raw : Text) : (gapAfter (Line.ofText raw)).isBlankText := by
  simp [gapAfter, Text.isBlankText_append, Text.isBlankText_takeEndWhile, Text.isBlankText_spaces,
    Line.isBlankText_ending]

theorem blanked_eq (line : Line) :
    line.blanked = line.indent.spaces ++ line.marker.spaces ++ line.code.trimEnd ++
      gapAfter line := by
  simp only [Line.blanked, gapAfter, ← List.append_assoc]
  rw [List.append_assoc _ line.code.trimEnd, Text.trimEnd_append_takeEndWhile]

theorem ends_header (before : Text) : Text.Ends Text.isInk (before ++ "::=".toList) :=
  Text.Ends.append (t := "::=".toList) (Text.ends_concat (t := [':', ':']).2 rfl) before

/-- What stands in front of the body is code. -/
theorem after_header {code before rest : Text}
    (hcut : code.cutCode "::=".toList.isPrefixOf .code = some (before, rest)) :
    Place.code.after (before ++ "::=".toList) = .code := by
  rw [Place.after_append, Text.after_cutCode hcut]
  rfl

/-- The code of a header is its name, its `::=` and its body, and the blanks around them. -/
theorem exists_eq_header {code before rest : Text}
    (hcut : code.cutCode "::=".toList.isPrefixOf .code = some (before, rest))
    (hname : before.trim.isName) :
    ∃ w, w.isBlankText ∧ before = code.takeWhile Text.isBlank ++ before.trim ++ w ∧
      code.trimEnd = before ++ "::=".toList ++ Text.trimEnd (rest.drop 3) := by
  obtain ⟨w, hw, hbefore⟩ := Text.exists_eq_trim before
  obtain ⟨after, rfl⟩ := List.isPrefixOf_iff_prefix.1 (Text.of_cutCode hcut)
  obtain rfl := Text.append_eq_of_cutCode hcut
  have hink : Starts Text.isInk (before.trim ++ w ++ ("::=".toList ++ after)) :=
    ((Text.isTight_of_isName hname).ink.append w).append _
  have hsplit : before ++ ("::=".toList ++ after) =
      before.takeWhile Text.isBlank ++ (before.trim ++ w ++ ("::=".toList ++ after)) := by
    rw [← List.append_assoc (before.takeWhile _), ← List.append_assoc (before.takeWhile _),
      ← hbefore]
  have hlead : (before ++ ("::=".toList ++ after)).takeWhile Text.isBlank =
      before.takeWhile Text.isBlank := by
    rw [hsplit]
    exact Text.takeWhile_append_ink (Text.isBlankText_takeWhile before) hink
  refine ⟨w, hw, ?_, ?_⟩
  · rwa [hlead]
  · rw [← List.append_assoc, Text.trimEnd_append (ends_header before)]
    rfl

/-- What a line takes in is where it stands. -/
theorem Covers.takes (hs : s.Covers t) (h : Takes (Line.ofText raw) s s') :
    ({ s' with offset := s'.offset + raw.size } : State).Covers
      (t ++ (Line.ofText raw).blanked) := by
  have hsize (n : Nat) (hn : n = t.size) :
      n + raw.size = Text.size (t ++ (Line.ofText raw).blanked) := by
    rw [hn, Text.size_append, Line.size_blanked, Line.source_ofText]
  cases h with
  | vacant hcode _ hclose =>
    obtain ⟨hoffset, hknown⟩ := hs.close hclose
    have hnone := pending_of_close hclose
    refine ⟨hsize _ hoffset, fun _ => hknown.append_blank (Line.isBlankText_blanked hcode), ?_⟩
    exact fun p hp => absurd (hp.symm.trans hnone) (Option.some_ne_none p)
  | idle hcode _ =>
    have hblank := Line.isBlankText_blanked hcode
    refine ⟨hsize _ hs.offset, fun hnone => ?_, fun p hp => ?_⟩
    · exact (hs.known (Option.map_eq_none_iff.1 hnone)).append_blank hblank
    · obtain ⟨p, hpending, rfl⟩ := Option.map_eq_some_iff.1 hp
      obtain ⟨u, w, hu, hw, hgap, hname, hbody, rfl⟩ := hs.pending p hpending
      exact ⟨u, w, hu, hw, Text.isBlankText_append.2 ⟨hgap, hblank⟩, hname, hbody, by simp⟩
  | alternative _ _ hpending _ =>
    refine ⟨hsize _ hs.offset, nofun, fun q hq => ?_⟩
    obtain rfl := Option.some.inj hq
    obtain ⟨u, w, hu, hw, -, hname, hbody, rfl⟩ := hs.pending _ hpending
    refine ⟨u, w, hu, hw, gapAfter_isBlankText raw, hname, hbody, ?_⟩
    rw [blanked_eq]
    simp [extend]
  | @header before rest closed _ _ hcut hclose hname =>
    obtain ⟨hoffset, hknown⟩ := hs.close hclose
    refine ⟨hsize _ hoffset, nofun, fun q hq => ?_⟩
    obtain rfl := Option.some.inj hq
    obtain ⟨w, hw, hbefore, htrim⟩ := exists_eq_header hcut hname
    -- up to the name the line is blank, so this part goes with the definitions before
    refine ⟨t ++ (Line.ofText raw).indent.spaces ++ (Line.ofText raw).marker.spaces ++
      (Line.ofText raw).code.takeWhile Text.isBlank, w, ?_, hw, gapAfter_isBlankText raw,
      ?_, ?_, ?_⟩
    · exact ((hknown.append_blank (Text.isBlankText_spaces _)).append_blank
        (Text.isBlankText_spaces _)).append_blank (Text.isBlankText_takeWhile _)
    · simp [Line.codeOffset, hs.offset, Nat.add_assoc]
    · have hbefore := congrArg Text.size hbefore
      have hmark : Text.size "::=".toList = 3 := rfl
      simp only [Text.size_append, Text.size_spaces, Line.codeOffset, hs.offset, hmark]
        at hbefore ⊢
      omega
    · rw [blanked_eq, htrim]
      nth_rewrite 1 [hbefore]
      simp only [List.append_assoc]

theorem Covers.takeLine (hs : s.Covers t) (h : s.takeLine raw = .ok s') :
    s'.Covers (t ++ (Line.ofText raw).blanked) := by
  obtain ⟨marked, started, taken, hmark, hstart, htaken, rfl⟩ := takeLine_eq_ok_iff.1 h
  exact ((hs.takeMark hmark).takeStart hstart).takes (takes_of_takeContent htaken)

/-- Induction on the lines. -/
theorem Covers.foldlM {lines : List Text} (hs : s.Covers t)
    (h : lines.foldlM State.takeLine s = .ok s') :
    s'.Covers (t ++ lines.flatMap fun raw => (Line.ofText raw).blanked) := by
  induction lines generalizing s t with
  | nil =>
    cases h
    simpa using hs
  | cons raw lines ih =>
    rw [List.foldlM_cons] at h
    obtain ⟨next, hnext, hrest⟩ := bind_eq_ok.1 h
    rw [List.flatMap_cons, ← List.append_assoc]
    exact ih (hs.takeLine hnext) hrest

end State

theorem laidOut_blanked {source : Text} {o : Outline} (h : ofText source = .ok o) :
    LaidOut o.definitions source.blanked := by
  obtain ⟨last, hlast, hfinish⟩ := bind_eq_ok.1 h
  obtain ⟨closed, hclosed, hmark⟩ := bind_eq_ok.1 hfinish
  have hempty : State.Covers {} [] := ⟨rfl, fun _ => .blank rfl, nofun⟩
  have hcovers : last.Covers source.blanked := hempty.foldlM hlast
  have hlaid := (hcovers.close hclosed).2
  split at hmark
  · cases hmark
  · cases hmark
    exact hlaid

/-- The outline of a source loses no code, and every definition is where it says it is. -/
theorem laidOut_of_ofText {source : Text} {o : Outline} (h : ofText source = .ok o) :
    source.blanked.size = source.size ∧ LaidOut o.definitions source.blanked :=
  ⟨Text.size_blanked source, laidOut_blanked h⟩

theorem laidOut_of_ofText_multibyte :
    let source : Text := "# start s\n\t#atomic d ::= [0-9]  # é\r\n  | \"é#\"\n# é\ns ::= d+\n".toList
    let definitions : List Definition :=
      [⟨['d'], 19, " [0-9]      \r\n  | \"é#\"".toList, 24, true⟩,
        ⟨['s'], 53, " d+".toList, 58, false⟩]
    ofText source = .ok ⟨definitions, some ⟨['s'], 0⟩⟩ ∧
      source.blanked.size = source.size ∧ LaidOut definitions source.blanked := by
  intro source definitions
  have h : ofText source = .ok ⟨definitions, some ⟨['s'], 0⟩⟩ := rfl
  exact ⟨h, laidOut_of_ofText h⟩

end Outline
end ExtendedBnf
