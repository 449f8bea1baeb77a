import ExtendedBnf.Proofs.FailurePlaces
import ExtendedBnf.Proofs.LineGroups
import ExtendedBnf.Proofs.LiteralPlaces

/-!
# Where faults of a source are

A fault met while a source is read says at which byte it is. Some of these bytes are
counted in the source and some in the blanked source, where a character of a comment
may have become several spaces. A byte that is counted there is in front of something
that is no space or behind ink, so it is between two characters of the source as well.
A fault that names a rule is about the first definition that repeats a name or says no
expression.
-/
namespace ExtendedBnf
open Reader (Starts Stops isSpace starts_cons)

namespace Text

/-- The byte is between two characters of the text, or at one of its ends. -/
def IsPlace (t : Text) (n : Nat) : Prop := ∃ a b, t = a ++ b ∧ n = a.size

variable {s t u : Text} {n : Nat}

theorem IsPlace.le_size (h : t.IsPlace n) : n ≤ t.size := by
  obtain ⟨a, b, rfl, rfl⟩ := h
  rw [size_append]
  exact Nat.le_add_right ..

theorem IsPlace.append (h : t.IsPlace n) (s : Text) : (t ++ s).IsPlace n := by
  obtain ⟨a, b, rfl, rfl⟩ := h
  exact ⟨a, b ++ s, List.append_assoc .., rfl⟩

theorem isPlace_append (s : Text) (h : t.IsPlace n) : (s ++ t).IsPlace (s.size + n) := by
  obtain ⟨a, b, rfl, rfl⟩ := h
  exact ⟨s ++ a, b, (List.append_assoc ..).symm, (size_append s a).symm⟩

theorem InLine.isPlace {ls rest : List Text} {l : Text} (h : InLine ls l n) :
    IsPlace (ls ++ l :: rest).flatten n := by
  obtain ⟨u, ⟨v, hl⟩, rfl⟩ := h
  have hline : IsPlace (u ++ v ++ l.takeEndWhile Line.isEnding ++ rest.flatten) (size u) :=
    ⟨u, v ++ l.takeEndWhile Line.isEnding ++ rest.flatten, by simp, rfl⟩
  rw [hl, dropEndWhile_append_takeEndWhile] at hline
  rw [List.flatten_append, List.flatten_cons]
  exact isPlace_append ls.flatten hline

theorem Blanks.isPlace_of_starts (h : Blanks s (t ++ u)) (hu : Starts (· != ' ') u) :
    s.IsPlace t.size := by
  obtain ⟨a, b, rfl, ha, -⟩ := h.exists_of_append hu
  exact ⟨a, b, rfl, ha.size_eq⟩

theorem Blanks.isPlace_of_ends (h : Blanks s (t ++ u)) (ht : Ends isInk t) :
    s.IsPlace t.size := by
  obtain ⟨a, b, rfl, ha, -⟩ := h.exists_of_ends ht
  exact ⟨a, b, rfl, ha.size_eq⟩

end Text

namespace Outline

namespace State
variable {s s' : State} {line : Line} {fault : Fault}

theorem of_takeMark_eq_error (h : s.takeMark line = .error fault) :
    ∃ earlier, s.mark = some earlier ∧ fault.offset? = some earlier := by
  unfold takeMark at h
  split at h
  · split at h
    next earlier hmark =>
      cases h
      exact ⟨earlier, hmark, rfl⟩
    next => cases h
  · cases h

theorem of_takeStart_eq_error (h : s.takeStart line = .error fault) :
    fault.offset? = some (s.offset + line.indent.size) := by
  unfold takeStart at h
  split at h
  next => cases h
  next =>
    dsimp only at h
    split at h
    · cases h
      rfl
    · split at h <;> cases h
      rfl

theorem of_close_eq_error (h : s.close = .error fault) :
    ∃ p, s.pending = some p ∧ fault.offset? = some p.definition.bodyOffset := by
  unfold close at h
  split at h
  next => cases h
  next d gap hp =>
    split at h
    · cases h
      exact ⟨⟨d, gap⟩, hp, rfl⟩
    · cases h

/-- What is wrong with the content of a line is the definition it ends or what its code starts
with. -/
theorem of_takeContent_eq_error (h : s.takeContent line = .error fault) :
    s.close = .error fault ∨ fault.offset? =
      some (s.offset + line.codeOffset + Text.size (line.code.takeWhile Text.isBlank)) := by
  unfold takeContent at h
  split at h
  next =>
    unfold takeCode at h
    dsimp only at h
    split at h
    next =>
      split at h <;> cases h
      exact .inr rfl
    next =>
      split at h
      next =>
        cases h
        exact .inr rfl
      next before rest _ =>
        rcases bind_eq_error.1 h with hclose | ⟨closed, -, hrest⟩
        · exact .inl hclose
        · split at hrest <;> cases hrest
          exact .inr rfl
  next =>
    split at h
    · exact .inl h
    · cases h

/-- What is noted is at places of the text, and its definitions in those of the blanked text. -/
structure Notes (s : State) (t : Text) : Prop where
  covers : ∃ u, t.Blanks u ∧ s.Covers u
  mark : ∀ n, s.mark = some n → t.IsPlace n
  start : ∀ d, s.outline.start = some d → t.IsPlace d.offset

variable {t raw : Text}

theorem Notes.offset (hs : s.Notes t) : s.offset = t.size := by
  obtain ⟨u, hblanks, hcovers⟩ := hs.covers
  rw [hcovers.offset, hblanks.size_eq]

/-- What is in front of a part of the line ends at a place. -/
theorem Notes.isPlace (hs : s.Notes t) {x y : Text} (hraw : raw = x ++ y) :
    (t ++ raw).IsPlace (s.offset + x.size) := by
  rw [hs.offset]
  exact Text.isPlace_append t ⟨x, y, hraw, rfl⟩

theorem exists_eq_indent (raw : Text) : ∃ r, raw = (Line.ofText raw).indent ++ r := by
  refine ⟨(Line.ofText raw).marker ++ (Line.ofText raw).code ++ (Line.ofText raw).comment ++
    (Line.ofText raw).ending, ?_⟩
  nth_rewrite 1 [← Line.source_ofText raw]
  simp only [Line.source, List.append_assoc]

theorem exists_eq_front (raw : Text) : ∃ r, raw = (Line.ofText raw).indent ++
    (Line.ofText raw).marker ++ (Line.ofText raw).code.takeWhile Text.isBlank ++ r := by
  have hcode : (Line.ofText raw).code.takeWhile Text.isBlank ++
      (Line.ofText raw).code.dropWhile Text.isBlank = (Line.ofText raw).code :=
    List.takeWhile_append_dropWhile
  refine ⟨(Line.ofText raw).code.dropWhile Text.isBlank ++ (Line.ofText raw).comment ++
    (Line.ofText raw).ending, ?_⟩
  have hsource := Line.source_ofText raw
  rw [Line.source, ← hcode] at hsource
  simpa only [List.append_assoc] using hsource.symm

theorem mark_of_takes (h : Takes line s s') {n : Nat} (hn : s'.mark = some n) :
    s.mark = some n := by
  cases h with
  | vacant _ _ hclose => exact (mark_of_close hclose).symm.trans hn
  | idle => exact hn
  | alternative => exact hn
  | header => cases hn

/-- A mark is noted at the end of the indentation. -/
theorem Notes.takeMark (hs : s.Notes t) (h : s.takeMark (Line.ofText raw) = .ok s') {n : Nat}
    (hn : s'.mark = some n) : (t ++ raw).IsPlace n := by
  obtain ⟨-, rfl⟩ | ⟨-, -, rfl⟩ := takeMark_eq_ok_iff.1 h
  · exact (hs.mark n hn).append raw
  · obtain rfl := Option.some.inj hn
    obtain ⟨r, hraw⟩ := exists_eq_indent raw
    exact hs.isPlace hraw

theorem Notes.takeLine (hs : s.Notes t) (h : s.takeLine raw = .ok s') : s'.Notes (t ++ raw) := by
  obtain ⟨u, hblanks, hcovers⟩ := hs.covers
  have hnext := hcovers.takeLine h
  obtain ⟨marked, started, taken, hmark, hstart, htaken, rfl⟩ := takeLine_eq_ok_iff.1 h
  have htakes := takes_of_takeContent htaken
  have hoffset : marked.offset = s.offset :=
    (hcovers.takeMark hmark).offset.trans hcovers.offset.symm
  refine ⟨⟨_, hblanks.append (Text.blanks_line raw), hnext⟩, fun n hn => ?_, fun d hd => ?_⟩
  · exact hs.takeMark hmark ((mark_of_takeStart hstart).symm.trans (mark_of_takes htakes hn))
  · have hd : started.outline.start = some d := (start_of_takes htakes).symm.trans hd
    obtain ⟨-, rfl⟩ | ⟨symbol, -, -, -, rfl⟩ := takeStart_eq_ok_iff.1 hstart
    · exact (hs.start d ((start_of_takeMark hmark).symm.trans hd)).append raw
    · obtain rfl := Option.some.inj hd
      obtain ⟨r, hraw⟩ := exists_eq_indent raw
      rw [hoffset]
      exact hs.isPlace hraw

/-- The body of a definition starts behind its `::=`. -/
theorem place_of_close {u : Text} (hblanks : t.Blanks u) (hcovers : s.Covers u)
    (h : s.close = .error fault) : ∃ n, fault.offset? = some n ∧ t.IsPlace n := by
  obtain ⟨p, hp, hoffset⟩ := of_close_eq_error h
  obtain ⟨v, w, -, -, -, -, hbody, rfl⟩ := hcovers.pending p hp
  refine ⟨_, hoffset, ?_⟩
  rw [hbody]
  rw [List.append_assoc _ p.definition.body] at hblanks
  exact hblanks.isPlace_of_ends (ends_header _)

theorem Notes.place_of_takeLine (hs : s.Notes t) (h : s.takeLine raw = .error fault) :
    ∃ n, fault.offset? = some n ∧ (t ++ raw).IsPlace n := by
  obtain ⟨u, hblanks, hcovers⟩ := hs.covers
  rcases bind_eq_error.1 h with hmark | ⟨marked, hmark, hrest⟩
  · obtain ⟨n, hn, hoffset⟩ := of_takeMark_eq_error hmark
    exact ⟨n, hoffset, (hs.mark n hn).append raw⟩
  have hmarked := hcovers.takeMark hmark
  have hoffset : marked.offset = s.offset := hmarked.offset.trans hcovers.offset.symm
  rcases bind_eq_error.1 hrest with hstart | ⟨started, hstart, hrest⟩
  · obtain ⟨r, hraw⟩ := exists_eq_indent raw
    refine ⟨_, of_takeStart_eq_error hstart, ?_⟩
    rw [hoffset]
    exact hs.isPlace hraw
  have hstarted := hmarked.takeStart hstart
  have hoffset : started.offset = s.offset := hstarted.offset.trans hcovers.offset.symm
  rcases bind_eq_error.1 hrest with htaken | ⟨taken, -, hok⟩
  · obtain hclose | hfirst := of_takeContent_eq_error htaken
    · obtain ⟨n, hn, hplace⟩ := place_of_close hblanks hstarted hclose
      exact ⟨n, hn, hplace.append raw⟩
    · obtain ⟨r, hraw⟩ := exists_eq_front raw
      have hplace := hs.isPlace hraw
      simp only [Text.size_append, ← Nat.add_assoc] at hplace
      refine ⟨_, hfirst, ?_⟩
      rwa [hoffset, Line.codeOffset, ← Nat.add_assoc]
  · cases hok

/-- Induction on the lines: the notes of those that are read, and the place of a fault in the
first one that is not. -/
theorem Notes.foldlM {ls : List Text} (hs : s.Notes t) (h : ls.foldlM State.takeLine s = .ok s') :
    s'.Notes (t ++ ls.flatten) := by
  induction ls generalizing s t with
  | nil =>
    cases h
    simpa using hs
  | cons raw ls ih =>
    rw [List.foldlM_cons] at h
    obtain ⟨next, hnext, hrest⟩ := bind_eq_ok.1 h
    rw [List.flatten_cons, ← List.append_assoc]
    exact ih (hs.takeLine hnext) hrest

theorem Notes.place_of_foldlM {ls : List Text} (hs : s.Notes t)
    (h : ls.foldlM State.takeLine s = .error fault) :
    ∃ n, fault.offset? = some n ∧ (t ++ ls.flatten).IsPlace n := by
  induction ls generalizing s t with
  | nil => cases h
  | cons raw ls ih =>
    rw [List.foldlM_cons] at h
    rw [List.flatten_cons, ← List.append_assoc]
    rcases bind_eq_error.1 h with hline | ⟨next, hnext, hrest⟩
    · obtain ⟨n, hn, hplace⟩ := hs.place_of_takeLine hline
      exact ⟨n, hn, hplace.append ls.flatten⟩
    · exact ih (hs.takeLine hnext) hrest

theorem Notes.place_of_finish (hs : s.Notes t) (h : s.finish = .error fault) :
    ∃ n, fault.offset? = some n ∧ t.IsPlace n := by
  obtain ⟨u, hblanks, hcovers⟩ := hs.covers
  rcases bind_eq_error.1 h with hclose | ⟨closed, hclose, hrest⟩
  · exact place_of_close hblanks hcovers hclose
  · split at hrest <;> cases hrest
    next place hmark => exact ⟨place, rfl, hs.mark place ((mark_of_close hclose).symm.trans hmark)⟩

theorem notes_nil : Notes {} [] := ⟨⟨[], .nil, covers_nil⟩, nofun, nofun⟩

theorem notes_of_lines {source : Text} (h : source.lines.foldlM State.takeLine {} = .ok s) :
    s.Notes source := by
  have hall := notes_nil.foldlM h
  rwa [Text.flatten_lines] at hall

end State

variable {source : Text} {o : Outline} {fault : Fault}

theorem place_of_ofText (h : ofText source = .error fault) :
    ∃ n, fault.offset? = some n ∧ source.IsPlace n := by
  rcases bind_eq_error.1 h with hlines | ⟨last, hlast, hfinish⟩
  · have hplace := State.notes_nil.place_of_foldlM hlines
    rwa [Text.flatten_lines] at hplace
  · exact (State.notes_of_lines hlast).place_of_finish hfinish

theorem place_of_start (h : ofText source = .ok o) {d : StartDeclaration} (hd : o.start = some d) :
    source.IsPlace d.offset := by
  obtain ⟨last, hlast, hfinish⟩ := bind_eq_ok.1 h
  obtain ⟨closed, hclose, -, rfl⟩ := State.finish_eq_ok_iff.1 hfinish
  exact (State.notes_of_lines hlast).start d ((State.start_of_close hclose).symm.trans hd)

theorem Grouped.places {ds : List Definition} {ls : List Text} {d : Definition}
    (h : Grouped ds ls) (hd : d ∈ ds) : Text.IsPlace ls.flatten d.nameOffset ∧
      Text.IsPlace ls.flatten (d.bodyOffset + d.body.size) := by
  induction h with
  | nil => cases hd
  | @definition ds last ls lead more header _ _ _ hlast ih =>
    obtain hd | hd := List.mem_append.1 hd
    · obtain ⟨hname, hbody⟩ := ih hd
      rw [List.append_assoc, List.flatten_append]
      exact ⟨hname.append _, hbody.append _⟩
    · obtain rfl := List.mem_singleton.1 hd
      obtain ⟨front, l, hmore, hend⟩ := hlast.body
      refine ⟨hlast.name.isPlace, ?_⟩
      rw [hmore, ← List.append_assoc]
      exact hend.isPlace

theorem places_of_mem (h : ofText source = .ok o) {d : Definition} (hd : d ∈ o.definitions) :
    source.IsPlace d.nameOffset ∧ source.IsPlace (d.bodyOffset + d.body.size) := by
  obtain ⟨known, tail, hlines, hknown, -⟩ := grouped_of_ofText h
  obtain ⟨hname, hbody⟩ := hknown.places hd
  rw [← Text.flatten_lines source, hlines, List.flatten_append]
  exact ⟨hname.append _, hbody.append _⟩

/-- In front of a token of a body there is a place of the source, and so there is at its end. -/
theorem place_in_body (h : ofText source = .ok o) {d : Definition} (hd : d ∈ o.definitions)
    {a b : Text} (hbody : d.body = a ++ b) (hb : Stops isSpace b) :
    source.IsPlace (d.bodyOffset + a.size) := by
  cases b with
  | nil =>
    rw [List.append_nil] at hbody
    rw [← hbody]
    exact (places_of_mem h hd).2
  | cons c b =>
    obtain ⟨x, y, hblanked, hoffset⟩ := (laidOut_blanked h).exists_body hd
    have hblanks := Text.blanks_blanked source
    have hc : c != ' ' := by
      rw [bne_iff_ne]
      rintro rfl
      cases Reader.stops_cons.1 hb
    rw [hblanked, hbody, ← List.append_assoc, List.append_assoc] at hblanks
    rw [hoffset, ← Text.size_append]
    exact hblanks.isPlace_of_starts (starts_cons.2 hc)

end Outline

namespace Grammar

/-- The first definition to blame is one whose name is taken or whose body says nothing. -/
theorem exists_of_readRules_eq_error {ds : List Definition} {taken : List Text} {fault : Fault}
    (h : readRules taken ds = .error fault) :
    ∃ before d after, ds = before ++ d :: after ∧ (before.map (·.name)).Nodup ∧
      (∀ e ∈ before, e.name ∉ taken ∧ ∃ body, Expr.ofText e.body = .ok body) ∧
      (d.name ∈ taken ++ before.map (·.name) ∧
          fault = .malformedRule (some d.name) d.nameOffset (.duplicate d.name) ∨
        d.name ∉ taken ++ before.map (·.name) ∧
          ∃ found, Expr.ofText d.body = .error found ∧
            fault = found.inRule d.name d.bodyOffset) := by
  induction ds generalizing taken with
  | nil => cases h
  | cons d ds ih =>
    rw [readRules] at h
    split at h
    next htaken =>
      cases h
      exact ⟨[], d, ds, rfl, List.nodup_nil, List.forall_mem_nil _,
        .inl ⟨by simpa using htaken, rfl⟩⟩
    next hfree =>
      rcases bind_eq_error.1 h with hfault | ⟨body, hbody, hmore⟩
      · obtain ⟨found, hfound, rfl⟩ := mapError_eq_error.1 hfault
        exact ⟨[], d, ds, rfl, List.nodup_nil, List.forall_mem_nil _,
          .inr ⟨by simpa using hfree, found, hfound, rfl⟩⟩
      have hread : ∃ body, Expr.ofText d.body = .ok body := ⟨body, mapError_eq_ok.1 hbody⟩
      rcases bind_eq_error.1 hmore with hrest | ⟨rules, -, hok⟩
      · obtain ⟨before, e, after, rfl, hnodup, hbefore, hcause⟩ := ih hrest
        refine ⟨d :: before, e, after, rfl, ?_, ?_, ?_⟩
        · refine List.nodup_cons.2 ⟨fun hmem => ?_, hnodup⟩
          obtain ⟨other, hother, hname⟩ := List.mem_map.1 hmem
          exact (hbefore other hother).1 (hname ▸ List.mem_cons_self)
        · refine List.forall_mem_cons.2 ⟨⟨hfree, hread⟩, fun other hother => ?_⟩
          obtain ⟨hnew, hsays⟩ := hbefore other hother
          exact ⟨fun hmem => hnew (List.mem_cons_of_mem d.name hmem), hsays⟩
        · have hperm : e.name ∈ d.name :: taken ++ before.map (·.name) ↔
              e.name ∈ taken ++ (d :: before).map (·.name) := by simp [or_left_comm]
          rwa [hperm] at hcause
      · cases hok

/-- A fault of a source is between two of its characters, or at one of its ends. If it is in a
definition it is in the first one that repeats a name or says no expression: at the name in the
first case, and in the body in the second. -/
theorem place_of_fault {source : Text} {fault : Fault} (h : ofText source = .error fault) :
    (∃ n, fault.offset? = some n ∧ n ≤ source.size ∧ source.IsPlace n) ∧
    ∀ o name, Outline.ofText source = .ok o → fault.rule? = some name →
      ∃ before d after, o.definitions = before ++ d :: after ∧ d.name = name ∧
        (before.map (·.name)).Nodup ∧ (∀ e ∈ before, ∃ body, Expr.ofText e.body = .ok body) ∧
        (d.name ∈ before.map (·.name) ∧
            fault = .malformedRule (some d.name) d.nameOffset (.duplicate d.name) ∨
          d.name ∉ before.map (·.name) ∧
            ∃ found n, Expr.ofText d.body = .error found ∧
              fault = found.inRule d.name d.bodyOffset ∧ fault.offset? = some n ∧
              d.bodyOffset ≤ n ∧ n ≤ d.bodyOffset + d.body.size) := by
  rcases bind_eq_error.1 h with houtline | ⟨o, houtline, hread⟩
  · obtain ⟨n, hn, hplace⟩ := Outline.place_of_ofText houtline
    refine ⟨⟨n, hn, hplace.le_size, hplace⟩, fun o _ ho => ?_⟩
    cases houtline.symm.trans ho
  rcases bind_eq_error.1 hread with hrules | ⟨rules, -, hstart⟩
  · obtain ⟨before, d, after, hds, hnodup, hbefore, hcause⟩ := exists_of_readRules_eq_error hrules
    rw [List.nil_append] at hcause
    have hd : d ∈ o.definitions := by simp [hds]
    have hsays : ∀ e ∈ before, ∃ body, Expr.ofText e.body = .ok body := fun e he =>
      (hbefore e he).2
    obtain ⟨hrepeat, rfl⟩ | ⟨hfresh, found, hfound, rfl⟩ := hcause
    · have hplace := (Outline.places_of_mem houtline hd).1
      refine ⟨⟨_, rfl, hplace.le_size, hplace⟩, fun o' name ho hname => ?_⟩
      obtain rfl := Except.ok.inj (houtline.symm.trans ho)
      exact ⟨before, d, after, hds, Option.some.inj hname, hnodup, hsays, .inl ⟨hrepeat, rfl⟩⟩
    · obtain ⟨hnamed, a, b, hbody, hb, hoffset⟩ :=
        Expr.place_of_ofText hfound d.name d.bodyOffset
      have hplace := Outline.place_in_body houtline hd hbody hb
      refine ⟨⟨_, hoffset, hplace.le_size, hplace⟩, fun o' name ho hname => ?_⟩
      obtain rfl := Except.ok.inj (houtline.symm.trans ho)
      refine ⟨before, d, after, hds, Option.some.inj (hnamed.symm.trans hname), hnodup, hsays,
        .inr ⟨hfresh, found, _, hfound, rfl, hoffset, Nat.le_add_right .., ?_⟩⟩
      rw [hbody, Text.size_append]
      omega
  · split at hstart
    next => cases hstart
    next declared hdeclared =>
      split at hstart
      · cases hstart
      · cases hstart
        have hplace := Outline.place_of_start houtline hdeclared
        exact ⟨⟨_, rfl, hplace.le_size, hplace⟩, nofun⟩

/-- In the body the parenthesis is behind spaces for the comment, one for each byte of it. -/
theorem place_of_fault_comment :
    let source : Text := "# é\na ::= # ö\n | )\n".toList
    let d : Definition := ⟨['a'], 5, "     \n | )".toList, 10, false⟩
    ofText source = .error (.unbalancedGroup (some ['a']) 19) ∧
      Outline.ofText source = .ok ⟨[d], none⟩ ∧ source.IsPlace 19 ∧
      d.bodyOffset ≤ 19 ∧ 19 ≤ d.bodyOffset + d.body.size := by
  intro source d
  have houtline : Outline.ofText source = .ok ⟨[d], none⟩ := rfl
  have hfault : Expr.ofText d.body = .error (.unbalancedGroup none 9) := by
    have hmany : Reader.many Reader.mark? [')'] = .ok ([], [')']) := by rw [Reader.many]; rfl
    have hskip : Reader.skipBar (Reader.skipSpaces d.body) = [')'] := rfl
    rw [Expr.ofText, Reader.read_eq, Reader.whole, Reader.alternatives, hskip, Reader.terms,
      Reader.term, hmany]
    rfl
  have hrules : readRules [] [d] = .error (.unbalancedGroup (some ['a']) 19) := by
    rw [readRules, hfault]
    rfl
  have h : ofText source = .error (.unbalancedGroup (some ['a']) 19) :=
    bind_eq_error.2 (.inr ⟨⟨[d], none⟩, houtline, bind_eq_error.2 (.inl hrules)⟩)
  obtain ⟨⟨n, hn, -, hplace⟩, hrule⟩ := place_of_fault h
  obtain rfl := Option.some.inj hn
  obtain ⟨before, e, after, hds, -, -, -, hcause⟩ := hrule ⟨[d], none⟩ ['a'] houtline rfl
  obtain ⟨rfl, hd⟩ : before = [] ∧ e = d := by
    cases before with
    | nil => exact ⟨rfl, (List.cons.inj hds).1.symm⟩
    | cons f before => simp at hds
  subst hd
  obtain ⟨hrepeat, -⟩ | ⟨-, found, m, -, -, hm, hlow, hhigh⟩ := hcause
  · cases hrepeat
  · obtain rfl := Option.some.inj hm
    exact ⟨h, houtline, hplace, hlow, hhigh⟩

end Grammar
end ExtendedBnf
