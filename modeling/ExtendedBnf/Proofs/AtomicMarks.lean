import ExtendedBnf.Position
import ExtendedBnf.Proofs.LineGroups

/-!
# Marks and the rules they reach

Each line but the last one has one line feed, at its end. So a byte on a line has as
many line feeds before it as there are lines before the line, and the lines of a
definition are found by the bytes it says. Every mark line of a source stands in
front of the header of an atomic definition, or on the line of the header, and there
is one for each.
-/
namespace ExtendedBnf

namespace Text

/-- Each line before another one ends with the one line feed it has. -/
theorem count_feed_of_lines {t l : Text} {ls rest : List Text} (h : t.lines = ls ++ l :: rest) :
    ls.flatten.count '\n' = ls.length := by
  induction t using lines_induction generalizing ls with
  | nil => cases ls <;> cases h
  | last r hne hr =>
    rw [lines_of_notMem hne hr] at h
    obtain ⟨rfl, -⟩ | ⟨ls, -, h⟩ := List.cons_eq_append_iff.1 h
    · rfl
    · cases ls <;> cases h
  | line r t hr ih =>
    rw [lines_append hr] at h
    obtain ⟨rfl, -⟩ | ⟨ls, rfl, hrest⟩ := List.cons_eq_append_iff.1 h
    · rfl
    · simp [ih hrest, List.count_eq_zero_of_not_mem hr]

/-- No line feed stands in front of the end of a line. -/
theorem feed_notMem_of_lines {t l : Text} (h : l ∈ t.lines) :
    '\n' ∉ l.dropEndWhile Line.isEnding := by
  have hfront {r : Text} (hr : '\n' ∉ r) : '\n' ∉ r.dropEndWhile Line.isEnding := fun hmem =>
    hr (dropEndWhile_append_takeEndWhile Line.isEnding r ▸ List.mem_append_left _ hmem)
  induction t using lines_induction with
  | nil => cases h
  | last r hne hr =>
    rw [lines_of_notMem hne hr] at h
    exact List.mem_singleton.1 h ▸ hfront hr
  | line r t hr ih =>
    rw [lines_append hr] at h
    obtain rfl | h := List.mem_cons.1 h
    · rw [dropEndWhile_append_all (List.forall_mem_singleton.2 rfl)]
      exact hfront hr
    · exact ih h

end Text

theorem Position.line_of_inLine {source l : Text} {ls rest : List Text} {n : Nat}
    (hlines : source.lines = ls ++ l :: rest) (h : Text.InLine ls l n) :
    (ofOffset source n).line = ls.length + 1 := by
  obtain ⟨u, ⟨v, hl⟩, rfl⟩ := h
  have hsource : source =
      ls.flatten ++ u ++ (v ++ l.takeEndWhile Line.isEnding ++ rest.flatten) := by
    rw [← Text.flatten_lines source, hlines, List.flatten_append, List.flatten_cons]
    nth_rewrite 1 [← Text.dropEndWhile_append_takeEndWhile Line.isEnding l]
    rw [← hl]
    simp only [List.append_assoc]
  have hfeed : '\n' ∉ u := fun hmem => Text.feed_notMem_of_lines
    (hlines ▸ List.mem_append_right _ List.mem_cons_self) (hl ▸ List.mem_append_left v hmem)
  rw [ofOffset, hsource, ← Text.size_append, Text.takeBytes_size_append, Text.takeBytes_zero,
    List.append_nil,
    after, List.count_append, Text.count_feed_of_lines hlines, List.count_eq_zero_of_not_mem hfeed]

namespace Definition

/-- The line of the source on which the definition has its name. -/
def headerLine (source : Text) (d : Definition) : Nat :=
  (Position.ofOffset source d.nameOffset).line

/-- The last line of the source on which the definition has code. -/
def lastLine (source : Text) (d : Definition) : Nat :=
  (Position.ofOffset source (d.bodyOffset + d.body.size)).line

end Definition

namespace Outline

/-- The last line on which the definitions have code, and 0 if there are none. -/
def lastLine (source : Text) (ds : List Definition) : Nat :=
  (ds.getLast?.map (·.lastLine source)).getD 0

/-- The lines of the source after the definitions `ds` up to the header of `d`. -/
def linesBetween (source : Text) (ds : List Definition) (d : Definition) : List Text :=
  (source.lines.take (d.headerLine source)).drop (lastLine source ds)

namespace Grouped
variable {source : Text} {ds es : List Definition} {d : Definition} {ls rest : List Text}

theorem lastLine_eq (h : Grouped ds ls) (hlines : source.lines = ls ++ rest) :
    lastLine source ds = ls.length := by
  cases h with
  | nil => rfl
  | @definition ds d ls lead more header _ _ _ hd =>
    obtain ⟨front, l, hmore, hend⟩ := hd.body
    rw [hmore, ← List.append_assoc, List.append_assoc _ [l]] at hlines
    have hline := Position.line_of_inLine hlines hend
    simp [lastLine, Definition.lastLine, hline, hmore, Nat.add_assoc]

theorem linesBetween_eq {all : List Definition} (h : Grouped all ls)
    (hlines : source.lines = ls ++ rest) (hall : all = ds ++ d :: es) :
    ∃ lead header, linesBetween source ds d = lead ++ [header] ∧
      (∀ l ∈ lead, (Line.ofText l).hasCode = false) ∧ (Line.ofText header).hasCode ∧
      marks (lead ++ [header]) = d.atomic.toNat := by
  induction h generalizing rest es with
  | nil => simp at hall
  | @definition before last ls lead more header hls hlead hmarks hd ih =>
    have hbefore : source.lines = ls ++ (lead ++ header :: more ++ rest) := by simpa using hlines
    obtain rfl | ⟨es, e, rfl⟩ := List.eq_nil_or_concat' es
    · obtain ⟨rfl, hlast⟩ := List.append_inj' hall rfl
      obtain rfl := List.singleton_inj.1 hlast
      have hheader : last.headerLine source = (ls ++ lead).length + 1 :=
        Position.line_of_inLine (hlines.trans (List.append_assoc ..)) hd.name
      have hprevious : lastLine source before = ls.length := hls.lastLine_eq hbefore
      have hsplit : source.lines = ls ++ (lead ++ [header]) ++ (more ++ rest) := by
        simpa using hlines
      have hlength : last.headerLine source = (ls ++ (lead ++ [header])).length := by
        simp [hheader, Nat.add_assoc]
      refine ⟨lead, header, ?_, hlead, hd.code, hmarks⟩
      rw [linesBetween, hlength, hprevious, hsplit, List.take_left, List.drop_left]
    · rw [← List.cons_append, ← List.append_assoc] at hall
      exact ih hbefore (List.append_inj' hall rfl).1

theorem marks_eq (h : Grouped ds ls) : marks ls = ds.countP (·.atomic) := by
  induction h with
  | nil => rfl
  | @definition ds d ls lead more header _ _ hmarks hd ih =>
    have hsplit : ls ++ lead ++ header :: more = ls ++ (lead ++ [header]) ++ more := by simp
    rw [hsplit, marks_append, marks_append, ih, hmarks, hd.marks, List.countP_append,
      List.countP_singleton]
    cases d.atomic <;> rfl

end Grouped

/-- A mark reaches the next definition and no other. Behind the last line on which the definitions
before have code, and up to the header, there is a mark line if and only if the definition is
atomic, and then it is the only one; the header is the only one of these lines with code. So there
are as many mark lines as atomic definitions. -/
theorem atomic_iff_of_ofText {source : Text} {o : Outline} (h : ofText source = .ok o) :
    (∀ ds d es, o.definitions = ds ++ d :: es →
      (d.atomic ↔ ∃ l ∈ linesBetween source ds d, l.IsMarkLine) ∧
      (d.atomic → (linesBetween source ds d).countP (fun l => l.IsMarkLine) = 1) ∧
      ∃ lead header, linesBetween source ds d = lead ++ [header] ∧
        (∀ l ∈ lead, (Line.ofText l).hasCode = false) ∧ (Line.ofText header).hasCode) ∧
    source.lines.countP (fun l => l.IsMarkLine) = o.definitions.countP (·.atomic) := by
  obtain ⟨known, tail, hlines, hknown, htail⟩ := grouped_of_ofText h
  refine ⟨fun ds d es hall => ?_, ?_⟩
  · obtain ⟨lead, header, hbetween, hlead, hheader, hmarks⟩ := hknown.linesBetween_eq hlines hall
    rw [← hbetween] at hmarks
    have hsome : 0 < marks (linesBetween source ds d) ↔
        ∃ l ∈ linesBetween source ds d, l.IsMarkLine := by
      rw [marks, List.countP_pos_iff]
      simp only [decide_eq_true_eq]
    refine ⟨?_, fun hatomic => ?_, lead, header, hbetween, hlead, hheader⟩
    · rw [← hsome, hmarks]
      cases d.atomic <;> simp
    · exact hmarks.trans (by rw [hatomic]; rfl)
  · have hall : marks source.lines = marks known + marks tail := by rw [hlines, marks_append]
    rw [htail, hknown.marks_eq] at hall
    exact hall

/-- A mark may stand on the line of a header, or with a comment, a blank line or a further comment
in front of the header. `#atomics` is no mark, and neither is `#atomic` behind code. -/
theorem atomic_iff_of_ofText_places :
    let source : Text := ("#atomic # é\n\na ::= 'é' #atomic\n# b\n | '#'\n" ++
      "#atomic\n#atomics\n\tb ::= a\nc ::= b\n\t#atomic d ::= c").toList
    let a : Definition := ⟨['a'], 14, " 'é'        \n   \n | '#'".toList, 19, true⟩
    let b : Definition := ⟨['b'], 62, " a".toList, 67, true⟩
    let c : Definition := ⟨['c'], 70, " b".toList, 75, false⟩
    let d : Definition := ⟨['d'], 87, " c".toList, 92, true⟩
    ofText source = .ok ⟨[a, b, c, d], none⟩ ∧
      (∃ l ∈ linesBetween source [a] b, l.IsMarkLine) ∧
      (linesBetween source [a] b).countP (fun l => l.IsMarkLine) = 1 ∧
      (¬ ∃ l ∈ linesBetween source [a, b] c, l.IsMarkLine) ∧
      source.lines.countP (fun l => l.IsMarkLine) = 3 := by
  intro source a b c d
  have h : ofText source = .ok ⟨[a, b, c, d], none⟩ := rfl
  obtain ⟨hall, hcount⟩ := atomic_iff_of_ofText h
  obtain ⟨hb, hone, -⟩ := hall [a] b [c, d] rfl
  obtain ⟨hc, -⟩ := hall [a, b] c [d] rfl
  exact ⟨h, hb.1 rfl, hone rfl, fun hmark => Bool.false_ne_true (hc.2 hmark), hcount⟩

end Outline
end ExtendedBnf
