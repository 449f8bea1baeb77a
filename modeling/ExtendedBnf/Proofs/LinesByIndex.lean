import ExtendedBnf.Proofs.ReaderByIndex

/-!
# Source lines by byte indices

A line is cut at the end of its content, of its indentation, of its mark and of its code,
and a start declaration behind its `#` and its word. Where these cuts are made only the
numbers of bytes say, so each has to be shown to be between two characters.
-/
namespace ExtendedBnf
namespace ByIndex
open Halt
variable {ε : Type}

/-- Whether the text starts with the word, and the word ends there. -/
def startsWithWord (t word : Text) : Except (Halt ε) Bool :=
  if word.isPrefixOf t then do
    let rest ← t.cut word.size t.size
    .ok ((rest.head?.map Text.isBlank).getD true)
  else .ok false

/-- The line with this content that is cut at these bytes of it. -/
def cutParts (content ending : Text) (indent codeFrom codeEnd : Nat) : Except (Halt ε) Line := do
  let blanks ← content.cut 0 indent
  let marker ← content.cut indent codeFrom
  let code ← content.cut codeFrom codeEnd
  let comment ← content.cut codeEnd content.size
  .ok ⟨blanks, marker, code, comment, ending⟩

/-- The line with this content. -/
def cutContent (content ending : Text) : Except (Halt ε) Line := do
  let indent ← minus content.size (Text.size content.trimStart)
  let unindented ← content.cut indent content.size
  let marked ← startsWithWord unindented Line.atomicMarker
  let codeFrom := if marked then indent + Line.atomicMarker.size else indent
  let unmarked ← content.cut codeFrom content.size
  let comment? ← findCode? unmarked ['#']
  let codeEnd := match comment? with
    | some start => codeFrom + start
    | none => content.size
  cutParts content ending indent codeFrom codeEnd

/-- The parts of a line. -/
def cutLine (raw : Text) : Except (Halt ε) Line := do
  let content := raw.dropEndWhile Line.isEnding
  let ending ← raw.cut content.size raw.size
  cutContent content ending

/-- What follows the word `start` on a line that is a comment only, if the comment begins so. -/
def startSymbol? (line : Line) : Except (Halt ε) (Option Text) :=
  if line.isMarked || !line.code.isEmpty || line.comment.isEmpty then .ok none
  else do
    let comment ← line.comment.cut 1 line.comment.size
    let text := Text.trimStart comment
    if ← startsWithWord text "start".toList then
      let rest ← text.cut (Text.size "start".toList) text.size
      .ok (some rest.trim)
    else .ok none

theorem minus_size_trimStart (t : Text) :
    (minus t.size (Text.size t.trimStart) : Except (Halt ε) Nat) =
      .ok (Text.size (t.takeWhile Text.isBlank)) := by
  have hsize : t.size = Text.size (t.takeWhile Text.isBlank) + Text.size t.trimStart := by
    rw [← Text.size_append, Text.trimStart, List.takeWhile_append_dropWhile]
  rw [hsize, minus_add]

theorem startsWithWord_eq (t word : Text) :
    (startsWithWord t word : Except (Halt ε) Bool) = .ok (t.afterWord? word).isSome := by
  unfold startsWithWord Text.afterWord?
  split
  next hbegins =>
    obtain ⟨rest, rfl⟩ := List.isPrefixOf_iff_prefix.1 hbegins
    rw [Text.cut_back rfl, List.drop_left]
    dsimp only [bind, Except.bind]
    split <;> simp_all
  next => rfl

theorem startsWithWord_cutMarker (t : Text) :
    (startsWithWord t Line.atomicMarker : Except (Halt ε) Bool) =
      .ok !(Line.cutMarker t).1.isEmpty := by
  rw [startsWithWord_eq, Line.cutMarker]
  cases t.afterWord? Line.atomicMarker <;> rfl

theorem add_size_cutMarker (n : Nat) (t : Text) :
    (if !(Line.cutMarker t).1.isEmpty then n + Line.atomicMarker.size else n) =
      n + Text.size (Line.cutMarker t).1 := by
  unfold Line.cutMarker
  split <;> rfl

/-- Without a comment the code goes up to the end. -/
theorem codeEnd_eq (n : Nat) (t : Text) :
    (match Text.findCode? t ['#'] with
      | some start => n + start
      | none => n + t.size) = n + Text.size (Line.cutComment t).1 := by
  rw [Text.findCode?, if_neg (by simp), Line.cutComment]
  cases t.cutCode ['#'].isPrefixOf .code <;> rfl

theorem cutParts_eq {content : Text} {line : Line}
    (h : content = line.indent ++ line.marker ++ line.code ++ line.comment) :
    (cutParts content line.ending line.indent.size (line.indent.size + line.marker.size)
      (line.indent.size + line.marker.size + line.code.size) : Except (Halt ε) Line) =
      .ok line := by
  have hblanks : (content.cut 0 line.indent.size : Except (Halt ε) Text) = .ok line.indent :=
    Text.cut_front (b := line.marker ++ line.code ++ line.comment) (by simp [h])
  have hmarker : (content.cut line.indent.size (line.indent.size + line.marker.size) :
      Except (Halt ε) Text) = .ok line.marker :=
    Text.cut_of_eq (b := line.code ++ line.comment) (by simp [h]) rfl rfl
  have hcode : (content.cut (line.indent.size + line.marker.size)
      (line.indent.size + line.marker.size + line.code.size) : Except (Halt ε) Text) =
      .ok line.code :=
    Text.cut_of_eq (a := line.indent ++ line.marker) h (by simp) (by simp)
  have hcomment : (content.cut (line.indent.size + line.marker.size + line.code.size) content.size :
      Except (Halt ε) Text) = .ok line.comment := by
    rw [← Text.size_append, ← Text.size_append]
    exact Text.cut_back h
  rw [cutParts, hblanks, hmarker, hcode, hcomment]
  rfl

/-- The parts that are cut out are those of the line. -/
theorem cutLine_eq (raw : Text) : (cutLine raw : Except (Halt ε) Line) = .ok (Line.ofText raw) := by
  have hraw : raw = raw.dropEndWhile Line.isEnding ++ raw.takeEndWhile Line.isEnding :=
    (Text.dropEndWhile_append_takeEndWhile ..).symm
  let content := raw.dropEndWhile Line.isEnding
  let marked := Line.cutMarker content.trimStart
  have hcontent : content = content.takeWhile Text.isBlank ++ content.trimStart :=
    List.takeWhile_append_dropWhile.symm
  have hmarked : content = content.takeWhile Text.isBlank ++ marked.1 ++ marked.2 := by
    rw [List.append_assoc, Line.append_cutMarker]
    exact hcontent
  have hunmarked : (content.cut (Text.size (content.takeWhile Text.isBlank) + marked.1.size)
      content.size : Except (Halt ε) Text) = .ok marked.2 := by
    rw [← Text.size_append]
    exact Text.cut_back hmarked
  have hsize : content.size = Text.size (content.takeWhile Text.isBlank) + marked.1.size +
      marked.2.size := by
    rw [← Text.size_append, ← Text.size_append, ← hmarked]
  have hparts : content = content.takeWhile Text.isBlank ++ marked.1 ++
      (Line.cutComment marked.2).1 ++ (Line.cutComment marked.2).2 := by
    rw [List.append_assoc _ (Line.cutComment marked.2).1, Line.append_cutComment]
    exact hmarked
  rw [cutLine, Text.cut_back hraw]
  change cutContent content _ = _
  rw [cutContent, minus_size_trimStart, ok_bind, Text.cut_back hcontent, ok_bind,
    startsWithWord_cutMarker, ok_bind]
  dsimp only
  rw [add_size_cutMarker, hunmarked, ok_bind, findCode?_eq, ok_bind, hsize, codeEnd_eq]
  have hline : content = (Line.ofText raw).indent ++ (Line.ofText raw).marker ++
      (Line.ofText raw).code ++ (Line.ofText raw).comment := hparts
  exact cutParts_eq hline

theorem startSymbol?_eq (raw : Text) :
    (startSymbol? (Line.ofText raw) : Except (Halt ε) (Option Text)) =
      .ok (Line.ofText raw).startSymbol? := by
  unfold startSymbol? Line.startSymbol?
  split
  next => rfl
  next hcomment =>
    have hne : (Line.ofText raw).comment ≠ [] := by
      intro hnil
      simp [hnil] at hcomment
    obtain ⟨-, hstarts⟩ := (Line.isParted_ofText raw).comment hne
    obtain ⟨rest, hrest⟩ := List.isPrefixOf_iff_prefix.1 hstarts
    have hcut : (Text.cut (['#'] ++ rest) 1 (Text.size (['#'] ++ rest)) : Except (Halt ε) Text) =
        .ok rest := Text.cut_back (a := ['#']) rfl
    have hdrop : List.drop 1 (['#'] ++ rest) = rest := rfl
    rw [← hrest, hcut, hdrop, ok_bind]
    dsimp only
    rw [startsWithWord_eq, ok_bind]
    cases hword : Text.afterWord? (Text.trimStart rest) "start".toList with
    | none => rfl
    | some symbol =>
      rw [Option.isSome_some, if_pos rfl, Text.cut_back (Text.eq_append_of_afterWord? hword)]
      rfl

end ByIndex
end ExtendedBnf
