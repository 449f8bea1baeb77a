import ExtendedBnf.Code

/-!
# Source lines

A line of grammar source has up to five parts, in this order: its indentation, an
`#atomic` marker, code, a comment, and the line end. `Line.ofText` cuts a line
into them, quotes being read afresh on each line. `blanked` replaces by spaces
all but the code and the line end, so that code keeps its place in the source.
-/
namespace ExtendedBnf

/-- The lines of a text, each with its line feed. -/
def Text.lines : Text → List Text
  | [] => []
  | c :: r =>
    if c = '\n' then [c] :: lines r
    else
      match lines r with
      | [] => [[c]]
      | l :: ls => (c :: l) :: ls

@[simp] theorem Text.flatten_lines (t : Text) : (lines t).flatten = t := by
  induction t with
  | nil => rfl
  | cons c r ih =>
    unfold lines
    split
    · simp [ih]
    · cases h : lines r <;> simp_all

/-- A line by its parts. A missing part is empty. -/
structure Line where
  indent : Text
  marker : Text
  code : Text
  comment : Text
  ending : Text
  deriving DecidableEq, Repr

namespace Line

/-- The mark in front of an atomic rule. -/
def atomicMarker : Text := "#atomic".toList

def isEnding (c : Char) : Bool := c == '\n' || c == '\r'

/-- The mark in front of a text and the text after it. -/
def cutMarker (t : Text) : Text × Text :=
  match t.afterWord? atomicMarker with
  | some rest => (atomicMarker, rest)
  | none => ([], t)

/-- The code in front of a text and the comment after it. -/
def cutComment (t : Text) : Text × Text := (t.cutCode ['#'].isPrefixOf .code).getD (t, [])

theorem append_cutMarker (t : Text) : (cutMarker t).1 ++ (cutMarker t).2 = t := by
  unfold cutMarker
  split
  next rest h => exact (Text.eq_append_of_afterWord? h).symm
  next => rfl

theorem append_cutComment (t : Text) : (cutComment t).1 ++ (cutComment t).2 = t := by
  unfold cutComment
  cases h : t.cutCode ['#'].isPrefixOf .code with
  | none => simp
  | some cut => exact Text.append_eq_of_cutCode h

/-- Cuts a line into its parts. -/
def ofText (raw : Text) : Line :=
  let content := raw.dropEndWhile isEnding
  let marked := cutMarker (content.dropWhile Text.isBlank)
  let commented := cutComment marked.2
  { indent := content.takeWhile Text.isBlank
    marker := marked.1
    code := commented.1
    comment := commented.2
    ending := raw.takeEndWhile isEnding }

/-- The line as it stands in the source. -/
def source (line : Line) : Text :=
  line.indent ++ line.marker ++ line.code ++ line.comment ++ line.ending

/-- The line with spaces for all but its code and its end. -/
def blanked (line : Line) : Text :=
  line.indent.spaces ++ line.marker.spaces ++ line.code ++ line.comment.spaces ++ line.ending

/-- Cutting a line loses nothing. -/
@[simp] theorem source_ofText (raw : Text) : (ofText raw).source = raw := by
  have hcode := append_cutComment (cutMarker ((raw.dropEndWhile isEnding).dropWhile Text.isBlank)).2
  have hmark := append_cutMarker ((raw.dropEndWhile isEnding).dropWhile Text.isBlank)
  simp only [source, ofText, List.append_assoc]
  rw [← List.append_assoc (cutComment _).1, hcode, ← List.append_assoc (cutMarker _).1, hmark,
    ← List.append_assoc, List.takeWhile_append_dropWhile, Text.dropEndWhile_append_takeEndWhile]

@[simp] theorem size_blanked (line : Line) : line.blanked.size = line.source.size := by
  simp [blanked, source]

/-- Whether the line marks the next rule as atomic. -/
def isMarked (line : Line) : Bool := !line.marker.isEmpty

/-- Whether there is any code on the line. -/
def hasCode (line : Line) : Bool := !line.code.isBlankText

/-- Whether the line has neither code nor a mark nor a comment. -/
def isVacant (line : Line) : Bool := !line.hasCode && !line.isMarked && line.comment.isEmpty

/-- How far into the line its code starts. -/
def codeOffset (line : Line) : Nat := line.indent.size + line.marker.size

/-- What follows the word `start` on a line that is a comment only, if the comment begins so. -/
def startSymbol? (line : Line) : Option Text :=
  if line.isMarked || !line.code.isEmpty || line.comment.isEmpty then none
  else (Text.afterWord? (Text.trimStart (line.comment.drop 1)) "start".toList).map Text.trim

end Line
end ExtendedBnf
