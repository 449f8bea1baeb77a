import ExtendedBnf.Text

/-!
# Lines and columns

A position in a text is shown to people as a line and a column, both counted
from one. Lines end with a line feed and columns count characters. An offset
past the end stands for the end, and one inside a character for its first byte.
-/
namespace ExtendedBnf

structure Position where
  line : Nat
  column : Nat
  deriving DecidableEq, Repr

namespace Position

/-- The position right after the text `before`. -/
def after (before : Text) : Position where
  line := before.count '\n' + 1
  column := (Text.takeEndWhile (· != '\n') before).length + 1

/-- The position of a byte of the source. -/
def ofOffset (source : Text) (offset : Nat) : Position := after (Text.takeBytes offset source)

@[simp] theorem after_nil : after [] = ⟨1, 1⟩ := rfl

/-- A line feed starts the next line. -/
theorem after_append_newline (before : Text) :
    after (before ++ ['\n']) = ⟨(after before).line + 1, 1⟩ := by
  simp [after, Text.takeEndWhile]

/-- Any other character moves on by a column. -/
theorem after_append_of_ne {c : Char} (h : c ≠ '\n') (before : Text) :
    after (before ++ [c]) = ⟨(after before).line, (after before).column + 1⟩ := by
  simp [after, Text.takeEndWhile, h]

end Position
end ExtendedBnf
