import ExtendedBnf.Line
import ExtendedBnf.Name
import ExtendedBnf.Result

/-!
# The outline of a grammar

The outline of a grammar source holds its definitions, with their bodies still
as text, and its start declaration. Lines are read one after the other. A
definition goes on over lines whose code starts with `|` and over lines with a
mark or a comment only, and ends before a vacant line or the next definition.
The text of a body is blanked, so offsets into it agree with the source.
-/
namespace ExtendedBnf

/-- A rule whose body is still text. -/
structure Definition where
  name : Text
  nameOffset : Nat
  body : Text
  bodyOffset : Nat
  atomic : Bool
  deriving DecidableEq, Repr

/-- The name of the start symbol and the place of its declaration. -/
structure StartDeclaration where
  symbol : Text
  offset : Nat
  deriving DecidableEq, Repr

/-- The definitions and the start declaration of a source. -/
structure Outline where
  definitions : List Definition := []
  start : Option StartDeclaration := none
  deriving DecidableEq, Repr

namespace Outline

/-- A definition that may still go on, and the blanked text since the end of its body. -/
structure Pending where
  definition : Definition
  gap : Text
  deriving DecidableEq, Repr

/-- What is known of a source after some of its lines. -/
structure State where
  /-- Where the next line starts. -/
  offset : Nat := 0
  outline : Outline := {}
  pending : Option Pending := none
  /-- The place of a mark that no rule has followed yet. -/
  mark : Option Nat := none
  deriving DecidableEq, Repr

namespace State

/-- Notes the mark of a line. -/
def takeMark (line : Line) (s : State) : Except Fault State :=
  if line.isMarked then
    match s.mark with
    | some earlier => .error (.malformedRule none earlier .strayAtomic)
    | none => .ok { s with mark := some (s.offset + line.indent.size) }
  else .ok s

/-- Notes the start declaration of a line. -/
def takeStart (line : Line) (s : State) : Except Fault State :=
  match line.startSymbol? with
  | none => .ok s
  | some symbol =>
    let offset := s.offset + line.indent.size
    if !symbol.isName then .error (.malformedStart offset (.invalidName symbol))
    else
      match s.outline.start with
      | some first => .error (.malformedStart offset (.repeated first.symbol))
      | none => .ok { s with outline := { s.outline with start := some ⟨symbol, offset⟩ } }

/-- Ends the pending definition. -/
def close (s : State) : Except Fault State :=
  match s.pending with
  | none => .ok s
  | some ⟨d, _⟩ =>
    if d.body.isBlankText then .error (.malformedRule (some d.name) d.bodyOffset .emptyBody)
    else
      .ok { s with
        outline := { s.outline with definitions := s.outline.definitions ++ [d] }
        pending := none }

/-- The blanked text of a line after the last of its code. -/
def gapAfter (line : Line) : Text :=
  line.code.takeEndWhile Text.isBlank ++ line.comment.spaces ++ line.ending

/-- The pending definition with the code of a further line. -/
def extend (line : Line) (p : Pending) : Pending where
  definition := { p.definition with
    body := p.definition.body ++ p.gap ++ line.indent.spaces ++ line.marker.spaces ++
      line.code.trimEnd }
  gap := gapAfter line

/-- Reads the code of a line. -/
def takeCode (line : Line) (s : State) : Except Fault State :=
  let offset := s.offset + line.codeOffset
  let first := offset + Text.size (line.code.takeWhile Text.isBlank)
  if ['|'].isPrefixOf line.code.trimStart then
    match s.pending, s.mark with
    | some p, none => .ok { s with pending := some (extend line p) }
    | _, _ => .error (.malformedRule none first .strayAlternative)
  else
    match line.code.cutCode "::=".toList.isPrefixOf .code with
    | none => .error (.malformedRule none first .missingDefinition)
    | some (before, rest) => do
      let s ← s.close
      if !before.trim.isName then .error (.malformedRule none first (.invalidName before.trim))
      else
        let definition : Definition :=
          { name := before.trim
            nameOffset := first
            body := Text.trimEnd (rest.drop 3)
            bodyOffset := offset + before.size + 3
            atomic := s.mark.isSome }
        .ok { s with pending := some ⟨definition, gapAfter line⟩, mark := none }

/-- Reads what a line means as a whole. -/
def takeContent (line : Line) (s : State) : Except Fault State :=
  if line.hasCode then s.takeCode line
  else if line.isVacant then s.close
  else .ok { s with pending := s.pending.map fun p => { p with gap := p.gap ++ line.blanked } }

/-- Reads a line. -/
def takeLine (s : State) (raw : Text) : Except Fault State := do
  let line := Line.ofText raw
  let s ← s.takeMark line
  let s ← s.takeStart line
  let s ← s.takeContent line
  return { s with offset := s.offset + raw.size }

theorem takeLine_eq_ok_iff {s s' : State} {raw : Text} :
    s.takeLine raw = .ok s' ↔ ∃ marked started taken,
      s.takeMark (Line.ofText raw) = .ok marked ∧
      marked.takeStart (Line.ofText raw) = .ok started ∧
      started.takeContent (Line.ofText raw) = .ok taken ∧
      { taken with offset := taken.offset + raw.size } = s' := by
  simp only [takeLine, bind_eq_ok, pure_eq_ok, exists_and_left]

/-- The outline at the end of the source. -/
def finish (s : State) : Except Fault Outline := do
  let s ← s.close
  match s.mark with
  | some place => .error (.malformedRule none place .strayAtomic)
  | none => .ok s.outline

end State

/-- The outline of a source. -/
def ofText (source : Text) : Except Fault Outline := do
  let s ← source.lines.foldlM State.takeLine {}
  s.finish

end Outline
end ExtendedBnf
