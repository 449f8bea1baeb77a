import ExtendedBnf.Fault
import ExtendedBnf.Literal

/-!
# Code outside literals

Comments, definitions and parentheses count only in code, which is what stands
outside quoted literals. A text is read from the left: a quote in code opens a
literal, which ends at the same quote unless a backslash precedes it, and a
literal that is never closed takes the rest of the text. `cutCode` finds a place
in code and `closeGroup` the parenthesis that ends a group.
-/
namespace ExtendedBnf

/-- Where the next character of a text stands. -/
inductive Place where
  | code
  | inside (quote : Quote)
  | escaped (quote : Quote)
  deriving DecidableEq, Repr

namespace Place

/-- The place after a character. -/
def next : Place → Char → Place
  | code, c => match Quote.ofChar? c with
    | some quote => inside quote
    | none => code
  | inside quote, c =>
    if c = '\\' then escaped quote else if c = quote.char then code else inside quote
  | escaped quote, _ => inside quote

/-- The place after a text. -/
def after (here : Place) (t : Text) : Place := t.foldl next here

@[simp] theorem after_nil (here : Place) : here.after [] = here := rfl

@[simp] theorem after_cons (here : Place) (c : Char) (r : Text) :
    here.after (c :: r) = (here.next c).after r := rfl

@[simp] theorem after_append (here : Place) (s t : Text) :
    here.after (s ++ t) = (here.after s).after t := List.foldl_append

/-- Whether a character at this place is code. The quotes of a literal are not. -/
def isCode (here : Place) (c : Char) : Bool := here == code && (Quote.ofChar? c).isNone

theorem isCode_char (here : Place) (quote : Quote) : here.isCode quote.char = false := by
  simp [isCode]

theorem next_char (quote : Quote) : next code quote.char = inside quote := by simp [next]

@[simp] theorem next_of_isCode {here : Place} {c : Char} (h : here.isCode c) :
    here.next c = code := by
  simp only [isCode, Bool.and_eq_true, beq_iff_eq, Option.isNone_iff_eq_none] at h
  obtain ⟨rfl, hc⟩ := h
  simp [next, hc]

end Place

namespace Text

/-- Cuts the text before the first character of code from which on it satisfies `p`. -/
def cutCode (p : Text → Bool) : Place → Text → Option (Text × Text)
  | _, [] => none
  | here, c :: r =>
    if here.isCode c && p (c :: r) then some ([], c :: r)
    else (cutCode p (here.next c) r).map fun cut => (c :: cut.1, cut.2)

/-- A cut loses nothing. -/
theorem append_eq_of_cutCode {p : Text → Bool} {here : Place} {t before rest : Text}
    (h : cutCode p here t = some (before, rest)) : before ++ rest = t := by
  fun_induction cutCode p here t generalizing before with
  | case1 => simp at h
  | case2 => cases h; rfl
  | case3 here c r hc ih =>
    obtain ⟨cut, hcut, heq⟩ := Option.map_eq_some_iff.1 h
    cases heq
    simp [ih hcut]

/-- What a cut is made before satisfies the condition. -/
theorem of_cutCode {p : Text → Bool} {here : Place} {t before rest : Text}
    (h : cutCode p here t = some (before, rest)) : p rest := by
  fun_induction cutCode p here t generalizing before with
  | case1 => simp at h
  | case2 here c r hc => cases h; simp_all
  | case3 here c r hc ih =>
    obtain ⟨cut, hcut, heq⟩ := Option.map_eq_some_iff.1 h
    cases heq
    exact ih hcut

/-- The byte at which `needle` first stands in the code of the text. -/
def findCode? (t needle : Text) : Option Nat :=
  if needle = [] then none
  else (cutCode needle.isPrefixOf .code t).map fun cut => size cut.1

/-- The byte at which the comment of a line starts. -/
def commentStart? (line : Text) : Option Nat := line.findCode? ['#']

/-- The text before the parenthesis that ends the group the text stands in, and the text after it.
The group has `depth` open groups of its own. -/
def closeGroup : Nat → Place → Text → Option (Text × Text)
  | _, _, [] => none
  | depth, here, c :: r =>
    if here.isCode c && c == ')' then
      match depth with
      | 0 => some ([], r)
      | depth + 1 => (closeGroup depth .code r).map fun split => (c :: split.1, split.2)
    else if here.isCode c && c == '(' then
      (closeGroup (depth + 1) .code r).map fun split => (c :: split.1, split.2)
    else (closeGroup depth (here.next c) r).map fun split => (c :: split.1, split.2)

@[simp] theorem closeGroup_close (r : Text) :
    closeGroup 0 .code (')' :: r) = some ([], r) := by rw [closeGroup.eq_def]; rfl

@[simp] theorem closeGroup_close_succ (depth : Nat) (r : Text) :
    closeGroup (depth + 1) .code (')' :: r) =
      (closeGroup depth .code r).map fun split => (')' :: split.1, split.2) := by
  rw [closeGroup.eq_def]
  rfl

@[simp] theorem closeGroup_open (depth : Nat) (r : Text) :
    closeGroup depth .code ('(' :: r) =
      (closeGroup (depth + 1) .code r).map fun split => ('(' :: split.1, split.2) := by
  rw [closeGroup.eq_def]
  rfl

/-- A character that is not code, or no parenthesis, only moves the place. -/
theorem closeGroup_cons {here : Place} {c : Char}
    (h : here.isCode c = false ∨ c ≠ '(' ∧ c ≠ ')') (depth : Nat) (r : Text) :
    closeGroup depth here (c :: r) =
      (closeGroup depth (here.next c) r).map fun split => (c :: split.1, split.2) := by
  rw [closeGroup.eq_def]
  rcases h with h | h <;> simp [h]

/-- Nothing is lost but the parenthesis. -/
theorem eq_append_of_closeGroup {depth : Nat} {here : Place} {t inner rest : Text}
    (h : closeGroup depth here t = some (inner, rest)) : t = inner ++ ')' :: rest := by
  fun_induction closeGroup depth here t generalizing inner with
  | case1 => simp at h
  | case2 here c r hc => cases h; simp_all
  | case3 here c r hc depth ih | case4 depth here c r hc ho ih | case5 depth here c r hc ho ih =>
    obtain ⟨split, hs, heq⟩ := Option.map_eq_some_iff.1 h
    cases heq
    simp [ih hs]

/-- The byte of the parenthesis that matches the one at byte `start`. -/
def matchingParen? (t : Text) (start : Nat) : Option Nat :=
  match dropBytes? start t with
  | some ('(' :: r) => (closeGroup 0 .code r).map fun split => start + 1 + size split.1
  | _ => none

/-- The byte of the parenthesis that matches the one at byte `start`, or the fault there. -/
def matchingParen (t : Text) (start : Nat) : Except Fault Nat :=
  match matchingParen? t start with
  | some close => .ok close
  | none => .error (.unbalancedGroup none start)

theorem matchingParen_eq_ok_iff {t : Text} {start close : Nat} :
    t.matchingParen start = .ok close ↔ t.matchingParen? start = some close := by
  unfold matchingParen
  cases t.matchingParen? start <;> simp

end Text
end ExtendedBnf
