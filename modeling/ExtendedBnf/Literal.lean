import ExtendedBnf.Text

/-!
# Quoted literals

A literal is written between two equal quotes. Inside it a backslash and the
character after it are an escape pair, so the literal ends at the first quote of
its kind that is not escaped. The body is kept as written, escape pairs
included. `closing?` finds the end in any list of symbols, since the search is
made on characters and on bytes.
-/
namespace ExtendedBnf

/-- The kind of quote around a literal. -/
inductive Quote where
  | single
  | double
  deriving DecidableEq, Repr

namespace Quote

def char : Quote → Char
  | single => '\x27'
  | double => '\x22'

/-- The kind of quote a character is, if it is one. -/
def ofChar? (c : Char) : Option Quote :=
  if c = single.char then some single else if c = double.char then some double else none

@[simp] theorem ofChar?_char (q : Quote) : ofChar? q.char = some q := by cases q <;> rfl

theorem ofChar?_eq_some_iff {c : Char} {q : Quote} : ofChar? c = some q ↔ c = q.char := by
  constructor
  · intro h
    unfold ofChar? at h
    split at h
    · simp_all
    · split at h <;> simp_all
  · rintro rfl
    simp

theorem char_ne_backslash (q : Quote) : q.char ≠ '\\' := by cases q <;> decide

theorem utf8Size_char (q : Quote) : q.char.utf8Size = 1 := by cases q <;> rfl

theorem toNat_char_lt (q : Quote) : q.char.toNat < 0x80 := by cases q <;> decide

def other : Quote → Quote
  | single => double
  | double => single

end Quote

/-- What stands before the first `close` that no `escape` precedes in its pair, and what follows
it. -/
def closing? {α : Type} [DecidableEq α] (escape close : α) : List α → Option (List α × List α)
  | [] => none
  | a :: r =>
    if a = escape then
      match r with
      | [] => none
      | b :: r => (closing? escape close r).map fun split => (a :: b :: split.1, split.2)
    else if a = close then some ([], r)
    else (closing? escape close r).map fun split => (a :: split.1, split.2)

section
variable {α : Type} [DecidableEq α] (escape close : α)

@[simp] theorem closing?_nil : closing? escape close [] = none := by rw [closing?]

@[simp] theorem closing?_escape (b : α) (r : List α) :
    closing? escape close (escape :: b :: r) =
      (closing? escape close r).map fun split => (escape :: b :: split.1, split.2) := by
  rw [closing?, if_pos rfl]

variable {escape close}

theorem closing?_close (h : close ≠ escape) (r : List α) :
    closing? escape close (close :: r) = some ([], r) := by
  simp [closing?.eq_def, h]

theorem closing?_of_ne {a : α} (he : a ≠ escape) (hc : a ≠ close) (r : List α) :
    closing? escape close (a :: r) =
      (closing? escape close r).map fun split => (a :: split.1, split.2) := by
  rw [closing?.eq_def]
  simp [he, hc]

/-- Nothing is lost but the closing symbol. -/
theorem eq_append_of_closing? {s body rest : List α}
    (h : closing? escape close s = some (body, rest)) : s = body ++ close :: rest := by
  fun_induction closing? escape close s generalizing body rest with
  | case1 => simp at h
  | case2 => simp at h
  | case3 b r ih =>
    obtain ⟨split, hs, heq⟩ := Option.map_eq_some_iff.1 h
    cases heq
    simp [ih hs]
  | case4 r he =>
    cases h
    rfl
  | case5 a r he hc ih =>
    obtain ⟨split, hs, heq⟩ := Option.map_eq_some_iff.1 h
    cases heq
    simp [ih hs]

end

/-- A terminal, matched as its body says. -/
structure Literal where
  body : Text
  quote : Quote
  deriving DecidableEq, Repr

namespace Literal

/-- The literal as it is written. -/
def text (l : Literal) : Text := l.quote.char :: l.body ++ [l.quote.char]

/-- Whether the quote at the end of the written literal is the one that closes it. -/
def IsClosed (l : Literal) : Prop :=
  closing? '\\' l.quote.char (l.body ++ [l.quote.char]) = some (l.body, [])

instance (l : Literal) : Decidable l.IsClosed := inferInstanceAs (Decidable (_ = _))

/-- A body with its escaped `old` quotes bare and its bare `new` quotes escaped. -/
def swapQuotes (old new : Char) : Text → Text
  | [] => []
  | ['\\'] => ['\\']
  | '\\' :: c :: r =>
    if c = old then c :: swapQuotes old new r else '\\' :: c :: swapQuotes old new r
  | c :: r => if c = new then '\\' :: c :: swapQuotes old new r else c :: swapQuotes old new r

/-- The same literal between the given quotes. -/
def withQuote (q : Quote) (l : Literal) : Literal :=
  if l.quote = q then l else ⟨swapQuotes l.quote.char q.char l.body, q⟩

@[simp] theorem withQuote_self (l : Literal) : l.withQuote l.quote = l := by simp [withQuote]

@[simp] theorem quote_withQuote (q : Quote) (l : Literal) : (l.withQuote q).quote = q := by
  unfold withQuote
  split <;> simp_all

/-- The end of the literal that the byte `start` of the text opens. Any byte there opens one, and
the first byte like it that is not escaped closes it. -/
def end? (t : Text) (start : Nat) : Option Nat :=
  match t.bytes.drop start with
  | [] => none
  | quote :: r => (closing? 0x5C quote r).map fun split => start + split.1.length + 2

end Literal
end ExtendedBnf
