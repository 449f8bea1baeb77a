import ExtendedBnf.Code
import ExtendedBnf.ExprText
import ExtendedBnf.Name

/-!
# Reading expressions

The body of a rule is read level by level: alternatives between `|`, terms next
to each other or joined with `~`, operands after predicate marks, and primaries
with their suffixes or the tail of a separated list. A group is cut out up to its
closing parenthesis first and its interior read on its own.

A reader gives what it read and the text it left. A failure says how many bytes
are left from the place where it arose, so it means the same in a longer text
that starts with something else. Whether another term follows shows in its first
character, so a term that has begun is never given up for another reading.
-/
namespace ExtendedBnf

namespace Reader

/-- What a reader cannot accept. -/
inductive Complaint where
  | malformed (flaw : RuleFlaw)
  | unbalanced
  | operator (written : Text)
  deriving DecidableEq, Repr

/-- A complaint and the number of bytes from its place to the end of the text. -/
structure Failure where
  complaint : Complaint
  unread : Nat
  deriving DecidableEq, Repr

/-- The complaint as a fault in the text read. -/
def Failure.fault (t : Text) (failure : Failure) : Fault :=
  let offset := t.size - failure.unread
  match failure.complaint with
  | .malformed flaw => .malformedRule none offset flaw
  | .unbalanced => .unbalancedGroup none offset
  | .operator written => .invalidSeparatorOperator none offset written

/-- The white space between the tokens of an expression. -/
def isSpace (c : Char) : Bool := c == ' ' || c == '\t' || c == '\r' || c == '\n'

def skipSpaces (t : Text) : Text := t.dropWhile isSpace

/-- The characters that start within the first `n` bytes. -/
def startingWithin : Nat → Text → Text
  | 0, _ => []
  | _, [] => []
  | n + 1, c :: r => c :: startingWithin (n + 1 - c.utf8Size) r

/-- What a message shows of a text: its first word, cut short. -/
def firstWord (t : Text) : Text := startingWithin 16 (t.takeWhile fun c => !Text.isBlank c)

/-- The failure to find what is expected in front of `rest`. -/
def unexpected (rest : Text) : Failure :=
  match rest with
  | [] => ⟨.malformed .unexpectedEnd, 0⟩
  | ')' :: _ => ⟨.unbalanced, rest.size⟩
  | _ => ⟨.malformed (.unexpected (firstWord rest)), rest.size⟩

/-- Reads items until there is none. An item that takes nothing is none. -/
def many {α : Type} (item : Text → Except Failure (Option (α × Text))) (t : Text) :
    Except Failure (List α × Text) :=
  match item t with
  | .error failure => .error failure
  | .ok none => .ok ([], t)
  | .ok (some (a, rest)) =>
    if rest.length < t.length then (many item rest).map fun read => (a :: read.1, read.2)
    else .ok ([], t)
termination_by t.length

/-- The literal that the text starts with, if it starts with a quote. -/
def literal? : Text → Option (Except Failure (Literal × Text))
  | [] => none
  | c :: r =>
    (Quote.ofChar? c).map fun quote =>
      match closing? '\\' c r with
      | some (body, rest) => .ok (⟨body, quote⟩, rest)
      | none => .error ⟨.malformed .unterminatedLiteral, Text.size (c :: r)⟩

/-- The interior of the group that an opening parenthesis before `t` starts, read by `inner`. -/
def group (inner : Text → Except Failure Expr) (t : Text) : Except Failure (Expr × Text) :=
  match Text.closeGroup 0 .code t with
  | none => .error ⟨.unbalanced, 1 + t.size⟩
  | some (inside, rest) =>
    if inside.isBlankText then .error ⟨.malformed .emptyGroup, 1 + t.size⟩
    else
      match inner inside with
      | .ok e => .ok (e, rest)
      | .error failure => .error { failure with unread := failure.unread + 1 + rest.size }

/-- A name, a literal or a group. -/
def primary (inner : Text → Except Failure Expr) (t : Text) : Except Failure (Expr × Text) :=
  match t with
  | [] => .error (unexpected t)
  | c :: r =>
    if isNameStart c then .ok (.name (c :: r.takeWhile isNameRest), r.dropWhile isNameRest)
    else if c = '(' then group inner r
    else
      match literal? t with
      | some read => read.map fun read => (.literal read.1, read.2)
      | none => .error (unexpected t)

/-- What may follow an operand. -/
inductive Suffix where
  | optional
  | star
  | plus
  | bounds (bounds : Bounds)
  deriving DecidableEq, Repr

def Suffix.apply (e : Expr) : Suffix → Expr
  | .optional => .optional e
  | .star => .star e
  | .plus => .plus e
  | .bounds b => .repeated e b

/-- The number that the text starts with, if it starts with a digit. -/
def number? (t : Text) : Except Failure (Option UInt32 × Text) :=
  match t.takeWhile Char.isDigit with
  | [] => .ok (none, t)
  | digits =>
    let n := Nat.ofDigitChars 10 digits 0
    if n < UInt32.size then .ok (some (UInt32.ofNat n), t.dropWhile Char.isDigit)
    else .error ⟨.malformed .invalidBounds, t.size⟩

/-- The bounds that two numbers and the comma between them stand for. -/
def boundsOf? : Option UInt32 → Bool → Option UInt32 → Option Bounds
  | some n, false, none => some ⟨some n, some n⟩
  | some min, true, some max => if min ≤ max then some ⟨some min, some max⟩ else none
  | some min, true, none => some ⟨some min, none⟩
  | none, true, some max => some ⟨none, some max⟩
  | _, _, _ => none

/-- Whether a comma comes first after the spaces, and what follows them. -/
def skipComma (t : Text) : Bool × Text :=
  match skipSpaces t with
  | ',' :: r => (true, r)
  | r => (false, r)

/-- The bounds that an opening brace before `t` starts. -/
def bounds (t : Text) : Except Failure (Bounds × Text) := do
  let (min, t₁) ← number? (skipSpaces t)
  let (comma, t₂) := skipComma t₁
  let (max, t₃) ← number? (skipSpaces t₂)
  match skipSpaces t₃ with
  | '}' :: rest =>
    match boundsOf? min comma max with
    | some bounds => .ok (bounds, rest)
    | none => .error ⟨.malformed .invalidBounds, 1 + t.size⟩
  | rest => .error (unexpected rest)

/-- The next suffix, if there is one. -/
def suffix? (t : Text) : Except Failure (Option (Suffix × Text)) :=
  match skipSpaces t with
  | '?' :: r => .ok (some (.optional, r))
  | '*' :: r => .ok (some (.star, r))
  | '+' :: r => .ok (some (.plus, r))
  | '{' :: r => (bounds r).map fun read => some (.bounds read.1, read.2)
  | _ => .ok none

/-- The punctuation that an operator after a separator is made of. -/
def isOperatorChar (c : Char) : Bool := "$%*+,-./:;<=>?@[\\]^`\x7b\x7d".toList.contains c

/-- The rest of a separated list of `item`, after the `%`. -/
def listTail (item : Expr) (t : Text) : Except Failure (Expr × Text) :=
  match literal? (skipSpaces t) with
  | none => .error ⟨.malformed .missingSeparator, Text.size (skipSpaces t)⟩
  | some (.error failure) => .error failure
  | some (.ok (separator, r)) =>
    let written := (skipSpaces r).takeWhile isOperatorChar
    match ListOp.ofText? written with
    | some op => .ok (.list item separator op, (skipSpaces r).dropWhile isOperatorChar)
    | none => .error ⟨.operator written, Text.size (skipSpaces r)⟩

/-- A primary with the tail of a list or with suffixes. -/
def operand (inner : Text → Except Failure Expr) (t : Text) : Except Failure (Expr × Text) := do
  let (e, r) ← primary inner t
  match skipSpaces r with
  | '%' :: tail => listTail e tail
  | _ =>
    let (suffixes, rest) ← many suffix? r
    .ok (suffixes.foldl Suffix.apply e, rest)

/-- What may stand before an operand. -/
inductive Mark where
  | ahead
  | notAhead
  deriving DecidableEq, Repr

def Mark.apply (e : Expr) : Mark → Expr
  | .ahead => .ahead e
  | .notAhead => .notAhead e

/-- The next mark, if there is one, and the spaces after it. -/
def mark? : Text → Except Failure (Option (Mark × Text))
  | '&' :: r => .ok (some (.ahead, skipSpaces r))
  | '!' :: r => .ok (some (.notAhead, skipSpaces r))
  | _ => .ok none

/-- An operand under its predicate marks. -/
def term (inner : Text → Except Failure Expr) (t : Text) : Except Failure (Expr × Text) := do
  let (marks, r) ← many mark? t
  let (e, rest) ← operand inner r
  .ok (marks.foldr (fun mark e => mark.apply e) e, rest)

/-- Whether a term starts here. -/
def startsTerm : Text → Bool
  | [] => false
  | c :: _ => isNameStart c || (Quote.ofChar? c).isSome || c == '(' || c == '&' || c == '!'

/-- What follows the spaces or the `~` between two terms, if there are any. -/
def joint? (t : Text) : Option Text :=
  match skipSpaces t with
  | '~' :: r => some (skipSpaces r)
  | r => if t.head?.any isSpace then some r else none

/-- The next term of a sequence, if there is one. -/
def nextTerm? (inner : Text → Except Failure Expr) (t : Text) :
    Except Failure (Option (Expr × Text)) :=
  match joint? t with
  | some r => if startsTerm r then (term inner r).map some else .ok none
  | none => .ok none

/-- Several parts built together, or the first one if there is no other. -/
def together (build : List Expr → Expr) (first : Expr) : List Expr → Expr
  | [] => first
  | rest => build (first :: rest)

/-- Terms one after the other. -/
def terms (inner : Text → Except Failure Expr) (t : Text) : Except Failure (Expr × Text) := do
  let (first, r) ← term inner t
  let (others, rest) ← many (nextTerm? inner) r
  .ok (together Expr.sequence first others, rest)

/-- The next alternative, if a `|` follows. -/
def nextAlternative? (inner : Text → Except Failure Expr) (t : Text) :
    Except Failure (Option (Expr × Text)) :=
  match skipSpaces t with
  | '|' :: r => (terms inner (skipSpaces r)).map some
  | _ => .ok none

/-- What follows a `|` in front of the first alternative. -/
def skipBar : Text → Text
  | '|' :: r => skipSpaces r
  | t => t

/-- Alternatives one after the other. -/
def alternatives (inner : Text → Except Failure Expr) (t : Text) :
    Except Failure (Expr × Text) := do
  let (first, r) ← terms inner (skipBar t)
  let (others, rest) ← many (nextAlternative? inner) r
  .ok (together Expr.choice first others, rest)

/-- The whole text as one expression, its groups read by `inner`. -/
def whole (inner : Text → Except Failure Expr) (t : Text) : Except Failure Expr := do
  let (e, r) ← alternatives inner (skipSpaces t)
  match skipSpaces r with
  | [] => .ok e
  | rest => .error (unexpected rest)

/-- The whole text as one expression. The interior of a group is shorter than the text around it,
so it can be read in the same way. -/
def read (t : Text) : Except Failure Expr :=
  whole (fun inside => if inside.length < t.length then read inside else .error (unexpected [])) t
termination_by t.length

end Reader

/-- The expression that the text says. -/
def Expr.ofText (t : Text) : Except Fault Expr := (Reader.read t).mapError (Reader.Failure.fault t)

end ExtendedBnf
