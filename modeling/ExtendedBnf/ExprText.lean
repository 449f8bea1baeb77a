import ExtendedBnf.Expr

/-!
# Expressions in grammar notation

`Expr.text` writes an expression the way grammars are written. Parentheses stand
around an operand that binds more loosely than its place asks. A sequence or
choice with one part is written as that part and binds like it.
-/
namespace ExtendedBnf

/-- The binding strength of an expression when it is written out, loosest first. -/
inductive Precedence where
  | choice
  | sequence
  | predicate
  | repetition
  | atom
  deriving DecidableEq, Repr

/-- Stronger bindings have higher levels. -/
def Precedence.level : Precedence → Nat
  | choice => 0
  | sequence => 1
  | predicate => 2
  | repetition => 3
  | atom => 4

mutual
/-- The binding strength of an expression. -/
def Expr.precedence : Expr → Precedence
  | .name _ | .literal _ => .atom
  | .seq es => precedenceOf .sequence es
  | .alt es => precedenceOf .choice es
  | .optional _ | .star _ | .plus _ | .repeated _ _ | .list _ _ _ => .repetition
  | .ahead _ | .notAhead _ => .predicate

/-- The binding strength of several parts: of the part itself if there is one only. -/
def Expr.precedenceOf (several : Precedence) : List Expr → Precedence
  | [e] => e.precedence
  | _ => several
end

/-- The text of an expression that binds as `own`, as an operand where at least `least` is asked. -/
def Text.operand (t : Text) (least own : Precedence) : Text :=
  if own.level < least.level then '(' :: t ++ [')'] else t

namespace ListOp

/-- The four operators that end a separated list. -/
def all : List ListOp := [⟨true, false⟩, ⟨false, false⟩, ⟨true, true⟩, ⟨false, true⟩]

def text (op : ListOp) : Text :=
  (if op.finalSeparator then "...".toList else []) ++ [if op.atLeastOne then '+' else '*']

/-- The operator that is written so. -/
def ofText? (t : Text) : Option ListOp := all.find? fun op => op.text == t

@[simp] theorem ofText?_text (op : ListOp) : ofText? op.text = some op := by
  obtain ⟨_ | _, _ | _⟩ := op <;> rfl

theorem ofText?_eq_some_iff {t : Text} {op : ListOp} : ofText? t = some op ↔ t = op.text := by
  constructor
  · intro h
    have := List.find?_some h
    simp_all
  · rintro rfl
    simp

end ListOp

/-- The bounds as they are written after the repeated expression. -/
def Bounds.text : Bounds → Text
  | ⟨some min, some max⟩ =>
    if min = max then '{' :: Text.ofNat min.toNat ++ ['}']
    else '{' :: Text.ofNat min.toNat ++ ", ".toList ++ Text.ofNat max.toNat ++ ['}']
  | ⟨some min, none⟩ => '{' :: Text.ofNat min.toNat ++ [',', '}']
  | ⟨none, some max⟩ => '{' :: ", ".toList ++ Text.ofNat max.toNat ++ ['}']
  | ⟨none, none⟩ => ['{', ',', '}']

namespace Expr

mutual
/-- The expression as grammars write it. -/
def text : Expr → Text
  | name n => n
  | literal l => l.text
  | seq es => Text.join [' '] (operandTexts .sequence es)
  | alt es => Text.join " | ".toList (operandTexts .choice es)
  | optional e => e.text.operand .atom e.precedence ++ ['?']
  | star e => e.text.operand .atom e.precedence ++ ['*']
  | plus e => e.text.operand .atom e.precedence ++ ['+']
  | repeated e bounds => e.text.operand .atom e.precedence ++ bounds.text
  | ahead e => '&' :: e.text.operand .predicate e.precedence
  | notAhead e => '!' :: e.text.operand .predicate e.precedence
  | list e separator op =>
    e.text.operand .atom e.precedence ++ " % ".toList ++ separator.text ++ ' ' :: op.text

/-- The expressions as operands where at least `least` is asked. -/
def operandTexts (least : Precedence) : List Expr → List Text
  | [] => []
  | e :: es => e.text.operand least e.precedence :: operandTexts least es
end

theorem operandTexts_eq_map (least : Precedence) (es : List Expr) :
    operandTexts least es = es.map fun e => e.text.operand least e.precedence := by
  induction es with
  | nil => simp [operandTexts]
  | cons e es ih => simp [operandTexts, ih]

end Expr
end ExtendedBnf
