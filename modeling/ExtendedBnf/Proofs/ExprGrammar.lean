import ExtendedBnf.ExprReader
import ExtendedBnf.Proofs.LiteralBody
import Mathlib.Data.List.TakeWhile

/-!
# The grammar of expressions

Which text says which expression, level by level:
```
whole         gap alternatives gap
alternatives  [| gap] terms {gap | gap terms}
terms         term {(gap ~ gap or a gap that is not empty) term}
term          (& or !) gap term, or an operand
operand       primary {gap suffix}, or primary gap % gap literal gap (+ or * or ...+ or ...*)
primary       a name, a quoted literal, or a whole text in parentheses
suffix        ? or * or + or bounds in braces
```
Two or more parts of a sequence or choice are spliced, and suffixes apply from
left to right. Each level is given for any relation `interior` between the
texts in parentheses and what they say. `Says` ties the knot.
-/
namespace ExtendedBnf

/-- A run of white space, perhaps empty. -/
def IsGap (t : Text) : Prop := ∀ c ∈ t, Reader.isSpace c

theorem isGap_nil : IsGap [] := fun _ hc => absurd hc List.not_mem_nil

theorem isGap_space : IsGap [' '] := by
  intro c hc
  rw [List.mem_singleton.1 hc]
  rfl

theorem IsGap.append {g h : Text} (hg : IsGap g) (hh : IsGap h) : IsGap (g ++ h) := by
  intro c hc
  exact (List.mem_append.1 hc).elim (hg c) (hh c)

/-- What is skipped in front of a text is a gap. -/
theorem exists_gap (t : Text) : ∃ g, IsGap g ∧ t = g ++ Reader.skipSpaces t :=
  ⟨t.takeWhile Reader.isSpace, fun _ hc => List.mem_takeWhile_imp hc,
    List.takeWhile_append_dropWhile.symm⟩

/-- The decimal digits of a number, leading zeros included. -/
def IsNumber (t : Text) (n : UInt32) : Prop :=
  t ≠ [] ∧ (∀ c ∈ t, c.isDigit) ∧ Nat.ofDigitChars 10 t 0 = n.toNat

namespace Says
open Reader (Mark Suffix together)

/-- A text of items one after the other. -/
inductive Many {α : Type} (item : Text → α → Prop) : Text → List α → Prop
  | nil : Many item [] []
  | cons {t r : Text} {a : α} {as : List α} : item t a → Many item r as →
      Many item (t ++ r) (a :: as)

inductive Bounded : Text → Bounds → Prop
  | exactly {g t h : Text} {n : UInt32} : IsGap g → IsNumber t n → IsGap h →
      Bounded ('{' :: g ++ t ++ h ++ ['}']) ⟨some n, some n⟩
  | atLeast {g t h k : Text} {min : UInt32} : IsGap g → IsNumber t min → IsGap h → IsGap k →
      Bounded ('{' :: g ++ t ++ h ++ ',' :: k ++ ['}']) ⟨some min, none⟩
  | atMost {g h t k : Text} {max : UInt32} : IsGap g → IsGap h → IsNumber t max → IsGap k →
      Bounded ('{' :: g ++ ',' :: h ++ t ++ k ++ ['}']) ⟨none, some max⟩
  | between {g t h k u i : Text} {min max : UInt32} : IsGap g → IsNumber t min → IsGap h →
      IsGap k → IsNumber u max → IsGap i → min ≤ max →
      Bounded ('{' :: g ++ t ++ h ++ ',' :: k ++ u ++ i ++ ['}']) ⟨some min, some max⟩

inductive Suffixed : Text → Suffix → Prop
  | optional {g : Text} : IsGap g → Suffixed (g ++ ['?']) .optional
  | star {g : Text} : IsGap g → Suffixed (g ++ ['*']) .star
  | plus {g : Text} : IsGap g → Suffixed (g ++ ['+']) .plus
  | bounds {g t : Text} {bounds : Bounds} : IsGap g → Bounded t bounds →
      Suffixed (g ++ t) (.bounds bounds)

section
variable (interior : Text → Expr → Prop)

inductive Primary : Text → Expr → Prop
  | name {t : Text} : t.isName → Primary t (.name t)
  | literal {l : Literal} : IsBody '\\' l.quote.char l.body → Primary l.text (.literal l)
  | group {t : Text} {e : Expr} : interior t e → Primary ('(' :: t ++ [')']) e

inductive Operand : Text → Expr → Prop
  | suffixes {t s : Text} {e : Expr} {suffixes : List Suffix} : Primary interior t e →
      Many Suffixed s suffixes → Operand (t ++ s) (suffixes.foldl Suffix.apply e)
  | list {t g h k : Text} {e : Expr} {separator : Literal} {op : ListOp} : Primary interior t e →
      IsGap g → IsGap h → IsBody '\\' separator.quote.char separator.body → IsGap k →
      Operand (t ++ g ++ '%' :: h ++ separator.text ++ k ++ op.text) (.list e separator op)

inductive Term : Text → Expr → Prop
  | ahead {g t : Text} {e : Expr} : IsGap g → Term t e → Term ('&' :: g ++ t) (.ahead e)
  | notAhead {g t : Text} {e : Expr} : IsGap g → Term t e → Term ('!' :: g ++ t) (.notAhead e)
  | operand {t : Text} {e : Expr} : Operand interior t e → Term t e

/-- A mark with the gap after it. -/
inductive Marked : Text → Mark → Prop
  | ahead {g : Text} : IsGap g → Marked ('&' :: g) .ahead
  | notAhead {g : Text} : IsGap g → Marked ('!' :: g) .notAhead

/-- A term is an operand after any number of marks, which apply from right to left. -/
theorem term_iff {interior : Text → Expr → Prop} {t : Text} {e : Expr} :
    Term interior t e ↔ ∃ u marks v body, t = u ++ v ∧
      e = marks.foldr (fun mark e => mark.apply e) body ∧
      Many Marked u marks ∧ Operand interior v body := by
  constructor
  · intro h
    induction h with
    | ahead hg _ ih =>
      obtain ⟨u, marks, v, body, rfl, rfl, hmarks, hbody⟩ := ih
      exact ⟨_, .ahead :: marks, v, body, by rw [List.append_assoc], rfl, .cons (.ahead hg) hmarks,
        hbody⟩
    | notAhead hg _ ih =>
      obtain ⟨u, marks, v, body, rfl, rfl, hmarks, hbody⟩ := ih
      exact ⟨_, .notAhead :: marks, v, body, by rw [List.append_assoc], rfl,
        .cons (.notAhead hg) hmarks, hbody⟩
    | operand h => exact ⟨[], [], _, _, rfl, rfl, .nil, h⟩
  · rintro ⟨u, marks, v, body, rfl, rfl, hmarks, hbody⟩
    induction hmarks with
    | nil => exact .operand hbody
    | cons hmark _ ih =>
      rw [List.append_assoc, List.foldr_cons]
      cases hmark with
      | ahead hg => exact .ahead hg ih
      | notAhead hg => exact .notAhead hg ih

/-- A term with what joins it to the one before. -/
inductive Joined : Text → Expr → Prop
  | tilde {g h t : Text} {e : Expr} : IsGap g → IsGap h → Term interior t e →
      Joined (g ++ '~' :: h ++ t) e
  | gap {g t : Text} {e : Expr} : IsGap g → g ≠ [] → Term interior t e → Joined (g ++ t) e

inductive Terms : Text → Expr → Prop
  | row {t r : Text} {e : Expr} {es : List Expr} : Term interior t e →
      Many (Joined interior) r es → Terms (t ++ r) (together Expr.sequence e es)

/-- An alternative with the `|` before it. -/
inductive Barred : Text → Expr → Prop
  | bar {g h t : Text} {e : Expr} : IsGap g → IsGap h → Terms interior t e →
      Barred (g ++ '|' :: h ++ t) e

inductive Alternatives : Text → Expr → Prop
  | plain {t r : Text} {e : Expr} {es : List Expr} : Terms interior t e →
      Many (Barred interior) r es → Alternatives (t ++ r) (together Expr.choice e es)
  | barred {g t r : Text} {e : Expr} {es : List Expr} : IsGap g → Terms interior t e →
      Many (Barred interior) r es → Alternatives ('|' :: g ++ t ++ r) (together Expr.choice e es)

inductive Whole : Text → Expr → Prop
  | spaced {g t h : Text} {e : Expr} : IsGap g → Alternatives interior t e → IsGap h →
      Whole (g ++ t ++ h) e

end
end Says

/-- The text says the expression, and so do the texts of its groups. -/
inductive Says : Text → Expr → Prop
  | whole {t : Text} {e : Expr} : Says.Whole Says t e → Says t e

namespace Says

theorem iff_whole {t : Text} {e : Expr} : Says t e ↔ Whole Says t e :=
  ⟨fun | .whole h => h, .whole⟩

section
variable {interior other : Text → Expr → Prop} {t : Text} {e : Expr}

theorem Many.imp {α : Type} {p q : Text → α → Prop} {t : Text} {as : List α} (h : Many p t as)
    (himp : ∀ (u : Text) (a : α), u.length ≤ t.length → p u a → q u a) : Many q t as := by
  induction h with
  | nil => exact .nil
  | cons ha _ ih =>
    refine .cons (himp _ _ (by simp) ha) (ih fun u a hu hp => himp u a ?_ hp)
    rw [List.length_append]
    omega

/-! A level depends on what the texts of groups say only at shorter texts. -/

theorem Primary.imp (h : Primary interior t e)
    (himp : ∀ (u : Text) (e : Expr), u.length < t.length → interior u e → other u e) :
    Primary other t e := by
  cases h with
  | name hname => exact .name hname
  | literal hbody => exact .literal hbody
  | group hinside =>
    refine .group (himp _ _ ?_ hinside)
    simp only [List.cons_append, List.length_cons, List.length_append]
    omega

theorem Operand.imp (h : Operand interior t e)
    (himp : ∀ (u : Text) (e : Expr), u.length < t.length → interior u e → other u e) :
    Operand other t e := by
  cases h with
  | suffixes hfirst hsuffixes =>
    refine .suffixes (hfirst.imp fun u e hu => himp u e ?_) hsuffixes
    rw [List.length_append]
    omega
  | list hfirst hg hh hbody hk =>
    refine .list (hfirst.imp fun u e hu => himp u e ?_) hg hh hbody hk
    simp only [List.length_append]
    omega

theorem Term.imp (h : Term interior t e)
    (himp : ∀ (u : Text) (e : Expr), u.length < t.length → interior u e → other u e) :
    Term other t e := by
  induction h with
  | ahead hg _ ih =>
    refine .ahead hg (ih fun u e hu => himp u e ?_)
    rw [List.length_append]
    omega
  | notAhead hg _ ih =>
    refine .notAhead hg (ih fun u e hu => himp u e ?_)
    rw [List.length_append]
    omega
  | operand h => exact .operand (h.imp himp)

theorem Joined.imp (h : Joined interior t e)
    (himp : ∀ (u : Text) (e : Expr), u.length < t.length → interior u e → other u e) :
    Joined other t e := by
  cases h with
  | tilde hg hh hterm =>
    refine .tilde hg hh (hterm.imp fun u e hu => himp u e ?_)
    simp only [List.length_append]
    omega
  | gap hg hne hterm =>
    refine .gap hg hne (hterm.imp fun u e hu => himp u e ?_)
    rw [List.length_append]
    omega

theorem Terms.imp (h : Terms interior t e)
    (himp : ∀ (u : Text) (e : Expr), u.length < t.length → interior u e → other u e) :
    Terms other t e := by
  cases h with
  | row hfirst hothers =>
    rw [List.length_append] at himp
    refine .row (hfirst.imp fun u e hu => himp u e (by omega)) ?_
    exact hothers.imp fun v e hv hjoined => hjoined.imp fun u e hu => himp u e (by omega)

theorem Barred.imp (h : Barred interior t e)
    (himp : ∀ (u : Text) (e : Expr), u.length < t.length → interior u e → other u e) :
    Barred other t e := by
  cases h with
  | bar hg hh hterms =>
    refine .bar hg hh (hterms.imp fun u e hu => himp u e ?_)
    simp only [List.length_append]
    omega

theorem Alternatives.imp (h : Alternatives interior t e)
    (himp : ∀ (u : Text) (e : Expr), u.length < t.length → interior u e → other u e) :
    Alternatives other t e := by
  cases h with
  | plain hfirst hothers =>
    rw [List.length_append] at himp
    refine .plain (hfirst.imp fun u e hu => himp u e (by omega)) ?_
    exact hothers.imp fun v e hv hbarred => hbarred.imp fun u e hu => himp u e (by omega)
  | barred hg hfirst hothers =>
    simp only [List.length_append] at himp
    refine .barred hg (hfirst.imp fun u e hu => himp u e (by omega)) ?_
    exact hothers.imp fun v e hv hbarred => hbarred.imp fun u e hu => himp u e (by omega)

theorem Whole.imp (h : Whole interior t e)
    (himp : ∀ (u : Text) (e : Expr), u.length < t.length → interior u e → other u e) :
    Whole other t e := by
  cases h with
  | spaced hg halternatives hh =>
    refine .spaced hg (halternatives.imp fun u e hu => himp u e ?_) hh
    simp only [List.length_append]
    omega

end

/-- What holds of a text as soon as it holds of the texts of its groups holds of every text that
says an expression. -/
theorem induction {motive : Text → Expr → Prop}
    (whole : ∀ t e, Whole (fun u e => Says u e ∧ motive u e) t e → motive t e)
    {t : Text} {e : Expr} (h : Says t e) : motive t e :=
  whole t e ((iff_whole.1 h).imp fun _ _ _ hu => ⟨hu, induction whole hu⟩)
termination_by t.length

end Says

end ExtendedBnf
