import ExtendedBnf.Code
import ExtendedBnf.Proofs.ExprGrammar

/-!
# Balanced texts

The search for the parenthesis that ends a group passes over a balanced text and
comes out in code, as deep as it went in. So a balanced text in parentheses is cut
out whole. Every text that says an expression is balanced, since its literals hide
what is in them and its groups are balanced in turn.
-/
namespace ExtendedBnf
namespace Text

/-- A text that the search for the end of a group passes over. -/
def Balanced (t : Text) : Prop :=
  ∀ depth rest, closeGroup depth .code (t ++ rest) =
    (closeGroup depth .code rest).map fun split => (t ++ split.1, split.2)

theorem closeGroup_of_balanced {t : Text} (h : Balanced t) (rest : Text) :
    closeGroup 0 .code (t ++ ')' :: rest) = some (t, rest) := by
  rw [h, closeGroup_close]
  simp

theorem balanced_nil : Balanced [] := fun depth rest => by simp

theorem Balanced.append {s t : Text} (hs : Balanced s) (ht : Balanced t) : Balanced (s ++ t) := by
  intro depth rest
  rw [List.append_assoc, hs, ht, Option.map_map]
  congr 1
  funext split
  simp

/-- Whether a character of code neither opens nor closes anything. -/
def isPlain (c : Char) : Bool := (Quote.ofChar? c).isNone && c != '(' && c != ')'

theorem balanced_cons {c : Char} {t : Text} (hc : isPlain c) (ht : Balanced t) :
    Balanced (c :: t) := by
  intro depth rest
  simp only [isPlain, Bool.and_eq_true, Option.isNone_iff_eq_none, bne_iff_ne] at hc
  obtain ⟨⟨hquote, hopen⟩, hclose⟩ := hc
  have hnext : Place.next .code c = .code := by simp [Place.next, hquote]
  rw [List.cons_append, closeGroup_cons (.inr ⟨hopen, hclose⟩), hnext, ht depth rest]
  simp [Function.comp_def]

theorem balanced_of_isPlain {t : Text} (h : ∀ c ∈ t, isPlain c) : Balanced t := by
  induction t with
  | nil => exact balanced_nil
  | cons c r ih =>
    have hr : Balanced r := ih fun d hd => h d (List.mem_cons_of_mem c hd)
    exact balanced_cons (h c List.mem_cons_self) hr

theorem balanced_group {t : Text} (h : Balanced t) : Balanced ('(' :: t ++ [')']) := by
  intro depth rest
  have hinside := h (depth + 1) (')' :: rest)
  rw [closeGroup_close_succ] at hinside
  rw [show '(' :: t ++ [')'] ++ rest = '(' :: (t ++ ')' :: rest) by simp, closeGroup_open, hinside]
  simp [Function.comp_def]

/-- What stands in a literal is not code. A literal that is not closed takes the rest. -/
theorem closeGroup_inside (quote : Quote) (depth : Nat) (t : Text) :
    closeGroup depth (.inside quote) t = (closing? '\\' quote.char t).bind fun split =>
      (closeGroup depth .code split.2).map fun s => (split.1 ++ quote.char :: s.1, s.2) := by
  have hinside (c : Char) : (Place.inside quote).isCode c = false := rfl
  fun_induction closing? '\\' quote.char t with
  | case1 => rw [closeGroup, Option.bind_none]
  | case2 => rw [closeGroup_cons (.inl (hinside _)), closeGroup]; rfl
  | case3 b r ih =>
    rw [closeGroup_cons (.inl (hinside _)), closeGroup_cons (.inl rfl)]
    simp [Place.next, ih, Option.map_bind, Option.bind_map, Function.comp_def]
  | case4 r he =>
    rw [closeGroup_cons (.inl (hinside _))]
    simp [Place.next, he]
  | case5 a r he hc ih =>
    rw [closeGroup_cons (.inl (hinside _))]
    simp [Place.next, he, hc, ih, Option.map_bind, Option.bind_map, Function.comp_def]

theorem closeGroup_quote (quote : Quote) (depth : Nat) (t : Text) :
    closeGroup depth .code (quote.char :: t) = (closing? '\\' quote.char t).bind fun split =>
      (closeGroup depth .code split.2).map fun s =>
        (quote.char :: split.1 ++ quote.char :: s.1, s.2) := by
  rw [closeGroup_cons (.inl (Place.isCode_char ..)), Place.next_char, closeGroup_inside,
    Option.map_bind]
  simp [Function.comp_def]

theorem balanced_literal {l : Literal} (h : IsBody '\\' l.quote.char l.body) : Balanced l.text := by
  intro depth rest
  rw [Literal.text, List.append_assoc, List.cons_append, List.singleton_append, closeGroup_quote,
    closing?_append h l.quote.char_ne_backslash]
  simp

end Text

open Text

theorem isPlain_of_isSpace {c : Char} (h : Reader.isSpace c) : isPlain c := by
  simp only [Reader.isSpace, Bool.or_eq_true, beq_iff_eq] at h
  rcases h with ((rfl | rfl) | rfl) | rfl <;> rfl

theorem IsGap.balanced {g : Text} (h : IsGap g) : Balanced g :=
  balanced_of_isPlain fun c hc => isPlain_of_isSpace (h c hc)

theorem isPlain_of_isNameRest {c : Char} (h : isNameRest c) : isPlain c := by
  have hall : ['\x27', '\x22', '(', ')'].all fun d => !isNameRest d := rfl
  have hne : c ∉ ['\x27', '\x22', '(', ')'] := by
    intro hc
    have := List.all_eq_true.1 hall c hc
    simp [h] at this
  simp only [List.mem_cons, List.not_mem_nil, or_false, not_or] at hne
  simp [isPlain, Quote.ofChar?, Quote.char, hne]

theorem balanced_of_isName {t : Text} (h : t.isName) : Balanced t := by
  cases t with
  | nil => cases h
  | cons c r =>
    obtain ⟨hc, hr⟩ := Bool.and_eq_true_iff.1 h
    have hplain : isPlain c := isPlain_of_isNameRest (isNameRest_of_isNameStart hc)
    refine balanced_cons hplain (balanced_of_isPlain fun d hd => ?_)
    exact isPlain_of_isNameRest (List.all_eq_true.1 hr d hd)

theorem IsNumber.balanced {t : Text} {n : UInt32} (h : IsNumber t n) : Balanced t := by
  refine balanced_of_isPlain fun c hc => isPlain_of_isNameRest ?_
  simp [isNameRest, Char.isAlphanum, h.2.1 c hc]

theorem ListOp.balanced_text (op : ListOp) : Balanced op.text := by
  have hall : op.text.all isPlain := by obtain ⟨_ | _, _ | _⟩ := op <;> rfl
  exact balanced_of_isPlain (List.all_eq_true.1 hall)

namespace Says

theorem Many.balanced {α : Type} {item : Text → α → Prop} {t : Text} {as : List α}
    (h : Many item t as) (hitem : ∀ u a, item u a → Balanced u) : Balanced t := by
  induction h with
  | nil => exact balanced_nil
  | cons ha _ ih => exact (hitem _ _ ha).append ih

theorem Bounded.balanced {t : Text} {bounds : Bounds} (h : Bounded t bounds) : Balanced t := by
  have hopen {g : Text} (hg : IsGap g) : Balanced ('{' :: g) := balanced_cons rfl hg.balanced
  have hcomma {g : Text} (hg : IsGap g) : Balanced (',' :: g) := balanced_cons rfl hg.balanced
  have hclose : Balanced ['}'] := balanced_cons rfl balanced_nil
  cases h with
  | exactly hg ht hh => exact (((hopen hg).append ht.balanced).append hh.balanced).append hclose
  | atLeast hg ht hh hk =>
    have hmin := ((hopen hg).append ht.balanced).append hh.balanced
    exact (hmin.append (hcomma hk)).append hclose
  | atMost hg hh ht hk =>
    have hmax := ((hopen hg).append (hcomma hh)).append ht.balanced
    exact (hmax.append hk.balanced).append hclose
  | between hg ht hh hk hu hi _ =>
    have hmin := ((hopen hg).append ht.balanced).append hh.balanced
    have hmax := (hmin.append (hcomma hk)).append hu.balanced
    exact (hmax.append hi.balanced).append hclose

theorem Suffixed.balanced {t : Text} {suffix : Reader.Suffix} (h : Suffixed t suffix) :
    Balanced t := by
  cases h with
  | optional hg | star hg | plus hg => exact hg.balanced.append (balanced_cons rfl balanced_nil)
  | bounds hg hbounds => exact hg.balanced.append hbounds.balanced

section
variable {interior : Text → Expr → Prop} (hinterior : ∀ u e, interior u e → Balanced u)
  {t : Text} {e : Expr}
include hinterior

theorem Primary.balanced (h : Primary interior t e) : Balanced t := by
  cases h with
  | name hname => exact balanced_of_isName hname
  | literal hbody => exact balanced_literal hbody
  | group hinside => exact balanced_group (hinterior _ _ hinside)

theorem Operand.balanced (h : Operand interior t e) : Balanced t := by
  cases h with
  | suffixes hfirst hsuffixes =>
    exact (hfirst.balanced hinterior).append (hsuffixes.balanced fun _ _ => Suffixed.balanced)
  | list hfirst hg hh hbody hk =>
    have hitem := (hfirst.balanced hinterior).append hg.balanced
    have hmark := hitem.append (balanced_cons (c := '%') rfl hh.balanced)
    have hseparator := hmark.append (balanced_literal hbody)
    exact (hseparator.append hk.balanced).append (ListOp.balanced_text _)

theorem Term.balanced (h : Term interior t e) : Balanced t := by
  induction h with
  | ahead hg _ ih | notAhead hg _ ih => exact (balanced_cons rfl hg.balanced).append ih
  | operand h => exact h.balanced hinterior

theorem Joined.balanced (h : Joined interior t e) : Balanced t := by
  cases h with
  | tilde hg hh hterm =>
    exact (hg.balanced.append (balanced_cons rfl hh.balanced)).append (hterm.balanced hinterior)
  | gap hg _ hterm => exact hg.balanced.append (hterm.balanced hinterior)

theorem Terms.balanced (h : Terms interior t e) : Balanced t := by
  cases h with
  | row hfirst hothers =>
    exact (hfirst.balanced hinterior).append
      (hothers.balanced fun _ _ hjoined => hjoined.balanced hinterior)

theorem Barred.balanced (h : Barred interior t e) : Balanced t := by
  cases h with
  | bar hg hh hterms =>
    exact (hg.balanced.append (balanced_cons rfl hh.balanced)).append (hterms.balanced hinterior)

theorem Alternatives.balanced (h : Alternatives interior t e) : Balanced t := by
  cases h with
  | plain hfirst hothers =>
    exact (hfirst.balanced hinterior).append
      (hothers.balanced fun _ _ hbarred => hbarred.balanced hinterior)
  | barred hg hfirst hothers =>
    have hbar := balanced_cons (c := '|') rfl hg.balanced
    exact (hbar.append (hfirst.balanced hinterior)).append
      (hothers.balanced fun _ _ hbarred => hbarred.balanced hinterior)

theorem Whole.balanced (h : Whole interior t e) : Balanced t := by
  cases h with
  | spaced hg halternatives hh =>
    exact (hg.balanced.append (halternatives.balanced hinterior)).append hh.balanced

end

/-- A text that says an expression can stand in parentheses. -/
theorem balanced {t : Text} {e : Expr} (h : Says t e) : Balanced t :=
  induction (fun _ _ hwhole => hwhole.balanced fun _ _ hinside => hinside.2) h

end Says
end ExtendedBnf
