import ExtendedBnf.Proofs.Balanced
import ExtendedBnf.Proofs.Pieces

/-!
# The literals of a text

The literals of a tree are listed from left to right, the separators of lists
included. A text that says the tree is made of just these literals, in this order
and each as it is in the tree, and between them of characters that are no quotes.
So it is clear where in the text each literal of the tree stands.
-/
namespace ExtendedBnf

namespace Expr

mutual
/-- The literals from left to right. The separator of a list stands behind the item. -/
def literals : Expr → List Literal
  | name _ => []
  | literal l => [l]
  | seq es | alt es => literalsOf es
  | optional e | star e | plus e | repeated e _ | ahead e | notAhead e => literals e
  | list e separator _ => literals e ++ [separator]

/-- The literals of all the trees. -/
def literalsOf : List Expr → List Literal
  | [] => []
  | e :: es => literals e ++ literalsOf es
end

@[simp] theorem literalsOf_eq_flatMap (es : List Expr) : literalsOf es = es.flatMap literals := by
  induction es with
  | nil => rfl
  | cons e es ih => rw [literalsOf, ih, List.flatMap_cons]

end Expr

namespace Splicing
variable {s : Splicing}

@[simp] theorem literals_node (es : List Expr) :
    (s.node es).literals = es.flatMap Expr.literals := by
  cases s <;> exact Expr.literalsOf_eq_flatMap es

theorem literals_parts (e : Expr) : (s.parts e).flatMap Expr.literals = e.literals := by
  cases hnode : s.isNode e with
  | true =>
    obtain ⟨es, rfl⟩ := exists_eq_node hnode
    rw [parts_node, literals_node]
  | false => rw [parts_of_isNode hnode, List.flatMap_singleton]

/-- Splicing keeps the literals. -/
theorem literals_build (s : Splicing) (es : List Expr) :
    (s.build es).literals = es.flatMap Expr.literals := by
  have hparts : (es.flatMap s.parts).flatMap Expr.literals = es.flatMap Expr.literals := by
    rw [List.flatMap_assoc]
    exact List.flatMap_congr fun e _ => literals_parts e
  by_cases hone : (es.flatMap s.parts).length = 1
  · obtain ⟨e, he⟩ := List.length_eq_one_iff.1 hone
    rw [build_eq_of_singleton he, ← hparts, he, List.flatMap_singleton]
  · rw [build_eq_node hone, literals_node, hparts]

end Splicing

/-- Whether the character may stand outside the literals of a text that says an expression. -/
def isOutside (c : Char) : Bool :=
  (Quote.ofChar? c).isNone && (Reader.isSpace c || Text.isInk c)

/-- From left to right the text has these literals, and characters outside literals around them. -/
inductive HasLiterals : Text → List Literal → Prop
  | nil : HasLiterals [] []
  | char {c : Char} {t : Text} {ls : List Literal} : isOutside c → HasLiterals t ls →
      HasLiterals (c :: t) ls
  | literal {l : Literal} {t : Text} {ls : List Literal} : IsBody '\\' l.quote.char l.body →
      HasLiterals t ls → HasLiterals (l.text ++ t) (l :: ls)

namespace HasLiterals
variable {s t u v : Text} {ks ls : List Literal} {l : Literal}

theorem append (hs : HasLiterals s ks) (ht : HasLiterals t ls) :
    HasLiterals (s ++ t) (ks ++ ls) := by
  induction hs with
  | nil => exact ht
  | char hc _ ih => exact .char hc ih
  | literal hbody _ ih =>
    rw [List.append_assoc]
    exact .literal hbody ih

theorem of_forall (h : ∀ c ∈ t, isOutside c) : HasLiterals t [] := by
  induction t with
  | nil => exact .nil
  | cons c r ih =>
    have hr : HasLiterals r [] := ih fun d hd => h d (List.mem_cons_of_mem c hd)
    exact .char (h c List.mem_cons_self) hr

theorem of_literal (hbody : IsBody '\\' l.quote.char l.body) : HasLiterals l.text [l] := by
  rw [← List.append_nil l.text]
  exact .literal hbody .nil

/-- Each of the literals stands in the text behind the ones before it. -/
theorem exists_of_append (h : HasLiterals t (ks ++ l :: ls)) :
    ∃ u v, t = u ++ l.text ++ v ∧ HasLiterals u ks := by
  generalize hms : ks ++ l :: ls = ms at h
  induction h generalizing ks with
  | nil => cases ks <;> cases hms
  | @char c t ms hc _ ih =>
    obtain ⟨u, v, rfl, hu⟩ := ih hms
    exact ⟨c :: u, v, rfl, .char hc hu⟩
  | @literal k t ms hbody _ ih =>
    cases ks with
    | nil =>
      obtain ⟨rfl, -⟩ := List.cons.inj hms
      exact ⟨[], t, rfl, .nil⟩
    | cons k' ks =>
      obtain ⟨rfl, htail⟩ := List.cons.inj hms
      obtain ⟨u, v, rfl, hu⟩ := ih htail
      exact ⟨k'.text ++ u, v, by simp, .literal hbody hu⟩

theorem ofChar?_of_isOutside {c : Char} (h : isOutside c) : Quote.ofChar? c = none :=
  Option.isNone_iff_eq_none.1 (Bool.and_eq_true_iff.1 h).1

/-- A literal is in one place behind the ones before it. -/
theorem append_inj {u' v' : Text} (hu : HasLiterals u ks) (hu' : HasLiterals u' ks)
    (h : u ++ l.text ++ v = u' ++ l.text ++ v') : u = u' := by
  have hquote {c : Char} {r r' : Text} {k : Literal} (hc : isOutside c)
      (h : c :: r = k.text ++ r') : False := by
    have hnone := ofChar?_of_isOutside hc
    rw [(List.cons.inj h).1, Quote.ofChar?_char] at hnone
    cases hnone
  induction hu generalizing u' with
  | nil =>
    cases hu' with
    | nil => rfl
    | char hc => exact (hquote hc (by simpa using h.symm)).elim
  | char hc _ ih =>
    cases hu' with
    | nil => exact (hquote hc (by simpa using h)).elim
    | char hd hu' =>
      obtain ⟨rfl, htail⟩ := List.cons.inj h
      rw [ih hu' htail]
    | literal => exact (hquote hc (by simpa using h)).elim
  | literal hbody _ ih =>
    cases hu' with
    | char hd => exact (hquote hd (by simpa using h.symm)).elim
    | literal _ hu' =>
      rw [List.append_assoc, List.append_assoc, List.append_assoc, List.append_assoc] at h
      rw [ih hu' (by simpa using List.append_cancel_left h)]

end HasLiterals

/-! ## What a text says -/

theorem isOutside_of_isSpace {c : Char} (h : Reader.isSpace c) : isOutside c := by
  have hplain := isPlain_of_isSpace h
  simp only [Text.isPlain, Bool.and_eq_true] at hplain
  simp [isOutside, h, hplain.1.1]

theorem isOutside_of_isNameRest {c : Char} (h : isNameRest c) : isOutside c := by
  have hplain := isPlain_of_isNameRest h
  simp only [Text.isPlain, Bool.and_eq_true] at hplain
  simp [isOutside, Text.isInk_of_isNameRest h, hplain.1.1]

theorem IsGap.hasLiterals {g : Text} (h : IsGap g) : HasLiterals g [] :=
  .of_forall fun c hc => isOutside_of_isSpace (h c hc)

theorem IsNumber.hasLiterals {t : Text} {n : UInt32} (h : IsNumber t n) : HasLiterals t [] := by
  refine .of_forall fun c hc => isOutside_of_isNameRest ?_
  simp [isNameRest, Char.isAlphanum, h.2.1 c hc]

theorem ListOp.hasLiterals_text (op : ListOp) : HasLiterals op.text [] := by
  have hall : op.text.all isOutside := by obtain ⟨_ | _, _ | _⟩ := op <;> rfl
  exact .of_forall (List.all_eq_true.1 hall)

namespace Says
open Reader (Suffix together)

theorem Many.hasLiterals {α : Type} {item : Text → α → Prop} {f : α → List Literal} {t : Text}
    {as : List α} (h : Many item t as) (hitem : ∀ u a, item u a → HasLiterals u (f a)) :
    HasLiterals t (as.flatMap f) := by
  induction h with
  | nil => exact .nil
  | cons ha _ ih => exact (hitem _ _ ha).append ih

theorem Bounded.hasLiterals {t : Text} {bounds : Bounds} (h : Bounded t bounds) :
    HasLiterals t [] := by
  have hopen {g : Text} (hg : IsGap g) : HasLiterals ('{' :: g) [] := .char rfl hg.hasLiterals
  have hcomma {g : Text} (hg : IsGap g) : HasLiterals (',' :: g) [] := .char rfl hg.hasLiterals
  have hclose : HasLiterals ['}'] [] := .char rfl .nil
  cases h with
  | exactly hg ht hh =>
    exact (((hopen hg).append ht.hasLiterals).append hh.hasLiterals).append hclose
  | atLeast hg ht hh hk =>
    have hmin := ((hopen hg).append ht.hasLiterals).append hh.hasLiterals
    exact (hmin.append (hcomma hk)).append hclose
  | atMost hg hh ht hk =>
    have hmax := ((hopen hg).append (hcomma hh)).append ht.hasLiterals
    exact (hmax.append hk.hasLiterals).append hclose
  | between hg ht hh hk hu hi _ =>
    have hmin := ((hopen hg).append ht.hasLiterals).append hh.hasLiterals
    have hmax := (hmin.append (hcomma hk)).append hu.hasLiterals
    exact (hmax.append hi.hasLiterals).append hclose

theorem Suffixed.hasLiterals {t : Text} {suffix : Suffix} (h : Suffixed t suffix) :
    HasLiterals t [] := by
  cases h with
  | optional hg | star hg | plus hg => exact hg.hasLiterals.append (.char rfl .nil)
  | bounds hg hbounds => exact hg.hasLiterals.append hbounds.hasLiterals

theorem literals_suffixed (e : Expr) (suffixes : List Suffix) :
    (suffixes.foldl Suffix.apply e).literals = e.literals := by
  induction suffixes generalizing e with
  | nil => rfl
  | cons suffix suffixes ih =>
    rw [List.foldl_cons, ih]
    cases suffix <;> rfl

theorem hasLiterals_together {s : Splicing} {t r : Text} {e : Expr} {es : List Expr}
    (ht : HasLiterals t e.literals) (hr : HasLiterals r (es.flatMap Expr.literals)) :
    HasLiterals (t ++ r) (together s.build e es).literals := by
  have hall := ht.append hr
  cases es with
  | nil => rwa [List.flatMap_nil, List.append_nil] at hall
  | cons x es =>
    have hbuild : (together s.build e (x :: es)).literals = _ := s.literals_build (e :: x :: es)
    rwa [hbuild]

section
variable {interior : Text → Expr → Prop}
  (hinterior : ∀ u e, interior u e → HasLiterals u e.literals) {t : Text} {e : Expr}
include hinterior

theorem Primary.hasLiterals (h : Primary interior t e) : HasLiterals t e.literals := by
  cases h with
  | name hname =>
    exact .of_forall fun c hc => isOutside_of_isNameRest (Text.isNameRest_of_mem hname hc)
  | literal hbody => exact .of_literal hbody
  | group hinside =>
    have hgroup := (HasLiterals.char (c := '(') rfl (hinterior _ _ hinside)).append
      (.char (c := ')') rfl .nil)
    rwa [List.append_nil] at hgroup

theorem Operand.hasLiterals (h : Operand interior t e) : HasLiterals t e.literals := by
  cases h with
  | @suffixes _ _ _ suffixes hfirst hsuffixes =>
    have hrest := hsuffixes.hasLiterals (f := fun _ => []) fun _ _ => Suffixed.hasLiterals
    have hnone : suffixes.flatMap (fun _ => ([] : List Literal)) = [] :=
      List.flatMap_eq_nil_iff.2 fun _ _ => rfl
    have hall := (hfirst.hasLiterals hinterior).append hrest
    rwa [hnone, List.append_nil, ← literals_suffixed] at hall
  | @list _ _ _ _ _ _ op hfirst hg hh hbody hk =>
    have hitem := (hfirst.hasLiterals hinterior).append hg.hasLiterals
    have hmark := hitem.append (.char (c := '%') rfl hh.hasLiterals)
    have hseparator := hmark.append (.of_literal hbody)
    have hall := (hseparator.append hk.hasLiterals).append (ListOp.hasLiterals_text op)
    simpa [Expr.literals] using hall

theorem Term.hasLiterals (h : Term interior t e) : HasLiterals t e.literals := by
  induction h with
  | ahead hg _ ih | notAhead hg _ ih => exact (HasLiterals.char rfl hg.hasLiterals).append ih
  | operand h => exact h.hasLiterals hinterior

theorem Joined.hasLiterals (h : Joined interior t e) : HasLiterals t e.literals := by
  cases h with
  | tilde hg hh hterm =>
    exact (hg.hasLiterals.append (.char rfl hh.hasLiterals)).append (hterm.hasLiterals hinterior)
  | gap hg _ hterm => exact hg.hasLiterals.append (hterm.hasLiterals hinterior)

theorem Terms.hasLiterals (h : Terms interior t e) : HasLiterals t e.literals := by
  cases h with
  | row hfirst hothers =>
    exact hasLiterals_together (s := .row) (hfirst.hasLiterals hinterior)
      (hothers.hasLiterals fun _ _ hjoined => hjoined.hasLiterals hinterior)

theorem Barred.hasLiterals (h : Barred interior t e) : HasLiterals t e.literals := by
  cases h with
  | bar hg hh hterms =>
    exact (hg.hasLiterals.append (.char rfl hh.hasLiterals)).append (hterms.hasLiterals hinterior)

theorem Alternatives.hasLiterals (h : Alternatives interior t e) : HasLiterals t e.literals := by
  cases h with
  | plain hfirst hothers =>
    exact hasLiterals_together (s := .choice) (hfirst.hasLiterals hinterior)
      (hothers.hasLiterals fun _ _ hbarred => hbarred.hasLiterals hinterior)
  | barred hg hfirst hothers =>
    have hbar := (HasLiterals.char (c := '|') rfl hg.hasLiterals).append
      (hfirst.hasLiterals hinterior)
    exact hasLiterals_together (s := .choice) hbar
      (hothers.hasLiterals fun _ _ hbarred => hbarred.hasLiterals hinterior)

theorem Whole.hasLiterals (h : Whole interior t e) : HasLiterals t e.literals := by
  cases h with
  | spaced hg halternatives hh =>
    have hall := (hg.hasLiterals.append (halternatives.hasLiterals hinterior)).append hh.hasLiterals
    simpa using hall

end

/-- A text that says an expression has the literals of the expression. -/
theorem hasLiterals {t : Text} {e : Expr} (h : Says t e) : HasLiterals t e.literals :=
  induction (fun _ _ hwhole => hwhole.hasLiterals fun _ _ hinside => hinside.2) h

end Says
end ExtendedBnf
