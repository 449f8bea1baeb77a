import ExtendedBnf.Proofs.TreeLiterals

/-!
# More white space in an expression

A text that says an expression may have more white space wherever it has some in
code, and white space in front of each bar: it still says the expression. What
stands in a literal must stay as it is, so the texts are compared place by place.
-/
namespace ExtendedBnf

/-- The second text is the first one, which goes on at a place, with more white space in code: where
there is some, and in front of bars. -/
inductive Respaced : Place → Text → Text → Prop
  | nil {here : Place} : Respaced here [] []
  | keep {here : Place} {c : Char} {t u : Text} : Respaced (here.next c) t u →
      Respaced here (c :: t) (c :: u)
  | gap {c : Char} {g t u : Text} : Reader.isSpace c → IsGap g → g ≠ [] → Respaced .code t u →
      Respaced .code (c :: t) (g ++ u)
  | bar {g t u : Text} : IsGap g → Respaced .code t u → Respaced .code ('|' :: t) (g ++ '|' :: u)

/-- Whether the character stays alone when a text is respaced, and nothing is put before it. -/
def isFixed (c : Char) : Bool :=
  (Quote.ofChar? c).isNone && !Reader.isSpace c && !(c == '|')

theorem Place.next_of_isSpace {c : Char} (h : Reader.isSpace c) : Place.next .code c = .code := by
  rw [Place.next, HasLiterals.ofChar?_of_isOutside (isOutside_of_isSpace h)]

theorem HasLiterals.after {t : Text} {ls : List Literal} (h : HasLiterals t ls) :
    Place.code.after t = .code := by
  induction h with
  | nil => rfl
  | char hc _ ih => rw [Place.after_cons, Place.next, ofChar?_of_isOutside hc, ih]
  | literal hbody _ ih => rw [Place.after_append, Place.after_literal hbody, ih]

namespace Respaced
variable {here : Place} {s t u v : Text}

theorem refl (t : Text) : Respaced here t t := by
  induction t generalizing here with
  | nil => exact .nil
  | cons c t ih => exact .keep ih

theorem append (h : Respaced here s u) (h' : Respaced (here.after s) t v) :
    Respaced here (s ++ t) (u ++ v) := by
  induction h with
  | nil => exact h'
  | keep _ ih => exact .keep (ih h')
  | gap hc hg hne _ ih =>
    rw [Place.after_cons, Place.next_of_isSpace hc] at h'
    rw [List.append_assoc]
    exact .gap hc hg hne (ih h')
  | bar hg _ ih =>
    rw [List.append_assoc]
    exact .bar hg (ih h')

/-- What is put together is respaced part by part. -/
theorem exists_of_append (h : Respaced here (s ++ t) v) :
    ∃ a b, v = a ++ b ∧ Respaced here s a ∧ Respaced (here.after s) t b := by
  generalize hst : s ++ t = w at h
  induction h generalizing s with
  | nil =>
    obtain ⟨rfl, rfl⟩ := List.append_eq_nil_iff.1 hst
    exact ⟨[], [], rfl, .nil, .nil⟩
  | @keep here c w v h ih =>
    obtain ⟨rfl, rfl⟩ | ⟨s, rfl, rfl⟩ := List.append_eq_cons_iff.1 hst
    · exact ⟨[], c :: v, rfl, .nil, .keep h⟩
    · obtain ⟨a, b, rfl, ha, hb⟩ := ih rfl
      exact ⟨c :: a, b, rfl, .keep ha, hb⟩
  | @gap c g w v hc hg hne h ih =>
    obtain ⟨rfl, rfl⟩ | ⟨s, rfl, rfl⟩ := List.append_eq_cons_iff.1 hst
    · exact ⟨[], g ++ v, rfl, .nil, .gap hc hg hne h⟩
    · obtain ⟨a, b, rfl, ha, hb⟩ := ih rfl
      rw [← Place.next_of_isSpace hc] at hb
      exact ⟨g ++ a, b, by simp, .gap hc hg hne ha, hb⟩
  | @bar g w v hg h ih =>
    obtain ⟨rfl, rfl⟩ | ⟨s, rfl, rfl⟩ := List.append_eq_cons_iff.1 hst
    · exact ⟨[], g ++ '|' :: v, rfl, .nil, .bar hg h⟩
    · obtain ⟨a, b, rfl, ha, hb⟩ := ih rfl
      exact ⟨g ++ '|' :: a, b, by simp, .bar hg ha, hb⟩

theorem exists_of_hasLiterals {ls : List Literal} (hs : HasLiterals s ls)
    (h : Respaced .code (s ++ t) v) :
    ∃ a b, v = a ++ b ∧ Respaced .code s a ∧ Respaced .code t b := by
  have hsplit := h.exists_of_append
  rwa [hs.after] at hsplit

theorem exists_of_cons {c : Char} (hc : isFixed c) (h : Respaced .code (c :: t) v) :
    ∃ u, v = c :: u ∧ Respaced .code t u := by
  simp only [isFixed, Bool.and_eq_true, Option.isNone_iff_eq_none, Bool.not_eq_true',
    beq_eq_false_iff_ne] at hc
  obtain ⟨⟨hquote, hspace⟩, hbar⟩ := hc
  cases h with
  | keep h =>
    rw [Place.next, hquote] at h
    exact ⟨_, rfl, h⟩
  | gap hc =>
    rw [hspace] at hc
    cases hc
  | bar => exact absurd rfl hbar

theorem exists_of_fixed (hs : ∀ c ∈ s, isFixed c) (h : Respaced .code (s ++ t) v) :
    ∃ u, v = s ++ u ∧ Respaced .code t u := by
  induction s generalizing v with
  | nil => exact ⟨v, rfl, h⟩
  | cons c s ih =>
    obtain ⟨w, rfl, hw⟩ := exists_of_cons (hs c List.mem_cons_self) h
    obtain ⟨u, rfl, hu⟩ := ih (fun d hd => hs d (List.mem_cons_of_mem c hd)) hw
    exact ⟨u, rfl, hu⟩

theorem eq_of_fixed (hs : s.all isFixed) (h : Respaced .code s v) : v = s := by
  rw [← List.append_nil s] at h
  obtain ⟨u, rfl, hu⟩ := h.exists_of_fixed (List.all_eq_true.1 hs)
  cases hu
  exact List.append_nil s

theorem exists_of_bar (h : Respaced .code ('|' :: t) v) :
    ∃ g u, v = g ++ '|' :: u ∧ IsGap g ∧ Respaced .code t u := by
  cases h with
  | keep h => exact ⟨[], _, rfl, isGap_nil, h⟩
  | gap hc => cases hc
  | bar hg h => exact ⟨_, _, rfl, hg, h⟩

/-- White space in code stays white space, and does not go. -/
theorem isGap (ht : IsGap t) (h : Respaced .code t v) : IsGap v ∧ (t ≠ [] → v ≠ []) := by
  induction t generalizing v with
  | nil =>
    cases h
    exact ⟨isGap_nil, id⟩
  | cons c t ih =>
    have hc := ht c List.mem_cons_self
    have htail : IsGap t := fun d hd => ht d (List.mem_cons_of_mem c hd)
    cases h with
    | keep h =>
      rw [Place.next_of_isSpace hc] at h
      exact ⟨List.forall_mem_cons.2 ⟨hc, (ih htail h).1⟩, fun _ => List.cons_ne_nil c _⟩
    | gap _ hg hne h =>
      exact ⟨hg.append (ih htail h).1, fun _ hnil => hne (List.append_eq_nil_iff.1 hnil).1⟩
    | bar => cases hc

theorem exists_of_gap (hs : IsGap s) (h : Respaced .code (s ++ t) v) :
    ∃ g u, v = g ++ u ∧ IsGap g ∧ (s ≠ [] → g ≠ []) ∧ Respaced .code t u := by
  obtain ⟨g, u, rfl, hg, hu⟩ := h.exists_of_hasLiterals hs.hasLiterals
  obtain ⟨hgap, hne⟩ := hg.isGap hs
  exact ⟨g, u, rfl, hgap, hne, hu⟩

theorem eq_of_inside {quote : Quote} {body : Text} (hbody : IsBody '\\' quote.char body)
    (h : Respaced (.inside quote) (body ++ [quote.char]) v) : v = body ++ [quote.char] := by
  have hclose : (Place.inside quote).next quote.char = .code := by
    simp [Place.next, quote.char_ne_backslash]
  induction hbody generalizing v with
  | nil =>
    cases h with
    | keep h =>
      rw [hclose] at h
      cases h
      rfl
  | pair a _ ih =>
    cases h with
    | keep h =>
      rw [Place.next, if_pos rfl] at h
      cases h with
      | keep h => rw [ih h]; rfl
  | plain he hc _ ih =>
    cases h with
    | keep h =>
      rw [Place.next, if_neg he, if_neg hc] at h
      rw [ih h]
      rfl

theorem exists_of_quote {quote : Quote} (h : Respaced .code (quote.char :: t) v) :
    ∃ u, v = quote.char :: u ∧ Respaced (.inside quote) t u := by
  rw [← Place.next_char]
  cases quote <;> cases h with
  | keep h => exact ⟨_, rfl, h⟩
  | gap hc => cases hc

theorem exists_of_literal {l : Literal} (hbody : IsBody '\\' l.quote.char l.body)
    (h : Respaced .code (l.text ++ t) v) : ∃ u, v = l.text ++ u ∧ Respaced .code t u := by
  obtain ⟨a, u, rfl, ha, hu⟩ := h.exists_of_hasLiterals (.of_literal hbody)
  obtain ⟨b, rfl, hb⟩ := ha.exists_of_quote
  rw [eq_of_inside hbody hb]
  exact ⟨u, rfl, hu⟩

end Respaced

/-! ## What respaced texts say -/

theorem isFixed_of_isNameRest {c : Char} (h : isNameRest c) : isFixed c := by
  have hplain := isPlain_of_isNameRest h
  simp only [Text.isPlain, Bool.and_eq_true] at hplain
  have hspace := Reader.apart_isSpace_isNameRest.symm c h
  have hbar : c ≠ '|' := by
    rintro rfl
    cases h
  simp [isFixed, hplain.1.1, hspace, hbar]

theorem all_isFixed_of_isName {t : Text} (h : t.isName) : t.all isFixed :=
  List.all_eq_true.2 fun _ hc => isFixed_of_isNameRest (Text.isNameRest_of_mem h hc)

theorem IsNumber.isFixed {t : Text} {n : UInt32} (h : IsNumber t n) : ∀ c ∈ t, isFixed c := by
  refine fun c hc => isFixed_of_isNameRest ?_
  simp [isNameRest, Char.isAlphanum, h.2.1 c hc]

theorem ListOp.all_isFixed_text (op : ListOp) : op.text.all isFixed := by
  obtain ⟨_ | _, _ | _⟩ := op <;> rfl

namespace Says
open Reader (Suffix)

theorem Many.respaced {α : Type} {p q : Text → α → Prop} {f : α → List Literal} {t v : Text}
    {as : List α} (hp : Many p t as) (hliterals : ∀ u a, p u a → HasLiterals u (f a))
    (hitem : ∀ u v a, p u a → Respaced .code u v → q v a) (h : Respaced .code t v) :
    Many q v as := by
  induction hp generalizing v with
  | nil =>
    cases h
    exact .nil
  | cons ha _ ih =>
    obtain ⟨x, y, rfl, hx, hy⟩ := h.exists_of_hasLiterals (hliterals _ _ ha)
    exact .cons (hitem _ _ _ ha hx) (ih hy)

theorem Bounded.respaced {t v : Text} {bounds : Bounds} (hb : Bounded t bounds)
    (h : Respaced .code t v) : Bounded v bounds := by
  cases hb with
  | exactly hg ht hh =>
    simp only [List.cons_append, List.append_assoc] at h
    obtain ⟨v, rfl, h₁⟩ := h.exists_of_cons rfl
    obtain ⟨g, v, rfl, hg, -, h₂⟩ := h₁.exists_of_gap hg
    obtain ⟨v, rfl, h₃⟩ := h₂.exists_of_fixed ht.isFixed
    obtain ⟨i, v, rfl, hi, -, h₄⟩ := h₃.exists_of_gap hh
    rw [h₄.eq_of_fixed rfl]
    simpa using Bounded.exactly hg ht hi
  | atLeast hg ht hh hk =>
    simp only [List.cons_append, List.append_assoc] at h
    obtain ⟨v, rfl, h₁⟩ := h.exists_of_cons rfl
    obtain ⟨g, v, rfl, hg, -, h₂⟩ := h₁.exists_of_gap hg
    obtain ⟨v, rfl, h₃⟩ := h₂.exists_of_fixed ht.isFixed
    obtain ⟨i, v, rfl, hi, -, h₄⟩ := h₃.exists_of_gap hh
    obtain ⟨v, rfl, h₅⟩ := h₄.exists_of_cons rfl
    obtain ⟨k, v, rfl, hk, -, h₆⟩ := h₅.exists_of_gap hk
    rw [h₆.eq_of_fixed rfl]
    simpa using Bounded.atLeast hg ht hi hk
  | atMost hg hh ht hk =>
    simp only [List.cons_append, List.append_assoc] at h
    obtain ⟨v, rfl, h₁⟩ := h.exists_of_cons rfl
    obtain ⟨g, v, rfl, hg, -, h₂⟩ := h₁.exists_of_gap hg
    obtain ⟨v, rfl, h₃⟩ := h₂.exists_of_cons rfl
    obtain ⟨i, v, rfl, hi, -, h₄⟩ := h₃.exists_of_gap hh
    obtain ⟨v, rfl, h₅⟩ := h₄.exists_of_fixed ht.isFixed
    obtain ⟨k, v, rfl, hk, -, h₆⟩ := h₅.exists_of_gap hk
    rw [h₆.eq_of_fixed rfl]
    simpa using Bounded.atMost hg hi ht hk
  | between hg ht hh hk hu hi hle =>
    simp only [List.cons_append, List.append_assoc] at h
    obtain ⟨v, rfl, h₁⟩ := h.exists_of_cons rfl
    obtain ⟨g, v, rfl, hg, -, h₂⟩ := h₁.exists_of_gap hg
    obtain ⟨v, rfl, h₃⟩ := h₂.exists_of_fixed ht.isFixed
    obtain ⟨i, v, rfl, hh, -, h₄⟩ := h₃.exists_of_gap hh
    obtain ⟨v, rfl, h₅⟩ := h₄.exists_of_cons rfl
    obtain ⟨k, v, rfl, hk, -, h₆⟩ := h₅.exists_of_gap hk
    obtain ⟨v, rfl, h₇⟩ := h₆.exists_of_fixed hu.isFixed
    obtain ⟨j, v, rfl, hj, -, h₈⟩ := h₇.exists_of_gap hi
    rw [h₈.eq_of_fixed rfl]
    simpa using Bounded.between hg ht hh hk hu hj hle

theorem Suffixed.respaced {t v : Text} {suffix : Suffix} (hs : Suffixed t suffix)
    (h : Respaced .code t v) : Suffixed v suffix := by
  cases hs with
  | optional hg =>
    obtain ⟨k, v, rfl, hk, -, h₁⟩ := h.exists_of_gap hg
    rw [h₁.eq_of_fixed rfl]
    exact .optional hk
  | star hg =>
    obtain ⟨k, v, rfl, hk, -, h₁⟩ := h.exists_of_gap hg
    rw [h₁.eq_of_fixed rfl]
    exact .star hk
  | plus hg =>
    obtain ⟨k, v, rfl, hk, -, h₁⟩ := h.exists_of_gap hg
    rw [h₁.eq_of_fixed rfl]
    exact .plus hk
  | bounds hg hbounds =>
    obtain ⟨k, v, rfl, hk, -, h₁⟩ := h.exists_of_gap hg
    exact .bounds hk (hbounds.respaced h₁)

section
variable {interior other : Text → Expr → Prop}
  (hliterals : ∀ u e, interior u e → HasLiterals u e.literals)
  (hinterior : ∀ u v e, interior u e → Respaced .code u v → other v e) {t v : Text} {e : Expr}
include hliterals hinterior

theorem Primary.respaced (hp : Primary interior t e) (h : Respaced .code t v) :
    Primary other v e := by
  cases hp with
  | name hname =>
    rw [h.eq_of_fixed (all_isFixed_of_isName hname)]
    exact .name hname
  | @literal l hbody =>
    rw [← List.append_nil l.text] at h
    obtain ⟨u, rfl, hu⟩ := h.exists_of_literal hbody
    cases hu
    rw [List.append_nil]
    exact .literal hbody
  | group hinside =>
    rw [List.cons_append] at h
    obtain ⟨v, rfl, h₁⟩ := h.exists_of_cons rfl
    obtain ⟨u, w, rfl, hu, hw⟩ := h₁.exists_of_hasLiterals (hliterals _ _ hinside)
    rw [hw.eq_of_fixed rfl]
    exact .group (hinterior _ _ _ hinside hu)

theorem Operand.respaced (ho : Operand interior t e) (h : Respaced .code t v) :
    Operand other v e := by
  cases ho with
  | suffixes hfirst hsuffixes =>
    obtain ⟨x, y, rfl, hx, hy⟩ := h.exists_of_hasLiterals (hfirst.hasLiterals hliterals)
    have hrest := hsuffixes.respaced (fun _ _ => Suffixed.hasLiterals)
      (fun _ _ _ hsuffix => hsuffix.respaced) hy
    exact .suffixes (hfirst.respaced hliterals hinterior hx) hrest
  | @list _ _ _ _ e l op hfirst hg hh hbody hk =>
    simp only [List.cons_append, List.append_assoc] at h
    obtain ⟨x, v, rfl, hx, h₁⟩ := h.exists_of_hasLiterals (hfirst.hasLiterals hliterals)
    obtain ⟨g, v, rfl, hg, -, h₂⟩ := h₁.exists_of_gap hg
    obtain ⟨v, rfl, h₃⟩ := h₂.exists_of_cons rfl
    obtain ⟨i, v, rfl, hi, -, h₄⟩ := h₃.exists_of_gap hh
    obtain ⟨v, rfl, h₅⟩ := h₄.exists_of_literal hbody
    obtain ⟨k, v, rfl, hk, -, h₆⟩ := h₅.exists_of_gap hk
    rw [h₆.eq_of_fixed op.all_isFixed_text]
    have hlist : Operand other (x ++ g ++ '%' :: i ++ l.text ++ k ++ op.text) (.list e l op) :=
      .list (hfirst.respaced hliterals hinterior hx) hg hi hbody hk
    simpa using hlist

theorem Term.respaced (ht : Term interior t e) (h : Respaced .code t v) : Term other v e := by
  induction ht generalizing v with
  | ahead hg _ ih =>
    simp only [List.cons_append] at h
    obtain ⟨v, rfl, h₁⟩ := h.exists_of_cons rfl
    obtain ⟨k, v, rfl, hk, -, h₂⟩ := h₁.exists_of_gap hg
    exact .ahead hk (ih h₂)
  | notAhead hg _ ih =>
    simp only [List.cons_append] at h
    obtain ⟨v, rfl, h₁⟩ := h.exists_of_cons rfl
    obtain ⟨k, v, rfl, hk, -, h₂⟩ := h₁.exists_of_gap hg
    exact .notAhead hk (ih h₂)
  | operand ho => exact .operand (ho.respaced hliterals hinterior h)

theorem Joined.respaced (hj : Joined interior t e) (h : Respaced .code t v) :
    Joined other v e := by
  cases hj with
  | tilde hg hh hterm =>
    simp only [List.cons_append, List.append_assoc] at h
    obtain ⟨g, v, rfl, hg, -, h₁⟩ := h.exists_of_gap hg
    obtain ⟨v, rfl, h₂⟩ := h₁.exists_of_cons rfl
    obtain ⟨k, v, rfl, hk, -, h₃⟩ := h₂.exists_of_gap hh
    simpa using Joined.tilde hg hk (hterm.respaced hliterals hinterior h₃)
  | gap hg hne hterm =>
    obtain ⟨g, v, rfl, hg, hmore, h₁⟩ := h.exists_of_gap hg
    exact .gap hg (hmore hne) (hterm.respaced hliterals hinterior h₁)

theorem Terms.respaced (ht : Terms interior t e) (h : Respaced .code t v) : Terms other v e := by
  cases ht with
  | row hfirst hothers =>
    obtain ⟨x, y, rfl, hx, hy⟩ := h.exists_of_hasLiterals (hfirst.hasLiterals hliterals)
    have hrest := hothers.respaced (fun _ _ hjoined => hjoined.hasLiterals hliterals)
      (fun _ _ _ hjoined => hjoined.respaced hliterals hinterior) hy
    exact .row (hfirst.respaced hliterals hinterior hx) hrest

theorem Barred.respaced (hb : Barred interior t e) (h : Respaced .code t v) :
    Barred other v e := by
  cases hb with
  | bar hg hh hterms =>
    simp only [List.cons_append, List.append_assoc] at h
    obtain ⟨g, v, rfl, hg, -, h₁⟩ := h.exists_of_gap hg
    obtain ⟨i, v, rfl, hi, h₂⟩ := h₁.exists_of_bar
    obtain ⟨k, v, rfl, hk, -, h₃⟩ := h₂.exists_of_gap hh
    simpa using Barred.bar (hg.append hi) hk (hterms.respaced hliterals hinterior h₃)

/-- White space that is put in front of a first bar belongs to what is around the alternatives. -/
theorem Alternatives.respaced (ha : Alternatives interior t e) (h : Respaced .code t v) :
    ∃ g u, v = g ++ u ∧ IsGap g ∧ Alternatives other u e := by
  have hmany {r w : Text} {es : List Expr} (hothers : Many (Barred interior) r es)
      (hw : Respaced .code r w) : Many (Barred other) w es :=
    hothers.respaced (fun _ _ hbarred => hbarred.hasLiterals hliterals)
      (fun _ _ _ hbarred => hbarred.respaced hliterals hinterior) hw
  cases ha with
  | plain hfirst hothers =>
    obtain ⟨x, y, rfl, hx, hy⟩ := h.exists_of_hasLiterals (hfirst.hasLiterals hliterals)
    exact ⟨[], x ++ y, rfl, isGap_nil,
      .plain (hfirst.respaced hliterals hinterior hx) (hmany hothers hy)⟩
  | barred hg hfirst hothers =>
    simp only [List.cons_append, List.append_assoc] at h
    obtain ⟨i, v, rfl, hi, h₁⟩ := h.exists_of_bar
    obtain ⟨k, v, rfl, hk, -, h₂⟩ := h₁.exists_of_gap hg
    obtain ⟨x, y, rfl, hx, hy⟩ := h₂.exists_of_hasLiterals (hfirst.hasLiterals hliterals)
    refine ⟨i, '|' :: (k ++ (x ++ y)), rfl, hi, ?_⟩
    simpa using Alternatives.barred hk (hfirst.respaced hliterals hinterior hx) (hmany hothers hy)

theorem Whole.respaced (hw : Whole interior t e) (h : Respaced .code t v) : Whole other v e := by
  cases hw with
  | spaced hg halternatives hh =>
    rw [List.append_assoc] at h
    obtain ⟨g, v, rfl, hg, -, h₁⟩ := h.exists_of_gap hg
    obtain ⟨x, y, rfl, hx, hy⟩ := h₁.exists_of_hasLiterals (halternatives.hasLiterals hliterals)
    obtain ⟨i, u, rfl, hi, hu⟩ := halternatives.respaced hliterals hinterior hx
    simpa using Whole.spaced (hg.append hi) hu (hy.isGap hh).1

end

/-- What a text says a respaced text says as well. -/
theorem respaced {t v : Text} {e : Expr} (hs : Says t e) (h : Respaced .code t v) : Says v e := by
  refine Says.induction (motive := fun t e => ∀ v, Respaced .code t v → Says v e)
    (fun t e hwhole v h => ?_) hs v h
  exact .whole (hwhole.respaced (fun _ _ hu => hu.1.hasLiterals) (fun _ v _ hu => hu.2 v) h)

end Says
end ExtendedBnf
