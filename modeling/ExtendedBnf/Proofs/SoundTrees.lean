import ExtendedBnf.Naming
import ExtendedBnf.Proofs.ExprGrammar
import ExtendedBnf.Proofs.Forms
import ExtendedBnf.Proofs.Pieces

/-!
# Trees that stay sound

What a text says is a normal tree, since its parts are spliced when they are put
together. A condition on nodes that looks at each node alone is kept by a transform
if what it puts in satisfies the condition, and so by lowering. In Pascal case and
with single quotes names are words and literals whole as before.
-/
namespace ExtendedBnf

namespace Expr
variable {p : Expr → Bool} {q : Literal → Bool} {e : Expr}

/-- A node without parts. -/
theorem all_leaf (hchildren : e.children = []) : e.All p ↔ p e := by
  rw [all_iff, hchildren]
  exact and_iff_left (List.forall_mem_nil _)

/-- A node that has one part and satisfies the condition in itself. -/
theorem all_node {c : Expr} (h : p e) (hchildren : e.children = [c]) : e.All p ↔ c.All p := by
  rw [all_iff, hchildren, List.forall_mem_singleton]
  exact and_iff_right h

@[simp] theorem all_isSound_name {n : Text} : (name n).All (isSound q) ↔ n.isWord := all_leaf rfl

@[simp] theorem all_isSound_literal {l : Literal} :
    (literal l).All (isSound q) ↔ l.isWhole ∧ q l := (all_leaf rfl).trans Bool.and_eq_true_iff

@[simp] theorem all_isSound_plus : (plus e).All (isSound q) ↔ e.All (isSound q) := all_node rfl rfl

@[simp] theorem all_isSound_repeated {bounds : Bounds} :
    (repeated e bounds).All (isSound q) ↔ e.All (isSound q) := all_node rfl rfl

end Expr

namespace Expr

/-- A condition on nodes that asks of sequences and choices that there is nothing to splice, and
nothing of the nodes that every transform leaves alone. -/
structure Settles (p : Expr → Bool) : Prop where
  settled : ∀ e, p e → e.isSettled
  node : ∀ (s : Splicing) es, (s.node es).isSettled → p (s.node es)
  optional : ∀ e, p (optional e)
  star : ∀ e, p (star e)
  ahead : ∀ e, p (ahead e)
  notAhead : ∀ e, p (notAhead e)

variable {p : Expr → Bool} {e : Expr}

theorem settles_isSound (q : Literal → Bool) : Settles (isSound q) :=
  ⟨fun _ => isSettled_of_isSound, fun s _ h => by cases s <;> exact h, fun _ => rfl, fun _ => rfl,
    fun _ => rfl, fun _ => rfl⟩

theorem settles_isNormal : Settles isNormal := by
  refine ⟨fun _ h => (Bool.and_eq_true_iff.1 h).2, fun s es h => ?_, fun _ => rfl, fun _ => rfl,
    fun _ => rfl, fun _ => rfl⟩
  refine Bool.and_eq_true_iff.2 ⟨?_, h⟩
  cases es with
  | nil => cases s <;> cases h
  | cons e es => cases s <;> rfl

theorem Settles.ne_nil (h : Settles p) {s : Splicing} {es : List Expr} (hnode : p (s.node es)) :
    es ≠ [] := by
  have hsettled := h.settled _ hnode
  rintro rfl
  cases s <;> cases hsettled

end Expr

namespace Splicing
variable {s : Splicing} {p : Expr → Bool} {es : List Expr}

/-- Splicing parts of which all nodes satisfy such a condition gives a tree of such nodes. -/
theorem all_build (hp : Expr.Settles p) (h : ∀ e ∈ es, e.All p) (hne : es ≠ []) :
    (s.build es).All p := by
  have hspliced : ∀ e ∈ es, e.IsSpliced := fun e he => (h e he).imp hp.settled
  have hparts {c : Expr} (hc : c ∈ es.flatMap s.parts) : c.All p := by
    obtain ⟨e, he, hce⟩ := List.mem_flatMap.1 hc
    cases hnode : s.isNode e with
    | true =>
      obtain ⟨fs, rfl⟩ := exists_eq_node hnode
      rw [parts_node] at hce
      exact (Expr.all_iff.1 (h _ he)).2 c (by cases s <;> exact hce)
    | false =>
      rw [parts_of_isNode hnode, List.mem_singleton] at hce
      rw [hce]
      exact h e he
  by_cases hone : (es.flatMap s.parts).length = 1
  · obtain ⟨c, hc⟩ := List.length_eq_one_iff.1 hone
    rw [build_eq_of_singleton hc]
    exact hparts (by simp [hc])
  · have hbuilt : (s.build es).IsSpliced := isSpliced_build hspliced hne
    rw [build_eq_node hone] at hbuilt ⊢
    have hsettled := hp.node s _ (Expr.all_iff.1 hbuilt).1
    cases s <;> exact Expr.all_iff.2 ⟨hsettled, fun c hc => hparts hc⟩

end Splicing

/-! ## What a text says -/

/-- The tree is sound, whatever its literals look like. -/
abbrev Expr.Sound (e : Expr) : Prop := e.All (Expr.isSound fun _ => true)

theorem Expr.Normal.sound {e : Expr} (h : e.Normal) : e.Sound :=
  h.imp fun _ hnode =>
    isSound_of_isReadable (Bool.and_eq_true_iff.1 hnode).1 (Bool.and_eq_true_iff.1 hnode).2
      fun _ _ => rfl

namespace Says
open ExtendedBnf.Expr (all_leaf all_node settles_isNormal)
open Reader (Suffix together)

theorem Many.forall {α : Type} {item : Text → α → Prop} {p : α → Prop} {t : Text} {as : List α}
    (h : Many item t as) (himp : ∀ u a, item u a → p a) : ∀ a ∈ as, p a := by
  induction h with
  | nil => exact fun _ ha => absurd ha List.not_mem_nil
  | cons ha _ ih => exact List.forall_mem_cons.2 ⟨himp _ _ ha, ih⟩

theorem Bounded.isProper {t : Text} {bounds : Bounds} (h : Bounded t bounds) :
    bounds.isProper := by
  cases h with
  | @exactly _ _ _ n => exact decide_eq_true (UInt32.le_refl n)
  | atLeast | atMost => rfl
  | between _ _ _ _ _ _ hle => exact decide_eq_true hle

theorem normal_suffixed {t : Text} {suffix : Suffix} (h : Suffixed t suffix) {e : Expr}
    (he : e.Normal) : (suffix.apply e).Normal := by
  cases h with
  | optional | star | plus => exact (all_node rfl rfl).2 he
  | bounds _ hbounds =>
    exact (all_node (Bool.and_eq_true_iff.2 ⟨hbounds.isProper, rfl⟩) rfl).2 he

theorem normal_together {s : Splicing} {e : Expr} {es : List Expr} (he : e.Normal)
    (hes : ∀ x ∈ es, x.Normal) : (together s.build e es).Normal := by
  cases es with
  | nil => exact he
  | cons x es =>
    exact Splicing.all_build settles_isNormal (List.forall_mem_cons.2 ⟨he, hes⟩)
      (List.cons_ne_nil e _)

section
variable {interior : Text → Expr → Prop} (hinterior : ∀ u e, interior u e → e.Normal) {t : Text}
  {e : Expr}
include hinterior

theorem normal_primary (h : Primary interior t e) : e.Normal := by
  cases h with
  | name hname => exact (all_leaf rfl).2 (Bool.and_eq_true_iff.2 ⟨hname, rfl⟩)
  | literal hbody =>
    exact (all_leaf rfl).2 (Bool.and_eq_true_iff.2 ⟨Literal.isWhole_iff.2 hbody, rfl⟩)
  | group hinside => exact hinterior _ _ hinside

theorem normal_operand (h : Operand interior t e) : e.Normal := by
  cases h with
  | @suffixes _ _ e _ hfirst hsuffixes =>
    have he := normal_primary hinterior hfirst
    clear hfirst
    induction hsuffixes generalizing e with
    | nil => exact he
    | cons hsuffix _ ih => exact ih (normal_suffixed hsuffix he)
  | list hfirst _ _ hbody _ =>
    have hwhole := Literal.isWhole_iff.2 hbody
    exact (all_node (Bool.and_eq_true_iff.2 ⟨hwhole, rfl⟩) rfl).2 (normal_primary hinterior hfirst)

theorem normal_term (h : Term interior t e) : e.Normal := by
  induction h with
  | ahead _ _ ih | notAhead _ _ ih => exact (all_node rfl rfl).2 ih
  | operand h => exact normal_operand hinterior h

theorem normal_terms (h : Terms interior t e) : e.Normal := by
  cases h with
  | row hfirst hothers =>
    refine normal_together (s := .row) (normal_term hinterior hfirst) (hothers.forall ?_)
    rintro u x (⟨-, -, hx⟩ | ⟨-, -, hx⟩) <;> exact normal_term hinterior hx

theorem normal_alternatives (h : Alternatives interior t e) : e.Normal := by
  have hbarred (u : Text) (x : Expr) (h : Barred interior u x) : x.Normal := by
    cases h with
    | bar _ _ hx => exact normal_terms hinterior hx
  cases h with
  | plain hfirst hothers | barred _ hfirst hothers =>
    exact normal_together (s := .choice) (normal_terms hinterior hfirst) (hothers.forall hbarred)

end

/-- What a text says is normal. -/
theorem normal {t : Text} {e : Expr} (h : Says t e) : e.Normal := by
  refine Says.induction (motive := fun _ e => e.Normal) (fun t e h => ?_) h
  cases h with
  | spaced _ h _ => exact normal_alternatives (fun _ _ h => h.2) h

end Says

/-! ## What transforms leave sound -/

namespace Transform
variable {t : Transform} {p r : Expr → Bool}

/-- All nodes satisfy such a condition after a transform if what it puts in does and no node is
without parts. -/
theorem all_apply (hr : Expr.Settles r) (hnode : ∀ (s : Splicing) es, p (s.node es) → es ≠ [])
    (hname : ∀ n, p (.name n) → (t.name n).All r)
    (hliteral : ∀ l, p (.literal l) → (t.literal l).All r)
    (hplus : ∀ e, e.All r → (t.plus e).All r)
    (hrepeated : ∀ e bounds body, p (.repeated body bounds) → e.All r →
      (t.repeated e bounds).All r)
    (hlist : ∀ e separator op item, p (.list item separator op) → e.All r →
      (t.list e separator op).All r)
    {e : Expr} (h : e.All p) : (t.apply e).All r := by
  have hbuild {s : Splicing} {es : List Expr} (h : p (s.node es))
      (hes : ∀ e ∈ es, (t.apply e).All r) : (s.build (es.map t.apply)).All r := by
    refine Splicing.all_build hr (List.forall_mem_map.2 hes) ?_
    exact fun hnil => hnode s es h (List.map_eq_nil_iff.1 hnil)
  have hwhole {e c : Expr} (he : r e) (hchildren : e.children = [c]) (hc : c.All r) : e.All r := by
    refine Expr.all_iff.2 ⟨he, ?_⟩
    rw [hchildren]
    exact List.forall_mem_singleton.2 hc
  induction e with
  | name n => exact hname n (Expr.all_iff.1 h).1
  | literal l => exact hliteral l (Expr.all_iff.1 h).1
  | seq es ih =>
    obtain ⟨hhere, hes⟩ := Expr.all_iff.1 h
    rw [apply, applyAll_eq_map]
    exact hbuild (s := .row) hhere fun e he => ih e he (hes e he)
  | alt es ih =>
    obtain ⟨hhere, hes⟩ := Expr.all_iff.1 h
    rw [apply, applyAll_eq_map]
    exact hbuild (s := .choice) hhere fun e he => ih e he (hes e he)
  | optional e ih =>
    have he := ih ((Expr.all_iff.1 h).2 e List.mem_cons_self)
    exact hwhole (hr.optional (t.apply e)) rfl he
  | star e ih =>
    have he := ih ((Expr.all_iff.1 h).2 e List.mem_cons_self)
    exact hwhole (hr.star (t.apply e)) rfl he
  | ahead e ih =>
    have he := ih ((Expr.all_iff.1 h).2 e List.mem_cons_self)
    exact hwhole (hr.ahead (t.apply e)) rfl he
  | notAhead e ih =>
    have he := ih ((Expr.all_iff.1 h).2 e List.mem_cons_self)
    exact hwhole (hr.notAhead (t.apply e)) rfl he
  | plus e ih => exact hplus _ (ih ((Expr.all_iff.1 h).2 e List.mem_cons_self))
  | repeated e bounds ih =>
    obtain ⟨hhere, hparts⟩ := Expr.all_iff.1 h
    exact hrepeated _ bounds e hhere (ih (hparts e List.mem_cons_self))
  | list e separator op ih =>
    obtain ⟨hhere, hparts⟩ := Expr.all_iff.1 h
    exact hlist _ separator op e hhere (ih (hparts e List.mem_cons_self))

end Transform

namespace Expr

/-- Such a condition that looks at a node alone: not at its part if it has one part, and at a
separator as at a literal. -/
structure IsLocal (p : Expr → Bool) : Prop extends Settles p where
  plus : ∀ e, p (plus e)
  repeated : ∀ e body bounds, p (repeated body bounds) → p (repeated e bounds)
  list : ∀ e item separator op, p (list item separator op) → p (list e separator op)
  separator : ∀ item separator op, p (Expr.list item separator op) → p (literal separator)

theorem isLocal_isSound (q : Literal → Bool) : IsLocal (isSound q) where
  toSettles := settles_isSound q
  plus _ := rfl
  repeated _ _ _ h := h
  list _ _ _ _ h := h
  separator _ _ _ h := h

theorem isLocal_isNormal : IsLocal isNormal where
  toSettles := settles_isNormal
  plus _ := rfl
  repeated _ _ _ h := h
  list _ _ _ _ h := h
  separator _ _ _ h := h

namespace IsLocal
variable {p : Expr → Bool} (hp : IsLocal p) {e : Expr}
include hp

/-- A transform that puts in names and literals that satisfy the condition keeps it, if it does so
where it replaces repetitions and lists. -/
theorem all_apply {t : Transform} (hname : ∀ n, p (name n) → (t.name n).All p)
    (hliteral : ∀ l, p (literal l) → (t.literal l).All p)
    (hplus : ∀ e, (Expr.plus e).All p → (t.plus e).All p)
    (hrepeated : ∀ e bounds, (Expr.repeated e bounds).All p → (t.repeated e bounds).All p)
    (hlist : ∀ e separator op, (Expr.list e separator op).All p → (t.list e separator op).All p)
    (h : e.All p) : (t.apply e).All p := by
  refine Transform.all_apply hp.toSettles (fun _ _ => hp.ne_nil) hname hliteral (fun e he => ?_)
    (fun e bounds body hbody he => ?_) (fun e separator op item hitem he => ?_) h
  · exact hplus e ((all_node (hp.plus e) rfl).2 he)
  · exact hrepeated e bounds ((all_node (hp.repeated e body bounds hbody) rfl).2 he)
  · exact hlist e separator op ((all_node (hp.list e item separator op hitem) rfl).2 he)

theorem all_sequence_pair {a b : Expr} (ha : a.All p) (hb : b.All p) :
    (sequence [a, b]).All p :=
  Splicing.all_build (s := .row) hp.toSettles (by simp [ha, hb]) (by simp)

theorem all_spelledOut {item : Expr} {separator : Literal} {op : ListOp}
    (h : (Expr.list item separator op).All p) : (spelledOut item separator op).All p := by
  obtain ⟨hhere, hparts⟩ := all_iff.1 h
  have hitem : item.All p := hparts item List.mem_cons_self
  have hliteral : (literal separator).All p :=
    (all_leaf rfl).2 (hp.separator item separator op hhere)
  have hoptional {e : Expr} (he : e.All p) : (Expr.optional e).All p :=
    (all_node (hp.optional e) rfl).2 he
  have hpairs : (Expr.star (sequence [item, literal separator])).All p :=
    (all_node (hp.star _) rfl).2 (hp.all_sequence_pair hitem hliteral)
  have hlast : (sequence [item, Expr.optional (literal separator)]).All p :=
    hp.all_sequence_pair hitem (hoptional hliteral)
  unfold spelledOut
  dsimp only
  split_ifs
  · exact hp.all_sequence_pair hpairs hlast
  · exact hp.all_sequence_pair hpairs (hoptional hlast)
  · exact hp.all_sequence_pair hpairs hitem
  · exact hoptional (hp.all_sequence_pair hpairs hitem)

theorem all_withoutLists (h : e.All p) : e.withoutLists.All p :=
  hp.all_apply (fun _ => (all_leaf rfl).2) (fun _ => (all_leaf rfl).2) (fun _ => id) (fun _ _ => id)
    (fun _ _ _ => hp.all_spelledOut) h

theorem all_withoutPlus (h : e.All p) : e.withoutPlus.All p := by
  refine hp.all_apply (fun _ => (all_leaf rfl).2) (fun _ => (all_leaf rfl).2) (fun e he => ?_)
    (fun _ _ => id) (fun _ _ _ => id) h
  have hbody : e.All p := (all_iff.1 he).2 e List.mem_cons_self
  exact hp.all_sequence_pair hbody ((all_node (hp.star e) rfl).2 hbody)

theorem all_withoutBounds (h : e.All p) : e.withoutBounds.All p := by
  refine hp.all_apply (fun _ => (all_leaf rfl).2) (fun _ => (all_leaf rfl).2) (fun _ => id)
    (fun e bounds he => ?_) (fun _ _ _ => id) h
  exact (all_node (hp.star e) rfl).2 ((all_iff.1 he).2 e List.mem_cons_self)

/-- What is left without predicates satisfies the condition. -/
theorem all_withoutPredicates (h : e.All p) {k : Expr} (hk : e.withoutPredicates = some k) :
    k.All p := by
  have hkept {s : Splicing} {es : List Expr} (hes : ∀ e ∈ es, ∀ k, e.withoutPredicates = some k →
      k.All p) (hne : es.filterMap withoutPredicates ≠ []) :
      (s.build (es.filterMap withoutPredicates)).All p := by
    refine Splicing.all_build hp.toSettles (fun k hk => ?_) hne
    obtain ⟨e, he, hrest⟩ := List.mem_filterMap.1 hk
    exact hes e he k hrest
  induction e generalizing k with
  | name n | literal l =>
    rw [withoutPredicates] at hk
    cases hk
    exact h
  | seq es ih =>
    have hes := (all_iff.1 h).2
    rw [withoutPredicates, withoutPredicatesAll_eq_map, List.filterMap_map] at hk
    split at hk
    · cases hk
    next hne =>
      cases hk
      exact hkept (s := .row) (fun e he k => ih e he (hes e he)) hne
  | alt es ih =>
    have hes := (all_iff.1 h).2
    rw [withoutPredicates, withoutPredicatesAll_eq_map, List.filterMap_map] at hk
    split at hk
    · cases hk
    next hne =>
      have hchoice := hkept (s := .choice) (fun e he k => ih e he (hes e he)) hne
      split at hk
      · cases hk
        exact (all_node (hp.optional _) rfl).2 hchoice
      · cases hk
        exact hchoice
  | ahead e | notAhead e =>
    rw [withoutPredicates] at hk
    cases hk
  | optional e ih =>
    rw [withoutPredicates, Option.map_eq_some_iff] at hk
    obtain ⟨k, hk, rfl⟩ := hk
    exact (all_node (hp.optional k) rfl).2 (ih ((all_iff.1 h).2 e List.mem_cons_self) hk)
  | star e ih =>
    rw [withoutPredicates, Option.map_eq_some_iff] at hk
    obtain ⟨k, hk, rfl⟩ := hk
    exact (all_node (hp.star k) rfl).2 (ih ((all_iff.1 h).2 e List.mem_cons_self) hk)
  | plus e ih =>
    rw [withoutPredicates, Option.map_eq_some_iff] at hk
    obtain ⟨k, hk, rfl⟩ := hk
    exact (all_node (hp.plus k) rfl).2 (ih ((all_iff.1 h).2 e List.mem_cons_self) hk)
  | repeated e bounds ih =>
    rw [withoutPredicates, Option.map_eq_some_iff] at hk
    obtain ⟨k, hk, rfl⟩ := hk
    obtain ⟨hhere, hparts⟩ := all_iff.1 h
    exact (all_node (hp.repeated k e bounds hhere) rfl).2 (ih (hparts e List.mem_cons_self) hk)
  | list e separator op ih =>
    rw [withoutPredicates, Option.map_eq_some_iff] at hk
    obtain ⟨k, hk, rfl⟩ := hk
    obtain ⟨hhere, hparts⟩ := all_iff.1 h
    exact (all_node (hp.list k e separator op hhere) rfl).2 (ih (hparts e List.mem_cons_self) hk)

/-- Between other quotes the literals must satisfy the condition too. -/
theorem all_withQuotes {quote : Quote}
    (hquote : ∀ l, p (literal l) → p (literal (l.withQuote quote))) (h : e.All p) :
    (e.withQuotes quote).All p :=
  hp.all_apply (fun _ => (all_leaf rfl).2) (fun l hl => (all_leaf rfl).2 (hquote l hl))
    (fun _ => id) (fun _ _ => id) (fun _ _ _ => id) h

end IsLocal
end Expr

/-! ## Names and quotes of node grammars -/

namespace Text

theorem isNameRest_of_mem_capitalize {t : Text} (h : ∀ c ∈ t, isNameRest c) {c : Char}
    (hc : c ∈ t.capitalize) : isNameRest c := by
  have hupper : ∀ n < 0x80, isNameRest (Char.ofNat n) → isNameRest (Char.ofNat n).toUpper := by
    decide
  cases t with
  | nil => cases hc
  | cons d r =>
    have hd := h d List.mem_cons_self
    have hlt := toNat_lt_of_isNameRest hd
    rw [capitalize, upperCase_of_ascii hlt] at hc
    obtain rfl | hc := List.mem_cons.1 hc
    · exact forall_ascii (p := fun c => isNameRest c → isNameRest c.toUpper) hupper hlt hd
    · exact h c (List.mem_cons_of_mem d hc)

theorem isWord_pascalCase {t : Text} (h : t.isWord) : t.pascalCase.isWord := by
  obtain ⟨-, hname⟩ := isWord_iff.1 h
  unfold pascalCase
  split
  · exact h
  next hne =>
    refine isWord_iff.2 ⟨hne, fun c hc => ?_⟩
    obtain ⟨s, hs, hc⟩ := List.mem_flatMap.1 hc
    exact isNameRest_of_mem_capitalize (fun d hd => hname d (mem_of_mem_segments hs hd)) hc

end Text

namespace Literal
variable {l : Literal}

theorem swapQuotes_pair (old new a : Char) (r : Text) :
    swapQuotes old new ('\\' :: a :: r) =
      if a = old then a :: swapQuotes old new r else '\\' :: a :: swapQuotes old new r := by
  rw [swapQuotes]

theorem swapQuotes_of_ne {a : Char} (h : a ≠ '\\') (old new : Char) (r : Text) :
    swapQuotes old new (a :: r) =
      if a = new then '\\' :: a :: swapQuotes old new r else a :: swapQuotes old new r := by
  rw [swapQuotes] <;> simp [h]

/-- Swapping the two quotes of a body keeps escape pairs together. -/
theorem isBody_swapQuotes {old new : Char} {b : Text} (hold : old ≠ '\\') (hne : old ≠ new)
    (h : IsBody '\\' old b) : IsBody '\\' new (swapQuotes old new b) := by
  induction h with
  | nil => exact .nil
  | pair a _ ih =>
    rw [swapQuotes_pair]
    split_ifs with ha
    · exact .plain (ha ▸ hold) (ha ▸ hne) ih
    · exact .pair a ih
  | plain hescape _ _ ih =>
    rw [swapQuotes_of_ne hescape]
    split_ifs with hnew
    · exact .pair _ ih
    · exact .plain hescape hnew ih

theorem isWhole_withQuote (h : l.isWhole) (quote : Quote) : (l.withQuote quote).isWhole := by
  unfold withQuote
  split_ifs with heq
  · exact h
  · have hchars : l.quote.char ≠ quote.char := by
      intro hchar
      have hsome := congrArg Quote.ofChar? hchar
      rw [Quote.ofChar?_char, Quote.ofChar?_char] at hsome
      exact heq (Option.some.inj hsome)
    exact isWhole_iff.2 (isBody_swapQuotes l.quote.char_ne_backslash hchars (isWhole_iff.1 h))

end Literal

/-- Between other quotes a normal tree is normal. -/
theorem Expr.normal_withQuotes {e : Expr} (h : e.Normal) (quote : Quote) :
    (e.withQuotes quote).Normal := by
  refine isLocal_isNormal.all_withQuotes (fun l hl => ?_) h
  exact Bool.and_eq_true_iff.2 ⟨Literal.isWhole_withQuote (Bool.and_eq_true_iff.1 hl).1 quote, rfl⟩

/-- The token for a built-in character class has nothing to escape. -/
theorem isWhole_of_builtinToken? {n token : Text} (h : builtinToken? n = some token) :
    Literal.isWhole ⟨token, .single⟩ := by
  obtain ⟨b, hb, rfl⟩ := Option.map_eq_some_iff.1 h
  have hletters : ∀ b ∈ builtinTokens, b.2.all Char.isAlpha := by decide
  refine Literal.isWhole_iff.2 (.of_forall fun c hc => ?_)
  have hletter := List.all_eq_true.1 (hletters b (List.mem_of_find?_eq_some hb)) c hc
  constructor <;> rintro rfl <;> cases hletter

/-- With names and quotes of node grammars a sound tree is sound, and its quotes are single. -/
theorem Expr.all_isSound_nodeNamed {e : Expr} (h : e.Sound) (hlist : e.Lacks .list) :
    e.nodeNamed.All (isSound Literal.isSingle) := by
  have hnone : e.All fun node => !(node.form? == some .list) := by
    simpa [All, Lacks] using hlist
  refine Transform.all_apply (p := fun node => node.isSound (fun _ => true) &&
    !(node.form? == some .list)) (settles_isSound _) ?_ (fun n hn => ?_) (fun l hl => ?_)
    (fun _ => all_isSound_plus.2) (fun _ _ _ _ => all_isSound_repeated.2)
    (fun _ _ _ _ hitem _ => ?_) (h.and hnone)
  · exact fun s es hnode => (settles_isSound _).ne_nil (Bool.and_eq_true_iff.1 hnode).1
  · dsimp only
    split
    next token htoken => exact all_isSound_literal.2 ⟨isWhole_of_builtinToken? htoken, rfl⟩
    next => exact all_isSound_name.2 (Text.isWord_pascalCase (Bool.and_eq_true_iff.1 hn).1)
  · have hwhole := (Bool.and_eq_true_iff.1 (Bool.and_eq_true_iff.1 hl).1).1
    exact all_isSound_literal.2
      ⟨Literal.isWhole_withQuote hwhole .single, by simp [Literal.isSingle]⟩
  · exact absurd (Bool.and_eq_true_iff.1 hitem).2 (by simp [form?])

end ExtendedBnf
