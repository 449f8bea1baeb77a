import ExtendedBnf.Code
import ExtendedBnf.Proofs.Follow
import ExtendedBnf.Proofs.NormalForm

/-!
# Texts in pieces

The text of an expression is put together from characters of its notation and from
whole literals. Whatever a search in code looks for, if no character of the notation
is it, the search passes over such a text, however the bodies of the literals look.
The text neither starts nor ends with a blank.
-/
namespace ExtendedBnf
open Reader (Starts Stops Apart starts_cons stops_cons)

/-- Characters that satisfy `p`, and whole literals that satisfy `q`. -/
inductive Pieces (p : Char → Bool) (q : Literal → Bool) : Text → Prop
  | nil : Pieces p q []
  | char {c : Char} {r : Text} : p c → Pieces p q r → Pieces p q (c :: r)
  | literal {l : Literal} {r : Text} : IsBody '\\' l.quote.char l.body → q l → Pieces p q r →
      Pieces p q (l.text ++ r)

namespace Pieces
variable {p : Char → Bool} {q : Literal → Bool} {s t : Text}

theorem append (hs : Pieces p q s) (ht : Pieces p q t) : Pieces p q (s ++ t) := by
  induction hs with
  | nil => exact ht
  | char hc _ ih => exact .char hc ih
  | literal hbody hl _ ih =>
    rw [List.append_assoc]
    exact .literal hbody hl ih

theorem of_forall (h : ∀ c ∈ t, p c) : Pieces p q t := by
  induction t with
  | nil => exact .nil
  | cons c r ih =>
    exact .char (h c List.mem_cons_self) (ih fun d hd => h d (List.mem_cons_of_mem c hd))

theorem of_all (h : t.all p) : Pieces p q t := .of_forall (List.all_eq_true.1 h)

theorem of_literal {l : Literal} (hbody : IsBody '\\' l.quote.char l.body) (hl : q l) :
    Pieces p q l.text := by
  rw [← List.append_nil l.text]
  exact .literal hbody hl .nil

theorem imp {p' : Char → Bool} {q' : Literal → Bool} (h : Pieces p q t) (hp : ∀ c, p c → p' c)
    (hq : ∀ l, q l → q' l) : Pieces p' q' t := by
  induction h with
  | nil => exact .nil
  | char hc _ ih => exact .char (hp _ hc) ih
  | literal hbody hl _ ih => exact .literal hbody (hq _ hl) ih

theorem operand (ht : Pieces p q t) (hopen : p '(') (hclose : p ')') (least own : Precedence) :
    Pieces p q (t.operand least own) := by
  unfold Text.operand
  split
  · exact .char hopen (ht.append (.char hclose .nil))
  · exact ht

theorem join {ts : List Text} (hs : Pieces p q s) (hts : ∀ t ∈ ts, Pieces p q t) :
    Pieces p q (Text.join s ts) := by
  fun_induction Text.join s ts with
  | case1 => exact .nil
  | case2 t => exact hts t List.mem_cons_self
  | case3 t ts _ ih =>
    have hrest := ih fun u hu => hts u (List.mem_cons_of_mem t hu)
    exact ((hts t List.mem_cons_self).append hs).append hrest

/-- A character of the text is a character or in a literal. -/
theorem mem (h : Pieces p q t) {c : Char} (hc : c ∈ t) : p c ∨ ∃ l, q l ∧ c ∈ l.text := by
  induction h with
  | nil => cases hc
  | char hp _ ih =>
    obtain rfl | hc := List.mem_cons.1 hc
    · exact .inl hp
    · exact ih hc
  | @literal l r _ hl _ ih =>
    obtain hc | hc := List.mem_append.1 hc
    · exact .inr ⟨l, hl, hc⟩
    · exact ih hc

end Pieces

/-- The place after a literal is in code again. -/
theorem Place.after_literal {l : Literal} (h : IsBody '\\' l.quote.char l.body) :
    Place.code.after l.text = .code := by
  have hinside {quote : Quote} {b : Text} (h : IsBody '\\' quote.char b) :
      (Place.inside quote).after (b ++ [quote.char]) = .code := by
    induction h with
    | nil => simp [Place.next, quote.char_ne_backslash]
    | pair a _ ih => simp [Place.next, ih]
    | plain he hc _ ih => simp [Place.next, he, hc, ih]
  rw [Literal.text, List.cons_append, Place.after_cons, Place.next_char, hinside h]

namespace Text

/-- A search in code passes over what stands in a literal. A literal that is not closed takes the
rest. -/
theorem cutCode_inside (cond : Text → Bool) (quote : Quote) (t : Text) :
    cutCode cond (.inside quote) t = (closing? '\\' quote.char t).bind fun split =>
      (cutCode cond .code split.2).map fun cut => (split.1 ++ quote.char :: cut.1, cut.2) := by
  have hinside (c : Char) : (Place.inside quote).isCode c = false := rfl
  have hescaped (c : Char) : (Place.escaped quote).isCode c = false := rfl
  fun_induction closing? '\\' quote.char t with
  | case1 => rw [cutCode, Option.bind_none]
  | case2 => simp [cutCode, hinside]
  | case3 b r ih =>
    simp [cutCode, hinside, hescaped, Place.next, ih, Option.map_bind, Option.bind_map,
      Function.comp_def]
  | case4 r he => simp [cutCode, hinside, Place.next, he]
  | case5 a r he hc ih =>
    simp [cutCode, hinside, Place.next, he, hc, ih, Option.map_bind, Option.bind_map,
      Function.comp_def]

theorem cutCode_quote (cond : Text → Bool) (quote : Quote) (t : Text) :
    cutCode cond .code (quote.char :: t) = (closing? '\\' quote.char t).bind fun split =>
      (cutCode cond .code split.2).map fun cut =>
        (quote.char :: split.1 ++ quote.char :: cut.1, cut.2) := by
  rw [cutCode, Place.isCode_char, Bool.false_and, if_neg Bool.false_ne_true, Place.next_char,
    cutCode_inside, Option.map_bind]
  simp [Function.comp_def]

theorem cutCode_literal {cond : Text → Bool} {l : Literal}
    (h : IsBody '\\' l.quote.char l.body) (rest : Text) :
    cutCode cond .code (l.text ++ rest) =
      (cutCode cond .code rest).map fun cut => (l.text ++ cut.1, cut.2) := by
  rw [Literal.text, List.append_assoc, List.cons_append, List.singleton_append, cutCode_quote,
    closing?_append h l.quote.char_ne_backslash]
  simp

/-- A search in code that no character stops passes over the text. -/
theorem cutCode_of_pieces {cond : Text → Bool} {p : Char → Bool} {q : Literal → Bool} {t : Text}
    (h : Pieces p q t) (hquote : ∀ c, p c → Quote.ofChar? c = none)
    (hcond : ∀ c r, p c → cond (c :: r) = false) (rest : Text) :
    cutCode cond .code (t ++ rest) =
      (cutCode cond .code rest).map fun cut => (t ++ cut.1, cut.2) := by
  induction h with
  | nil => simp
  | @char c r hc _ ih =>
    have hnext : Place.next .code c = .code := by simp [Place.next, hquote c hc]
    simp [cutCode, hcond c _ hc, hnext, ih, Function.comp_def]
  | literal hbody _ _ ih =>
    rw [List.append_assoc, cutCode_literal hbody, ih]
    simp [Function.comp_def]

/-- Whether the text starts with a character that does not satisfy `p`. -/
def startsBeyond (p : Char → Bool) (t : Text) : Bool := t.head?.any fun c => !p c

theorem startsBeyond_cons {p : Char → Bool} (c : Char) (r : Text) (hc : p c) :
    startsBeyond p (c :: r) = false := by simp [startsBeyond, hc]

section
variable {p : Char → Bool} {q : Literal → Bool} {s t u v : Text} {c d : Char}
  (hquote : ∀ c, p c → Quote.ofChar? c = none)
include hquote

/-- The search for a character of code that does not satisfy `p` stops right after pieces. -/
theorem cutCode_pieces_cons (ht : Pieces p q t) (hc : p c = false) (hcode : Quote.ofChar? c = none)
    (r : Text) : cutCode (startsBeyond p) .code (t ++ c :: r) = some (t, c :: r) := by
  have hstop : cutCode (startsBeyond p) .code (c :: r) = some ([], c :: r) := by
    simp [cutCode, Place.isCode, hcode, startsBeyond, hc]
  rw [cutCode_of_pieces ht hquote startsBeyond_cons, hstop]
  simp

/-- The first character of code that does not satisfy `p` is found in one place only. -/
theorem pieces_append_inj (hs : Pieces p q s) (ht : Pieces p q t) (hc : p c = false)
    (hccode : Quote.ofChar? c = none) (hd : p d = false) (hdcode : Quote.ofChar? d = none)
    (h : s ++ c :: u = t ++ d :: v) : s = t ∧ c :: u = d :: v := by
  have hcut := cutCode_pieces_cons hquote hs hc hccode u
  rw [h, cutCode_pieces_cons hquote ht hd hdcode v] at hcut
  simpa [eq_comm] using hcut

/-- There is no character of code in pieces that does not satisfy `p`. -/
theorem not_pieces_append (ht : Pieces p q t) (hc : p c = false)
    (hcode : Quote.ofChar? c = none) : ¬ Pieces p q (t ++ c :: u) := by
  intro h
  have hnone := cutCode_of_pieces h hquote startsBeyond_cons []
  rw [List.append_nil, cutCode_pieces_cons hquote ht hc hcode u] at hnone
  cases hnone

end

/-- The text ends with a character that satisfies `p`. -/
def Ends (p : Char → Bool) (t : Text) : Prop := Starts p t.reverse

@[simp] theorem ends_concat {p : Char → Bool} {c : Char} {t : Text} : Ends p (t ++ [c]) ↔ p c := by
  simp [Ends]

@[simp] theorem ends_singleton {p : Char → Bool} {c : Char} : Ends p [c] ↔ p c :=
  ends_concat (t := [])

theorem Ends.exists_eq_concat {p : Char → Bool} {t : Text} (h : Ends p t) :
    ∃ r c, t = r ++ [c] ∧ p c := by
  obtain ⟨c, r, heq, hc⟩ := h.exists_eq_cons
  exact ⟨r.reverse, c, by rw [← List.reverse_inj, heq]; simp, hc⟩

theorem Ends.append {p : Char → Bool} {t : Text} (h : Ends p t) (s : Text) : Ends p (s ++ t) := by
  rw [Ends, List.reverse_append]
  exact Starts.append h _

/-- Whether the character is not blank. -/
def isInk (c : Char) : Bool := !isBlank c

/-- Whether a written expression may start with the character. -/
def isOpening (c : Char) : Bool := isNameRest c || Reader.isTermStart c

theorem trimStart_of_starts {t : Text} (h : Starts isInk t) : t.trimStart = t := by
  obtain ⟨c, r, rfl, hc⟩ := h.exists_eq_cons
  have hblank : isBlank c = false := by simpa [isInk] using hc
  rw [trimStart, List.dropWhile_cons_of_neg (by simp [hblank])]

theorem trimStart_append {g : Text} (hg : g.isBlankText) (t : Text) :
    trimStart (g ++ t) = trimStart t := List.dropWhile_append_of_pos (List.all_eq_true.1 hg)

/-- A text that does not end with a blank is in front of the blanks. -/
theorem exists_of_append_blank {a g m y : Text} (ha : Ends isInk a) (hg : g.isBlankText)
    (h : m ++ g = a ++ y) : ∃ z, m = a ++ z ∧ y = z ++ g := by
  obtain ⟨z, rfl, rfl⟩ | hbefore := List.append_eq_append_iff.1 h
  · obtain rfl | ⟨z, c, rfl⟩ := List.eq_nil_or_concat' z
    · exact ⟨[], by simp, rfl⟩
    · have hink : isInk c := by
        rw [← List.append_assoc] at ha
        exact ends_concat.1 ha
      have hblank := List.all_eq_true.1 hg c (by simp)
      simp [isInk, hblank] at hink
  · exact hbefore

/-- A text that does not start with a blank is behind the blanks. -/
theorem exists_of_blank_append {a g m y : Text} (ha : Starts isInk a) (hg : g.isBlankText)
    (h : g ++ m = y ++ a) : ∃ z, m = z ++ a ∧ y = g ++ z := by
  obtain ⟨z, rfl, hrest⟩ | ⟨z, rfl, rfl⟩ := List.append_eq_append_iff.1 h
  · exact ⟨z, hrest, rfl⟩
  · cases z with
    | nil => exact ⟨[], rfl, by simp⟩
    | cons c z =>
      have hink : isInk c := starts_cons.1 ha
      have hblank := List.all_eq_true.1 hg c (by simp)
      simp [isInk, hblank] at hink

theorem isInk_of_isNameRest {c : Char} (h : isNameRest c) : isInk c := by
  simp only [isNameRest, Char.isAlphanum, Bool.or_eq_true, beq_iff_eq] at h
  rcases h with (hletter | hdigit) | rfl
  · simp [isInk, Reader.isBlank_of_isAlpha hletter]
  · have hrange := toNat_of_isDigit hdigit
    simp only [isInk, isBlank, Bool.not_eq_true', Bool.or_eq_false_iff, Bool.and_eq_false_imp,
      decide_eq_true_eq, decide_eq_false_iff_not, beq_eq_false_iff_ne]
    omega
  · rfl

theorem isInk_of_isOpening {c : Char} (h : isOpening c) : isInk c := by
  obtain hname | hterm := Bool.or_eq_true_iff.1 h
  · exact isInk_of_isNameRest hname
  · simp [isInk, Reader.apart_isTermStart_isBlank c hterm]

/-- The text starts like an expression and does not end with a blank. -/
structure IsTight (t : Text) : Prop where
  starts : Starts isOpening t
  ends : Ends isInk t

namespace IsTight
variable {s t : Text}

theorem ne_nil (h : t.IsTight) : t ≠ [] := by
  rintro rfl
  obtain ⟨_, _, heq, _⟩ := h.starts.exists_eq_cons
  cases heq

theorem append (hs : s.IsTight) (ht : Ends isInk t) : IsTight (s ++ t) :=
  ⟨hs.starts.append t, ht.append s⟩

theorem cons {c : Char} (hc : isOpening c) (ht : Ends isInk t) : IsTight (c :: t) :=
  ⟨starts_cons.2 hc, ht.append [c]⟩

theorem operand (ht : t.IsTight) (least own : Precedence) : (t.operand least own).IsTight := by
  unfold Text.operand
  split
  · exact .cons rfl (ends_concat.2 rfl)
  · exact ht

theorem join {ts : List Text} (hne : ts ≠ []) (hts : ∀ t ∈ ts, t.IsTight) :
    (Text.join s ts).IsTight := by
  fun_induction Text.join s ts with
  | case1 => exact absurd rfl hne
  | case2 t => exact hts t List.mem_cons_self
  | case3 t ts hmore ih =>
    have hrest := ih hmore fun u hu => hts u (List.mem_cons_of_mem t hu)
    rw [List.append_assoc]
    exact (hts t List.mem_cons_self).append (hrest.ends.append s)

theorem of_forall (hne : t ≠ []) (h : ∀ c ∈ t, isNameRest c) : t.IsTight := by
  have hstarts {p : Char → Bool} {u : Text} (hu : u ≠ []) (hp : ∀ c ∈ u, p c) : Starts p u := by
    cases u with
    | nil => exact absurd rfl hu
    | cons c u => exact starts_cons.2 (hp c List.mem_cons_self)
  refine ⟨hstarts hne fun c hc => ?_, hstarts (by simpa) fun c hc => ?_⟩
  · simp [isOpening, h c hc]
  · exact isInk_of_isNameRest (h c (List.mem_reverse.1 hc))

theorem of_literal (l : Literal) : l.text.IsTight := by
  refine .cons ?_ (ends_concat.2 ?_) <;> cases l.quote <;> rfl

end IsTight
end Text

/-- Whether the character is in the notation of expressions outside literals. -/
def isNotation (c : Char) : Bool := isNameRest c || " |?*+\x7b\x7d,()&!%.".toList.contains c

theorem isNotation_of_isNameRest {c : Char} (h : isNameRest c) : isNotation c := by
  simp [isNotation, h]

theorem isNotation_of_isDigit {c : Char} (h : c.isDigit) : isNotation c := by
  simp [isNotation, isNameRest, Char.isAlphanum, h]

/-- No character of the notation opens a literal. -/
theorem ofChar?_of_isNotation {c : Char} (h : isNotation c) : Quote.ofChar? c = none := by
  cases hquote : Quote.ofChar? c with
  | none => rfl
  | some quote =>
    rw [Quote.ofChar?_eq_some_iff.1 hquote] at h
    cases quote <;> cases h

theorem exists_bounds_text (bounds : Bounds) :
    ∃ r, bounds.text = r ++ ['}'] ∧ ∀ c ∈ r, isNotation c := by
  have hnumber (n : UInt32) : ∀ c ∈ Text.ofNat n.toNat, isNotation c := fun _ hc =>
    isNotation_of_isDigit (Nat.isDigit_of_mem_toDigits (by decide) (by decide) hc)
  have hmarks : isNotation '{' ∧ isNotation ',' ∧ isNotation ' ' := by decide
  match bounds with
  | ⟨some min, some max⟩ =>
    rw [Bounds.text]
    split
    · exact ⟨'{' :: Text.ofNat min.toNat, rfl, by simpa [hmarks] using hnumber min⟩
    · refine ⟨'{' :: Text.ofNat min.toNat ++ ", ".toList ++ Text.ofNat max.toNat, rfl, ?_⟩
      simpa [hmarks, or_imp, forall_and] using ⟨hnumber min, hnumber max⟩
  | ⟨some min, none⟩ =>
    refine ⟨'{' :: Text.ofNat min.toNat ++ [','], by simp [Bounds.text], ?_⟩
    simpa [hmarks, or_imp, forall_and] using hnumber min
  | ⟨none, some max⟩ =>
    refine ⟨'{' :: ", ".toList ++ Text.ofNat max.toNat, rfl, ?_⟩
    simpa [hmarks, or_imp, forall_and] using hnumber max
  | ⟨none, none⟩ => exact ⟨['{', ','], rfl, by simpa using ⟨hmarks.1, hmarks.2.1⟩⟩

theorem ListOp.exists_text (op : ListOp) :
    ∃ r c, op.text = r ++ [c] ∧ (∀ d ∈ r, isNotation d) ∧ isNotation c ∧ Text.isInk c := by
  obtain ⟨_ | _, _ | _⟩ := op <;> exact
    ⟨_, _, rfl, List.all_eq_true.1 (by decide), by decide, by decide⟩

/-- Whether the text is a name at least after the first character. -/
def Text.isWord (t : Text) : Bool := !t.isEmpty && t.all isNameRest

theorem Text.isWord_iff {t : Text} : t.isWord ↔ t ≠ [] ∧ ∀ c ∈ t, isNameRest c := by
  simp [isWord]

theorem Text.isWord_of_isName {t : Text} (h : t.isName) : t.isWord :=
  isWord_iff.2 ⟨ne_nil_of_isName h, fun _ => isNameRest_of_mem h⟩

theorem Text.starts_of_isWord {t : Text} (h : t.isWord) : Starts isNameRest t := by
  obtain ⟨hne, hall⟩ := isWord_iff.1 h
  obtain ⟨c, r, rfl⟩ := List.exists_cons_of_ne_nil hne
  exact starts_cons.2 (hall c List.mem_cons_self)

namespace Expr

/-- Whether the node has nothing to splice, its name is a word, and its literal ends where it should
and satisfies `q`. -/
def isSound (q : Literal → Bool) : Expr → Bool
  | name n => n.isWord
  | literal l => l.isWhole && q l
  | list _ separator _ => separator.isWhole && q separator
  | e => e.isSettled

variable {q : Literal → Bool} {e : Expr}

theorem isSound_of_isReadable (hreadable : e.isReadable) (hsettled : e.isSettled)
    (hq : ∀ l, (e = literal l ∨ ∃ item op, e = list item l op) → q l) : e.isSound q := by
  cases e with
  | name n => exact Text.isWord_of_isName hreadable
  | literal l => exact Bool.and_eq_true_iff.2 ⟨hreadable, hq l (.inl rfl)⟩
  | list item l op => exact Bool.and_eq_true_iff.2 ⟨hreadable, hq l (.inr ⟨item, op, rfl⟩)⟩
  | _ => exact hsettled

theorem isSettled_of_isSound (h : e.isSound q) : e.isSettled := by
  cases e <;> first | exact h | rfl

/-- What is written for a sound tree is in pieces. -/
theorem pieces_text (h : e.All (isSound q)) : Pieces isNotation q e.text := by
  have hmark {c : Char} (hc : isNotation c) : Pieces isNotation q [c] := .char hc .nil
  have hliteral {l : Literal} (hl : l.isWhole && q l) : Pieces isNotation q l.text := by
    obtain ⟨hwhole, hl⟩ := Bool.and_eq_true_iff.1 hl
    exact .of_literal (Literal.isWhole_iff.1 hwhole) hl
  have hoperand {e : Expr} (he : Pieces isNotation q e.text) (least : Precedence) :
      Pieces isNotation q (e.text.operand least e.precedence) :=
    he.operand (by decide) (by decide) ..
  induction e with
  | name n =>
    obtain ⟨-, hn⟩ := Text.isWord_iff.1 (all_iff.1 h).1
    exact .of_forall fun c hc => isNotation_of_isNameRest (hn c hc)
  | literal l => exact hliteral (all_iff.1 h).1
  | seq es ih =>
    have hes := (all_iff.1 h).2
    rw [text, operandTexts_eq_map]
    refine .join (hmark (by decide)) (List.forall_mem_map.2 fun e he => ?_)
    exact hoperand (ih e he (hes e he)) .sequence
  | alt es ih =>
    have hes := (all_iff.1 h).2
    rw [text, operandTexts_eq_map]
    refine .join (.of_all (by decide)) (List.forall_mem_map.2 fun e he => ?_)
    exact hoperand (ih e he (hes e he)) .choice
  | optional e ih | star e ih | plus e ih =>
    have he := ih ((all_iff.1 h).2 e List.mem_cons_self)
    exact (hoperand he .atom).append (hmark (by decide))
  | repeated e bounds ih =>
    have he := ih ((all_iff.1 h).2 e List.mem_cons_self)
    obtain ⟨r, hbounds, hr⟩ := exists_bounds_text bounds
    rw [text, hbounds]
    exact (hoperand he .atom).append ((Pieces.of_forall hr).append (hmark (by decide)))
  | ahead e ih | notAhead e ih =>
    have he := ih ((all_iff.1 h).2 e List.mem_cons_self)
    exact .char (by decide) (hoperand he .predicate)
  | list e separator op ih =>
    have he := ih ((all_iff.1 h).2 e List.mem_cons_self)
    obtain ⟨r, c, hop, hr, hc, -⟩ := op.exists_text
    have hseparator := hliteral (all_iff.1 h).1
    have hrest : Pieces isNotation q (' ' :: op.text) := by
      rw [hop]
      exact .char (by decide) ((Pieces.of_forall hr).append (hmark hc))
    exact (((hoperand he .atom).append (.of_all (by decide))).append hseparator).append hrest

/-- What is written for a sound tree starts like an expression and does not end with a blank. -/
theorem isTight_text (h : e.All (isSound q)) : e.text.IsTight := by
  have hparts {s : Splicing} {es : List Expr} (h : (s.node es).isSettled) : es ≠ [] := by
    rintro rfl
    cases s <;> cases h
  induction e with
  | name n =>
    obtain ⟨hne, hn⟩ := Text.isWord_iff.1 (all_iff.1 h).1
    exact .of_forall hne hn
  | literal l => exact .of_literal l
  | seq es ih =>
    obtain ⟨hnode, hes⟩ := all_iff.1 h
    rw [text, operandTexts_eq_map]
    refine .join (fun hnil => hparts (s := .row) hnode (List.map_eq_nil_iff.1 hnil)) ?_
    exact List.forall_mem_map.2 fun e he => (ih e he (hes e he)).operand ..
  | alt es ih =>
    obtain ⟨hnode, hes⟩ := all_iff.1 h
    rw [text, operandTexts_eq_map]
    refine .join (fun hnil => hparts (s := .choice) hnode (List.map_eq_nil_iff.1 hnil)) ?_
    exact List.forall_mem_map.2 fun e he => (ih e he (hes e he)).operand ..
  | optional e ih | star e ih | plus e ih =>
    have he := ih ((all_iff.1 h).2 e List.mem_cons_self)
    exact (he.operand ..).append (Text.ends_singleton.2 rfl)
  | repeated e bounds ih =>
    have he := ih ((all_iff.1 h).2 e List.mem_cons_self)
    obtain ⟨r, hbounds, -⟩ := exists_bounds_text bounds
    rw [text, hbounds]
    exact (he.operand ..).append (Text.ends_concat.2 rfl)
  | ahead e ih | notAhead e ih =>
    have he := ih ((all_iff.1 h).2 e List.mem_cons_self)
    exact .cons rfl (he.operand ..).ends
  | list e separator op ih =>
    have he := ih ((all_iff.1 h).2 e List.mem_cons_self)
    obtain ⟨r, c, hop, -, -, hc⟩ := op.exists_text
    have hrest : Text.Ends Text.isInk (' ' :: op.text) := by
      rw [hop]
      exact (Text.ends_concat.2 hc).append [' ']
    rw [text, List.append_assoc, List.append_assoc]
    exact (he.operand ..).append ((hrest.append _).append _)

end Expr
end ExtendedBnf
