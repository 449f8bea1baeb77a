import ExtendedBnf.Proofs.ByteScans

/-!
# Texts in fragments

A text splits from the left into literals and other characters, in one way only. A
literal is a quote, a body of escape pairs and of characters that are neither the quote nor a
backslash, and the same quote; one that is never closed takes the rest of the text. The
byte at which a literal starts is enough to find its end, and a search in code finds
the first character that is a fragment of its own and from which on the text goes on as asked.
-/
namespace ExtendedBnf

/-- What stands in a text from one place of code to the next. -/
inductive Fragment where
  | char (c : Char)
  | literal (literal : Literal)
  /-- A quote that is never followed by its like, and all that follows it. -/
  | unclosed (quote : Quote) (rest : Text)
  deriving DecidableEq, Repr

def Fragment.text : Fragment → Text
  | char c => [c]
  | literal l => l.text
  | unclosed quote rest => quote.char :: rest

/-- The text that the fragments make up. -/
def Text.ofFragments (fs : List Fragment) : Text := fs.flatMap Fragment.text

/-- The text splits from the left into the fragments. -/
inductive Text.Splits : Text → List Fragment → Prop
  | nil : Splits [] []
  | char {c : Char} {r : Text} {fs : List Fragment} : Quote.ofChar? c = none → Splits r fs →
      Splits (c :: r) (.char c :: fs)
  | literal {l : Literal} {r : Text} {fs : List Fragment} :
      IsBody '\\' l.quote.char l.body → Splits r fs → Splits (l.text ++ r) (.literal l :: fs)
  | unclosed {quote : Quote} {r : Text} :
      (∀ body rest, IsBody '\\' quote.char body → r ≠ body ++ quote.char :: rest) →
      Splits (quote.char :: r) [.unclosed quote r]

theorem closing?_eq_none_iff {α : Type} [DecidableEq α] {escape close : α} (hne : close ≠ escape)
    {r : List α} : closing? escape close r = none ↔
      ∀ body rest, IsBody escape close body → r ≠ body ++ close :: rest := by
  constructor
  · rintro h body rest hbody rfl
    rw [closing?_append hbody hne] at h
    cases h
  · intro h
    cases hclosing : closing? escape close r with
    | none => rfl
    | some split =>
      exact absurd (eq_append_of_closing? hclosing) (h _ _ (isBody_of_closing? hclosing))

namespace Text
variable {t u r : Text} {fs gs : List Fragment} {c : Char} {quote : Quote}

@[simp] theorem ofFragments_cons (f : Fragment) (fs : List Fragment) :
    ofFragments (f :: fs) = f.text ++ ofFragments fs := List.flatMap_cons

namespace Splits

/-- Nothing is lost. -/
theorem ofFragments_eq (h : Splits t fs) : ofFragments fs = t := by
  induction h with
  | nil => rfl
  | char _ _ ih | literal _ _ ih => rw [ofFragments_cons, ih]; rfl
  | unclosed _ => exact List.append_nil _

theorem of_nil (h : Splits t fs) (ht : t = []) : fs = [] := by
  cases h with
  | nil => rfl
  | char | unclosed => cases ht
  | literal => simp [Literal.text] at ht

theorem of_char (h : Splits t fs) (ht : t = c :: r) (hc : Quote.ofChar? c = none) :
    ∃ gs, fs = .char c :: gs ∧ Splits r gs := by
  cases h with
  | nil => cases ht
  | char _ hrest =>
    cases ht
    exact ⟨_, rfl, hrest⟩
  | @literal l | @unclosed quote =>
    obtain rfl := (List.cons.inj ht).1
    simp at hc

theorem of_quote (h : Splits t fs) (ht : t = quote.char :: r) :
    (∃ body rest gs, closing? '\\' quote.char r = some (body, rest) ∧
      fs = .literal ⟨body, quote⟩ :: gs ∧ Splits rest gs) ∨
    closing? '\\' quote.char r = none ∧ fs = [.unclosed quote r] := by
  have hquote {other : Quote} (heq : other.char = quote.char) : other = quote := by
    have := Quote.ofChar?_char other
    rw [heq, Quote.ofChar?_char] at this
    exact (Option.some.inj this).symm
  cases h with
  | nil => cases ht
  | char hc _ =>
    obtain rfl := (List.cons.inj ht).1
    simp at hc
  | @literal l rest gs hbody hrest =>
    obtain ⟨body, other⟩ := l
    rw [Literal.text, List.append_assoc, List.cons_append] at ht
    obtain ⟨hchar, rfl⟩ := List.cons.inj ht
    obtain rfl := hquote hchar
    exact .inl ⟨body, rest, gs, closing?_append hbody other.char_ne_backslash rest, rfl, hrest⟩
  | @unclosed other r' hopen =>
    obtain ⟨hchar, rfl⟩ := List.cons.inj ht
    obtain rfl := hquote hchar
    exact .inr ⟨(closing?_eq_none_iff other.char_ne_backslash).2 hopen, rfl⟩

theorem unique (h : Splits t fs) (hother : Splits t gs) : fs = gs := by
  induction t using code_induction generalizing fs gs with
  | nil => rw [h.of_nil rfl, hother.of_nil rfl]
  | char c r hc ih =>
    obtain ⟨fs, rfl, hfs⟩ := h.of_char rfl hc
    obtain ⟨gs, rfl, hgs⟩ := hother.of_char rfl hc
    rw [ih hfs hgs]
  | literal quote body rest hclosing ih =>
    have hliteral {fs : List Fragment}
        (h : Splits (quote.char :: (body ++ quote.char :: rest)) fs) :
        ∃ gs, fs = .literal ⟨body, quote⟩ :: gs ∧ Splits rest gs := by
      obtain ⟨_, _, gs, hsome, rfl, hgs⟩ | ⟨hnone, -⟩ := h.of_quote rfl
      · rw [hclosing] at hsome
        cases hsome
        exact ⟨gs, rfl, hgs⟩
      · rw [hclosing] at hnone
        cases hnone
    obtain ⟨fs, rfl, hfs⟩ := hliteral h
    obtain ⟨gs, rfl, hgs⟩ := hliteral hother
    rw [ih hfs hgs]
  | unclosed quote r hclosing =>
    have hunclosed {fs : List Fragment} (h : Splits (quote.char :: r) fs) :
        fs = [.unclosed quote r] := by
      obtain ⟨_, _, _, hsome, -⟩ | ⟨-, heq⟩ := h.of_quote rfl
      · rw [hclosing] at hsome
        cases hsome
      · exact heq
    rw [hunclosed h, hunclosed hother]

end Splits

theorem exists_splits (t : Text) : ∃ fs, Splits t fs := by
  induction t using code_induction with
  | nil => exact ⟨[], .nil⟩
  | char c r hc ih =>
    obtain ⟨fs, hfs⟩ := ih
    exact ⟨_, .char hc hfs⟩
  | literal quote body rest hclosing ih =>
    obtain ⟨fs, hfs⟩ := ih
    have hsplits : Splits (Literal.text ⟨body, quote⟩ ++ rest) (.literal ⟨body, quote⟩ :: fs) :=
      .literal (isBody_of_closing? hclosing) hfs
    exact ⟨.literal ⟨body, quote⟩ :: fs, by simpa [Literal.text] using hsplits⟩
  | unclosed quote r hclosing =>
    exact ⟨_, .unclosed ((closing?_eq_none_iff quote.char_ne_backslash).1 hclosing)⟩

/-- What follows some of the fragments splits into the others. -/
theorem Splits.of_append {before after : List Fragment} (h : Splits t (before ++ after)) :
    ∃ u, t = ofFragments before ++ u ∧ Splits u after := by
  induction before generalizing t with
  | nil => exact ⟨t, rfl, h⟩
  | cons f before ih =>
    have hrest {r : Text} (hr : Splits r (before ++ after)) (ht : t = f.text ++ r) :
        ∃ u, t = ofFragments (f :: before) ++ u ∧ Splits u after := by
      obtain ⟨u, rfl, hu⟩ := ih hr
      exact ⟨u, by rw [ht, ofFragments_cons, List.append_assoc], hu⟩
    rw [List.cons_append] at h
    generalize hfs : f :: (before ++ after) = fs at h
    cases h with
    | nil => cases hfs
    | char _ hr | literal _ hr =>
      cases hfs
      exact hrest hr rfl
    | unclosed hopen =>
      obtain ⟨rfl, hnil⟩ := List.cons.inj hfs
      exact hrest (r := []) (hnil ▸ .nil) (List.append_nil _).symm

/-- The end of a literal is found from the byte at which it starts. -/
theorem Splits.end?_literal {before after : List Fragment} {l : Literal}
    (h : Splits t (before ++ .literal l :: after)) :
    Literal.end? t (ofFragments before).size =
      some ((ofFragments before).size + l.text.size) := by
  obtain ⟨u, rfl, hu⟩ := h.of_append
  have hl := hu.ofFragments_eq
  generalize hfs : Fragment.literal l :: after = fs at hu
  cases hu with
  | nil | char | unclosed => cases hfs
  | @literal l r fs hbody _ =>
    cases hfs
    have hsize := l.quote.utf8Size_char
    rw [Literal.text, List.append_assoc, List.cons_append, List.singleton_append,
      Literal.end?_append, closing?_append hbody l.quote.char_ne_backslash]
    simp [hsize]
    omega

/-- A literal that is never closed has no end. -/
theorem Splits.end?_unclosed {before after : List Fragment}
    (h : Splits t (before ++ .unclosed quote r :: after)) :
    Literal.end? t (ofFragments before).size = none := by
  obtain ⟨u, rfl, hu⟩ := h.of_append
  generalize hfs : Fragment.unclosed quote r :: after = fs at hu
  cases hu with
  | nil | char | literal => cases hfs
  | unclosed hopen =>
    cases hfs
    rw [Literal.end?_append, (closing?_eq_none_iff quote.char_ne_backslash).2 hopen]
    rfl

/-! ### Words in code -/

/-- At the byte there is a character that is a fragment of its own, and from there on the text goes
on with the word. -/
def Stands (word : Text) (fs : List Fragment) (n : Nat) : Prop :=
  ∃ before c after, fs = before ++ .char c :: after ∧ n = (ofFragments before).size ∧
    word <+: ofFragments (.char c :: after)

/-- The place is the first of the set, if there is any. -/
def IsFirst (places : Set Nat) : Option Nat → Prop
  | none => places = ∅
  | some n => IsLeast places n

theorem isFirst_iff {places : Set Nat} {found : Option Nat} (h : IsFirst places found) :
    (∀ n, found = some n ↔ IsLeast places n) ∧ (found = none ↔ places = ∅) := by
  cases found with
  | none =>
    obtain rfl : places = ∅ := h
    simp [IsLeast]
  | some first =>
    have hleast : IsLeast places first := h
    refine ⟨fun n => ?_, ?_⟩
    · rw [Option.some.injEq]
      exact ⟨fun heq => heq ▸ hleast, fun hn => hleast.unique hn⟩
    · refine ⟨fun hnone => absurd hnone (by simp), fun hempty => ?_⟩
      rw [hempty] at hleast
      exact absurd hleast.1 (Set.notMem_empty first)

theorem not_stands_nil (word : Text) (n : Nat) : ¬ Stands word [] n := by
  rintro ⟨before, c, after, heq, -⟩
  cases before <;> cases heq

/-- A word stands at the first fragment or in what follows it. -/
theorem stands_cons {word : Text} {f : Fragment} {n : Nat} : Stands word (f :: fs) n ↔
    (n = 0 ∧ (∃ c, f = .char c) ∧ word <+: ofFragments (f :: fs)) ∨
      ∃ m, n = f.text.size + m ∧ Stands word fs m := by
  constructor
  · rintro ⟨before, c, after, heq, rfl, hword⟩
    cases before with
    | nil =>
      cases heq
      exact .inl ⟨rfl, ⟨c, rfl⟩, hword⟩
    | cons g before =>
      cases heq
      exact .inr ⟨_, by simp, before, c, after, rfl, rfl, hword⟩
  · rintro (⟨rfl, ⟨c, rfl⟩, hword⟩ | ⟨m, rfl, before, c, after, rfl, rfl, hword⟩)
    · exact ⟨[], c, fs, rfl, rfl, hword⟩
    · exact ⟨f :: before, c, after, rfl, by simp, hword⟩

/-- Where no word starts with the first fragment, the first place is that in what follows. -/
theorem isFirst_cons {word : Text} {f : Fragment} {found : Option Nat}
    (hf : ¬ ((∃ c, f = .char c) ∧ word <+: ofFragments (f :: fs)))
    (h : IsFirst {n | Stands word fs n} found) :
    IsFirst {n | Stands word (f :: fs) n} (found.map (f.text.size + ·)) := by
  have hstands (n : Nat) : Stands word (f :: fs) n ↔ ∃ m, n = f.text.size + m ∧ Stands word fs m :=
    stands_cons.trans (or_iff_right fun hfirst => hf hfirst.2)
  cases found with
  | none =>
    have hnone : {n | Stands word fs n} = ∅ := h
    refine Set.eq_empty_iff_forall_notMem.2 fun n hn => ?_
    obtain ⟨m, -, hm⟩ := (hstands n).1 hn
    exact Set.eq_empty_iff_forall_notMem.1 hnone m hm
  | some first =>
    obtain ⟨hfirst, hleast⟩ : IsLeast {n | Stands word fs n} first := h
    refine ⟨(hstands _).2 ⟨first, rfl, hfirst⟩, fun n hn => ?_⟩
    obtain ⟨m, rfl, hm⟩ := (hstands n).1 hn
    exact Nat.add_le_add_left (hleast hm) _

/-- A search in code finds the first character outside literals from which on the text goes on
with the word. -/
theorem Splits.isFirst_cutCode (h : Splits t fs) (word : Text) :
    IsFirst {n | Stands word fs n}
      ((cutCode word.isPrefixOf .code t).map fun cut => cut.1.size) := by
  induction h with
  | nil =>
    rw [cutCode]
    exact Set.eq_empty_iff_forall_notMem.2 fun n hn => not_stands_nil word n hn
  | @char c r fs hc hr ih =>
    have hcode : Place.code.isCode c := by simp [Place.isCode, hc]
    have htext : ofFragments (.char c :: fs) = c :: r := by
      rw [ofFragments_cons, hr.ofFragments_eq]
      rfl
    rw [cutCode, hcode, Bool.true_and, Place.next_of_isCode hcode]
    by_cases hword : word <+: c :: r
    · rw [if_pos (List.isPrefixOf_iff_prefix.2 hword)]
      refine ⟨stands_cons.2 (.inl ⟨rfl, ⟨c, rfl⟩, ?_⟩), fun n _ => Nat.zero_le n⟩
      rwa [htext]
    · rw [if_neg (by rwa [List.isPrefixOf_iff_prefix])]
      have hrest := isFirst_cons (f := .char c) (fun hfirst => hword (htext ▸ hfirst.2)) ih
      simpa [Function.comp_def, Fragment.text] using hrest
  | @literal l r fs hbody _ ih =>
    rw [cutCode_literal hbody]
    have hliteral : ¬ ((∃ c, Fragment.literal l = .char c) ∧
        word <+: ofFragments (.literal l :: fs)) := by
      rintro ⟨⟨c, ⟨⟩⟩, -⟩
    have hrest := isFirst_cons hliteral ih
    simpa [Function.comp_def, Fragment.text] using hrest
  | @unclosed quote r hopen =>
    rw [cutCode_quote, (closing?_eq_none_iff quote.char_ne_backslash).2 hopen]
    refine Set.eq_empty_iff_forall_notMem.2 fun n hn => ?_
    obtain ⟨-, ⟨c, ⟨⟩⟩, -⟩ | ⟨m, -, hm⟩ := stands_cons.1 hn
    exact not_stands_nil word m hm

/-- A text splits into fragments in one way. From the byte at which one of its literals starts the
end of the literal is found, or none if it is never closed. A word, if it is not empty, is found at
the first character outside literals from which on the text goes on with it, and not found if there
is none, by the search through the characters and by the one through the bytes. -/
theorem scans_find_fragments (t : Text) : (∃! fs, Splits t fs) ∧ ∀ fs, Splits t fs →
    (∀ before l after, fs = before ++ .literal l :: after →
      Literal.end? t (ofFragments before).size =
        some ((ofFragments before).size + l.text.size)) ∧
    (∀ before quote r after, fs = before ++ .unclosed quote r :: after →
      Literal.end? t (ofFragments before).size = none) ∧
    ∀ word, word ≠ [] →
      (∀ n, t.findCode? word = some n ↔ IsLeast {n | Stands word fs n} n) ∧
      (t.findCode? word = none ↔ {n | Stands word fs n} = ∅) ∧
      (ByIndex.findCode? t word : Except (Halt Fault) (Option Nat)) = .ok (t.findCode? word) := by
  constructor
  · obtain ⟨fs, hfs⟩ := exists_splits t
    exact ⟨fs, hfs, fun gs hgs => hgs.unique hfs⟩
  · intro fs hfs
    refine ⟨?_, ?_, fun word hword => ?_⟩
    · rintro before l after rfl
      exact hfs.end?_literal
    · rintro before quote r after rfl
      exact hfs.end?_unclosed
    · have hfound : IsFirst {n | Stands word fs n} (t.findCode? word) := by
        rw [findCode?, if_neg hword]
        exact hfs.isFirst_cutCode word
      obtain ⟨hsome, hnone⟩ := isFirst_iff hfound
      exact ⟨hsome, hnone, ByIndex.findCode?_eq t word⟩

/-- The escaped quote does not end the literal, which hides the first `#`, and nothing ends the
last literal. -/
theorem scans_find_fragments_escaped :
    let l : Literal := ⟨['\\', '\x27', '#'], .single⟩
    let t : Text := ['é'] ++ l.text ++ ['#', '\x22', '#']
    let fs : List Fragment := [.char 'é', .literal l, .char '#', .unclosed .double ['#']]
    Splits t fs ∧ Literal.end? t 2 = some 7 ∧ Literal.end? t 8 = none ∧
      t.findCode? ['#'] = some 7 ∧ IsLeast {n | Stands ['#'] fs n} 7 ∧
      (ByIndex.findCode? t ['#'] : Except (Halt Fault) (Option Nat)) = .ok (some 7) := by
  intro l t fs
  have hclosing : closing? '\\' l.quote.char (l.body ++ [l.quote.char]) = some (l.body, []) := rfl
  have hopen : closing? '\\' Quote.double.char ['#'] = none := rfl
  have hsplits : Splits t fs :=
    .char rfl <| .literal (isBody_of_closing? hclosing) <| .char rfl <| .unclosed <|
      (closing?_eq_none_iff Quote.double.char_ne_backslash).1 hopen
  obtain ⟨hclosed, hunclosed, hfind⟩ := (scans_find_fragments t).2 fs hsplits
  obtain ⟨hsome, -, hbytes⟩ := hfind ['#'] (List.cons_ne_nil _ _)
  have hfound : t.findCode? ['#'] = some 7 := rfl
  exact ⟨hsplits, hclosed [.char 'é'] l _ rfl,
    hunclosed [.char 'é', .literal l, .char '#'] .double ['#'] [] rfl, hfound, (hsome 7).1 hfound,
    hfound ▸ hbytes⟩

end Text
end ExtendedBnf
