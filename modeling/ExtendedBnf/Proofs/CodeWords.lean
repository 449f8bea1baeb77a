import ExtendedBnf.Proofs.MergedTokens
import ExtendedBnf.Proofs.TreeNames

/-!
# The words of a text

The words of a text are the longest rows of name characters outside literals. At a
character of another kind a text splits into parts whose words are apart. So the
words of an expression that node grammars can write are its names, one by one and
from left to right, and nothing that is in a literal counts as a word.
-/
namespace ExtendedBnf
open Reader (Stops stops_cons stops_nil)

namespace Text

/-- A word at its end, if there is one. -/
def endWord (word : Text) : List Text := if word.isEmpty then [] else [word]

/-- The words of a text that goes on at a place, and what was read of a word before it. -/
def wordsFrom : Place → Text → Text → List Text
  | _, word, [] => endWord word
  | here, word, c :: r =>
    if here.isCode c && isNameRest c then wordsFrom (here.next c) (word ++ [c]) r
    else endWord word ++ wordsFrom (here.next c) [] r

/-- The longest rows of name characters outside literals. -/
def words (t : Text) : List Text := wordsFrom .code [] t

variable {here : Place} {s t u : Text} {c : Char}

/-- A character of another kind ends a word. -/
theorem wordsFrom_cons (hc : isNameRest c = false) (r : Text) :
    wordsFrom here u (c :: r) = endWord u ++ wordsFrom (here.next c) [] r := by
  rw [wordsFrom, hc, Bool.and_false]
  rfl

theorem wordsFrom_append (ht : Stops isNameRest t) :
    wordsFrom here u (s ++ t) = wordsFrom here u s ++ wordsFrom (here.after s) [] t := by
  fun_induction wordsFrom here u s with
  | case1 here u =>
    cases t with
    | nil => exact (List.append_nil _).symm
    | cons c t =>
      have hc := stops_cons.1 ht
      rw [List.nil_append, Place.after_nil, wordsFrom_cons hc, wordsFrom_cons hc]
      rfl
  | case2 here u c r hc ih => rw [List.cons_append, wordsFrom, if_pos hc, ih, Place.after_cons]
  | case3 here u c r hc ih =>
    rw [List.cons_append, wordsFrom, if_neg hc, ih, Place.after_cons, List.append_assoc]

/-- Name characters in code are read into a word. -/
theorem wordsFrom_word (hs : ∀ c ∈ s, isNameRest c) :
    wordsFrom .code u (s ++ t) = wordsFrom .code (u ++ s) t := by
  induction s generalizing u with
  | nil => simp
  | cons c s ih =>
    have hc := hs c List.mem_cons_self
    have hcode : Place.code.isCode c := by
      simp [Place.isCode, ofChar?_of_isBare (isBare_of_isNameRest hc)]
    rw [List.cons_append, wordsFrom, if_pos (by simp [hcode, hc]), Place.next_of_isCode hcode,
      ih fun d hd => hs d (List.mem_cons_of_mem c hd)]
    simp

theorem words_of_isWord (h : s.isWord) : words s = [s] := by
  obtain ⟨hne, hs⟩ := isWord_iff.1 h
  have hwords := wordsFrom_word (u := []) (t := []) hs
  rw [List.append_nil] at hwords
  rw [words, hwords]
  simp [wordsFrom, endWord, hne]

theorem wordsFrom_inside {quote : Quote} {b : Text} (h : IsBody '\\' quote.char b) (r : Text) :
    wordsFrom (.inside quote) [] (b ++ quote.char :: r) = words r := by
  have hinside (c : Char) : (Place.inside quote).isCode c = false := rfl
  have hescaped (c : Char) : (Place.escaped quote).isCode c = false := rfl
  induction h with
  | nil => simp [wordsFrom, words, hinside, Place.next, quote.char_ne_backslash, endWord]
  | pair a _ ih => simp [wordsFrom, hinside, hescaped, Place.next, ih, endWord]
  | plain he hc _ ih => simp [wordsFrom, hinside, Place.next, he, hc, ih, endWord]

/-- A literal ends a word and has none. -/
theorem wordsFrom_literal {l : Literal} (h : IsBody '\\' l.quote.char l.body) (r : Text) :
    wordsFrom .code u (l.text ++ r) = endWord u ++ words r := by
  simp [Literal.text, wordsFrom, Place.isCode_char, Place.next_char, wordsFrom_inside h]

end Text

theorem IsTokens.after {t : Text} (h : IsTokens t) : Place.code.after t = .code := by
  induction h with
  | nil => rfl
  | char hc _ ih => rw [Place.after_cons, Place.next, ofChar?_of_isBare hc, ih]
  | literal hbody _ _ ih => rw [Place.after_append, Place.after_literal hbody, ih]

/-- Whether the character is in no word, no quote and no backslash. -/
def isApart (c : Char) : Bool := isBare c && !isNameRest c

theorem isApart_iff {c : Char} : isApart c ↔ isBare c ∧ isNameRest c = false := by
  rw [isApart, Bool.and_eq_true, Bool.not_eq_true']

namespace IsTokens
open Text (words)
variable {s t : Text} {c : Char}

/-- Tokens and what no word goes on with have their words apart. -/
theorem words_append (hs : IsTokens s) (ht : Stops isNameRest t) :
    words (s ++ t) = words s ++ words t := by
  rw [words, Text.wordsFrom_append ht, hs.after]
  rfl

theorem words_cons (h : isApart c) : words (c :: t) = words t := by
  obtain ⟨hbare, hrest⟩ := isApart_iff.1 h
  rw [words, Text.wordsFrom_cons hrest, Place.next, ofChar?_of_isBare hbare]
  rfl

theorem words_append_cons (hs : IsTokens s) (h : isApart c) :
    words (s ++ c :: t) = words s ++ words t := by
  rw [hs.words_append (stops_cons.2 (isApart_iff.1 h).2), words_cons h]

theorem words_operand (ht : IsTokens t) (least own : Precedence) :
    words (t.operand least own) = words t := by
  unfold Text.operand
  split
  · have hclose : words (t ++ [')']) = words t := by
      rw [ht.words_append_cons rfl]
      exact List.append_nil _
    rw [List.cons_append, words_cons rfl, hclose]
  · rfl

/-- Blanks and bars have no words. -/
theorem words_append_of_forall (hs : ∀ c ∈ s, isApart c) (t : Text) :
    words (s ++ t) = words t := by
  induction s with
  | nil => rfl
  | cons c s ih =>
    rw [List.cons_append, words_cons (hs c List.mem_cons_self)]
    exact ih fun d hd => hs d (List.mem_cons_of_mem c hd)

/-- Texts with blanks and bars between them have their words apart. -/
theorem words_join {j : Text} {ts : List Text} (hne : j ≠ []) (hj : ∀ c ∈ j, isApart c)
    (hts : ∀ t ∈ ts, IsTokens t) : words (Text.join j ts) = ts.flatMap words := by
  have hstops (u : Text) : Stops isNameRest (j ++ u) := by
    obtain ⟨c, k, rfl⟩ := List.exists_cons_of_ne_nil hne
    exact stops_cons.2 (isApart_iff.1 (hj c List.mem_cons_self)).2
  induction ts with
  | nil => rfl
  | cons t ts ih =>
    have ht := hts t List.mem_cons_self
    cases ts with
    | nil => simp [Text.join]
    | cons t' ts =>
      have hrest := ih fun x hx => hts x (List.mem_cons_of_mem t hx)
      rw [List.flatMap_cons, Text.join_cons_cons, ht.words_append (hstops _),
        words_append_of_forall hj, hrest]

end IsTokens

namespace Expr
open Text (words)
variable {e : Expr} {es : List Expr}

theorem IsPlain.isTokens_operandTexts {least : Precedence} (h : ∀ e ∈ es, e.IsPlain) :
    ∀ t ∈ operandTexts least es, IsTokens t := by
  rw [operandTexts_eq_map]
  exact List.forall_mem_map.2 fun e he => (h e he).isTokens.operand (by decide) (by decide) ..

/-- Parts with a blank or a bar between them have their words apart. -/
theorem IsPlain.words_operandTexts {j : Text} {least : Precedence} (hne : j ≠ [])
    (hj : j.all isApart) (hes : ∀ e ∈ es, e.IsPlain) (h : ∀ e ∈ es, words e.text = e.names) :
    words (Text.join j (operandTexts least es)) = namesOf es := by
  rw [IsTokens.words_join hne (List.all_eq_true.1 hj) (isTokens_operandTexts hes),
    operandTexts_eq_map, List.flatMap_map, namesOf_eq_flatMap]
  refine List.flatMap_congr fun e he => ?_
  rw [(hes e he).isTokens.words_operand, h e he]

/-- The words of what is written for a tree are its names. -/
theorem IsPlain.words_text (h : e.IsPlain) : words e.text = e.names := by
  have hmark {e : Expr} {c : Char} (h : e.IsPlain) (hc : isApart c) :
      words (e.text.operand .atom e.precedence ++ [c]) = words e.text := by
    have htokens : IsTokens (e.text.operand .atom e.precedence) :=
      h.isTokens.operand (by decide) (by decide) ..
    rw [htokens.words_append_cons hc, h.isTokens.words_operand]
    exact List.append_nil _
  induction e with
  | name n => exact Text.words_of_isWord (all_iff.1 h.sound).1
  | literal l =>
    obtain ⟨hwhole, -⟩ := Bool.and_eq_true_iff.1 (all_iff.1 h.sound).1
    have hwords := Text.wordsFrom_literal (u := []) (Literal.isWhole_iff.1 hwhole) []
    rwa [List.append_nil] at hwords
  | seq es ih | alt es ih =>
    have hes : ∀ e ∈ es, e.IsPlain := fun e he => h.child he
    exact words_operandTexts (by decide) (by decide) hes fun e he => ih e he (hes e he)
  | optional e ih | star e ih | plus e ih =>
    have he := h.child List.mem_cons_self
    exact (hmark he (by decide)).trans (ih he)
  | repeated e | ahead e | notAhead e | list e => cases h.has_form rfl

/-- So are the words of what is written for a whole body. -/
theorem IsPlain.words_bodyText {t : Text} (h : e.IsPlain) (ht : NodeGrammar.bodyText e = .ok t) :
    IsTokens t ∧ words t = e.names := by
  cases e with
  | alt es =>
    cases (NodeGrammar.bodyText_alt h).symm.trans ht
    have hes : ∀ e ∈ es, e.IsPlain := fun e he => h.child he
    refine ⟨.join (.of_all (by decide)) (isTokens_operandTexts hes), ?_⟩
    exact words_operandTexts (by decide) (by decide) hes fun e he => (hes e he).words_text
  | _ =>
    cases (textIn_eq_ok h.suits).symm.trans ht
    exact ⟨h.isTokens, h.words_text⟩

end Expr
end ExtendedBnf
