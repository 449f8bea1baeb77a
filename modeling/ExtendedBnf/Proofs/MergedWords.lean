import ExtendedBnf.Proofs.CodeWords
import ExtendedBnf.Proofs.MergedBlocks

/-!
# Words and merged tokens

Merging tokens takes the word `ANY` out of every quoted string that it finds, and no
other word out of a text. What a pass puts in stands at the end of a literal, which
is one literal again, so the text is still made of tokens, and code stays code.
-/
namespace ExtendedBnf
open Reader (Starts starts_cons)
open NodeGrammar (mergeTokens)
open Text (words wordsFrom endWord)

namespace Text
variable {token : Text → Option Nat} {new a b : Text}

theorem replaceFrom_eq_drop (n : Nat) (t : Text) :
    replaceFrom token new n t = replaceAll (t.drop n) token new := by
  induction t generalizing n with
  | nil => cases n <;> rfl
  | cons c r ih =>
    cases n with
    | zero => rfl
    | succ n => exact ih n

/-- A text that starts with a token is replaced there, and goes on behind it. -/
theorem replaceAll_token (ha : a ≠ []) (h : token (a ++ b) = some a.length) :
    (a ++ b).replaceAll token new = new ++ b.replaceAll token new := by
  obtain ⟨c, r, rfl⟩ := List.exists_cons_of_ne_nil ha
  have hc : token (c :: (r ++ b)) = some (r.length + 1) := h
  rw [List.cons_append, replaceAll, replaceFrom, hc]
  dsimp only
  rw [replaceFrom_eq_drop, List.drop_left]

/-- A text is passed over up to where the first token starts. -/
theorem replaceAll_append_of_suffixes (h : ∀ v, v <:+ a → v ≠ [] → token (v ++ b) = none) :
    (a ++ b).replaceAll token new = a ++ b.replaceAll token new := by
  induction a with
  | nil => rfl
  | cons c a ih =>
    have hhere : token (c :: (a ++ b)) = none := h _ (List.suffix_refl _) (List.cons_ne_nil c a)
    have hrest := ih fun v hv => h v (hv.trans (List.suffix_cons c a))
    rw [List.cons_append, replaceAll, replaceFrom, hhere]
    exact congrArg (c :: ·) hrest

end Text

/-- What comes after an escaped closing symbol of a body may be any body. -/
theorem IsBody.replace_end {α : Type} {escape close : α} {y w w' : List α}
    (h : IsBody escape close (y ++ close :: w)) (hne : close ≠ escape)
    (hw' : IsBody escape close w') : IsBody escape close (y ++ close :: w') := by
  generalize hb : y ++ close :: w = b at h
  induction h generalizing y with
  | nil => simp at hb
  | @pair a r _ ih =>
    cases y with
    | nil => exact absurd (List.cons_eq_cons.1 hb).1 hne
    | cons d y =>
      obtain ⟨rfl, hrest⟩ : d = escape ∧ y ++ close :: w = a :: r := by simpa using hb
      cases y with
      | nil => exact .pair close hw'
      | cons d' y =>
        obtain ⟨rfl, hend⟩ : d' = a ∧ y ++ close :: w = r := by simpa using hrest
        exact .pair d' (ih hend)
  | @plain a r he hc _ ih =>
    cases y with
    | nil => exact absurd (List.cons_eq_cons.1 hb).1.symm hc
    | cons d y =>
      obtain ⟨rfl, hrest⟩ : d = a ∧ y ++ close :: w = r := by simpa using hb
      exact .plain he hc (ih hrest)

namespace IsTokens
variable {s t : Text} {l : Literal}

theorem of_append_bare (hs : ∀ c ∈ s, isBare c) (h : IsTokens (s ++ t)) : IsTokens t := by
  induction s with
  | nil => exact h
  | cons c s ih =>
    obtain ⟨-, hrest⟩ | ⟨rfl, -⟩ := h.cons_cases
    · exact ih (fun d hd => hs d (List.mem_cons_of_mem c hd)) hrest
    · cases hs _ List.mem_cons_self

theorem of_append_literal (hbody : IsBody '\\' l.quote.char l.body) (hl : l.isSingle)
    (h : IsTokens (l.text ++ t)) : IsTokens t := by
  rw [l.text_of_isSingle hl] at h
  rw [eq_of_beq hl] at hbody
  obtain ⟨hbare, -⟩ | ⟨-, b, u, hb, heq, hu⟩ := h.cons_cases
  · cases hbare
  · have hsplit : l.body ++ '\x27' :: t = b ++ '\x27' :: u := by simpa using heq
    obtain ⟨-, rfl⟩ := hbody.append_inj hb (by decide) hsplit
    exact hu

end IsTokens

namespace Splicing
variable {s : Splicing} {r t : Text}

/-- What is put in place of a run. -/
def merged : Splicing → Literal
  | row => ⟨"Str".toList, .single⟩
  | choice => ⟨[' '], .single⟩

/-- The words in a run. -/
def middleWords : Splicing → List Text
  | row => ["ANY".toList]
  | choice => []

theorem isBody_merged (s : Splicing) : IsBody '\\' '\x27' s.merged.body := by
  have hplain (h : s.merged.body.all fun c => c != '\\' && c != '\x27') :
      IsBody '\\' '\x27' s.merged.body :=
    .of_forall fun c hc => by simpa using List.all_eq_true.1 h c hc
  cases s <;> exact hplain rfl

theorem isBody_last (s : Splicing) : IsBody '\\' '\x27' s.last.body := by
  cases s with
  | row => exact isBody_mark row
  | choice => exact .pair 'n' .nil

theorem isSingle_last (s : Splicing) : s.last.isSingle := by cases s <;> rfl

/-- A joint has no quote, no backslash and no word. -/
theorem IsJoint.isApart {j : Text} (h : s.IsJoint j) : ∀ c ∈ j, isApart c := by
  have hblank {c : Char} (hc : Text.isBlank c) : ExtendedBnf.isApart c := by
    have hne {d : Char} (hd : Text.isBlank d = false) : c ≠ d := by
      rintro rfl
      rw [hc] at hd
      cases hd
    have hsingle : c ≠ '\x27' := hne rfl
    have hdouble : c ≠ '"' := hne rfl
    have hslash : c ≠ '\\' := hne rfl
    have hbare : isBare c := by
      simp [isBare, Quote.ofChar?, Quote.char, hsingle, hdouble, hslash]
    refine isApart_iff.2 ⟨hbare, ?_⟩
    by_contra hrest
    have hink := Text.isInk_of_isNameRest (Bool.not_eq_false _ ▸ hrest)
    simp [Text.isInk, hc] at hink
  intro c hc
  cases h with
  | space => exact hblank (List.mem_singleton.1 hc ▸ rfl)
  | bar hg hh =>
    obtain hc | hc := List.mem_append.1 hc
    · exact hblank (List.all_eq_true.1 hg c hc)
    · obtain rfl | hc := List.mem_cons.1 hc
      · rfl
      · exact hblank (List.all_eq_true.1 hh c hc)

theorem of_middle (h : IsTokens (s.middle ++ t)) : IsTokens t := by
  cases s with
  | row => exact h.of_append_bare (List.all_eq_true.1 (by decide))
  | choice =>
    have hbody : IsBody '\\' '\x27' ['\\', 't'] := .pair 't' .nil
    exact IsTokens.of_append_literal (l := ⟨['\\', 't'], .single⟩) hbody rfl h

theorem words_middle (s : Splicing) (t : Text) :
    words (s.middle ++ t) = s.middleWords ++ words t := by
  cases s with
  | row => rfl
  | choice =>
    have hbody : IsBody '\\' '\x27' ['\\', 't'] := .pair 't' .nil
    exact Text.wordsFrom_literal (l := ⟨['\\', 't'], .single⟩) hbody t

/-- What comes after a run is tokens, and has the words that are not in the run. -/
theorem of_continues {j k : Text} (hj : s.IsJoint j) (hk : s.IsJoint k)
    (h : IsTokens (j ++ s.middle ++ k ++ s.last.text ++ r)) : IsTokens r ∧
      words (j ++ s.middle ++ k ++ s.last.text ++ r) = s.middleWords ++ words r := by
  have hlast : s.last.quote = .single := by cases s <;> rfl
  have hbody : IsBody '\\' s.last.quote.char s.last.body := by
    rw [hlast]
    exact s.isBody_last
  have hwords : words (s.last.text ++ r) = words r := Text.wordsFrom_literal hbody r
  rw [List.append_assoc, List.append_assoc, List.append_assoc] at h ⊢
  have hmiddle := of_middle (h.of_append_bare fun c hc => (isApart_iff.1 (hj.isApart c hc)).1)
  have hend := hmiddle.of_append_bare fun c hc => (isApart_iff.1 (hk.isApart c hc)).1
  refine ⟨hend.of_append_literal hbody s.isSingle_last, ?_⟩
  rw [IsTokens.words_append_of_forall hj.isApart, words_middle,
    IsTokens.words_append_of_forall hk.isApart, hwords]

/-- A run is replaced in the literal where it starts, or the literal is passed over. -/
theorem replaceAll_literal {l : Literal} (hbody : IsBody '\\' l.quote.char l.body)
    (hl : l.isSingle) (hr : IsTokens r) (new : Text) :
    (l.text ++ r).replaceAll s.tokens? new = l.text ++ r.replaceAll s.tokens? new ∨
      ∃ x j k r', l.text = x ++ s.first.text ∧ s.IsJoint j ∧ s.IsJoint k ∧
        r = j ++ s.middle ++ k ++ s.last.text ++ r' ∧
        (l.text ++ r).replaceAll s.tokens? new = x ++ new ++ r'.replaceAll s.tokens? new := by
  by_cases hruns : s.first.text <:+ l.text ∧ s.Continues r
  · obtain ⟨⟨x, hx⟩, j, k, r', hj, hk, rfl⟩ := hruns
    refine .inr ⟨x, j, k, r', hx.symm, hj, hk, rfl, ?_⟩
    have hrun : s.tokens? (s.first.text ++ (j ++ s.middle ++ k ++ s.last.text) ++ r') =
        some (s.first.text ++ (j ++ s.middle ++ k ++ s.last.text)).length := by
      refine tokens?_eq_some_iff.2 ⟨j, k, r', hj, hk, by simp only [List.append_assoc], ?_⟩
      rw [List.length_append, Nat.add_sub_cancel]
    have hne : s.first.text ++ (j ++ s.middle ++ k ++ s.last.text) ≠ [] := by
      rw [first_text]
      exact List.cons_ne_nil _ _
    rw [← hx, List.append_assoc, Text.replaceAll_append_of_suffixes fun v hv hvne => ?_,
      ← List.append_assoc s.first.text, Text.replaceAll_token hne hrun, List.append_assoc]
    by_contra hsome
    have hsuffix : v ++ s.first.text <:+ l.text := by
      obtain ⟨y, rfl⟩ := hv
      exact ⟨y, by rw [← hx, List.append_assoc]⟩
    have hruns : s.Runs (v ++ s.first.text ++ (j ++ s.middle ++ k ++ s.last.text ++ r')) := by
      rw [List.append_assoc]
      exact tokens?_ne_none_iff.1 hsome
    have hfirst := (eq_first_of_runs hbody hl hr hsuffix (by simp [hvne]) hruns).1
    exact hvne (by simpa using hfirst)
  · refine .inl (Text.replaceAll_append_of_suffixes fun v hv hne => ?_)
    by_contra hsome
    obtain ⟨rfl, hcontinues⟩ := eq_first_of_runs hbody hl hr hv hne (tokens?_ne_none_iff.1 hsome)
    exact hruns ⟨hv, hcontinues⟩

/-- A literal that ends like the first one of a run ends with what is merged, and is a literal. -/
theorem exists_literal_of_first {l : Literal} {x : Text} (hbody : IsBody '\\' l.quote.char l.body)
    (hl : l.isSingle) (hx : l.text = x ++ s.first.text) :
    ∃ l' : Literal, IsBody '\\' l'.quote.char l'.body ∧ l'.isSingle ∧
      l'.text = x ++ s.merged.text := by
  rw [l.text_of_isSingle hl, first_text] at hx
  rw [eq_of_beq hl] at hbody
  have hmerged : s.merged.text = '\x27' :: s.merged.body ++ ['\x27'] := by cases s <;> rfl
  cases x with
  | nil =>
    refine ⟨⟨s.merged.body, .single⟩, s.isBody_merged, rfl, ?_⟩
    rw [hmerged, List.nil_append]
    rfl
  | cons d y =>
    obtain ⟨rfl, hrest⟩ : d = '\x27' ∧ l.body ++ ['\x27'] = y ++ ['\x27', s.mark] ++ ['\x27'] := by
      simpa [eq_comm] using hx
    rw [List.append_cancel_right hrest] at hbody
    refine ⟨⟨y ++ '\x27' :: s.merged.body, .single⟩,
      hbody.replace_end (by decide) s.isBody_merged, rfl, ?_⟩
    rw [hmerged]
    simp [Literal.text, Quote.char]

/-- Whether merging tokens leaves the word in a text. -/
def isKept (word : Text) : Bool := word != "ANY".toList

/-- A pass leaves tokens, and all words but `ANY`. -/
theorem words_replaceAll (h : IsTokens t) :
    IsTokens (t.replaceAll s.tokens? s.merged.text) ∧
      ∀ u, (wordsFrom .code u (t.replaceAll s.tokens? s.merged.text)).filter isKept =
        (wordsFrom .code u t).filter isKept := by
  -- a run goes up to a later literal, so what is left after it is shorter but not the next tail
  induction hlen : t.length using Nat.strong_induction_on generalizing t with
  | _ n ih =>
    subst hlen
    cases h with
    | nil => exact ⟨.nil, fun _ => rfl⟩
    | @char c r hc hr =>
      have hquote : '\x27' ∉ [c] := by
        rw [List.mem_singleton]
        rintro rfl
        cases hc
      obtain ⟨htokens, hwords⟩ := ih r.length (Nat.lt_succ_self _) hr rfl
      rw [← List.singleton_append, replaceAll_append_of_notMem hquote]
      refine ⟨.char hc htokens, fun u => ?_⟩
      have hnext : Place.next .code c = .code := by rw [Place.next, ofChar?_of_isBare hc]
      rw [List.singleton_append, List.singleton_append, wordsFrom, wordsFrom, hnext]
      split
      · exact hwords _
      · rw [List.filter_append, List.filter_append]
        exact congrArg _ (hwords [])
    | @literal l r hbody hl hr =>
      have hless : r.length < (l.text ++ r).length := by
        simp only [Literal.text, List.length_append, List.length_cons]
        omega
      obtain heq | ⟨x, j, k, r', hx, hj, hk, rfl, heq⟩ :=
        replaceAll_literal (s := s) hbody hl hr s.merged.text
      · obtain ⟨htokens, hwords⟩ := ih r.length hless hr rfl
        rw [heq]
        refine ⟨.literal hbody hl htokens, fun u => ?_⟩
        rw [Text.wordsFrom_literal hbody, Text.wordsFrom_literal hbody, List.filter_append,
          List.filter_append]
        exact congrArg _ (hwords [])
      · obtain ⟨l', hbody', hl', hl'text⟩ := exists_literal_of_first hbody hl hx
        obtain ⟨hr', hrun⟩ := of_continues hj hk hr
        have hshort := (List.suffix_append (j ++ s.middle ++ k ++ s.last.text) r').length_le
        obtain ⟨htokens, hwords⟩ := ih r'.length (Nat.lt_of_le_of_lt hshort hless) hr' rfl
        rw [heq, ← hl'text]
        refine ⟨.literal hbody' hl' htokens, fun u => ?_⟩
        have hmiddle : s.middleWords.filter isKept = [] := by cases s <;> rfl
        rw [Text.wordsFrom_literal hbody, Text.wordsFrom_literal hbody', hrun, List.filter_append,
          List.filter_append, List.filter_append, hmiddle]
        exact congrArg _ (hwords [])

end Splicing

/-- Merging tokens leaves all words of a text but `ANY`. -/
theorem NodeGrammar.words_mergeTokens {t : Text} (h : IsTokens t) :
    (words (mergeTokens t)).filter Splicing.isKept = (words t).filter Splicing.isKept := by
  obtain ⟨htokens, hfirst⟩ := Splicing.words_replaceAll (s := .row) h
  obtain ⟨-, hsecond⟩ := Splicing.words_replaceAll (s := .choice) htokens
  exact (hsecond []).trans (hfirst [])

end ExtendedBnf
