import ExtendedBnf.Proofs.Runs

/-!
# Where runs are

The text of a node grammar has single-quoted literals only, and no backslash in
code. A run can start in a literal of such a text only at the last pair of quotes,
since a quote in a body is escaped, and nothing else that is read as code can be
the start. So a run is a literal that ends like the first one of the run, followed
by code and literals as they stand in the run.
-/
namespace ExtendedBnf
open Reader (Starts Stops starts_cons stops_cons)

section
variable {α : Type} {escape close : α}

/-- A body ends at the first closing symbol. -/
theorem IsBody.append_inj [DecidableEq α] {b b' r r' : List α} (hb : IsBody escape close b)
    (hb' : IsBody escape close b') (hne : close ≠ escape)
    (h : b ++ close :: r = b' ++ close :: r') : b = b' ∧ r = r' := by
  have hclosing := closing?_append hb hne r
  rw [h, closing?_append hb' hne r'] at hclosing
  simpa [eq_comm] using hclosing

/-- What a body ends with is a body, unless its first symbol is escaped. -/
theorem IsBody.of_suffix {b b' : List α} (hb : IsBody escape close b) (h : b' <:+ b) :
    IsBody escape close b' ∨ ∃ a r, b' = a :: r ∧ IsBody escape close r := by
  induction hb with
  | nil =>
    rw [List.suffix_nil.1 h]
    exact .inl .nil
  | @pair a r hr ih =>
    obtain rfl | h := List.suffix_cons_iff.1 h
    · exact .inl (.pair a hr)
    · obtain rfl | h := List.suffix_cons_iff.1 h
      · exact .inr ⟨a, r, rfl, hr⟩
      · exact ih h
  | @plain a r he hc hr ih =>
    obtain rfl | h := List.suffix_cons_iff.1 h
    · exact .inl (.plain he hc hr)
    · exact ih h

end

/-- A suffix of two texts together is one of the second or ends with the second. -/
theorem exists_of_suffix_append {α : Type} {u s t : List α} (h : u <:+ s ++ t) :
    u <:+ t ∨ ∃ v, v ≠ [] ∧ v <:+ s ∧ u = v ++ t := by
  induction s with
  | nil => exact .inl h
  | cons a s ih =>
    obtain rfl | h := List.suffix_cons_iff.1 h
    · exact .inr ⟨a :: s, List.cons_ne_nil a s, List.suffix_refl _, rfl⟩
    · refine (ih h).imp_right fun ⟨v, hne, hv, hu⟩ => ⟨v, hne, ?_, hu⟩
      exact hv.trans (List.suffix_cons a s)

/-- Whether a character of code is neither a quote nor a backslash. -/
def isBare (c : Char) : Bool := (Quote.ofChar? c).isNone && c != '\\'

/-- The text has single-quoted literals only, and no backslash in code. -/
abbrev IsTokens (t : Text) : Prop := Pieces isBare Literal.isSingle t

theorem ofChar?_of_isBare {c : Char} (h : isBare c) : Quote.ofChar? c = none := by
  simpa using (Bool.and_eq_true_iff.1 h).1

theorem Literal.text_of_isSingle {l : Literal} (h : l.isSingle) :
    l.text = '\x27' :: l.body ++ ['\x27'] := by
  rw [Literal.text, eq_of_beq h]
  rfl

namespace IsTokens
variable {c : Char} {r t : Text}

/-- Where there is no literal there is a character of code. -/
theorem cons_cases (h : IsTokens (c :: r)) : isBare c ∧ IsTokens r ∨
    c = '\x27' ∧ ∃ b u, IsBody '\\' '\x27' b ∧ r = b ++ '\x27' :: u ∧ IsTokens u := by
  generalize ht : c :: r = t at h
  cases h with
  | nil => cases ht
  | char hc hr =>
    cases ht
    exact .inl ⟨hc, hr⟩
  | @literal l u hbody hl hu =>
    rw [l.text_of_isSingle hl] at ht
    rw [eq_of_beq hl] at hbody
    obtain ⟨rfl, rfl⟩ := List.cons_eq_cons.1 ht
    exact .inr ⟨rfl, l.body, u, hbody, by simp, hu⟩

theorem isBare_or (h : IsTokens (c :: r)) : isBare c ∨ c = '\x27' :=
  h.cons_cases.imp And.left And.left

end IsTokens

namespace Splicing
variable {s : Splicing} {t r : Text}

/-- The character in the first literal of a run. -/
def mark : Splicing → Char
  | row => '"'
  | choice => ' '

theorem first_text (s : Splicing) : s.first.text = ['\x27', s.mark, '\x27'] := by
  cases s <;> rfl

theorem isBody_mark (s : Splicing) : IsBody '\\' '\x27' [s.mark] := by
  cases s <;> exact .plain (by decide) (by decide) .nil

theorem IsJoint.isBody {j : Text} (h : s.IsJoint j) : IsBody '\\' '\x27' j := by
  have hblank {g : Text} (hg : g.isBlankText) : ∀ c ∈ g, c ≠ '\\' ∧ c ≠ '\x27' := by
    intro c hc
    have hcblank := List.all_eq_true.1 hg c hc
    constructor <;> rintro rfl <;> cases hcblank
  refine .of_forall fun c hc => ?_
  cases h with
  | space =>
    obtain rfl := List.mem_singleton.1 hc
    decide
  | bar hg hh =>
    obtain hc | hc := List.mem_append.1 hc
    · exact hblank hg c hc
    · obtain rfl | hc := List.mem_cons.1 hc
      · decide
      · exact hblank hh c hc

/-- No run starts at a closing quote. -/
theorem not_runs_of_isTokens (h : IsTokens t) : ¬ s.Runs ('\x27' :: t) := by
  rintro ⟨r, ⟨j, k, u, hj, -, rfl⟩, heq⟩
  rw [first_text] at heq
  obtain rfl : t = s.mark :: '\x27' :: (j ++ s.middle ++ k ++ s.last.text ++ u) := by
    simpa using heq
  cases s with
  | row => obtain hbare | hquote := h.isBare_or <;> cases ‹_›
  | choice =>
    -- the joint would be a literal, and the middle would go on in code with a backslash
    obtain ⟨-, h⟩ | ⟨hquote, -⟩ := h.cons_cases
    · obtain ⟨hbare, -⟩ | ⟨-, b, v, hb, hv, hrest⟩ := h.cons_cases
      · cases hbare
      · have hsplit : j ++ '\x27' :: ('\\' :: 't' :: '\x27' :: (k ++ choice.last.text ++ u)) =
            b ++ '\x27' :: v := by simpa [middle] using hv
        obtain ⟨-, rfl⟩ := hj.isBody.append_inj hb (by decide) hsplit
        obtain hbare | hquote := hrest.isBare_or <;> cases ‹_›
    · cases hquote

/-- A run that starts in a literal starts with the last three characters of it. -/
theorem eq_first_of_runs {l : Literal} (hbody : IsBody '\\' l.quote.char l.body) (hl : l.isSingle)
    (hr : IsTokens r) {v : Text} (hv : v <:+ l.text) (hne : v ≠ []) (hruns : s.Runs (v ++ r)) :
    v = s.first.text ∧ s.Continues r := by
  rw [eq_of_beq hl] at hbody
  rw [l.text_of_isSingle hl] at hv
  obtain rfl | ⟨b, rfl, hb⟩ := List.suffix_concat_iff.1 hv
  · exact absurd rfl hne
  · cases b with
    | nil => exact absurd hruns (not_runs_of_isTokens hr)
    | cons a b =>
      obtain ⟨w, hw, heq⟩ := hruns
      rw [first_text] at heq
      obtain ⟨rfl, hrest⟩ : a = '\x27' ∧ b ++ '\x27' :: r = [s.mark] ++ '\x27' :: w := by
        simpa using heq
      have hb' : IsBody '\\' '\x27' b := by
        obtain heq | hb := List.suffix_cons_iff.1 hb
        · obtain rfl := (List.cons_eq_cons.1 heq).2
          exact hbody
        · obtain hquote | ⟨_, _, heq, hb'⟩ := IsBody.of_suffix hbody hb
          · -- a quote in a body is escaped
            cases hquote with
            | plain _ hne _ => exact absurd rfl hne
          · obtain rfl := (List.cons_eq_cons.1 heq).2
            exact hb'
      obtain ⟨rfl, rfl⟩ := hb'.append_inj s.isBody_mark (by decide) hrest
      exact ⟨(first_text s).symm, hw⟩

/-- A run starts in a literal only if that ends like the first literal of the run. -/
theorem of_runs_literal {l : Literal} (hbody : IsBody '\\' l.quote.char l.body) (hl : l.isSingle)
    (hr : IsTokens r) {u : Text} (hu : u <:+ l.text ++ r) (hruns : s.Runs u) :
    u <:+ r ∨ s.first.text <:+ l.text ∧ s.Continues r := by
  obtain hu | ⟨v, hne, hv, rfl⟩ := exists_of_suffix_append hu
  · exact .inl hu
  · obtain ⟨rfl, hcontinues⟩ := eq_first_of_runs hbody hl hr hv hne hruns
    exact .inr ⟨hv, hcontinues⟩

/-! ## Texts without a run -/

/-- What may come behind the text of an expression: tokens without a run of the kind. -/
structure Clear (s : Splicing) (t : Text) : Prop where
  tokens : IsTokens t
  none : ¬ s.HasRun t

theorem clear_nil (s : Splicing) : s.Clear [] := by
  refine ⟨.nil, ?_⟩
  rintro ⟨u, hu, w, -, heq⟩
  rw [List.suffix_nil.1 hu, first_text] at heq
  cases heq

theorem hasRun_cons {c : Char} (hc : c ≠ '\x27') : s.HasRun (c :: r) ↔ s.HasRun r := by
  constructor
  · rintro ⟨u, hu, hruns⟩
    obtain rfl | hu := List.suffix_cons_iff.1 hu
    · obtain ⟨w, -, heq⟩ := hruns
      rw [first_text] at heq
      exact absurd (List.cons_eq_cons.1 heq).1 hc
    · exact ⟨u, hu, hruns⟩
  · rintro ⟨u, hu, hruns⟩
    exact ⟨u, hu.trans (List.suffix_cons c r), hruns⟩

theorem Clear.cons {c : Char} (h : s.Clear r) (hc : isBare c) : s.Clear (c :: r) := by
  refine ⟨.char hc h.tokens, fun hrun => h.none ((hasRun_cons ?_).1 hrun)⟩
  rintro rfl
  cases hc

theorem Clear.append_of_forall (h : s.Clear r) (ht : ∀ c ∈ t, isBare c) : s.Clear (t ++ r) := by
  induction t with
  | nil => exact h
  | cons c t ih =>
    have hrest := ih fun d hd => ht d (List.mem_cons_of_mem c hd)
    exact hrest.cons (ht c List.mem_cons_self)

theorem Clear.literal {l : Literal} (h : s.Clear r) (hbody : IsBody '\\' l.quote.char l.body)
    (hl : l.isSingle) (hcontinues : s.first.text <:+ l.text → ¬ s.Continues r) :
    s.Clear (l.text ++ r) := by
  refine ⟨.literal hbody hl h.tokens, ?_⟩
  rintro ⟨u, hu, hruns⟩
  obtain hu | ⟨hfirst, hr⟩ := of_runs_literal hbody hl h.tokens hu hruns
  · exact h.none ⟨u, hu, hruns⟩
  · exact hcontinues hfirst hr

end Splicing
end ExtendedBnf
