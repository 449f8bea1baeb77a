import ExtendedBnf.NodeGrammar
import ExtendedBnf.Proofs.NormalForm
import ExtendedBnf.Proofs.Pieces

/-!
# Runs that are merged

The two passes over a finished node grammar look for the same kind of run: a
literal, a joint, a middle, a joint, and another literal. The joints of strings are
those of sequences, and the joints of blanks those of choices. A pass never makes a
text longer, and it makes one shorter that has a run in it, so both passes together
leave just the texts alone that have no run of either kind.
-/
namespace ExtendedBnf
open Reader (Starts starts_cons)
open NodeGrammar (stringTokens? spaceTokens? mergeTokens)

namespace Splicing

/-- The texts between two tokens of a run. -/
inductive IsJoint : Splicing → Text → Prop
  | space : IsJoint row [' ']
  | bar {g h : Text} : g.isBlankText → h.isBlankText → IsJoint choice (g ++ '|' :: h)

/-- The literal at the start of a run. -/
def first : Splicing → Literal
  | row => ⟨['"'], .single⟩
  | choice => ⟨[' '], .single⟩

/-- What stands in the middle of a run. -/
def middle : Splicing → Text
  | row => "ANY*".toList
  | choice => "'\\t'".toList

/-- The literal at the end of a run. -/
def last : Splicing → Literal
  | row => ⟨['"'], .single⟩
  | choice => ⟨['\\', 'n'], .single⟩

variable {s : Splicing} {t : Text}

/-- The text goes on like a run after its first literal. -/
def Continues (s : Splicing) (t : Text) : Prop :=
  ∃ j k r, s.IsJoint j ∧ s.IsJoint k ∧ t = j ++ s.middle ++ k ++ s.last.text ++ r

/-- The text starts with a run. -/
def Runs (s : Splicing) (t : Text) : Prop := ∃ r, s.Continues r ∧ t = s.first.text ++ r

/-- There is a run in the text. -/
def HasRun (s : Splicing) (t : Text) : Prop := ∃ r, r <:+ t ∧ s.Runs r

end Splicing

namespace Text

/-- What follows a word after blanks. -/
theorem after?_trimStart_eq_some_iff {t word r : Text} (hword : Starts isInk word) :
    t.trimStart.after? word = some r ↔ ∃ g, g.isBlankText ∧ t = g ++ word ++ r := by
  rw [after?_eq_some_iff]
  constructor
  · intro h
    refine ⟨t.takeWhile isBlank, ?_, ?_⟩
    · exact List.all_eq_true.2 fun c hc => List.mem_takeWhile_imp hc
    · rw [List.append_assoc, ← h]
      exact List.takeWhile_append_dropWhile.symm
  · rintro ⟨g, hg, rfl⟩
    rw [List.append_assoc, trimStart_append hg, trimStart_of_starts (hword.append r)]

end Text

namespace Splicing

/-- The length of the run that a text starts with, if it starts with one. -/
def tokens? : Splicing → Text → Option Nat
  | row => stringTokens?
  | choice => spaceTokens?

variable {s : Splicing} {t : Text}

/-- Each pass finds the runs of its kind. -/
theorem tokens?_eq_some_iff {n : Nat} :
    s.tokens? t = some n ↔ ∃ j k r, s.IsJoint j ∧ s.IsJoint k ∧
      t = s.first.text ++ (j ++ s.middle ++ k ++ s.last.text ++ r) ∧ t.length - r.length = n := by
  cases s with
  | row =>
    simp only [tokens?, stringTokens?, Option.bind_eq_bind, Option.bind_eq_some_iff,
      Text.after?_eq_some_iff]
    constructor
    · rintro ⟨r, ht, hn⟩
      exact ⟨[' '], [' '], r, .space, .space, ht, Option.some.inj hn⟩
    · rintro ⟨_, _, r, ⟨⟩, ⟨⟩, ht, rfl⟩
      exact ⟨r, ht, rfl⟩
  | choice =>
    have hbar : Starts Text.isInk ['|'] := starts_cons.2 rfl
    have hmiddle : Starts Text.isInk "'\\t'".toList := starts_cons.2 rfl
    have hlast : Starts Text.isInk "'\\n'".toList := starts_cons.2 rfl
    simp only [tokens?, spaceTokens?, Option.bind_eq_bind, Option.bind_eq_some_iff,
      Text.after?_eq_some_iff, Text.after?_trimStart_eq_some_iff hbar,
      Text.after?_trimStart_eq_some_iff hmiddle, Text.after?_trimStart_eq_some_iff hlast]
    constructor
    · rintro ⟨_, rfl, _, ⟨g, hg, rfl⟩, _, ⟨h, hh, rfl⟩, _, ⟨g', hg', rfl⟩, r, ⟨h', hh', rfl⟩, hn⟩
      refine ⟨_, _, r, .bar hg hh, .bar hg' hh', ?_, Option.some.inj hn⟩
      simp [first, middle, last, Literal.text, Quote.char]
    · rintro ⟨_, _, r, hj, hk, ht, rfl⟩
      cases hj with
      | bar hg hh =>
        cases hk with
        | bar hg' hh' =>
          refine ⟨_, ?_, _, ⟨_, hg, rfl⟩, _, ⟨_, hh, rfl⟩, _, ⟨_, hg', rfl⟩, r, ⟨_, hh', rfl⟩, rfl⟩
          simp [ht, first, middle, last, Literal.text, Quote.char]

theorem tokens?_ne_none_iff : s.tokens? t ≠ none ↔ s.Runs t := by
  rw [Option.ne_none_iff_exists']
  constructor
  · rintro ⟨n, hn⟩
    obtain ⟨j, k, r, hj, hk, ht, -⟩ := tokens?_eq_some_iff.1 hn
    exact ⟨_, ⟨j, k, r, hj, hk, rfl⟩, ht⟩
  · rintro ⟨_, ⟨j, k, r, hj, hk, rfl⟩, ht⟩
    exact ⟨_, tokens?_eq_some_iff.2 ⟨j, k, r, hj, hk, ht, rfl⟩⟩

/-- A run is longer than what is put in its place. -/
theorem length_of_tokens? {n : Nat} (h : s.tokens? t = some n) : 5 < n ∧ n ≤ t.length := by
  obtain ⟨j, k, r, hj, hk, rfl, hn⟩ := tokens?_eq_some_iff.1 h
  have hfirst : 3 ≤ s.first.text.length := by cases s <;> decide
  have hlast : 3 ≤ s.last.text.length := by cases s <;> decide
  simp only [List.length_append] at hn ⊢
  omega

/-! ## What a pass does -/

theorem replaceAll_eq_self (h : ¬ s.HasRun t) (new : Text) : t.replaceAll s.tokens? new = t := by
  refine Text.replaceAll_eq_self (fun r hr => ?_) new
  by_contra hne
  exact h ⟨r, hr, tokens?_ne_none_iff.1 hne⟩

section
variable {new : Text} (hnew : new.length ≤ 5)
include hnew

theorem length_replaceAll_le (t : Text) : (t.replaceAll s.tokens? new).length ≤ t.length := by
  refine Text.length_replaceAll_le (fun r n hn => ?_) t
  have := length_of_tokens? hn
  omega

theorem length_replaceAll_lt (h : s.HasRun t) :
    (t.replaceAll s.tokens? new).length < t.length := by
  obtain ⟨r, hr, hruns⟩ := h
  refine Text.length_replaceAll_lt (fun r n hn => ?_) hr (tokens?_ne_none_iff.2 hruns)
  have := length_of_tokens? hn
  omega

end

end Splicing

/-- The passes leave a text alone just if there is no run of their kinds in it. -/
theorem NodeGrammar.mergeTokens_eq_self_iff_hasRun {t : Text} :
    mergeTokens t = t ↔ ∀ s : Splicing, ¬ s.HasRun t := by
  change (t.replaceAll Splicing.row.tokens? "'Str'".toList).replaceAll
      Splicing.choice.tokens? "' '".toList = t ↔ _
  have hstring : "'Str'".toList.length ≤ 5 := by decide
  have hblank : "' '".toList.length ≤ 5 := by decide
  constructor
  · intro heq s hrun
    by_cases hrow : Splicing.row.HasRun t
    · -- the second pass makes up for nothing that the first one took away
      have hfirst := Splicing.length_replaceAll_lt hstring hrow
      have hsecond := Splicing.length_replaceAll_le (s := .choice) hblank
        (t.replaceAll Splicing.row.tokens? "'Str'".toList)
      rw [heq] at hsecond
      omega
    · rw [Splicing.replaceAll_eq_self hrow] at heq
      cases s with
      | row => exact hrow hrun
      | choice =>
        have hless := Splicing.length_replaceAll_lt hblank hrun
        rw [heq] at hless
        exact Nat.lt_irrefl _ hless
  · intro hnone
    rw [Splicing.replaceAll_eq_self (hnone .row), Splicing.replaceAll_eq_self (hnone .choice)]

end ExtendedBnf
