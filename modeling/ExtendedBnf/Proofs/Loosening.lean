import ExtendedBnf.Proofs.LineParts
import ExtendedBnf.Proofs.Respacing
import Mathlib.Logic.Relation

/-!
# Texts of lines with more white space

A text of lines may get more white space where a line ends and in front of a bar.
Both are places in code, if no literal goes over a line feed: for a line end since no
literal is open there, for a bar since none is open where its line starts. So the text
says the same expression as before.
-/
namespace ExtendedBnf

theorem Place.eq_code_of_after_blank {here : Place} {g : Text} (hg : g.isBlankText)
    (h : here.after g = .code) : here = .code := by
  induction g generalizing here with
  | nil => exact h
  | cons c g ih =>
    obtain ⟨hc, hg⟩ := Bool.and_eq_true_iff.1 hg
    have hnext := ih hg h
    cases here with
    | code => rfl
    | escaped quote => cases hnext
    | inside quote =>
      rw [Place.next] at hnext
      split at hnext
      · cases hnext
      · split at hnext
        next hquote =>
          rw [hquote] at hc
          cases quote <;> cases hc
        · cases hnext

/-- Where no literal goes over a line feed, line feeds are code. -/
theorem HasLiterals.after_of_feed {t a b : Text} {ls : List Literal} (h : HasLiterals t ls)
    (hlines : ∀ l ∈ ls, '\n' ∉ l.body) (ht : t = a ++ '\n' :: b) : Place.code.after a = .code := by
  induction h generalizing a with
  | nil => cases a <;> cases ht
  | @char c t ls hc _ ih =>
    cases a with
    | nil => rfl
    | cons d a =>
      obtain ⟨rfl, htail⟩ := List.cons.inj ht
      rw [Place.after_cons, Place.next, HasLiterals.ofChar?_of_isOutside hc]
      exact ih hlines htail
  | @literal l t ls hbody _ ih =>
    obtain ⟨hl, hls⟩ := List.forall_mem_cons.1 hlines
    obtain ⟨z, rfl, hz⟩ | ⟨z, htext, hrest⟩ := List.append_eq_append_iff.1 ht
    · rw [Place.after_append, Place.after_literal hbody]
      exact ih hls hz
    · cases z with
      | nil =>
        rw [List.append_nil] at htext
        rw [← htext, Place.after_literal hbody]
      | cons d z =>
        obtain ⟨rfl, -⟩ := List.cons.inj hrest
        have hquote : '\n' ≠ l.quote.char := by cases l.quote <;> decide
        have hmem : '\n' ∈ l.text := by simp [htext]
        simp [Literal.text, hquote, hl] at hmem

namespace Text

/-- The text ends with a line feed. -/
def EndsLine (t : Text) : Prop := ∃ r, t = r ++ ['\n']

theorem EndsLine.append {t : Text} (h : t.EndsLine) (s : Text) : EndsLine (s ++ t) := by
  obtain ⟨r, rfl⟩ := h
  exact ⟨s ++ r, (List.append_assoc ..).symm⟩

/-- The text is made of whole lines. -/
def IsLines (t : Text) : Prop := t = [] ∨ t.EndsLine

/-- Every line but the last one ends with a line feed. -/
theorem ends_of_lines {t l : Text} {a b : List Text} (h : t.lines = a ++ l :: b) (hb : b ≠ []) :
    l.EndsLine := by
  induction t using lines_induction generalizing a with
  | nil => cases a <;> cases h
  | last r hne hr =>
    rw [lines_of_notMem hne hr] at h
    obtain ⟨-, h⟩ | ⟨a, -, h⟩ := List.cons_eq_append_iff.1 h
    · exact absurd (List.cons.inj h).2 hb
    · cases a <;> cases h
  | line r t hr ih =>
    rw [lines_append hr] at h
    obtain ⟨-, h⟩ | ⟨a, -, h⟩ := List.cons_eq_append_iff.1 h
    · exact ⟨r, (List.cons.inj h).1⟩
    · exact ih h

/-- The second text is the first one, which is read line by line, with more white space at one
place: at a line end, or in front of a bar of code. -/
inductive Loosens : Text → Text → Prop
  | gap (a b : Text) {g h : Text} : IsGap g → '\n' ∈ g → IsGap h → g.length ≤ h.length →
      Loosens (a ++ g ++ b) (a ++ h ++ b)
  | bar {a u h : Text} (b : Text) : a.IsLines → Place.code.after u = .code → IsGap h →
      Loosens (a ++ u ++ '|' :: b) (a ++ u ++ h ++ '|' :: b)

/-- The second text is the first one with more white space at line ends and in front of bars. -/
def Loosened : Text → Text → Prop := Relation.ReflTransGen Loosens

/-- White space may stand for a line feed. -/
theorem Loosens.feed (a b : Text) {h : Text} (hh : IsGap h) (hne : h ≠ []) :
    Loosens (a ++ '\n' :: b) (a ++ h ++ b) := by
  have hfeed : IsGap ['\n'] := List.forall_mem_singleton.2 rfl
  have hgap := gap a b hfeed List.mem_cons_self hh (List.length_pos_iff.2 hne)
  rwa [List.append_assoc, List.singleton_append] at hgap

theorem Loosens.append {t u : Text} (h : Loosens t u) (r : Text) : Loosens (t ++ r) (u ++ r) := by
  cases h with
  | gap a b hg hfeed hh hlength => simpa using Loosens.gap a (b ++ r) hg hfeed hh hlength
  | bar b ha hu hh => simpa using Loosens.bar (b ++ r) ha hu hh

theorem Loosens.isBlankText {t u : Text} (h : Loosens t u) : u.isBlankText = t.isBlankText := by
  cases h with
  | gap a b hg _ hh =>
    have hg := hg.isBlankText
    have hh := hh.isBlankText
    simp only [Text.isBlankText, List.all_append] at hg hh ⊢
    rw [hg, hh]
  | bar b =>
    have hbar : isBlank '|' = false := rfl
    simp [Text.isBlankText, hbar]

namespace Loosened
variable {t u : Text}

theorem append (h : Loosened t u) (r : Text) : Loosened (t ++ r) (u ++ r) := by
  induction h with
  | refl => exact .refl
  | tail _ hstep ih => exact ih.tail (hstep.append r)

theorem trans {v : Text} (h : Loosened t u) (h' : Loosened u v) : Loosened t v :=
  Relation.ReflTransGen.trans h h'

theorem isBlankText (h : Loosened t u) : u.isBlankText = t.isBlankText := by
  induction h with
  | refl => rfl
  | tail _ hstep ih => rw [hstep.isBlankText, ih]

end Loosened
end Text

theorem Respaced.of_gap {here : Place} {g h : Text} (hhere : here = .code) (hg : IsGap g)
    (hh : IsGap h) (hne : g ≠ []) (hlength : g.length ≤ h.length) : Respaced here g h := by
  subst hhere
  induction g generalizing h with
  | nil => exact absurd rfl hne
  | cons c g ih =>
    obtain ⟨hc, hg⟩ := List.forall_mem_cons.1 hg
    cases h with
    | nil => simp at hlength
    | cons d h =>
      cases g with
      | nil =>
        rw [← List.append_nil (d :: h)]
        exact .gap hc hh (List.cons_ne_nil d h) .nil
      | cons e g =>
        obtain ⟨hd, hh⟩ := List.forall_mem_cons.1 hh
        have hrest : Respaced .code (e :: g) h :=
          ih hg hh (List.cons_ne_nil e g) (by simpa using hlength)
        exact .gap (g := [d]) hc (List.forall_mem_singleton.2 hd) (List.cons_ne_nil d []) hrest

/-- Where no literal goes over a line feed, texts that differ in layout say the same. -/
theorem Says.loosened {t u : Text} {e : Expr} (hs : Says t e)
    (hlines : ∀ l ∈ e.literals, '\n' ∉ l.body) (h : t.Loosened u) : Says u e := by
  induction h with
  | refl => exact hs
  | @tail u v _ hstep ih =>
    refine ih.respaced ?_
    have hliterals := ih.hasLiterals
    have hfeeds {a b : Text} (hu : u = a ++ '\n' :: b) : Place.code.after a = .code :=
      hliterals.after_of_feed hlines hu
    cases hstep with
    | @gap a b g h hg hfeed hh hlength =>
      have hne : g ≠ [] := List.ne_nil_of_mem hfeed
      obtain ⟨x, y, hxy⟩ := List.append_of_mem hfeed
      have hx : IsGap x := fun c hc => hg c (hxy ▸ List.mem_append_left _ hc)
      have hplace : Place.code.after (a ++ x) = .code := hfeeds (b := y ++ b) (by simp [hxy])
      rw [Place.after_append] at hplace
      have ha := Place.eq_code_of_after_blank hx.isBlankText hplace
      exact ((Respaced.refl a).append (.of_gap ha hg hh hne hlength)).append (.refl b)
    | @bar a x h b ha hx hh =>
      have hplace : Place.code.after a = .code := by
        obtain rfl | ha := ha
        · rfl
        · obtain ⟨r, rfl⟩ := ha
          have hr := hfeeds (a := r) (b := x ++ '|' :: b) (by simp)
          rw [Place.after_append, hr]
          rfl
      rw [List.append_assoc (a ++ x) h]
      refine (Respaced.refl (a ++ x)).append ?_
      rw [Place.after_append, hplace, hx]
      exact .bar hh (.refl b)

end ExtendedBnf
