import ExtendedBnf.Proofs.SoundTrees

/-!
# What a literal stands for

A literal can be written between quotes of either kind. The value of its body is what
does not depend on this: an escaped quote counts as the bare quote, and all else as it
is written. Other quotes around a literal change which quotes of its body are escaped,
and nothing else.
-/
namespace ExtendedBnf

namespace Quote

theorem char_injective : Function.Injective char := by
  intro p q h
  have hkinds := congrArg ofChar? h
  rwa [ofChar?_char, ofChar?_char, Option.some.injEq] at hkinds

theorem other_ne (q : Quote) : q.other ≠ q := by cases q <;> exact nofun

end Quote

namespace Literal

/-- The body with its escaped quotes bare. -/
def unescaped : Text → Text
  | [] => []
  | ['\\'] => ['\\']
  | '\\' :: c :: r =>
    if (Quote.ofChar? c).isSome then c :: unescaped r else '\\' :: c :: unescaped r
  | c :: r => c :: unescaped r

/-- What the literal stands for. -/
def value (l : Literal) : Text := unescaped l.body

/-- Whether the character is escaped somewhere in the body. -/
def escapes (c : Char) : Text → Bool
  | '\\' :: a :: r => a == c || escapes c r
  | _ :: r => escapes c r
  | [] => false

section
variable {a c : Char} {r : Text}

theorem unescaped_quote (quote : Quote) (r : Text) :
    unescaped ('\\' :: quote.char :: r) = quote.char :: unescaped r := by
  rw [unescaped, Quote.ofChar?_char, Option.isSome_some, if_pos rfl]

theorem unescaped_pair (h : Quote.ofChar? a = none) (r : Text) :
    unescaped ('\\' :: a :: r) = '\\' :: a :: unescaped r := by
  rw [unescaped, h]
  rfl

theorem unescaped_of_ne (h : a ≠ '\\') (r : Text) : unescaped (a :: r) = a :: unescaped r := by
  rw [unescaped] <;> simp [h]

theorem escapes_pair (c a : Char) (r : Text) :
    escapes c ('\\' :: a :: r) = (a == c || escapes c r) := by
  rw [escapes]

theorem escapes_of_ne (h : a ≠ '\\') (c : Char) (r : Text) : escapes c (a :: r) = escapes c r := by
  rw [escapes]
  exact fun _ _ heq => absurd heq h

end

section
variable {old new : Quote} {b : Text} (h : IsBody '\\' old.char b)
include h

/-- Quotes that become bare or escaped stand for themselves in both ways. -/
theorem unescaped_swapQuotes : unescaped (swapQuotes old.char new.char b) = unescaped b := by
  induction h with
  | nil => rfl
  | @pair a r _ ih =>
    rw [swapQuotes_pair]
    split_ifs with ha
    · rw [ha, unescaped_of_ne old.char_ne_backslash, unescaped_quote, ih]
    · cases hquote : Quote.ofChar? a with
      | some quote =>
        obtain rfl := Quote.ofChar?_eq_some_iff.1 hquote
        rw [unescaped_quote, unescaped_quote, ih]
      | none => rw [unescaped_pair hquote, unescaped_pair hquote, ih]
  | @plain a r hescape _ _ ih =>
    rw [swapQuotes_of_ne hescape, unescaped_of_ne hescape]
    split_ifs with ha
    · rw [ha, unescaped_quote, ih]
    · rw [unescaped_of_ne hescape, ih]

/-- What is lost on the way back is that the other quote was escaped without need. -/
theorem swapQuotes_swapQuotes_eq_iff (hne : old ≠ new) :
    swapQuotes new.char old.char (swapQuotes old.char new.char b) = b ↔
      escapes new.char b = false := by
  have hchars : old.char ≠ new.char := Quote.char_injective.ne hne
  induction h with
  | nil => exact iff_of_true rfl rfl
  | @pair a r _ ih =>
    rw [swapQuotes_pair, escapes_pair]
    split_ifs with hold
    · have hnew : (a == new.char) = false := beq_eq_false_iff_ne.2 (hold ▸ hchars)
      have hescape : a ≠ '\\' := hold ▸ old.char_ne_backslash
      rw [swapQuotes_of_ne hescape, if_pos hold, hnew, Bool.false_or]
      simpa using ih
    · rw [swapQuotes_pair]
      split_ifs with hnew
      · -- the pair has become a bare quote
        rw [beq_iff_eq.2 hnew, Bool.true_or]
        refine iff_of_false (fun heq => ?_) Bool.noConfusion
        exact new.char_ne_backslash (hnew ▸ (List.cons.inj heq).1)
      · rw [beq_eq_false_iff_ne.2 hnew, Bool.false_or]
        simpa using ih
  | @plain a r hescape hold _ ih =>
    rw [swapQuotes_of_ne hescape, escapes_of_ne hescape]
    split_ifs with hnew
    · rw [swapQuotes_pair, if_pos hnew]
      simpa using ih
    · rw [swapQuotes_of_ne hescape, if_neg hold]
      simpa using ih

end

variable {l : Literal}

theorem withQuote_of_ne {q : Quote} (h : l.quote ≠ q) :
    l.withQuote q = ⟨swapQuotes l.quote.char q.char l.body, q⟩ := if_neg h

theorem value_withQuote (h : l.isWhole) (q : Quote) : (l.withQuote q).value = l.value := by
  by_cases hq : l.quote = q
  · rw [← hq, withQuote_self]
  · rw [withQuote_of_ne hq]
    exact unescaped_swapQuotes (isWhole_iff.1 h)

/-- Between other quotes a literal stands for the same text, and ends where it is written to end. On
the way back to its own quotes it is the same literal unless it escapes the other quote, which it
need not. -/
theorem withQuote_keeps_value (h : l.isWhole) :
    (∀ q, (l.withQuote q).quote = q ∧ (l.withQuote q).isWhole ∧ (l.withQuote q).value = l.value) ∧
    ((l.withQuote l.quote.other).withQuote l.quote).value = l.value ∧
    ((l.withQuote l.quote.other).withQuote l.quote = l ↔
      escapes l.quote.other.char l.body = false) := by
  have hwhole (q : Quote) : (l.withQuote q).isWhole := isWhole_withQuote h q
  refine ⟨fun q => ⟨quote_withQuote q l, hwhole q, value_withQuote h q⟩, ?_, ?_⟩
  · rw [value_withQuote (hwhole _), value_withQuote h]
  · have hother : l.quote ≠ l.quote.other := l.quote.other_ne.symm
    rw [withQuote_of_ne hother, withQuote_of_ne hother.symm,
      ← swapQuotes_swapQuotes_eq_iff (isWhole_iff.1 h) hother]
    exact ⟨congrArg body, fun hbody => congrArg (Literal.mk · l.quote) hbody⟩

/-- A body with bare and escaped quotes of both kinds, an escaped backslash and a line feed. -/
theorem withQuote_keeps_value_both :
    let l : Literal := ⟨"it\\'s \"é\" \\\\ \\\"\\n".toList, .single⟩
    let other : Literal := ⟨"it's \\\"é\\\" \\\\ \\\"\\n".toList, .double⟩
    let back : Literal := ⟨"it\\'s \"é\" \\\\ \"\\n".toList, .single⟩
    l.isWhole ∧ l.withQuote .double = other ∧ other.withQuote .single = back ∧
      other.isWhole ∧ other.value = l.value ∧ back.value = l.value ∧ back ≠ l := by
  intro l other back
  have hwhole : l.isWhole := isWhole_iff.2 (isClosed_iff.1 (by decide +kernel))
  have hother : l.withQuote .double = other := rfl
  have hback : other.withQuote .single = back := rfl
  obtain ⟨hall, hvalue, heq⟩ := withQuote_keeps_value hwhole
  obtain ⟨-, hends, hsame⟩ := hall .double
  rw [show l.quote.other = .double from rfl, hother, show l.quote = .single from rfl, hback]
    at hvalue heq
  rw [hother] at hends hsame
  exact ⟨hwhole, hother, hback, hends, hsame, hvalue, fun h => absurd (heq.1 h) (by decide +kernel)⟩

end Literal
end ExtendedBnf
