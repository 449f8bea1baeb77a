import ExtendedBnf.UpperCase

/-!
# Names

Rules are named by identifiers: letters, digits and underscores of ASCII, not
starting with a digit. Node grammars write the same names in Pascal case, where
each part between underscores starts with a capital and the underscores go.
-/
namespace ExtendedBnf

/-- Whether a name may start with the character. -/
def isNameStart (c : Char) : Bool := c.isAlpha || c == '_'

/-- Whether a name may go on with the character. -/
def isNameRest (c : Char) : Bool := c.isAlphanum || c == '_'

theorem isNameRest_of_isNameStart {c : Char} (h : isNameStart c) : isNameRest c := by
  simp only [isNameStart, isNameRest, Char.isAlphanum, Bool.or_eq_true] at h ⊢
  exact h.imp_left .inl

theorem toNat_of_isAlpha {c : Char} (h : c.isAlpha) :
    65 ≤ c.toNat ∧ c.toNat ≤ 90 ∨ 97 ≤ c.toNat ∧ c.toNat ≤ 122 := by
  obtain hupper | hlower := Bool.or_eq_true_iff.1 h
  · have hrange : 'A'.val ≤ c.val ∧ c.val ≤ 'Z'.val := of_decide_eq_true hupper
    exact .inl hrange
  · obtain ⟨hle, hge⟩ := Bool.and_eq_true_iff.1 hlower
    exact .inr ⟨of_decide_eq_true hle, of_decide_eq_true hge⟩

theorem toNat_of_isDigit {c : Char} (h : c.isDigit) : 48 ≤ c.toNat ∧ c.toNat ≤ 57 := by
  obtain ⟨hle, hge⟩ := Bool.and_eq_true_iff.1 h
  exact ⟨of_decide_eq_true hle, of_decide_eq_true hge⟩

/-- Names are in ASCII. -/
theorem toNat_lt_of_isNameRest {c : Char} (h : isNameRest c) : c.toNat < 0x80 := by
  simp only [isNameRest, Char.isAlphanum, Bool.or_eq_true, beq_iff_eq] at h
  rcases h with (hletter | hdigit) | rfl
  · have := toNat_of_isAlpha hletter
    omega
  · have := toNat_of_isDigit hdigit
    omega
  · decide

/-- What holds of the first characters one by one holds of the characters of ASCII. -/
theorem forall_ascii {p : Char → Prop} (h : ∀ n < 0x80, p (Char.ofNat n)) {c : Char}
    (hc : c.toNat < 0x80) : p c := by
  have hnat := h c.toNat hc
  rwa [Char.ofNat_toNat] at hnat

namespace Text

/-- Whether the text is a name. -/
def isName : Text → Bool
  | [] => false
  | c :: r => isNameStart c && r.all isNameRest

theorem isNameRest_of_mem {t : Text} (h : t.isName) {c : Char} (hc : c ∈ t) : isNameRest c := by
  cases t with
  | nil => cases h
  | cons d r =>
    obtain ⟨hd, hr⟩ := Bool.and_eq_true_iff.1 h
    obtain rfl | hc := List.mem_cons.1 hc
    · exact isNameRest_of_isNameStart hd
    · exact List.all_eq_true.1 hr c hc

theorem ne_nil_of_isName {t : Text} (h : t.isName) : t ≠ [] := by
  rintro rfl
  cases h

/-- The text with its first character in upper case. -/
def capitalize : Text → Text
  | [] => []
  | c :: r => upperCase c ++ r

/-- The name in Pascal case. A text of underscores alone keeps them. -/
def pascalCase (t : Text) : Text :=
  match (segments '_' t).flatMap capitalize with
  | [] => t
  | name => name

end Text
end ExtendedBnf
