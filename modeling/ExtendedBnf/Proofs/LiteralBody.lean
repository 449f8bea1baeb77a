import ExtendedBnf.Literal
import Mathlib.Tactic.Common

/-!
# Bodies of literals

A body is a run of escape pairs and of symbols that are neither the escape nor
the closing symbol. The search for the end of a literal stops right after such a
run, and it can be made on the bytes of a text as well as on its characters: no
byte of a character beyond ASCII is a quote or a backslash.
-/
namespace ExtendedBnf

/-- Escape pairs, and symbols that are neither the escape nor the closing symbol. -/
inductive IsBody {α : Type} (escape close : α) : List α → Prop
  | nil : IsBody escape close []
  | pair (a : α) {r : List α} : IsBody escape close r → IsBody escape close (escape :: a :: r)
  | plain {a : α} {r : List α} : a ≠ escape → a ≠ close → IsBody escape close r →
      IsBody escape close (a :: r)

theorem IsBody.of_forall {α : Type} {escape close : α} {b : List α}
    (h : ∀ a ∈ b, a ≠ escape ∧ a ≠ close) : IsBody escape close b := by
  induction b with
  | nil => exact .nil
  | cons a r ih =>
    obtain ⟨he, hc⟩ := h a List.mem_cons_self
    exact .plain he hc (ih fun x hx => h x (List.mem_cons_of_mem a hx))

section
variable {α : Type} [DecidableEq α] {escape close : α}

theorem isBody_of_closing? {s body rest : List α}
    (h : closing? escape close s = some (body, rest)) : IsBody escape close body := by
  fun_induction closing? escape close s generalizing body rest with
  | case1 => simp at h
  | case2 => simp at h
  | case3 b r ih =>
    obtain ⟨split, hs, heq⟩ := Option.map_eq_some_iff.1 h
    cases heq
    exact .pair b (ih hs)
  | case4 r he =>
    cases h
    exact .nil
  | case5 a r he hc ih =>
    obtain ⟨split, hs, heq⟩ := Option.map_eq_some_iff.1 h
    cases heq
    exact .plain he hc (ih hs)

/-- What closes a body is the first closing symbol after it. -/
theorem closing?_append {body : List α} (hbody : IsBody escape close body) (hne : close ≠ escape)
    (rest : List α) : closing? escape close (body ++ close :: rest) = some (body, rest) := by
  induction hbody with
  | nil => exact closing?_close hne rest
  | pair a _ ih => simp [ih]
  | plain he hc _ ih => simp [closing?_of_ne he hc, ih]

theorem Literal.isClosed_iff {l : Literal} : l.IsClosed ↔ IsBody '\\' l.quote.char l.body :=
  ⟨isBody_of_closing?, fun h => closing?_append h l.quote.char_ne_backslash []⟩

/-- Symbols that are neither the escape nor the closing symbol stay in front of the end. -/
theorem closing?_append_of_plain {s : List α} (h : ∀ a ∈ s, a ≠ escape ∧ a ≠ close) (r : List α) :
    closing? escape close (s ++ r) =
      (closing? escape close r).map fun split => (s ++ split.1, split.2) := by
  induction s with
  | nil => simp
  | cons a s ih =>
    obtain ⟨he, hc⟩ := h a List.mem_cons_self
    have hs := ih fun b hb => h b (List.mem_cons_of_mem a hb)
    rw [List.cons_append, closing?_of_ne he hc, hs]
    simp [Function.comp_def]

end

theorem utf8EncodeChar_of_lt {c : Char} (h : c.toNat < 0x80) :
    String.utf8EncodeChar c = [UInt8.ofNat c.toNat] := by
  have hle : c.val.toNat ≤ 0x7F := Nat.le_of_lt_succ h
  rw [String.utf8EncodeChar, if_pos hle]
  rfl

/-- A byte of a character beyond ASCII is beyond ASCII. -/
theorem le_toNat_of_mem_utf8EncodeChar {c : Char} {b : UInt8} (h : 0x80 ≤ c.toNat)
    (hb : b ∈ String.utf8EncodeChar c) : 0x80 ≤ b.toNat := by
  have hle : ¬ c.val.toNat ≤ 0x7F := Nat.not_le.2 h
  rw [String.utf8EncodeChar, if_neg hle] at hb
  split at hb
  · simp only [List.mem_cons, List.not_mem_nil, or_false] at hb
    rcases hb with rfl | rfl <;> simp <;> omega
  · split at hb
    · simp only [List.mem_cons, List.not_mem_nil, or_false] at hb
      rcases hb with rfl | rfl | rfl <;> simp <;> omega
    · simp only [List.mem_cons, List.not_mem_nil, or_false] at hb
      rcases hb with rfl | rfl | rfl | rfl <;> simp <;> omega

theorem toNat_ofNat_of_lt {c : Char} (h : c.toNat < 0x80) :
    (UInt8.ofNat c.toNat).toNat = c.toNat := by
  rw [UInt8.toNat_ofNat']
  omega

theorem ne_of_le_toNat {c : Char} {b : UInt8} (hc : c.toNat < 0x80) (hb : 0x80 ≤ b.toNat) :
    b ≠ UInt8.ofNat c.toNat := by
  rintro rfl
  rw [toNat_ofNat_of_lt hc] at hb
  omega

/-- The byte of an ASCII character is in no other character. -/
theorem ne_of_mem_utf8EncodeChar {c d : Char} {b : UInt8} (hd : d.toNat < 0x80) (hne : c ≠ d)
    (hb : b ∈ String.utf8EncodeChar c) : b ≠ UInt8.ofNat d.toNat := by
  by_cases hc : c.toNat < 0x80
  · rw [utf8EncodeChar_of_lt hc, List.mem_singleton] at hb
    rintro rfl
    have hvalue := congrArg UInt8.toNat hb
    rw [toNat_ofNat_of_lt hc, toNat_ofNat_of_lt hd] at hvalue
    exact hne (Char.toNat_inj.1 hvalue.symm)
  · exact ne_of_le_toNat hd (le_toNat_of_mem_utf8EncodeChar (Nat.le_of_not_lt hc) hb)

/-- The byte of a quote is in no character that is not a quote. -/
theorem ne_quote_of_mem_utf8EncodeChar {c : Char} {b : UInt8} (hc : Quote.ofChar? c = none)
    (hb : b ∈ String.utf8EncodeChar c) : b ≠ 0x22 ∧ b ≠ 0x27 := by
  have hchar (quote : Quote) : c ≠ quote.char := by
    rintro rfl
    simp at hc
  exact ⟨ne_of_mem_utf8EncodeChar Quote.double.toNat_char_lt (hchar .double) hb,
    ne_of_mem_utf8EncodeChar Quote.single.toNat_char_lt (hchar .single) hb⟩

/-- Whether the byte is in a character, but not its first one. -/
def IsContinuation (b : UInt8) : Prop := 0x80 ≤ b.toNat ∧ b.toNat < 0xC0

/-- The first byte of a character starts it, and all others continue it. -/
theorem exists_first_utf8EncodeChar (c : Char) :
    ∃ b r, String.utf8EncodeChar c = b :: r ∧ ¬ IsContinuation b ∧ ∀ x ∈ r, IsContinuation x := by
  simp only [IsContinuation]
  by_cases hascii : c.toNat < 0x80
  · refine ⟨_, [], utf8EncodeChar_of_lt hascii, fun h => ?_, fun _ hx => absurd hx List.not_mem_nil⟩
    rw [toNat_ofNat_of_lt hascii] at h
    exact Nat.not_lt.2 h.1 hascii
  · have hle : ¬ c.val.toNat ≤ 0x7F := fun h => hascii (Nat.lt_succ_of_le h)
    rw [String.utf8EncodeChar, if_neg hle]
    split
    · exact ⟨_, _, rfl, by simp; omega, by simp; omega⟩
    · split <;> exact ⟨_, _, rfl, by simp; omega, by simp; omega⟩

/-- The search for an ASCII symbol finds the same place in the characters of a text and in its
bytes. -/
theorem closing?_bytes {escape close : Char} (hescape : escape.toNat < 0x80)
    (hclose : close.toNat < 0x80) (hne : close ≠ escape) (t : Text) :
    closing? (UInt8.ofNat escape.toNat) (UInt8.ofNat close.toNat) (Text.bytes t) =
      (closing? escape close t).map fun split => (Text.bytes split.1, Text.bytes split.2) := by
  have hbytes : UInt8.ofNat close.toNat ≠ UInt8.ofNat escape.toNat :=
    ne_of_mem_utf8EncodeChar hescape hne (by simp [utf8EncodeChar_of_lt hclose])
  fun_induction closing? escape close t with
  | case1 => simp
  | case2 =>
    rw [Text.bytes_cons, utf8EncodeChar_of_lt hescape]
    simp [closing?.eq_def]
  | case3 c r ih =>
    obtain ⟨b, v, hc, -, hv⟩ := exists_first_utf8EncodeChar c
    have hplain : ∀ x ∈ v, x ≠ UInt8.ofNat escape.toNat ∧ x ≠ UInt8.ofNat close.toNat :=
      fun x hx => ⟨ne_of_le_toNat hescape (hv x hx).1, ne_of_le_toNat hclose (hv x hx).1⟩
    simp [Text.bytes_cons, utf8EncodeChar_of_lt hescape, hc, closing?_append_of_plain hplain, ih,
      Function.comp_def]
  | case4 r he =>
    simp [Text.bytes_cons, utf8EncodeChar_of_lt hclose, closing?_close hbytes]
  | case5 c r he hc ih =>
    have hplain : ∀ x ∈ String.utf8EncodeChar c,
        x ≠ UInt8.ofNat escape.toNat ∧ x ≠ UInt8.ofNat close.toNat := fun x hx =>
      ⟨ne_of_mem_utf8EncodeChar hescape he hx, ne_of_mem_utf8EncodeChar hclose hc hx⟩
    rw [Text.bytes_cons, closing?_append_of_plain hplain, ih]
    simp [Text.bytes_cons, Function.comp_def]

/-- The end of a literal that stands in a text is found in the bytes where its characters say. -/
theorem Literal.end?_append (s : Text) (quote : Quote) (r : Text) :
    Literal.end? (s ++ quote.char :: r) (Text.size s) =
      (closing? '\\' quote.char r).map fun split => Text.size s + Text.size split.1 + 2 := by
  have hbytes : (Text.bytes (s ++ quote.char :: r)).drop (Text.size s) =
      UInt8.ofNat quote.char.toNat :: Text.bytes r := by
    rw [Text.bytes_append, ← Text.length_bytes s, List.drop_left, Text.bytes_cons,
      utf8EncodeChar_of_lt quote.toNat_char_lt]
    rfl
  have hsearch := closing?_bytes (by decide : ('\\').toNat < 0x80) quote.toNat_char_lt
    quote.char_ne_backslash r
  rw [show UInt8.ofNat ('\\').toNat = 0x5C from rfl] at hsearch
  unfold Literal.end?
  rw [hbytes]
  dsimp only
  rw [hsearch, Option.map_map]
  simp [Function.comp_def]

theorem Literal.end?_text (l : Literal) :
    Literal.end? l.text 0 =
      (closing? '\\' l.quote.char (l.body ++ [l.quote.char])).map
        fun split => Text.size split.1 + 2 := by
  have hend := Literal.end?_append [] l.quote (l.body ++ [l.quote.char])
  rw [List.nil_append, Text.size_nil] at hend
  simpa [Literal.text] using hend

/-- The end that is found in the bytes is where the literal is written to end if no quote before
the last one closes it. -/
theorem Literal.end?_text_eq_some_iff {l : Literal} :
    Literal.end? l.text 0 = some (Text.size l.text) ↔ l.IsClosed := by
  have hquote := l.quote.utf8Size_char
  have hsize : Text.size l.text = Text.size l.body + 2 := by
    simp [Literal.text, hquote]
    omega
  rw [Literal.end?_text, hsize]
  constructor
  · intro h
    obtain ⟨⟨body, rest⟩, hclosing, heq⟩ := Option.map_eq_some_iff.1 h
    have hsplit := eq_append_of_closing? hclosing
    have hsizes := congrArg Text.size hsplit
    simp only [Text.size_append, Text.size_cons, Text.size_nil, hquote] at hsizes heq
    have hrest : rest.length ≤ 0 := by
      have := Text.length_le_size rest
      omega
    obtain rfl : rest = [] := List.length_eq_zero_iff.1 (Nat.le_zero.1 hrest)
    rw [← List.append_cancel_right hsplit] at hclosing
    exact hclosing
  · intro h
    rw [IsClosed] at h
    rw [h]
    rfl

end ExtendedBnf
