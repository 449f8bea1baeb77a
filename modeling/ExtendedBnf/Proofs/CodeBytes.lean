import ExtendedBnf.Proofs.LiteralBody

/-!
# Bytes outside literals

The bytes of a text are read from the left. A quote opens a literal, which goes up to the
byte that closes it, or up to the end of the text if nothing does. What is left are the
bytes of code, each with its place. A reading that starts at a byte of code instead finds
the same bytes of code from there on.
-/
namespace ExtendedBnf
namespace Text

/-- The bytes outside literals with their places, when the first byte stands at `n`. -/
def codeBytes (n : Nat) : List UInt8 → List (Nat × UInt8)
  | [] => []
  | b :: r =>
    if b = 0x22 ∨ b = 0x27 then
      match _ : closing? 0x5C b r with
      | some (body, rest) => codeBytes (n + body.length + 2) rest
      | none => []
    else (n, b) :: codeBytes (n + 1) r
termination_by bs => bs.length
decreasing_by
  all_goals simp_wf
  next h =>
    rw [eq_append_of_closing? h]
    simp
    omega

@[simp] theorem codeBytes_nil (n : Nat) : codeBytes n [] = [] := by rw [codeBytes]

theorem codeBytes_cons {b : UInt8} (h : ¬ (b = 0x22 ∨ b = 0x27)) (n : Nat) (r : List UInt8) :
    codeBytes n (b :: r) = (n, b) :: codeBytes (n + 1) r := by
  rw [codeBytes, if_neg h]

theorem codeBytes_quote {b : UInt8} (h : b = 0x22 ∨ b = 0x27) (n : Nat) (r : List UInt8) :
    codeBytes n (b :: r) = match closing? 0x5C b r with
      | some (body, rest) => codeBytes (n + body.length + 2) rest
      | none => [] := by
  rw [codeBytes, if_pos h]
  split <;> simp_all

/-- A quote in code opens the literal that its characters say. -/
theorem codeBytes_quote_char (quote : Quote) (n : Nat) (r : Text) :
    codeBytes n (bytes (quote.char :: r)) = match closing? '\\' quote.char r with
      | some (body, rest) => codeBytes (n + size body + 2) (bytes rest)
      | none => [] := by
  have hbyte : UInt8.ofNat quote.char.toNat = 0x22 ∨ UInt8.ofNat quote.char.toNat = 0x27 := by
    cases quote <;> decide
  have hsearch : closing? 0x5C (UInt8.ofNat quote.char.toNat) r.bytes =
      (closing? '\\' quote.char r).map fun split => (bytes split.1, bytes split.2) :=
    closing?_bytes (by decide) quote.toNat_char_lt quote.char_ne_backslash r
  rw [bytes_cons, utf8EncodeChar_of_lt quote.toNat_char_lt, List.singleton_append,
    codeBytes_quote hbyte, hsearch]
  cases closing? '\\' quote.char r <;> simp

/-- Induction on a text that starts in code. A literal is passed over in one step. -/
@[elab_as_elim]
theorem code_induction {motive : Text → Prop} (nil : motive [])
    (char : ∀ c r, Quote.ofChar? c = none → motive r → motive (c :: r))
    (literal : ∀ (quote : Quote) body rest,
      closing? '\\' quote.char (body ++ quote.char :: rest) = some (body, rest) → motive rest →
      motive (quote.char :: (body ++ quote.char :: rest)))
    (unclosed : ∀ (quote : Quote) r, closing? '\\' quote.char r = none → motive (quote.char :: r))
    (t : Text) : motive t := by
  match t with
  | [] => exact nil
  | c :: r =>
    cases hquote : Quote.ofChar? c with
    | none => exact char c r hquote (code_induction nil char literal unclosed r)
    | some quote =>
      obtain rfl := Quote.ofChar?_eq_some_iff.1 hquote
      cases hclosing : closing? '\\' quote.char r with
      | none => exact unclosed quote r hclosing
      | some split =>
        obtain ⟨body, rest⟩ := split
        have hr := eq_append_of_closing? hclosing
        have hrest := code_induction nil char literal unclosed rest
        subst hr
        exact literal quote body rest hclosing hrest
termination_by t.length
decreasing_by
  · simp
  · rw [hr]
    simp
    omega

/-- A byte of code is a byte of the text, and the reading goes on after it as if it started
there. -/
theorem exists_of_mem_codeBytes {n i : Nat} {b : UInt8} {bs : List UInt8}
    (h : (i, b) ∈ codeBytes n bs) : ∃ us vs, bs = us ++ b :: vs ∧ i = n + us.length ∧
      ∃ before, codeBytes n bs = before ++ (i, b) :: codeBytes (i + 1) vs := by
  fun_induction codeBytes n bs with
  | case1 => cases h
  | case2 n q r hq body rest hclosing ih =>
    obtain ⟨us, vs, rfl, rfl, before, hbefore⟩ := ih h
    refine ⟨q :: body ++ q :: us, vs, ?_, ?_, before, hbefore⟩
    · rw [eq_append_of_closing? hclosing]
      simp
    · simp
      omega
  | case3 => cases h
  | case4 n c r hc ih =>
    rcases List.mem_cons.1 h with heq | h
    · cases heq
      exact ⟨[], r, rfl, rfl, [], rfl⟩
    · obtain ⟨us, vs, rfl, rfl, before, hbefore⟩ := ih h
      refine ⟨c :: us, vs, rfl, ?_, (n, c) :: before, by rw [hbefore]; rfl⟩
      simp
      omega

theorem le_of_mem_codeBytes {n : Nat} {bs : List UInt8} {p : Nat × UInt8}
    (h : p ∈ codeBytes n bs) : n ≤ p.1 := by
  obtain ⟨us, -, -, hplace, -⟩ := exists_of_mem_codeBytes h
  omega

/-- The places grow. -/
theorem pairwise_codeBytes (n : Nat) (bs : List UInt8) :
    (codeBytes n bs).Pairwise fun p q => p.1 < q.1 := by
  fun_induction codeBytes n bs with
  | case1 | case3 => exact .nil
  | case2 _ _ _ _ _ _ _ ih => exact ih
  | case4 n c r hc ih => exact ih.cons fun p hp => le_of_mem_codeBytes hp

end Text
end ExtendedBnf
