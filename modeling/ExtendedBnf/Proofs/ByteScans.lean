import ExtendedBnf.Proofs.ByteCuts

/-!
# Scans by byte indices

The scans read the bytes outside literals. A word is tried at each of them that is its first
byte, by cutting the text there, and the end of a group is the byte at which the
number of open groups comes back to zero. The first byte of a character is no later byte
of another one, so each of the cuts is between two characters, and what is found is what
the search through the characters finds.
-/
namespace ExtendedBnf

namespace ByIndex
open Halt Text
variable {ε : Type}

/-! ### Words in code -/

/-- The places of a byte in code, when the first byte stands at `n`. -/
def placesOf (b : UInt8) (n : Nat) (bs : List UInt8) : List Nat :=
  ((codeBytes n bs).filter fun p => p.2 == b).map (·.1)

/-- The first of the places from which on the text goes on with the word. -/
def firstAt (t word : Text) : List Nat → Except (Halt ε) (Option Nat)
  | [] => .ok none
  | i :: is => do
    let rest ← t.cut i t.size
    if word.isPrefixOf rest then .ok (some i) else firstAt t word is

/-- The byte at which a word first stands in the code of the text. -/
def findCode? (t word : Text) : Except (Halt ε) (Option Nat) :=
  match word.bytes with
  | [] => .ok none
  | first :: _ => firstAt t word (placesOf first 0 t.bytes)

section
variable {b : UInt8} {n : Nat} {bs : List UInt8}

theorem placesOf_cons_of_ne {c : UInt8} (hne : c ≠ b) (hquote : ¬ (c = 0x22 ∨ c = 0x27)) :
    placesOf b n (c :: bs) = placesOf b (n + 1) bs := by
  rw [placesOf, codeBytes_cons hquote]
  simp [placesOf, hne]

theorem placesOf_cons_self (hquote : ¬ (b = 0x22 ∨ b = 0x27)) :
    placesOf b n (b :: bs) = n :: placesOf b (n + 1) bs := by
  rw [placesOf, codeBytes_cons hquote]
  simp [placesOf]

theorem placesOf_append {cs : List UInt8} (hne : ∀ c ∈ cs, c ≠ b)
    (hquote : ∀ c ∈ cs, ¬ (c = 0x22 ∨ c = 0x27)) :
    placesOf b n (cs ++ bs) = placesOf b (n + cs.length) bs := by
  induction cs generalizing n with
  | nil => rfl
  | cons c cs ih =>
    obtain ⟨hc, hcs⟩ := List.forall_mem_cons.1 hne
    obtain ⟨hcquote, hcsquote⟩ := List.forall_mem_cons.1 hquote
    rw [List.cons_append, placesOf_cons_of_ne hc hcquote, ih hcs hcsquote, List.length_cons,
      Nat.add_assoc, Nat.add_comm 1]

/-- A character that is no quote is a place if its first byte is the one looked for. -/
theorem placesOf_char {c : Char} (hc : Quote.ofChar? c = none) (hb : ¬ IsContinuation b)
    (r : Text) : placesOf b n (bytes (c :: r)) =
      if (String.utf8EncodeChar c).head? = some b then
        n :: placesOf b (n + c.utf8Size) (bytes r)
      else placesOf b (n + c.utf8Size) (bytes r) := by
  obtain ⟨first, tail, hencode, -, htail⟩ := exists_first_utf8EncodeChar c
  have hsize : c.utf8Size = 1 + tail.length := by
    rw [← String.length_utf8EncodeChar, hencode, List.length_cons, Nat.add_comm]
  have hquote : ∀ x ∈ String.utf8EncodeChar c, ¬ (x = 0x22 ∨ x = 0x27) :=
    fun _ hx => not_or.2 (ne_quote_of_mem_utf8EncodeChar hc hx)
  rw [hencode] at hquote
  obtain ⟨hfirst, hrest⟩ := List.forall_mem_cons.1 hquote
  have hne : ∀ x ∈ tail, x ≠ b := by
    rintro x hx rfl
    exact hb (htail x hx)
  rw [bytes_cons, hencode, List.cons_append, hsize, ← Nat.add_assoc]
  by_cases heq : first = b
  · subst heq
    rw [placesOf_cons_self hfirst, placesOf_append hne hrest, List.head?_cons, if_pos rfl]
  · rw [placesOf_cons_of_ne heq hfirst, placesOf_append hne hrest, if_neg (by simpa using heq)]

end

/-- The first byte of a word is that of its first character. -/
theorem exists_of_bytes_eq_cons {word : Text} {b : UInt8} {bs : List UInt8}
    (h : word.bytes = b :: bs) : ∃ d ds, word = d :: ds ∧
      (String.utf8EncodeChar d).head? = some b ∧ ¬ IsContinuation b := by
  cases word with
  | nil => cases h
  | cons d ds =>
    obtain ⟨first, tail, hencode, hfirst, -⟩ := exists_first_utf8EncodeChar d
    rw [bytes_cons, hencode] at h
    obtain rfl := (List.cons.inj h).1
    exact ⟨d, ds, rfl, by rw [hencode, List.head?_cons], hfirst⟩

/-- Each place that is tried is between two characters, and the word stands at no other character
of code. -/
theorem firstAt_placesOf {word : Text} {b : UInt8} {bs : List UInt8} (hword : word.bytes = b :: bs)
    (before t : Text) :
    (firstAt (before ++ t) word (placesOf b before.size t.bytes) : Except (Halt ε) (Option Nat)) =
      .ok ((cutCode word.isPrefixOf .code t).map fun cut => before.size + size cut.1) := by
  induction t using code_induction generalizing before with
  | nil => simp [placesOf, firstAt, cutCode]
  | unclosed quote r hclosing =>
    rw [cutCode_quote, placesOf, codeBytes_quote_char, hclosing]
    rfl
  | literal quote body rest hclosing ih =>
    have hsize := quote.utf8Size_char
    have hsplit : before ++ quote.char :: (body ++ quote.char :: rest) =
        before ++ quote.char :: body ++ [quote.char] ++ rest := by simp
    have hplace : size (before ++ quote.char :: body ++ [quote.char]) =
        before.size + size body + 2 := by
      simp [hsize]
      omega
    have hrest := ih (before ++ quote.char :: body ++ [quote.char])
    rw [hplace, placesOf] at hrest
    rw [cutCode_quote, placesOf, codeBytes_quote_char, hclosing, hsplit, hrest, Option.bind_some,
      Option.map_map]
    congr 2
    funext cut
    simp [hsize]
    omega
  | char c r hquote ih =>
    have hcode : Place.code.isCode c := by simp [Place.isCode, hquote]
    have hnext : Place.next .code c = .code := by simp [Place.next, hquote]
    have hrest : (firstAt (before ++ c :: r) word
        (placesOf b (before.size + c.utf8Size) (bytes r)) : Except (Halt ε) (Option Nat)) =
        .ok (((cutCode word.isPrefixOf .code r).map fun cut => (c :: cut.1, cut.2)).map
          fun cut => before.size + size cut.1) := by
      simpa [Function.comp_def, Nat.add_assoc] using ih (before ++ [c])
    obtain ⟨d, ds, rfl, hhead, hfirst⟩ := exists_of_bytes_eq_cons hword
    rw [placesOf_char hquote hfirst, cutCode, hcode, Bool.true_and, hnext]
    cases hbegins : (d :: ds).isPrefixOf (c :: r) with
    | false =>
      rw [if_neg Bool.false_ne_true]
      split
      · rw [firstAt, cut_back rfl]
        exact (if_neg (by simp [hbegins])).trans hrest
      · exact hrest
    | true =>
      obtain ⟨u, hu⟩ := List.isPrefixOf_iff_prefix.1 hbegins
      rw [(List.cons.inj hu).1] at hhead
      rw [if_pos hhead, firstAt, cut_back rfl, if_pos rfl]
      exact if_pos hbegins

/-- The search by byte indices finds what the search through the characters finds. -/
theorem findCode?_eq (t word : Text) :
    (findCode? t word : Except (Halt ε) (Option Nat)) = .ok (t.findCode? word) := by
  unfold findCode? Text.findCode?
  split
  next hword =>
    obtain rfl : word = [] := by
      have hsize := length_bytes word
      rw [hword] at hsize
      exact List.length_eq_zero_iff.1 (by have := length_le_size word; simp at hsize; omega)
    rw [if_pos rfl]
  next b bs hword =>
    have hne : word ≠ [] := by
      rintro rfl
      cases hword
    have hfirst : (firstAt t word (placesOf b 0 t.bytes) : Except (Halt ε) (Option Nat)) =
        .ok ((cutCode word.isPrefixOf .code t).map fun cut => 0 + size cut.1) :=
      firstAt_placesOf hword [] t
    rw [if_neg hne, hfirst]
    simp

/-! ### Parentheses -/

/-- The place of the `)` that leaves no group open, when `depth` are open before. -/
def closeByte? : Nat → List (Nat × UInt8) → Except (Halt ε) (Option Nat)
  | _, [] => .ok none
  | depth, (n, b) :: r =>
    if b = 0x28 then closeByte? (depth + 1) r
    else if b = 0x29 then do
      let depth ← minus depth 1
      if depth = 0 then .ok (some n) else closeByte? depth r
    else closeByte? depth r

/-- The byte of the parenthesis that matches the one at byte `start`, or the fault there. -/
def matchingParen (t : Text) (start : Nat) : Except (Halt Fault) Nat :=
  if t.bytes[start]? = some 0x28 then do
    match ← closeByte? 0 (t.codeFrom start) with
    | some close => .ok close
    | none => .error (.fault (.unbalancedGroup none start))
  else .error (.fault (.unbalancedGroup none start))

/-- Inside a group the depth is never zero. -/
theorem closeByte?_succ (depth : Nat) (ps : List (Nat × UInt8)) :
    (closeByte? (depth + 1) ps : Except (Halt ε) (Option Nat)) = .ok (closer? depth ps) := by
  induction ps generalizing depth with
  | nil => simp [closeByte?]
  | cons p ps ih =>
    obtain ⟨n, b⟩ := p
    by_cases hopen : b = 0x28
    · subst hopen
      rw [closeByte?, if_pos rfl, ih, closer?_open]
    by_cases hclose : b = 0x29
    · subst hclose
      rw [closeByte?, if_neg hopen, if_pos rfl, minus_add]
      cases depth with
      | zero => simp [bind, Except.bind]
      | succ depth => simp [bind, Except.bind, ih]
    · rw [closeByte?, if_neg hopen, if_neg hclose, ih, closer?_other n depth ps hopen hclose]

/-- The search by byte indices finds the parenthesis that the search through the characters
finds. -/
theorem matchingParen_eq (t : Text) (start : Nat) :
    matchingParen t start = lift (t.matchingParen start) := by
  unfold matchingParen Text.matchingParen
  split
  next hopen =>
    have heq : closer? 0 (t.codeFrom (start + 1)) = t.matchingParen? start :=
      Option.ext fun close => by simp [matchingParen?_eq_some_iff, hopen]
    rw [codeFrom_of_open hopen, closeByte?, if_pos rfl, closeByte?_succ, heq]
    cases t.matchingParen? start <;> rfl
  next hopen =>
    have hnone : t.matchingParen? start = none :=
      Option.eq_none_iff_forall_ne_some.2 fun close h => hopen (matchingParen?_eq_some_iff.1 h).1
    rw [hnone]
    rfl

end ByIndex
end ExtendedBnf
