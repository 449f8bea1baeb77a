import ExtendedBnf.Position
import ExtendedBnf.Proofs.FaultPlaces
import ExtendedBnf.Proofs.SourceLines
import Mathlib.Order.Bounds.Basic

/-!
# Positions in order

A byte of a text is shown as the position of the character it is in. A line feed moves
the position to the next line and any other character moves it on by a column, so
positions come in the order of the characters, and no two characters have the same one.
Character boundaries are told from the bytes alone: all bytes of a character but the first
continue it.
-/
namespace ExtendedBnf

namespace Text
variable {t : Text} {n : Nat}

/-- The byte starts a character, or the text ends there. -/
def IsBoundary (t : Text) (n : Nat) : Prop :=
  n = t.size ∨ ∃ b ∈ t.bytes[n]?, ¬ IsContinuation b

theorem isPlace_of_getElem? {b : UInt8} (h : t.bytes[n]? = some b) (hb : ¬ IsContinuation b) :
    t.IsPlace n := by
  induction t generalizing n with
  | nil => simp at h
  | cons c r ih =>
    obtain ⟨first, tail, hencode, -, htail⟩ := exists_first_utf8EncodeChar c
    have hsize : c.utf8Size = tail.length + 1 := by
      rw [← String.length_utf8EncodeChar, hencode, List.length_cons]
    rw [bytes_cons, hencode, List.cons_append] at h
    cases n with
    | zero => exact ⟨[], c :: r, rfl, rfl⟩
    | succ n =>
      rw [List.getElem?_cons_succ] at h
      by_cases hlt : n < tail.length
      · rw [List.getElem?_append_left hlt] at h
        exact absurd (htail b (List.mem_of_getElem? h)) hb
      · rw [List.getElem?_append_right (Nat.le_of_not_lt hlt)] at h
        have hplace := isPlace_append [c] (ih h)
        have hsum : size [c] + (n - tail.length) = n + 1 := by
          simp [hsize]
          omega
        rwa [hsum] at hplace

/-- The boundaries are the places between two characters and the ends. -/
theorem isBoundary_iff : t.IsBoundary n ↔ t.IsPlace n := by
  constructor
  · rintro (rfl | ⟨b, hbyte, hb⟩)
    · exact ⟨t, [], (List.append_nil t).symm, rfl⟩
    · exact isPlace_of_getElem? hbyte hb
  · rintro ⟨a, r, rfl, rfl⟩
    cases r with
    | nil => exact .inl (by simp)
    | cons c r =>
      obtain ⟨first, tail, hencode, hfirst, -⟩ := exists_first_utf8EncodeChar c
      refine .inr ⟨first, ?_, hfirst⟩
      rw [bytes_append, ← length_bytes a, List.getElem?_append_right (Nat.le_refl _), Nat.sub_self,
        bytes_cons, hencode]
      rfl

theorem takeBytes_isPrefix (n : Nat) (t : Text) : takeBytes n t <+: t := by
  fun_induction takeBytes n t with
  | case1 => exact List.prefix_refl []
  | case2 n c r hle ih => exact List.cons_prefix_cons.2 ⟨rfl, ih⟩
  | case3 => exact List.nil_prefix

/-- Every beginning that fits is a beginning of what is taken. -/
theorem isPrefix_takeBytes {a : Text} (hfits : a.size ≤ n) (b : Text) :
    a <+: takeBytes n (a ++ b) := by
  induction a generalizing n with
  | nil => exact List.nil_prefix
  | cons c a ih =>
    rw [size_cons] at hfits
    rw [List.cons_append, takeBytes, if_pos (by omega)]
    exact List.cons_prefix_cons.2 ⟨rfl, ih (by omega)⟩

/-- What fits in a number of bytes ends at the last boundary among them. -/
theorem isGreatest_size_takeBytes (n : Nat) (t : Text) :
    IsGreatest {m | t.IsPlace m ∧ m ≤ n} (takeBytes n t).size := by
  obtain ⟨rest, hrest⟩ := takeBytes_isPrefix n t
  refine ⟨⟨⟨takeBytes n t, rest, hrest.symm, rfl⟩, size_takeBytes_le n t⟩, ?_⟩
  rintro m ⟨⟨a, b, rfl, rfl⟩, hm⟩
  obtain ⟨more, hmore⟩ := isPrefix_takeBytes hm b
  rw [← hmore, size_append]
  exact Nat.le_add_right ..

theorem takeBytes_of_eq {a b : Text} (h : t = a ++ b) : takeBytes a.size t = a := by
  rw [h, takeBytes_size_append, takeBytes_zero, List.append_nil]

end Text

namespace Position
variable {p q r : Position}

/-- The position is on an earlier line, or in an earlier column of the same line. -/
def Precedes (p q : Position) : Prop := p.line < q.line ∨ p.line = q.line ∧ p.column < q.column

instance (p q : Position) : Decidable (p.Precedes q) := inferInstanceAs (Decidable (_ ∨ _))

theorem Precedes.trans (hpq : p.Precedes q) (hqr : q.Precedes r) : p.Precedes r := by
  unfold Precedes at *
  omega

theorem precedes_step (before : Text) (c : Char) :
    (after before).Precedes (after (before ++ [c])) := by
  by_cases hc : c = '\n'
  · rw [hc, after_append_newline]
    exact .inl (Nat.lt_succ_self _)
  · rw [after_append_of_ne hc]
    exact .inr ⟨rfl, Nat.lt_succ_self _⟩

/-- What is read moves the position on. -/
theorem precedes_append (before : Text) {s : Text} (hs : s ≠ []) :
    (after before).Precedes (after (before ++ s)) := by
  induction s generalizing before with
  | nil => exact absurd rfl hs
  | cons c s ih =>
    have hstep := precedes_step before c
    cases s with
    | nil => exact hstep
    | cons d s =>
      have hrest := ih (before ++ [c]) (List.cons_ne_nil d s)
      rw [List.append_assoc] at hrest
      exact hstep.trans hrest

/-- A text is whole lines and the part of a line after the last line feed. -/
theorem exists_after_eq (t : Text) : ∃ lines since, t = lines ++ since ∧
    (lines = [] ∨ ∃ u, lines = u ++ ['\n']) ∧ '\n' ∉ since ∧
    after t = ⟨1 + t.count '\n', 1 + since.length⟩ := by
  refine ⟨t.dropEndWhile (· != '\n'), t.takeEndWhile (· != '\n'),
    (Text.dropEndWhile_append_takeEndWhile _ t).symm, ?_, ?_, ?_⟩
  · have hstops := Reader.stops_dropWhile (· != '\n') t.reverse
    obtain hnil | ⟨u, c, heq⟩ := List.eq_nil_or_concat' (t.dropEndWhile (· != '\n'))
    · exact .inl hnil
    · rw [← List.reverse_inj, Text.dropEndWhile, List.reverse_reverse] at heq
      simp only [heq, List.reverse_append, List.reverse_singleton, List.singleton_append,
        Reader.stops_cons, bne_eq_false_iff_eq] at hstops
      refine .inr ⟨u, ?_⟩
      rw [Text.dropEndWhile, heq, hstops]
      simp
  · intro hmem
    have := List.mem_takeWhile_imp (List.mem_reverse.1 hmem)
    simp at this
  · rw [after, Nat.add_comm 1, Nat.add_comm 1]

/-- Each offset is shown as the last character boundary up to it, later boundaries are shown as
later positions, and a boundary as one more than the line feeds before it and one more than the
characters since the last of them. -/
theorem ofOffset_in_order (source : Text) :
    (∀ offset, ∃ place,
      IsGreatest {p | source.IsBoundary p ∧ p ≤ min offset source.size} place ∧
      ofOffset source offset = ofOffset source place) ∧
    (∀ p q, source.IsBoundary p → source.IsBoundary q → p < q →
      (ofOffset source p).Precedes (ofOffset source q)) ∧
    ∀ p, source.IsBoundary p → ∃ lines since rest, source = lines ++ since ++ rest ∧
      p = Text.size (lines ++ since) ∧ (lines = [] ∨ ∃ u, lines = u ++ ['\n']) ∧ '\n' ∉ since ∧
      ofOffset source p = ⟨1 + (lines ++ since).count '\n', 1 + since.length⟩ := by
  simp only [Text.isBoundary_iff]
  refine ⟨fun offset => ⟨(Text.takeBytes offset source).size, ?_, ?_⟩, ?_, ?_⟩
  · obtain ⟨⟨hplace, hle⟩, hgreatest⟩ := Text.isGreatest_size_takeBytes offset source
    refine ⟨⟨hplace, Nat.le_min.2 ⟨hle, hplace.le_size⟩⟩, fun p hp => ?_⟩
    exact hgreatest ⟨hp.1, hp.2.trans (Nat.min_le_left ..)⟩
  · obtain ⟨rest, hrest⟩ := Text.takeBytes_isPrefix offset source
    rw [ofOffset, ofOffset, Text.takeBytes_of_eq hrest.symm]
  · rintro p q ⟨a, b, rfl, rfl⟩ ⟨u, v, heq, rfl⟩ hlt
    obtain ⟨s, rfl, hs⟩ : ∃ s, u = a ++ s ∧ s ≠ [] := by
      obtain ⟨s, rfl, -⟩ | ⟨s, rfl, -⟩ := List.append_eq_append_iff.1 heq
      · refine ⟨s, rfl, ?_⟩
        rintro rfl
        simp at hlt
      · rw [Text.size_append] at hlt
        omega
    rw [ofOffset, ofOffset, Text.takeBytes_of_eq rfl, Text.takeBytes_of_eq heq]
    exact precedes_append a hs
  · rintro p ⟨a, b, rfl, rfl⟩
    obtain ⟨lines, since, rfl, hlines, hsince, hafter⟩ := exists_after_eq a
    refine ⟨lines, since, b, rfl, rfl, hlines, hsince, ?_⟩
    rw [ofOffset, Text.takeBytes_of_eq rfl, hafter]

/-- The offset 2 is inside `é`, whose first byte is 1. The line feed at 3 is on the line it ends. -/
theorem ofOffset_in_order_multibyte :
    let source : Text := "aé\nb".toList
    source.IsBoundary 3 ∧ source.IsBoundary 4 ∧ ofOffset source 2 = ⟨1, 2⟩ ∧
      ofOffset source 3 = ⟨1, 3⟩ ∧ ofOffset source 4 = ⟨2, 1⟩ ∧
      (ofOffset source 3).Precedes (ofOffset source 4) ∧
      ∃ lines since rest, source = lines ++ since ++ rest ∧ 4 = Text.size (lines ++ since) ∧
        (lines = [] ∨ ∃ u, lines = u ++ ['\n']) ∧ '\n' ∉ since ∧
        ofOffset source 4 = ⟨1 + (lines ++ since).count '\n', 1 + since.length⟩ := by
  intro source
  have hthree : source.IsBoundary 3 := .inr ⟨0x0A, rfl, by simp [IsContinuation]⟩
  have hfour : source.IsBoundary 4 := .inr ⟨0x62, rfl, by simp [IsContinuation]⟩
  obtain ⟨-, horder, hparts⟩ := ofOffset_in_order source
  exact ⟨hthree, hfour, by decide, by decide, by decide, horder 3 4 hthree hfour (by decide),
    hparts 4 hfour⟩

end Position
end ExtendedBnf
