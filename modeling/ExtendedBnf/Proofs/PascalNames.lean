import ExtendedBnf.Name
import ExtendedBnf.Proofs.Follow

/-!
# Names that Pascal case keeps apart

Pascal case takes out the underscores of a name and changes the case of letters after
them, and nothing else, so names that differ in more than that stay apart. Names in
snake case stay apart in any case, since there every capital is the start of a part.
-/
namespace ExtendedBnf
open Reader (Stops stops_nil stops_cons)

namespace Text
variable {a b s t : Text}

/-- The text without underscores and in lower case. -/
def folded (t : Text) : Text := (t.filter (· != '_')).map Char.toLower

theorem folded_append (s t : Text) : folded (s ++ t) = folded s ++ folded t := by
  rw [folded, List.filter_append, List.map_append]
  rfl

theorem folded_capitalize (h : ∀ c ∈ t, isNameRest c) : folded (capitalize t) = folded t := by
  have hupper : ∀ n < 0x80, ((Char.ofNat n).toUpper != '_') = (Char.ofNat n != '_') ∧
      (Char.ofNat n).toUpper.toLower = (Char.ofNat n).toLower := by decide
  cases t with
  | nil => rfl
  | cons c r =>
    have hlt := toNat_lt_of_isNameRest (h c List.mem_cons_self)
    obtain ⟨hmark, hlower⟩ := forall_ascii (p := fun c =>
      (c.toUpper != '_') = (c != '_') ∧ c.toUpper.toLower = c.toLower) hupper hlt
    rw [capitalize, upperCase_of_ascii hlt, List.singleton_append, folded, folded, List.filter_cons,
      List.filter_cons, hmark]
    split
    · rw [List.map_cons, List.map_cons, hlower]
    · rfl

theorem folded_join (ts : List Text) : folded (join ['_'] ts) = ts.flatMap folded := by
  induction ts with
  | nil => rfl
  | cons t ts ih =>
    cases ts with
    | nil => simp [join]
    | cons u ts =>
      rw [join_cons_cons, folded_append, folded_append, ih, List.flatMap_cons]
      rfl

/-- Pascal case changes underscores and the case of letters only. -/
theorem folded_pascalCase (h : ∀ c ∈ t, isNameRest c) : t.pascalCase.folded = t.folded := by
  have hparts {ts : List Text} (hts : ∀ s ∈ ts, ∀ c ∈ s, isNameRest c) :
      folded (ts.flatMap capitalize) = ts.flatMap folded := by
    induction ts with
    | nil => rfl
    | cons s ts ih =>
      rw [List.flatMap_cons, folded_append, folded_capitalize (hts s List.mem_cons_self),
        ih fun u hu => hts u (List.mem_cons_of_mem s hu), List.flatMap_cons]
  have hjoin := folded_join (segments '_' t)
  rw [join_segments] at hjoin
  unfold pascalCase
  split
  · rfl
  · rw [hjoin]
    exact hparts fun s hs c hc => h c (mem_of_mem_segments hs hc)

/-- Whether the character may follow the first one in a part of a name in snake case. -/
def isSnakeRest (c : Char) : Bool := c.isLower || c.isDigit

/-- Whether the text is a small letter with small letters and digits after it. -/
def isSnakePart : Text → Bool
  | [] => false
  | c :: r => c.isLower && r.all isSnakeRest

/-- Whether the name is in snake case. -/
def isSnake (t : Text) : Bool := (segments '_' t).all isSnakePart

theorem capitalize_of_isLower {c : Char} (h : c.isLower) (r : Text) :
    capitalize (c :: r) = c.toUpper :: r ∧ c.toUpper.toLower = c ∧
      isSnakeRest c.toUpper = false := by
  have hupper : ∀ n < 0x80, (Char.ofNat n).isLower →
      (Char.ofNat n).toUpper.toLower = Char.ofNat n ∧
        isSnakeRest (Char.ofNat n).toUpper = false := by
    decide
  have halpha : c.isAlpha := Bool.or_eq_true_iff.2 (.inr h)
  have hlt : c.toNat < 0x80 := by
    have := toNat_of_isAlpha halpha
    omega
  rw [capitalize, upperCase_of_ascii hlt]
  exact ⟨rfl, forall_ascii (p := fun c => c.isLower →
    c.toUpper.toLower = c ∧ isSnakeRest c.toUpper = false) hupper hlt h⟩

theorem exists_of_isSnakePart (h : s.isSnakePart) :
    ∃ c r, s = c :: r ∧ c.isLower ∧ ∀ d ∈ r, isSnakeRest d := by
  cases s with
  | nil => cases h
  | cons c r =>
    obtain ⟨hc, hr⟩ := Bool.and_eq_true_iff.1 h
    exact ⟨c, r, rfl, hc, List.all_eq_true.1 hr⟩

/-- Parts in snake case can be told from what they are capitalized to. -/
theorem eq_of_flatMap_capitalize {ss ts : List Text} (hs : ∀ s ∈ ss, isSnakePart s)
    (ht : ∀ t ∈ ts, isSnakePart t) (h : ss.flatMap capitalize = ts.flatMap capitalize) :
    ss = ts := by
  have hstops {ss : List Text} (hs : ∀ s ∈ ss, isSnakePart s) :
      Stops isSnakeRest (ss.flatMap capitalize) := by
    cases ss with
    | nil => exact stops_nil
    | cons s ss =>
      obtain ⟨c, r, rfl, hc, -⟩ := exists_of_isSnakePart (hs s List.mem_cons_self)
      obtain ⟨hcapital, -, hrest⟩ := capitalize_of_isLower hc r
      rw [List.flatMap_cons, hcapital]
      exact stops_cons.2 hrest
  induction ss generalizing ts with
  | nil =>
    cases ts with
    | nil => rfl
    | cons t ts =>
      obtain ⟨c, r, rfl, hc, -⟩ := exists_of_isSnakePart (ht t List.mem_cons_self)
      rw [List.flatMap_cons, (capitalize_of_isLower hc r).1] at h
      cases h
  | cons s ss ih =>
    obtain ⟨c, r, rfl, hc, hr⟩ := exists_of_isSnakePart (hs s List.mem_cons_self)
    obtain ⟨hcapital, hlower, -⟩ := capitalize_of_isLower hc r
    have hss := List.forall_mem_cons.1 hs
    rw [List.flatMap_cons, hcapital] at h
    cases ts with
    | nil => cases h
    | cons t ts =>
      obtain ⟨d, u, rfl, hd, hu⟩ := exists_of_isSnakePart (ht t List.mem_cons_self)
      obtain ⟨hcapital', hlower', -⟩ := capitalize_of_isLower hd u
      have hts := List.forall_mem_cons.1 ht
      rw [List.flatMap_cons, hcapital', List.cons_append, List.cons_append] at h
      obtain ⟨hhead, htail⟩ := List.cons_eq_cons.1 h
      -- the rest of a part goes up to the next capital
      have hpart := Reader.takeWhile_append hr (hstops hss.2)
      have hothers := Reader.dropWhile_append hr (hstops hss.2)
      rw [htail, Reader.takeWhile_append hu (hstops hts.2)] at hpart
      rw [htail, Reader.dropWhile_append hu (hstops hts.2)] at hothers
      rw [← hlower, hhead, hlower', hpart, ih hss.2 hts.2 hothers.symm]

theorem pascalCase_of_isSnake (h : t.isSnake) :
    t.pascalCase = (segments '_' t).flatMap capitalize := by
  unfold pascalCase
  split
  next hnil =>
    obtain ⟨s, ss, hsegments⟩ := List.exists_cons_of_ne_nil (segments_ne_nil '_' t)
    have hs := List.all_eq_true.1 h s (hsegments ▸ List.mem_cons_self)
    obtain ⟨c, r, rfl, hc, -⟩ := exists_of_isSnakePart hs
    rw [hsegments, List.flatMap_cons, (capitalize_of_isLower hc r).1] at hnil
    cases hnil
  next => rfl

/-- Pascal case keeps names in snake case apart. -/
theorem eq_of_pascalCase_of_isSnake (ha : a.isSnake) (hb : b.isSnake)
    (h : a.pascalCase = b.pascalCase) : a = b := by
  rw [pascalCase_of_isSnake ha, pascalCase_of_isSnake hb] at h
  have hparts := eq_of_flatMap_capitalize (List.all_eq_true.1 ha) (List.all_eq_true.1 hb) h
  rw [← join_segments '_' a, hparts, join_segments]

/-- Pascal case keeps names apart that are in snake case or differ in more than underscores and
the case of letters. -/
theorem pascalCase_ne (ha : ∀ c ∈ a, isNameRest c) (hb : ∀ c ∈ b, isNameRest c) (hne : a ≠ b)
    (h : a.isSnake ∧ b.isSnake ∨ a.folded ≠ b.folded) : a.pascalCase ≠ b.pascalCase := by
  intro hsame
  obtain ⟨hsnake, hsnake'⟩ | hfolded := h
  · exact hne (eq_of_pascalCase_of_isSnake hsnake hsnake' hsame)
  · refine hfolded ?_
    rw [← folded_pascalCase ha, ← folded_pascalCase hb, hsame]

end Text
end ExtendedBnf
