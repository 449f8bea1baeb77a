import ExtendedBnf.Proofs.Balanced
import ExtendedBnf.Proofs.Pieces

/-!
# Where groups start and stop

The groups of a text are found in one reading, which keeps where the open ones started. A
gauge says what each character counts for, and a group extends from what is counted before its
opening parenthesis to what is counted before its closing one. A balanced text leaves the open
groups as they are, so texts one after the other have the groups of each. If parentheses
count for nothing and a pair of them is taken out, the other groups stay where they are.
-/
namespace ExtendedBnf

/-- How much a character counts for at its place. -/
abbrev Gauge := Place → Char → Nat

/-- From where to where something extends. -/
structure Extent where
  start : Nat
  stop : Nat
  deriving DecidableEq, Repr

namespace Extent

/-- The same extent with `n` more before it. -/
def shift (n : Nat) (x : Extent) : Extent := ⟨n + x.start, n + x.stop⟩

@[simp] theorem shift_zero : shift 0 = id := by
  funext x
  simp [shift]

@[simp] theorem shift_comp_shift (m n : Nat) : shift m ∘ shift n = shift (m + n) := by
  funext x
  simp [shift, Nat.add_assoc]

end Extent

namespace Text
variable (w : Gauge)

/-- What a text counts for when its first character stands at the place. -/
def totalFrom : Place → Text → Nat
  | _, [] => 0
  | here, c :: r => w here c + totalFrom (here.next c) r

/-- What a text of code counts for. -/
def total (t : Text) : Nat := totalFrom w .code t

/-- The groups that end in a text, in order, if `n` is counted before it and groups are open that
started where `opened` says. -/
def extentsFrom : Place → Nat → List Nat → Text → List Extent
  | _, _, _, [] => []
  | here, n, opened, c :: r =>
    if here.isCode c && c == ')' then
      match opened with
      | [] => extentsFrom .code (n + w here c) [] r
      | start :: opened => ⟨start, n⟩ :: extentsFrom .code (n + w here c) opened r
    else if here.isCode c && c == '(' then extentsFrom .code (n + w here c) (n :: opened) r
    else extentsFrom (here.next c) (n + w here c) opened r

/-- The groups of a text in the order in which they end. -/
def extents (t : Text) : List Extent := extentsFrom w .code 0 [] t

section
variable {w} {here : Place} {n : Nat} {opened : List Nat} {s t r : Text}

theorem totalFrom_code : totalFrom w .code t = total w t := rfl

@[simp] theorem totalFrom_append :
    totalFrom w here (s ++ t) = totalFrom w here s + totalFrom w (here.after s) t := by
  induction s generalizing here with
  | nil => simp [totalFrom]
  | cons c s ih => simp [totalFrom, ih, Nat.add_assoc]

@[simp] theorem totalFrom_open :
    totalFrom w .code ('(' :: r) = w .code '(' + totalFrom w .code r := rfl

@[simp] theorem totalFrom_close :
    totalFrom w .code (')' :: r) = w .code ')' + totalFrom w .code r := rfl

@[simp] theorem extentsFrom_close (start : Nat) :
    extentsFrom w .code n (start :: opened) (')' :: r) =
      ⟨start, n⟩ :: extentsFrom w .code (n + w .code ')') opened r := by
  rw [extentsFrom.eq_def]
  rfl

@[simp] theorem extentsFrom_open :
    extentsFrom w .code n opened ('(' :: r) =
      extentsFrom w .code (n + w .code '(') (n :: opened) r := by
  rw [extentsFrom.eq_def]
  rfl

theorem extentsFrom_cons {c : Char} (h : here.isCode c = false ∨ c ≠ '(' ∧ c ≠ ')') :
    extentsFrom w here n opened (c :: r) =
      extentsFrom w (here.next c) (n + w here c) opened r := by
  rw [extentsFrom.eq_def]
  rcases h with h | h <;> simp [h]

@[simp] theorem extentsFrom_nil : extentsFrom w here n opened [] = [] := by rw [extentsFrom]

@[simp] theorem extentsFrom_close_nil :
    extentsFrom w .code n [] (')' :: r) = extentsFrom w .code (n + w .code ')') [] r := by
  rw [extentsFrom.eq_def]
  rfl

/-- A character closes a group, opens one, or does neither. -/
theorem close_or_open_or_plain (here : Place) (c : Char) :
    (here = .code ∧ c = ')') ∨ (here = .code ∧ c = '(') ∨
      (here.isCode c = false ∨ c ≠ '(' ∧ c ≠ ')') := by
  cases hcode : here.isCode c with
  | false => exact .inr (.inr (.inl rfl))
  | true =>
    obtain rfl : here = .code := by simp_all [Place.isCode]
    by_cases hclose : c = ')'
    · exact .inl ⟨rfl, hclose⟩
    · by_cases hopen : c = '('
      · exact .inr (.inl ⟨rfl, hopen⟩)
      · exact .inr (.inr (.inr ⟨hopen, hclose⟩))

/-- More before the text moves its groups and nothing else. -/
theorem extentsFrom_shift (k : Nat) (here : Place) (n : Nat) (opened : List Nat) (t : Text) :
    extentsFrom w here (k + n) (opened.map (k + ·)) t =
      (extentsFrom w here n opened t).map (Extent.shift k) := by
  induction t generalizing here n opened with
  | nil => simp
  | cons c r ih =>
    obtain ⟨rfl, rfl⟩ | ⟨rfl, rfl⟩ | hplain := close_or_open_or_plain here c
    · cases opened with
      | nil => simpa [Nat.add_assoc] using ih .code (n + w .code ')') []
      | cons start opened => simp [Nat.add_assoc, ih, Extent.shift]
    · simpa [Nat.add_assoc] using ih .code (n + w .code '(') (n :: opened)
    · rw [extentsFrom_cons hplain, extentsFrom_cons hplain, Nat.add_assoc, ih]

/-- One character ends at most one group, and the reading goes on after it. -/
theorem exists_extentsFrom_cons (here : Place) (n : Nat) (opened : List Nat) (c : Char) :
    ∃ found left, ∀ r, extentsFrom w here n opened (c :: r) =
      found ++ extentsFrom w (here.next c) (n + w here c) left r := by
  obtain ⟨rfl, rfl⟩ | ⟨rfl, rfl⟩ | hplain := close_or_open_or_plain here c
  · cases opened with
    | nil => exact ⟨[], [], fun r => extentsFrom_close_nil⟩
    | cons start opened => exact ⟨[⟨start, n⟩], opened, fun r => extentsFrom_close start⟩
  · exact ⟨[], n :: opened, fun r => extentsFrom_open⟩
  · exact ⟨[], opened, fun r => extentsFrom_cons hplain⟩

/-- What follows a text is read with what the text counts for before it, and with some groups
open. -/
theorem exists_extentsFrom_append (here : Place) (n : Nat) (opened : List Nat) (s : Text) :
    ∃ found left, ∀ r, extentsFrom w here n opened (s ++ r) =
      found ++ extentsFrom w (here.after s) (n + totalFrom w here s) left r := by
  induction s generalizing here n opened with
  | nil => exact ⟨[], opened, fun r => rfl⟩
  | cons c s ih =>
    obtain ⟨first, left, hfirst⟩ := exists_extentsFrom_cons here n opened c
    obtain ⟨found, left, hfound⟩ := ih (here.next c) (n + w here c) left
    refine ⟨first ++ found, left, fun r => ?_⟩
    rw [List.cons_append, hfirst, hfound, List.append_assoc, Place.after_cons, totalFrom,
      Nat.add_assoc]

/-- A group that is cut out ends in code. -/
theorem after_of_closeGroup {depth : Nat} {inner rest : Text}
    (h : closeGroup depth here t = some (inner, rest)) : here.after inner = .code := by
  fun_induction closeGroup depth here t generalizing inner with
  | case1 => cases h
  | case2 here c r hc =>
    cases h
    simp_all [Place.isCode]
  | case3 here c r hparen depth ih | case4 depth here c r _ hparen ih =>
    obtain ⟨split, hsplit, heq⟩ := Option.map_eq_some_iff.1 h
    cases heq
    rw [Place.after_cons, Place.next_of_isCode (Bool.and_eq_true_iff.1 hparen).1, ih hsplit]
  | case5 depth here c r hc ho ih =>
    obtain ⟨split, hsplit, heq⟩ := Option.map_eq_some_iff.1 h
    cases heq
    exact ih hsplit

/-- The text of a group ends the groups that are open in it, and leaves those around it as they
are. -/
theorem exists_extentsFrom_of_closeGroup {depth : Nat} {inner rest : Text}
    (h : closeGroup depth here t = some (inner, rest)) (n : Nat) (own : List Nat)
    (hown : own.length = depth) :
    ∃ found, ∀ opened r, extentsFrom w here n (own ++ opened) (inner ++ r) =
      found ++ extentsFrom w .code (n + totalFrom w here inner) opened r := by
  fun_induction closeGroup depth here t generalizing inner n own with
  | case1 => cases h
  | case2 here c r hc =>
    cases h
    obtain rfl := List.length_eq_zero_iff.1 hown
    obtain rfl : here = .code := by simp_all [Place.isCode]
    exact ⟨[], fun opened r => rfl⟩
  | case3 here c r hc depth ih =>
    obtain ⟨⟨inner, u⟩, hsplit, heq⟩ := Option.map_eq_some_iff.1 h
    cases heq
    obtain ⟨rfl, rfl⟩ : here = .code ∧ c = ')' := by simp_all [Place.isCode]
    obtain ⟨start, own, rfl⟩ := List.exists_cons_of_length_eq_add_one hown
    obtain ⟨found, hfound⟩ := ih hsplit (n + w .code ')') own (Nat.succ.inj hown)
    refine ⟨⟨start, n⟩ :: found, fun opened r => ?_⟩
    simp [hfound, Nat.add_assoc]
  | case4 depth here c r hc ho ih =>
    obtain ⟨⟨inner, u⟩, hsplit, heq⟩ := Option.map_eq_some_iff.1 h
    cases heq
    obtain ⟨rfl, rfl⟩ : here = .code ∧ c = '(' := by simp_all [Place.isCode]
    obtain ⟨found, hfound⟩ := ih hsplit (n + w .code '(') (n :: own) (by simp [hown])
    refine ⟨found, fun opened r => ?_⟩
    rw [List.cons_append, extentsFrom_open]
    simpa [Nat.add_assoc] using hfound opened r
  | case5 depth here c r hc ho ih =>
    obtain ⟨⟨inner, u⟩, hsplit, heq⟩ := Option.map_eq_some_iff.1 h
    cases heq
    have hplain : here.isCode c = false ∨ c ≠ '(' ∧ c ≠ ')' := by
      cases hcode : here.isCode c <;> simp_all
    obtain ⟨found, hfound⟩ := ih hsplit (n + w here c) own hown
    refine ⟨found, fun opened r => ?_⟩
    rw [List.cons_append, extentsFrom_cons hplain, hfound, totalFrom, Nat.add_assoc]

/-! ### Balanced texts -/

theorem after_of_balanced (h : Balanced t) : Place.code.after t = .code :=
  after_of_closeGroup (closeGroup_of_balanced h [])

/-- After a balanced text the same groups are open as before it. -/
theorem extentsFrom_append (h : Balanced s) :
    extentsFrom w .code n opened (s ++ r) =
      extentsFrom w .code n [] s ++ extentsFrom w .code (n + totalFrom w .code s) opened r := by
  obtain ⟨found, hfound⟩ := exists_extentsFrom_of_closeGroup (w := w)
    (closeGroup_of_balanced h []) n [] rfl
  have hs := hfound [] []
  have hr := hfound opened r
  simp only [List.append_nil, extentsFrom_nil] at hs
  rw [hs, ← hr, List.nil_append]

end

section
variable {w} {s t : Text}

@[simp] theorem total_nil : total w [] = 0 := rfl

@[simp] theorem extents_nil : extents w [] = [] := extentsFrom_nil

theorem total_append (h : Balanced s) : total w (s ++ t) = total w s + total w t := by
  rw [total, totalFrom_append, after_of_balanced h]
  rfl

theorem extents_append (h : Balanced s) :
    extents w (s ++ t) = extents w s ++ (extents w t).map (Extent.shift (total w s)) := by
  rw [extents, extentsFrom_append h, extents, extents, ← extentsFrom_shift, Nat.zero_add]
  rfl

theorem total_group (h : Balanced t) :
    total w ('(' :: t ++ [')']) = w .code '(' + total w t + w .code ')' := by
  have hafter := after_of_balanced h
  simp [total, hafter, totalFrom, Nat.add_assoc]

/-- A group ends after those in it. -/
theorem extents_group (h : Balanced t) :
    extents w ('(' :: t ++ [')']) =
      (extents w t).map (Extent.shift (w .code '(')) ++ [⟨0, w .code '(' + total w t⟩] := by
  rw [extents, List.cons_append, extentsFrom_open, extentsFrom_append h, extents,
    ← extentsFrom_shift]
  simp [total]

/-- Nothing in a literal is a parenthesis of code. -/
theorem extents_literal {l : Literal} (h : IsBody '\\' l.quote.char l.body) :
    extents w l.text = [] := by
  have hinside {quote : Quote} {b : Text} (h : IsBody '\\' quote.char b) (n : Nat) :
      extentsFrom w (.inside quote) n [] (b ++ [quote.char]) = [] := by
    induction h generalizing n with
    | nil => rw [List.nil_append, extentsFrom_cons (.inl rfl), extentsFrom_nil]
    | pair a _ ih =>
      rw [List.cons_append, List.cons_append, extentsFrom_cons (.inl rfl),
        extentsFrom_cons (.inl rfl)]
      simpa [Place.next] using ih _
    | plain he hc _ ih =>
      rw [List.cons_append, extentsFrom_cons (.inl rfl)]
      simpa [Place.next, he, hc] using ih _
  rw [extents, Literal.text, List.cons_append, extentsFrom_cons (.inl (Place.isCode_char ..)),
    Place.next_char, hinside h]

theorem extents_char {c : Char} (h : isPlain c) : extents w [c] = [] := by
  simp only [isPlain, Bool.and_eq_true, bne_iff_ne] at h
  rw [extents, extentsFrom_cons (.inr ⟨h.1.2, h.2⟩), extentsFrom_nil]

/-- A text without parentheses in code is balanced and has no groups. -/
theorem balanced_and_extents_of_pieces {q : Literal → Bool} (h : Pieces isPlain q t) :
    Balanced t ∧ ∀ w, extents w t = [] := by
  induction h with
  | nil => exact ⟨balanced_nil, fun w => extents_nil⟩
  | @char c r hc _ ih =>
    have hchar : Balanced [c] := balanced_cons hc balanced_nil
    refine ⟨balanced_cons hc ih.1, fun w => ?_⟩
    rw [← List.singleton_append, extents_append hchar, extents_char hc, ih.2]
    rfl
  | literal hbody _ _ ih =>
    have hliteral := balanced_literal hbody
    refine ⟨hliteral.append ih.1, fun w => ?_⟩
    rw [extents_append hliteral, extents_literal hbody, ih.2]
    rfl

end

/-! ### Taking a pair of parentheses out -/

/-- A pair of matching parentheses outside literals, with what is before, inside and after. -/
structure Pair (t before inside after : Text) : Prop where
  cut : t = before ++ '(' :: inside ++ ')' :: after
  code : Place.code.after before = .code
  matched : t.matchingParen before.size = .ok (before.size + 1 + inside.size)

section
variable {w} {t before inside after : Text}

theorem append_inj_of_size {s t u v : Text} (h : s ++ u = t ++ v) (hsize : s.size = t.size) :
    s = t ∧ u = v := by
  have hs : s = t := by
    calc s = takeBytes s.size (s ++ u) := by simp
      _ = takeBytes t.size (t ++ v) := by rw [h, hsize]
      _ = t := by simp
  subst hs
  exact ⟨rfl, List.append_cancel_left h⟩

theorem Pair.closeGroup_inside (h : Pair t before inside after) :
    closeGroup 0 .code (inside ++ ')' :: after) = some (inside, after) := by
  have hmatched := matchingParen_eq_ok_iff.1 h.matched
  rw [h.cut, List.append_assoc, List.cons_append, matchingParen?, dropBytes?_size_append]
    at hmatched
  obtain ⟨⟨inner, rest⟩, hsplit, hsize⟩ := Option.map_eq_some_iff.1 hmatched
  obtain ⟨rfl, hrest⟩ :=
    append_inj_of_size (eq_append_of_closeGroup hsplit) (Nat.add_left_cancel hsize).symm
  obtain rfl := (List.cons.inj hrest).2
  exact hsplit

/-- The pair is among the groups of the text. Where parentheses count for nothing, the other groups
are those of the text without the pair. -/
theorem Pair.exists_extents (h : Pair t before inside after) (w : Gauge) :
    ∃ xs ys, extents w t =
        xs ++ ⟨total w before, total w before + w .code '(' + total w inside⟩ :: ys ∧
      (w .code '(' = 0 → w .code ')' = 0 → extents w (before ++ inside ++ after) = xs ++ ys) := by
  obtain ⟨xs, left, hbefore⟩ := exists_extentsFrom_append (w := w) .code 0 [] before
  obtain ⟨ys, hinside⟩ := exists_extentsFrom_of_closeGroup (w := w) h.closeGroup_inside
    (total w before + w .code '(') [] rfl
  simp only [h.code, Nat.zero_add, List.nil_append, totalFrom_code] at hbefore hinside
  have hwith : extents w t = xs ++ (ys ++
      ⟨total w before, total w before + w .code '(' + total w inside⟩ ::
        extentsFrom w .code (total w before + w .code '(' + total w inside + w .code ')') left
          after) := by
    rw [extents, h.cut, List.append_assoc, hbefore, List.cons_append, extentsFrom_open, hinside,
      extentsFrom_close]
  refine ⟨xs ++ ys, _, by rw [hwith, List.append_assoc], fun hopen hclose => ?_⟩
  simp only [hopen, hclose, Nat.add_zero] at hinside ⊢
  rw [extents, List.append_assoc, hbefore, hinside, List.append_assoc]

end
end Text
end ExtendedBnf
