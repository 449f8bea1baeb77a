import ExtendedBnf.ExprReader
import ExtendedBnf.Result

/-!
# Progress of the reader

Every level of the reader leaves less text than it was given, and what it says
depends on the reader of groups only at shorter texts. Hence the guard in
`Reader.read` never refuses a group: reading a text is reading it whole with the
same reader for its groups.
-/
namespace ExtendedBnf
namespace Reader

theorem length_skipSpaces_le (t : Text) : (skipSpaces t).length ≤ t.length :=
  (List.dropWhile_sublist isSpace).length_le

/-- What follows a first character after the spaces is shorter than the text. -/
theorem length_lt_of_skipSpaces {t r : Text} {c : Char} (h : skipSpaces t = c :: r) :
    r.length < t.length := by
  have := length_skipSpaces_le t
  rw [h, List.length_cons] at this
  omega

theorem length_many_le {α : Type} {item : Text → Except Failure (Option (α × Text))} {t rest : Text}
    {as : List α} (h : many item t = .ok (as, rest)) : rest.length ≤ t.length := by
  fun_induction many item t generalizing as with
  | case1 => cases h
  | case2 => cases h; exact Nat.le_refl _
  | case3 t a r hr hlt ih =>
    obtain ⟨⟨others, left⟩, hread, heq⟩ := map_eq_ok.1 h
    cases heq
    have := ih hread
    omega
  | case4 => cases h; exact Nat.le_refl _

theorem length_literal?_lt {t rest : Text} {l : Literal} (h : literal? t = some (.ok (l, rest))) :
    rest.length < t.length := by
  cases t with
  | nil => cases h
  | cons c r =>
    obtain ⟨quote, -, hq⟩ := Option.map_eq_some_iff.1 h
    split at hq
    next body left hc =>
      cases hq
      rw [eq_append_of_closing? hc]
      simp
      omega
    next => cases hq

theorem length_group_lt {inner : Text → Except Failure Expr} {t rest : Text} {e : Expr}
    (h : group inner t = .ok (e, rest)) : rest.length < t.length := by
  unfold group at h
  split at h
  next => cases h
  next inside left hc =>
    rw [Text.eq_append_of_closeGroup hc]
    split at h
    · cases h
    · split at h
      · cases h
        simp
        omega
      · cases h

theorem length_primary_lt {inner : Text → Except Failure Expr} {t rest : Text} {e : Expr}
    (h : primary inner t = .ok (e, rest)) : rest.length < t.length := by
  unfold primary at h
  split at h
  next => cases h
  next c r =>
    split at h
    · cases h
      have := (List.dropWhile_sublist isNameRest (l := r)).length_le
      rw [List.length_cons]
      omega
    · split at h
      · have := length_group_lt h
        rw [List.length_cons]
        omega
      · split at h
        next read hl =>
          obtain ⟨⟨l, left⟩, rfl, heq⟩ := map_eq_ok.1 h
          cases heq
          exact length_literal?_lt hl
        next => cases h

theorem length_listTail_le {item e : Expr} {t rest : Text} (h : listTail item t = .ok (e, rest)) :
    rest.length ≤ t.length := by
  unfold listTail at h
  split at h
  next => cases h
  next => cases h
  next separator r hl =>
    have := length_literal?_lt hl
    have := length_skipSpaces_le t
    have := length_skipSpaces_le r
    have := (List.dropWhile_sublist isOperatorChar (l := skipSpaces r)).length_le
    dsimp only at h
    split at h
    · cases h
      omega
    · cases h

theorem length_operand_lt {inner : Text → Except Failure Expr} {t rest : Text} {e : Expr}
    (h : operand inner t = .ok (e, rest)) : rest.length < t.length := by
  obtain ⟨⟨first, r⟩, hp, h⟩ := bind_eq_ok.1 h
  have hlt := length_primary_lt hp
  dsimp only at h
  split at h
  next tail hs =>
    have := length_lt_of_skipSpaces hs
    have := length_listTail_le h
    omega
  next =>
    obtain ⟨⟨suffixes, left⟩, hm, h⟩ := bind_eq_ok.1 h
    cases h
    exact Nat.lt_of_le_of_lt (length_many_le hm) hlt

theorem length_term_lt {inner : Text → Except Failure Expr} {t rest : Text} {e : Expr}
    (h : term inner t = .ok (e, rest)) : rest.length < t.length := by
  obtain ⟨⟨marks, r⟩, hm, h⟩ := bind_eq_ok.1 h
  obtain ⟨⟨body, left⟩, ho, h⟩ := bind_eq_ok.1 h
  cases h
  have := length_many_le hm
  have := length_operand_lt ho
  omega

theorem length_terms_lt {inner : Text → Except Failure Expr} {t rest : Text} {e : Expr}
    (h : terms inner t = .ok (e, rest)) : rest.length < t.length := by
  obtain ⟨⟨first, r⟩, ht, h⟩ := bind_eq_ok.1 h
  obtain ⟨⟨others, left⟩, hm, h⟩ := bind_eq_ok.1 h
  cases h
  have := length_term_lt ht
  have := length_many_le hm
  omega

theorem length_joint?_le {t r : Text} (h : joint? t = some r) : r.length ≤ t.length := by
  have := length_skipSpaces_le t
  unfold joint? at h
  split at h
  next left hs =>
    have := length_lt_of_skipSpaces hs
    have := length_skipSpaces_le left
    simp only [Option.some.injEq] at h
    rw [← h]
    omega
  next =>
    split at h
    · simp only [Option.some.injEq] at h
      rw [← h]
      exact this
    · simp at h

theorem length_skipBar_le (t : Text) : (skipBar t).length ≤ t.length := by
  unfold skipBar
  split
  · have := length_skipSpaces_le
    simp only [List.length_cons]
    exact Nat.le_succ_of_le (this _)
  · exact Nat.le_refl _

section
variable {f g : Text → Except Failure Expr}

theorem many_congr {α : Type} {item other : Text → Except Failure (Option (α × Text))} {t : Text}
    (h : ∀ s : Text, s.length ≤ t.length → item s = other s) : many item t = many other t := by
  fun_induction many item t with
  | case1 t failure hi => rw [many, ← h t (Nat.le_refl _), hi]
  | case2 t hi => rw [many, ← h t (Nat.le_refl _), hi]
  | case3 t a r hi hlt ih =>
    rw [ih fun s hs => h s (by omega)]
    conv => rhs; rw [many, ← h t (Nat.le_refl _), hi]
    simp only [hlt, if_true]
  | case4 t a r hi hlt =>
    rw [many, ← h t (Nat.le_refl _), hi]
    simp only [hlt, if_false]

theorem group_congr {t : Text} (h : ∀ s : Text, s.length < t.length → f s = g s) :
    group f t = group g t := by
  unfold group
  split
  next => rfl
  next inside rest hc =>
    have hlt : inside.length < t.length := by
      rw [Text.eq_append_of_closeGroup hc]
      simp
    rw [h inside hlt]

theorem primary_congr {t : Text} (h : ∀ s : Text, s.length < t.length → f s = g s) :
    primary f t = primary g t := by
  unfold primary
  split
  next => rfl
  next c r =>
    have hg : group f r = group g r := group_congr fun s hs => h s (by rw [List.length_cons]; omega)
    rw [hg]

theorem operand_congr {t : Text} (h : ∀ s : Text, s.length < t.length → f s = g s) :
    operand f t = operand g t := by
  unfold operand
  rw [primary_congr h]

theorem term_congr {t : Text} (h : ∀ s : Text, s.length < t.length → f s = g s) :
    term f t = term g t := by
  unfold term
  cases hm : many mark? t with
  | error => rfl
  | ok read =>
    obtain ⟨marks, r⟩ := read
    have := length_many_le hm
    simp only [bind, Except.bind]
    rw [operand_congr fun s hs => h s (by omega)]

theorem nextTerm?_congr {t : Text} (h : ∀ s : Text, s.length < t.length → f s = g s) :
    nextTerm? f t = nextTerm? g t := by
  unfold nextTerm?
  split
  next r hj =>
    have := length_joint?_le hj
    rw [term_congr fun s hs => h s (by omega)]
  next => rfl

theorem terms_congr {t : Text} (h : ∀ s : Text, s.length < t.length → f s = g s) :
    terms f t = terms g t := by
  unfold terms
  rw [term_congr h]
  cases ht : term g t with
  | error => rfl
  | ok read =>
    obtain ⟨first, r⟩ := read
    have := length_term_lt ht
    simp only [bind, Except.bind]
    rw [many_congr fun s hs => nextTerm?_congr fun u hu => h u (by omega)]

theorem nextAlternative?_congr {t : Text} (h : ∀ s : Text, s.length < t.length → f s = g s) :
    nextAlternative? f t = nextAlternative? g t := by
  unfold nextAlternative?
  split
  next r hs =>
    have := length_lt_of_skipSpaces hs
    have := length_skipSpaces_le r
    rw [terms_congr fun s hs => h s (by omega)]
  next => rfl

theorem alternatives_congr {t : Text} (h : ∀ s : Text, s.length < t.length → f s = g s) :
    alternatives f t = alternatives g t := by
  have hb := length_skipBar_le t
  unfold alternatives
  rw [terms_congr fun s hs => h s (by omega)]
  cases ht : terms g (skipBar t) with
  | error => rfl
  | ok read =>
    obtain ⟨first, r⟩ := read
    have := length_terms_lt ht
    simp only [bind, Except.bind]
    rw [many_congr fun s hs => nextAlternative?_congr fun u hu => h u (by omega)]

/-- What a whole text says depends on the reader of groups at shorter texts only. -/
theorem whole_congr {t : Text} (h : ∀ s : Text, s.length < t.length → f s = g s) :
    whole f t = whole g t := by
  have := length_skipSpaces_le t
  unfold whole
  rw [alternatives_congr fun s hs => h s (by omega)]

end

/-- Reading a text is reading it whole, its groups in the same way. -/
theorem read_eq (t : Text) : read t = whole read t := by
  rw [read]
  exact whole_congr fun s hs => if_pos hs

end Reader
end ExtendedBnf
