import ExtendedBnf.Proofs.Balanced
import ExtendedBnf.Proofs.FailurePlaces

/-!
# Texts in parentheses

Parentheses around a text are seen through. If the one in front is matched by the one at
the end, the text between them is balanced, so it is cut out whole and read on its own,
and nothing follows the group. What is read is the same expression, and what cannot be
read has the same fault, one byte later. This goes on for any number of parentheses.
-/
namespace ExtendedBnf
namespace Text

/-- The text in `n` pairs of parentheses. -/
def grouped (t : Text) : Nat → Text
  | 0 => t
  | n + 1 => '(' :: grouped t n ++ [')']

/-- What ends a group at its last character is passed over in any group. -/
theorem closeGroup_append_of_last {t : Text} {depth : Nat} {here : Place}
    (h : closeGroup depth here (t ++ [')']) = some (t, [])) (more : Nat) (rest : Text) :
    closeGroup (depth + more) here (t ++ rest) =
      (closeGroup more .code rest).map fun split => (t ++ split.1, split.2) := by
  -- The induction follows the search to its last step, the only one that ends a group for good.
  generalize hs : t ++ [')'] = s at h
  fun_induction closeGroup depth here s generalizing t with
  | case1 => cases h
  | case2 here c r hc =>
    cases h
    obtain ⟨rfl, rfl⟩ : here = .code ∧ c = ')' := by simp_all [Place.isCode]
    simp
  | case3 here c r hc depth ih =>
    obtain ⟨⟨t, u⟩, hsplit, heq⟩ := Option.map_eq_some_iff.1 h
    cases heq
    obtain ⟨rfl, rfl⟩ : here = .code ∧ c = ')' := by simp_all [Place.isCode]
    rw [List.cons_append, Nat.succ_add, closeGroup_close_succ, ih (List.cons.inj hs).2 hsplit]
    simp [Function.comp_def]
  | case4 depth here c r hc ho ih =>
    obtain ⟨⟨t, u⟩, hsplit, heq⟩ := Option.map_eq_some_iff.1 h
    cases heq
    obtain ⟨rfl, rfl⟩ : here = .code ∧ c = '(' := by simp_all [Place.isCode]
    rw [List.cons_append, closeGroup_open, Nat.add_right_comm, ih (List.cons.inj hs).2 hsplit]
    simp [Function.comp_def]
  | case5 depth here c r hc ho ih =>
    obtain ⟨⟨t, u⟩, hsplit, heq⟩ := Option.map_eq_some_iff.1 h
    cases heq
    have hplain : here.isCode c = false ∨ c ≠ '(' ∧ c ≠ ')' := by
      cases hcode : here.isCode c <;> simp_all
    rw [List.cons_append, closeGroup_cons hplain, ih (List.cons.inj hs).2 hsplit]
    simp [Function.comp_def]

theorem balanced_grouped {t : Text} (h : Balanced t) (n : Nat) : Balanced (t.grouped n) := by
  induction n with
  | zero => exact h
  | succ n ih => exact balanced_group ih

theorem isBlankText_grouped {t : Text} (h : t.isBlankText = false) (n : Nat) :
    (t.grouped n).isBlankText = false := by
  cases n with
  | zero => exact h
  | succ n => rfl

/-- A text is balanced if the parentheses put around it match. -/
theorem balanced_of_matchingParen {t : Text}
    (h : matchingParen ('(' :: t ++ [')']) 0 = .ok (t.size + 1)) : Balanced t := by
  obtain ⟨⟨inner, rest⟩, hsplit, hsize⟩ := Option.map_eq_some_iff.1 (matchingParen_eq_ok_iff.1 h)
  have hcut : t ++ [')'] = inner ++ ')' :: rest := eq_append_of_closeGroup hsplit
  have hsizes := congrArg size hcut
  simp only [size_append, size_cons, size_nil] at hsizes hsize
  have hrest : rest.length ≤ 0 := by
    have := length_le_size rest
    omega
  obtain rfl : rest = [] := List.length_eq_zero_iff.1 (Nat.le_zero.1 hrest)
  obtain rfl : t = inner := List.append_cancel_right hcut
  intro depth rest
  rw [← closeGroup_append_of_last hsplit, Nat.zero_add]

end Text

/-- The fault with its place moved by `n` bytes. -/
def Fault.moved (n : Nat) : Fault → Fault
  | malformedRule rule offset flaw => malformedRule rule (offset + n) flaw
  | malformedStart offset flaw => malformedStart (offset + n) flaw
  | unbalancedGroup rule offset => unbalancedGroup rule (offset + n)
  | invalidSeparatorOperator rule offset operator =>
    invalidSeparatorOperator rule (offset + n) operator
  | unresolvedConstruct rule construct => unresolvedConstruct rule construct

theorem Fault.moved_zero (fault : Fault) : fault.moved 0 = fault := by cases fault <;> rfl

theorem Fault.moved_moved (fault : Fault) (m n : Nat) :
    (fault.moved m).moved n = fault.moved (m + n) := by
  cases fault <;> simp [moved, Nat.add_assoc]

namespace Reader
variable {inner : Text → Except Failure Expr} {t r : Text} {e : Expr} {failure : Failure}

section
variable (hbalanced : Text.Balanced t) (hblank : t.isBlankText = false)
include hbalanced hblank

theorem group_of_ok (h : inner t = .ok e) : group inner (t ++ [')']) = .ok (e, []) := by
  rw [group, Text.closeGroup_of_balanced hbalanced]
  simp only [hblank, h]
  rfl

theorem group_of_error (h : inner t = .error failure) :
    group inner (t ++ [')']) = .error { failure with unread := failure.unread + 1 } := by
  rw [group, Text.closeGroup_of_balanced hbalanced]
  simp only [hblank, h]
  rfl

end

theorem many_mark_open (r : Text) : many mark? ('(' :: r) = .ok ([], '(' :: r) := by
  rw [many]
  rfl

theorem many_nil {α : Type} {item : Text → Except Failure (Option (α × Text))}
    (h : item [] = .ok none) : many item [] = .ok ([], []) := by rw [many, h]

section
variable (hbar : skipBar (skipSpaces t) = t) (hmarks : many mark? t = .ok ([], t))
include hbar hmarks

/-- An operand that is all of the text is what the text says. -/
theorem whole_of_operand_ok (h : operand inner t = .ok (e, [])) : whole inner t = .ok e := by
  have hterm : term inner t = .ok (e, []) := by
    simp only [term, hmarks, h, bind, Except.bind]
    rfl
  have hterms : terms inner t = .ok (e, []) := by
    have hothers : many (nextTerm? inner) [] = .ok ([], []) := many_nil rfl
    simp only [terms, hterm, bind, Except.bind, hothers]
    rfl
  have halternatives : alternatives inner (skipSpaces t) = .ok (e, []) := by
    have hothers : many (nextAlternative? inner) [] = .ok ([], []) := many_nil rfl
    simp only [alternatives, hbar, hterms, bind, Except.bind, hothers]
    rfl
  simp only [whole, halternatives, bind, Except.bind]
  rfl

/-- The text fails where its first operand does. -/
theorem whole_of_operand_error (h : operand inner t = .error failure) :
    whole inner t = .error failure := by
  simp only [whole, alternatives, hbar, terms, term, hmarks, h, bind, Except.bind]

end

/-- A group that is all of the text is what the text says. -/
theorem whole_of_group_ok (h : group inner r = .ok (e, [])) : whole inner ('(' :: r) = .ok e := by
  have hprimary : primary inner ('(' :: r) = .ok (e, []) := h
  have hoperand : operand inner ('(' :: r) = .ok (e, []) := by
    have hsuffixes : many suffix? [] = .ok ([], []) := many_nil rfl
    simp only [operand, hprimary, bind, Except.bind, hsuffixes]
    rfl
  exact whole_of_operand_ok rfl (many_mark_open r) hoperand

/-- A group that fails where the text starts makes the text fail. -/
theorem whole_of_group_error (h : group inner r = .error failure) :
    whole inner ('(' :: r) = .error failure := by
  have hprimary : primary inner ('(' :: r) = .error failure := h
  have hoperand : operand inner ('(' :: r) = .error failure := by
    simp only [operand, hprimary, bind, Except.bind]
  exact whole_of_operand_error rfl (many_mark_open r) hoperand

end Reader

theorem Reader.Failure.fault_group {failure : Reader.Failure} {t : Text}
    (h : failure.unread ≤ t.size) :
    fault ('(' :: t ++ [')']) { failure with unread := failure.unread + 1 } =
      (failure.fault t).moved 1 := by
  have hopen : ('(').utf8Size = 1 := rfl
  have hclose : (')').utf8Size = 1 := rfl
  have hplace : Text.size ('(' :: t ++ [')']) - (failure.unread + 1) =
      t.size - failure.unread + 1 := by
    simp [hopen, hclose]
    omega
  simp only [fault, hplace]
  cases failure.complaint <;> rfl

namespace Expr

/-- A fault in parentheses is one byte later. -/
theorem ofText_group {t : Text} (hbalanced : Text.Balanced t) (hblank : t.isBlankText = false) :
    ofText ('(' :: t ++ [')']) = (ofText t).mapError (Fault.moved 1) := by
  unfold ofText
  rw [Reader.read_eq ('(' :: t ++ [')']), List.cons_append]
  cases hread : Reader.read t with
  | ok e =>
    rw [Reader.whole_of_group_ok (Reader.group_of_ok hbalanced hblank hread)]
    rfl
  | error failure =>
    have hle : failure.unread ≤ t.size := by
      obtain ⟨a, b, rfl, hunread, -⟩ := Reader.isAt_of_read hread
      rw [hunread, Text.size_append]
      exact Nat.le_add_left ..
    rw [Reader.whole_of_group_error (Reader.group_of_error hbalanced hblank hread)]
    exact congrArg Except.error (Reader.Failure.fault_group hle)

/-- Parentheses around a text change nothing but the places of faults, which are one byte later for
each pair. -/
theorem ofText_grouped {t : Text} (hblank : t.isBlankText = false)
    (hmatch : Text.matchingParen ('(' :: t ++ [')']) 0 = .ok (t.size + 1)) (n : Nat) :
    ofText (t.grouped n) = (ofText t).mapError (Fault.moved n) := by
  have hbalanced : Text.Balanced t := Text.balanced_of_matchingParen hmatch
  induction n with
  | zero =>
    rw [Text.grouped]
    cases ofText t with
    | ok e => rfl
    | error fault => exact congrArg Except.error fault.moved_zero.symm
  | succ n ih =>
    have hgroup := ofText_group (Text.balanced_grouped hbalanced n)
      (Text.isBlankText_grouped hblank n)
    rw [Text.grouped, hgroup, ih]
    cases ofText t with
    | ok e => rfl
    | error fault => exact congrArg Except.error (fault.moved_moved n 1)

/-- The parenthesis in the quotes is no part of the groups, and the operator at fault is one byte
later for each pair around it. -/
theorem ofText_grouped_operator :
    let t : Text := "a % 'é)' ?".toList
    t.isBlankText = false ∧ Text.matchingParen ('(' :: t ++ [')']) 0 = .ok (t.size + 1) ∧
      ofText t = .error (.invalidSeparatorOperator none 10 ['?']) ∧
      ofText "((a % 'é)' ?))".toList = .error (.invalidSeparatorOperator none 12 ['?']) := by
  intro t
  have hblank : t.isBlankText = false := by decide
  have hmatch : Text.matchingParen ('(' :: t ++ [')']) 0 = .ok (t.size + 1) := by decide
  have htail : Reader.listTail (.name ['a']) " 'é)' ?".toList = .error ⟨.operator ['?'], 1⟩ := by
    have hseparator : Reader.literal? (Reader.skipSpaces " 'é)' ?".toList) =
        some (.ok (⟨"é)".toList, .single⟩, " ?".toList)) := by
      decide +kernel
    have hwritten : (Reader.skipSpaces " ?".toList).takeWhile Reader.isOperatorChar = ['?'] := by
      decide +kernel
    have hop : ListOp.ofText? ['?'] = none := by decide
    simp only [Reader.listTail, hseparator, hwritten, hop]
    rfl
  have hoperand (inner : Text → Except Reader.Failure Expr) :
      Reader.operand inner t = .error ⟨.operator ['?'], 1⟩ := by
    have hname : Reader.primary inner t = .ok (.name ['a'], " % 'é)' ?".toList) := rfl
    simp only [Reader.operand, hname, bind, Except.bind]
    exact htail
  have hread : ofText t = .error (.invalidSeparatorOperator none 10 ['?']) := by
    have hmarks : Reader.many Reader.mark? t = .ok ([], t) := by
      rw [Reader.many]
      rfl
    rw [ofText, Reader.read_eq, Reader.whole_of_operand_error (by decide) hmarks (hoperand _)]
    rfl
  have htext : t.grouped 2 = "((a % 'é)' ?))".toList := by decide
  have hgrouped := ofText_grouped hblank hmatch 2
  rw [hread, htext] at hgrouped
  exact ⟨hblank, hmatch, hread, hgrouped⟩

end Expr
end ExtendedBnf
