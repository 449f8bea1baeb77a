import ExtendedBnf.Text

/-!
# Replacing tokens in a text

A text is gone through from the left. Where a token stands it is replaced, and
the search goes on behind it, so that replaced tokens never overlap.
-/
namespace ExtendedBnf
namespace Text

/-- Replaces what `token` finds. At the start of a text `token` gives the number of characters of
the token there. The first `skip` characters belong to a token already replaced. -/
def replaceFrom (token : Text → Option Nat) (new : Text) : Nat → Text → Text
  | _, [] => []
  | skip + 1, _ :: r => replaceFrom token new skip r
  | 0, c :: r =>
    match token (c :: r) with
    | some (n + 1) => new ++ replaceFrom token new n r
    | _ => c :: replaceFrom token new 0 r

/-- The text with every token replaced. -/
def replaceAll (t : Text) (token : Text → Option Nat) (new : Text) : Text :=
  replaceFrom token new 0 t

theorem replaceAll_eq_self {t : Text} {token : Text → Option Nat}
    (h : ∀ s, s <:+ t → token s = none) (new : Text) : t.replaceAll token new = t := by
  unfold replaceAll
  induction t with
  | nil => rfl
  | cons c r ih =>
    rw [replaceFrom, h _ (List.suffix_refl _), ih fun s hs => h s (hs.trans (List.suffix_cons c r))]

section
variable {token : Text → Option Nat} {new : Text}

/-- A replacement that is no longer than its tokens does not make the text longer. -/
theorem length_replaceFrom_le (h : ∀ s n, token s = some n → new.length ≤ n ∧ n ≤ s.length)
    {skip : Nat} {t : Text} (hskip : skip ≤ t.length) :
    (replaceFrom token new skip t).length + skip ≤ t.length := by
  fun_induction replaceFrom token new skip t with
  | case1 => simpa using hskip
  | case2 skip c r ih =>
    have hr := ih (Nat.le_of_succ_le_succ hskip)
    rw [List.length_cons]
    omega
  | case3 c r n hn ih =>
    obtain ⟨hnew, hlen⟩ := h _ _ hn
    have hr := ih (Nat.le_of_succ_le_succ hlen)
    rw [List.length_append, List.length_cons]
    omega
  | case4 c r hn ih =>
    have hr := ih (Nat.zero_le _)
    rw [List.length_cons, List.length_cons]
    omega

theorem length_replaceAll_le (h : ∀ s n, token s = some n → new.length ≤ n ∧ n ≤ s.length)
    (t : Text) : (t.replaceAll token new).length ≤ t.length :=
  length_replaceFrom_le h (Nat.zero_le _)

/-- A replacement that is shorter than its tokens makes a text with a token shorter. -/
theorem length_replaceAll_lt (h : ∀ s n, token s = some n → new.length < n ∧ n ≤ s.length)
    {s t : Text} (hs : s <:+ t) (htoken : token s ≠ none) :
    (t.replaceAll token new).length < t.length := by
  have hle : ∀ s n, token s = some n → new.length ≤ n ∧ n ≤ s.length :=
    fun s n hn => ⟨Nat.le_of_lt (h s n hn).1, (h s n hn).2⟩
  obtain ⟨n, hn⟩ := Option.ne_none_iff_exists'.1 htoken
  unfold replaceAll
  induction t with
  | nil =>
    have hlen := h s n hn
    rw [List.suffix_nil.1 hs, List.length_nil] at hlen
    omega
  | cons c r ih =>
    rw [replaceFrom]
    split
    next m hm =>
      obtain ⟨hnew, hlen⟩ := h _ _ hm
      have hr := length_replaceFrom_le hle (Nat.le_of_succ_le_succ hlen)
      rw [List.length_append, List.length_cons]
      omega
    next hnone =>
      obtain rfl | hs := List.suffix_cons_iff.1 hs
      · cases n with
        | zero =>
          have := (h _ _ hn).1
          omega
        | succ m => exact absurd hn (hnone m)
      · have hr := ih hs
        rw [List.length_cons, List.length_cons]
        omega

end

/-- What follows `start` in the text, if the text starts so. -/
def after? (t start : Text) : Option Text :=
  if start.isPrefixOf t then some (t.drop start.length) else none

theorem after?_eq_some_iff {t start r : Text} : t.after? start = some r ↔ t = start ++ r := by
  unfold after?
  constructor
  · intro h
    split at h
    next hprefix =>
      obtain ⟨u, rfl⟩ := List.isPrefixOf_iff_prefix.1 hprefix
      rw [List.drop_left] at h
      rw [Option.some.inj h]
    next => cases h
  · rintro rfl
    rw [if_pos (List.isPrefixOf_iff_prefix.2 (List.prefix_append start r)), List.drop_left]

end Text
end ExtendedBnf
