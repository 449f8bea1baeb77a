import ExtendedBnf.Proofs.Follow
import ExtendedBnf.Proofs.ReaderSound

/-!
# Where reading an expression fails

A failure counts the bytes that are left. At every level of the reader these are
the bytes of an end of its text, and this end is empty or starts with a token, since
white space is skipped before a failure is found. The interior of a group is an
inner part of the text, and what its reader leaves out of account, the closing
parenthesis and all that follows, is added to the count. So the fault of a body names
a place of the body.
-/
namespace ExtendedBnf
namespace Reader

/-- The failure is in front of what is left: a token, or nothing. -/
def Failure.IsAt (failure : Failure) (t : Text) : Prop :=
  ∃ a b, t = a ++ b ∧ failure.unread = b.size ∧ Stops isSpace b

variable {failure : Failure} {t : Text}

theorem Failure.isAt_start (h : failure.unread = t.size) (ht : Stops isSpace t) :
    failure.IsAt t := ⟨[], t, rfl, h, ht⟩

theorem Failure.IsAt.append (h : failure.IsAt t) (s : Text) : failure.IsAt (s ++ t) := by
  obtain ⟨a, b, rfl, hunread, hb⟩ := h
  exact ⟨s ++ a, b, (List.append_assoc ..).symm, hunread, hb⟩

theorem Failure.IsAt.cons (h : failure.IsAt t) (c : Char) : failure.IsAt (c :: t) := h.append [c]

theorem Failure.IsAt.of_skipSpaces (h : failure.IsAt (skipSpaces t)) : failure.IsAt t := by
  obtain ⟨g, -, ht⟩ := exists_gap t
  rw [ht]
  exact h.append g

theorem stops_skipSpaces (t : Text) : Stops isSpace (skipSpaces t) :=
  stops_dropWhile isSpace t

theorem isAt_unexpected (ht : Stops isSpace t) : (unexpected t).IsAt t := by
  unfold unexpected
  split
  · exact Failure.isAt_start rfl ht
  · exact Failure.isAt_start rfl ht
  · exact Failure.isAt_start rfl ht

/-- A loop fails where one of its items does. -/
theorem isAt_of_many {α : Type} {item : Text → Except Failure (Option (α × Text))}
    {meaning : Text → α → Prop} (hsound : SoundItem item meaning)
    (hitem : ∀ s f, item s = .error f → f.IsAt s) (h : many item t = .error failure) :
    failure.IsAt t := by
  fun_induction many item t with
  | case1 t found hi =>
    cases h
    exact hitem t _ hi
  | case2 => cases h
  | case3 t a r hi hlt ih =>
    obtain ⟨u, rfl, -⟩ := hsound t a r hi
    exact (ih (map_eq_error.1 h)).append u
  | case4 => cases h

theorem isAt_of_literal? (h : literal? t = some (.error failure)) : failure.IsAt t := by
  cases t with
  | nil => cases h
  | cons c r =>
    obtain ⟨quote, hquote, h⟩ := Option.map_eq_some_iff.1 h
    obtain rfl := Quote.ofChar?_eq_some_iff.1 hquote
    split at h
    next => cases h
    next =>
      cases h
      exact Failure.isAt_start rfl (stops_cons.2 (by cases quote <;> rfl))

theorem isAt_of_number? (ht : Stops isSpace t) (h : number? t = .error failure) :
    failure.IsAt t := by
  unfold number? at h
  split at h
  next => cases h
  next =>
    dsimp only at h
    split at h
    · cases h
    · cases h
      exact Failure.isAt_start rfl ht

theorem isAt_of_bounds (h : bounds t = .error failure) : failure.IsAt ('{' :: t) := by
  obtain ⟨g, -, ht⟩ := exists_gap t
  rcases bind_eq_error.1 h with hmin | ⟨⟨min, t₁⟩, hmin, h⟩
  · exact ((isAt_of_number? (stops_skipSpaces t) hmin).of_skipSpaces).cons '{'
  obtain ⟨m, hm, -⟩ := sound_number? _ _ _ hmin
  dsimp only at h
  cases hcomma : skipComma t₁ with
  | mk comma t₂ =>
  obtain ⟨k, -, ht₁⟩ := eq_append_of_skipComma hcomma
  have hback {f : Failure} (hf : f.IsAt t₂) : f.IsAt ('{' :: t) := by
    rw [ht, hm, ht₁]
    exact ((hf.append _).append m).append ('{' :: g)
  rw [hcomma] at h
  rcases bind_eq_error.1 h with hmax | ⟨⟨max, t₃⟩, hmax, h⟩
  · exact hback (isAt_of_number? (stops_skipSpaces t₂) hmax).of_skipSpaces
  obtain ⟨n, hn, -⟩ := sound_number? _ _ _ hmax
  dsimp only at h
  split at h
  next left hclose =>
    split at h
    · cases h
    · cases h
      exact Failure.isAt_start (by simp; rfl) (stops_cons.2 rfl)
  next =>
    cases h
    have hlast := (isAt_unexpected (stops_skipSpaces t₃)).of_skipSpaces
    refine hback (Failure.IsAt.of_skipSpaces ?_)
    rw [hn]
    exact hlast.append n

theorem isAt_of_suffix? (h : suffix? t = .error failure) : failure.IsAt t := by
  unfold suffix? at h
  split at h
  next => cases h
  next => cases h
  next => cases h
  next r hr =>
    refine Failure.IsAt.of_skipSpaces ?_
    rw [hr]
    exact isAt_of_bounds (map_eq_error.1 h)
  next => cases h

theorem isAt_of_listTail {item : Expr} (h : listTail item t = .error failure) :
    failure.IsAt t := by
  refine Failure.IsAt.of_skipSpaces ?_
  unfold listTail at h
  split at h
  next =>
    cases h
    exact Failure.isAt_start rfl (stops_skipSpaces t)
  next found hread =>
    cases h
    exact isAt_of_literal? hread
  next separator r hread =>
    obtain ⟨ht, -⟩ := eq_append_of_literal? hread
    dsimp only at h
    split at h
    · cases h
    · cases h
      rw [ht]
      exact (Failure.isAt_start rfl (stops_skipSpaces r)).of_skipSpaces.append _

/-- After the marks there is no white space. -/
theorem stops_of_many_mark {marks : List Mark} {rest : Text} (ht : Stops isSpace t)
    (h : many mark? t = .ok (marks, rest)) : Stops isSpace rest := by
  fun_induction many mark? t generalizing marks with
  | case1 => cases h
  | case2 =>
    cases h
    exact ht
  | case3 t mark r hi hlt ih =>
    obtain ⟨⟨others, left⟩, hread, heq⟩ := map_eq_ok.1 h
    cases heq
    refine ih ?_ hread
    unfold mark? at hi
    split at hi <;> cases hi <;> exact stops_skipSpaces _
  | case4 =>
    cases h
    exact ht

theorem mark?_ne_error : mark? t ≠ .error failure := by
  unfold mark?
  split <;> exact nofun

theorem stops_of_joint? {r : Text} (h : joint? t = some r) : Stops isSpace r := by
  unfold joint? at h
  split at h
  next =>
    cases h
    exact stops_skipSpaces _
  next =>
    split at h
    · cases h
      exact stops_skipSpaces t
    · cases h

/-- What is taken for a text where it does not matter what it says. -/
def Anything (_ : Text) (_ : Expr) : Prop := True

theorem reads_anything (inner : Text → Except Failure Expr) :
    ∀ s e, inner s = .ok e → Anything s e := fun _ _ _ => trivial

section
variable {inner : Text → Except Failure Expr} (hinner : ∀ s f, inner s = .error f → f.IsAt s)
include hinner

theorem isAt_of_group (h : group inner t = .error failure) : failure.IsAt ('(' :: t) := by
  unfold group at h
  split at h
  next =>
    cases h
    exact Failure.isAt_start (by simp; rfl) (stops_cons.2 rfl)
  next inside rest hclose =>
    split at h
    next =>
      cases h
      exact Failure.isAt_start (by simp; rfl) (stops_cons.2 rfl)
    next =>
      split at h
      next => cases h
      next found hfound =>
        cases h
        obtain ⟨a, b, rfl, hunread, hb⟩ := hinner inside found hfound
        refine ⟨'(' :: a, b ++ ')' :: rest, ?_, ?_, ?_⟩
        · rw [Text.eq_append_of_closeGroup hclose]
          simp
        · rw [hunread]
          simp [Nat.add_assoc]
          rfl
        · cases b with
          | nil => exact stops_cons.2 rfl
          | cons c b => exact hb

theorem isAt_of_primary (ht : Stops isSpace t) (h : primary inner t = .error failure) :
    failure.IsAt t := by
  unfold primary at h
  split at h
  next =>
    cases h
    exact isAt_unexpected ht
  next c r =>
    split at h
    next => cases h
    next =>
      split at h
      next hopen =>
        rw [hopen]
        exact isAt_of_group hinner h
      next =>
        split at h
        next read hread =>
          rw [map_eq_error.1 h] at hread
          exact isAt_of_literal? hread
        next =>
          cases h
          exact isAt_unexpected ht

theorem isAt_of_operand (ht : Stops isSpace t) (h : operand inner t = .error failure) :
    failure.IsAt t := by
  rcases bind_eq_error.1 h with hprimary | ⟨⟨e, r⟩, hprimary, hrest⟩
  · exact isAt_of_primary hinner ht hprimary
  obtain ⟨u, rfl, -⟩ := sound_primary (reads_anything inner) _ _ _ hprimary
  dsimp only at hrest
  split at hrest
  next tail hpercent =>
    refine Failure.IsAt.append (Failure.IsAt.of_skipSpaces ?_) u
    rw [hpercent]
    exact (isAt_of_listTail hrest).cons '%'
  next =>
    rcases bind_eq_error.1 hrest with hmany | ⟨suffixes, -, hok⟩
    · exact (isAt_of_many sound_suffix? (fun _ _ => isAt_of_suffix?) hmany).append u
    · cases hok

theorem isAt_of_term (ht : Stops isSpace t) (h : term inner t = .error failure) :
    failure.IsAt t := by
  rcases bind_eq_error.1 h with hmany | ⟨⟨marks, r⟩, hmany, hrest⟩
  · exact isAt_of_many sound_mark? (fun _ _ hf => absurd hf mark?_ne_error) hmany
  obtain ⟨u, hu, -⟩ := sound_many sound_mark? _ _ _ hmany
  rcases bind_eq_error.1 hrest with hoperand | ⟨read, -, hok⟩
  · rw [hu]
    exact (isAt_of_operand hinner (stops_of_many_mark ht hmany) hoperand).append u
  · cases hok

theorem isAt_of_nextTerm? (h : nextTerm? inner t = .error failure) : failure.IsAt t := by
  unfold nextTerm? at h
  split at h
  next r hjoint =>
    split at h
    next =>
      have hterm := isAt_of_term hinner (stops_of_joint? hjoint) (map_eq_error.1 h)
      rcases eq_append_of_joint? hjoint with ⟨g, k, -, -, rfl⟩ | ⟨g, -, -, rfl⟩
      · exact hterm.append _
      · exact hterm.append g
    next => cases h
  next => cases h

theorem isAt_of_terms (ht : Stops isSpace t) (h : terms inner t = .error failure) :
    failure.IsAt t := by
  rcases bind_eq_error.1 h with hterm | ⟨⟨first, r⟩, hterm, hrest⟩
  · exact isAt_of_term hinner ht hterm
  obtain ⟨u, rfl, -⟩ := sound_term (reads_anything inner) _ _ _ hterm
  rcases bind_eq_error.1 hrest with hmany | ⟨read, -, hok⟩
  · have hsound := sound_nextTerm? (reads_anything inner)
    exact (isAt_of_many hsound (fun _ _ => isAt_of_nextTerm? hinner) hmany).append u
  · cases hok

theorem isAt_of_nextAlternative? (h : nextAlternative? inner t = .error failure) :
    failure.IsAt t := by
  unfold nextAlternative? at h
  split at h
  next r hbar =>
    refine Failure.IsAt.of_skipSpaces ?_
    rw [hbar]
    exact (isAt_of_terms hinner (stops_skipSpaces r) (map_eq_error.1 h)).of_skipSpaces.cons '|'
  next => cases h

theorem isAt_of_alternatives (ht : Stops isSpace t) (h : alternatives inner t = .error failure) :
    failure.IsAt t := by
  have hback {f : Failure} (hf : f.IsAt (skipBar t)) : f.IsAt t := by
    unfold skipBar at hf
    split at hf
    · exact hf.of_skipSpaces.cons '|'
    · exact hf
  have hstops : Stops isSpace (skipBar t) := by
    unfold skipBar
    split
    · exact stops_skipSpaces _
    · exact ht
  rcases bind_eq_error.1 h with hterms | ⟨⟨first, r⟩, hterms, hrest⟩
  · exact hback (isAt_of_terms hinner hstops hterms)
  obtain ⟨u, hu, -⟩ := sound_terms (reads_anything inner) _ _ _ hterms
  rcases bind_eq_error.1 hrest with hmany | ⟨read, -, hok⟩
  · have hsound := sound_nextAlternative? (reads_anything inner)
    refine hback ?_
    rw [hu]
    exact (isAt_of_many hsound (fun _ _ => isAt_of_nextAlternative? hinner) hmany).append u
  · cases hok

theorem isAt_of_whole (h : whole inner t = .error failure) : failure.IsAt t := by
  rcases bind_eq_error.1 h with hread | ⟨⟨e, r⟩, hread, hrest⟩
  · exact (isAt_of_alternatives hinner (stops_skipSpaces t) hread).of_skipSpaces
  obtain ⟨u, hu, -⟩ := sound_alternatives (reads_anything inner) _ _ _ hread
  dsimp only at hrest
  split at hrest
  next => cases hrest
  next =>
    cases hrest
    refine Failure.IsAt.of_skipSpaces ?_
    rw [hu]
    exact (isAt_unexpected (stops_skipSpaces r)).of_skipSpaces.append u

end

/-- The interior of a group is read in the same way if it is shorter than the text, so this is by
induction on the length. -/
theorem isAt_of_read {t : Text} {failure : Failure} (h : read t = .error failure) :
    failure.IsAt t := by
  rw [read] at h
  refine isAt_of_whole (fun s f hf => ?_) h
  split at hf
  next hlt => exact isAt_of_read hf
  next =>
    cases hf
    exact ⟨s, [], (List.append_nil s).symm, rfl, stops_nil⟩
termination_by t.length

end Reader

/-- The fault of a body, as seen from the whole source, is at a place of the body where a token
starts or the body ends. -/
theorem Expr.place_of_ofText {t : Text} {fault : Fault} (h : ofText t = .error fault)
    (name : Text) (base : Nat) :
    (fault.inRule name base).rule? = some name ∧
      ∃ a b, t = a ++ b ∧ Reader.Stops Reader.isSpace b ∧
        (fault.inRule name base).offset? = some (base + a.size) := by
  unfold ofText at h
  cases hread : Reader.read t with
  | ok e => rw [hread] at h; cases h
  | error failure =>
    rw [hread] at h
    obtain rfl := Except.error.inj h
    obtain ⟨a, b, rfl, hunread, hb⟩ := Reader.isAt_of_read hread
    have hoffset : Text.size (a ++ b) - failure.unread = a.size := by
      rw [hunread, Text.size_append]
      omega
    refine ⟨?_, a, b, rfl, hb, ?_⟩
    · unfold Reader.Failure.fault
      cases failure.complaint <;> rfl
    · unfold Reader.Failure.fault
      rw [hoffset]
      cases failure.complaint <;> rfl

end ExtendedBnf
