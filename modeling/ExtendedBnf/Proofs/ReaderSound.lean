import ExtendedBnf.Proofs.ExprGrammar
import ExtendedBnf.ReaderProgress

/-!
# What the reader takes says what it gives

Each level of the reader takes a beginning of its text, and that beginning says
what the reader gives by the rules of the same level. The reader of groups is any
one that gives only what the texts of groups say.
-/
namespace ExtendedBnf
namespace Reader

/-- What the reader takes off a text says what it gives. -/
def Sound {α : Type} (reader : Text → Except Failure (α × Text))
    (meaning : Text → α → Prop) : Prop :=
  ∀ t a rest, reader t = .ok (a, rest) → ∃ u, t = u ++ rest ∧ meaning u a

/-- What the reader of an item takes off a text, if there is one, says what it gives. -/
def SoundItem {α : Type} (item : Text → Except Failure (Option (α × Text)))
    (meaning : Text → α → Prop) : Prop :=
  ∀ t a rest, item t = .ok (some (a, rest)) → ∃ u, t = u ++ rest ∧ meaning u a

theorem sound_many {α : Type} {item : Text → Except Failure (Option (α × Text))}
    {meaning : Text → α → Prop} (h : SoundItem item meaning) :
    Sound (many item) (Says.Many meaning) := by
  intro t as rest hm
  fun_induction many item t generalizing as with
  | case1 => cases hm
  | case2 t =>
    cases hm
    exact ⟨[], rfl, .nil⟩
  | case3 t a r hi hlt ih =>
    obtain ⟨⟨as, left⟩, hread, heq⟩ := map_eq_ok.1 hm
    cases heq
    obtain ⟨u, rfl, hu⟩ := h t a r hi
    obtain ⟨v, rfl, hv⟩ := ih as hread
    exact ⟨u ++ v, (List.append_assoc ..).symm, .cons hu hv⟩
  | case4 t =>
    cases hm
    exact ⟨[], rfl, .nil⟩

theorem eq_append_of_literal? {t rest : Text} {l : Literal}
    (h : literal? t = some (.ok (l, rest))) :
    t = l.text ++ rest ∧ IsBody '\\' l.quote.char l.body := by
  cases t with
  | nil => cases h
  | cons c r =>
    obtain ⟨quote, hquote, h⟩ := Option.map_eq_some_iff.1 h
    obtain rfl := Quote.ofChar?_eq_some_iff.1 hquote
    split at h
    next body left hc =>
      cases h
      refine ⟨?_, isBody_of_closing? hc⟩
      rw [eq_append_of_closing? hc, Literal.text]
      simp
    next => cases h

section
variable {inner : Text → Except Failure Expr} {interior : Text → Expr → Prop}
  (hinner : ∀ s e, inner s = .ok e → interior s e)
include hinner

theorem eq_append_of_group {t rest : Text} {e : Expr} (h : group inner t = .ok (e, rest)) :
    ∃ inside, t = inside ++ ')' :: rest ∧ interior inside e := by
  unfold group at h
  split at h
  next => cases h
  next inside left hc =>
    split at h
    · cases h
    · split at h
      next e' hread =>
        cases h
        exact ⟨inside, Text.eq_append_of_closeGroup hc, hinner inside e hread⟩
      next => cases h

theorem sound_primary : Sound (primary inner) (Says.Primary interior) := by
  intro t e rest h
  unfold primary at h
  split at h
  next => cases h
  next c r =>
    split at h
    next hstart =>
      cases h
      refine ⟨c :: r.takeWhile isNameRest, ?_, .name ?_⟩
      · rw [List.cons_append, List.takeWhile_append_dropWhile]
      · rw [Text.isName, hstart, Bool.true_and, List.all_takeWhile]
    next =>
      split at h
      next hopen =>
        obtain ⟨inside, rfl, he⟩ := eq_append_of_group hinner h
        refine ⟨'(' :: inside ++ [')'], ?_, .group he⟩
        rw [hopen]
        simp
      next =>
        split at h
        next read hread =>
          obtain ⟨⟨l, left⟩, rfl, heq⟩ := map_eq_ok.1 h
          cases heq
          obtain ⟨ht, hbody⟩ := eq_append_of_literal? hread
          exact ⟨l.text, ht, .literal hbody⟩
        next => cases h

end

/-- A number that may be missing. -/
def IsNumber? (t : Text) : Option UInt32 → Prop
  | some n => IsNumber t n
  | none => t = []

theorem sound_number? : Sound number? IsNumber? := by
  intro t n rest h
  unfold number? at h
  split at h
  next =>
    cases h
    exact ⟨[], rfl, rfl⟩
  next hdigits =>
    dsimp only at h
    split at h
    next hlt =>
      cases h
      refine ⟨t.takeWhile Char.isDigit, List.takeWhile_append_dropWhile.symm, hdigits, ?_, ?_⟩
      · exact fun c hc => List.mem_takeWhile_imp hc
      · rw [UInt32.toNat_ofNat_of_lt' hlt]
    next => cases h

/-- A comma that may be missing. -/
def commaText (comma : Bool) : Text := if comma then [','] else []

theorem eq_append_of_skipComma {t r : Text} {comma : Bool} (h : skipComma t = (comma, r)) :
    ∃ g, IsGap g ∧ t = g ++ commaText comma ++ r := by
  obtain ⟨g, hg, ht⟩ := exists_gap t
  unfold skipComma at h
  split at h
  next u hu =>
    cases h
    refine ⟨g, hg, ?_⟩
    rw [hu] at ht
    simpa [commaText] using ht
  next =>
    cases h
    refine ⟨g, hg, ?_⟩
    simpa [commaText] using ht

theorem bounded_of_boundsOf? {g t h k u i : Text} {min max : Option UInt32} {comma : Bool}
    {b : Bounds} (hg : IsGap g) (ht : IsNumber? t min) (hh : IsGap h) (hk : IsGap k)
    (hu : IsNumber? u max) (hi : IsGap i) (hb : boundsOf? min comma max = some b) :
    Says.Bounded ('{' :: g ++ t ++ h ++ commaText comma ++ k ++ u ++ i ++ ['}']) b := by
  revert hb
  fun_cases boundsOf? min comma max with
  | case1 n =>
    rintro ⟨⟩
    obtain rfl : u = [] := hu
    have hgap := (hh.append hk).append hi
    simpa [commaText] using Says.Bounded.exactly hg ht hgap
  | case2 min max hle =>
    rintro ⟨⟩
    simpa [commaText] using Says.Bounded.between hg ht hh hk hu hi hle
  | case3 min max hle => rintro ⟨⟩
  | case4 min =>
    rintro ⟨⟩
    obtain rfl : u = [] := hu
    simpa [commaText] using Says.Bounded.atLeast hg ht hh (hk.append hi)
  | case5 max =>
    rintro ⟨⟩
    obtain rfl : t = [] := ht
    simpa [commaText] using Says.Bounded.atMost (hg.append hh) hk hu hi
  | case6 => rintro ⟨⟩

theorem eq_append_of_bounds {t rest : Text} {b : Bounds} (hb : bounds t = .ok (b, rest)) :
    ∃ u, '{' :: t = u ++ rest ∧ Says.Bounded u b := by
  obtain ⟨g, hg, ht⟩ := exists_gap t
  obtain ⟨⟨min, t₁⟩, hmin, hb⟩ := bind_eq_ok.1 hb
  obtain ⟨m, hm, hnumber⟩ := sound_number? _ _ _ hmin
  dsimp only at hb
  cases hcomma : skipComma t₁ with
  | mk comma t₂ =>
  obtain ⟨h, hh, ht₁⟩ := eq_append_of_skipComma hcomma
  obtain ⟨k, hk, ht₂⟩ := exists_gap t₂
  rw [hcomma] at hb
  obtain ⟨⟨max, t₃⟩, hmax, hb⟩ := bind_eq_ok.1 hb
  obtain ⟨n, hn, hlast⟩ := sound_number? _ _ _ hmax
  obtain ⟨i, hi, ht₃⟩ := exists_gap t₃
  dsimp only at hb
  split at hb
  next left hclose =>
    split at hb
    next found hfound =>
      cases hb
      refine ⟨_, ?_, bounded_of_boundsOf? hg hnumber hh hk hlast hi hfound⟩
      rw [ht, hm, ht₁, ht₂, hn, ht₃, hclose]
      simp
    next => cases hb
  next => cases hb

theorem sound_suffix? : SoundItem suffix? Says.Suffixed := by
  intro t a rest h
  obtain ⟨g, hg, ht⟩ := exists_gap t
  unfold suffix? at h
  split at h
  next r hr =>
    cases h
    exact ⟨g ++ ['?'], by rw [ht, hr]; simp, .optional hg⟩
  next r hr =>
    cases h
    exact ⟨g ++ ['*'], by rw [ht, hr]; simp, .star hg⟩
  next r hr =>
    cases h
    exact ⟨g ++ ['+'], by rw [ht, hr]; simp, .plus hg⟩
  next r hr =>
    obtain ⟨⟨b, left⟩, hb, heq⟩ := map_eq_ok.1 h
    cases heq
    obtain ⟨u, hu, hbounded⟩ := eq_append_of_bounds hb
    exact ⟨g ++ u, by rw [ht, hr, hu, List.append_assoc], .bounds hg hbounded⟩
  next => cases h

theorem eq_append_of_listTail {item e : Expr} {t rest : Text}
    (h : listTail item t = .ok (e, rest)) :
    ∃ g separator k op, IsGap g ∧ IsBody '\\' separator.quote.char separator.body ∧ IsGap k ∧
      t = g ++ separator.text ++ k ++ ListOp.text op ++ rest ∧ e = .list item separator op := by
  obtain ⟨g, hg, ht⟩ := exists_gap t
  unfold listTail at h
  split at h
  next => cases h
  next => cases h
  next separator r hread =>
    obtain ⟨hr, hbody⟩ := eq_append_of_literal? hread
    obtain ⟨k, hk, hspaces⟩ := exists_gap r
    dsimp only at h
    split at h
    next op hop =>
      cases h
      refine ⟨g, separator, k, op, hg, hbody, hk, ?_, rfl⟩
      rw [← ListOp.ofText?_eq_some_iff.1 hop, List.append_assoc, List.takeWhile_append_dropWhile,
        List.append_assoc, ← hspaces, List.append_assoc, ← hr, ← ht]
    next => cases h

theorem sound_mark? : SoundItem mark? Says.Marked := by
  intro t a rest h
  unfold mark? at h
  split at h
  next r =>
    cases h
    obtain ⟨g, hg, hr⟩ := exists_gap r
    exact ⟨'&' :: g, by rw [List.cons_append, ← hr], .ahead hg⟩
  next r =>
    cases h
    obtain ⟨g, hg, hr⟩ := exists_gap r
    exact ⟨'!' :: g, by rw [List.cons_append, ← hr], .notAhead hg⟩
  next => cases h

theorem eq_append_of_joint? {t r : Text} (h : joint? t = some r) :
    (∃ g k, IsGap g ∧ IsGap k ∧ t = g ++ '~' :: k ++ r) ∨ ∃ g, IsGap g ∧ g ≠ [] ∧ t = g ++ r := by
  obtain ⟨g, hg, ht⟩ := exists_gap t
  unfold joint? at h
  split at h
  next u htilde =>
    cases h
    obtain ⟨k, hk, hu⟩ := exists_gap u
    refine .inl ⟨g, k, hg, hk, ?_⟩
    rw [htilde, hu] at ht
    simpa using ht
  next =>
    split at h
    next hspace =>
      cases h
      refine .inr ⟨g, hg, ?_, ht⟩
      rintro rfl
      cases t with
      | nil => cases hspace
      | cons c u =>
        have hc : isSpace c := hspace
        rw [skipSpaces, List.dropWhile_cons_of_pos hc] at ht
        have := (List.dropWhile_sublist isSpace (l := u)).length_le
        have := congrArg List.length ht
        simp at this
        omega
    next => cases h

section
variable {inner : Text → Except Failure Expr} {interior : Text → Expr → Prop}
  (hinner : ∀ s e, inner s = .ok e → interior s e)
include hinner

theorem sound_operand : Sound (operand inner) (Says.Operand interior) := by
  intro t e rest hread
  obtain ⟨⟨first, r⟩, hprimary, h⟩ := bind_eq_ok.1 hread
  obtain ⟨p, rfl, hp⟩ := sound_primary hinner _ _ _ hprimary
  dsimp only at h
  split at h
  next tail hpercent =>
    obtain ⟨g, hg, hr⟩ := exists_gap r
    obtain ⟨h', separator, k, op, hh, hbody, hk, htail, rfl⟩ := eq_append_of_listTail h
    refine ⟨_, ?_, .list hp hg hh hbody hk⟩
    rw [hr, hpercent, htail]
    simp
  next =>
    obtain ⟨⟨suffixes, left⟩, hmany, h⟩ := bind_eq_ok.1 h
    cases h
    obtain ⟨s, rfl, hs⟩ := sound_many sound_suffix? _ _ _ hmany
    exact ⟨p ++ s, (List.append_assoc ..).symm, .suffixes hp hs⟩

theorem sound_term : Sound (term inner) (Says.Term interior) := by
  intro t e rest h
  obtain ⟨⟨marks, r⟩, hmany, h⟩ := bind_eq_ok.1 h
  obtain ⟨⟨body, left⟩, hoperand, h⟩ := bind_eq_ok.1 h
  cases h
  obtain ⟨u, rfl, hu⟩ := sound_many sound_mark? _ _ _ hmany
  obtain ⟨v, rfl, hv⟩ := sound_operand hinner _ _ _ hoperand
  exact ⟨u ++ v, (List.append_assoc ..).symm, Says.term_iff.2 ⟨u, marks, v, body, rfl, rfl, hu, hv⟩⟩

theorem sound_nextTerm? : SoundItem (nextTerm? inner) (Says.Joined interior) := by
  intro t e rest h
  unfold nextTerm? at h
  split at h
  next r hjoint =>
    split at h
    next =>
      obtain ⟨⟨e, left⟩, hterm, heq⟩ := map_eq_ok.1 h
      cases heq
      obtain ⟨u, rfl, hu⟩ := sound_term hinner _ _ _ hterm
      rcases eq_append_of_joint? hjoint with ⟨g, k, hg, hk, rfl⟩ | ⟨g, hg, hne, rfl⟩
      · exact ⟨g ++ '~' :: k ++ u, by simp, .tilde hg hk hu⟩
      · exact ⟨g ++ u, by simp, .gap hg hne hu⟩
    next => cases h
  next => cases h

theorem sound_terms : Sound (terms inner) (Says.Terms interior) := by
  intro t e rest h
  obtain ⟨⟨first, r⟩, hterm, h⟩ := bind_eq_ok.1 h
  obtain ⟨⟨others, left⟩, hmany, h⟩ := bind_eq_ok.1 h
  cases h
  obtain ⟨u, rfl, hu⟩ := sound_term hinner _ _ _ hterm
  obtain ⟨v, rfl, hv⟩ := sound_many (sound_nextTerm? hinner) _ _ _ hmany
  exact ⟨u ++ v, (List.append_assoc ..).symm, .row hu hv⟩

theorem sound_nextAlternative? : SoundItem (nextAlternative? inner) (Says.Barred interior) := by
  intro t e rest h
  obtain ⟨g, hg, ht⟩ := exists_gap t
  unfold nextAlternative? at h
  split at h
  next r hbar =>
    obtain ⟨⟨e, left⟩, hterms, heq⟩ := map_eq_ok.1 h
    cases heq
    obtain ⟨k, hk, hr⟩ := exists_gap r
    obtain ⟨u, hu, hmeaning⟩ := sound_terms hinner _ _ _ hterms
    exact ⟨g ++ '|' :: k ++ u, by rw [ht, hbar, hr, hu]; simp, .bar hg hk hmeaning⟩
  next => cases h

theorem sound_alternatives : Sound (alternatives inner) (Says.Alternatives interior) := by
  intro t e rest h
  obtain ⟨⟨first, r⟩, hterms, h⟩ := bind_eq_ok.1 h
  obtain ⟨⟨others, left⟩, hmany, h⟩ := bind_eq_ok.1 h
  cases h
  obtain ⟨u, hu, hfirst⟩ := sound_terms hinner _ _ _ hterms
  obtain ⟨v, rfl, hv⟩ := sound_many (sound_nextAlternative? hinner) _ _ _ hmany
  unfold skipBar at hu
  split at hu
  next r =>
    obtain ⟨g, hg, hr⟩ := exists_gap r
    exact ⟨'|' :: g ++ u ++ v, by rw [hr, hu]; simp, .barred hg hfirst hv⟩
  next =>
    exact ⟨u ++ v, by rw [hu, List.append_assoc], .plain hfirst hv⟩

/-- A text that is read whole says what is read, if the texts of its groups do. -/
theorem whole_of_read {t : Text} {e : Expr} (h : whole inner t = .ok e) :
    Says.Whole interior t e := by
  obtain ⟨g, hg, ht⟩ := exists_gap t
  obtain ⟨⟨e', r⟩, halternatives, h⟩ := bind_eq_ok.1 h
  obtain ⟨u, hu, hmeaning⟩ := sound_alternatives hinner _ _ _ halternatives
  obtain ⟨k, hk, hr⟩ := exists_gap r
  dsimp only at h
  split at h
  next hend =>
    cases h
    rw [hend, List.append_nil] at hr
    rw [ht, hu, hr, ← List.append_assoc]
    exact .spaced hg hmeaning hk
  next => cases h

end

end Reader
end ExtendedBnf
