import ExtendedBnf.Proofs.Balanced
import ExtendedBnf.Proofs.CodeBytes
import Mathlib.Order.Bounds.Basic

/-!
# Matching parentheses

The search for the end of a group reads characters, and keeps how many groups are open in
it. On the bytes of code it stops at the first closing parenthesis for which none is
open, which is the first place up to which as many are closed as are opened, the
group's own included. Parentheses that stand in a group are matched in it, since the
reading of code from an inner parenthesis on is the rest of the outer one.
-/
namespace ExtendedBnf
namespace Text

/-- The place of the first `)` for which no `(` is open, when `depth` are open before. -/
def closer? : Nat → List (Nat × UInt8) → Option Nat
  | _, [] => none
  | depth, (n, b) :: r =>
    if b = 0x29 then
      match depth with
      | 0 => some n
      | depth + 1 => closer? depth r
    else if b = 0x28 then closer? (depth + 1) r
    else closer? depth r

section
variable (n depth : Nat) (r : List (Nat × UInt8))

@[simp] theorem closer?_nil : closer? depth [] = none := by rw [closer?]

@[simp] theorem closer?_close : closer? 0 ((n, 0x29) :: r) = some n := by rw [closer?.eq_def]; rfl

@[simp] theorem closer?_close_succ : closer? (depth + 1) ((n, 0x29) :: r) = closer? depth r := by
  rw [closer?.eq_def]
  rfl

@[simp] theorem closer?_open : closer? depth ((n, 0x28) :: r) = closer? (depth + 1) r := by
  rw [closer?.eq_def]
  rfl

variable {b : UInt8}

theorem closer?_other (hopen : b ≠ 0x28) (hclose : b ≠ 0x29) :
    closer? depth ((n, b) :: r) = closer? depth r := by
  rw [closer?.eq_def]
  simp [hopen, hclose]

end

/-! ### Bytes and characters -/

/-- Bytes that are neither quotes nor parentheses are passed over. -/
theorem closer?_append_of_plain {bs : List UInt8}
    (h : ∀ b ∈ bs, b ∉ ([0x22, 0x27, 0x28, 0x29] : List UInt8)) (n depth : Nat) (r : List UInt8) :
    closer? depth (codeBytes n (bs ++ r)) = closer? depth (codeBytes (n + bs.length) r) := by
  induction bs generalizing n with
  | nil => rfl
  | cons b bs ih =>
    obtain ⟨hb, hbs⟩ := List.forall_mem_cons.1 h
    simp only [List.mem_cons, List.not_mem_nil, or_false, not_or] at hb
    obtain ⟨hdouble, hsingle, hopen, hclose⟩ := hb
    rw [List.cons_append, codeBytes_cons (not_or.2 ⟨hdouble, hsingle⟩),
      closer?_other _ _ _ hopen hclose, ih hbs, List.length_cons, Nat.add_assoc, Nat.add_comm 1]

/-- A character of code that is no quote, in front of what closes as it should. -/
theorem closer?_codeBytes_code {n depth : Nat} {c : Char} {r : Text}
    (hquote : Quote.ofChar? c = none)
    (ih : ∀ n depth, closer? depth (codeBytes n r.bytes) =
      (closeGroup depth .code r).map fun split => n + size split.1) :
    closer? depth (codeBytes n (bytes (c :: r))) =
      (closeGroup depth .code (c :: r)).map fun split => n + size split.1 := by
  have hrest (depth : Nat) := ih (n + c.utf8Size) depth
  by_cases hopen : c = '('
  · subst hopen
    rw [show bytes ('(' :: r) = 0x28 :: r.bytes from rfl, codeBytes_cons (by decide), closer?_open,
      closeGroup_open, Option.map_map]
    refine (hrest (depth + 1)).trans (congrArg (Option.map · _) (funext fun split => ?_))
    exact Nat.add_assoc ..
  by_cases hclose : c = ')'
  · subst hclose
    rw [show bytes (')' :: r) = 0x29 :: r.bytes from rfl, codeBytes_cons (by decide)]
    cases depth with
    | zero => simp
    | succ depth =>
      rw [closer?_close_succ, closeGroup_close_succ, Option.map_map]
      refine (hrest depth).trans (congrArg (Option.map · _) (funext fun split => ?_))
      exact Nat.add_assoc ..
  have hplain : ∀ b ∈ String.utf8EncodeChar c, b ∉ ([0x22, 0x27, 0x28, 0x29] : List UInt8) := by
    intro b hb
    obtain ⟨hdouble, hsingle⟩ := ne_quote_of_mem_utf8EncodeChar hquote hb
    have hparen {d : Char} (hd : d.toNat < 0x80) (h : c ≠ d) : b ≠ UInt8.ofNat d.toNat :=
      ne_of_mem_utf8EncodeChar hd h hb
    simp only [List.mem_cons, List.not_mem_nil, or_false, not_or]
    exact ⟨hdouble, hsingle, hparen (by decide) hopen, hparen (by decide) hclose⟩
  have hnext : Place.next .code c = .code := by simp [Place.next, hquote]
  rw [bytes_cons, closer?_append_of_plain hplain, String.length_utf8EncodeChar, hrest,
    closeGroup_cons (.inr ⟨hopen, hclose⟩), hnext, Option.map_map]
  exact congrArg (Option.map · _) (funext fun split => Nat.add_assoc ..)

/-- The bytes of code close a group where its characters do. -/
theorem closer?_codeBytes (n depth : Nat) (t : Text) :
    closer? depth (codeBytes n t.bytes) =
      (closeGroup depth .code t).map fun split => n + size split.1 := by
  induction t using code_induction generalizing n depth with
  | nil => rw [bytes_nil, codeBytes_nil, closer?_nil, closeGroup]; rfl
  | char c r hquote ih => exact closer?_codeBytes_code hquote ih
  | literal quote body rest hclosing ih =>
    rw [codeBytes_quote_char, closeGroup_quote, hclosing]
    simp only [Option.bind_some, Option.map_map]
    rw [ih]
    congr 1
    funext closed
    simp [quote.utf8Size_char]
    omega
  | unclosed quote r hclosing =>
    rw [codeBytes_quote_char, closeGroup_quote, hclosing]
    rfl

/-! ### The place of the match -/

/-- How many of the bytes stand at the place or before it and are `b`. -/
def countUpTo (b : UInt8) (last : Nat) (ps : List (Nat × UInt8)) : Nat :=
  ps.countP fun p => p.2 == b && decide (p.1 ≤ last)

theorem countUpTo_cons (b c : UInt8) (n last : Nat) (ps : List (Nat × UInt8)) :
    countUpTo b last ((n, c) :: ps) =
      countUpTo b last ps + if c = b ∧ n ≤ last then 1 else 0 := by
  simp [countUpTo, List.countP_cons]

/-- Nothing stands before the first place. -/
theorem countUpTo_of_lt {n last : Nat} {ps : List (Nat × UInt8)} (h : ∀ p ∈ ps, n < p.1)
    (hlt : last ≤ n) (b : UInt8) : countUpTo b last ps = 0 := by
  refine List.countP_eq_zero.2 fun p hp => ?_
  have := h p hp
  simp
  omega

/-- One more group is closed up to the place than was open before and is opened up to there. -/
def ClosesAt (depth : Nat) (ps : List (Nat × UInt8)) (last : Nat) : Prop :=
  countUpTo 0x29 last ps = countUpTo 0x28 last ps + depth + 1

section
variable {n depth last : Nat} {ps : List (Nat × UInt8)} (h : ∀ p ∈ ps, n < p.1)

theorem closesAt_other {b : UInt8} (hopen : b ≠ 0x28) (hclose : b ≠ 0x29) :
    ClosesAt depth ((n, b) :: ps) last ↔ ClosesAt depth ps last := by
  simp [ClosesAt, countUpTo_cons, hopen, hclose]

include h

theorem le_of_closesAt (hlast : ClosesAt depth ps last) : n ≤ last := by
  by_contra hlt
  have hzero := countUpTo_of_lt h (Nat.le_of_not_le hlt)
  simp [ClosesAt, hzero] at hlast

theorem closesAt_open : ClosesAt depth ((n, 0x28) :: ps) last ↔ ClosesAt (depth + 1) ps last := by
  by_cases hle : n ≤ last
  · simp [ClosesAt, countUpTo_cons, hle]
    omega
  · have hzero := countUpTo_of_lt h (Nat.le_of_not_le hle)
    simp [ClosesAt, countUpTo_cons, hle, hzero]

theorem closesAt_close_succ :
    ClosesAt (depth + 1) ((n, 0x29) :: ps) last ↔ ClosesAt depth ps last := by
  by_cases hle : n ≤ last
  · simp [ClosesAt, countUpTo_cons, hle]
    omega
  · have hzero := countUpTo_of_lt h (Nat.le_of_not_le hle)
    simp [ClosesAt, countUpTo_cons, hle, hzero]

theorem isLeast_closesAt_close : IsLeast {last | ClosesAt 0 ((n, 0x29) :: ps) last} n := by
  have hzero {last : Nat} (hle : last ≤ n) := countUpTo_of_lt h hle
  refine ⟨?_, fun last hlast => ?_⟩
  · simp [ClosesAt, countUpTo_cons, hzero]
  · by_contra hlt
    simp [ClosesAt, countUpTo_cons, hlt, hzero (Nat.le_of_not_le hlt)] at hlast

end

/-- The group ends at the first place up to which one more is closed than was open before and is
opened. -/
theorem closer?_eq_some_iff {ps : List (Nat × UInt8)} (h : ps.Pairwise fun p q => p.1 < q.1)
    {depth close : Nat} : closer? depth ps = some close ↔
      IsLeast {last | ClosesAt depth ps last} close := by
  induction ps generalizing depth with
  | nil => simp [ClosesAt, countUpTo, IsLeast]
  | cons p ps ih =>
    obtain ⟨n, b⟩ := p
    obtain ⟨hfirst, hrest⟩ := List.pairwise_cons.1 h
    by_cases hclose : b = 0x29
    · subst hclose
      cases depth with
      | zero =>
        have hleast := isLeast_closesAt_close hfirst
        rw [closer?_close, Option.some.injEq]
        exact ⟨fun heq => heq ▸ hleast, fun hother => hleast.unique hother⟩
      | succ depth => simp only [closer?_close_succ, closesAt_close_succ hfirst, ih hrest]
    by_cases hopen : b = 0x28
    · subst hopen
      simp only [closer?_open, closesAt_open hfirst, ih hrest]
    · simp only [closer?_other n depth ps hopen hclose, closesAt_other hopen hclose, ih hrest]

/-! ### Groups in groups -/

theorem mem_of_closer? {depth close : Nat} {ps : List (Nat × UInt8)}
    (h : closer? depth ps = some close) : (close, 0x29) ∈ ps := by
  fun_induction closer? depth ps with
  | case1 => cases h
  | case2 =>
    cases h
    exact List.mem_cons_self
  | case3 n r depth ih | case4 depth n r hclose ih | case5 depth n b r hclose hopen ih =>
    exact List.mem_cons_of_mem _ (ih h)

section
variable {depth close : Nat} {ps : List (Nat × UInt8)} (hsorted : ps.Pairwise fun p q => p.1 < q.1)
include hsorted

/-- With one group less to close the end is earlier. -/
theorem closer?_lt_of_succ (h : closer? (depth + 1) ps = some close) :
    ∃ inner < close, closer? depth ps = some inner := by
  induction ps generalizing depth with
  | nil => simp at h
  | cons p ps ih =>
    obtain ⟨hfirst, hrest⟩ := List.pairwise_cons.1 hsorted
    simp only [closer?] at h ⊢
    split_ifs at h ⊢
    · cases depth with
      | zero => exact ⟨p.1, hfirst _ (mem_of_closer? h), rfl⟩
      | succ depth => exact ih hrest h
    · exact ih hrest h
    · exact ih hrest h

theorem closer?_zero_lt (h : closer? (depth + 1) ps = some close) :
    ∃ inner < close, closer? 0 ps = some inner := by
  induction depth generalizing close with
  | zero => exact closer?_lt_of_succ hsorted h
  | succ depth ih =>
    obtain ⟨middle, hmiddle, hdepth⟩ := closer?_lt_of_succ hsorted h
    obtain ⟨inner, hinner, hzero⟩ := ih hdepth
    exact ⟨inner, hinner.trans hmiddle, hzero⟩

end

/-- A group that opens in another one ends in it. -/
theorem exists_closer?_of_append {depth i close : Nat} {before after : List (Nat × UInt8)}
    (hsorted : (before ++ (i, 0x28) :: after).Pairwise fun p q => p.1 < q.1)
    (h : closer? depth (before ++ (i, 0x28) :: after) = some close) (hlt : i < close) :
    ∃ inner < close, closer? 0 after = some inner := by
  induction before generalizing depth with
  | nil =>
    rw [List.nil_append, closer?_open] at h
    exact closer?_zero_lt (List.pairwise_cons.1 hsorted).2 h
  | cons p before ih =>
    obtain ⟨hfirst, hrest⟩ := List.pairwise_cons.1 hsorted
    simp only [List.cons_append, closer?] at h
    split_ifs at h
    · cases depth with
      | zero =>
        have hbefore : p.1 < i := hfirst (i, 0x28) (by simp)
        have heq : p.1 = close := Option.some.inj h
        omega
      | succ depth => exact ih hrest h
    · exact ih hrest h
    · exact ih hrest h

/-! ### The bytes of a text -/

/-- The bytes of code with their places when the text is read from byte `start` on. -/
def codeFrom (t : Text) (start : Nat) : List (Nat × UInt8) := codeBytes start (t.bytes.drop start)

/-- Byte `start` is a `(`, and `close` is the first place up to which the bytes of code from there
on close as many groups as they open. -/
def Matches (t : Text) (start close : Nat) : Prop :=
  t.bytes[start]? = some 0x28 ∧
    IsLeast {last | start ≤ last ∧
      countUpTo 0x29 last (t.codeFrom start) = countUpTo 0x28 last (t.codeFrom start)} close

section
variable {t : Text} {start close : Nat}

theorem exists_of_dropBytes? {r : Text} (h : dropBytes? start t = some r) :
    ∃ s, t = s ++ r ∧ start = size s := by
  fun_induction dropBytes? start t with
  | case1 => exact ⟨[], Option.some.inj h, rfl⟩
  | case2 => cases h
  | case3 n c u hle ih =>
    obtain ⟨s, rfl, hsize⟩ := ih h
    refine ⟨c :: s, rfl, ?_⟩
    rw [size_cons, ← hsize]
    omega
  | case4 => cases h

theorem exists_of_getElem?_bytes (h : t.bytes[start]? = some 0x28) :
    ∃ s r, t = s ++ '(' :: r ∧ start = size s := by
  induction t generalizing start with
  | nil => simp at h
  | cons c r ih =>
    rw [bytes_cons] at h
    by_cases hlt : start < (String.utf8EncodeChar c).length
    · rw [List.getElem?_append_left hlt] at h
      obtain rfl : c = '(' := by
        by_contra hne
        exact ne_of_mem_utf8EncodeChar (by decide) hne (List.mem_of_getElem? h) rfl
      exact ⟨[], r, rfl, Nat.lt_one_iff.1 hlt⟩
    · rw [List.getElem?_append_right (Nat.le_of_not_lt hlt), String.length_utf8EncodeChar] at h
      obtain ⟨s, u, rfl, hsize⟩ := ih h
      refine ⟨c :: s, u, rfl, ?_⟩
      rw [String.length_utf8EncodeChar] at hlt
      rw [size_cons, ← hsize]
      omega

theorem codeFrom_of_open (h : t.bytes[start]? = some 0x28) :
    t.codeFrom start = (start, 0x28) :: t.codeFrom (start + 1) := by
  obtain ⟨hlt, hbyte⟩ := List.getElem?_eq_some_iff.1 h
  rw [codeFrom, List.drop_eq_getElem_cons hlt, hbyte, codeBytes_cons (by decide)]
  rfl

theorem matchingParen?_append (s r : Text) :
    matchingParen? (s ++ '(' :: r) (size s) =
      closer? 0 (codeFrom (s ++ '(' :: r) (size s + 1)) := by
  have hdrop : (bytes (s ++ '(' :: r)).drop (size s + 1) = r.bytes := by
    rw [bytes_append, ← length_bytes s, List.drop_length_add_append]
    rfl
  rw [codeFrom, hdrop, closer?_codeBytes, matchingParen?, dropBytes?_size_append]
  rfl

theorem matchingParen?_eq_some_iff :
    t.matchingParen? start = some close ↔
      t.bytes[start]? = some 0x28 ∧ closer? 0 (t.codeFrom (start + 1)) = some close := by
  constructor
  · intro h
    obtain ⟨r, hr⟩ : ∃ r, dropBytes? start t = some ('(' :: r) := by
      unfold matchingParen? at h
      split at h
      next r hr => exact ⟨r, hr⟩
      next => cases h
    obtain ⟨s, rfl, rfl⟩ := exists_of_dropBytes? hr
    rw [matchingParen?_append] at h
    refine ⟨?_, h⟩
    rw [bytes_append, List.getElem?_append_right (length_bytes s).le, length_bytes, Nat.sub_self]
    rfl
  · rintro ⟨hopen, hcloser⟩
    obtain ⟨s, r, rfl, rfl⟩ := exists_of_getElem?_bytes hopen
    rw [matchingParen?_append]
    exact hcloser

theorem matchingParen?_eq_some_iff_matches :
    t.matchingParen? start = some close ↔ t.Matches start close := by
  rw [matchingParen?_eq_some_iff]
  refine and_congr_right fun hopen => ?_
  have hplaces : ∀ p ∈ t.codeFrom (start + 1), start < p.1 := fun p hp => le_of_mem_codeBytes hp
  have hsorted : (t.codeFrom (start + 1)).Pairwise fun p q => p.1 < q.1 := pairwise_codeBytes _ _
  have hplace (last : Nat) : ClosesAt 0 (t.codeFrom (start + 1)) last ↔ start ≤ last ∧
      countUpTo 0x29 last (t.codeFrom start) = countUpTo 0x28 last (t.codeFrom start) := by
    rw [codeFrom_of_open hopen]
    constructor
    · intro hlast
      have hle := le_of_closesAt hplaces hlast
      exact ⟨hle, by simpa [countUpTo_cons, hle, ClosesAt] using hlast⟩
    · rintro ⟨hle, hlast⟩
      simpa [countUpTo_cons, hle, ClosesAt] using hlast
  simp only [closer?_eq_some_iff hsorted, hplace]

/-- The reading from a byte of code on is the rest of the reading. -/
theorem exists_codeFrom_eq {i : Nat} {b : UInt8} (h : (i, b) ∈ t.codeFrom start) :
    t.bytes[i]? = some b ∧ ∃ before, t.codeFrom start = before ++ (i, b) :: t.codeFrom (i + 1) := by
  obtain ⟨us, vs, hdrop, rfl, before, hbefore⟩ := exists_of_mem_codeBytes h
  constructor
  · rw [← List.getElem?_drop, hdrop]
    simp
  · refine ⟨before, ?_⟩
    have hrest : t.bytes.drop (start + us.length + 1) = vs := by
      rw [Nat.add_assoc, ← List.drop_drop, hdrop, List.drop_length_add_append]
      rfl
    rw [codeFrom, codeFrom, hrest, hbefore]

/-- What opens in a group is matched in it. -/
theorem exists_matchingParen?_inside {i : Nat} (h : t.matchingParen? start = some close)
    (hi : (i, 0x28) ∈ t.codeFrom start) (hstart : start < i) (hclose : i < close) :
    ∃ inner, t.matchingParen? i = some inner ∧ i < inner ∧ inner < close := by
  obtain ⟨hopen, hcloser⟩ := matchingParen?_eq_some_iff.1 h
  obtain ⟨hbyte, -⟩ := exists_codeFrom_eq hi
  rw [codeFrom_of_open hopen] at hi
  have hnext : (i, 0x28) ∈ t.codeFrom (start + 1) := by
    rcases List.mem_cons.1 hi with heq | hi
    · cases heq
      omega
    · exact hi
  obtain ⟨-, before, hbefore⟩ := exists_codeFrom_eq hnext
  have hsorted : (t.codeFrom (start + 1)).Pairwise fun p q => p.1 < q.1 := pairwise_codeBytes _ _
  rw [hbefore] at hsorted hcloser
  obtain ⟨inner, hlt, hinner⟩ := exists_closer?_of_append hsorted hcloser hclose
  have hplace : i + 1 ≤ inner := le_of_mem_codeBytes (mem_of_closer? hinner)
  exact ⟨inner, matchingParen?_eq_some_iff.2 ⟨hbyte, hinner⟩, hplace, hlt⟩

/-- Of two groups the later one ends first if it starts in the earlier one. -/
theorem lt_or_lt_of_matchingParen? {i j d e : Nat} (hi : (i, 0x28) ∈ t.codeFrom start)
    (hj : (j, 0x28) ∈ t.codeFrom start) (hlt : i < j) (hd : t.matchingParen? i = some d)
    (he : t.matchingParen? j = some e) : d < j ∨ e < d := by
  obtain ⟨hopen, hcloser⟩ := matchingParen?_eq_some_iff.1 hd
  obtain ⟨hbyte, -⟩ := exists_codeFrom_eq hj
  rcases Nat.lt_trichotomy d j with hbefore | rfl | hinside
  · exact .inl hbefore
  · -- One byte would be a parenthesis of both kinds.
    obtain ⟨hother, -⟩ := exists_codeFrom_eq (mem_of_closer? hcloser)
    cases hbyte.symm.trans hother
  · have hmem : (j, 0x28) ∈ t.codeFrom i := by
      obtain ⟨-, before, hbefore⟩ := exists_codeFrom_eq hi
      have hsorted : (t.codeFrom start).Pairwise fun p q => p.1 < q.1 := pairwise_codeBytes _ _
      rw [hbefore] at hj hsorted
      rw [codeFrom_of_open hopen]
      rcases List.mem_append.1 hj with hj | hj
      · have := (List.pairwise_append.1 hsorted).2.2 _ hj _ List.mem_cons_self
        omega
      · exact hj
    obtain ⟨inner, hinner, -, hend⟩ := exists_matchingParen?_inside hd hmem hlt hinside
    obtain rfl := Option.some.inj (hinner.symm.trans he)
    exact .inr hend

/-- The match of a parenthesis is the first place up to which as many groups are closed as are
opened, by the bytes outside literals from the parenthesis on. Where there is none the fault is at
the byte asked for. All that opens in a group is matched in it, and two groups in it are disjoint or
one in the other. -/
theorem matchingParen_laminar (t : Text) (start : Nat) :
    (∀ close, t.matchingParen start = .ok close ↔ t.Matches start close) ∧
    ((∀ close, ¬ t.Matches start close) →
      t.matchingParen start = .error (.unbalancedGroup none start)) ∧
    ∀ close, t.matchingParen start = .ok close →
      (∀ i, (i, 0x28) ∈ t.codeFrom start → start < i → i < close →
        ∃ inner, t.matchingParen i = .ok inner ∧ i < inner ∧ inner < close) ∧
      ∀ i j d e, (i, 0x28) ∈ t.codeFrom start → (j, 0x28) ∈ t.codeFrom start →
        start < i → i < j → j < close →
        t.matchingParen i = .ok d → t.matchingParen j = .ok e → d < j ∨ e < d := by
  have hiff {start close : Nat} : t.matchingParen start = .ok close ↔ t.Matches start close :=
    matchingParen_eq_ok_iff.trans matchingParen?_eq_some_iff_matches
  refine ⟨fun close => hiff, fun hnone => ?_, fun close h => ⟨?_, ?_⟩⟩
  · unfold matchingParen
    cases hsome : t.matchingParen? start with
    | some close => exact absurd (matchingParen?_eq_some_iff_matches.1 hsome) (hnone close)
    | none => rfl
  · intro i hi hstart hclose
    simp only [matchingParen_eq_ok_iff] at h ⊢
    exact exists_matchingParen?_inside h hi hstart hclose
  · intro i j d e hi hj _ hlt _ hd he
    simp only [matchingParen_eq_ok_iff] at hd he
    exact lt_or_lt_of_matchingParen? hi hj hlt hd he

/-- Neither the parentheses in quotes nor the two bytes of `é` count. -/
theorem matchingParen_laminar_quoted :
    let t : Text := "x (é ('(' b) ')' (c)) d".toList
    t.matchingParen 2 = .ok 21 ∧ (6, 0x28) ∈ t.codeFrom 2 ∧ (18, 0x28) ∈ t.codeFrom 2 ∧
      t.matchingParen 6 = .ok 12 ∧ t.matchingParen 18 = .ok 20 ∧
      t.Matches 2 21 ∧ (∃ inner, t.matchingParen 6 = .ok inner ∧ 6 < inner ∧ inner < 21) ∧
      (12 < 18 ∨ 20 < 12) := by
  intro t
  have hbytes : t.bytes.drop 2 = [0x28, 0xC3, 0xA9, 0x20, 0x28, 0x27, 0x28, 0x27, 0x20, 0x62, 0x29,
      0x20, 0x27, 0x29, 0x27, 0x20, 0x28, 0x63, 0x29, 0x29, 0x20, 0x64] := by decide
  have hcode : (6, 0x28) ∈ t.codeFrom 2 ∧ (18, 0x28) ∈ t.codeFrom 2 := by
    rw [codeFrom, hbytes]
    simp [codeBytes, closing?]
  have houter : t.matchingParen 2 = .ok 21 := by decide
  have hfirst : t.matchingParen 6 = .ok 12 := by decide
  have hsecond : t.matchingParen 18 = .ok 20 := by decide
  obtain ⟨hmatch, -, hgroups⟩ := matchingParen_laminar t 2
  obtain ⟨hinside, hpairs⟩ := hgroups 21 houter
  exact ⟨houter, hcode.1, hcode.2, hfirst, hsecond, (hmatch 21).1 houter,
    hinside 6 hcode.1 (by decide) (by decide),
    hpairs 6 18 12 20 hcode.1 hcode.2 (by decide) (by decide) (by decide) hfirst hsecond⟩

end

end Text
end ExtendedBnf
