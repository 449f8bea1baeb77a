import ExtendedBnf.Proofs.RunsInPieces
import ExtendedBnf.Proofs.Writable

/-!
# Parts that are merged

A run in the text of a node grammar is made of three parts of one node: a part that
ends like the first literal of the run, a part that is its middle, and a part that
starts like its last literal. `Splicing.merges` finds such parts. The proof goes
over the text of a tree from its end to its start, since a run is found at its first
character: what may come behind a text must not go on from there like a run.
-/
namespace ExtendedBnf
open Reader (Starts Stops starts_cons stops_cons)

namespace Text
variable {divider : Char} {s t : Text}

/-! ## Texts without a divider -/

/-- Whether the character of code is bare, and neither the given one nor a parenthesis that opens a
group. -/
def isBeside (divider c : Char) : Bool := isBare c && c != divider && c != '('

/-- The character is not in the code of the text before the first group. -/
def Unbroken (divider : Char) (t : Text) : Prop :=
  ∃ a b, t = a ++ b ∧ Pieces (isBeside divider) Literal.isSingle a ∧ (b = [] ∨ ∃ r, b = '(' :: r)

theorem unbroken_of_pieces (h : Pieces (isBeside divider) Literal.isSingle t) :
    t.Unbroken divider := ⟨t, [], (List.append_nil t).symm, h, .inl rfl⟩

theorem unbroken_group (t : Text) : Unbroken divider ('(' :: t) :=
  ⟨[], '(' :: t, rfl, .nil, .inr ⟨t, rfl⟩⟩

theorem Unbroken.operand {least own : Precedence}
    (h : least.level ≤ own.level → t.Unbroken divider) :
    (t.operand least own).Unbroken divider := by
  unfold Text.operand
  split
  · exact unbroken_group _
  next hlevel => exact h (Nat.le_of_not_lt hlevel)

theorem Unbroken.append (hs : s.Unbroken divider) (ht : t.Unbroken divider) :
    (s ++ t).Unbroken divider := by
  obtain ⟨a, b, rfl, ha, hb⟩ := hs
  obtain ⟨a', b', rfl, ha', hb'⟩ := ht
  obtain rfl | ⟨r, rfl⟩ := hb
  · exact ⟨a ++ a', b', by simp, ha.append ha', hb'⟩
  · exact ⟨a, '(' :: (r ++ (a' ++ b')), by simp, ha, .inr ⟨_, rfl⟩⟩

theorem Unbroken.join {ts : List Text} (hs : s.Unbroken divider)
    (hts : ∀ t ∈ ts, t.Unbroken divider) : (Text.join s ts).Unbroken divider := by
  fun_induction Text.join s ts with
  | case1 => exact unbroken_of_pieces .nil
  | case2 t => exact hts t List.mem_cons_self
  | case3 t ts _ ih =>
    have hrest := ih fun u hu => hts u (List.mem_cons_of_mem t hu)
    exact ((hts t List.mem_cons_self).append hs).append hrest

end Text

namespace Splicing
variable {s : Splicing} {j k t : Text}

/-- The character that is in every joint. -/
def divider : Splicing → Char
  | row => ' '
  | choice => '|'

theorem IsJoint.exists_eq (h : s.IsJoint k) :
    ∃ g r, k = g ++ s.divider :: r ∧ g.isBlankText ∧
      Pieces (Text.isBeside s.divider) Literal.isSingle g := by
  cases h with
  | space => exact ⟨[], [], rfl, rfl, .nil⟩
  | @bar g r hg _ =>
    refine ⟨g, r, rfl, hg, .of_forall fun c hc => ?_⟩
    have hblank := List.all_eq_true.1 hg c hc
    have hne (d : Char) (hd : Text.isBlank d = false) : c ≠ d := by
      rintro rfl
      rw [hblank] at hd
      cases hd
    simp [Text.isBeside, isBare, Quote.ofChar?, Quote.char, divider, hne '\x27' rfl, hne '"' rfl,
      hne '\\' rfl, hne '|' rfl, hne '(' rfl]

theorem pieces_middle (s : Splicing) :
    Pieces (Text.isBeside s.divider) Literal.isSingle s.middle := by
  cases s with
  | row => exact .of_all (by decide)
  | choice =>
    exact .of_literal (l := ⟨['\\', 't'], .single⟩) (.pair 't' .nil) rfl

/-- A part without a divider ends before the first divider of a text it starts. -/
theorem exists_of_unbroken {v d t u : Text} (hv : v.Unbroken s.divider)
    (ht : Pieces (Text.isBeside s.divider) Literal.isSingle t)
    (h : v ++ d = t ++ s.divider :: u) : ∃ y, t = v ++ y ∧ d = y ++ s.divider :: u := by
  have hquote (c : Char) (hc : Text.isBeside s.divider c) : Quote.ofChar? c = none :=
    ofChar?_of_isBare (Bool.and_eq_true_iff.1 (Bool.and_eq_true_iff.1 hc).1).1
  have hdivider : Text.isBeside s.divider s.divider = false ∧ Quote.ofChar? s.divider = none := by
    cases s <;> decide
  have hopen : Text.isBeside s.divider '(' = false := by simp [Text.isBeside]
  obtain ⟨a, b, rfl, ha, rfl | ⟨b, rfl⟩⟩ := hv
  · rw [List.append_nil] at h ⊢
    obtain hleft | ⟨y, rfl, hy⟩ := List.append_eq_append_iff.1 h
    · exact hleft
    · cases y with
      | nil => exact ⟨[], by simp, by simpa using hy.symm⟩
      | cons c y =>
        obtain ⟨rfl, -⟩ := List.cons_eq_cons.1 hy
        exact absurd ha (Text.not_pieces_append hquote ht hdivider.1 hdivider.2)
  · -- a group would start where the divider is
    have hinj := Text.pieces_append_inj hquote ha ht hopen rfl hdivider.1 hdivider.2
      (u := b ++ d) (v := u) (by simpa using h)
    have hne : '(' ≠ s.divider := by cases s <;> decide
    exact absurd (List.cons_eq_cons.1 hinj.2).1 hne

/-- A part that starts like the middle of a run is the middle if the rest goes on like the run. -/
theorem eq_middle {v d r : Text} (htight : v.IsTight) (hunbroken : v.Unbroken s.divider)
    (hd : ∀ c ∈ d.head?, c ∉ s.middle) (hk : s.IsJoint k)
    (h : v ++ d = s.middle ++ (k ++ r)) : v = s.middle ∧ d = k ++ r := by
  obtain ⟨g, w, rfl, hblank, hg⟩ := hk.exists_eq
  have hsplit : v ++ d = (s.middle ++ g) ++ s.divider :: (w ++ r) := by simpa using h
  obtain ⟨y, hy, rfl⟩ := exists_of_unbroken hunbroken (s.pieces_middle.append hg) hsplit
  obtain ⟨z, hz, rfl⟩ := Text.exists_of_append_blank htight.ends hblank hy
  cases z with
  | nil => exact ⟨by simpa using hz.symm, by simp⟩
  | cons c z => exact absurd (hz ▸ List.mem_append_right v List.mem_cons_self) (hd c rfl)

/-! ## What comes behind a text -/

/-- The text is a joint and something that starts like a part. -/
def Joins (s : Splicing) (t : Text) : Prop :=
  ∃ k u, s.IsJoint k ∧ Starts Text.isOpening u ∧ t = k ++ u

/-- The text does not go on from the middle of a run. -/
structure Breaks (s : Splicing) (t : Text) : Prop where
  head : ∀ c ∈ t.head?, c ∉ s.middle
  last : ∀ k r, s.IsJoint k → t ≠ k ++ (s.last.text ++ r)

theorem Continues.joins (h : s.Continues t) : s.Joins t := by
  obtain ⟨j, k, r, hj, -, rfl⟩ := h
  refine ⟨j, s.middle ++ (k ++ (s.last.text ++ r)), hj, .append ?_ _, by simp⟩
  cases s <;> exact starts_cons.2 (by decide)

theorem breaks_of_not_joins (h : ¬ s.Joins t) (hhead : ∀ c ∈ t.head?, c ∉ s.middle) :
    s.Breaks t :=
  ⟨hhead, fun k r hk heq => h ⟨k, _, hk, (Text.IsTight.of_literal s.last).starts.append r, heq⟩⟩

/-- Two joints before parts are the same length. -/
theorem IsJoint.append_inj {u v : Text} (hj : s.IsJoint j) (hk : s.IsJoint k)
    (hu : Starts Text.isInk u) (hv : Starts Text.isInk v) (h : j ++ u = k ++ v) : u = v := by
  have hbar (w : Text) : Text.trimStart ('|' :: w) = '|' :: w :=
    Text.trimStart_of_starts (starts_cons.2 rfl)
  cases hj with
  | space =>
    cases hk
    exact List.append_cancel_left h
  | @bar g w hg hw =>
    cases hk with
    | @bar g' w' hg' hw' =>
      have htrim := congrArg Text.trimStart h
      rw [List.append_assoc, List.append_assoc, Text.trimStart_append hg,
        Text.trimStart_append hg', List.cons_append, List.cons_append, hbar, hbar] at htrim
      have hrest := congrArg Text.trimStart (List.cons_eq_cons.1 htrim).2
      rwa [Text.trimStart_append hw, Text.trimStart_append hw', Text.trimStart_of_starts hu,
        Text.trimStart_of_starts hv] at hrest

/-- What is written between two parts. Alternatives of a whole body are on lines of their own. -/
inductive IsBetween : Splicing → Text → Prop
  | space : IsBetween row [' ']
  | bar : IsBetween choice " | ".toList
  | line : IsBetween choice "\n| ".toList

theorem IsBetween.isJoint (h : s.IsBetween j) : s.IsJoint j := by
  cases h with
  | space => exact .space
  | bar => exact .bar (g := [' ']) (h := [' ']) rfl rfl
  | line => exact .bar (g := ['\n']) (h := [' ']) rfl rfl

theorem IsBetween.isBare (h : s.IsBetween j) : ∀ c ∈ j, isBare c := by
  cases h <;> exact List.all_eq_true.1 (by decide)

theorem IsBetween.head {s' : Splicing} (h : s.IsBetween j) (t : Text) :
    ∀ c ∈ (j ++ t).head?, c ∉ s'.middle := by
  cases h <;> cases s' <;> simp [middle]

theorem not_joins_choice (h : Stops (· == '|') t.trimStart) : ¬ choice.Joins t := by
  rintro ⟨_, u, hk, -, rfl⟩
  cases hk with
  | bar hg _ =>
    rw [List.append_assoc, Text.trimStart_append hg, List.cons_append,
      Text.trimStart_of_starts (starts_cons.2 rfl)] at h
    cases stops_cons.1 h

theorem not_joins_row (h : ∀ c r, t = ' ' :: c :: r → Text.isOpening c = false) :
    ¬ row.Joins t := by
  rintro ⟨_, u, ⟨⟩, hu, rfl⟩
  obtain ⟨c, r, rfl, hc⟩ := hu.exists_eq_cons
  rw [h c r rfl] at hc
  cases hc

/-- Where neither a space nor a bar comes next there is no joint. -/
theorem not_joins (hspace : t.head? ≠ some ' ') (hbar : Stops (· == '|') t.trimStart) :
    ¬ s.Joins t := by
  cases s with
  | row => exact not_joins_row fun c r ht => absurd (congrArg List.head? ht) hspace
  | choice => exact not_joins_choice hbar

/-- Joints of one kind are none of the other. -/
theorem IsBetween.not_joins {s' : Splicing} (h : s'.IsBetween j) (hne : s' ≠ s)
    (ht : Starts Text.isOpening t) : ¬ s.Joins (j ++ t) := by
  have hbar : Text.isOpening '|' = false := rfl
  cases h with
  | space =>
    cases s with
    | row => exact absurd rfl hne
    | choice =>
      obtain ⟨c, r, rfl, hc⟩ := ht.exists_eq_cons
      have hink : Starts Text.isInk (c :: r) := starts_cons.2 (Text.isInk_of_isOpening hc)
      refine not_joins_choice ?_
      rw [Text.trimStart_append (g := [' ']) rfl, Text.trimStart_of_starts hink, stops_cons]
      refine beq_false_of_ne ?_
      rintro rfl
      rw [hbar] at hc
      cases hc
  | bar =>
    cases s with
    | row =>
      refine not_joins_row fun c r hc => ?_
      obtain ⟨rfl, -⟩ : '|' = c ∧ ' ' :: t = r := by simpa using hc
      exact hbar
    | choice => exact absurd rfl hne
  | line =>
    cases s with
    | row => exact not_joins_row fun c r hc => by simp at hc
    | choice => exact absurd rfl hne

/-! ## Parts in a row -/

/-- Whether three parts in a row are merged: the first ends and the third starts like the literals
of a run, and the second is its middle. -/
def merges (s : Splicing) : List Text → Bool
  | u :: v :: w :: ts =>
    s.first.text.isSuffixOf u && v == s.middle && s.last.text.isPrefixOf w ||
      merges s (v :: w :: ts)
  | _ => false

theorem merges_append {us ts : List Text} (h : s.merges ts) : s.merges (us ++ ts) := by
  induction us with
  | nil => exact h
  | cons u us ih =>
    rw [List.cons_append]
    generalize us ++ ts = rest at ih ⊢
    match rest with
    | [] | [_] | [_, _] => cases ih
    | v :: w :: x :: rest => exact Bool.or_eq_true_iff.2 (.inr ih)

/-- The text brings no run about before a rest that does not go on from it like a run. A loose text
asks that of its last part and the one before. -/
def Quiet (s : Splicing) (loose : Prop) (t : Text) : Prop :=
  ∀ r, s.Clear r → (s.first.text <:+ t → ¬ s.Continues r) → (loose → s.Breaks r) →
    s.Clear (t ++ r)

theorem Quiet.imp {loose loose' : Prop} (h : s.Quiet loose t) (himp : loose → loose') :
    s.Quiet loose' t := fun r hr hcontinues hbreaks => h r hr hcontinues (hbreaks ∘ himp)

/-- What a part of a node is. -/
structure IsPart (s : Splicing) (u : Text) : Prop where
  tight : u.IsTight
  unbroken : u.Unbroken s.divider
  tokens : IsTokens u
  quiet : s.Quiet False u

theorem isTight_join {ts : List Text} {u : Text} (hts : ∀ v ∈ u :: ts, v.IsTight) :
    (Text.join j (u :: ts)).IsTight := .join (List.cons_ne_nil u ts) hts

/-- A part that starts before a literal as a run has it starts with the literal. -/
theorem isPrefix_of_append {u r w : Text} (hu : IsTokens u) (hne : u ≠ [])
    (h : u ++ r = s.last.text ++ w) : s.last.text <+: u := by
  have hlast : IsBody '\\' '\x27' s.last.body := by
    cases s with
    | row => exact .plain (by decide) (by decide) .nil
    | choice => exact .pair 'n' .nil
  have htext : s.last.text = '\x27' :: s.last.body ++ ['\x27'] := by cases s <;> rfl
  rw [htext] at h ⊢
  cases u with
  | nil => exact absurd rfl hne
  | cons c u =>
    obtain ⟨rfl, hrest⟩ := List.cons_eq_cons.1 h
    obtain ⟨hbare, -⟩ | ⟨-, b, v, hb, rfl, -⟩ := hu.cons_cases
    · cases hbare
    · have hsplit : b ++ '\x27' :: (v ++ r) = s.last.body ++ '\x27' :: w := by
        simpa using hrest
      obtain ⟨rfl, -⟩ := hb.append_inj hlast (by decide) hsplit
      exact ⟨v, by simp⟩

/-- What comes behind a part of a node does not go on like a run, unless the part is merged. -/
theorem not_continues_join {u v r : Text} {ts : List Text} (hj : s.IsBetween j)
    (hts : ∀ x ∈ v :: ts, s.IsPart x) (hmerges : s.merges (u :: v :: ts) = false)
    (hbreaks : s.Breaks r) (hfirst : s.first.text <:+ u) :
    ¬ s.Continues (j ++ (Text.join j (v :: ts) ++ r)) := by
  rintro ⟨j', k, w, hj', hk, heq⟩
  have hv := hts v List.mem_cons_self
  have hink {t : Text} (h : Starts Text.isOpening t) : Starts Text.isInk t :=
    h.imp fun _ => Text.isInk_of_isOpening
  have hjoin := isTight_join (j := j) fun x hx => (hts x hx).tight
  have hmiddle : Starts Text.isInk s.middle := by cases s <;> exact starts_cons.2 rfl
  have hrest : Text.join j (v :: ts) ++ r = s.middle ++ (k ++ (s.last.text ++ w)) := by
    refine hj.isJoint.append_inj hj' ((hink hjoin.starts).append r) (hmiddle.append _) ?_
    simpa using heq
  cases ts with
  | nil =>
    obtain ⟨-, hr⟩ := eq_middle hv.tight hv.unbroken hbreaks.head hk hrest
    exact hbreaks.last k w hk hr
  | cons x ts =>
    have hx := hts x (List.mem_cons_of_mem v List.mem_cons_self)
    rw [Text.join_cons_cons, List.append_assoc, List.append_assoc] at hrest
    obtain ⟨rfl, hnext⟩ := eq_middle hv.tight hv.unbroken (hj.head _) hk hrest
    have hlast : Starts Text.isInk s.last.text := hink (Text.IsTight.of_literal s.last).starts
    have hthird := hj.isJoint.append_inj hk
      ((hink (isTight_join fun y hy => (hts y (List.mem_cons_of_mem _ hy)).tight).starts).append r)
      (hlast.append w) hnext
    obtain ⟨y, hy⟩ := Text.exists_join_eq j x ts
    rw [hy, List.append_assoc] at hthird
    have hprefix := isPrefix_of_append hx.tokens hx.tight.ne_nil hthird
    simp [merges, List.isSuffixOf_iff_suffix.2 hfirst, List.isPrefixOf_iff_prefix.2 hprefix]
      at hmerges

/-- Parts of which no three are merged bring no run about. -/
theorem quiet_join {ts : List Text} (hj : s.IsBetween j) (hts : ∀ u ∈ ts, s.IsPart u)
    (hmerges : s.merges ts = false) : s.Quiet True (Text.join j ts) := by
  intro r hr hcontinues hbreaks
  induction ts with
  | nil => exact hr
  | cons u ts ih =>
    have hu := hts u List.mem_cons_self
    cases ts with
    | nil => exact hu.quiet r hr hcontinues False.elim
    | cons v ts =>
      have hparts : ∀ x ∈ v :: ts, s.IsPart x := fun x hx => hts x (List.mem_cons_of_mem u hx)
      have htail : s.merges (v :: ts) = false := by
        cases ts with
        | nil => rfl
        | cons w ts => exact (Bool.or_eq_false_iff.1 hmerges).2
      have hrest := ih hparts htail fun h => hcontinues (h.trans (Text.join_isSuffix ..))
      rw [Text.join_cons_cons, List.append_assoc, List.append_assoc]
      refine hu.quiet _ (hrest.append_of_forall hj.isBare) (fun hfirst => ?_) False.elim
      exact not_continues_join hj hparts hmerges (hbreaks trivial) hfirst

/-- Parts of a node of the other kind bring no run about. -/
theorem quiet_join_of_ne {s' : Splicing} {loose : Prop} {ts : List Text} (hj : s'.IsBetween j)
    (hne : s' ≠ s) (hts : ∀ u ∈ ts, u.IsTight ∧ s.Quiet loose u) :
    s.Quiet loose (Text.join j ts) := by
  intro r hr hcontinues hbreaks
  induction ts with
  | nil => exact hr
  | cons u ts ih =>
    have hu := hts u List.mem_cons_self
    cases ts with
    | nil => exact hu.2 r hr hcontinues hbreaks
    | cons v ts =>
      have hparts : ∀ x ∈ v :: ts, x.IsTight ∧ s.Quiet loose x :=
        fun x hx => hts x (List.mem_cons_of_mem u hx)
      have hrest := ih hparts fun h => hcontinues (h.trans (Text.join_isSuffix ..))
      have hstarts := (isTight_join (j := j) fun x hx => (hparts x hx).1).starts.append r
      have hjoins := hj.not_joins hne hstarts
      rw [Text.join_cons_cons, List.append_assoc, List.append_assoc]
      refine hu.2 _ (hrest.append_of_forall hj.isBare) (fun _ => mt Continues.joins hjoins) ?_
      exact fun _ => breaks_of_not_joins hjoins (hj.head _)

end Splicing
end ExtendedBnf
