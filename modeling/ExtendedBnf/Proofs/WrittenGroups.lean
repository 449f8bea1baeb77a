import ExtendedBnf.Proofs.Stretches

/-!
# No group too many

Each group in the text of an expression is written around one operand of one node of the tree.
One around an operand with a suffix that stands under a suffix is not needed, and every other one
is. If such a pair of parentheses is taken out, no group is left at its place, and the text
does not say the expression.
-/
namespace ExtendedBnf

namespace Expr
variable {e c : Expr} {least : Precedence} {pre post : List Stretch}

theorem operand_eq_of_plain_after {t : Text} {l : Precedence} {d : Expr}
    (h : [.operand l d, .plain t] = pre ++ .operand least c :: post) :
    pre = [] ∧ l = least ∧ d = c ∧ post = [.plain t] := by
  cases pre with
  | nil => simpa [and_assoc, eq_comm] using h
  | cons stretch pre => cases pre <;> simp at h

theorem operand_eq_of_plain_before {t : Text} {l : Precedence} {d : Expr}
    (h : [.plain t, .operand l d] = pre ++ .operand least c :: post) :
    pre = [.plain t] ∧ l = least ∧ d = c ∧ post = [] := by
  match pre, h with
  | [], h => simp at h
  | [stretch], h => simpa [and_assoc, eq_comm] using h
  | stretch :: other :: pre, h => simp at h

/-- What an operand needs where it stands, the expression needs there. -/
theorem Normal.needed_of_stretches (h : e.Normal)
    (hrow : e.stretches = pre ++ .operand least c :: post) :
    (c.neededAt (if e.isSuffixed then c.underSuffix else least)).map
      (.shift ((Text.ofStretches pre).total solid)) ⊆ e.needed := by
  have hnode {s : Splicing} {es : List Expr}
      (hrow : s.stretches es = pre ++ .operand least c :: post) :
      (c.neededAt least).map (.shift (Stretch.weightOf pre)) ⊆ (s.node es).needed := by
    obtain ⟨rfl, xs, ys, rfl, hsum⟩ := Splicing.exists_of_stretches_eq hrow
    rw [hsum, Splicing.needed_node, neededIn_append, neededIn, List.map_append]
    exact List.subset_append_of_subset_right _ (List.subset_append_left ..)
  have hpre : pre ⊆ e.stretches := by
    rw [hrow]
    exact List.subset_append_left ..
  have hc := mem_children_of_stretches hrow
  rw [h.total_ofStretches hpre]
  cases e with
  | name | literal => cases hc
  | seq es => exact hnode hrow
  | alt es => exact hnode hrow
  | optional e | star e | plus e | repeated e _ | list e _ _ =>
    obtain ⟨rfl, rfl, rfl, -⟩ := operand_eq_of_plain_after hrow
    simp [needed, neededAt, isSuffixed, Stretch.weightOf]
  | ahead e | notAhead e =>
    obtain ⟨rfl, rfl, rfl, -⟩ := operand_eq_of_plain_before hrow
    exact List.Subset.refl _

theorem Normal.shift_mem_needed (h : e.Normal)
    (hrow : e.stretches = pre ++ .operand least c :: post) {x : Extent} (hx : x ∈ c.needed) :
    x.shift ((Text.ofStretches pre).total solid) ∈ e.needed :=
  h.needed_of_stretches hrow (List.mem_map_of_mem (subset_groupsAt hx))

theorem starts_bounds_text (bounds : Bounds) : Reader.Starts opensSuffix bounds.text := by
  fun_cases Bounds.text bounds <;> exact Reader.starts_cons.2 rfl

/-! ### Around which operand a group is written -/

/-- In the text of the first expression, between the two texts, stands a group around the third one,
which is an operand of the second. -/
inductive Encloses : Expr → Text → Expr → Expr → Text → Prop
  | here {e c : Expr} {least : Precedence} {pre post : List Stretch} :
      e.stretches = pre ++ .operand least c :: post → c.precedence.level < least.level →
      Encloses e (Text.ofStretches pre) e c (Text.ofStretches post)
  | group {e c parent d : Expr} {least : Precedence} {pre post : List Stretch} {b a : Text} :
      e.stretches = pre ++ .operand least c :: post → c.precedence.level < least.level →
      Encloses c b parent d a →
      Encloses e (Text.ofStretches pre ++ '(' :: b) parent d (a ++ ')' :: Text.ofStretches post)
  | bare {e c parent d : Expr} {least : Precedence} {pre post : List Stretch} {b a : Text} :
      e.stretches = pre ++ .operand least c :: post → ¬ c.precedence.level < least.level →
      Encloses c b parent d a →
      Encloses e (Text.ofStretches pre ++ b) parent d (a ++ Text.ofStretches post)

namespace Encloses
variable {before after : Text} {parent : Expr}

theorem text_eq (h : Encloses e before parent c after) :
    e.text = before ++ '(' :: c.text ++ ')' :: after := by
  induction h with
  | here hrow hlt =>
    rw [← ofStretches_stretches, hrow]
    simp [Stretch.text, Text.operand, hlt]
  | group hrow hlt _ ih =>
    rw [← ofStretches_stretches, hrow]
    simp [Stretch.text, Text.operand, hlt, ih]
  | bare hrow hlt _ ih =>
    rw [← ofStretches_stretches, hrow]
    simp [Stretch.text, Text.operand, hlt, ih]

theorem normal (h : Encloses e before parent c after) (he : e.Normal) : c.Normal := by
  induction h with
  | here hrow _ => exact he.of_stretches hrow
  | group hrow _ _ ih | bare hrow _ _ ih => exact ih (he.of_stretches hrow)

/-- Under a suffix a group is followed by that suffix. -/
theorem starts_after (h : Encloses e before parent c after) (hparent : parent.isSuffixed) :
    Reader.Starts opensSuffix after := by
  induction h with
  | @here e c least pre post hrow _ =>
    cases e with
    | optional e | star e | plus e =>
      obtain ⟨-, -, -, rfl⟩ := operand_eq_of_plain_after hrow
      exact Reader.starts_cons.2 rfl
    | repeated e bounds =>
      obtain ⟨-, -, -, rfl⟩ := operand_eq_of_plain_after hrow
      exact (starts_bounds_text bounds).append []
    | _ => cases hparent
  | group _ _ _ ih | bare _ _ _ ih => exact (ih hparent).append _

/-- A group is needed unless it is around an expression with a suffix and stands under a suffix. -/
theorem mem_needed (h : Encloses e before parent c after) (he : e.Normal)
    (hneeded : ¬ (parent.isSuffixed ∧ c.isSuffixed)) :
    ⟨before.total solid, before.total solid + c.weight⟩ ∈ e.needed := by
  induction h with
  | @here e c least pre post hrow hlt =>
    have hasked : c.precedence.level <
        (if e.isSuffixed then c.underSuffix else least).level := by
      split
      next hsuffixed =>
        have hc : ¬ c.isSuffixed := fun hc => hneeded ⟨hsuffixed, hc⟩
        have hatom : least.level ≤ Precedence.atom.level := by cases least <;> decide
        rw [underSuffix, if_neg hc]
        exact Nat.lt_of_lt_of_le hlt hatom
      next => exact hlt
    have hgroup : ⟨0, c.weight⟩ ∈ c.neededAt (if e.isSuffixed then c.underSuffix else least) := by
      rw [neededAt, groupsAt, if_pos hasked]
      exact List.mem_append_right _ List.mem_cons_self
    exact he.needed_of_stretches hrow (List.mem_map_of_mem hgroup)
  | group hrow _ _ ih =>
    have hmem := he.shift_mem_needed hrow (ih (he.of_stretches hrow) hneeded)
    rw [Text.total_append (he.balanced_before hrow)]
    simpa [Extent.shift, Text.total, Nat.add_assoc] using hmem
  | bare hrow _ _ ih =>
    have hmem := he.shift_mem_needed hrow (ih (he.of_stretches hrow) hneeded)
    rw [Text.total_append (he.balanced_before hrow), Nat.add_assoc]
    exact hmem

end Encloses
end Expr

/-- Every character counts for its bytes. -/
def bytewise : Gauge := fun _ c => c.utf8Size

theorem bytewise_open : bytewise .code '(' = 1 := rfl

theorem Text.total_bytewise (t : Text) : t.total bytewise = t.size := by
  rw [total]
  generalize Place.code = here
  induction t generalizing here with
  | nil => rfl
  | cons c r ih => rw [totalFrom, ih, size_cons, bytewise]

namespace Expr
open Text (Pair)
variable {e : Expr}

/-- Every group in the text of an expression is written around an operand. -/
theorem Normal.exists_encloses (h : e.Normal) {x : Extent} (hx : x ∈ e.text.extents bytewise) :
    ∃ before parent c after, Encloses e before parent c after ∧
      x = ⟨before.size, before.size + 1 + c.text.size⟩ := by
  induction e using children_induction generalizing x with
  | step e ih =>
    rw [← ofStretches_stretches] at hx
    obtain ⟨pre, stretch, post, hrow, y, hy, rfl⟩ :=
      Text.exists_of_mem_extents_ofStretches (fun _ hmem => (h.shows_stretch hmem).balanced) hx
    rw [Text.total_bytewise]
    cases stretch with
    | plain t =>
      have hplain : .plain t ∈ e.stretches := by simp [hrow]
      rw [Stretch.text, h.extents_plain hplain] at hy
      cases hy
    | operand least c =>
      have hc := h.of_stretches hrow
      have hinside {z : Extent} := ih c (mem_children_of_stretches hrow) hc (x := z)
      by_cases hlt : c.precedence.level < least.level
      · rw [Stretch.text, Text.operand, if_pos hlt, Text.extents_group hc.meaning.balanced,
          Text.total_bytewise] at hy
        obtain hy | hy := List.mem_append.1 hy
        · obtain ⟨z, hz, rfl⟩ := List.mem_map.1 hy
          obtain ⟨b, parent, d, a, hencloses, rfl⟩ := hinside hz
          refine ⟨_, parent, d, _, .group hrow hlt hencloses, ?_⟩
          have hopen : '('.utf8Size = 1 := rfl
          simp [Extent.shift, bytewise_open, hopen, Nat.add_assoc]
        · obtain rfl := List.mem_singleton.1 hy
          refine ⟨_, e, c, _, .here hrow hlt, ?_⟩
          simp [Extent.shift, bytewise_open, Nat.add_assoc]
      · rw [Stretch.text, Text.operand, if_neg hlt] at hy
        obtain ⟨b, parent, d, a, hencloses, rfl⟩ := hinside hy
        refine ⟨_, parent, d, _, .bare hrow hlt hencloses, ?_⟩
        simp [Extent.shift, Nat.add_assoc]

theorem Normal.exists_encloses_of_pair (h : e.Normal) {before inside after : Text}
    (hpair : e.text.Pair before inside after) :
    ∃ parent c, Encloses e before parent c after ∧ inside = c.text := by
  obtain ⟨xs, ys, hextents, -⟩ := hpair.exists_extents bytewise
  rw [Text.total_bytewise, Text.total_bytewise] at hextents
  have hmem : ⟨before.size, before.size + bytewise .code '(' + inside.size⟩ ∈
      e.text.extents bytewise := by
    rw [hextents]
    exact List.mem_append_right xs List.mem_cons_self
  obtain ⟨b, parent, c, a, hencloses, heq⟩ := h.exists_encloses hmem
  obtain ⟨hbefore, hstop⟩ := Extent.mk.inj heq
  have hinside : inside.size = c.text.size := by
    rw [bytewise_open, hbefore] at hstop
    exact Nat.add_left_cancel hstop
  have hcut := hpair.cut.symm.trans hencloses.text_eq
  rw [List.append_assoc, List.append_assoc] at hcut
  obtain ⟨rfl, hrest⟩ := Text.append_inj_of_size hcut hbefore
  obtain ⟨rfl, hafter⟩ := Text.append_inj_of_size (List.cons.inj hrest).2 hinside
  obtain rfl := (List.cons.inj hafter).2
  exact ⟨parent, c, hencloses, rfl⟩

/-- Without a pair of its parentheses the text of an expression does not say the expression, unless
the pair is around an expression with a suffix and a suffix follows it. -/
theorem ofText_ungrouped_ne (h : e.Normal) {before inside after : Text}
    (hpair : e.text.Pair before inside after)
    (hneeded : ¬ ((∃ f, ofText inside = .ok f ∧ f.isSuffixed) ∧ Reader.Starts opensSuffix after)) :
    ofText (before ++ inside ++ after) ≠ .ok e := by
  intro hread
  have hsays : Says (before ++ inside ++ after) e :=
    Reader.meaning_of_read (ofText_eq_ok_iff_read.1 hread)
  obtain ⟨parent, c, hencloses, rfl⟩ := h.exists_encloses_of_pair hpair
  have hc : Says c.text c := (hencloses.normal h).meaning
  have hneed : ⟨before.total solid, before.total solid + c.weight⟩ ∈ e.needed := by
    refine hencloses.mem_needed h fun ⟨hparent, hsuffixed⟩ => hneeded ⟨?_, ?_⟩
    · exact ⟨c, ofText_of_meaning hc, hsuffixed⟩
    · exact hencloses.starts_after hparent
  -- The place of the pair is left without a group.
  obtain ⟨xs, ys, hwith, hwithout⟩ := hpair.exists_extents solid
  have hkept := hsays.shows.groups hneed
  have hdistinct := h.proper_extents.1.nodup
  rw [hwithout rfl rfl] at hkept
  rw [hwith, solid_open, Nat.add_zero, hc.shows.total, List.nodup_middle] at hdistinct
  exact (List.nodup_cons.1 hdistinct).1 hkept

/-- The parenthesis in the literal ends no group. -/
theorem ofText_ungrouped_ne_choice :
    let choice : Expr := .alt [.name ['a'], .literal ⟨[')'], .single⟩]
    let e : Expr := .seq [.name ['c'], .star choice]
    e.text = "c (a | ')')*".toList ∧
      e.text.Pair "c ".toList "a | ')'".toList ['*'] ∧ ofText "c a | ')'*".toList ≠ .ok e := by
  intro choice e
  have hnormal : e.Normal ∧ choice.Normal := by decide
  have hpair : e.text.Pair "c ".toList "a | ')'".toList ['*'] :=
    ⟨by decide, by decide, by decide⟩
  refine ⟨by decide, hpair, ofText_ungrouped_ne hnormal.1 hpair fun ⟨⟨f, hf, hsuffixed⟩, _⟩ => ?_⟩
  have hchoice : ofText "a | ')'".toList = .ok choice := ofText_of_meaning hnormal.2.meaning
  cases hchoice.symm.trans hf
  cases hsuffixed

end Expr
end ExtendedBnf
