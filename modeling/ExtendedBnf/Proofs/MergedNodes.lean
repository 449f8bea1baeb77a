import ExtendedBnf.Proofs.MergedParts

/-!
# Nodes that are merged

A sequence or choice is merged if three of its parts in a row are. The text of a
tree that a node grammar can write has a run just if a node of the tree is merged:
the parts of that node are in the text as they are, and no other three texts are
next to each other with the right joints between them. A group ends what comes
before it and starts anew, so only parts without parentheses matter.
-/
namespace ExtendedBnf
open Reader (Starts Stops starts_cons stops_cons)

namespace Splicing
variable {s : Splicing} {t r : Text} {c : Char}

/-! ## Runs in parts of a text -/

theorem HasRun.mono {u : Text} (h : s.HasRun t) (ht : t <:+: u) : s.HasRun u := by
  obtain ⟨x, ⟨p, rfl⟩, w, ⟨j, k, y, hj, hk, rfl⟩, rfl⟩ := h
  obtain ⟨a, b, rfl⟩ := ht
  refine ⟨_, ⟨a ++ p, ?_⟩, _, ⟨j, k, y ++ b, hj, hk, rfl⟩, rfl⟩
  simp

/-- Three parts that are merged are a run with the joints between them. -/
theorem hasRun_of_merges {j : Text} {ts : List Text} (hj : s.IsBetween j) (h : s.merges ts) :
    s.HasRun (Text.join j ts) := by
  fun_induction merges s ts with
  | case1 u v w ts ih =>
    obtain hhere | hrest := Bool.or_eq_true_iff.1 h
    · simp only [Bool.and_eq_true, List.isSuffixOf_iff_suffix, beq_iff_eq,
        List.isPrefixOf_iff_prefix] at hhere
      obtain ⟨⟨⟨p, rfl⟩, rfl⟩, ⟨q, rfl⟩⟩ := hhere
      obtain ⟨y, hy⟩ := Text.exists_join_eq j (s.last.text ++ q) ts
      refine ⟨_, ⟨p, ?_⟩, _, ⟨j, j, q ++ y, hj.isJoint, hj.isJoint, rfl⟩, rfl⟩
      rw [Text.join_cons_cons, Text.join_cons_cons, hy]
      simp
    · exact (ih hrest).mono (Text.join_isSuffix ..).isInfix
  | case2 => cases h

/-! ## Quiet texts -/

theorem not_joins_cons (hink : Text.isInk c) (hbar : c ≠ '|') : ¬ s.Joins (c :: r) := by
  refine not_joins ?_ ?_
  · rintro heq
    cases heq
    cases hink
  · rw [Text.trimStart_of_starts (starts_cons.2 hink), stops_cons]
    exact beq_false_of_ne hbar

theorem Quiet.operand {loose loose' : Prop} {least own : Precedence} (h : s.Quiet loose t)
    (hloose : least.level ≤ own.level → loose → loose') : s.Quiet loose' (t.operand least own) := by
  unfold Text.operand
  split
  · intro r hr _ _
    have hjoins : ¬ s.Joins (')' :: r) := not_joins_cons rfl (by decide)
    have hhead : ∀ c ∈ (')' :: r).head?, c ∉ s.middle := by cases s <;> simp [middle]
    have hrest := h _ (hr.cons (c := ')') rfl) (fun _ => mt Continues.joins hjoins)
      fun _ => breaks_of_not_joins hjoins hhead
    simpa using hrest.cons (c := '(') rfl
  next hlevel => exact h.imp (hloose (Nat.le_of_not_lt hlevel))

theorem Quiet.append_mark {loose : Prop} (h : s.Quiet False t) (hbare : isBare c)
    (hink : Text.isInk c) (hbar : c ≠ '|') : s.Quiet loose (t ++ [c]) := by
  intro r hr _ _
  rw [List.append_assoc]
  exact h _ (hr.cons hbare) (fun _ => mt Continues.joins (not_joins_cons hink hbar)) False.elim

end Splicing

theorem isBare_of_isNotation {c : Char} (h : isNotation c) : isBare c := by
  have hslash : c ≠ '\\' := by
    rintro rfl
    cases h
  simp [isBare, ofChar?_of_isNotation h, hslash]

theorem isBare_of_isNameRest {c : Char} (h : isNameRest c) : isBare c :=
  isBare_of_isNotation (isNotation_of_isNameRest h)

theorem isBare_of_isWord {t : Text} (h : t.isWord) : ∀ c ∈ t, isBare c :=
  fun c hc => isBare_of_isNameRest ((Text.isWord_iff.1 h).2 c hc)

namespace Expr
variable {s : Splicing} {e : Expr} {es : List Expr}

/-- Whether three parts in a row are merged. -/
def isMerged : Expr → Bool
  | seq es => Splicing.row.merges (operandTexts .sequence es)
  | alt es => Splicing.choice.merges (operandTexts .choice es)
  | _ => false

theorem isMerged_node : (s.node es).isMerged = s.merges (operandTexts s.binding es) := by
  cases s <;> rfl

/-- A tree that a node grammar can write, with single quotes only. -/
structure IsPlain (e : Expr) : Prop where
  sound : e.All (isSound Literal.isSingle)
  suits : e.Suits NodeGrammar.dialect

theorem IsPlain.child {c : Expr} (h : e.IsPlain) (hc : c ∈ e.children) : c.IsPlain :=
  ⟨(all_iff.1 h.sound).2 c hc, (suits_iff.1 h.suits).2 c hc⟩

/-- Nodes of some forms are not in such a tree. -/
theorem IsPlain.has_form {f : Form} (h : e.IsPlain) (hf : e.form? = some f) :
    NodeGrammar.dialect.has f := (suits_iff.1 h.suits).1 f hf

theorem IsPlain.isTokens (h : e.IsPlain) : IsTokens e.text :=
  (pieces_text h.sound).imp (fun _ => isBare_of_isNotation) fun _ => id

theorem IsPlain.node (h : (s.node es).IsPlain) :
    2 ≤ es.length ∧ ∀ e ∈ es, s.isNode e = false ∧ e.IsPlain := by
  obtain ⟨⟨hlen, hnodes⟩, -⟩ :=
    Splicing.isSpliced_node.1 (h.sound.imp fun _ => isSettled_of_isSound)
  have hchildren : (s.node es).children = es := by cases s <;> rfl
  exact ⟨hlen, fun e he => ⟨hnodes e he, h.child (hchildren.symm ▸ he)⟩⟩

theorem IsPlain.precedence_node (h : (s.node es).IsPlain) :
    (s.node es).precedence = s.binding := Splicing.precedence_node h.node.1

/-- What is no sequence and no choice binds more strongly than these. -/
theorem IsPlain.binding_lt (h : e.IsPlain) (hnode : s.isNode e = false)
    (hle : s.binding.level ≤ e.precedence.level) : s.binding.level < e.precedence.level := by
  refine Nat.lt_of_le_of_ne hle fun heq => ?_
  cases e with
  | seq es =>
    have hown : (seq es).precedence = .sequence := IsPlain.precedence_node (s := .row) h
    rw [hown] at heq
    cases s <;> first | exact absurd heq (by decide) | cases hnode
  | alt es =>
    have hown : (alt es).precedence = .choice := IsPlain.precedence_node (s := .choice) h
    rw [hown] at heq
    cases s <;> first | exact absurd heq (by decide) | cases hnode
  | _ => cases s <;> cases heq

/-! ## The text of a part -/

/-- What binds more strongly than a sequence has no divider before its first group. -/
theorem IsPlain.unbroken_text (h : e.IsPlain) (s : Splicing)
    (hlevel : Precedence.sequence.level < e.precedence.level) : e.text.Unbroken s.divider := by
  have hmark {t : Text} {c : Char} (hc : Text.isBeside s.divider c) (ht : t.Unbroken s.divider) :
      (t ++ [c]).Unbroken s.divider := ht.append (Text.unbroken_of_pieces (.char hc .nil))
  induction e with
  | name n =>
    obtain ⟨-, hn⟩ := Text.isWord_iff.1 (all_iff.1 h.sound).1
    refine Text.unbroken_of_pieces (.of_forall fun c hc => ?_)
    have hrest := hn c hc
    have hne (d : Char) (hd : isNameRest d = false) : c ≠ d := by
      rintro rfl
      rw [hd] at hrest
      cases hrest
    have hdivider : c ≠ s.divider := hne _ (by cases s <;> rfl)
    simp [Text.isBeside, isBare_of_isNameRest hrest, hdivider, hne '(' rfl]
  | literal l =>
    obtain ⟨hwhole, hl⟩ := Bool.and_eq_true_iff.1 (all_iff.1 h.sound).1
    exact Text.unbroken_of_pieces (.of_literal (Literal.isWhole_iff.1 hwhole) hl)
  | seq es =>
    have hown : (seq es).precedence = .sequence := IsPlain.precedence_node (s := .row) h
    rw [hown] at hlevel
    exact absurd hlevel (Nat.lt_irrefl _)
  | alt es =>
    have hown : (alt es).precedence = .choice := IsPlain.precedence_node (s := .choice) h
    rw [hown] at hlevel
    cases hlevel
  | optional e ih | star e ih | plus e ih =>
    have he := h.child List.mem_cons_self
    refine hmark (by cases s <;> decide) (.operand fun hle => ih he ?_)
    exact Nat.lt_of_lt_of_le (by decide) hle
  | repeated e | ahead e | notAhead e | list e => cases h.has_form rfl

/-- A part of a node has no divider before its first group. -/
theorem IsPlain.unbroken_operand (h : e.IsPlain) (hnode : s.isNode e = false) :
    (e.text.operand s.binding e.precedence).Unbroken s.divider := by
  have hrow {e : Expr} (h : e.IsPlain) (hseq : e.isSeq = false) (s : Splicing) :
      (e.text.operand .sequence e.precedence).Unbroken s.divider :=
    .operand fun hle => h.unbroken_text s (h.binding_lt (s := .row) hseq hle)
  cases s with
  | row => exact hrow h hnode .row
  | choice =>
    refine .operand fun hle => ?_
    cases hseq : e.isSeq with
    | true =>
      obtain ⟨es, rfl⟩ := Splicing.exists_eq_node (s := .row) hseq
      have hes := IsPlain.node (s := .row) h
      rw [Splicing.node, text, operandTexts_eq_map]
      refine .join (Text.unbroken_of_pieces (.of_all (by decide))) ?_
      exact List.forall_mem_map.2 fun e he => hrow (hes.2 e he).2 (hes.2 e he).1 .choice
    | false =>
      refine h.unbroken_text .choice (h.binding_lt (s := .row) hseq ?_)
      exact h.binding_lt hnode hle

/-- The parts of a node that is not merged, and parts of the other kind, bring no run about. -/
theorem IsPlain.quiet_node {k : Splicing} {j : Text} (hj : k.IsBetween j)
    (h : (k.node es).IsPlain) (hmerged : (k.node es).isMerged = false)
    (hes : ∀ e ∈ es, s.Quiet (e.precedence.level ≤ s.binding.level) e.text) :
    s.Quiet (k.binding.level ≤ s.binding.level)
      (Text.join j (operandTexts k.binding es)) := by
  have hparts := h.node.2
  rw [isMerged_node] at hmerged
  by_cases hs : k = s
  · subst hs
    refine (Splicing.quiet_join hj ?_ hmerged).imp fun _ => Nat.le_refl _
    rw [operandTexts_eq_map]
    refine List.forall_mem_map.2 fun e he => ?_
    obtain ⟨hnode, he'⟩ := hparts e he
    refine ⟨(isTight_text he'.sound).operand .., he'.unbroken_operand hnode,
      he'.isTokens.operand (by decide) (by decide) .., (hes e he).operand fun hle hloose => ?_⟩
    exact Nat.not_lt_of_le hloose (he'.binding_lt hnode hle)
  · refine Splicing.quiet_join_of_ne hj hs ?_
    rw [operandTexts_eq_map]
    refine List.forall_mem_map.2 fun e he => ?_
    refine ⟨(isTight_text (hparts e he).2.sound).operand .., (hes e he).operand ?_⟩
    exact fun hle hloose => hle.trans hloose

/-- The text of a tree without a merged node brings no run about. -/
theorem IsPlain.quiet_text (h : e.IsPlain) (hmerged : e.All fun node => !node.isMerged)
    (s : Splicing) : s.Quiet (e.precedence.level ≤ s.binding.level) e.text := by
  have hnode {k : Splicing} {es : List Expr} (h : (k.node es).IsPlain)
      (hmerged : (k.node es).All fun node => !node.isMerged) {j : Text} (hj : k.IsBetween j)
      (ih : ∀ e ∈ es, e.IsPlain → e.All (fun node => !node.isMerged) →
        s.Quiet (e.precedence.level ≤ s.binding.level) e.text) :
      s.Quiet ((k.node es).precedence.level ≤ s.binding.level)
        (Text.join j (operandTexts k.binding es)) := by
    obtain ⟨hhere, hes⟩ := all_iff.1 hmerged
    rw [h.precedence_node]
    refine h.quiet_node hj (by simpa using hhere) fun e he => ih e he (h.node.2 e he).2 ?_
    exact hes e (by cases k <;> exact he)
  induction e with
  | name n =>
    have hbare := isBare_of_isWord (all_iff.1 h.sound).1
    exact fun r hr _ _ => hr.append_of_forall hbare
  | literal l =>
    obtain ⟨hwhole, hl⟩ := Bool.and_eq_true_iff.1 (all_iff.1 h.sound).1
    exact fun r hr hcontinues _ => hr.literal (Literal.isWhole_iff.1 hwhole) hl hcontinues
  | seq es ih => exact hnode (k := .row) h hmerged .space ih
  | alt es ih => exact hnode (k := .choice) h hmerged .bar ih
  | optional e ih | star e ih | plus e ih =>
    have he := ih (h.child List.mem_cons_self) ((all_iff.1 hmerged).2 e List.mem_cons_self)
    refine (he.operand fun hle hloose => ?_).append_mark (by decide) (by decide) (by decide)
    exact Nat.not_lt_of_le (hle.trans hloose) (by cases s <;> decide)
  | repeated e | ahead e | notAhead e | list e => cases h.has_form rfl

/-! ## The text of the parts is in the text -/

theorem text_operand_isInfix (t : Text) (least own : Precedence) : t <:+: t.operand least own := by
  unfold Text.operand
  split
  · exact ⟨['('], [')'], rfl⟩
  · exact List.infix_rfl

theorem isInfix_join_operandTexts {j : Text} {least : Precedence} (he : e ∈ es) :
    e.text <:+: Text.join j (operandTexts least es) := by
  refine (text_operand_isInfix e.text least e.precedence).trans (Text.isInfix_join ?_)
  rw [operandTexts_eq_map]
  exact List.mem_map_of_mem he

theorem text_isInfix {c : Expr} (hc : c ∈ e.children) : c.text <:+: e.text := by
  have hoperand (least : Precedence) : c.text <:+: c.text.operand least c.precedence :=
    text_operand_isInfix ..
  cases e with
  | name n | literal l => cases hc
  | seq es | alt es => exact isInfix_join_operandTexts hc
  | optional e | star e | plus e | repeated e =>
    obtain rfl := List.mem_singleton.1 hc
    exact (hoperand .atom).trans (List.prefix_append _ _).isInfix
  | ahead e | notAhead e =>
    obtain rfl := List.mem_singleton.1 hc
    exact (hoperand .predicate).trans (List.suffix_cons _ _).isInfix
  | list e =>
    obtain rfl := List.mem_singleton.1 hc
    rw [text, List.append_assoc, List.append_assoc]
    exact (hoperand .atom).trans (List.prefix_append _ _).isInfix

/-- A merged node of a tree is a run in its text. -/
theorem exists_hasRun_text (h : ¬ e.All fun node => !node.isMerged) :
    ∃ s : Splicing, s.HasRun e.text := by
  induction e using children_induction with
  | step e ih =>
    rw [all_iff, not_and_or] at h
    obtain hhere | hparts := h
    · have hmerged : e.isMerged := by simpa using hhere
      cases e with
      | seq es => exact ⟨.row, Splicing.hasRun_of_merges .space hmerged⟩
      | alt es => exact ⟨.choice, Splicing.hasRun_of_merges .bar hmerged⟩
      | _ => cases hmerged
    · simp only [not_forall] at hparts
      obtain ⟨c, hc, hmerged⟩ := hparts
      obtain ⟨s, hrun⟩ := ih c hc hmerged
      exact ⟨s, hrun.mono (text_isInfix hc)⟩

end Expr
end ExtendedBnf
