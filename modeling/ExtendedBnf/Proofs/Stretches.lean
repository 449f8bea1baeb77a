import ExtendedBnf.Proofs.NeededGroups
import ExtendedBnf.Proofs.RoundTrip
import Mathlib.Data.List.Nodup

/-!
# The text of an expression in stretches

The text of an expression is a row of stretches: notation of its own, and operands. The notation
has no parentheses in code, so the groups of the text are those around its operands and those in
them. An operand counts for less than the expression, so no two groups have the same place.
-/
namespace ExtendedBnf

/-- A stretch of the text of an expression. -/
inductive Stretch where
  | plain (t : Text)
  | operand (least : Precedence) (e : Expr)

def Stretch.text : Stretch → Text
  | plain t => t
  | operand least e => e.text.operand least e.precedence

/-- What counts in a stretch. -/
def Stretch.weight : Stretch → Nat
  | plain t => t.total solid
  | operand _ e => e.weight

/-- What counts in a row of stretches. -/
def Stretch.weightOf : List Stretch → Nat
  | [] => 0
  | stretch :: row => stretch.weight + weightOf row

namespace Text

/-- The text that the stretches make up. -/
def ofStretches (row : List Stretch) : Text := row.flatMap Stretch.text

@[simp] theorem ofStretches_nil : ofStretches [] = [] := rfl

@[simp] theorem ofStretches_cons (stretch : Stretch) (row : List Stretch) :
    ofStretches (stretch :: row) = stretch.text ++ ofStretches row := List.flatMap_cons

@[simp] theorem ofStretches_append (pre post : List Stretch) :
    ofStretches (pre ++ post) = ofStretches pre ++ ofStretches post := List.flatMap_append

end Text

/-- What is written between two parts of a node. -/
def Splicing.joint : Splicing → Text
  | row => [' ']
  | choice => " | ".toList

/-- The operands of a node with what is written between them. -/
def Splicing.stretches (s : Splicing) : List Expr → List Stretch
  | [] => []
  | [e] => [.operand s.binding e]
  | e :: es => .operand s.binding e :: .plain s.joint :: stretches s es

namespace Expr

/-- The stretches of the text of an expression. -/
def stretches : Expr → List Stretch
  | name n => [.plain n]
  | literal l => [.plain l.text]
  | seq es => Splicing.row.stretches es
  | alt es => Splicing.choice.stretches es
  | optional e => [.operand .atom e, .plain ['?']]
  | star e => [.operand .atom e, .plain ['*']]
  | plus e => [.operand .atom e, .plain ['+']]
  | repeated e bounds => [.operand .atom e, .plain bounds.text]
  | ahead e => [.plain ['&'], .operand .predicate e]
  | notAhead e => [.plain ['!'], .operand .predicate e]
  | list e separator op =>
    [.operand .atom e, .plain (" % ".toList ++ separator.text ++ ' ' :: op.text)]

end Expr

namespace Splicing
variable {s : Splicing} {es : List Expr} {c : Expr} {least : Precedence}
  {pre post : List Stretch}

theorem stretches_cons (hne : es ≠ []) (e : Expr) :
    s.stretches (e :: es) = .operand s.binding e :: .plain s.joint :: s.stretches es := by
  rw [stretches]
  exact hne

theorem ofStretches_stretches (s : Splicing) (es : List Expr) :
    Text.ofStretches (s.stretches es) =
      Text.join s.joint (es.map fun e => e.text.operand s.binding e.precedence) := by
  induction es with
  | nil => rfl
  | cons e es ih =>
    cases es with
    | nil => simp [stretches, Stretch.text, Text.join]
    | cons f es =>
      rw [List.map_cons] at ih
      rw [stretches_cons (List.cons_ne_nil f es), List.map_cons, List.map_cons, Text.join_cons_cons,
        ← ih]
      simp [Stretch.text]

theorem mem_stretches {stretch : Stretch} (h : stretch ∈ s.stretches es) :
    stretch = .plain s.joint ∨ ∃ e ∈ es, stretch = .operand s.binding e := by
  induction es with
  | nil => cases h
  | cons e es ih =>
    by_cases hne : es = []
    · rw [hne, stretches, List.mem_singleton] at h
      exact .inr ⟨e, List.mem_cons_self, h⟩
    · rw [stretches_cons hne, List.mem_cons, List.mem_cons] at h
      obtain rfl | rfl | h := h
      · exact .inr ⟨e, List.mem_cons_self, rfl⟩
      · exact .inl rfl
      · exact (ih h).imp_right fun ⟨f, hf, heq⟩ => ⟨f, List.mem_cons_of_mem e hf, heq⟩

/-- In front of an operand of a node the other stretches count for the parts that come first. -/
theorem exists_of_stretches_eq (h : s.stretches es = pre ++ .operand least c :: post) :
    least = s.binding ∧ ∃ xs ys, es = xs ++ c :: ys ∧
      Stretch.weightOf pre = Expr.weightOf xs := by
  have hjoint : s.joint.total solid = 0 := by cases s <;> rfl
  induction es generalizing pre with
  | nil => simp [stretches] at h
  | cons e es ih =>
    cases pre with
    | nil =>
      have hhead : Stretch.operand s.binding e = .operand least c := by
        by_cases hne : es = []
        · rw [hne, stretches] at h
          exact (List.cons.inj h).1
        · rw [stretches_cons hne] at h
          exact (List.cons.inj h).1
      cases hhead
      exact ⟨rfl, [], es, rfl, rfl⟩
    | cons stretch pre =>
      by_cases hne : es = []
      · rw [hne, stretches] at h
        simp at h
      · rw [stretches_cons hne, List.cons_append] at h
        obtain ⟨rfl, hrest⟩ := List.cons.inj h
        cases pre with
        | nil => simp at hrest
        | cons stretch pre =>
          rw [List.cons_append] at hrest
          obtain ⟨rfl, hlater⟩ := List.cons.inj hrest
          obtain ⟨hleast, xs, ys, rfl, hsum⟩ := ih hlater
          refine ⟨hleast, e :: xs, ys, rfl, ?_⟩
          simp [Stretch.weightOf, Stretch.weight, Expr.weightOf, hsum, hjoint]

end Splicing

theorem Expr.ofStretches_stretches (e : Expr) : Text.ofStretches e.stretches = e.text := by
  cases e with
  | seq es => rw [stretches, Splicing.ofStretches_stretches, text, operandTexts_eq_map]; rfl
  | alt es => rw [stretches, Splicing.ofStretches_stretches, text, operandTexts_eq_map]; rfl
  | _ => simp [stretches, Stretch.text, text]

namespace Expr
open Text (Shows)
variable {e c : Expr} {least : Precedence} {pre post : List Stretch}

theorem Normal.meaning (h : e.Normal) : Says e.text e := by
  obtain ⟨hprintable, hspliced⟩ := normal_iff.1 h
  have hsays := (atLevel_text hprintable).meaning
  rwa [spliced_eq_self hspliced] at hsays

theorem Normal.of_mem_children (h : e.Normal) (hc : c ∈ e.children) : c.Normal :=
  (all_iff.1 h).2 c hc

theorem mem_children_of_mem_stretches (h : .operand least c ∈ e.stretches) : c ∈ e.children := by
  have hnode {s : Splicing} {es : List Expr} (h : .operand least c ∈ s.stretches es) : c ∈ es := by
    obtain hplain | ⟨e, he, heq⟩ := Splicing.mem_stretches h
    · cases hplain
    · cases heq
      exact he
  cases e with
  | seq es | alt es => exact hnode h
  | name | literal => simp [stretches] at h
  | _ => simp_all [stretches, children]

theorem mem_children_of_stretches (hrow : e.stretches = pre ++ .operand least c :: post) :
    c ∈ e.children := by
  have hmem : .operand least c ∈ e.stretches := by simp [hrow]
  exact mem_children_of_mem_stretches hmem

theorem Normal.of_stretches (h : e.Normal) (hrow : e.stretches = pre ++ .operand least c :: post) :
    c.Normal := h.of_mem_children (mem_children_of_stretches hrow)

/-- The notation between operands has no parentheses in code. -/
theorem Normal.pieces_of_mem_stretches (h : e.Normal) {t : Text} (ht : .plain t ∈ e.stretches) :
    Pieces Text.isPlain (fun _ => true) t := by
  have hnode : e.isNormal := (all_iff.1 h).1
  have hreadable : e.isReadable := (Bool.and_eq_true_iff.1 hnode).1
  have hjoint {s : Splicing} {es : List Expr} (ht : .plain t ∈ s.stretches es) :
      Pieces Text.isPlain (fun _ => true) t := by
    obtain heq | ⟨e, -, heq⟩ := Splicing.mem_stretches ht
    · cases heq
      cases s <;> exact .of_all (by decide)
    · cases heq
  cases e with
  | seq es | alt es => exact hjoint ht
  | name n =>
    obtain rfl : t = n := by simpa [stretches] using ht
    exact .of_forall fun c hc => isPlain_of_isNameRest (Text.isNameRest_of_mem hreadable hc)
  | literal l =>
    obtain rfl : t = l.text := by simpa [stretches] using ht
    exact .of_literal (Literal.isWhole_iff.1 hreadable) rfl
  | repeated e bounds =>
    obtain rfl : t = bounds.text := by simpa [stretches] using ht
    obtain ⟨r, hr, hfaint⟩ := (Says.bounded_text hreadable).exists_eq_cons
    rw [hr]
    exact .char rfl (.of_forall fun c hc => (Bool.and_eq_true_iff.1 (hfaint c hc)).1)
  | list e separator op =>
    obtain rfl : t = " % ".toList ++ separator.text ++ ' ' :: op.text := by
      simpa [stretches] using ht
    have hop : (' ' :: op.text).all Text.isPlain := by obtain ⟨_ | _, _ | _⟩ := op <;> rfl
    have hseparator := Literal.isWhole_iff.1 hreadable
    exact ((Pieces.of_all (by decide)).append (.of_literal hseparator rfl)).append (.of_all hop)
  | optional e | star e | plus e | ahead e | notAhead e =>
    obtain rfl : t = _ := by simpa [stretches] using ht
    exact .of_all (by decide)

theorem Normal.extents_plain (h : e.Normal) {t : Text} (ht : .plain t ∈ e.stretches) (w : Gauge) :
    t.extents w = [] := (Text.balanced_and_extents_of_pieces (h.pieces_of_mem_stretches ht)).2 w

theorem shows_ofStretches {row : List Stretch}
    (h : ∀ stretch ∈ row, Shows stretch.text stretch.weight []) :
    Shows (Text.ofStretches row) (Stretch.weightOf row) [] := by
  induction row with
  | nil => exact .of_isPlain (t := []) (by simp)
  | cons stretch row ih =>
    obtain ⟨hstretch, hrow⟩ := List.forall_mem_cons.1 h
    exact hstretch.append (ih hrow)

theorem Normal.shows_stretch (h : e.Normal) {stretch : Stretch} (hstretch : stretch ∈ e.stretches) :
    Shows stretch.text stretch.weight [] := by
  cases stretch with
  | plain t =>
    have hpieces := h.pieces_of_mem_stretches hstretch
    exact ⟨(Text.balanced_and_extents_of_pieces hpieces).1, rfl, List.nil_subset _⟩
  | operand least c =>
    have hc : c.Normal := h.of_mem_children (mem_children_of_mem_stretches hstretch)
    exact (hc.meaning.shows.operand least c.precedence).mono (List.nil_subset _)

/-- In front of one of its stretches an expression counts for the stretches before it. -/
theorem Normal.total_ofStretches (h : e.Normal) {row : List Stretch} (hrow : row ⊆ e.stretches) :
    (Text.ofStretches row).total solid = Stretch.weightOf row :=
  (shows_ofStretches fun _ hstretch => h.shows_stretch (hrow hstretch)).total

theorem Normal.balanced_before (h : e.Normal)
    (hrow : e.stretches = pre ++ .operand least c :: post) : (Text.ofStretches pre).Balanced := by
  refine (shows_ofStretches fun stretch hstretch => h.shows_stretch ?_).balanced
  rw [hrow]
  exact List.mem_append_left _ hstretch

end Expr

/-! ### No two groups at one place -/

namespace Text
variable {w : Gauge} {x : Extent}

/-- The groups of a row of stretches are those of its stretches. -/
theorem exists_of_mem_extents_ofStretches {row : List Stretch}
    (h : ∀ stretch ∈ row, Balanced stretch.text) (hx : x ∈ (ofStretches row).extents w) :
    ∃ pre stretch post, row = pre ++ stretch :: post ∧
      ∃ y ∈ stretch.text.extents w, x = y.shift ((ofStretches pre).total w) := by
  induction row generalizing x with
  | nil => simp at hx
  | cons stretch row ih =>
    obtain ⟨hstretch, hrow⟩ := List.forall_mem_cons.1 h
    rw [ofStretches_cons, extents_append hstretch] at hx
    obtain hx | hx := List.mem_append.1 hx
    · exact ⟨[], stretch, row, rfl, x, hx, by simp⟩
    · obtain ⟨y, hy, rfl⟩ := List.mem_map.1 hx
      obtain ⟨pre, other, post, rfl, z, hz, rfl⟩ := ih hrow hy
      refine ⟨stretch :: pre, other, post, rfl, z, hz, ?_⟩
      rw [ofStretches_cons, total_append hstretch, ← Extent.shift_comp_shift]
      rfl

end Text

/-- The extents are distinct, none is empty, and none goes beyond `n`. -/
structure Extent.Proper (xs : List Extent) (n : Nat) : Prop where
  nodup : xs.Nodup
  start_lt_stop : ∀ x ∈ xs, x.start < x.stop
  stop_le : ∀ x ∈ xs, x.stop ≤ n

namespace Extent.Proper
variable {xs ys : List Extent} {m n : Nat}

theorem nil (n : Nat) : Proper [] n := ⟨.nil, by simp, by simp⟩

/-- What comes later is elsewhere. -/
theorem append (hx : Proper xs m) (hy : Proper ys n) :
    Proper (xs ++ ys.map (.shift m)) (m + n) where
  nodup := by
    have hinj : Function.Injective (Extent.shift m) := by
      rintro ⟨a, b⟩ ⟨c, d⟩ h
      simpa [Extent.shift] using h
    refine List.nodup_append.2 ⟨hx.nodup, hy.nodup.map hinj, fun x hxs z hz => ?_⟩
    obtain ⟨y, hys, rfl⟩ := List.mem_map.1 hz
    have hbefore := hx.stop_le x hxs
    have hafter := hy.start_lt_stop y hys
    rintro rfl
    simp only [Extent.shift] at hbefore
    omega
  start_lt_stop x hxs := by
    obtain hxs | hxs := List.mem_append.1 hxs
    · exact hx.start_lt_stop x hxs
    · obtain ⟨y, hys, rfl⟩ := List.mem_map.1 hxs
      exact Nat.add_lt_add_left (hy.start_lt_stop y hys) m
  stop_le x hxs := by
    obtain hxs | hxs := List.mem_append.1 hxs
    · exact Nat.le_add_right_of_le (hx.stop_le x hxs)
    · obtain ⟨y, hys, rfl⟩ := List.mem_map.1 hxs
      exact Nat.add_le_add_left (hy.stop_le y hys) m

/-- A group around all that is there is another one if the others are smaller. -/
theorem concat (hx : Proper xs n) (hn : 0 < n) (hlt : ∀ x ∈ xs, x ≠ ⟨0, n⟩) :
    Proper (xs ++ [⟨0, n⟩]) n where
  nodup := by
    refine List.nodup_append.2 ⟨hx.nodup, List.nodup_singleton _, fun x hxs z hz => ?_⟩
    rw [List.mem_singleton.1 hz]
    exact hlt x hxs
  start_lt_stop x hxs := by
    obtain hxs | hxs := List.mem_append.1 hxs
    · exact hx.start_lt_stop x hxs
    · rwa [List.mem_singleton.1 hxs]
  stop_le x hxs := by
    obtain hxs | hxs := List.mem_append.1 hxs
    · exact hx.stop_le x hxs
    · rw [List.mem_singleton.1 hxs]

end Extent.Proper

namespace Expr
open Text (Shows)
variable {e c : Expr} {es : List Expr}

theorem le_weightOf_of_mem (h : c ∈ es) : c.weight ≤ weightOf es := by
  obtain ⟨xs, ys, rfl⟩ := List.append_of_mem h
  rw [weightOf_append, weightOf]
  omega

theorem Normal.two_le_length {s : Splicing} (h : (s.node es).Normal) :
    2 ≤ es.length ∧ ∀ e ∈ es, e.Normal := by
  obtain ⟨hprintable, hspliced⟩ := normal_iff.1 h
  obtain ⟨⟨hlen, -⟩, hes⟩ := Splicing.isSpliced_node.1 hspliced
  exact ⟨hlen, fun e he =>
    normal_iff.2 ⟨(Splicing.printable_node.1 hprintable).2 e he, hes e he⟩⟩

theorem Normal.weight_pos (h : e.Normal) : 0 < e.weight := by
  have hnode {s : Splicing} {es : List Expr} (h : (s.node es).Normal)
      (ih : ∀ e ∈ es, e.Normal → 0 < e.weight) : 0 < (s.node es).weight := by
    obtain ⟨hlen, hes⟩ := h.two_le_length
    obtain ⟨e, he⟩ := List.exists_mem_of_length_pos (Nat.lt_of_lt_of_le Nat.zero_lt_two hlen)
    rw [Splicing.weight_node]
    exact Nat.lt_of_lt_of_le (ih e he (hes e he)) (le_weightOf_of_mem he)
  induction e with
  | name n =>
    have hname : n.isName := (Bool.and_eq_true_iff.1 (all_iff.1 h).1).1
    obtain ⟨c, r, rfl⟩ := List.exists_cons_of_ne_nil (Text.ne_nil_of_isName hname)
    have hsolid : isSolid c := by simp [isSolid, (Bool.and_eq_true_iff.1 hname).1]
    exact List.countP_pos_iff.2 ⟨c, List.mem_cons_self, hsolid⟩
  | literal l => exact Nat.one_pos
  | seq es ih => exact hnode (s := .row) h ih
  | alt es ih => exact hnode (s := .choice) h ih
  | ahead e | notAhead e => exact Nat.add_pos_left Nat.one_pos _
  | _ => exact Nat.succ_pos _

/-- A part counts for less than the whole. -/
theorem Normal.weight_lt (h : e.Normal) (hc : c ∈ e.children) : c.weight < e.weight := by
  have hnode {s : Splicing} {es : List Expr} (h : (s.node es).Normal) (hc : c ∈ es) :
      c.weight < (s.node es).weight := by
    obtain ⟨hlen, hes⟩ := h.two_le_length
    obtain ⟨xs, ys, rfl⟩ := List.append_of_mem hc
    obtain ⟨d, hd⟩ : ∃ d, d ∈ xs ++ ys := by
      refine List.exists_mem_of_length_pos ?_
      simp at hlen ⊢
      omega
    have hpos : 0 < d.weight := (hes d (by simp at hd ⊢; tauto)).weight_pos
    have hle := le_weightOf_of_mem hd
    rw [Splicing.weight_node, weightOf_append, weightOf]
    rw [weightOf_append] at hle
    omega
  cases e with
  | name | literal => cases hc
  | seq es => exact hnode (s := .row) h hc
  | alt es => exact hnode (s := .choice) h hc
  | ahead e | notAhead e =>
    rw [List.mem_singleton.1 hc, weight]
    exact Nat.lt_add_of_pos_left Nat.one_pos
  | _ =>
    rw [List.mem_singleton.1 hc, weight]
    simp

theorem Normal.total_stretches (h : e.Normal) :
    Stretch.weightOf e.stretches = e.weight := by
  rw [← h.total_ofStretches (List.Subset.refl _), ofStretches_stretches, h.meaning.shows.total]

theorem proper_ofStretches {row : List Stretch}
    (hshows : ∀ stretch ∈ row, Shows stretch.text stretch.weight [])
    (h : ∀ stretch ∈ row, Extent.Proper (stretch.text.extents solid) stretch.weight) :
    Extent.Proper ((Text.ofStretches row).extents solid) (Stretch.weightOf row) := by
  induction row with
  | nil =>
    rw [Text.ofStretches_nil, Text.extents_nil]
    exact .nil _
  | cons stretch row ih =>
    obtain ⟨hstretch, hrow⟩ := List.forall_mem_cons.1 hshows
    obtain ⟨hfirst, hothers⟩ := List.forall_mem_cons.1 h
    rw [Text.ofStretches_cons, Text.extents_append hstretch.balanced, hstretch.total]
    exact hfirst.append (ih hrow hothers)

theorem Normal.proper_operand (h : c.Normal)
    (hproper : Extent.Proper (c.text.extents solid) c.weight)
    (hlt : ∀ x ∈ c.text.extents solid, x ≠ ⟨0, c.weight⟩) (least : Precedence) :
    Extent.Proper ((c.text.operand least c.precedence).extents solid) c.weight := by
  unfold Text.operand
  split
  · rw [Text.extents_solid_group h.meaning.balanced, h.meaning.shows.total]
    exact hproper.concat h.weight_pos hlt
  · exact hproper

/-- A group in the text of an expression is in one of its stretches, which is smaller. -/
theorem Normal.ne_of_mem_extents (h : e.Normal)
    (hproper : ∀ stretch ∈ e.stretches, Extent.Proper (stretch.text.extents solid) stretch.weight)
    {x : Extent} (hx : x ∈ e.text.extents solid) : x ≠ ⟨0, e.weight⟩ := by
  intro heq
  rw [← ofStretches_stretches] at hx
  obtain ⟨pre, stretch, post, hrow, y, hy, rfl⟩ :=
    Text.exists_of_mem_extents_ofStretches (fun _ hmem => (h.shows_stretch hmem).balanced) hx
  have hstretch : stretch ∈ e.stretches := by simp [hrow]
  have hstop := (hproper stretch hstretch).stop_le y hy
  have hsmaller : stretch.weight < e.weight := by
    cases stretch with
    | plain t =>
      rw [Stretch.text, h.extents_plain hstretch] at hy
      cases hy
    | operand least c => exact h.weight_lt (mem_children_of_mem_stretches hstretch)
  simp only [Extent.shift, Extent.mk.injEq] at heq
  omega

/-- The groups in the text of an expression have places of their own, and none takes all of it. -/
theorem Normal.proper_extents (h : e.Normal) :
    Extent.Proper (e.text.extents solid) e.weight ∧
      ∀ x ∈ e.text.extents solid, x ≠ ⟨0, e.weight⟩ := by
  induction e using children_induction with
  | step e ih =>
    have hproper (stretch : Stretch) (hstretch : stretch ∈ e.stretches) :
        Extent.Proper (stretch.text.extents solid) stretch.weight := by
      cases stretch with
      | plain t =>
        rw [Stretch.text, h.extents_plain hstretch]
        exact .nil _
      | operand least c =>
        have hc := mem_children_of_mem_stretches hstretch
        have hnormal := h.of_mem_children hc
        obtain ⟨hinside, hlt⟩ := ih c hc hnormal
        exact hnormal.proper_operand hinside hlt least
    refine ⟨?_, fun x hx => h.ne_of_mem_extents hproper hx⟩
    rw [← ofStretches_stretches, ← h.total_stretches]
    exact proper_ofStretches (fun _ => h.shows_stretch) hproper

end Expr
end ExtendedBnf
