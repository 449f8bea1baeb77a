import ExtendedBnf.Proofs.GroupExtents
import ExtendedBnf.Proofs.NormalForm

/-!
# The groups that an expression needs

What a text says is made of characters that no spacing or grouping can replace: the letters of
names, the quotes in front of literals, marks and suffixes. Places in a text are counted by
these, so the texts of one expression count the same. An expression needs a group around each
operand that binds more loosely than its place asks. Only under a suffix may an operand
with a suffix stand without one. Whatever text says the expression, it has these groups, each
at its place.
-/
namespace ExtendedBnf

/-- Whether the character starts a suffix. -/
def opensSuffix (c : Char) : Bool := ['?', '*', '+', '{'].contains c

/-- Whether the character is a letter that may start a name, a quote, a mark, or the start of a
suffix. -/
def isSolid (c : Char) : Bool :=
  isNameStart c || (Quote.ofChar? c).isSome || c == '&' || c == '!' || opensSuffix c

/-- In code solid characters count, and nothing else does. -/
def solid : Gauge
  | .code, c => if isSolid c then 1 else 0
  | _, _ => 0

theorem append_subset_append {xs xs' ys ys' : List Extent} (hx : xs ⊆ xs') (hy : ys ⊆ ys') :
    xs ++ ys ⊆ xs' ++ ys' :=
  List.append_subset.2 ⟨List.subset_append_of_subset_left ys' hx,
    List.subset_append_of_subset_right xs' hy⟩

@[simp] theorem solid_open : solid .code '(' = 0 := rfl

@[simp] theorem solid_close : solid .code ')' = 0 := rfl

namespace Expr

mutual
/-- How many solid characters the texts of the expression have in code. -/
def weight : Expr → Nat
  | name n => n.countP isSolid
  | literal _ => 1
  | seq es | alt es => weightOf es
  | optional e | star e | plus e | repeated e _ => weight e + 1
  | ahead e | notAhead e => 1 + weight e
  | list e _ _ => weight e + 2

def weightOf : List Expr → Nat
  | [] => 0
  | e :: es => weight e + weightOf es
end

/-- Whether the expression ends in a suffix. -/
def isSuffixed : Expr → Bool
  | optional _ | star _ | plus _ | repeated _ _ => true
  | _ => false

/-- How strongly an operand has to bind under a suffix. -/
def underSuffix (e : Expr) : Precedence := if e.isSuffixed then .repetition else .atom

/-- The groups of an operand where at least `least` is asked, if it has the groups `xs` by itself,
counts for `n` and binds as `own`. -/
def groupsAt (xs : List Extent) (n : Nat) (least own : Precedence) : List Extent :=
  if own.level < least.level then xs ++ [⟨0, n⟩] else xs

mutual
/-- The groups that no text of the expression can do without, with their places. -/
def needed : Expr → List Extent
  | name _ | literal _ => []
  | seq es => neededIn .sequence es
  | alt es => neededIn .choice es
  | optional e | star e | plus e | repeated e _ =>
    groupsAt (needed e) e.weight e.underSuffix e.precedence
  | ahead e | notAhead e => (groupsAt (needed e) e.weight .predicate e.precedence).map (.shift 1)
  | list e _ _ => groupsAt (needed e) e.weight .atom e.precedence

/-- The groups that expressions one after the other need where at least `least` is asked. -/
def neededIn (least : Precedence) : List Expr → List Extent
  | [] => []
  | e :: es => groupsAt (needed e) e.weight least e.precedence ++
      (neededIn least es).map (.shift e.weight)
end

/-- The groups that the expression needs where at least `least` is asked. -/
def neededAt (least : Precedence) (e : Expr) : List Extent :=
  groupsAt e.needed e.weight least e.precedence

section
variable {xs : List Extent} {n : Nat} {least own : Precedence} {e : Expr} {es fs : List Expr}

theorem subset_groupsAt : xs ⊆ groupsAt xs n least own := by
  unfold groupsAt
  split
  · exact List.subset_append_left ..
  · exact List.Subset.refl xs

theorem groupsAt_subset : groupsAt xs n least own ⊆ xs ++ [⟨0, n⟩] := by
  unfold groupsAt
  split
  · exact List.Subset.refl _
  · exact List.subset_append_left ..

theorem groupsAt_of_le (h : least.level ≤ own.level) : groupsAt xs n least own = xs :=
  if_neg (Nat.not_lt_of_le h)

/-- Where less is asked no more groups are needed. -/
theorem neededAt_mono {more : Precedence} (h : least.level ≤ more.level) :
    e.neededAt least ⊆ e.neededAt more := by
  unfold neededAt
  by_cases hlt : e.precedence.level < least.level
  · rw [groupsAt, groupsAt, if_pos hlt, if_pos (Nat.lt_of_lt_of_le hlt h)]
    exact List.Subset.refl _
  · rw [groupsAt_of_le (Nat.le_of_not_lt hlt)]
    exact subset_groupsAt

theorem weightOf_append : weightOf (es ++ fs) = weightOf es + weightOf fs := by
  induction es with
  | nil => simp [weightOf]
  | cons e es ih => simp [weightOf, ih, Nat.add_assoc]

theorem neededIn_append :
    neededIn least (es ++ fs) =
      neededIn least es ++ (neededIn least fs).map (.shift (weightOf es)) := by
  induction es with
  | nil => simp [neededIn, weightOf]
  | cons e es ih => simp [neededIn, weightOf, ih]

@[simp] theorem neededIn_singleton : neededIn least [e] = e.neededAt least := by
  simp [neededIn, neededAt]

end

end Expr

/-! ### Nodes put together from parts -/

namespace Splicing
variable {s : Splicing} {e : Expr} {es : List Expr}

/-- How strongly a part of a node binds by itself if it can stand without parentheses. -/
def inner : Splicing → Precedence
  | row => .predicate
  | choice => .sequence

theorem weight_node : (s.node es).weight = Expr.weightOf es := by
  cases s <;> simp [node, Expr.weight]

theorem needed_node : (s.node es).needed = Expr.neededIn s.binding es := by
  cases s <;> simp [node, binding, Expr.needed]

theorem weightOf_parts : Expr.weightOf (s.parts e) = e.weight := by
  cases hnode : s.isNode e with
  | true =>
    obtain ⟨es, rfl⟩ := exists_eq_node hnode
    rw [parts_node, weight_node]
  | false => simp [parts_of_isNode hnode, Expr.weightOf]

theorem neededIn_parts_subset : Expr.neededIn s.binding (s.parts e) ⊆ e.neededAt s.inner := by
  cases hnode : s.isNode e with
  | true =>
    obtain ⟨es, rfl⟩ := exists_eq_node hnode
    rw [parts_node, ← needed_node]
    exact Expr.subset_groupsAt
  | false =>
    rw [parts_of_isNode hnode, Expr.neededIn_singleton]
    exact Expr.neededAt_mono (by cases s <;> decide)

theorem weightOf_flatMap_parts : Expr.weightOf (es.flatMap s.parts) = Expr.weightOf es := by
  induction es with
  | nil => rfl
  | cons e es ih => rw [List.flatMap_cons, Expr.weightOf_append, weightOf_parts, ih, Expr.weightOf]

theorem neededIn_flatMap_subset :
    Expr.neededIn s.binding (es.flatMap s.parts) ⊆ Expr.neededIn s.inner es := by
  induction es with
  | nil => simp [Expr.neededIn]
  | cons e es ih =>
    rw [List.flatMap_cons, Expr.neededIn_append, weightOf_parts, Expr.neededIn]
    exact append_subset_append neededIn_parts_subset (List.map_subset _ ih)

theorem weight_build : (s.build es).weight = Expr.weightOf es := by
  rw [← weightOf_flatMap_parts (s := s)]
  by_cases hone : (es.flatMap s.parts).length = 1
  · obtain ⟨p, hp⟩ := List.length_eq_one_iff.1 hone
    simp [build_eq_of_singleton hp, hp, Expr.weightOf]
  · rw [build_eq_node hone, weight_node]

/-- What parts need is enough for what is built of them. -/
theorem neededAt_build_subset : (s.build es).neededAt s.binding ⊆ Expr.neededIn s.inner es := by
  refine List.Subset.trans ?_ (neededIn_flatMap_subset (s := s))
  by_cases hone : (es.flatMap s.parts).length = 1
  · obtain ⟨p, hp⟩ := List.length_eq_one_iff.1 hone
    simp [build_eq_of_singleton hp, hp]
  · have hbinding : (s.node (es.flatMap s.parts)).precedence = s.binding := by
      match es.flatMap s.parts, hone with
      | [], _ => cases s <;> rfl
      | _ :: _ :: _, _ => exact precedence_node (by simp)
    rw [build_eq_node hone, Expr.neededAt, Expr.groupsAt_of_le (by rw [hbinding]), needed_node]
    exact List.Subset.refl _

end Splicing

/-! ### Texts with the groups they show -/

/-- Whether the character of code is nothing that counts and no parenthesis. -/
def isFaint (c : Char) : Bool := Text.isPlain c && !isSolid c

theorem isFaint_of_isSpace {c : Char} (h : Reader.isSpace c) : isFaint c := by
  simp only [Reader.isSpace, Bool.or_eq_true, beq_iff_eq] at h
  rcases h with ((rfl | rfl) | rfl) | rfl <;> rfl

theorem isFaint_of_isDigit {c : Char} (h : c.isDigit) : isFaint c := by
  have hlt : c.toNat < 0x80 := Nat.lt_of_le_of_lt (toNat_of_isDigit h).2 (by decide)
  exact forall_ascii (p := fun c => c.isDigit → isFaint c) (by decide) hlt h

namespace Text
variable {s t : Text} {m n : Nat} {xs ys : List Extent}

theorem total_of_isPlain (h : ∀ c ∈ t, isPlain c) : total solid t = t.countP isSolid := by
  induction t with
  | nil => rfl
  | cons c r ih =>
    obtain ⟨hc, hr⟩ := List.forall_mem_cons.1 h
    have hbalanced : Balanced [c] := balanced_cons hc balanced_nil
    rw [← List.singleton_append, total_append hbalanced, ih hr, List.countP_append]
    simp [total, totalFrom, solid, List.countP_singleton]

theorem total_literal {l : Literal} (h : IsBody '\\' l.quote.char l.body) :
    total solid l.text = 1 := by
  have hinside {quote : Quote} {b : Text} (h : IsBody '\\' quote.char b) :
      totalFrom solid (.inside quote) (b ++ [quote.char]) = 0 := by
    induction h with
    | nil => rfl
    | pair a _ ih => simpa [totalFrom, solid, Place.next] using ih
    | plain he hc _ ih => simpa [totalFrom, solid, Place.next, he, hc] using ih
  have hquote : solid .code l.quote.char = 1 := by simp [solid, isSolid]
  rw [total, Literal.text, List.cons_append, totalFrom, Place.next_char, hinside h, hquote]

theorem extents_solid_group (h : Balanced t) :
    extents solid ('(' :: t ++ [')']) = extents solid t ++ [⟨0, total solid t⟩] := by
  rw [extents_group h, solid_open, Extent.shift_zero, List.map_id, Nat.zero_add]

/-- The text is balanced and counts for `n`, and `xs` are among its groups. -/
structure Shows (t : Text) (n : Nat) (xs : List Extent) : Prop where
  balanced : Balanced t
  total : total solid t = n
  groups : xs ⊆ extents solid t

namespace Shows

theorem mono (h : Shows t n xs) (hsubset : ys ⊆ xs) : Shows t n ys :=
  ⟨h.balanced, h.total, List.Subset.trans hsubset h.groups⟩

theorem append (hs : Shows s m xs) (ht : Shows t n ys) :
    Shows (s ++ t) (m + n) (xs ++ ys.map (.shift m)) where
  balanced := hs.balanced.append ht.balanced
  total := by rw [total_append hs.balanced, hs.total, ht.total]
  groups := by
    rw [extents_append hs.balanced, hs.total]
    exact append_subset_append hs.groups (List.map_subset _ ht.groups)

theorem append_plain (hs : Shows s m xs) (ht : Shows t n []) : Shows (s ++ t) (m + n) xs := by
  have h := hs.append ht
  rwa [List.map_nil, List.append_nil] at h

theorem faint_append (hs : Shows s 0 []) (ht : Shows t n ys) : Shows (s ++ t) n ys := by
  have h := hs.append ht
  rwa [Nat.zero_add, List.nil_append, Extent.shift_zero, List.map_id] at h

theorem group (h : Shows t n xs) : Shows ('(' :: t ++ [')']) n (xs ++ [⟨0, n⟩]) where
  balanced := balanced_group h.balanced
  total := by
    rw [total_group h.balanced, h.total, solid_open, solid_close, Nat.zero_add, Nat.add_zero]
  groups := by
    rw [extents_solid_group h.balanced, h.total]
    exact append_subset_append h.groups (List.Subset.refl _)

theorem operand (h : Shows t n xs) (least own : Precedence) :
    Shows (t.operand least own) n (Expr.groupsAt xs n least own) := by
  unfold Text.operand Expr.groupsAt
  split
  · exact h.group
  · exact h

theorem of_isPlain (h : ∀ c ∈ t, isPlain c) : Shows t (t.countP isSolid) [] :=
  ⟨balanced_of_isPlain h, total_of_isPlain h, List.nil_subset _⟩

theorem of_isFaint (h : ∀ c ∈ t, isFaint c) : Shows t 0 [] := by
  have hplain (c : Char) (hc : c ∈ t) : isPlain c := (Bool.and_eq_true_iff.1 (h c hc)).1
  have hsolid (c : Char) (hc : c ∈ t) : isSolid c = false := by
    simpa using (Bool.and_eq_true_iff.1 (h c hc)).2
  have hcount : t.countP isSolid = 0 := List.countP_eq_zero.2 fun c hc => by simp [hsolid c hc]
  exact hcount ▸ of_isPlain hplain

theorem mark {c : Char} (hplain : isPlain c) (hsolid : isSolid c) : Shows [c] 1 [] := by
  have hcount : [c].countP isSolid = 1 := by simp [hsolid]
  exact hcount ▸ of_isPlain (List.forall_mem_singleton.2 hplain)

theorem faint_mark {c : Char} (h : isFaint c) : Shows [c] 0 [] :=
  of_isFaint (List.forall_mem_singleton.2 h)

theorem literal {l : Literal} (h : IsBody '\\' l.quote.char l.body) : Shows l.text 1 [] :=
  ⟨balanced_literal h, total_literal h, List.nil_subset _⟩

end Shows
end Text

open Text (Shows)

theorem IsGap.shows {g : Text} (h : IsGap g) : Shows g 0 [] :=
  .of_isFaint fun c hc => isFaint_of_isSpace (h c hc)

theorem ListOp.shows_text (op : ListOp) : Shows op.text 1 [] := by
  have hplain : op.text.all Text.isPlain := by obtain ⟨_ | _, _ | _⟩ := op <;> rfl
  have hcount : op.text.countP isSolid = 1 := by obtain ⟨_ | _, _ | _⟩ := op <;> rfl
  exact hcount ▸ .of_isPlain (List.all_eq_true.1 hplain)

namespace Says
open Reader (Suffix together)

/-- Of what bounds are written with only the brace in front counts. -/
theorem Bounded.exists_eq_cons {t : Text} {bounds : Bounds} (h : Bounded t bounds) :
    ∃ r, t = '{' :: r ∧ ∀ c ∈ r, isFaint c := by
  have hmarks : isFaint ',' ∧ isFaint '}' := by decide
  have hgap {g : Text} (hg : IsGap g) (c : Char) (hc : c ∈ g) := isFaint_of_isSpace (hg c hc)
  have hnumber {t : Text} {n : UInt32} (ht : IsNumber t n) (c : Char) (hc : c ∈ t) :=
    isFaint_of_isDigit (ht.2.1 c hc)
  cases h with
  | exactly hg ht hh =>
    refine ⟨_, rfl, ?_⟩
    simpa [hmarks, or_imp, forall_and] using ⟨hgap hg, hnumber ht, hgap hh⟩
  | atLeast hg ht hh hk =>
    refine ⟨_, rfl, ?_⟩
    simpa [hmarks, or_imp, forall_and] using ⟨hgap hg, hnumber ht, hgap hh, hgap hk⟩
  | atMost hg hh ht hk =>
    refine ⟨_, rfl, ?_⟩
    simpa [hmarks, or_imp, forall_and] using ⟨hgap hg, hgap hh, hnumber ht, hgap hk⟩
  | between hg ht hh hk hu hi _ =>
    refine ⟨_, rfl, ?_⟩
    simpa [hmarks, or_imp, forall_and] using
      ⟨hgap hg, hnumber ht, hgap hh, hgap hk, hnumber hu, hgap hi⟩

theorem Bounded.shows {t : Text} {bounds : Bounds} (h : Bounded t bounds) : Shows t 1 [] := by
  obtain ⟨r, rfl, hr⟩ := h.exists_eq_cons
  exact (Shows.mark (c := '{') rfl rfl).append (.of_isFaint hr)

theorem Suffixed.shows {t : Text} {suffix : Suffix} (h : Suffixed t suffix) : Shows t 1 [] := by
  cases h with
  | optional hg | star hg | plus hg => exact hg.shows.append (.mark rfl rfl)
  | bounds hg hbounds => exact hg.shows.append hbounds.shows

/-- The text shows the groups that the expression needs where at least `least` is asked. -/
def ShowsAt (least : Precedence) (t : Text) (e : Expr) : Prop :=
  Shows t e.weight (e.neededAt least)

theorem ShowsAt.mono {least more : Precedence} {t : Text} {e : Expr} (h : ShowsAt more t e)
    (hle : least.level ≤ more.level) : ShowsAt least t e :=
  Shows.mono h (Expr.neededAt_mono hle)

/-- One more suffix needs what is needed under it. -/
theorem ShowsAt.suffix {t u : Text} {e : Expr} {suffix : Suffix} (h : ShowsAt e.underSuffix t e)
    (hu : Suffixed u suffix) : ShowsAt (suffix.apply e).underSuffix (t ++ u) (suffix.apply e) := by
  have hsuffix := h.append_plain hu.shows
  cases suffix <;> simpa [ShowsAt, Suffix.apply, Expr.weight, Expr.neededAt, Expr.needed,
    Expr.underSuffix, Expr.isSuffixed, Expr.precedence, Expr.groupsAt_of_le] using hsuffix

theorem ShowsAt.suffixes {t s : Text} {e : Expr} {suffixes : List Suffix}
    (h : ShowsAt e.underSuffix t e) (hs : Many Suffixed s suffixes) :
    ShowsAt .repetition (t ++ s) (suffixes.foldl Suffix.apply e) := by
  induction hs generalizing t e with
  | nil =>
    rw [List.append_nil]
    refine h.mono ?_
    unfold Expr.underSuffix
    split <;> decide
  | cons hsuffix _ ih =>
    rw [← List.append_assoc]
    exact ih (h.suffix hsuffix)

theorem Many.shows {item : Text → Expr → Prop} {least : Precedence} {t : Text} {es : List Expr}
    (h : Many item t es) (hitem : ∀ u e, item u e → ShowsAt least u e) :
    Shows t (Expr.weightOf es) (Expr.neededIn least es) := by
  induction h with
  | nil => simpa [Expr.weightOf, Expr.neededIn] using Shows.of_isFaint (t := []) (by simp)
  | cons he _ ih =>
    rw [Expr.weightOf, Expr.neededIn]
    exact Shows.append (hitem _ _ he) ih

theorem showsAt_together {s : Splicing} {t r : Text} {e : Expr} {es : List Expr}
    (he : ShowsAt s.inner t e) (hes : Shows r (Expr.weightOf es) (Expr.neededIn s.inner es)) :
    ShowsAt s.binding (t ++ r) (together s.build e es) := by
  have hall : Shows (t ++ r) (Expr.weightOf (e :: es)) (Expr.neededIn s.inner (e :: es)) := by
    rw [Expr.weightOf, Expr.neededIn]
    exact Shows.append he hes
  cases es with
  | nil =>
    have hfirst : Shows (t ++ r) e.weight (e.neededAt s.inner) := Shows.append_plain he hes
    exact hfirst.mono (Expr.neededAt_mono (by cases s <;> decide))
  | cons f es =>
    rw [← Splicing.weight_build (s := s)] at hall
    exact hall.mono Splicing.neededAt_build_subset

section
variable {interior : Text → Expr → Prop} (hinterior : ∀ u e, interior u e → ShowsAt .choice u e)
  {t : Text} {e : Expr}
include hinterior

theorem Primary.shows (h : Primary interior t e) : ShowsAt .atom t e := by
  cases h with
  | name hname =>
    have hplain (c : Char) (hc : c ∈ t) := isPlain_of_isNameRest (Text.isNameRest_of_mem hname hc)
    exact .of_isPlain hplain
  | literal hbody => exact .literal hbody
  | group hinside =>
    exact (hinterior _ _ hinside).group.mono Expr.groupsAt_subset

theorem Operand.shows (h : Operand interior t e) : ShowsAt .repetition t e := by
  cases h with
  | @suffixes _ _ first _ hfirst hsuffixes =>
    have hunder : first.underSuffix.level ≤ Precedence.atom.level := by
      unfold Expr.underSuffix
      split <;> decide
    exact ((hfirst.shows hinterior).mono hunder).suffixes hsuffixes
  | list hfirst hg hh hbody hk =>
    have hpercent := (Shows.faint_mark (c := '%') rfl).append hh.shows
    have hitem := (hfirst.shows hinterior).append_plain hg.shows
    have hseparator := (hitem.append_plain hpercent).append_plain (.literal hbody)
    exact (hseparator.append_plain hk.shows).append_plain (ListOp.shows_text _)

theorem Term.shows (h : Term interior t e) : ShowsAt .predicate t e := by
  induction h with
  | ahead hg _ ih =>
    have hmark := (Shows.mark (c := '&') rfl rfl).append hg.shows
    exact hmark.append ih
  | notAhead hg _ ih =>
    have hmark := (Shows.mark (c := '!') rfl rfl).append hg.shows
    exact hmark.append ih
  | operand h => exact (h.shows hinterior).mono (by decide)

theorem Joined.shows (h : Joined interior t e) : ShowsAt .predicate t e := by
  cases h with
  | tilde hg hh hterm =>
    have htilde := (Shows.faint_mark (c := '~') rfl).append hh.shows
    exact (hg.shows.append htilde).faint_append (hterm.shows hinterior)
  | gap hg _ hterm => exact hg.shows.faint_append (hterm.shows hinterior)

theorem Terms.shows (h : Terms interior t e) : ShowsAt .sequence t e := by
  cases h with
  | row hfirst hothers =>
    exact showsAt_together (s := .row) (hfirst.shows hinterior)
      (hothers.shows fun _ _ hjoined => hjoined.shows hinterior)

theorem Barred.shows (h : Barred interior t e) : ShowsAt .sequence t e := by
  cases h with
  | bar hg hh hterms =>
    have hbar := (Shows.faint_mark (c := '|') rfl).append hh.shows
    exact (hg.shows.append hbar).faint_append (hterms.shows hinterior)

theorem Alternatives.shows (h : Alternatives interior t e) : ShowsAt .choice t e := by
  cases h with
  | plain hfirst hothers =>
    exact showsAt_together (s := .choice) (hfirst.shows hinterior)
      (hothers.shows fun _ _ hbarred => hbarred.shows hinterior)
  | barred hg hfirst hothers =>
    have hbar := (Shows.faint_mark (c := '|') rfl).append hg.shows
    exact showsAt_together (s := .choice) (hbar.faint_append (hfirst.shows hinterior))
      (hothers.shows fun _ _ hbarred => hbarred.shows hinterior)

theorem Whole.shows (h : Whole interior t e) : ShowsAt .choice t e := by
  cases h with
  | spaced hg halternatives hh =>
    exact Shows.append_plain (hg.shows.faint_append (halternatives.shows hinterior)) hh.shows

end

/-- A text shows the groups that what it says needs. -/
theorem shows {t : Text} {e : Expr} (h : Says t e) : Shows t e.weight e.needed := by
  have hat : ShowsAt .choice t e :=
    induction (fun _ _ hwhole => hwhole.shows fun _ _ hinside => hinside.2) h
  rwa [ShowsAt, Expr.neededAt, Expr.groupsAt_of_le (Nat.zero_le _)] at hat

end Says
end ExtendedBnf
