import ExtendedBnf.Proofs.Layout

/-!
# Lines from their parts

A line is cut into its parts in one way only, so parts that fit together are the
parts of the line they make. From this the parts of an edited line are known: with
more indentation, with a further comment, or broken in front of a bar.
-/
namespace ExtendedBnf
open Reader (Stops stops_cons stops_dropWhile)

namespace Text
variable {p : Text → Bool} {here : Place} {t before rest : Text} {c : Char}

/-- A cut is made before the first character of code that satisfies the condition. -/
theorem cutCode_append
    (hbefore : ∀ a d b, before = a ++ d :: b →
      ((here.after a).isCode d && p (d :: b ++ c :: rest)) = false)
    (hcode : (here.after before).isCode c) (hcond : p (c :: rest)) :
    cutCode p here (before ++ c :: rest) = some (before, c :: rest) := by
  induction before generalizing here with
  | nil =>
    have hstop := Bool.and_eq_true_iff.2 ⟨hcode, hcond⟩
    rw [Place.after_nil] at hstop
    rw [List.nil_append, cutCode, if_pos hstop]
  | cons d before ih =>
    have hfirst := hbefore [] d before rfl
    rw [Place.after_nil, List.cons_append] at hfirst
    have hmore : cutCode p (here.next d) (before ++ c :: rest) = some (before, c :: rest) :=
      ih (fun a e b h => hbefore (d :: a) e b (congrArg (d :: ·) h)) hcode
    rw [List.cons_append, cutCode, hfirst, if_neg Bool.false_ne_true, hmore]
    rfl

theorem cutCode_eq_none (h : ∀ a d b, t = a ++ d :: b →
    ((here.after a).isCode d && p (d :: b)) = false) : cutCode p here t = none := by
  induction t generalizing here with
  | nil => rfl
  | cons d t ih =>
    have hmore : cutCode p (here.next d) t = none :=
      ih fun a e b ht => h (d :: a) e b (congrArg (d :: ·) ht)
    have hfirst := h [] d t rfl
    rw [Place.after_nil] at hfirst
    rw [cutCode, hfirst, if_neg Bool.false_ne_true, hmore]
    rfl

theorem stops_reverse_dropEndWhile (q : Char → Bool) (t : Text) :
    Stops q (dropEndWhile q t).reverse := by
  rw [dropEndWhile, List.reverse_reverse]
  exact stops_dropWhile q t.reverse

theorem stops_reverse_append {q : Char → Bool} {w t : Text} (hw : ∀ c ∈ w, q c = false)
    (ht : Stops q t.reverse) : Stops q (w ++ t).reverse := by
  intro c hc
  rw [List.reverse_append, List.head?_append, Option.mem_def, Option.or_eq_some_iff] at hc
  obtain hc | ⟨-, hc⟩ := hc
  · exact ht c hc
  · exact hw c (List.mem_reverse.1 (List.mem_of_head? hc))

theorem stops_reverse_append_iff {q : Char → Bool} {w t : Text} (ht : t ≠ []) :
    Stops q (w ++ t).reverse ↔ Stops q t.reverse := by
  obtain ⟨r, c, rfl⟩ := (List.eq_nil_or_concat' t).resolve_left ht
  simp

theorem isBlank_of_afterWord? {word r rest : Text} {c : Char}
    (h : afterWord? (word ++ c :: r) word = some rest) : isBlank c := by
  by_contra hc
  have hprefix : word.isPrefixOf (word ++ c :: r) :=
    List.isPrefixOf_iff_prefix.2 (List.prefix_append word (c :: r))
  rw [afterWord?, if_pos hprefix, List.drop_left] at h
  simp [hc] at h

theorem ofChar?_of_isBlank {c : Char} (h : isBlank c) : Quote.ofChar? c = none := by
  cases hquote : Quote.ofChar? c with
  | none => rfl
  | some quote =>
    rw [Quote.ofChar?_eq_some_iff.1 hquote] at h
    cases quote <;> cases h

theorem after_of_isBlankText {t : Text} (h : t.isBlankText) : Place.code.after t = .code := by
  induction t with
  | nil => rfl
  | cons c t ih =>
    obtain ⟨hc, ht⟩ := Bool.and_eq_true_iff.1 h
    rw [Place.after_cons, Place.next, ofChar?_of_isBlank hc, ih ht]

/-- What a text starts with does not depend on what follows its first ink. -/
theorem isPrefixOf_trimStart_append {t : Text} {c : Char} (h : t.isBlankText = false) (x : Text) :
    [c].isPrefixOf (trimStart (t ++ x)) = [c].isPrefixOf t.trimStart := by
  have hne : t.trimStart ≠ [] := by
    intro hnil
    have hblank : t.isBlankText := List.all_eq_true.2 (List.dropWhile_eq_nil_iff.1 hnil)
    rw [h] at hblank
    cases hblank
  have happend : trimStart (t ++ x) = t.trimStart ++ x := by
    rw [trimStart, List.dropWhile_append, if_neg (by simpa [trimStart] using hne), trimStart]
  obtain ⟨d, r, hstart⟩ := List.exists_cons_of_ne_nil hne
  rw [happend, hstart]
  rfl

/-- A word is found in the same place of a longer text. -/
theorem cutCode_isPrefixOf_append {word t before rest : Text} {here : Place}
    (h : cutCode word.isPrefixOf here t = some (before, rest)) (x : Text) :
    cutCode word.isPrefixOf here (t ++ x) = some (before, rest ++ x) := by
  fun_induction cutCode word.isPrefixOf here t generalizing before with
  | case1 => cases h
  | case2 here c r hstop =>
    cases h
    obtain ⟨hcode, hword⟩ := Bool.and_eq_true_iff.1 hstop
    have hlonger := (List.isPrefixOf_iff_prefix.1 hword).trans (List.prefix_append (c :: r) x)
    have hstop' := Bool.and_eq_true_iff.2 ⟨hcode, List.isPrefixOf_iff_prefix.2 hlonger⟩
    exact if_pos hstop'
  | case3 here c r hstop ih =>
    obtain ⟨cut, hcut, heq⟩ := Option.map_eq_some_iff.1 h
    cases heq
    -- the word is as long as what is left of the text at most, so nothing of `x` is needed for it
    have hshort : word.length ≤ (c :: r).length := by
      have hfound := (List.isPrefixOf_iff_prefix.1 (of_cutCode hcut)).length_le
      rw [← append_eq_of_cutCode hcut, List.length_cons, List.length_append]
      omega
    have hstop' : (here.isCode c && word.isPrefixOf (c :: r ++ x)) = false := by
      refine Bool.eq_false_iff.2 fun hnot => hstop ?_
      obtain ⟨hcode, hword⟩ := Bool.and_eq_true_iff.1 hnot
      refine Bool.and_eq_true_iff.2 ⟨hcode, List.isPrefixOf_iff_prefix.2 ?_⟩
      exact List.prefix_of_prefix_length_le (List.isPrefixOf_iff_prefix.1 hword)
        (List.prefix_append (c :: r) x) hshort
    rw [List.cons_append, cutCode, ← List.cons_append, hstop', if_neg Bool.false_ne_true, ih hcut]
    rfl

/-- A text is made of spaces and tabs. -/
def IsIndent (w : Text) : Prop := ∀ c ∈ w, c = ' ' ∨ c = '\t'

theorem IsIndent.not_isEnding {w : Text} (h : w.IsIndent) :
    ∀ c ∈ w, Line.isEnding c = false := by
  intro c hc
  obtain rfl | rfl := h c hc <;> rfl

end Text

theorem IsGap.isBlankText {g : Text} (h : IsGap g) : g.isBlankText := by
  refine List.all_eq_true.2 fun c hc => ?_
  have hspace := h c hc
  simp only [Reader.isSpace, Bool.or_eq_true, beq_iff_eq] at hspace
  rcases hspace with ((rfl | rfl) | rfl) | rfl <;> rfl

theorem Text.IsIndent.isGap {w : Text} (h : w.IsIndent) : IsGap w := by
  intro c hc
  obtain rfl | rfl := h c hc <;> rfl

namespace Line
variable {line : Line}

theorem code_ne_nil (h : line.hasCode) : line.code ≠ [] := by
  rintro hnil
  simp [hasCode, hnil, Text.isBlankText] at h

/-- A line as it is cut into parts: no blanks are left behind its indentation, and no character of a
line end before its own. -/
structure IsCut (line : Line) : Prop extends line.IsParted where
  start : Stops Text.isBlank (line.marker ++ line.code ++ line.comment)
  last : Stops isEnding (line.indent ++ line.marker ++ line.code ++ line.comment).reverse
  ending : ∀ c ∈ line.ending, isEnding c

theorem isCut_ofText (raw : Text) : (ofText raw).IsCut where
  toIsParted := isParted_ofText raw
  start := by
    simp only [ofText, List.append_assoc, append_cutComment, append_cutMarker]
    exact stops_dropWhile _ _
  last := by
    simp only [ofText, List.append_assoc, append_cutComment, append_cutMarker,
      List.takeWhile_append_dropWhile]
    exact Text.stops_reverse_dropEndWhile _ _
  ending _ hc := List.mem_takeWhile_imp (List.mem_reverse.1 hc)

theorem IsParted.cutComment_eq (h : line.IsParted) :
    cutComment (line.code ++ line.comment) = (line.code, line.comment) := by
  have hcode (r a : Text) (d : Char) (b : Text) (hsplit : line.code = a ++ d :: b) :
      ((Place.code.after a).isCode d && ['#'].isPrefixOf (d :: b ++ r)) = false := by
    by_cases hd : d = '#'
    · subst hd
      rw [h.code a b hsplit, Bool.false_and]
    · simp [List.isPrefixOf, Ne.symm hd]
  cases hcomment : line.comment with
  | nil =>
    have hnone := Text.cutCode_eq_none fun a d b hsplit => by
      have hd := hcode [] a d b hsplit
      rwa [List.append_nil] at hd
    rw [List.append_nil, cutComment, hnone]
    rfl
  | cons c r =>
    obtain ⟨hplace, hhash⟩ := h.comment (by rw [hcomment]; exact List.cons_ne_nil c r)
    rw [hcomment] at hhash
    obtain rfl : '#' = c := by simpa [List.isPrefixOf] using hhash
    rw [cutComment, Text.cutCode_append (hcode ('#' :: r)) (by rw [hplace]; rfl) hhash]
    rfl

/-- Parts that fit together are the parts of their line. -/
theorem IsCut.ofText_source (h : line.IsCut) : ofText line.source = line := by
  have hrest : ∀ c ∈ line.ending.reverse, isEnding c :=
    fun c hc => h.ending c (List.mem_reverse.1 hc)
  have hdrop : line.source.dropEndWhile isEnding =
      line.indent ++ (line.marker ++ line.code ++ line.comment) := by
    rw [source, Text.dropEndWhile, List.reverse_append, Reader.dropWhile_append hrest h.last]
    simp
  have htake : line.source.takeEndWhile isEnding = line.ending := by
    rw [source, Text.takeEndWhile, List.reverse_append, Reader.takeWhile_append hrest h.last,
      List.reverse_reverse]
  have hindent := List.all_eq_true.1 h.indent
  have hmarked : cutMarker (line.marker ++ line.code ++ line.comment) =
      (line.marker, line.code ++ line.comment) := by
    have happend := append_cutMarker (line.marker ++ line.code ++ line.comment)
    rw [← h.marker, List.append_assoc] at happend
    have hbehind := List.append_cancel_left happend
    rw [← List.append_assoc] at hbehind
    exact Prod.ext h.marker.symm hbehind
  rw [ofText, hdrop, htake, Reader.dropWhile_append hindent h.start,
    Reader.takeWhile_append hindent h.start, hmarked]
  dsimp only
  rw [h.cutComment_eq]

/-- A mark is in front of code whatever follows the first character of code. -/
theorem IsParted.cutMarker_eq (h : line.IsParted) {c : Char} {r : Text} (hcode : line.code = c :: r)
    (z : Text) : (cutMarker (line.marker ++ c :: z)).1 = line.marker := by
  have hmarker := h.marker
  rw [hcode, List.append_assoc, List.cons_append] at hmarker
  by_cases hmarked : line.marker = []
  · have hne : '#' ≠ c := by
      rintro rfl
      cases h.code [] r hcode
    have hnone : Text.afterWord? (c :: z) atomicMarker = none := Text.afterWord?_of_ne hne ..
    rw [hmarked, List.nil_append, cutMarker, hnone]
  · unfold cutMarker at hmarker
    split at hmarker
    next rest hrest =>
      rw [hmarker] at hrest
      rw [hmarker, cutMarker, Text.afterWord?_append (Text.isBlank_of_afterWord? hrest)]
    next => exact absurd hmarker hmarked

/-! ## Edited lines -/

namespace IsCut
variable (h : line.IsCut)
include h

theorem indented {w : Text} (hw : w.IsIndent) :
    ({ line with indent := w ++ line.indent } : Line).IsCut where
  indent := Text.isBlankText_append.2 ⟨hw.isGap.isBlankText, h.indent⟩
  marker := h.marker
  code := h.code
  comment := h.comment
  start := h.start
  last := by
    have hlast := Text.stops_reverse_append hw.not_isEnding h.last
    simpa only [List.append_assoc] using hlast
  ending := h.ending

variable {c : Char} {r : Text} (hcode : line.code = c :: r)
include hcode

theorem stops_code (z : Text) : Stops Text.isBlank (line.marker ++ c :: z) := by
  have hstart := h.start
  rw [hcode] at hstart
  intro d hd
  refine hstart d ?_
  cases hmarker : line.marker <;> rw [hmarker] at hd <;> exact hd

/-- A comment may follow the code where no literal is open. -/
theorem commented (hclosed : Place.code.after line.code = .code) {x note e : Text}
    (hx : x.isBlankText) (hlast : Stops isEnding ('#' :: note).reverse) (he : ∀ c ∈ e, isEnding c) :
    (⟨line.indent, line.marker, line.code ++ x, '#' :: note, e⟩ : Line).IsCut where
  indent := h.indent
  marker := by
    simp only [hcode, List.cons_append, List.append_assoc]
    exact (h.cutMarker_eq hcode _).symm
  code a b hsplit := by
    have hhash : '#' ∉ x := fun hmem => Bool.false_ne_true (List.all_eq_true.1 hx '#' hmem)
    obtain ⟨z, rfl, hz⟩ | ⟨z, hz, hrest⟩ := List.append_eq_append_iff.1 hsplit
    · exact absurd (hz ▸ List.mem_append_right z List.mem_cons_self) hhash
    · cases z with
      | nil => exact absurd (List.nil_append x ▸ hrest ▸ List.mem_cons_self) hhash
      | cons d z =>
        obtain ⟨rfl, -⟩ := List.cons.inj hrest
        exact h.code a z hz
  comment _ := by
    rw [Place.after_append, hclosed, Text.after_of_isBlankText hx]
    exact ⟨rfl, rfl⟩
  start := by
    simp only [hcode, List.cons_append, List.append_assoc]
    exact h.stops_code hcode _
  last := (Text.stops_reverse_append_iff (List.cons_ne_nil _ _)).2 hlast
  ending := he

/-- A comment may get longer. -/
theorem recommented (hcomment : line.comment ≠ []) {note e : Text}
    (hlast : Stops isEnding (line.comment ++ note).reverse) (he : ∀ c ∈ e, isEnding c) :
    ({ line with comment := line.comment ++ note, ending := e } : Line).IsCut where
  indent := h.indent
  marker := by
    simp only [hcode, List.cons_append, List.append_assoc]
    exact (h.cutMarker_eq hcode _).symm
  code := h.code
  comment _ := by
    obtain ⟨hplace, hhash⟩ := h.comment hcomment
    obtain ⟨k, hk⟩ := List.isPrefixOf_iff_prefix.1 hhash
    refine ⟨hplace, List.isPrefixOf_iff_prefix.2 ⟨k ++ note, ?_⟩⟩
    rw [← List.append_assoc, hk]
  start := by
    simp only [hcode, List.cons_append, List.append_assoc]
    exact h.stops_code hcode _
  last := by
    refine (Text.stops_reverse_append_iff ?_).2 hlast
    exact fun hnil => hcomment (List.append_eq_nil_iff.1 hnil).1
  ending := he

end IsCut

theorem isGap_of_isEnding {e : Text} (he : ∀ c ∈ e, isEnding c) : IsGap e := by
  intro c hc
  have hending := he c hc
  simp only [isEnding, Bool.or_eq_true, beq_iff_eq] at hending
  rcases hending with rfl | rfl <;> rfl

/-- The characters of a line end that a text ends with belong to the end of the line. -/
theorem IsCut.exists_ending (h : line.IsCut) {u e : Text} (hsource : line.source = u ++ e)
    (he : ∀ c ∈ e, isEnding c) : ∃ r, line.ending = r ++ e ∧
      u = line.indent ++ line.marker ++ line.code ++ line.comment ++ r := by
  obtain ⟨r, hu, hending⟩ | ⟨z, hcontent, hz⟩ := List.append_eq_append_iff.1 hsource
  · exact ⟨r, hending, hu⟩
  · obtain rfl | ⟨z, d, rfl⟩ := List.eq_nil_or_concat' z
    · exact ⟨[], hz.symm, by simpa using hcontent.symm⟩
    · have hlast := h.last
      rw [hcontent, ← List.append_assoc, List.reverse_append] at hlast
      have hd := he d (by simp [hz])
      rw [hlast d rfl] at hd
      cases hd

/-- A line with a further comment has its code as it was, with white space behind it perhaps, and
all that is put in behind the code. -/
theorem IsCut.exists_ofText_noted (h : line.IsCut) {u e w : Text} (note : Text)
    (hcode : line.hasCode) (hclosed : Place.code.after line.code = .code)
    (hsource : line.source = u ++ e) (he : ∀ c ∈ e, isEnding c) (hw : w.IsIndent) :
    ∃ x k f, ofText (u ++ w ++ '#' :: note ++ e) =
        ⟨line.indent, line.marker, line.code ++ x, k, f⟩ ∧
      IsGap x ∧ (∀ c ∈ f, isEnding c) ∧
      line.comment.size + line.ending.length ≤ x.length + k.size + f.length := by
  obtain ⟨r, hending, rfl⟩ := h.exists_ending hsource he
  have hr : ∀ c ∈ r, isEnding c := fun c hc =>
    h.ending c (hending ▸ List.mem_append_left e hc)
  obtain ⟨c, t, hline⟩ := List.exists_cons_of_ne_nil (code_ne_nil hcode)
  -- the further comment up to the end of the line
  let k := Text.dropEndWhile isEnding ('#' :: note ++ e)
  let f := Text.takeEndWhile isEnding ('#' :: note ++ e)
  have hsplit : '#' :: note ++ e = k ++ f := (Text.dropEndWhile_append_takeEndWhile ..).symm
  have hf : ∀ c ∈ f, isEnding c := fun c hc => List.mem_takeWhile_imp (List.mem_reverse.1 hc)
  have hk : Stops isEnding k.reverse := Text.stops_reverse_dropEndWhile _ _
  clear_value k f
  obtain ⟨m, rfl⟩ : ∃ m, k = '#' :: m := by
    cases k with
    | nil =>
      rw [List.nil_append] at hsplit
      cases hf '#' (hsplit ▸ List.mem_cons_self)
    | cons d m =>
      obtain ⟨rfl, -⟩ := List.cons.inj hsplit
      exact ⟨m, rfl⟩
  have hsize : e.length ≤ Text.size ('#' :: m) + f.length := by
    have hlength := congrArg List.length hsplit
    have hbytes := Text.length_le_size ('#' :: m)
    simp only [List.cons_append, List.length_cons, List.length_append] at hlength hbytes ⊢
    omega
  have hgap : IsGap (r ++ w) := (isGap_of_isEnding hr).append hw.isGap
  by_cases hcomment : line.comment = []
  · have hcut := h.commented hline hclosed hgap.isBlankText hk hf
    refine ⟨r ++ w, '#' :: m, f, ?_, hgap, hf, ?_⟩
    · rw [← hcut.ofText_source, source, hcomment]
      simp [← hsplit]
    · rw [hcomment, hending]
      simp only [List.length_append, Text.size_nil]
      omega
  · have hlast : Stops isEnding (line.comment ++ (r ++ w ++ '#' :: m)).reverse := by
      rw [← List.append_assoc]
      exact (Text.stops_reverse_append_iff (List.cons_ne_nil _ _)).2 hk
    have hcut := h.recommented hline hcomment hlast hf
    refine ⟨[], line.comment ++ (r ++ w ++ '#' :: m), f, ?_, isGap_nil, hf, ?_⟩
    · rw [List.append_nil, ← hcut.ofText_source, source]
      simp [← hsplit]
    · have hbytes := Text.length_le_size r
      rw [hending]
      simp only [List.length_append, List.length_nil, Text.size_append]
      omega

/-- The characters of a line end are at the end of a text that is not blank. -/
theorem exists_ended_front {x : Text} (hx : x.isBlankText = false) :
    ∃ z r, x = z ++ r ∧ z.isBlankText = false ∧ Stops isEnding z.reverse ∧
      ∀ c ∈ r, isEnding c := by
  have hparts := Text.dropEndWhile_append_takeEndWhile isEnding x
  have hr : ∀ c ∈ x.takeEndWhile isEnding, isEnding c :=
    fun c hc => List.mem_takeWhile_imp (List.mem_reverse.1 hc)
  refine ⟨_, _, hparts.symm, ?_, Text.stops_reverse_dropEndWhile _ _, hr⟩
  have hblank := (isGap_of_isEnding hr).isBlankText
  rw [← hparts] at hx
  simp only [Text.isBlankText, List.all_append] at hx hblank ⊢
  rwa [hblank, Bool.and_true] at hx

/-- What is in front of a break is a line with its mark. -/
theorem IsCut.front (h : line.IsCut) {x y e : Text} (hsplit : line.code = x ++ y) (hne : x ≠ [])
    (hlast : Stops isEnding x.reverse) (he : ∀ c ∈ e, isEnding c) :
    (⟨line.indent, line.marker, x, [], e⟩ : Line).IsCut := by
  obtain ⟨c, t, rfl⟩ := List.exists_cons_of_ne_nil hne
  refine ⟨⟨h.indent, ?_, fun a b ha => ?_, fun hnil => absurd rfl hnil⟩, ?_, ?_, he⟩
  · simp only [List.append_assoc, List.cons_append]
    exact (h.cutMarker_eq hsplit _).symm
  · refine h.code a (b ++ y) ?_
    rw [hsplit, show c :: t = a ++ '#' :: b from ha, List.append_assoc, List.cons_append]
  · simp only [List.append_assoc, List.cons_append]
    exact h.stops_code hsplit _
  · rw [List.append_nil, Text.stops_reverse_append_iff hne]
    exact hlast

/-- What is behind a break in front of a bar is a line without a mark. -/
theorem IsCut.back (h : line.IsCut) {x y w : Text} (hsplit : line.code = x ++ '|' :: y)
    (hplace : Place.code.after x = .code) (hw : w.IsIndent) :
    (⟨w, [], '|' :: y, line.comment, line.ending⟩ : Line).IsCut := by
  have hnonempty (t : Text) : '|' :: y ++ t ≠ [] := List.cons_ne_nil _ _
  refine ⟨⟨hw.isGap.isBlankText, ?_, fun a b ha => ?_, fun hcomment => ?_⟩, ?_, ?_, h.ending⟩
  · have hnone : Text.afterWord? ('|' :: (y ++ line.comment)) atomicMarker = none :=
      Text.afterWord?_of_ne (by decide) ..
    rw [List.nil_append, List.cons_append, cutMarker, hnone]
  · have hbar : line.code = x ++ a ++ '#' :: b := by
      rw [hsplit, show '|' :: y = a ++ '#' :: b from ha, List.append_assoc]
    have hhash := h.code (x ++ a) b hbar
    rwa [Place.after_append, hplace] at hhash
  · have hafter := h.comment hcomment
    rwa [hsplit, Place.after_append, hplace] at hafter
  · exact stops_cons.2 rfl
  · have hlast := h.last
    rw [hsplit, ← List.append_assoc, List.append_assoc _ ('|' :: y),
      Text.stops_reverse_append_iff (hnonempty _)] at hlast
    rw [List.append_nil, List.append_assoc, Text.stops_reverse_append_iff (hnonempty _)]
    exact hlast

/-- A line that is broken in front of a bar goes on behind the break with what was left of it. -/
theorem IsCut.ofText_broken (h : line.IsCut) {x r y w : Text}
    (hsplit : line.code = x ++ r ++ '|' :: y) (hne : x ≠ []) (hlast : Stops isEnding x.reverse)
    (hr : ∀ c ∈ r, isEnding c) (hplace : Place.code.after (x ++ r) = .code) (hw : w.IsIndent) :
    ofText (line.indent ++ line.marker ++ (x ++ r) ++ ['\n']) =
        ⟨line.indent, line.marker, x, [], r ++ ['\n']⟩ ∧
      ofText (w ++ '|' :: y ++ line.comment ++ line.ending) =
        ⟨w, [], '|' :: y, line.comment, line.ending⟩ := by
  have hending : ∀ c ∈ r ++ ['\n'], isEnding c :=
    List.forall_mem_append.2 ⟨hr, List.forall_mem_singleton.2 rfl⟩
  have hfront := h.front (hsplit.trans (List.append_assoc ..)) hne hlast hending
  have hback := h.back hsplit hplace hw
  constructor
  · rw [← hfront.ofText_source]
    simp [source]
  · rw [← hback.ofText_source]
    simp [source]

end Line
end ExtendedBnf
