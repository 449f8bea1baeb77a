import ExtendedBnf.Proofs.Layout
import ExtendedBnf.Proofs.ReadGrammars
import ExtendedBnf.Proofs.TreeLiterals

/-!
# Literals in the source

Quotes are read afresh on each line, and a body is read over its lines. So where a
literal stays on one line the source has it just as it is in the tree. A literal that
goes over a line feed may have lost the indentation, a mark and comments of its
further lines: there it has a space for each of their bytes.
-/
namespace ExtendedBnf
open Reader (Starts starts_cons)

namespace Text

/-- The text stands in the source at the byte. -/
def StandsAt (source t : Text) (offset : Nat) : Prop :=
  ∃ rest, source.dropBytes? offset = some (t ++ rest)

theorem standsAt_append (s t r : Text) : StandsAt (s ++ t ++ r) t s.size :=
  ⟨r, by rw [List.append_assoc, dropBytes?_size_append]⟩

/-- The second text is the first one with spaces in place of some characters, one for each byte. -/
inductive Blanks : Text → Text → Prop
  | nil : Blanks [] []
  | keep (c : Char) {s t : Text} : Blanks s t → Blanks (c :: s) (c :: t)
  | blank (c : Char) {s t : Text} : Blanks s t → Blanks (c :: s) (spaces [c] ++ t)

theorem ne_space_of_isInk {c : Char} (h : isInk c) : c != ' ' := by
  rw [bne_iff_ne]
  rintro rfl
  cases h

namespace Blanks
variable {s t u v : Text}

theorem refl (t : Text) : Blanks t t := by
  induction t with
  | nil => exact .nil
  | cons c r ih => exact .keep c ih

theorem spaces (t : Text) : Blanks t (Text.spaces t) := by
  induction t with
  | nil => exact .nil
  | cons c r ih =>
    have hspaces : Text.spaces (c :: r) = Text.spaces [c] ++ Text.spaces r := by
      rw [Text.spaces, size_cons, ← List.replicate_append_replicate]
      rfl
    rw [hspaces]
    exact .blank c ih

theorem append (h : Blanks s t) (h' : Blanks u v) : Blanks (s ++ u) (t ++ v) := by
  induction h with
  | nil => exact h'
  | keep c _ ih => exact .keep c ih
  | blank c _ ih =>
    rw [List.append_assoc]
    exact .blank c ih

theorem size_eq (h : Blanks s t) : t.size = s.size := by
  induction h with
  | nil => rfl
  | keep c _ ih => rw [size_cons, size_cons, ih]
  | blank c _ ih =>
    rw [size_append, size_spaces, ih]
    simp

/-- What does not start with a space comes from a part of its own. -/
theorem exists_of_append (h : Blanks s (t ++ u)) (hu : Starts (· != ' ') u) :
    ∃ a b, s = a ++ b ∧ Blanks a t ∧ Blanks b u := by
  generalize htu : t ++ u = w at h
  induction h generalizing t with
  | nil =>
    obtain ⟨c, r, rfl, -⟩ := hu.exists_eq_cons
    cases t <;> cases htu
  | @keep c s w hw ih =>
    cases t with
    | nil =>
      obtain rfl : u = c :: w := htu
      exact ⟨[], c :: s, rfl, .nil, .keep c hw⟩
    | cons d t =>
      obtain ⟨rfl, htail⟩ := List.cons.inj htu
      obtain ⟨a, b, rfl, ha, hb⟩ := ih htail
      exact ⟨d :: a, b, rfl, .keep d ha, hb⟩
  | @blank c s w hw ih =>
    obtain ⟨x, hspaces, hrest⟩ | ⟨x, rfl, hrest⟩ := List.append_eq_append_iff.1 htu
    · -- the second part starts with no space, so the spaces all belong to the first part
      obtain rfl : x = [] := by
        cases x with
        | nil => rfl
        | cons d x =>
          rw [hrest] at hu
          have hd : d ∈ Text.spaces [c] := hspaces ▸ List.mem_append_right t List.mem_cons_self
          rw [List.eq_of_mem_replicate hd] at hu
          exact absurd (starts_cons.1 hu) (by decide)
      rw [List.append_nil] at hspaces
      refine ⟨[c], s, rfl, ?_, hrest ▸ hw⟩
      rw [← hspaces]
      exact spaces [c]
    · obtain ⟨a, b, rfl, ha, hb⟩ := ih hrest.symm
      exact ⟨c :: a, b, rfl, .blank c ha, hb⟩

/-- So does a text that ends with ink, whatever follows. -/
theorem exists_of_ends (h : Blanks s (t ++ u)) (ht : Ends isInk t) :
    ∃ a b, s = a ++ b ∧ Blanks a t ∧ Blanks b u := by
  obtain ⟨r, c, rfl, hc⟩ := ht.exists_eq_concat
  rw [List.append_assoc] at h
  obtain ⟨a, b, rfl, ha, hb⟩ := h.exists_of_append (starts_cons.2 (ne_space_of_isInk hc))
  generalize hw : [c] ++ u = w at hb
  cases hb with
  | nil => cases hw
  | @keep d s w hrest =>
    obtain ⟨rfl, rfl⟩ := List.cons.inj hw
    exact ⟨a ++ [c], s, by simp, ha.append (refl [c]), hrest⟩
  | @blank d s w =>
    obtain ⟨n, hn⟩ : ∃ n, d.utf8Size = n + 1 := ⟨d.utf8Size - 1, by have := d.utf8Size_pos; omega⟩
    have hspaces : Text.spaces [d] = ' ' :: List.replicate n ' ' := by
      rw [Text.spaces, size_cons, size_nil, hn]
      rfl
    rw [hspaces] at hw
    rw [(List.cons.inj hw).1] at hc
    cases hc

end Blanks

/-- A line has spaces in place of all but its code and its end. -/
theorem blanks_line (raw : Text) : Blanks raw (Line.ofText raw).blanked := by
  have hparts : Blanks (Line.ofText raw).source (Line.ofText raw).blanked :=
    (((((Blanks.spaces _).append (Blanks.spaces _)).append (Blanks.refl _)).append
      (Blanks.spaces _)).append (Blanks.refl _))
  rwa [Line.source_ofText] at hparts

/-- The blanked source has a space for each byte that is not code. -/
theorem blanks_blanked (source : Text) : Blanks source source.blanked := by
  have hlines (lines : List Text) :
      Blanks lines.flatten (lines.flatMap fun raw => (Line.ofText raw).blanked) := by
    induction lines with
    | nil => exact .nil
    | cons raw lines ih => exact (blanks_line raw).append ih
  have hall := hlines source.lines
  rwa [flatten_lines] at hall

end Text

/-! ## Texts on one line -/

/-- What is blanked of a line has no ink. -/
theorem Line.exists_of_blanked_eq {raw a b t : Text} (hstart : Starts Text.isInk t)
    (hend : Text.Ends Text.isInk t) (h : (ofText raw).blanked = a ++ t ++ b) :
    ∃ u v, raw = u ++ t ++ v ∧ u.size = a.size := by
  have hfront : ((ofText raw).indent.spaces ++ (ofText raw).marker.spaces).isBlankText :=
    Text.isBlankText_append.2 ⟨Text.isBlankText_spaces _, Text.isBlankText_spaces _⟩
  have hback : ((ofText raw).comment.spaces ++ (ofText raw).ending).isBlankText :=
    Text.isBlankText_append.2 ⟨Text.isBlankText_spaces _, isBlankText_ending raw⟩
  have hparts : (ofText raw).indent.spaces ++ (ofText raw).marker.spaces ++
      ((ofText raw).code ++ ((ofText raw).comment.spaces ++ (ofText raw).ending)) =
        a ++ (t ++ b) := by
    simpa [blanked] using h
  obtain ⟨x, hmiddle, rfl⟩ := Text.exists_of_blank_append (hstart.append b) hfront hparts
  have hends : Text.Ends Text.isInk (x ++ t) := hend.append x
  obtain ⟨y, hcode, rfl⟩ :=
    Text.exists_of_append_blank hends hback (hmiddle.trans (List.append_assoc ..).symm)
  refine ⟨(ofText raw).indent ++ (ofText raw).marker ++ x,
    y ++ (ofText raw).comment ++ (ofText raw).ending, ?_, by simp⟩
  have hsource := source_ofText raw
  rw [source, hcode] at hsource
  simpa using hsource.symm

namespace Text

theorem blanked_append {l : Text} (h : '\n' ∉ l) (t : Text) :
    blanked (l ++ '\n' :: t) = (Line.ofText (l ++ ['\n'])).blanked ++ blanked t := by
  rw [blanked, lines_append h, List.flatMap_cons]
  rfl

theorem ends_blanked (l : Text) :
    ∃ r, (Line.ofText (l ++ ['\n'])).blanked = r ++ ['\n'] :=
  ⟨_, by rw [Line.blanked, Line.ending_append_feed, ← List.append_assoc]⟩

/-- A text without a line feed that is bounded by ink is in the source as in the blanked source. -/
theorem exists_of_blanked_eq {source a b t : Text} (hstart : Starts isInk t) (hend : Ends isInk t)
    (hfeed : '\n' ∉ t) (h : source.blanked = a ++ t ++ b) :
    ∃ u v, source = u ++ t ++ v ∧ u.size = a.size := by
  induction source using lines_induction generalizing a b with
  | nil =>
    obtain ⟨c, r, rfl, -⟩ := hstart.exists_eq_cons
    cases a <;> cases h
  | last l hne hl =>
    rw [blanked, lines_of_notMem hne hl, List.flatMap_singleton] at h
    exact Line.exists_of_blanked_eq hstart hend h
  | line l r hl ih =>
    rw [blanked_append hl, List.append_assoc] at h
    have hrest {x y : Text} (hx : r.blanked = x ++ t ++ y)
        (ha : a = (Line.ofText (l ++ ['\n'])).blanked ++ x) :
        ∃ u v, l ++ '\n' :: r = u ++ t ++ v ∧ u.size = a.size := by
      obtain ⟨u, v, rfl, hsize⟩ := ih hx
      exact ⟨l ++ ['\n'] ++ u, v, by simp, by simp [ha, hsize, Nat.add_assoc]⟩
    obtain ⟨x, ha, hx⟩ | ⟨x, hline, hx⟩ := List.append_eq_append_iff.1 h
    · exact hrest (by simpa using hx) ha
    · obtain ⟨y, rfl, -⟩ | ⟨y, ht, hy⟩ := List.append_eq_append_iff.1 hx
      · obtain ⟨u, v, hl, hsize⟩ :=
          Line.exists_of_blanked_eq hstart hend (hline.trans (List.append_assoc ..).symm)
        exact ⟨u, v ++ r, by simpa using congrArg (· ++ r) hl, hsize⟩
      · -- the text has no line feed, so nothing of it is at the end of the line
        obtain ⟨z, hz⟩ := ends_blanked l
        obtain rfl | ⟨w, c, rfl⟩ := List.eq_nil_or_concat' x
        · exact hrest (x := []) (by simpa [ht] using hy) (by simpa using hline.symm)
        · rw [hz, ← List.append_assoc] at hline
          obtain rfl : '\n' = c := List.singleton_inj.1 (List.append_inj_right' hline rfl)
          exact absurd (by simp [ht]) hfeed

end Text

/-- Where the blanked source has a literal, the source has it up to spaces, and as it is if it does
not go over a line feed. -/
theorem Literal.exists_standsAt {source a b : Text} {l : Literal}
    (h : source.blanked = a ++ l.text ++ b) :
    ∃ w, source.StandsAt w a.size ∧ w.Blanks l.text ∧ ('\n' ∉ l.body → w = l.text) := by
  have htight := Text.IsTight.of_literal l
  by_cases hfeed : '\n' ∈ l.body
  · have hblanks := Text.blanks_blanked source
    rw [h, List.append_assoc] at hblanks
    obtain ⟨u, v, rfl, hu, hv⟩ := hblanks.exists_of_append
      ((htight.ink.append b).imp fun _ => Text.ne_space_of_isInk)
    obtain ⟨w, v, rfl, hw, -⟩ := hv.exists_of_ends htight.ends
    refine ⟨w, ?_, hw, fun hnone => absurd hfeed hnone⟩
    rw [hu.size_eq, ← List.append_assoc]
    exact Text.standsAt_append u w v
  · have hquote : '\n' ≠ l.quote.char := by cases l.quote <;> decide
    have htext : '\n' ∉ l.text := by simp [Literal.text, hquote, hfeed]
    obtain ⟨u, v, rfl, hsize⟩ := Text.exists_of_blanked_eq htight.ink htight.ends htext h
    rw [← hsize]
    exact ⟨l.text, Text.standsAt_append u l.text v, .refl l.text, fun _ => rfl⟩

namespace Grammar

/-- Each literal of a grammar that is read stands in the source where the text of its rule has it,
with spaces for some of its bytes at most. One that does not go over a line feed stands there as it
is. -/
theorem literals_stand_in_source {source : Text} {g : Grammar} (h : ofText source = .ok g) :
    ∃ o, Outline.ofText source = .ok o ∧
      List.Forall₂ (fun d r => d.name = r.name ∧
        ∀ ks l ls, r.body.literals = ks ++ l :: ls → ∃ u v w, d.body = u ++ l.text ++ v ∧
          HasLiterals u ks ∧ source.StandsAt w (d.bodyOffset + u.size) ∧ w.Blanks l.text ∧
            ('\n' ∉ l.body → w = l.text)) o.definitions g.rules := by
  obtain ⟨o, houtline, hreads⟩ := ofText_eq_ok_iff_reads.1 h
  have hlaid := Outline.laidOut_blanked houtline
  refine ⟨o, houtline, List.forall₂_iff_get.2 ⟨hreads.rules.length_eq, fun i hd hr => ?_⟩⟩
  have hrule := hreads.rules.get hd hr
  obtain ⟨a, b, hblanked, hoffset⟩ := hlaid.exists_body (List.get_mem o.definitions ⟨i, hd⟩)
  refine ⟨hrule.name, fun ks l ls hsplit => ?_⟩
  have hbody := hrule.says.hasLiterals
  rw [hsplit] at hbody
  obtain ⟨u, v, hu, hks⟩ := hbody.exists_of_append
  have hplace : source.blanked = a ++ u ++ l.text ++ (v ++ b) := by
    rw [hblanked, hu]
    simp
  obtain ⟨w, hstands, hblanks, hline⟩ := Literal.exists_standsAt hplace
  rw [Text.size_append, ← hoffset] at hstands
  exact ⟨u, v, w, hu, hks, hstands, hblanks, hline⟩

/-- A `#` in a literal, a quote in a comment and characters of two bytes do not matter. -/
theorem literals_stand_in_source_hash :
    let hash : Literal := ⟨"é#".toList, .double⟩
    let comma : Literal := ⟨[','], .single⟩
    let body : Expr := .alt [.literal hash, .list (.name ['a']) comma ⟨true, false⟩]
    let source : Text := "# é\n #atomic a ::= \"é#\" | a % ',' + # '\n".toList
    ofText source = .ok ⟨[⟨['a'], body, true⟩], none⟩ ∧
      source.StandsAt hash.text 20 ∧ source.StandsAt comma.text 32 := by
  intro hash comma body source
  let g : Grammar := ⟨[⟨['a'], body, true⟩], none⟩
  let d : Definition := ⟨['a'], 14, ' ' :: body.text, 19, true⟩
  have hg : g.WellFormed :=
    ⟨List.forall_mem_singleton.2 ⟨by decide, by decide, by decide, by decide⟩, by decide, nofun⟩
  have houtline : Outline.ofText source = .ok ⟨[d], none⟩ := rfl
  have hread : ofText source = .ok g :=
    ofText_of_defines hg houtline (.cons ⟨rfl, rfl, rfl⟩ .nil) rfl
  obtain ⟨o, ho, hall⟩ := literals_stand_in_source hread
  obtain rfl := Except.ok.inj (houtline.symm.trans ho)
  obtain ⟨-, hplaces⟩ := (List.forall₂_cons.1 hall).1
  -- the place of a literal is known from what stands before it
  have hplace {u v w : Text} {ks ls : List Literal} {l : Literal} (hks : HasLiterals u ks)
      (hbody : d.body = u ++ l.text ++ v) (hsplit : body.literals = ks ++ l :: ls)
      (hline : '\n' ∉ l.body) : source.StandsAt l.text (d.bodyOffset + u.size) := by
    obtain ⟨u', v', w, hu, hks', hstands, -, hw⟩ := hplaces ks l ls hsplit
    rw [hks.append_inj hks' (hbody.symm.trans hu), ← hw hline]
    exact hstands
  have hgap : HasLiterals [' '] [] := .char rfl .nil
  have hbody : IsBody '\\' '"' hash.body :=
    .plain (by decide) (by decide) (.plain (by decide) (by decide) .nil)
  have hfront : HasLiterals ([' '] ++ (hash.text ++ " | a % ".toList)) [hash] :=
    hgap.append (.literal hbody (.of_forall (List.all_eq_true.1 (by decide))))
  exact ⟨hread, hplace hgap (v := " | a % ',' +".toList) (w := []) (by decide) rfl (by decide),
    hplace hfront (v := " +".toList) (w := []) (by decide) rfl (by decide)⟩

/-- The `#` of the second line is in the literal, but no quote is open on its line. -/
theorem literals_stand_in_source_over_lines :
    let l : Literal := ⟨"x\n|   \n| z".toList, .single⟩
    let source : Text := "a ::= 'x\n| #y\n| z'\n".toList
    ofText source = .ok ⟨[⟨['a'], .literal l, false⟩], none⟩ ∧
      Outline.ofText source = .ok ⟨[⟨['a'], 0, ' ' :: l.text, 5, false⟩], none⟩ ∧
      source.StandsAt "'x\n| #y\n| z'".toList 6 ∧ ¬ source.StandsAt l.text 6 := by
  intro l source
  have houtline : Outline.ofText source = .ok ⟨[⟨['a'], 0, ' ' :: l.text, 5, false⟩], none⟩ := rfl
  have hbody : IsBody '\\' '\x27' l.body := by
    have hall : l.body.all fun c => c != '\\' && c != '\x27' := by decide
    exact .of_forall fun c hc => by simpa using List.all_eq_true.1 hall c hc
  have hsays : Says (' ' :: l.text) (.literal l) := by
    have hprintable : (Expr.literal l).Printable :=
      (Expr.all_leaf rfl).2 (Literal.isWhole_iff.2 hbody)
    have hsays := Says.gap isGap_space (Expr.atLevel_text hprintable).meaning
    rwa [Expr.spliced_eq_self ((Expr.all_leaf rfl).2 rfl)] at hsays
  have hsource : source = "a ::= ".toList ++ "'x\n| #y\n| z'".toList ++ ['\n'] := rfl
  refine ⟨ofText_eq_ok_iff_reads.2 ⟨_, houtline, ?_⟩, houtline, ?_, ?_⟩
  · exact ⟨.cons ⟨rfl, Expr.ofText_of_meaning hsays, rfl⟩ .nil, by decide, rfl, nofun⟩
  · rw [hsource]
    exact Text.standsAt_append ..
  · rintro ⟨rest, hrest⟩
    have hdrop : source.dropBytes? 6 = some "'x\n| #y\n| z'\n".toList := by decide
    rw [hdrop] at hrest
    have hprefix := List.isPrefixOf_iff_prefix.2 ⟨rest, (Option.some.inj hrest).symm⟩
    revert hprefix
    decide

end Grammar
end ExtendedBnf
