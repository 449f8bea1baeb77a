import ExtendedBnf.Grammar
import ExtendedBnf.Proofs.Pieces

/-!
# The lines of a written grammar

A written grammar has a line for its start symbol and one for each rule. Cut into
its parts again, the line of a rule is its mark and otherwise code, and the line of
the start symbol is a comment. This holds for all bodies whose literals stay on one
line, since a `#` or a `::=` in a literal is not code.
-/
namespace ExtendedBnf
open Reader (Starts Stops starts_cons)

namespace Text

/-- A line feed ends a line. -/
theorem lines_append {l : Text} (h : '\n' ∉ l) (t : Text) :
    lines (l ++ '\n' :: t) = (l ++ ['\n']) :: lines t := by
  induction l with
  | nil => rfl
  | cons c l ih =>
    have hc : c ≠ '\n' := fun heq => h (heq ▸ List.mem_cons_self)
    have hl : '\n' ∉ l := fun hmem => h (List.mem_cons_of_mem c hmem)
    rw [List.cons_append, lines, if_neg hc, ih hl]
    rfl

theorem lines_of_notMem {l : Text} (hne : l ≠ []) (h : '\n' ∉ l) : lines l = [l] := by
  induction l with
  | nil => exact absurd rfl hne
  | cons c l ih =>
    have hc : c ≠ '\n' := fun heq => h (heq ▸ List.mem_cons_self)
    rw [lines, if_neg hc]
    by_cases hl : l = []
    · rw [hl, lines]
    · rw [ih hl fun hmem => h (List.mem_cons_of_mem c hmem)]

/-- Induction on the lines, of which the last one may have no line feed. -/
theorem lines_induction {motive : Text → Prop} (nil : motive [])
    (last : ∀ l, l ≠ [] → '\n' ∉ l → motive l)
    (line : ∀ l t, '\n' ∉ l → motive t → motive (l ++ '\n' :: t)) (t : Text) : motive t := by
  by_cases hfeed : '\n' ∈ t
  · obtain ⟨l, r, heq, hl⟩ := List.eq_append_cons_of_mem hfeed
    have hless : r.length < t.length := by
      rw [heq, List.length_append, List.length_cons]
      omega
    rw [heq]
    exact line l r hl (lines_induction nil last line r)
  · by_cases hne : t = []
    · exact hne ▸ nil
    · exact last t hne hfeed
termination_by t.length

theorem lines_flatMap {α : Type} {line : α → Text} {as : List α} (h : ∀ a ∈ as, '\n' ∉ line a) :
    lines (as.flatMap fun a => line a ++ ['\n']) = as.map fun a => line a ++ ['\n'] := by
  induction as with
  | nil => rfl
  | cons a as ih =>
    have hrest := ih fun b hb => h b (List.mem_cons_of_mem a hb)
    rw [List.flatMap_cons, List.append_assoc, List.singleton_append,
      lines_append (h a List.mem_cons_self), hrest, List.map_cons]

section
variable {p : Char → Bool} {t w : Text} (ht : Ends (fun c => !p c) t) (hw : ∀ c ∈ w, p c)
include ht hw

theorem dropEndWhile_append : dropEndWhile p (t ++ w) = t := by
  have hstops : Stops p t.reverse := Starts.stops ht fun c hc => by simpa using hc
  have hall : ∀ c ∈ w.reverse, p c := fun c hc => hw c (List.mem_reverse.1 hc)
  rw [dropEndWhile, List.reverse_append, Reader.dropWhile_append hall hstops, List.reverse_reverse]

theorem takeEndWhile_append : takeEndWhile p (t ++ w) = w := by
  have hstops : Stops p t.reverse := Starts.stops ht fun c hc => by simpa using hc
  have hall : ∀ c ∈ w.reverse, p c := fun c hc => hw c (List.mem_reverse.1 hc)
  rw [takeEndWhile, List.reverse_append, Reader.takeWhile_append hall hstops, List.reverse_reverse]

end

theorem Ends.imp {p q : Char → Bool} {t : Text} (h : Ends p t) (hpq : ∀ c, p c → q c) :
    Ends q t := Starts.imp h hpq

theorem trimEnd_of_ends {t : Text} (h : Ends isInk t) : t.trimEnd = t := by
  have hdrop := dropEndWhile_append (p := isBlank) h (w := []) (by simp)
  rwa [List.append_nil] at hdrop

theorem takeWhile_isBlank {t : Text} (h : Starts isInk t) : t.takeWhile isBlank = [] := by
  obtain ⟨c, r, rfl, hc⟩ := h.exists_eq_cons
  have hblank : isBlank c = false := by simpa [isInk] using hc
  rw [List.takeWhile_cons_of_neg (by simp [hblank])]

/-- What follows a word is found after it if it starts with a blank. -/
theorem afterWord?_append {c : Char} (hc : isBlank c) (word r : Text) :
    afterWord? (word ++ c :: r) word = some (c :: r) := by
  have hprefix : word.isPrefixOf (word ++ c :: r) :=
    List.isPrefixOf_iff_prefix.2 (List.prefix_append word (c :: r))
  rw [afterWord?, if_pos hprefix, List.drop_left]
  simp [hc]

theorem afterWord?_of_ne {c d : Char} (h : d ≠ c) (word r : Text) :
    afterWord? (c :: r) (d :: word) = none := by
  have hprefix : (d :: word).isPrefixOf (c :: r) = false := by simp [List.isPrefixOf, h]
  rw [afterWord?, hprefix]
  rfl

/-- A word alone is trimmed out of the blanks around it. -/
theorem trim_append {g t h : Text} (hg : g.isBlankText) (ht : Starts isInk t)
    (hend : Ends isInk t) (hh : h.isBlankText) : trim (g ++ t ++ h) = t := by
  rw [trim, List.append_assoc, trimStart_append hg, trimStart_of_starts (ht.append h), trimEnd,
    dropEndWhile_append hend (List.all_eq_true.1 hh)]

theorem isTight_of_isName {t : Text} (h : t.isName) : t.IsTight :=
  .of_forall (ne_nil_of_isName h) fun _ => isNameRest_of_mem h

theorem isBlankText_of_ends {t : Text} (h : Ends isInk t) : t.isBlankText = false := by
  obtain ⟨r, c, rfl, hc⟩ := h.exists_eq_concat
  have hblank : isBlank c = false := by simpa [isInk] using hc
  simp [isBlankText, hblank]

theorem IsTight.ink {t : Text} (h : t.IsTight) : Starts isInk t :=
  h.starts.imp fun _ => isInk_of_isOpening

end Text

theorem Line.not_isEnding_of_isInk {c : Char} (h : Text.isInk c) : !Line.isEnding c := by
  by_contra hending
  simp only [Line.isEnding, Bool.not_eq_true, Bool.not_eq_false', Bool.or_eq_true,
    beq_iff_eq] at hending
  rcases hending with rfl | rfl <;> cases h

/-- Whether the literal stays on one line. -/
def Literal.isOneLine (l : Literal) : Bool := !l.body.contains '\n'

/-- Whether the node has no literal that goes over a line feed. -/
def Expr.isOneLine : Expr → Bool
  | literal l => l.isOneLine
  | list _ separator _ => separator.isOneLine
  | _ => true

namespace Rule

/-- The name is one, and the body is printable with nothing to splice and on one line. -/
structure WellFormed (r : Rule) : Prop where
  name : r.name.isName
  printable : r.body.Printable
  spliced : r.body.IsSpliced
  oneLine : r.body.All Expr.isOneLine

instance (r : Rule) : Decidable r.WellFormed :=
  decidable_of_iff
    (r.name.isName ∧ r.body.Printable ∧ r.body.IsSpliced ∧ r.body.All Expr.isOneLine)
    ⟨fun ⟨hname, hprintable, hspliced, honeLine⟩ => ⟨hname, hprintable, hspliced, honeLine⟩,
      fun h => ⟨h.name, h.printable, h.spliced, h.oneLine⟩⟩

/-- The mark in front of the rule. -/
def marker (r : Rule) : Text := if r.atomic then Line.atomicMarker else []

/-- The rule without its mark. -/
def code (r : Rule) : Text :=
  (if r.atomic then [' '] else []) ++ r.name ++ " ::= ".toList ++ r.body.text

theorem text_eq (r : Rule) : r.text = r.marker ++ r.code := by
  rw [text, marker, code]
  split <;> simp

/-- Whether the character may stand in the code of a rule outside literals. -/
def isCodeChar (c : Char) : Bool := isNotation c || c == ':' || c == '='

theorem isCodeChar_of_isNotation {c : Char} (h : isNotation c) : isCodeChar c := by
  simp [isCodeChar, h]

theorem ofChar?_of_isCodeChar {c : Char} (h : isCodeChar c) : Quote.ofChar? c = none := by
  simp only [isCodeChar, Bool.or_eq_true, beq_iff_eq] at h
  rcases h with (h | rfl) | rfl
  · exact ofChar?_of_isNotation h
  · rfl
  · rfl

variable {r : Rule} (h : r.WellFormed)
include h

theorem WellFormed.sound : r.body.All (Expr.isSound Literal.isOneLine) := by
  refine ((h.printable.and h.spliced).and h.oneLine).imp fun node hnode => ?_
  obtain ⟨hnode, hline⟩ := Bool.and_eq_true_iff.1 hnode
  obtain ⟨hreadable, hsettled⟩ := Bool.and_eq_true_iff.1 hnode
  refine Expr.isSound_of_isReadable hreadable hsettled ?_
  rintro l (rfl | ⟨item, op, rfl⟩) <;> exact hline

theorem WellFormed.tight : r.body.text.IsTight := Expr.isTight_text h.sound

/-- The code in front of the `::=`. -/
theorem WellFormed.pieces_head :
    Pieces isNotation Literal.isOneLine ((if r.atomic then [' '] else []) ++ r.name ++ [' ']) := by
  have hname : Pieces isNotation Literal.isOneLine r.name :=
    .of_forall fun c hc => isNotation_of_isNameRest (Text.isNameRest_of_mem h.name hc)
  have hspace : Pieces isNotation Literal.isOneLine [' '] := .char (by decide) .nil
  split
  · exact (hspace.append hname).append hspace
  · exact hname.append hspace

theorem WellFormed.pieces_code : Pieces isCodeChar Literal.isOneLine r.code := by
  have hlift {t : Text} (ht : Pieces isNotation Literal.isOneLine t) :
      Pieces isCodeChar Literal.isOneLine t :=
    ht.imp (fun _ => isCodeChar_of_isNotation) fun _ hl => hl
  have hmark : Pieces isCodeChar Literal.isOneLine "::= ".toList := .of_all (by decide)
  have hcode := ((hlift h.pieces_head).append hmark).append (hlift (Expr.pieces_text h.sound))
  simpa [code] using hcode

/-- The definition is found at the `::=` after the name. -/
theorem WellFormed.cutCode_code :
    r.code.cutCode "::=".toList.isPrefixOf .code =
      some ((if r.atomic then [' '] else []) ++ r.name ++ [' '], "::= ".toList ++ r.body.text) := by
  have hmark (c : Char) (t : Text) (hc : isNotation c) :
      "::=".toList.isPrefixOf (c :: t) = false := by
    have hne : ':' ≠ c := by
      rintro rfl
      cases hc
    simp [List.isPrefixOf, hne]
  have hcut := Text.cutCode_of_pieces h.pieces_head (fun _ => ofChar?_of_isNotation) hmark
    ("::= ".toList ++ r.body.text)
  have hcode : r.code = (if r.atomic then [' '] else []) ++ r.name ++ [' '] ++
      ("::= ".toList ++ r.body.text) := by simp [code]
  have hfirst : Text.cutCode "::=".toList.isPrefixOf .code ("::= ".toList ++ r.body.text) =
      some ([], "::= ".toList ++ r.body.text) := rfl
  rw [hcode, hcut, hfirst, Option.map_some, List.append_nil]

theorem WellFormed.trim_head :
    Text.trim ((if r.atomic then [' '] else []) ++ r.name ++ [' ']) = r.name := by
  have htight := Text.isTight_of_isName h.name
  refine Text.trim_append ?_ htight.ink htight.ends (by decide)
  split <;> decide

/-- There is no comment in the code. -/
theorem WellFormed.cutComment_code : Line.cutComment r.code = (r.code, []) := by
  have hmark (c : Char) (t : Text) (hc : isCodeChar c) : ['#'].isPrefixOf (c :: t) = false := by
    have hne : '#' ≠ c := by
      rintro rfl
      cases hc
    simp [List.isPrefixOf, hne]
  have hcut := Text.cutCode_of_pieces h.pieces_code (fun _ => ofChar?_of_isCodeChar) hmark []
  rw [List.append_nil] at hcut
  rw [Line.cutComment, hcut]
  rfl

theorem WellFormed.not_mem_text : '\n' ∉ r.text := by
  rw [text_eq, List.mem_append]
  rintro (hmark | hcode)
  · rw [marker] at hmark
    split at hmark <;> revert hmark <;> decide
  · obtain hc | ⟨l, hl, hc⟩ := h.pieces_code.mem hcode
    · cases hc
    · have hquote : '\n' ≠ l.quote.char := by cases l.quote <;> decide
      simp_all [Literal.text, Literal.isOneLine]

/-- The line of a rule is its mark and its code. -/
theorem WellFormed.ends_code : Text.Ends Text.isInk r.code := h.tight.ends.append _

theorem WellFormed.starts_name : Starts isNameStart (r.name ++ " ::= ".toList ++ r.body.text) := by
  have hname := h.name
  cases hn : r.name with
  | nil => rw [hn] at hname; cases hname
  | cons c n =>
    rw [hn] at hname
    exact starts_cons.2 (Bool.and_eq_true_iff.1 hname).1

/-- The code does not go on with an alternative. -/
theorem WellFormed.not_bar_code : ['|'].isPrefixOf r.code.trimStart = false := by
  obtain ⟨c, t, ht, hc⟩ := h.starts_name.exists_eq_cons
  have hne : '|' ≠ c := by
    rintro rfl
    cases hc
  have hstart : r.code.trimStart = Text.trimStart (c :: t) := by
    rw [← ht, code]
    cases r.atomic <;> simp [Text.trimStart, Text.isBlank]
  have hink : Starts Text.isInk (c :: t) :=
    starts_cons.2 (Text.isInk_of_isNameRest (isNameRest_of_isNameStart hc))
  rw [hstart, Text.trimStart_of_starts hink]
  simp [List.isPrefixOf, hne]

theorem WellFormed.isBlankText_code : r.code.isBlankText = false :=
  Text.isBlankText_of_ends h.ends_code

theorem WellFormed.cutMarker_text : Line.cutMarker r.text = (r.marker, r.code) := by
  rw [Line.cutMarker, text_eq]
  cases hatomic : r.atomic with
  | true =>
    have hmarker : r.marker = Line.atomicMarker := by simp [marker, hatomic]
    have hcode : r.code = ' ' :: (r.name ++ " ::= ".toList ++ r.body.text) := by
      simp [code, hatomic]
    rw [hmarker, hcode, Text.afterWord?_append rfl]
  | false =>
    obtain ⟨c, t, ht, hc⟩ := h.starts_name.exists_eq_cons
    have hmarker : r.marker = [] := by simp [marker, hatomic]
    have hcode : r.code = c :: t := by
      rw [← ht]
      simp [code, hatomic]
    have hne : '#' ≠ c := by
      rintro rfl
      cases hc
    have hnone : Text.afterWord? (c :: t) Line.atomicMarker = none := Text.afterWord?_of_ne hne ..
    rw [hmarker, hcode, List.nil_append, hnone]

theorem WellFormed.starts_text : Starts Text.isInk r.text := by
  rw [text_eq, marker, code]
  cases r.atomic with
  | true => exact starts_cons.2 rfl
  | false =>
    exact h.starts_name.imp fun _ hc => Text.isInk_of_isNameRest (isNameRest_of_isNameStart hc)

theorem WellFormed.ends_text : Text.Ends Text.isInk r.text := by
  rw [text_eq]
  exact h.ends_code.append _

/-- The line of a rule is its mark and its code. -/
theorem WellFormed.line_ofText :
    Line.ofText (r.text ++ ['\n']) = ⟨[], r.marker, r.code, [], ['\n']⟩ := by
  have hends : Text.Ends (fun c => !Line.isEnding c) r.text :=
    h.ends_text.imp fun _ => Line.not_isEnding_of_isInk
  have hending : ∀ c ∈ ['\n'], Line.isEnding c := List.forall_mem_singleton.2 rfl
  have hdrop : r.text.dropWhile Text.isBlank = r.text := Text.trimStart_of_starts h.starts_text
  have htake : r.text.takeWhile Text.isBlank = [] := Text.takeWhile_isBlank h.starts_text
  rw [Line.ofText, Text.dropEndWhile_append hends hending, Text.takeEndWhile_append hends hending,
    hdrop, htake, h.cutMarker_text]
  dsimp only
  rw [h.cutComment_code]

end Rule

/-- The line of a start symbol is a comment that declares it. -/
theorem Line.ofText_start {symbol : Text} (h : symbol.isName) :
    Line.ofText ("# start ".toList ++ symbol ++ ['\n']) =
      ⟨[], [], [], "# start ".toList ++ symbol, ['\n']⟩ := by
  have hends : Text.Ends (fun c => !Line.isEnding c) ("# start ".toList ++ symbol) :=
    ((Text.isTight_of_isName h).ends.append _).imp fun _ => Line.not_isEnding_of_isInk
  have hending : ∀ c ∈ ['\n'], Line.isEnding c := List.forall_mem_singleton.2 rfl
  rw [Line.ofText, Text.dropEndWhile_append hends hending, Text.takeEndWhile_append hends hending]
  rfl

theorem Line.startSymbol?_start {symbol ending : Text} (h : symbol.isName) :
    Line.startSymbol? ⟨[], [], [], "# start ".toList ++ symbol, ending⟩ = some symbol := by
  have htight := Text.isTight_of_isName h
  have hword := Text.afterWord?_append (c := ' ') rfl "start".toList symbol
  have htrim := Text.trim_append (g := [' ']) (h := []) (by decide) htight.ink htight.ends rfl
  rw [List.append_nil] at htrim
  have hcomment : Text.trimStart (("# start ".toList ++ symbol).drop 1) =
      "start".toList ++ ' ' :: symbol := rfl
  unfold Line.startSymbol?
  rw [hcomment, hword]
  exact congrArg some htrim

end ExtendedBnf
