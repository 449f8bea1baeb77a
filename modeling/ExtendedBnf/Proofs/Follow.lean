import ExtendedBnf.Proofs.ExprGrammar

/-!
# What may follow

The reader decides by the next character, after the spaces where these do not
matter, whether to go on with what it reads. So what may follow a primary, a term
or the terms of an alternative is a matter of how the rest of the text starts, and
by the grammar nothing else comes after them.
-/
namespace ExtendedBnf
namespace Reader

/-- The text goes on with a character that satisfies `p`. -/
def Starts (p : Char → Bool) (t : Text) : Prop := ∃ c ∈ t.head?, p c

/-- The text does not go on with a character that satisfies `p`. -/
def Stops (p : Char → Bool) (t : Text) : Prop := ∀ c ∈ t.head?, p c = false

/-- No character satisfies both. -/
def Apart (p q : Char → Bool) : Prop := ∀ c, p c → q c = false

section
variable {p q : Char → Bool} {c : Char} {t r : Text}

@[simp] theorem starts_cons : Starts p (c :: r) ↔ p c := by simp [Starts]

@[simp] theorem stops_nil : Stops p [] := by simp [Stops]

@[simp] theorem stops_cons : Stops p (c :: r) ↔ p c = false := by simp [Stops]

theorem stops_dropWhile (p : Char → Bool) (t : Text) : Stops p (t.dropWhile p) := by
  intro c hc
  have hnot := List.head?_dropWhile_not p t
  rw [Option.mem_def.1 hc] at hnot
  simpa using hnot

theorem Starts.exists_eq_cons (h : Starts p t) : ∃ c r, t = c :: r ∧ p c := by
  cases t with
  | nil =>
    obtain ⟨c, hc, -⟩ := h
    cases hc
  | cons c r => exact ⟨c, r, rfl, starts_cons.1 h⟩

theorem Starts.append (h : Starts p t) (r : Text) : Starts p (t ++ r) := by
  obtain ⟨c, u, rfl, hc⟩ := h.exists_eq_cons
  exact starts_cons.2 hc

theorem Starts.imp (h : Starts p t) (hpq : ∀ c, p c → q c) : Starts q t := by
  obtain ⟨c, hmem, hc⟩ := h
  exact ⟨c, hmem, hpq c hc⟩

theorem Starts.stops (h : Starts p t) (hpq : Apart p q) : Stops q t := by
  obtain ⟨c, u, rfl, hc⟩ := h.exists_eq_cons
  exact stops_cons.2 (hpq c hc)

theorem Apart.symm (h : Apart p q) : Apart q p := by
  intro c hq
  cases hp : p c with
  | false => rfl
  | true => exact absurd hq (Bool.eq_false_iff.1 (h c hp))

theorem apart_isSpace :
    Apart isSpace p ↔ p ' ' = false ∧ p '\t' = false ∧ p '\r' = false ∧ p '\n' = false := by
  simp [Apart, isSpace, or_imp, forall_and, and_assoc]

theorem apart_isSpace_isNameRest : Apart isSpace isNameRest := apart_isSpace.2 (by decide)

theorem apart_isSpace_isDigit : Apart isSpace Char.isDigit := apart_isSpace.2 (by decide)

theorem apart_isSpace_isOperatorChar : Apart isSpace isOperatorChar := apart_isSpace.2 (by decide)

theorem takeWhile_append (ht : ∀ c ∈ t, p c) (hr : Stops p r) : (t ++ r).takeWhile p = t := by
  rw [List.takeWhile_append_of_pos ht]
  cases r with
  | nil => simp
  | cons c r => simp [stops_cons.1 hr]

theorem dropWhile_append (ht : ∀ c ∈ t, p c) (hr : Stops p r) : (t ++ r).dropWhile p = r := by
  rw [List.dropWhile_append_of_pos ht]
  cases r with
  | nil => rfl
  | cons c r => simp [stops_cons.1 hr]

end

section
variable {g r : Text} {c : Char}

theorem skipSpaces_append (hg : IsGap g) (r : Text) : skipSpaces (g ++ r) = skipSpaces r :=
  List.dropWhile_append_of_pos hg

theorem skipSpaces_gap (hg : IsGap g) : skipSpaces g = [] := by
  have h := skipSpaces_append hg []
  rw [List.append_nil] at h
  exact h

theorem skipSpaces_of_stops (h : Stops isSpace r) : skipSpaces r = r :=
  dropWhile_append (t := []) (by simp) h

theorem skipSpaces_cons (h : isSpace c = false) (r : Text) : skipSpaces (c :: r) = c :: r :=
  skipSpaces_of_stops (stops_cons.2 h)

theorem skipSpaces_gap_cons (hg : IsGap g) (h : isSpace c = false) (r : Text) :
    skipSpaces (g ++ c :: r) = c :: r := by
  rw [skipSpaces_append hg, skipSpaces_cons h]

/-- What no space satisfies does not come after a gap if it does not come without the gap. -/
theorem stops_gap_append {p : Char → Bool} (hp : Apart isSpace p) (hg : IsGap g)
    (hr : Stops p r) : Stops p (g ++ r) := by
  cases g with
  | nil => exact hr
  | cons c g => exact stops_cons.2 (hp c (hg c List.mem_cons_self))

end

/-! ## First characters -/

/-- Whether a primary may start with the character. -/
def isPrimaryStart (c : Char) : Bool := isNameStart c || (Quote.ofChar? c).isSome || c == '('

/-- Whether a term may start with the character. -/
def isTermStart (c : Char) : Bool := isPrimaryStart c || c == '&' || c == '!'

/-- Whether what follows a primary in its operand may start with the character. -/
def isSuffixStart (c : Char) : Bool := ['%', '?', '*', '+', '{'].contains c

theorem apart_isSpace_isTermStart : Apart isSpace isTermStart := apart_isSpace.2 (by decide)

theorem apart_isSuffixStart_isTermStart : Apart isSuffixStart isTermStart := by
  intro c hc
  have hall : ['%', '?', '*', '+', '{'].all fun d => !isTermStart d := rfl
  have := List.all_eq_true.1 hall c (List.contains_iff_mem.1 hc)
  simpa using this

theorem apart_isTermStart_beq {d : Char} (hd : isTermStart d = false) :
    Apart isTermStart (· == d) := by
  intro c hc
  refine beq_false_of_ne fun heq => ?_
  rw [heq, hd] at hc
  cases hc

theorem isBlank_of_isAlpha {c : Char} (h : c.isAlpha) : Text.isBlank c = false := by
  have hrange := toNat_of_isAlpha h
  simp only [Text.isBlank, Bool.or_eq_false_iff, Bool.and_eq_false_imp, decide_eq_true_eq,
    decide_eq_false_iff_not, beq_eq_false_iff_ne]
  omega

theorem apart_isTermStart_isBlank : Apart isTermStart Text.isBlank := by
  intro c hc
  simp only [isTermStart, isPrimaryStart, isNameStart, Bool.or_eq_true, beq_iff_eq] at hc
  rcases hc with ((((hletter | rfl) | hquote) | rfl) | rfl) | rfl
  · exact isBlank_of_isAlpha hletter
  · rfl
  · obtain ⟨quote, hquote⟩ := Option.isSome_iff_exists.1 hquote
    rw [Quote.ofChar?_eq_some_iff.1 hquote]
    cases quote <;> rfl
  · rfl
  · rfl
  · rfl

theorem startsTerm_of_starts {t : Text} (h : Starts isTermStart t) : startsTerm t := by
  obtain ⟨c, r, rfl, hc⟩ := h.exists_eq_cons
  exact hc

section
variable {interior : Text → Expr → Prop} {t : Text} {e : Expr}

theorem starts_of_primary (h : Says.Primary interior t e) : Starts isPrimaryStart t := by
  cases h with
  | name hname =>
    cases t with
    | nil => cases hname
    | cons c r =>
      obtain ⟨hc, -⟩ := Bool.and_eq_true_iff.1 hname
      simp [isPrimaryStart, hc]
  | literal _ => simp [Literal.text, isPrimaryStart]
  | group _ => simp [isPrimaryStart]

theorem starts_of_operand (h : Says.Operand interior t e) : Starts isPrimaryStart t := by
  cases h with
  | suffixes hfirst _ => exact (starts_of_primary hfirst).append _
  | list hfirst _ _ _ _ =>
    simp only [List.append_assoc]
    exact (starts_of_primary hfirst).append _

theorem starts_of_term (h : Says.Term interior t e) : Starts isTermStart t := by
  cases h with
  | ahead _ _ | notAhead _ _ => exact starts_cons.2 rfl
  | operand h => exact (starts_of_operand h).imp fun c hc => by simp [isTermStart, hc]

theorem starts_of_terms (h : Says.Terms interior t e) : Starts isTermStart t := by
  cases h with
  | row hfirst _ => exact (starts_of_term hfirst).append _

theorem stops_isSpace_of_alternatives (h : Says.Alternatives interior t e) (rest : Text) :
    Stops isSpace (t ++ rest) := by
  cases h with
  | plain hfirst _ =>
    rw [List.append_assoc]
    exact ((starts_of_terms hfirst).append _).stops apart_isSpace_isTermStart.symm
  | barred _ _ _ => exact stops_cons.2 rfl

/-- A text that says an expression is not blank. -/
theorem isBlankText_of_whole (h : Says.Whole interior t e) : t.isBlankText = false := by
  have hterms {u : Text} {e : Expr} (hu : Says.Terms interior u e) :
      u.all Text.isBlank = false := by
    obtain ⟨c, r, rfl, hc⟩ := (starts_of_terms hu).exists_eq_cons
    simp [apart_isTermStart_isBlank c hc]
  unfold Text.isBlankText
  cases h with
  | spaced _ halternatives _ =>
    cases halternatives with
    | plain hfirst _ => simp [hterms hfirst]
    | barred _ hfirst _ => simp [hterms hfirst]

end
/-! ## What comes after -/

/-- What may follow a primary that is no item of a list. -/
structure EndsPrimary (r : Text) : Prop where
  name : Stops isNameRest r
  percent : Stops (· == '%') (skipSpaces r)

/-- What may follow a term. -/
structure EndsTerm (r : Text) : Prop where
  name : Stops isNameRest r
  operator : Stops isOperatorChar r
  suffix : Stops isSuffixStart (skipSpaces r)

/-- What may follow the terms of an alternative. -/
def EndsTerms (r : Text) : Prop := Stops (· != '|') (skipSpaces r)

theorem EndsTerm.endsPrimary {r : Text} (h : EndsTerm r) : EndsPrimary r := by
  refine ⟨h.name, fun c hc => beq_false_of_ne fun heq => ?_⟩
  have hsuffix := h.suffix c hc
  rw [heq] at hsuffix
  cases hsuffix

theorem endsTerm_gap_append {g r : Text} (hg : IsGap g) (hspace : Stops isSpace r)
    (hsuffix : Stops isSuffixStart r)
    (h : g ≠ [] ∨ Stops isNameRest r ∧ Stops isOperatorChar r) : EndsTerm (g ++ r) := by
  have hskip : skipSpaces (g ++ r) = r := by
    rw [skipSpaces_append hg, skipSpaces_of_stops hspace]
  rw [← hskip] at hsuffix
  cases g with
  | nil =>
    have ⟨hname, hoperator⟩ := h.resolve_left fun hne => hne rfl
    exact ⟨hname, hoperator, hsuffix⟩
  | cons c g =>
    have hc : isSpace c := hg c List.mem_cons_self
    have hname : Stops isNameRest (c :: g ++ r) := stops_cons.2 (apart_isSpace_isNameRest c hc)
    exact ⟨hname, stops_cons.2 (apart_isSpace_isOperatorChar c hc), hsuffix⟩

theorem EndsTerms.skipSpaces_eq {r : Text} (h : EndsTerms r) :
    skipSpaces r = [] ∨ ∃ u, skipSpaces r = '|' :: u := by
  unfold EndsTerms at h
  cases hr : skipSpaces r with
  | nil => exact .inl rfl
  | cons c u =>
    rw [hr, stops_cons, bne_eq_false_iff_eq] at h
    exact .inr ⟨u, by rw [h]⟩

theorem EndsTerms.endsTerm {r : Text} (h : EndsTerms r) : EndsTerm r := by
  obtain ⟨g, hg, hr⟩ := exists_gap r
  rw [hr]
  rcases h.skipSpaces_eq with hnil | ⟨u, hbar⟩
  · rw [hnil]
    exact endsTerm_gap_append hg stops_nil stops_nil (.inr ⟨stops_nil, stops_nil⟩)
  · have hnone {p : Char → Bool} (hp : p '|' = false) : Stops p ('|' :: u) := stops_cons.2 hp
    rw [hbar]
    exact endsTerm_gap_append hg (hnone rfl) (hnone rfl) (.inr ⟨hnone rfl, hnone rfl⟩)

theorem exists_of_suffixed {t : Text} {suffix : Suffix} (h : Says.Suffixed t suffix) :
    ∃ g c r, IsGap g ∧ c ∈ ['?', '*', '+', '{'] ∧ t = g ++ c :: r := by
  cases h with
  | optional hg => exact ⟨_, '?', [], hg, by simp, rfl⟩
  | star hg => exact ⟨_, '*', [], hg, by simp, rfl⟩
  | plus hg => exact ⟨_, '+', [], hg, by simp, rfl⟩
  | bounds hg hbounds => cases hbounds <;> exact ⟨_, '{', _, hg, by simp, rfl⟩

theorem ne_nil_of_suffixed {t : Text} {suffix : Suffix} (h : Says.Suffixed t suffix) : t ≠ [] := by
  obtain ⟨g, c, r, -, -, rfl⟩ := exists_of_suffixed h
  simp

theorem endsPrimary_of_suffixed {t rest : Text} {suffix : Suffix} (h : Says.Suffixed t suffix) :
    EndsPrimary (t ++ rest) := by
  obtain ⟨g, c, r, hg, hc, rfl⟩ := exists_of_suffixed h
  have hall : ['?', '*', '+', '{'].all fun d => !isNameRest d && !isSpace d && d != '%' := rfl
  have hnone := List.all_eq_true.1 hall c hc
  simp only [Bool.and_eq_true, Bool.not_eq_true', bne_iff_ne] at hnone
  obtain ⟨⟨hname, hspace⟩, hpercent⟩ := hnone
  rw [List.append_assoc, List.cons_append]
  refine ⟨stops_gap_append apart_isSpace_isNameRest hg (stops_cons.2 hname), ?_⟩
  rw [skipSpaces_gap_cons hg hspace]
  exact stops_cons.2 (beq_false_of_ne hpercent)

section
variable {interior : Text → Expr → Prop} {t rest : Text} {e : Expr}

theorem ne_nil_of_joined (h : Says.Joined interior t e) : t ≠ [] := by
  cases h with
  | tilde => simp
  | gap _ hne _ => simp [hne]

theorem endsTerm_of_joined (h : Says.Joined interior t e) : EndsTerm (t ++ rest) := by
  cases h with
  | tilde hg _ _ =>
    have hnone {p : Char → Bool} {r : Text} (hp : p '~' = false) : Stops p ('~' :: r) :=
      stops_cons.2 hp
    rw [List.append_assoc, List.append_assoc]
    exact endsTerm_gap_append hg (hnone rfl) (hnone rfl) (.inr ⟨hnone rfl, hnone rfl⟩)
  | gap hg hne hterm =>
    have hstarts := (starts_of_term hterm).append rest
    rw [List.append_assoc]
    exact endsTerm_gap_append hg (hstarts.stops apart_isSpace_isTermStart.symm)
      (hstarts.stops apart_isSuffixStart_isTermStart.symm) (.inl hne)

theorem ne_nil_of_barred (h : Says.Barred interior t e) : t ≠ [] := by
  cases h with
  | bar => simp

theorem endsTerms_of_barred (h : Says.Barred interior t e) : EndsTerms (t ++ rest) := by
  cases h with
  | bar hg _ _ =>
    rw [EndsTerms, List.append_assoc, List.append_assoc, List.cons_append,
      skipSpaces_gap_cons hg rfl]
    exact stops_cons.2 rfl

end
end Reader
end ExtendedBnf
