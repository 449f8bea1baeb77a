import ExtendedBnf.Proofs.Balanced
import ExtendedBnf.Proofs.Follow
import ExtendedBnf.Proofs.ReaderSound

/-!
# The reader takes all that is said

Whatever text says something by the rules of a level, the reader of the level
takes all of it off any text that goes on in a way that the level cannot. The
texts of groups have to be balanced for this, since a group is cut out before its
interior is read. With what the reader takes saying what it gives, an expression
is read from exactly the texts that say it.
-/
namespace ExtendedBnf
namespace Reader
open Says (Many)

theorem literal?_text_append {l : Literal} (h : IsBody '\\' l.quote.char l.body) (rest : Text) :
    literal? (l.text ++ rest) = some (.ok (l, rest)) := by
  have hclose := closing?_append h l.quote.char_ne_backslash rest
  simp [Literal.text, literal?, hclose]

theorem number?_append {g t rest : Text} {n : UInt32} (hg : IsGap g) (ht : IsNumber t n)
    (hrest : Stops Char.isDigit rest) :
    number? (skipSpaces (g ++ t ++ rest)) = .ok (some n, rest) := by
  obtain ⟨hne, hdigits, hvalue⟩ := ht
  have hlt : n.toNat < UInt32.size := n.toNat_lt
  obtain ⟨c, r, rfl⟩ := List.exists_cons_of_ne_nil hne
  have hc : isSpace c = false := apart_isSpace_isDigit.symm c (hdigits c List.mem_cons_self)
  rw [List.append_assoc, skipSpaces_append hg, List.cons_append, skipSpaces_cons hc,
    ← List.cons_append]
  unfold number?
  rw [takeWhile_append hdigits hrest, dropWhile_append hdigits hrest]
  simp [hlt, hvalue]

theorem number?_of_stops {r : Text} (h : Stops Char.isDigit r) : number? r = .ok (none, r) := by
  have hnone := takeWhile_append (t := []) (by simp) h
  rw [List.nil_append] at hnone
  unfold number?
  rw [hnone]

theorem skipComma_comma {g : Text} (hg : IsGap g) (r : Text) :
    skipComma (g ++ ',' :: r) = (true, r) := by
  unfold skipComma
  rw [skipSpaces_gap_cons hg rfl]
  rfl

theorem skipComma_of_ne {g r : Text} {c : Char} (hg : IsGap g) (hc : c ≠ ',')
    (hspace : isSpace c = false) : skipComma (g ++ c :: r) = (false, c :: r) := by
  unfold skipComma
  rw [skipSpaces_gap_cons hg hspace]
  split
  next heq => exact absurd (List.cons.inj heq).1 hc
  next => rfl

theorem bounds_of_parts {t t₁ t₂ t₃ rest : Text} {min max : Option UInt32} {comma : Bool}
    {b : Bounds} (hmin : number? (skipSpaces t) = .ok (min, t₁))
    (hcomma : skipComma t₁ = (comma, t₂)) (hmax : number? (skipSpaces t₂) = .ok (max, t₃))
    (hclose : skipSpaces t₃ = '}' :: rest) (hb : boundsOf? min comma max = some b) :
    bounds t = .ok (b, rest) := by
  simp [bounds, hmin, hcomma, hmax, hclose, hb, bind, Except.bind]

theorem complete_bounds {t : Text} {b : Bounds} (h : Says.Bounded t b) :
    ∃ u, t = '{' :: u ∧ ∀ rest, bounds (u ++ rest) = .ok (b, rest) := by
  have hdigit {g : Text} (hg : IsGap g) (c : Char) (r : Text) (hc : c.isDigit = false) :
      Stops Char.isDigit (g ++ c :: r) :=
    stops_gap_append apart_isSpace_isDigit hg (stops_cons.2 hc)
  have hnone {g : Text} (hg : IsGap g) (c : Char) (r : Text) (hspace : isSpace c = false)
      (hc : c.isDigit = false) : number? (skipSpaces (g ++ c :: r)) = .ok (none, c :: r) := by
    rw [skipSpaces_gap_cons hg hspace, number?_of_stops (stops_cons.2 hc)]
  have hclose {g rest : Text} (hg : IsGap g) : skipSpaces (g ++ '}' :: rest) = '}' :: rest :=
    skipSpaces_gap_cons hg rfl rest
  cases h with
  | @exactly g t h n hg ht hh =>
    refine ⟨_, rfl, fun rest => ?_⟩
    have hmin := number?_append hg ht (hdigit hh '}' rest rfl)
    have hcomma := skipComma_of_ne (c := '}') (r := rest) hh (by decide) rfl
    have hmax := hnone isGap_nil '}' rest rfl rfl
    have hread := bounds_of_parts hmin hcomma hmax (hclose isGap_nil) rfl
    simpa using hread
  | @atLeast g t h k min hg ht hh hk =>
    refine ⟨_, rfl, fun rest => ?_⟩
    have hmin := number?_append hg ht (hdigit hh ',' (k ++ '}' :: rest) rfl)
    have hmax := hnone hk '}' rest rfl rfl
    have hread := bounds_of_parts hmin (skipComma_comma hh _) hmax (hclose isGap_nil) rfl
    simpa using hread
  | @atMost g h t k max hg hh ht hk =>
    refine ⟨_, rfl, fun rest => ?_⟩
    have hmin := hnone hg ',' (h ++ t ++ (k ++ '}' :: rest)) rfl rfl
    have hmax := number?_append hh ht (hdigit hk '}' rest rfl)
    have hread := bounds_of_parts hmin (skipComma_comma isGap_nil _) hmax (hclose hk) rfl
    simpa using hread
  | @between g t h k u i min max hg ht hh hk hu hi hle =>
    refine ⟨_, rfl, fun rest => ?_⟩
    have hmin := number?_append hg ht (hdigit hh ',' (k ++ u ++ (i ++ '}' :: rest)) rfl)
    have hmax := number?_append hk hu (hdigit hi '}' rest rfl)
    have hread := bounds_of_parts hmin (skipComma_comma hh _) hmax (hclose hi) (if_pos hle)
    simpa using hread

theorem complete_suffix? {t : Text} {suffix : Suffix} (h : Says.Suffixed t suffix) (rest : Text) :
    suffix? (t ++ rest) = .ok (some (suffix, rest)) := by
  unfold suffix?
  cases h with
  | optional hg | star hg | plus hg =>
    rw [List.append_assoc, List.singleton_append, skipSpaces_gap_cons hg rfl]
    rfl
  | bounds hg hbounds =>
    obtain ⟨u, rfl, hread⟩ := complete_bounds hbounds
    rw [List.append_assoc, List.cons_append, skipSpaces_gap_cons hg rfl]
    simp [hread, Except.map]

/-- The reader of items takes all items of a text if the last one is followed by something that may
follow an item and is none itself, and what starts with an item may follow one too. -/
theorem complete_many {α : Type} {item : Text → Except Failure (Option (α × Text))}
    {meaning : Text → α → Prop} {after : Text → Prop}
    (hitem : ∀ u a rest, meaning u a → after rest → item (u ++ rest) = .ok (some (a, rest)))
    (hafter : ∀ u a rest, meaning u a → u ≠ [] ∧ (after rest → after (u ++ rest)))
    {t rest : Text} {as : List α} (h : Many meaning t as) (hrest : after rest)
    (hstop : item rest = .ok none) :
    after (t ++ rest) ∧ many item (t ++ rest) = .ok (as, rest) := by
  induction h with
  | nil =>
    refine ⟨hrest, ?_⟩
    rw [List.nil_append, many, hstop]
  | @cons u v a as ha _ ih =>
    obtain ⟨hv, hmany⟩ := ih
    obtain ⟨hne, hu⟩ := hafter u a (v ++ rest) ha
    rw [List.append_assoc]
    refine ⟨hu hv, ?_⟩
    rw [many, hitem u a _ ha hv]
    simp [hne, hmany, Except.map]

theorem complete_listTail {g k rest : Text} {separator : Literal} (hg : IsGap g)
    (hbody : IsBody '\\' separator.quote.char separator.body) (hk : IsGap k)
    (hrest : Stops isOperatorChar rest) (item : Expr) (op : ListOp) :
    listTail item (g ++ separator.text ++ k ++ op.text ++ rest) =
      .ok (.list item separator op, rest) := by
  have hquote : isSpace separator.quote.char = false := by cases separator.quote <;> rfl
  have hskip (r : Text) : skipSpaces (g ++ (separator.text ++ r)) = separator.text ++ r :=
    skipSpaces_gap_cons hg hquote _
  have hall : op.text.all isOperatorChar := by obtain ⟨_ | _, _ | _⟩ := op <;> rfl
  have hop : ∀ c ∈ op.text, isOperatorChar c := List.all_eq_true.1 hall
  have hspaces : skipSpaces (k ++ (op.text ++ rest)) = op.text ++ rest := by
    rw [skipSpaces_append hk]
    obtain ⟨_ | _, _ | _⟩ := op <;> exact skipSpaces_cons rfl _
  have hread := literal?_text_append hbody (k ++ (op.text ++ rest))
  unfold listTail
  simp only [List.append_assoc, hskip, hread, hspaces, takeWhile_append hop hrest,
    dropWhile_append hop hrest, ListOp.ofText?_text]

theorem complete_mark? {t rest : Text} {mark : Mark} (h : Says.Marked t mark)
    (hrest : Stops isSpace rest) : mark? (t ++ rest) = .ok (some (mark, rest)) := by
  cases h with
  | ahead hg | notAhead hg =>
    rw [List.cons_append, mark?, skipSpaces_append hg, skipSpaces_of_stops hrest]

theorem stops_of_marked {t rest : Text} {mark : Mark} (h : Says.Marked t mark) :
    t ≠ [] ∧ (Stops isSpace rest → Stops isSpace (t ++ rest)) := by
  cases h with
  | ahead | notAhead => exact ⟨List.cons_ne_nil _ _, fun _ => stops_cons.2 rfl⟩

theorem joint?_tilde_append {g h r : Text} (hg : IsGap g) (hh : IsGap h) (hr : Stops isSpace r) :
    joint? (g ++ '~' :: h ++ r) = some r := by
  unfold joint?
  rw [List.append_assoc, List.cons_append, skipSpaces_gap_cons hg rfl]
  simp [skipSpaces_append hh, skipSpaces_of_stops hr]

theorem joint?_gap_append {g r : Text} (hg : IsGap g) (hne : g ≠ []) (hr : Stops isSpace r)
    (htilde : Stops (· == '~') r) : joint? (g ++ r) = some r := by
  have hspace : (g ++ r).head?.any isSpace := by
    cases g with
    | nil => exact absurd rfl hne
    | cons c g => exact hg c List.mem_cons_self
  unfold joint?
  rw [skipSpaces_append hg, skipSpaces_of_stops hr]
  split
  next => cases stops_cons.1 htilde
  next => rw [if_pos hspace]

theorem skipBar_of_stops {t : Text} (h : Stops (· == '|') t) : skipBar t = t := by
  unfold skipBar
  split
  next => cases stops_cons.1 h
  next => rfl

/-- No suffix follows what may follow a term. -/
theorem EndsTerm.suffix?_eq {r : Text} (h : EndsTerm r) : suffix? r = .ok none := by
  have hsuffix := h.suffix
  unfold suffix?
  split
  all_goals first
    | rfl
    | next heq =>
      rw [heq] at hsuffix
      cases stops_cons.1 hsuffix

/-- No further term follows what may follow the terms of an alternative. -/
theorem EndsTerms.nextTerm?_eq {inner : Text → Except Failure Expr} {r : Text}
    (h : EndsTerms r) : nextTerm? inner r = .ok none := by
  have hjoint : joint? r = if r.head?.any isSpace then some (skipSpaces r) else none := by
    unfold joint?
    rcases h.skipSpaces_eq with hnil | ⟨u, hbar⟩
    · rw [hnil]
    · rw [hbar]
      rfl
  have hstart : startsTerm (skipSpaces r) = false := by
    rcases h.skipSpaces_eq with hnil | ⟨u, hbar⟩
    · rw [hnil]
      rfl
    · rw [hbar]
      rfl
  unfold nextTerm?
  rw [hjoint]
  by_cases hspace : r.head?.any isSpace
  · simp [hspace, hstart]
  · simp [hspace]

section
variable {inner : Text → Except Failure Expr} {interior : Text → Expr → Prop}
  (hinner : ∀ u e, interior u e → Text.Balanced u ∧ u.isBlankText = false ∧ inner u = .ok e)
  {t rest : Text} {e : Expr}
include hinner

theorem complete_group (h : interior t e) : group inner (t ++ ')' :: rest) = .ok (e, rest) := by
  obtain ⟨hbalanced, hblank, hread⟩ := hinner t e h
  unfold group
  rw [Text.closeGroup_of_balanced hbalanced]
  simp [hblank, hread]

theorem complete_primary (h : Says.Primary interior t e) (hrest : Stops isNameRest rest) :
    primary inner (t ++ rest) = .ok (e, rest) := by
  cases h with
  | name hname =>
    cases t with
    | nil => cases hname
    | cons c r =>
      obtain ⟨hc, hr⟩ := Bool.and_eq_true_iff.1 hname
      have hr : ∀ d ∈ r, isNameRest d := List.all_eq_true.1 hr
      simp [primary, hc, takeWhile_append hr hrest, dropWhile_append hr hrest]
  | @literal l hbody =>
    have hread := literal?_text_append hbody rest
    have hname : isNameStart l.quote.char = false := by cases l.quote <;> rfl
    have hopen : l.quote.char ≠ '(' := by cases l.quote <;> decide
    simp only [Literal.text, List.cons_append, List.append_assoc, List.nil_append] at hread ⊢
    simp [primary, hname, hopen, hread, Except.map]
  | @group t e hinside =>
    have hread : group inner (t ++ ')' :: rest) = .ok (e, rest) := complete_group hinner hinside
    have hname : isNameStart '(' = false := rfl
    simp [primary, hname, hread]

theorem complete_operand (h : Says.Operand interior t e) (hrest : EndsTerm rest) :
    operand inner (t ++ rest) = .ok (e, rest) := by
  cases h with
  | @suffixes t s first suffixes hfirst hsuffixes =>
    obtain ⟨⟨hname, hpercent⟩, hmany⟩ := complete_many
      (fun u a rest hu _ => complete_suffix? hu rest)
      (fun u a rest hu => ⟨ne_nil_of_suffixed hu, fun _ => endsPrimary_of_suffixed hu⟩)
      hsuffixes hrest.endsPrimary hrest.suffix?_eq
    have hread := complete_primary hinner hfirst hname
    rw [List.append_assoc]
    simp only [operand, hread, bind, Except.bind]
    -- no `%` follows, or the reader would take the primary for the item of a list
    split
    next tail heq =>
      rw [heq] at hpercent
      cases hpercent _ rfl
    next => simp [hmany]
  | @list t g h k first separator op hfirst hg hh hbody hk =>
    have htail := complete_listTail hh hbody hk hrest.operator first op
    have hskip (r : Text) : skipSpaces (g ++ '%' :: r) = '%' :: r := skipSpaces_gap_cons hg rfl r
    have hread (r : Text) : primary inner (t ++ (g ++ '%' :: r)) = .ok (first, g ++ '%' :: r) :=
      complete_primary hinner hfirst
        (stops_gap_append apart_isSpace_isNameRest hg (stops_cons.2 rfl))
    simp only [List.append_assoc, List.cons_append] at htail ⊢
    simp only [operand, hread, bind, Except.bind, hskip, htail]

theorem complete_term (h : Says.Term interior t e) (hrest : EndsTerm rest) :
    term inner (t ++ rest) = .ok (e, rest) := by
  obtain ⟨u, marks, v, body, rfl, rfl, hmarks, hbody⟩ := Says.term_iff.1 h
  have hstarts := (starts_of_operand hbody).append rest
  have hspace : Stops isSpace (v ++ rest) :=
    (hstarts.imp fun c hc => by simp [isTermStart, hc]).stops apart_isSpace_isTermStart.symm
  have hstop : mark? (v ++ rest) = .ok none := by
    obtain ⟨c, r, hv, hc⟩ := hstarts.exists_eq_cons
    rw [hv]
    unfold mark?
    split
    next heq => cases heq; cases hc
    next heq => cases heq; cases hc
    next => rfl
  obtain ⟨-, hmany⟩ := complete_many (fun u a rest => complete_mark?)
    (fun u a rest => stops_of_marked) hmarks hspace hstop
  have hread := complete_operand hinner hbody hrest
  rw [List.append_assoc]
  simp only [term, hmany, hread, bind, Except.bind]

theorem complete_nextTerm? (h : Says.Joined interior t e) (hrest : EndsTerm rest) :
    nextTerm? inner (t ++ rest) = .ok (some (e, rest)) := by
  have hjoint : ∃ u, joint? (t ++ rest) = some (u ++ rest) ∧ Says.Term interior u e := by
    cases h with
    | @tilde g h u _ hg hh hterm =>
      have hspace := ((starts_of_term hterm).append rest).stops apart_isSpace_isTermStart.symm
      refine ⟨u, ?_, hterm⟩
      rw [List.append_assoc]
      exact joint?_tilde_append hg hh hspace
    | @gap g u _ hg hne hterm =>
      have hstarts := (starts_of_term hterm).append rest
      refine ⟨u, ?_, hterm⟩
      rw [List.append_assoc]
      exact joint?_gap_append hg hne (hstarts.stops apart_isSpace_isTermStart.symm)
        (hstarts.stops (apart_isTermStart_beq rfl))
  obtain ⟨u, hu, hterm⟩ := hjoint
  have hstart := startsTerm_of_starts ((starts_of_term hterm).append rest)
  have hread := complete_term hinner hterm hrest
  simp [nextTerm?, hu, hstart, hread, Except.map]

theorem complete_terms (h : Says.Terms interior t e) (hrest : EndsTerms rest) :
    terms inner (t ++ rest) = .ok (e, rest) := by
  cases h with
  | @row t r first others hfirst hothers =>
    have hafter (u : Text) (e : Expr) (rest : Text) (hu : Says.Joined interior u e) :
        u ≠ [] ∧ (EndsTerm rest → EndsTerm (u ++ rest)) :=
      ⟨ne_nil_of_joined hu, fun _ => endsTerm_of_joined hu⟩
    obtain ⟨hends, hmany⟩ := complete_many (fun u a rest => complete_nextTerm? hinner) hafter
      hothers hrest.endsTerm hrest.nextTerm?_eq
    have hread := complete_term hinner hfirst hends
    rw [List.append_assoc]
    simp only [terms, hread, hmany, bind, Except.bind]

theorem complete_nextAlternative? (h : Says.Barred interior t e) (hrest : EndsTerms rest) :
    nextAlternative? inner (t ++ rest) = .ok (some (e, rest)) := by
  cases h with
  | @bar g h u _ hg hh hterms =>
    have hread := complete_terms hinner hterms hrest
    have hspace := ((starts_of_terms hterms).append rest).stops apart_isSpace_isTermStart.symm
    unfold nextAlternative?
    rw [List.append_assoc, List.append_assoc, List.cons_append, skipSpaces_gap_cons hg rfl]
    simp [skipSpaces_append hh, skipSpaces_of_stops hspace, hread, Except.map]

theorem complete_alternatives (h : Says.Alternatives interior t e) (hrest : IsGap rest) :
    alternatives inner (t ++ rest) = .ok (e, rest) := by
  have hends : EndsTerms rest := by
    rw [EndsTerms, skipSpaces_gap hrest]
    exact stops_nil
  have hstop : nextAlternative? inner rest = .ok none := by
    unfold nextAlternative?
    rw [skipSpaces_gap hrest]
  have hafter (u : Text) (e : Expr) (rest : Text) (hu : Says.Barred interior u e) :
      u ≠ [] ∧ (EndsTerms rest → EndsTerms (u ++ rest)) :=
    ⟨ne_nil_of_barred hu, fun _ => endsTerms_of_barred hu⟩
  have hothers {r : Text} {es : List Expr} (hes : Many (Says.Barred interior) r es) :=
    complete_many (fun u a rest => complete_nextAlternative? hinner) hafter hes hends hstop
  cases h with
  | @plain t r first others hfirst hes =>
    obtain ⟨hr, hmany⟩ := hothers hes
    have hread := complete_terms hinner hfirst hr
    have hbar := skipBar_of_stops
      (((starts_of_terms hfirst).append (r ++ rest)).stops (apart_isTermStart_beq rfl))
    rw [List.append_assoc]
    simp only [alternatives, hbar, hread, hmany, bind, Except.bind]
  | @barred g t r first others hg hfirst hes =>
    obtain ⟨hr, hmany⟩ := hothers hes
    have hread := complete_terms hinner hfirst hr
    have hspace := ((starts_of_terms hfirst).append (r ++ rest)).stops
      apart_isSpace_isTermStart.symm
    have hbar : skipBar ('|' :: g ++ t ++ r ++ rest) = t ++ (r ++ rest) := by
      simp [skipBar, skipSpaces_append hg, skipSpaces_of_stops hspace]
    simp only [alternatives, hbar, hread, hmany, bind, Except.bind]

/-- A text that says an expression is read whole, if the texts of its groups are. -/
theorem read_of_whole (h : Says.Whole interior t e) : whole inner t = .ok e := by
  cases h with
  | @spaced g t h e hg halternatives hh =>
    have hread := complete_alternatives hinner halternatives hh
    have hskip : skipSpaces (g ++ t ++ h) = t ++ h := by
      rw [List.append_assoc, skipSpaces_append hg]
      exact skipSpaces_of_stops (stops_isSpace_of_alternatives halternatives h)
    simp only [whole, hskip, hread, skipSpaces_gap hh, bind, Except.bind]

end

theorem meaning_of_read {t : Text} {e : Expr} (h : read t = .ok e) : Says t e := by
  rw [read] at h
  refine Says.iff_whole.2 (whole_of_read (fun u e hu => ?_) h)
  split at hu
  next hlt => exact meaning_of_read hu
  next => cases hu
termination_by t.length

theorem read_of_meaning {t : Text} {e : Expr} (h : Says t e) : read t = .ok e := by
  refine Says.induction (motive := fun t e => read t = .ok e) (fun t e hwhole => ?_) h
  rw [read_eq]
  refine read_of_whole (fun u e hu => ⟨hu.1.balanced, ?_, hu.2⟩) hwhole
  exact isBlankText_of_whole (Says.iff_whole.1 hu.1)

end Reader

/-- A text says no more than one expression. -/
theorem Says.unique {t : Text} {e f : Expr} (he : Says t e) (hf : Says t f) : e = f := by
  have heq := (Reader.read_of_meaning he).symm.trans (Reader.read_of_meaning hf)
  exact Except.ok.inj heq

namespace Expr

theorem ofText_eq_ok_iff_read {t : Text} {e : Expr} :
    ofText t = .ok e ↔ Reader.read t = .ok e := by
  unfold ofText
  cases Reader.read t <;> simp [Except.mapError]

theorem ofText_of_meaning {t : Text} {e : Expr} (h : Says t e) : ofText t = .ok e :=
  ofText_eq_ok_iff_read.2 (Reader.read_of_meaning h)

end Expr
end ExtendedBnf
