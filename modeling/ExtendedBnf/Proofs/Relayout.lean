import ExtendedBnf.Proofs.LineEdits

/-!
# Layout does not change a grammar

A source may be laid out anew: with remarks between its lines and comments behind code,
with other indentation and line ends, and with breaks in front of bars. It is the same
grammar then, if no literal of it goes over a line feed. A comment may follow code since
every literal is closed on its line: the body of a definition says an expression, and
where a line of it ends no literal is open.
-/
namespace ExtendedBnf
namespace Outline

/-- The definition is the pending one, perhaps with more lines. -/
def Pending.Becomes (p : Pending) (d : Definition) : Prop :=
  d.body = p.definition.body ∨ p.definition.body ++ p.gap <+: d.body

namespace State
variable {s t u : State} {p : Pending} {line : Line} {o : Outline}

/-- The pending definition is known now, or still pending. -/
inductive Keeps (p : Pending) (s : State) : Prop
  | known {d : Definition} : d ∈ s.outline.definitions → p.Becomes d → Keeps p s
  | pending {q : Pending} : s.pending = some q → p.Becomes q.definition →
      p.definition.body ++ p.gap <+: q.definition.body ++ q.gap → Keeps p s

theorem Keeps.exists_written (h : s.Keeps p) : ∃ d ∈ s.written, p.Becomes d := by
  cases h with
  | known hd hp => exact ⟨_, List.mem_append_left _ hd, hp⟩
  | pending hq hp => exact ⟨_, List.mem_append_right _ (by simp [hq]), hp⟩

theorem Keeps.close (h : s.Keeps p) (hclose : s.close = .ok t) :
    ∃ d ∈ t.outline.definitions, p.Becomes d := by
  rw [written_of_close hclose]
  exact h.exists_written

theorem Keeps.takes (h : s.Keeps p) (ht : Takes line s t) : t.Keeps p := by
  cases ht with
  | vacant _ _ hclose =>
    obtain ⟨d, hd, hp⟩ := h.close hclose
    exact .known hd hp
  | idle =>
    cases h with
    | known hd hp => exact .known hd hp
    | @pending q hq hp hprefix =>
      refine .pending (q := { q with gap := q.gap ++ line.blanked }) (by rw [hq]; rfl) hp ?_
      rw [← List.append_assoc]
      exact hprefix.trans (List.prefix_append _ _)
  | @alternative r _ _ hpending _ =>
    cases h with
    | known hd hp => exact .known hd hp
    | @pending q hq hp hprefix =>
      obtain rfl := Option.some.inj (hpending.symm.trans hq)
      have hbody : p.definition.body ++ p.gap <+: (extend line r).definition.body := by
        simp only [extend, List.append_assoc] at hprefix ⊢
        rw [← List.append_assoc]
        exact hprefix.trans (List.prefix_append _ _)
      exact .pending rfl (.inr hbody) (hbody.trans (List.prefix_append _ _))
  | header _ _ _ hclose _ =>
    obtain ⟨d, hd, hp⟩ := h.close hclose
    exact .known hd hp

theorem Keeps.takeLine {raw : Text} (h : s.Keeps p) (ht : s.takeLine raw = .ok t) : t.Keeps p := by
  obtain ⟨marked, started, taken, hmarked, hstarted, htaken, rfl⟩ := takeLine_eq_ok_iff.1 ht
  have hmark : marked.Keeps p := by
    obtain ⟨-, rfl⟩ | ⟨-, -, rfl⟩ := takeMark_eq_ok_iff.1 hmarked
    · exact h
    · cases h with
      | known hd hp => exact .known hd hp
      | pending hq hp hprefix => exact .pending hq hp hprefix
  have hstart : started.Keeps p := by
    obtain ⟨-, rfl⟩ | ⟨symbol, -, -, -, rfl⟩ := takeStart_eq_ok_iff.1 hstarted
    · exact hmark
    · cases hmark with
      | known hd hp => exact .known hd hp
      | pending hq hp hprefix => exact .pending hq hp hprefix
  cases hstart.takes (takes_of_takeContent htaken) with
  | known hd hp => exact .known hd hp
  | pending hq hp hprefix => exact .pending hq hp hprefix

theorem Keeps.foldlM {ls : List Text} (h : s.Keeps p)
    (ht : ls.foldlM State.takeLine s = .ok t) : t.Keeps p := by
  induction ls generalizing s with
  | nil =>
    cases ht
    exact h
  | cons raw ls ih =>
    rw [List.foldlM_cons] at ht
    obtain ⟨next, hnext, hrest⟩ := bind_eq_ok.1 ht
    exact ih (h.takeLine hnext) hrest

/-- A pending definition is known at the end, and has its line end if it got more lines. -/
theorem exists_becomes {ls : List Text} (ht : ls.foldlM State.takeLine s = .ok t)
    (hp : s.pending = some p) (hfinish : t.finish = .ok o) :
    ∃ d ∈ o.definitions, d.body = p.definition.body ∨
      ls ≠ [] ∧ p.definition.body ++ p.gap <+: d.body := by
  rw [written_of_finish hfinish]
  cases ls with
  | nil =>
    cases ht
    exact ⟨p.definition, List.mem_append_right _ (by simp [hp]), .inl rfl⟩
  | cons raw ls =>
    have hkeeps : s.Keeps p := .pending hp (.inl rfl) (List.prefix_refl _)
    obtain ⟨d, hd, hbecomes⟩ := (hkeeps.foldlM ht).exists_written
    exact ⟨d, hd, hbecomes.imp_right fun hprefix => ⟨List.cons_ne_nil raw ls, hprefix⟩⟩

end State

theorem Reads.exists_rule {o : Outline} {g : Grammar} (h : o.Reads g) {d : Definition}
    (hd : d ∈ o.definitions) : ∃ r ∈ g.rules, d.Reads r := by
  obtain ⟨i, hi, rfl⟩ := List.getElem_of_mem hd
  have hr : i < g.rules.length := h.rules.length_eq ▸ hi
  exact ⟨g.rules[i], List.getElem_mem hr, h.rules.get hi hr⟩

namespace State
variable {s t u : State} {p : Pending} {raw : Text} {after : List Text} {o : Outline} {g : Grammar}

/-- In the body of a pending definition that will be read line feeds are code, and so is its end,
since the line ends there. -/
theorem after_body_of_reads (hu : after.foldlM State.takeLine t = .ok u)
    (hpending : t.pending = some p) (hfinish : u.finish = .ok o)
    (hends : after ≠ [] → p.gap.EndsLine) (hgap : p.gap.isBlankText) (hreads : o.Reads g)
    (hlines : ∀ r ∈ g.rules, ∀ l ∈ r.body.literals, '\n' ∉ l.body) :
    Place.code.after p.definition.body = .code ∧
      ∀ a b, p.definition.body = a ++ '\n' :: b → Place.code.after a = .code := by
  obtain ⟨d, hd, hbecomes⟩ := exists_becomes hu hpending hfinish
  obtain ⟨r, hr, hread⟩ := hreads.exists_rule hd
  have hliterals := hread.says.hasLiterals
  have hfeed {a b : Text} (hsplit : d.body = a ++ '\n' :: b) : Place.code.after a = .code :=
    hliterals.after_of_feed (hlines r hr) hsplit
  obtain hsame | ⟨hmore, v, hlonger⟩ := hbecomes
  · rw [← hsame]
    exact ⟨hliterals.after, fun a b hsplit => hfeed hsplit⟩
  · obtain ⟨w, hw⟩ := hends hmore
    rw [hw, Text.isBlankText_append] at hgap
    rw [hw] at hlonger
    refine ⟨?_, fun a b hsplit => ?_⟩
    · have hplace := hfeed (a := p.definition.body ++ w) (b := v) (by simp [← hlonger])
      rw [Place.after_append] at hplace
      exact Place.eq_code_of_after_blank hgap.1 hplace
    · exact hfeed (b := b ++ (w ++ ['\n']) ++ v) (by simp [← hlonger, hsplit])

/-- On a line with code every literal is closed. -/
theorem after_code_of_reads (hs : s.Alike True s) (ht : s.takeLine raw = .ok t)
    (hcode : (Line.ofText raw).hasCode) (hu : after.foldlM State.takeLine t = .ok u)
    (hfinish : u.finish = .ok o) (hends : after ≠ [] → raw.EndsLine) (hreads : o.Reads g)
    (hlines : ∀ r ∈ g.rules, ∀ l ∈ r.body.literals, '\n' ∉ l.body) :
    Place.code.after (Line.ofText raw).code = .code := by
  obtain ⟨marked, taken, hmarked, htaken, rfl⟩ :=
    (takeLine_eq_ok_iff_of_code rfl (Line.code_ne_nil hcode)).1 ht
  obtain ⟨marked', hmarked', halike⟩ := hs.takeMark rfl hmarked
  obtain rfl := Except.ok.inj (hmarked.symm.trans hmarked')
  have hbody {p : Pending} (hp : taken.pending = some p)
      (hgap : p.gap = gapAfter (Line.ofText raw)) :
      Place.code.after p.definition.body = .code ∧
        ∀ a b, p.definition.body = a ++ '\n' :: b → Place.code.after a = .code :=
    after_body_of_reads hu hp hfinish (fun hmore => hgap ▸ ends_gapAfter (hends hmore))
      (hgap ▸ gapAfter_isBlankText raw) hreads hlines
  have htrim : Place.code.after (Line.ofText raw).code.trimEnd = .code := by
    cases htaken with
    | vacant hnone => exact absurd hcode (Bool.eq_false_iff.1 hnone)
    | idle hnone => exact absurd hcode (Bool.eq_false_iff.1 hnone)
    | @alternative p _ _ hpending _ =>
      obtain ⟨q, hq, hp⟩ := halike.exists_pending hpending
      obtain ⟨r, hr⟩ := hp.ends trivial
      obtain ⟨hplace, hfeed⟩ := hbody rfl rfl
      have hbefore : Place.code.after (p.definition.body ++ p.gap) = .code := by
        rw [hr, ← List.append_assoc, Place.after_append, hfeed (p.definition.body ++ r)
          ((Line.ofText raw).indent.spaces ++ (Line.ofText raw).marker.spaces ++
            (Line.ofText raw).code.trimEnd) (by simp [extend, hr])]
        rfl
      have hfront := (Line.isGap_front (Line.ofText raw)).isBlankText
      rwa [extend, List.append_assoc _ (Line.ofText raw).indent.spaces, Place.after_append,
        Place.after_append, hbefore, Text.after_of_isBlankText hfront] at hplace
    | @header before rest closed _ _ hcut _ hname =>
      obtain ⟨hplace, -⟩ := hbody rfl rfl
      obtain ⟨w, -, -, htrim⟩ := exists_eq_header hcut hname
      rw [htrim, Place.after_append, after_header hcut]
      exact hplace
  rw [← Text.trimEnd_append_takeEndWhile (Line.ofText raw).code, Place.after_append, htrim]
  exact Text.after_of_isBlankText (Text.isBlankText_takeEndWhile _)

end State
end Outline

/-! ## Edits -/

/-- The second line is the first one with a further comment behind its code, with more indentation,
with a carriage return in its line end, or with a line feed if it had none. -/
inductive Text.RelaidLine (l : Text) : Text → Prop
  | noted {u e w note : Text} : (Line.ofText l).hasCode → l = u ++ e →
      (∀ c ∈ e, Line.isEnding c) → w.IsIndent → RelaidLine l (u ++ w ++ '#' :: note ++ e)
  | indented {w : Text} : w.IsIndent → RelaidLine l (w ++ l)
  | returned {u : Text} : l = u ++ ['\n'] → RelaidLine l (u ++ ['\r', '\n'])
  | ended : '\n' ∉ l → RelaidLine l (l ++ ['\n'])

/-- The second source is the first one laid out anew in one place: with a remark put in, with a line
laid out anew, or with a line broken in front of a bar that is not its first code. -/
inductive Text.Relaid (source source' : Text) : Prop
  | remark {before after : List Text} {l : Text} : source.lines = before ++ after →
      source'.lines = before ++ l :: after → (Line.ofText l).IsRemark → Relaid source source'
  | line {before after : List Text} {l l' : Text} : source.lines = before ++ l :: after →
      source'.lines = before ++ l' :: after → l.RelaidLine l' → Relaid source source'
  | broken {before after : List Text} {l x y w : Text} : source.lines = before ++ l :: after →
      source'.lines = before ++
        ((Line.ofText l).indent ++ (Line.ofText l).marker ++ x ++ ['\n']) ::
        (w ++ '|' :: y ++ (Line.ofText l).comment ++ (Line.ofText l).ending) :: after →
      (Line.ofText l).code = x ++ '|' :: y → x.isBlankText = false →
      (Place.code.after x).isCode '|' → w.IsIndent → Relaid source source'

namespace Grammar
variable {source source' : Text} {g : Grammar}

theorem ofText_of_relaid_once (h : ofText source = .ok g)
    (hlines : ∀ r ∈ g.rules, ∀ l ∈ r.body.literals, '\n' ∉ l.body)
    (hrelaid : source.Relaid source') : ofText source' = .ok g := by
  obtain ⟨o, ho, hreads⟩ := ofText_eq_ok_iff_reads.1 h
  suffices halike : ∃ o', Outline.ofText source' = .ok o' ∧ o.Alike o' by
    obtain ⟨o', ho', halike⟩ := halike
    exact ofText_eq_ok_iff_reads.2 ⟨o', ho', halike.reads hreads hlines⟩
  have hends {before after : List Text} {l : Text} (hsource : source.lines = before ++ l :: after)
      (hmore : after ≠ []) : l.EndsLine := Text.ends_of_lines hsource hmore
  cases hrelaid with
  | @remark before after l hsource hsource' hl =>
    have hold : source.lines = before ++ ([] ++ after) := hsource
    have hnew : source'.lines = before ++ ([l] ++ after) := hsource'
    refine Outline.exists_alike_of_replaced ho hold hnew (List.cons_ne_nil l [])
      fun s t _ hs ht _ _ => ?_
    cases ht
    obtain ⟨t', ht', halike⟩ := hs.remark hl
    exact ⟨t', bind_eq_ok.2 ⟨t', ht', rfl⟩, halike.imp fun _ => trivial⟩
  | @line before after l l' hsource hsource' hl =>
    have hold : source.lines = before ++ ([l] ++ after) := hsource
    have hnew : source'.lines = before ++ ([l'] ++ after) := hsource'
    refine Outline.exists_alike_of_replaced ho hold hnew (List.cons_ne_nil l' [])
      fun s t u hs ht hu hfinish => ?_
    obtain ⟨t, ht, ⟨⟩⟩ := bind_eq_ok.1 ht
    have hlike : Outline.State.AlikeLines (after ≠ []) (Line.ofText l) (Line.ofText l') := by
      cases hl with
      | noted hcode heq he hw =>
        have hclosed := Outline.State.after_code_of_reads hs ht hcode hu hfinish (hends hsource)
          hreads hlines
        subst heq
        exact Outline.State.alikeLines_noted hcode hclosed he hw (hends hsource)
      | indented hw => exact Outline.State.alikeLines_indented hw (hends hsource)
      | returned heq =>
        subst heq
        exact Outline.State.alikeLines_returned _
      | ended hfeed => exact Outline.State.alikeLines_ended (hends hsource) hfeed
    obtain ⟨t', ht', halike⟩ := hs.takeLine hlike ht
    exact ⟨t', bind_eq_ok.2 ⟨t', ht', rfl⟩, halike⟩
  | @broken before after l x y w hsource hsource' hsplit hx hbar hw =>
    have hold : source.lines = before ++ ([l] ++ after) := hsource
    have hnew : source'.lines = before ++
        ([(Line.ofText l).indent ++ (Line.ofText l).marker ++ x ++ ['\n'],
          w ++ '|' :: y ++ (Line.ofText l).comment ++ (Line.ofText l).ending] ++ after) := hsource'
    refine Outline.exists_alike_of_replaced ho hold hnew (List.cons_ne_nil _ _)
      fun s t u hs ht hu hfinish => ?_
    obtain ⟨t, ht, ⟨⟩⟩ := bind_eq_ok.1 ht
    have hplace : Place.code.after x = .code := by
      simpa [Place.isCode] using (Bool.and_eq_true_iff.1 hbar).1
    exact hs.broken ht hsplit hx hplace hw (hends hsource)

/-- However a source is laid out anew, it is the same grammar, if no literal of it goes over a line
feed. -/
theorem ofText_of_relaid (h : ofText source = .ok g)
    (hlines : ∀ r ∈ g.rules, ∀ l ∈ r.body.literals, '\n' ∉ l.body)
    (hrelaid : Relation.ReflTransGen Text.Relaid source source') : ofText source' = .ok g := by
  induction hrelaid with
  | refl => exact h
  | tail _ hstep ih => exact ofText_of_relaid_once ih hlines hstep

/-- A break in a group, a remark behind it with a quote and a `::=`, and a comment behind a `#` in a
literal. -/
theorem ofText_of_relaid_five_times :
    let quoted (c : Char) : Expr := .literal ⟨[c], .single⟩
    let g : Grammar := ⟨[⟨['d'], .alt [quoted '#', quoted '0'], true⟩,
      ⟨['s'], .seq [.name ['d'], .alt [.name ['d'], quoted '|']], false⟩], none⟩
    let source : Text := "#atomic d ::= '#' | '0'\ns ::= d (d | '|')\n".toList
    let relaid : Text :=
      "  #atomic d ::= '#' | '0' # it's\ns ::= d (d \n# ' ::= (\n\t| '|')\r\n".toList
    ofText source = .ok g ∧ (∀ r ∈ g.rules, ∀ l ∈ r.body.literals, '\n' ∉ l.body) ∧
      Relation.ReflTransGen Text.Relaid source relaid ∧ ofText relaid = .ok g := by
  intro quoted g source relaid
  have hg : g.WellFormed :=
    ⟨List.forall_mem_cons.2 ⟨⟨by decide, by decide, by decide, by decide⟩,
      List.forall_mem_singleton.2 ⟨by decide, by decide, by decide, by decide⟩⟩, by decide, nofun⟩
  have houtline : Outline.ofText source = .ok
      ⟨[⟨['d'], 8, " '#' | '0'".toList, 13, true⟩, ⟨['s'], 24, " d (d | '|')".toList, 29, false⟩],
        none⟩ := rfl
  have hread : ofText source = .ok g :=
    ofText_of_defines hg houtline (.cons ⟨rfl, rfl, rfl⟩ (.cons ⟨rfl, rfl, rfl⟩ .nil)) rfl
  have hlines : ∀ r ∈ g.rules, ∀ l ∈ r.body.literals, '\n' ∉ l.body := by decide
  have hrelaid : Relation.ReflTransGen Text.Relaid source relaid := by
    let first : Text := "#atomic d ::= '#' | '0'\n".toList
    let second : Text := "s ::= d (d | '|')\n".toList
    let front : Text := "s ::= d (d \n".toList
    let remark : Text := "# ' ::= (\n".toList
    let back : Text := "\t| '|')\n".toList
    let noted : Text := "#atomic d ::= '#' | '0' # it's\n".toList
    let indented : Text := "  ".toList ++ noted
    have hbroken : source.Relaid (first ++ front ++ back) :=
      @Text.Relaid.broken _ _ [first] [] second "s ::= d (d ".toList " '|')".toList ['\t']
        rfl rfl rfl rfl rfl (List.forall_mem_singleton.2 (.inr rfl))
    have hremark : (first ++ front ++ back).Relaid (first ++ front ++ remark ++ back) :=
      @Text.Relaid.remark _ _ [first, front] [back] remark rfl rfl
        ⟨rfl, rfl, List.cons_ne_nil _ _, rfl⟩
    have hnoted : (first ++ front ++ remark ++ back).Relaid (noted ++ front ++ remark ++ back) :=
      @Text.Relaid.line _ _ [] [front, remark, back] first noted rfl rfl
        (@Text.RelaidLine.noted first "#atomic d ::= '#' | '0'".toList ['\n'] [' '] " it's".toList
          rfl rfl (List.forall_mem_singleton.2 rfl) (List.forall_mem_singleton.2 (.inl rfl)))
    have hindented : (noted ++ front ++ remark ++ back).Relaid
        (indented ++ front ++ remark ++ back) :=
      @Text.Relaid.line _ _ [] [front, remark, back] noted indented rfl rfl
        (.indented (List.forall_mem_cons.2 ⟨.inl rfl, List.forall_mem_singleton.2 (.inl rfl)⟩))
    have hreturned : (indented ++ front ++ remark ++ back).Relaid relaid :=
      @Text.Relaid.line _ _ [indented, front, remark] [] back _ rfl rfl
        (@Text.RelaidLine.returned back "\t| '|')".toList rfl)
    exact ((((Relation.ReflTransGen.single hbroken).tail hremark).tail hnoted).tail
      hindented).tail hreturned
  exact ⟨hread, hlines, hrelaid, ofText_of_relaid hread hlines hrelaid⟩

end Grammar
end ExtendedBnf
