import ExtendedBnf.Outline

/-!
# What a line does

Reading a line notes its mark, then its start declaration, and then its content
does one of four things: a vacant line ends the pending definition, a line without
code leaves it pending, an alternative goes on with it, and a header ends it and
begins another. What is known of each case is stated here once.
-/
namespace ExtendedBnf
namespace Outline.State
variable {s s' : State} {line : Line}

/-- The definitions that are known, the pending one included. -/
def written (s : State) : List Definition :=
  s.outline.definitions ++ s.pending.toList.map (·.definition)

theorem takeMark_eq_ok_iff :
    s.takeMark line = .ok s' ↔ line.isMarked = false ∧ s' = s ∨
      line.isMarked ∧ s.mark = none ∧
        s' = { s with mark := some (s.offset + line.indent.size) } := by
  unfold takeMark
  cases hmarked : line.isMarked with
  | false => simp [eq_comm (a := s')]
  | true => cases hmark : s.mark <;> simp [eq_comm (a := s')]

theorem takeStart_eq_ok_iff :
    s.takeStart line = .ok s' ↔ line.startSymbol? = none ∧ s' = s ∨
      ∃ symbol, line.startSymbol? = some symbol ∧ symbol.isName ∧ s.outline.start = none ∧
        s' = { s with
          outline := { s.outline with start := some ⟨symbol, s.offset + line.indent.size⟩ } } := by
  unfold takeStart
  cases hsymbol : line.startSymbol? with
  | none => simp [eq_comm (a := s')]
  | some symbol =>
    cases hname : symbol.isName with
    | false => simp [hname]
    | true => cases hstart : s.outline.start <;> simp [hname, eq_comm (a := s')]

theorem written_of_takeMark (h : s.takeMark line = .ok s') : s'.written = s.written := by
  obtain ⟨-, rfl⟩ | ⟨-, -, rfl⟩ := takeMark_eq_ok_iff.1 h <;> rfl

theorem start_of_takeMark (h : s.takeMark line = .ok s') :
    s'.outline.start = s.outline.start := by
  obtain ⟨-, rfl⟩ | ⟨-, -, rfl⟩ := takeMark_eq_ok_iff.1 h <;> rfl

theorem written_of_takeStart (h : s.takeStart line = .ok s') : s'.written = s.written := by
  obtain ⟨-, rfl⟩ | ⟨symbol, -, -, -, rfl⟩ := takeStart_eq_ok_iff.1 h <;> rfl

theorem mark_of_takeStart (h : s.takeStart line = .ok s') : s'.mark = s.mark := by
  obtain ⟨-, rfl⟩ | ⟨symbol, -, -, -, rfl⟩ := takeStart_eq_ok_iff.1 h <;> rfl

theorem close_eq_ok_iff :
    s.close = .ok s' ↔ s.pending = none ∧ s' = s ∨
      ∃ p, s.pending = some p ∧ p.definition.body.isBlankText = false ∧
        s' = { s with
          outline := { s.outline with definitions := s.outline.definitions ++ [p.definition] }
          pending := none } := by
  unfold close
  cases hpending : s.pending with
  | none => simp [eq_comm (a := s')]
  | some p => cases hblank : p.definition.body.isBlankText <;> simp [hblank, eq_comm (a := s')]

theorem pending_of_close (h : s.close = .ok s') : s'.pending = none := by
  obtain ⟨hpending, rfl⟩ | ⟨p, -, -, rfl⟩ := close_eq_ok_iff.1 h
  · exact hpending
  · rfl

theorem written_of_close (h : s.close = .ok s') : s'.outline.definitions = s.written := by
  obtain ⟨hpending, rfl⟩ | ⟨p, hpending, -, rfl⟩ := close_eq_ok_iff.1 h <;>
    simp [written, hpending]

theorem start_of_close (h : s.close = .ok s') : s'.outline.start = s.outline.start := by
  obtain ⟨-, rfl⟩ | ⟨p, -, -, rfl⟩ := close_eq_ok_iff.1 h <;> rfl

theorem mark_of_close (h : s.close = .ok s') : s'.mark = s.mark := by
  obtain ⟨-, rfl⟩ | ⟨p, -, -, rfl⟩ := close_eq_ok_iff.1 h <;> rfl

theorem finish_eq_ok_iff {o : Outline} :
    s.finish = .ok o ↔
      ∃ closed, s.close = .ok closed ∧ closed.mark = none ∧ closed.outline = o := by
  simp only [finish, bind_eq_ok]
  refine exists_congr fun closed => and_congr_right fun _ => ?_
  cases closed.mark <;> simp

theorem written_of_finish {o : Outline} (h : s.finish = .ok o) : o.definitions = s.written := by
  obtain ⟨closed, hclose, -, rfl⟩ := finish_eq_ok_iff.1 h
  exact written_of_close hclose

/-- What the content of a line does. -/
inductive Takes (line : Line) (s : State) : State → Prop
  | vacant {closed : State} : line.hasCode = false → line.isVacant → s.close = .ok closed →
      Takes line s closed
  | idle : line.hasCode = false → line.isVacant = false → Takes line s
      { s with pending := s.pending.map fun p => { p with gap := p.gap ++ line.blanked } }
  | alternative {p : Pending} : line.hasCode → ['|'].isPrefixOf line.code.trimStart →
      s.pending = some p → s.mark = none → Takes line s { s with pending := some (extend line p) }
  | header {before rest : Text} {closed : State} : line.hasCode →
      ['|'].isPrefixOf line.code.trimStart = false →
      line.code.cutCode "::=".toList.isPrefixOf .code = some (before, rest) →
      s.close = .ok closed → before.trim.isName → Takes line s
        { closed with
          pending := some
            { definition :=
                { name := before.trim
                  nameOffset := s.offset + line.codeOffset +
                    Text.size (line.code.takeWhile Text.isBlank)
                  body := Text.trimEnd (rest.drop 3)
                  bodyOffset := s.offset + line.codeOffset + before.size + 3
                  atomic := closed.mark.isSome }
              gap := gapAfter line }
          mark := none }

/-- The content of a line declares no start symbol. -/
theorem start_of_takes (h : Takes line s s') : s'.outline.start = s.outline.start := by
  cases h with
  | vacant _ _ hclose => exact start_of_close hclose
  | idle => rfl
  | alternative => rfl
  | header _ _ _ hclose => exact (start_of_close hclose :)

theorem takes_of_takeContent (h : s.takeContent line = .ok s') : Takes line s s' := by
  unfold takeContent at h
  split at h
  next hcode =>
    unfold takeCode at h
    dsimp only at h
    split at h
    next hbar =>
      split at h
      next p hpending hmark =>
        cases h
        exact .alternative hcode hbar hpending hmark
      next => cases h
    next hbar =>
      split at h
      next => cases h
      next before rest hcut =>
        obtain ⟨closed, hclosed, hrest⟩ := bind_eq_ok.1 h
        split at hrest
        next => cases hrest
        next hname =>
          cases hrest
          exact .header hcode (Bool.eq_false_iff.2 hbar) hcut hclosed (by simpa using hname)
  next hcode =>
    split at h
    next hvacant => exact .vacant (by simpa using hcode) hvacant h
    next hvacant =>
      cases h
      exact .idle (by simpa using hcode) (by simpa using hvacant)

theorem takeContent_of_takes (h : Takes line s s') : s.takeContent line = .ok s' := by
  cases h with
  | vacant hcode hvacant hclose =>
    rw [takeContent, hcode, if_neg Bool.false_ne_true, if_pos hvacant, hclose]
  | idle hcode hvacant =>
    rw [takeContent, hcode, if_neg Bool.false_ne_true, hvacant, if_neg Bool.false_ne_true]
  | alternative hcode hbar hpending hmark =>
    rw [takeContent, if_pos hcode, takeCode, if_pos hbar, hpending, hmark]
  | header hcode hbar hcut hclose hname =>
    rw [takeContent, if_pos hcode, takeCode, hbar, if_neg Bool.false_ne_true, hcut]
    dsimp only
    rw [hclose, hname]
    rfl

end Outline.State
end ExtendedBnf
