import ExtendedBnf.Proofs.SoundTrees

/-!
# Names in Pascal case

The Pascal form of a name starts with the first character of the name that is no
underscore, in upper case, and has no underscore itself. Only a name of underscores
alone has nothing to start with, and stays as it is. So the Pascal form of a Pascal form
is the same again, and it is a name unless a digit comes first after the underscores.
-/
namespace ExtendedBnf
namespace Text

section
variable {mark : Char}

theorem segments_mark (mark : Char) (r : Text) :
    segments mark (mark :: r) = [] :: segments mark r := by
  rw [segments, if_pos rfl]

theorem segments_cons {c : Char} {r s : Text} {ss : List Text} (h : c ≠ mark)
    (hr : segments mark r = s :: ss) : segments mark (c :: r) = (c :: s) :: ss := by
  rw [segments, if_neg h, hr]

/-- A text without the mark is a single part. -/
theorem segments_of_notMem {t : Text} (h : mark ∉ t) : segments mark t = [t] := by
  induction t with
  | nil => rfl
  | cons c r ih =>
    obtain ⟨hc, hr⟩ := not_or.1 (mt List.mem_cons.2 h)
    exact segments_cons (Ne.symm hc) (ih hr)

/-- No part has a mark in it. -/
theorem notMem_of_mem_segments {s t : Text} (h : s ∈ segments mark t) : mark ∉ s := by
  induction t generalizing s with
  | nil =>
    obtain rfl := List.mem_singleton.1 h
    exact List.not_mem_nil
  | cons c r ih =>
    by_cases hc : c = mark
    · rw [hc, segments_mark] at h
      obtain rfl | h := List.mem_cons.1 h
      · exact List.not_mem_nil
      · exact ih h
    · obtain ⟨u, us, hu⟩ := List.exists_cons_of_ne_nil (segments_ne_nil mark r)
      rw [segments_cons hc hu] at h
      obtain rfl | h := List.mem_cons.1 h
      · exact mt List.mem_cons.1 (not_or.2 ⟨Ne.symm hc, ih (hu ▸ List.mem_cons_self)⟩)
      · exact ih (hu ▸ List.mem_cons_of_mem u h)

end

/-- The parts between underscores, each with a capital, one after the other. -/
def humps (t : Text) : Text := (segments '_' t).flatMap capitalize

theorem pascalCase_of_humps {t : Text} (h : t.humps ≠ []) : t.pascalCase = t.humps := by
  unfold pascalCase
  split
  next hnil => exact absurd hnil h
  next => rfl

theorem pascalCase_of_humps_eq_nil {t : Text} (h : t.humps = []) : t.pascalCase = t := by
  unfold pascalCase
  rw [show (segments '_' t).flatMap capitalize = [] from h]

theorem humps_underscore (r : Text) : humps ('_' :: r) = humps r := by
  rw [humps, segments_mark, List.flatMap_cons]
  rfl

theorem exists_humps_cons {c : Char} (h : c ≠ '_') (r : Text) :
    ∃ s, humps (c :: r) = upperCase c ++ s := by
  obtain ⟨u, us, hu⟩ := List.exists_cons_of_ne_nil (segments_ne_nil '_' r)
  refine ⟨u ++ us.flatMap capitalize, ?_⟩
  rw [humps, segments_cons h hu, List.flatMap_cons, capitalize, List.append_assoc]

/-- What upper case does to the characters of names. -/
theorem toUpper_of_isNameRest {c : Char} (h : isNameRest c) :
    upperCase c = [c.toUpper] ∧ c.toUpper.toUpper = c.toUpper ∧ (c.toUpper = '_' ↔ c = '_') ∧
      c.toUpper.isDigit = c.isDigit ∧ isNameRest c.toUpper := by
  have hascii : ∀ n < 0x80, isNameRest (Char.ofNat n) →
      (Char.ofNat n).toUpper.toUpper = (Char.ofNat n).toUpper ∧
      ((Char.ofNat n).toUpper = '_' ↔ Char.ofNat n = '_') ∧
      (Char.ofNat n).toUpper.isDigit = (Char.ofNat n).isDigit ∧
      isNameRest (Char.ofNat n).toUpper := by decide
  have hlt := toNat_lt_of_isNameRest h
  exact ⟨upperCase_of_ascii hlt, forall_ascii (p := fun c => isNameRest c →
    c.toUpper.toUpper = c.toUpper ∧ (c.toUpper = '_' ↔ c = '_') ∧
      c.toUpper.isDigit = c.isDigit ∧ isNameRest c.toUpper) hascii hlt h⟩

theorem isNameStart_iff {c : Char} (h : isNameRest c) : isNameStart c ↔ c.isDigit = false := by
  have hascii : ∀ n < 0x80, isNameRest (Char.ofNat n) →
      (isNameStart (Char.ofNat n) ↔ (Char.ofNat n).isDigit = false) := by decide
  exact forall_ascii (p := fun c => isNameRest c → (isNameStart c ↔ c.isDigit = false)) hascii
    (toNat_lt_of_isNameRest h) h

section
variable {t : Text} (h : ∀ c ∈ t, isNameRest c)
include h

/-- The first character is the first one that is no underscore, in upper case. -/
theorem head?_humps : t.humps.head? = (t.find? (· != '_')).map Char.toUpper := by
  induction t with
  | nil => rfl
  | cons c r ih =>
    obtain ⟨hc, hr⟩ := List.forall_mem_cons.1 h
    by_cases hmark : c = '_'
    · rw [hmark, humps_underscore, ih hr]
      rfl
    · obtain ⟨s, hs⟩ := exists_humps_cons hmark r
      have hfind : (c :: r).find? (· != '_') = some c :=
        List.find?_cons_of_pos (p := (· != '_')) (bne_iff_ne.2 hmark)
      rw [hs, (toUpper_of_isNameRest hc).1, hfind]
      rfl

theorem exists_humps_eq (hne : t.humps ≠ []) :
    ∃ c r, t.find? (· != '_') = some c ∧ isNameRest c ∧ t.humps = c.toUpper :: r := by
  obtain ⟨d, r, hd⟩ := List.exists_cons_of_ne_nil hne
  have hhead := head?_humps h
  rw [hd, List.head?_cons, eq_comm, Option.map_eq_some_iff] at hhead
  obtain ⟨c, hc, rfl⟩ := hhead
  exact ⟨c, r, hc, h c (List.mem_of_find?_eq_some hc), hd⟩

theorem humps_eq_nil_iff : t.humps = [] ↔ ∀ c ∈ t, c = '_' := by
  rw [← List.head?_eq_none_iff, head?_humps h, Option.map_eq_none_iff, List.find?_eq_none]
  simp

theorem isNameRest_of_mem_humps {c : Char} (hc : c ∈ t.humps) : isNameRest c := by
  obtain ⟨s, hs, hc⟩ := List.mem_flatMap.1 hc
  exact isNameRest_of_mem_capitalize (fun d hd => h d (mem_of_mem_segments hs hd)) hc

theorem underscore_notMem_humps : '_' ∉ t.humps := by
  intro hmem
  obtain ⟨s, hs, hc⟩ := List.mem_flatMap.1 hmem
  have hpart : '_' ∉ s := notMem_of_mem_segments hs
  cases s with
  | nil => cases hc
  | cons c r =>
    obtain ⟨hupper, -, hmark, -⟩ :=
      toUpper_of_isNameRest (h c (mem_of_mem_segments hs List.mem_cons_self))
    obtain ⟨hfirst, hothers⟩ := not_or.1 (mt List.mem_cons.2 hpart)
    rw [capitalize, hupper] at hc
    obtain heq | hc := List.mem_cons.1 hc
    · exact hfirst (hmark.1 heq.symm).symm
    · exact hothers hc

/-- A Pascal form is one part, and starts in upper case. -/
theorem pascalCase_pascalCase : t.pascalCase.pascalCase = t.pascalCase := by
  by_cases hnil : t.humps = []
  · rw [pascalCase_of_humps_eq_nil hnil, pascalCase_of_humps_eq_nil hnil]
  · rw [pascalCase_of_humps hnil]
    have hagain : t.humps.humps = t.humps := by
      rw [humps, segments_of_notMem (underscore_notMem_humps h), List.flatMap_singleton]
      obtain ⟨c, r, -, hc, hhumps⟩ := exists_humps_eq h hnil
      obtain ⟨-, htwice, -, -, hname⟩ := toUpper_of_isNameRest hc
      rw [hhumps, capitalize, (toUpper_of_isNameRest hname).1, htwice]
      rfl
    rw [pascalCase_of_humps (hagain.trans_ne hnil), hagain]

end

/-- The Pascal form of a name is its own Pascal form, has no underscore unless the name has nothing
else, and is a name just when the first character after the leading underscores is no digit. -/
theorem pascalCase_of_isName {t : Text} (h : t.isName) :
    t.pascalCase.pascalCase = t.pascalCase ∧
    ('_' ∈ t.pascalCase → ∀ c ∈ t, c = '_') ∧
    (t.pascalCase.isName ↔ ∀ c, t.find? (· != '_') = some c → c.isDigit = false) := by
  have hrest : ∀ c ∈ t, isNameRest c := fun _ hc => isNameRest_of_mem h hc
  refine ⟨pascalCase_pascalCase hrest, ?_⟩
  by_cases hnil : t.humps = []
  · have hmarks := (humps_eq_nil_iff hrest).1 hnil
    rw [pascalCase_of_humps_eq_nil hnil]
    refine ⟨fun _ => hmarks, iff_of_true h fun c hc => ?_⟩
    rw [hmarks c (List.mem_of_find?_eq_some hc)]
    rfl
  · rw [pascalCase_of_humps hnil]
    refine ⟨fun hmem => absurd hmem (underscore_notMem_humps hrest), ?_⟩
    obtain ⟨c, r, hfind, hc, hhumps⟩ := exists_humps_eq hrest hnil
    obtain ⟨-, -, -, hdigit, hname⟩ := toUpper_of_isNameRest hc
    have hall : r.all isNameRest := List.all_eq_true.2 fun d hd =>
      isNameRest_of_mem_humps hrest (hhumps ▸ List.mem_cons_of_mem _ hd)
    rw [hhumps, isName, hall, Bool.and_true, isNameStart_iff hname, hdigit, hfind]
    simp

/-- A part may start with a digit if it is not the first one. -/
theorem pascalCase_of_isName_digits :
    let t : Text := "_x1__2y_".toList
    t.isName ∧ t.pascalCase = "X12y".toList ∧ t.pascalCase.pascalCase = t.pascalCase ∧
      '_' ∉ t.pascalCase ∧ t.pascalCase.isName := by
  intro t
  have hname : t.isName := by decide
  obtain ⟨hagain, hmarks, hiff⟩ := pascalCase_of_isName hname
  refine ⟨hname, by decide, hagain, fun hmem => ?_, hiff.2 fun c hc => ?_⟩
  · exact absurd (hmarks hmem 'x' (by decide)) (by decide)
  · obtain rfl : 'x' = c := Option.some.inj hc
    rfl

/-- Without its underscore the name is a number. -/
theorem pascalCase_not_isName : isName ['_', '1'] ∧ ¬ isName (pascalCase ['_', '1']) := by decide

end Text
end ExtendedBnf
