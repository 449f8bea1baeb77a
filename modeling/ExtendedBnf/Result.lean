/-!
# Results that may be faults

When steps in a row, or one step for each member of a list, come to a value, and
which step is to blame when they do not.
-/
namespace ExtendedBnf

section
variable {ε α β : Type} {x : Except ε α}

theorem pure_eq_ok {a b : α} : (pure a : Except ε α) = .ok b ↔ a = b := by
  simp [pure, Except.pure]

theorem bind_eq_ok {f : α → Except ε β} {b : β} :
    x >>= f = .ok b ↔ ∃ a, x = .ok a ∧ f a = .ok b := by
  cases x <;> simp [bind, Except.bind]

theorem bind_eq_error {f : α → Except ε β} {fault : ε} :
    x >>= f = .error fault ↔ x = .error fault ∨ ∃ a, x = .ok a ∧ f a = .error fault := by
  cases x <;> simp [bind, Except.bind]

theorem map_eq_ok {f : α → β} {b : β} : x.map f = .ok b ↔ ∃ a, x = .ok a ∧ f a = b := by
  cases x <;> simp [Except.map]

theorem map_eq_error {f : α → β} {fault : ε} : x.map f = .error fault ↔ x = .error fault := by
  cases x <;> simp [Except.map]

theorem mapError_eq_ok {δ : Type} {f : ε → δ} {a : α} : x.mapError f = .ok a ↔ x = .ok a := by
  cases x with
  | error e => constructor <;> rintro ⟨⟩
  | ok b => constructor <;> rintro ⟨⟩ <;> rfl

theorem mapError_eq_error {δ : Type} {f : ε → δ} {fault : δ} :
    x.mapError f = .error fault ↔ ∃ found, x = .error found ∧ f found = fault := by
  constructor
  · intro h
    cases x with
    | error found => exact ⟨found, rfl, Except.error.inj h⟩
    | ok a => cases h
  · rintro ⟨found, rfl, rfl⟩
    rfl

theorem exists_map_eq_ok {f : α → β} : (∃ b, x.map f = .ok b) ↔ ∃ a, x = .ok a := by
  cases x <;> simp [Except.map]

end

section
variable {ε α β : Type} {f : α → Except ε β}

/-- A member is to blame. -/
theorem exists_mem_of_mapM_eq_error {as : List α} {fault : ε} (h : as.mapM f = .error fault) :
    ∃ a ∈ as, f a = .error fault := by
  induction as with
  | nil => cases h
  | cons a as ih =>
    rw [List.mapM_cons, bind_eq_error] at h
    rcases h with ha | ⟨b, -, hrest⟩
    · exact ⟨a, List.mem_cons_self, ha⟩
    · rcases bind_eq_error.1 hrest with has | ⟨bs, -, hpure⟩
      · obtain ⟨c, hc, hfault⟩ := ih has
        exact ⟨c, List.mem_cons_of_mem a hc, hfault⟩
      · cases hpure

/-- The first member at fault is to blame. -/
theorem mapM_eq_error_iff {g : α → Option ε} {as : List α} {fault : ε}
    (h : ∀ a ∈ as, ∀ fault, f a = .error fault ↔ g a = some fault) :
    as.mapM f = .error fault ↔ as.findSome? g = some fault := by
  induction as with
  | nil => simp [pure, Except.pure]
  | cons a as ih =>
    have hrest := ih fun x hx => h x (List.mem_cons_of_mem a hx)
    have ha := h a List.mem_cons_self
    rw [List.mapM_cons, List.findSome?_cons]
    cases hfa : f a with
    | error found =>
      rw [(ha found).1 hfa]
      simp [bind, Except.bind]
    | ok b =>
      have hnone : g a = none := Option.eq_none_iff_forall_ne_some.2 fun found hfound => by
        cases hfa.symm.trans ((ha found).2 hfound)
      rw [hnone]
      dsimp only
      rw [← hrest]
      cases as.mapM f <;> simp [bind, Except.bind, pure, Except.pure]

theorem mapM_eq_ok_map {g : α → β} {as : List α} (h : ∀ a ∈ as, f a = .ok (g a)) :
    as.mapM f = .ok (as.map g) := by
  induction as with
  | nil => rfl
  | cons a as ih =>
    have hrest := ih fun x hx => h x (List.mem_cons_of_mem a hx)
    rw [List.mapM_cons, h a List.mem_cons_self, hrest]
    rfl

/-- The values are those of a function. -/
theorem exists_map_of_mapM_eq_ok [Inhabited β] {as : List α} {bs : List β}
    (h : as.mapM f = .ok bs) : ∃ g : α → β, (∀ a ∈ as, f a = .ok (g a)) ∧ bs = as.map g := by
  let g (a : α) : β := (f a).toOption.getD default
  have hg {a : α} {b : β} (hb : f a = .ok b) : g a = b := by simp [g, hb, Except.toOption]
  refine ⟨g, ?_⟩
  induction as generalizing bs with
  | nil =>
    cases h
    exact ⟨fun _ ha => absurd ha List.not_mem_nil, rfl⟩
  | cons a as ih =>
    rw [List.mapM_cons, bind_eq_ok] at h
    obtain ⟨b, hb, hrest⟩ := h
    obtain ⟨cs, hcs, hpure⟩ := bind_eq_ok.1 hrest
    cases hpure
    obtain ⟨hall, rfl⟩ := ih hcs
    rw [List.map_cons, hg hb]
    exact ⟨List.forall_mem_cons.2 ⟨by rw [hg hb, hb], hall⟩, rfl⟩

/-- Steps one round after the other come to the values of both in one round. -/
theorem mapM_bind_eq_ok_iff {γ : Type} {g : β → Except ε γ} {as : List α} {cs : List γ} :
    as.mapM (fun a => f a >>= g) = .ok cs ↔ ∃ bs, as.mapM f = .ok bs ∧ bs.mapM g = .ok cs := by
  induction as generalizing cs with
  | nil =>
    constructor
    · exact fun h => ⟨[], rfl, h⟩
    · rintro ⟨_, ⟨⟩, h⟩
      exact h
  | cons a as ih =>
    simp only [List.mapM_cons, bind_eq_ok, pure_eq_ok, ih]
    constructor
    · rintro ⟨c, ⟨b, hb, hc⟩, cs, ⟨bs, hbs, hcs⟩, rfl⟩
      refine ⟨b :: bs, ⟨b, hb, bs, hbs, rfl⟩, ?_⟩
      rw [List.mapM_cons, hc, hcs]
      rfl
    · rintro ⟨_, ⟨b, hb, bs, hbs, rfl⟩, h⟩
      rw [List.mapM_cons, bind_eq_ok] at h
      obtain ⟨c, hc, hrest⟩ := h
      obtain ⟨cs, hcs, hpure⟩ := bind_eq_ok.1 hrest
      exact ⟨c, ⟨b, hb, hc⟩, cs, ⟨bs, hbs, hcs⟩, pure_eq_ok.1 hpure⟩

theorem mapM_map_eq_ok_iff {γ : Type} {g : β → γ} {as : List α} {cs : List γ} :
    as.mapM (fun a => (f a).map g) = .ok cs ↔ ∃ bs, as.mapM f = .ok bs ∧ bs.map g = cs := by
  have hbind : (fun a => (f a).map g) = fun a => f a >>= fun b => .ok (g b) := by
    funext a
    cases f a <;> rfl
  have hmap (bs : List β) : bs.mapM (fun b => (.ok (g b) : Except ε γ)) = .ok (bs.map g) :=
    mapM_eq_ok_map fun _ _ => rfl
  simp only [hbind, mapM_bind_eq_ok_iff, hmap, Except.ok.injEq]

/-- Every member comes to a value. -/
theorem exists_mem_mapM_of_mem {as : List α} {bs : List β} (h : as.mapM f = .ok bs) {a : α}
    (ha : a ∈ as) : ∃ b ∈ bs, f a = .ok b := by
  induction as generalizing bs with
  | nil => cases ha
  | cons c as ih =>
    rw [List.mapM_cons, bind_eq_ok] at h
    obtain ⟨b, hb, hrest⟩ := h
    obtain ⟨cs, hcs, hpure⟩ := bind_eq_ok.1 hrest
    cases hpure
    rcases List.mem_cons.1 ha with rfl | ha
    · exact ⟨b, List.mem_cons_self, hb⟩
    · obtain ⟨x, hx, hax⟩ := ih hcs ha
      exact ⟨x, List.mem_cons_of_mem b hx, hax⟩

/-- Every value comes from a member. -/
theorem exists_mem_of_mem_mapM {as : List α} {bs : List β} (h : as.mapM f = .ok bs) {b : β}
    (hb : b ∈ bs) : ∃ a ∈ as, f a = .ok b := by
  induction as generalizing bs with
  | nil => cases h; cases hb
  | cons a as ih =>
    rw [List.mapM_cons, bind_eq_ok] at h
    obtain ⟨c, hc, hrest⟩ := h
    obtain ⟨cs, hcs, hpure⟩ := bind_eq_ok.1 hrest
    cases hpure
    rcases List.mem_cons.1 hb with rfl | hb
    · exact ⟨a, List.mem_cons_self, hc⟩
    · obtain ⟨x, hx, hxb⟩ := ih hcs hb
      exact ⟨x, List.mem_cons_of_mem a hx, hxb⟩

end

end ExtendedBnf
