import ExtendedBnf.Proofs.FaultPlaces
import ExtendedBnf.Proofs.ParenMatching

/-!
# Cuts at bytes

A text can be cut at two bytes if the first does not stand behind the second and both are
between two characters. A computation on byte indices slips where it asks for any other
cut, or where it takes more from a number than there is. It follows a computation without
indices if the values of both belong together and the faults of both are the same, so what
follows anything never slips.
-/
namespace ExtendedBnf

/-- Why a computation on byte indices stops. -/
inductive Halt (ε : Type) where
  /-- There is no cut at the index asked for, or no number below zero. -/
  | slip
  | fault (found : ε)
  deriving DecidableEq, Repr

namespace Halt
variable {ε δ α β γ σ : Type}

/-- The fault in other words. -/
def map (f : ε → δ) : Halt ε → Halt δ
  | slip => slip
  | fault found => fault (f found)

/-- A result that is come to without indices. -/
def lift (x : Except ε α) : Except (Halt ε) α := x.mapError fault

@[simp] theorem lift_ok (a : α) : lift (.ok a : Except ε α) = .ok a := rfl

theorem ok_bind (a : α) (f : α → Except ε β) : (.ok a : Except ε α) >>= f = f a := rfl

/-- A computation with indices comes to what one without comes to, if each of its steps does. -/
theorem bind_eq_lift {x : Except ε α} {y : Except (Halt ε) α} {f : α → Except ε β}
    {g : α → Except (Halt ε) β} (h : y = lift x) (hnext : ∀ a, g a = lift (f a)) :
    y >>= g = lift (x >>= f) := by
  subst h
  cases x with
  | ok a => exact hnext a
  | error found => rfl

theorem lift_map (x : Except ε α) (f : α → β) : lift (x.map f) = (lift x).map f := by
  cases x <;> rfl

theorem lift_mapError (x : Except ε α) (f : ε → δ) :
    lift (x.mapError f) = (lift x).mapError (map f) := by
  cases x <;> rfl

theorem lift_ne_slip (x : Except ε α) : lift x ≠ .error .slip := by
  cases x <;> nofun

/-- Both come to values that belong together, or both to one fault. -/
inductive Follows (R : α → β → Prop) : Except ε α → Except (Halt ε) β → Prop
  | ok {a : α} {b : β} : R a b → Follows R (.ok a) (.ok b)
  | fault (found : ε) : Follows R (.error found) (.error (.fault found))

theorem follows_eq_iff {x : Except ε α} {y : Except (Halt ε) α} :
    Follows Eq x y ↔ y = lift x := by
  constructor
  · intro h
    cases h with
    | ok h => rw [h, lift_ok]
    | fault => rfl
  · rintro rfl
    cases x with
    | ok a => exact .ok rfl
    | error found => exact .fault found

theorem Follows.imp {R S : α → β → Prop} {x : Except ε α} {y : Except (Halt ε) β}
    (h : Follows R x y) (himp : ∀ a b, R a b → S a b) : Follows S x y := by
  cases h with
  | ok h => exact .ok (himp _ _ h)
  | fault found => exact .fault found

theorem Follows.bind {R : α → β → Prop} {S : γ → σ → Prop} {x : Except ε α}
    {y : Except (Halt ε) β} {f : α → Except ε γ} {g : β → Except (Halt ε) σ}
    (h : Follows R x y) (hnext : ∀ a b, R a b → Follows S (f a) (g b)) :
    Follows S (x >>= f) (y >>= g) := by
  cases h with
  | ok h => exact hnext _ _ h
  | fault found => exact .fault found

/-- Steps that follow each other, once for each item. -/
theorem Follows.foldlM {R : α → β → Prop} {f : α → γ → Except ε α}
    {g : β → γ → Except (Halt ε) β} (h : ∀ a b c, R a b → Follows R (f a c) (g b c))
    (cs : List γ) {a : α} {b : β} (hab : R a b) : Follows R (cs.foldlM f a) (cs.foldlM g b) := by
  induction cs generalizing a b with
  | nil => exact .ok hab
  | cons c cs ih =>
    rw [List.foldlM_cons, List.foldlM_cons]
    exact (h a b c hab).bind fun _ _ hnext => ih hnext

/-- The difference of two numbers, the first of which is not the smaller one. -/
def minus (m n : Nat) : Except (Halt ε) Nat := if n ≤ m then .ok (m - n) else .error .slip

theorem minus_add (m n : Nat) : (minus (m + n) n : Except (Halt ε) Nat) = .ok m := by
  rw [minus, if_pos (Nat.le_add_left n m), Nat.add_sub_cancel]

end Halt

namespace Text
variable {ε : Type} {t s : Text} {i j n : Nat}

/-- The first bytes of the text, if their number is a position in it. -/
def takeBytes? : Nat → Text → Option Text
  | 0, _ => some []
  | _ + 1, [] => none
  | n + 1, c :: r =>
    if c.utf8Size ≤ n + 1 then (takeBytes? (n + 1 - c.utf8Size) r).map (c :: ·) else none

/-- What stands between two bytes of the text. -/
def slice? (t : Text) (i j : Nat) : Option Text :=
  if i ≤ j then (dropBytes? i t).bind (takeBytes? (j - i)) else none

/-- What stands between two bytes of the text, which must be places to cut. -/
def cut (t : Text) (i j : Nat) : Except (Halt ε) Text :=
  match t.slice? i j with
  | some s => .ok s
  | none => .error .slip

theorem takeBytes?_size_append (s t : Text) : takeBytes? (size s) (s ++ t) = some s := by
  induction s with
  | nil => simp [takeBytes?]
  | cons c s ih =>
    obtain ⟨n, hn⟩ : ∃ n, size (c :: s) = n + 1 :=
      ⟨size (c :: s) - 1, by have := c.utf8Size_pos; simp; omega⟩
    rw [hn, List.cons_append, takeBytes?, if_pos (by rw [← hn]; simp), ← hn]
    simp [ih]

theorem exists_of_takeBytes? (h : takeBytes? n t = some s) :
    ∃ b, t = s ++ b ∧ n = size s := by
  induction t generalizing n s with
  | nil =>
    cases n with
    | zero =>
      cases h
      exact ⟨[], rfl, rfl⟩
    | succ n => cases h
  | cons c r ih =>
    cases n with
    | zero =>
      cases h
      exact ⟨c :: r, rfl, rfl⟩
    | succ n =>
      rw [takeBytes?] at h
      split at h
      next hle =>
        obtain ⟨u, hu, rfl⟩ := Option.map_eq_some_iff.1 h
        obtain ⟨b, rfl, hsize⟩ := ih hu
        refine ⟨b, rfl, ?_⟩
        rw [size_cons, ← hsize]
        omega
      next => cases h

/-- A slice is a part of the text whose beginning and end are at the bytes. -/
theorem slice?_eq_some_iff :
    t.slice? i j = some s ↔ ∃ a b, t = a ++ s ++ b ∧ i = size a ∧ j = size (a ++ s) := by
  unfold slice?
  constructor
  · intro h
    split at h
    next hle =>
      obtain ⟨r, hr, hs⟩ := Option.bind_eq_some_iff.1 h
      obtain ⟨a, rfl, rfl⟩ := exists_of_dropBytes? hr
      obtain ⟨b, rfl, hsize⟩ := exists_of_takeBytes? hs
      refine ⟨a, b, (List.append_assoc ..).symm, rfl, ?_⟩
      rw [size_append]
      omega
    next => cases h
  · rintro ⟨a, b, rfl, rfl, rfl⟩
    rw [size_append, if_pos (Nat.le_add_right ..), Nat.add_sub_cancel_left, List.append_assoc,
      dropBytes?_size_append]
    exact takeBytes?_size_append s b

theorem cut_eq_ok_iff : (t.cut i j : Except (Halt ε) Text) = .ok s ↔
    ∃ a b, t = a ++ s ++ b ∧ i = size a ∧ j = size (a ++ s) := by
  rw [← slice?_eq_some_iff, cut]
  cases t.slice? i j <;> simp

/-- A part of the text can be cut out. -/
theorem cut_of_eq {a b : Text} (h : t = a ++ s ++ b) (hi : i = size a) (hj : j = size a + size s) :
    (t.cut i j : Except (Halt ε) Text) = .ok s :=
  cut_eq_ok_iff.2 ⟨a, b, h, hi, by rw [hj, size_append]⟩

theorem cut_front {a b : Text} (h : t = a ++ b) :
    (t.cut 0 (size a) : Except (Halt ε) Text) = .ok a :=
  cut_of_eq (a := []) h rfl (Nat.zero_add _).symm

theorem cut_back {a b : Text} (h : t = a ++ b) :
    (t.cut (size a) (size t) : Except (Halt ε) Text) = .ok b :=
  cut_of_eq (b := []) (h.trans (List.append_nil _).symm) rfl (by rw [h, size_append])

/-- A cut slips unless both bytes are between two characters and in their order. -/
theorem cut_eq_slip_iff : (t.cut i j : Except (Halt ε) Text) = .error .slip ↔
    ¬ (i ≤ j ∧ t.IsPlace i ∧ t.IsPlace j) := by
  have hiff : (∃ s, (t.cut i j : Except (Halt ε) Text) = .ok s) ↔
      i ≤ j ∧ t.IsPlace i ∧ t.IsPlace j := by
    simp only [cut_eq_ok_iff]
    constructor
    · rintro ⟨s, a, b, rfl, rfl, rfl⟩
      refine ⟨?_, ⟨a, s ++ b, List.append_assoc .., rfl⟩, ⟨a ++ s, b, rfl, rfl⟩⟩
      rw [size_append]
      exact Nat.le_add_right ..
    · rintro ⟨hle, ⟨a, x, rfl, rfl⟩, u, v, heq, rfl⟩
      obtain ⟨s, rfl, rfl⟩ : ∃ s, u = a ++ s ∧ x = s ++ v := by
        obtain ⟨s, rfl, rfl⟩ | ⟨s, rfl, rfl⟩ := List.append_eq_append_iff.1 heq
        · exact ⟨s, rfl, rfl⟩
        · have hempty : s = [] := by
            rw [size_append] at hle
            exact List.length_eq_zero_iff.1 (by have := length_le_size s; omega)
          subst hempty
          exact ⟨[], by simp, rfl⟩
      exact ⟨s, a, v, (List.append_assoc ..).symm, rfl, rfl⟩
  rw [← hiff, cut]
  cases t.slice? i j <;> simp

end Text
end ExtendedBnf
