/-!
# Text and its byte positions

A text is a list of characters. Positions in a text are counted in bytes of its
UTF-8 form, so `size` adds the encoded sizes of the characters and the cutting
functions take byte counts. A count that falls inside a character is not a
position: `takeBytes` then stops before that character and `dropBytes?` has no
answer.
-/
namespace ExtendedBnf

/-- A text, as the list of its characters. -/
abbrev Text := List Char

namespace Text

/-- The number of bytes the text takes in UTF-8. -/
def size : Text → Nat
  | [] => 0
  | c :: r => c.utf8Size + size r

@[simp] theorem size_nil : size [] = 0 := rfl

@[simp] theorem size_cons (c : Char) (r : Text) : size (c :: r) = c.utf8Size + size r := rfl

@[simp] theorem size_append (s t : Text) : size (s ++ t) = size s + size t := by
  induction s with
  | nil => simp
  | cons c s ih => simp [ih, Nat.add_assoc]

theorem length_le_size (t : Text) : t.length ≤ size t := by
  induction t with
  | nil => simp
  | cons c r ih => have := c.utf8Size_pos; simp; omega

/-- The bytes of the text in UTF-8. -/
def bytes (t : Text) : List UInt8 := t.flatMap String.utf8EncodeChar

@[simp] theorem bytes_nil : bytes [] = [] := rfl

theorem bytes_cons (c : Char) (r : Text) :
    bytes (c :: r) = String.utf8EncodeChar c ++ bytes r := rfl

@[simp] theorem bytes_append (s t : Text) : bytes (s ++ t) = bytes s ++ bytes t :=
  List.flatMap_append

@[simp] theorem length_bytes (t : Text) : (bytes t).length = size t := by
  induction t with
  | nil => rfl
  | cons c r ih =>
    rw [bytes_cons]
    simp [ih, String.length_utf8EncodeChar]

/-- The longest beginning of the text that takes at most the given number of bytes. -/
def takeBytes : Nat → Text → Text
  | _, [] => []
  | n, c :: r => if c.utf8Size ≤ n then c :: takeBytes (n - c.utf8Size) r else []

theorem size_takeBytes_le (n : Nat) (t : Text) : size (takeBytes n t) ≤ n := by
  fun_induction takeBytes n t with
  | case1 => simp
  | case2 n c r h ih => simp; omega
  | case3 => simp

@[simp] theorem takeBytes_zero (t : Text) : takeBytes 0 t = [] := by
  cases t with
  | nil => rfl
  | cons c r => exact if_neg (by have := c.utf8Size_pos; omega)

@[simp] theorem takeBytes_size_append (s t : Text) :
    takeBytes (size s) (s ++ t) = s ++ takeBytes 0 t := by
  induction s with
  | nil => rfl
  | cons c s ih => simp [takeBytes, ih]

/-- What follows the first bytes of the text, if their number is a position in it. -/
def dropBytes? : Nat → Text → Option Text
  | 0, t => some t
  | _ + 1, [] => none
  | n + 1, c :: r => if c.utf8Size ≤ n + 1 then dropBytes? (n + 1 - c.utf8Size) r else none

@[simp] theorem dropBytes?_size_append (s t : Text) :
    dropBytes? (size s) (s ++ t) = some t := by
  induction s with
  | nil => simp [dropBytes?]
  | cons c s ih =>
    obtain ⟨n, hn⟩ : ∃ n, size (c :: s) = n + 1 :=
      ⟨size (c :: s) - 1, by have := c.utf8Size_pos; simp; omega⟩
    rw [hn, List.cons_append, dropBytes?, if_pos (by rw [← hn]; simp), ← hn]
    simpa using ih

/-- The Unicode property `White_Space`. -/
def isBlank (c : Char) : Bool :=
  let n := c.toNat
  (0x09 ≤ n && n ≤ 0x0D) || n == 0x20 || n == 0x85 || n == 0xA0 || n == 0x1680 ||
    (0x2000 ≤ n && n ≤ 0x200A) || n == 0x2028 || n == 0x2029 || n == 0x202F ||
    n == 0x205F || n == 0x3000

/-- Whether every character of the text is blank. -/
def isBlankText (t : Text) : Bool := t.all isBlank

/-- The text without its last characters that satisfy `p`. -/
def dropEndWhile (p : Char → Bool) (t : Text) : Text := (t.reverse.dropWhile p).reverse

/-- The last characters of the text that satisfy `p`. -/
def takeEndWhile (p : Char → Bool) (t : Text) : Text := (t.reverse.takeWhile p).reverse

@[simp] theorem dropEndWhile_append_takeEndWhile (p : Char → Bool) (t : Text) :
    dropEndWhile p t ++ takeEndWhile p t = t := by
  rw [dropEndWhile, takeEndWhile, ← List.reverse_append, List.takeWhile_append_dropWhile,
    List.reverse_reverse]

/-- The text without the blanks in front. -/
def trimStart (t : Text) : Text := t.dropWhile isBlank

/-- The text without the blanks at the end. -/
def trimEnd (t : Text) : Text := dropEndWhile isBlank t

/-- The text without the blanks at both ends. -/
def trim (t : Text) : Text := trimEnd (trimStart t)

/-- A space for every byte of the text. -/
def spaces (t : Text) : Text := List.replicate (size t) ' '

@[simp] theorem size_replicate_space (n : Nat) : size (List.replicate n ' ') = n := by
  induction n with
  | zero => rfl
  | succ n ih =>
    rw [List.replicate_succ, size_cons, ih, show ' '.utf8Size = 1 from rfl, Nat.add_comm]

@[simp] theorem size_spaces (t : Text) : size (spaces t) = size t := size_replicate_space _

/-- What follows `word` at the beginning of the text, if the word ends there. -/
def afterWord? (t word : Text) : Option Text :=
  if word.isPrefixOf t then
    let rest := t.drop word.length
    if (rest.head?.map isBlank).getD true then some rest else none
  else none

theorem eq_append_of_afterWord? {t word rest : Text} (h : afterWord? t word = some rest) :
    t = word ++ rest := by
  unfold afterWord? at h
  split at h
  next hp =>
    obtain ⟨r, rfl⟩ := List.isPrefixOf_iff_prefix.1 hp
    rw [List.drop_left] at h
    dsimp only at h
    split at h
    · rw [Option.some.inj h]
    · simp at h
  next => simp at h

/-- The texts one after the other, with `sep` between each two. -/
def join (sep : Text) : List Text → Text
  | [] => []
  | [t] => t
  | t :: ts => t ++ sep ++ join sep ts

theorem join_cons_cons (j u v : Text) (ts : List Text) :
    join j (u :: v :: ts) = u ++ (j ++ join j (v :: ts)) := by
  rw [join, List.append_assoc]
  exact List.cons_ne_nil v ts

theorem exists_join_eq (j u : Text) (ts : List Text) : ∃ r, join j (u :: ts) = u ++ r := by
  cases ts with
  | nil => exact ⟨[], (List.append_nil u).symm⟩
  | cons v ts => exact ⟨_, join_cons_cons j u v ts⟩

theorem join_isSuffix (j u v : Text) (ts : List Text) :
    join j (v :: ts) <:+ join j (u :: v :: ts) := by
  rw [join_cons_cons]
  exact (List.suffix_append j _).trans (List.suffix_append u _)

theorem isInfix_join {j t : Text} {ts : List Text} (ht : t ∈ ts) : t <:+: join j ts := by
  induction ts with
  | nil => cases ht
  | cons u ts ih =>
    obtain rfl | ht := List.mem_cons.1 ht
    · obtain ⟨r, hr⟩ := exists_join_eq j t ts
      rw [hr]
      exact (List.prefix_append t r).isInfix
    · obtain ⟨v, ts, rfl⟩ := List.exists_cons_of_ne_nil (List.ne_nil_of_mem ht)
      exact (ih ht).trans (join_isSuffix j u v ts).isInfix

/-- The parts of the text between the characters `mark`. -/
def segments (mark : Char) : Text → List Text
  | [] => [[]]
  | c :: r =>
    if c = mark then [] :: segments mark r
    else
      match segments mark r with
      | [] => [[c]]
      | s :: ss => (c :: s) :: ss

theorem segments_ne_nil (mark : Char) (t : Text) : segments mark t ≠ [] := by
  fun_cases segments mark t <;> simp_all

/-- Nothing but the marks is lost. -/
theorem join_segments (mark : Char) (t : Text) : join [mark] (segments mark t) = t := by
  induction t with
  | nil => rfl
  | cons c r ih =>
    unfold segments
    split
    next h =>
      cases hs : segments mark r with
      | nil => exact absurd hs (segments_ne_nil mark r)
      | cons s ss => rw [hs] at ih; simp [join, ih, h]
    next h =>
      cases hs : segments mark r with
      | nil => exact absurd hs (segments_ne_nil mark r)
      | cons s ss => rw [hs] at ih; cases ss <;> simp_all [join]

theorem mem_of_mem_segments {mark c : Char} {s t : Text} (hs : s ∈ segments mark t) (hc : c ∈ s) :
    c ∈ t := by
  rw [← join_segments mark t]
  exact (isInfix_join hs).subset hc

/-- The decimal digits of a number, without leading zeros. -/
def ofNat (n : Nat) : Text := Nat.toDigits 10 n

end Text
end ExtendedBnf
