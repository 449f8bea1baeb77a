import ExtendedBnf.Proofs.Runs

/-!
# Merging block by block

No run goes from one block into the next. A joint may go over line feeds, but what
comes after them in a run is a bar or a quote, and a block starts with its name. So
the first pass splits where a block ends, and since it leaves the name of the next
block alone, so does the second one.
-/
namespace ExtendedBnf
open Reader (Starts starts_cons)
open NodeGrammar (mergeTokens startBlock)

namespace Text
variable {token : Text → Option Nat} {new a b : Text}

/-- Where no token depends on what follows, a text is replaced part by part. -/
theorem replaceFrom_append (htoken : ∀ u, token (u ++ b) = token u)
    (hlen : ∀ u n, token u = some n → n ≤ u.length) {skip : Nat} (hskip : skip ≤ a.length) :
    replaceFrom token new skip (a ++ b) =
      replaceFrom token new skip a ++ replaceFrom token new 0 b := by
  fun_induction replaceFrom token new skip a with
  | case1 =>
    obtain rfl := Nat.le_zero.1 hskip
    rfl
  | case2 skip c r ih => exact ih (Nat.le_of_succ_le_succ hskip)
  | case3 c r n hn ih =>
    have hn' : token (c :: (r ++ b)) = some (n + 1) := (htoken (c :: r)).trans hn
    rw [List.cons_append, replaceFrom, hn', List.append_assoc]
    exact congrArg (new ++ ·) (ih (Nat.le_of_succ_le_succ (hlen _ _ hn)))
  | case4 c r hn ih =>
    have hsame : token (c :: (r ++ b)) = token (c :: r) := htoken (c :: r)
    rw [List.cons_append, replaceFrom, hsame, List.cons_append]
    split
    next n hn' => exact absurd hn' (hn n)
    next => exact congrArg (c :: ·) (ih (Nat.zero_le _))

theorem replaceAll_append (htoken : ∀ u, token (u ++ b) = token u)
    (hlen : ∀ u n, token u = some n → n ≤ u.length) :
    (a ++ b).replaceAll token new = a.replaceAll token new ++ b.replaceAll token new :=
  replaceFrom_append htoken hlen (Nat.zero_le _)

/-- A text in which no token starts is passed over. -/
theorem replaceAll_append_of_forall (h : ∀ c ∈ a, ∀ r, token (c :: r) = none) (t : Text) :
    (a ++ t).replaceAll token new = a ++ t.replaceAll token new := by
  induction a with
  | nil => rfl
  | cons c a ih =>
    have hrest := ih fun d hd => h d (List.mem_cons_of_mem c hd)
    rw [List.cons_append, replaceAll, replaceFrom, h c List.mem_cons_self]
    exact congrArg (c :: ·) hrest

/-- The end of the last block, or the start of a further one after an empty line. -/
inductive IsBreak : Text → Prop
  | last : IsBreak ['\n']
  | further {c : Char} {r : Text} : isNameRest c → IsBreak ('\n' :: '\n' :: c :: r)

variable {word : Text}

theorem IsBreak.exists_eq_cons (hb : IsBreak b) : ∃ r, b = '\n' :: r := by
  cases hb <;> exact ⟨_, rfl⟩

/-- A word on one line is found in front of a break or not at all. -/
theorem after?_append_break (hb : IsBreak b) (hword : '\n' ∉ word) :
    (a ++ b).after? word = (a.after? word).map (· ++ b) := by
  obtain ⟨rest, rfl⟩ := hb.exists_eq_cons
  ext r
  simp only [after?_eq_some_iff, Option.map_eq_some_iff]
  constructor
  · intro h
    obtain ⟨u, rfl, hu⟩ | ⟨v, rfl, rfl⟩ := List.append_eq_append_iff.1 h
    · cases u with
      | nil => exact ⟨[], by simp, hu⟩
      | cons c u =>
        obtain ⟨rfl, -⟩ := List.cons_eq_cons.1 hu
        simp at hword
    · exact ⟨v, rfl, rfl⟩
  · rintro ⟨v, rfl, rfl⟩
    rw [List.append_assoc]

/-- The same holds after blanks, since no such word starts a block. -/
theorem after?_trimStart_append_break (hb : IsBreak b) (hword : '\n' ∉ word)
    (hstart : Starts (fun c => !isNameRest c) word) :
    (a ++ b).trimStart.after? word = (a.trimStart.after? word).map (· ++ b) := by
  rw [trimStart, trimStart, List.dropWhile_append]
  split
  next hblank =>
    -- the blanks go on into the break, which they end at the name of a block
    obtain ⟨d, w, rfl, hd⟩ := hstart.exists_eq_cons
    have hnone : after? [] (d :: w) = none := rfl
    rw [List.isEmpty_iff.1 hblank, hnone]
    cases hb with
    | last => rfl
    | @further c r hc =>
      have hink : isBlank c = false := by simpa [isInk] using isInk_of_isNameRest hc
      have hne : d ≠ c := by
        rintro rfl
        simp [hc] at hd
      have hfeed : isBlank '\n' := rfl
      simp [hink, hfeed, after?, hne]
  next => exact after?_append_break hb hword

end Text

namespace Splicing
variable {s : Splicing} {a b : Text}

/-- Whether a run starts in front of a break is seen without it. -/
theorem tokens?_append_break (hb : b.IsBreak) (u : Text) : s.tokens? (u ++ b) = s.tokens? u := by
  have hlen (r : Text) : (u ++ b).length - (r ++ b).length = u.length - r.length := by
    simp only [List.length_append]
    omega
  cases s with
  | row =>
    have hword : '\n' ∉ "'\"' ANY* '\"'".toList := by decide
    simp only [tokens?, NodeGrammar.stringTokens?, Option.bind_eq_bind, Option.bind_map,
      Function.comp_def, Text.after?_append_break hb hword, hlen]
  | choice =>
    have hfirst : '\n' ∉ "' '".toList := by decide
    have hbar : '\n' ∉ ['|'] ∧ Starts (fun c => !isNameRest c) ['|'] :=
      ⟨by decide, starts_cons.2 rfl⟩
    have hmiddle : '\n' ∉ "'\\t'".toList ∧ Starts (fun c => !isNameRest c) "'\\t'".toList :=
      ⟨by decide, starts_cons.2 rfl⟩
    have hlast : '\n' ∉ "'\\n'".toList ∧ Starts (fun c => !isNameRest c) "'\\n'".toList :=
      ⟨by decide, starts_cons.2 rfl⟩
    simp only [tokens?, NodeGrammar.spaceTokens?, Option.bind_eq_bind, Option.bind_map,
      Function.comp_def, Text.after?_append_break hb hfirst,
      Text.after?_trimStart_append_break hb hbar.1 hbar.2,
      Text.after?_trimStart_append_break hb hmiddle.1 hmiddle.2,
      Text.after?_trimStart_append_break hb hlast.1 hlast.2, hlen]

theorem tokens?_cons {c : Char} (hc : c ≠ '\x27') (r : Text) : s.tokens? (c :: r) = none := by
  by_contra hne
  obtain ⟨w, -, heq⟩ := tokens?_ne_none_iff.1 hne
  cases s <;> exact hc (List.cons_eq_cons.1 heq).1

/-- What has no quote is passed over. -/
theorem replaceAll_append_of_notMem (h : '\x27' ∉ a) (new t : Text) :
    (a ++ t).replaceAll s.tokens? new = a ++ t.replaceAll s.tokens? new :=
  Text.replaceAll_append_of_forall (fun _ hc => tokens?_cons (ne_of_mem_of_not_mem hc h)) t

theorem replaceAll_append_break (hb : b.IsBreak) (new : Text) :
    (a ++ b).replaceAll s.tokens? new = a.replaceAll s.tokens? new ++ b.replaceAll s.tokens? new :=
  Text.replaceAll_append (tokens?_append_break hb) fun _ _ hn => (length_of_tokens? hn).2

/-- A pass leaves the start of a block alone. -/
theorem isBreak_replaceAll (hb : b.IsBreak) (new : Text) :
    (b.replaceAll s.tokens? new).IsBreak := by
  cases hb with
  | last =>
    have hfeed : '\x27' ∉ ['\n'] := by decide
    have hsame := replaceAll_append_of_notMem (s := s) hfeed new []
    rw [List.append_nil] at hsame
    rw [hsame]
    exact .last
  | @further c r hc =>
    have hquote : '\x27' ≠ c := by
      rintro rfl
      cases hc
    have hfeeds : '\x27' ∉ ['\n', '\n', c] := by simp [hquote]
    have hsame := replaceAll_append_of_notMem (s := s) hfeeds new r
    rw [show '\n' :: '\n' :: c :: r = ['\n', '\n', c] ++ r from rfl, hsame]
    exact .further hc

end Splicing

theorem Text.quote_notMem_of_isWord {t : Text} (h : t.isWord) : '\x27' ∉ t := by
  intro hquote
  cases (isWord_iff.1 h).2 _ hquote

namespace NodeGrammar
variable {a b : Text}

theorem mergeTokens_eq (t : Text) : mergeTokens t =
    (t.replaceAll Splicing.row.tokens? "'Str'".toList).replaceAll Splicing.choice.tokens?
      "' '".toList := rfl

/-- Tokens are merged apart on both sides of a break. -/
theorem mergeTokens_append_break (hb : b.IsBreak) :
    mergeTokens (a ++ b) = mergeTokens a ++ mergeTokens b := by
  rw [mergeTokens_eq, Splicing.replaceAll_append_break hb,
    Splicing.replaceAll_append_break (Splicing.isBreak_replaceAll hb _)]
  rfl

theorem mergeTokens_append_of_notMem (h : '\x27' ∉ a) (t : Text) :
    mergeTokens (a ++ t) = a ++ mergeTokens t := by
  rw [mergeTokens_eq, Splicing.replaceAll_append_of_notMem h,
    Splicing.replaceAll_append_of_notMem h]
  rfl

theorem mergeTokens_eq_self_of_notMem (h : '\x27' ∉ a) : mergeTokens a = a := by
  have hsame := mergeTokens_append_of_notMem h []
  rwa [List.append_nil, show mergeTokens [] = [] from rfl, List.append_nil] at hsame

/-- In a row of blocks the tokens of each are merged as if it stood alone. -/
theorem mergeTokens_join {bs : List Text} (hbs : ∀ b ∈ bs, Starts isNameRest b) :
    mergeTokens (Text.join "\n\n".toList bs ++ ['\n']) =
      Text.join "\n\n".toList (bs.map mergeTokens) ++ ['\n'] := by
  induction bs with
  | nil => rfl
  | cons b bs ih =>
    have hrest := ih fun x hx => hbs x (List.mem_cons_of_mem b hx)
    cases bs with
    | nil => exact mergeTokens_append_break .last
    | cons b' bs =>
      have hb : Text.IsBreak
          ("\n\n".toList ++ (Text.join "\n\n".toList (b' :: bs) ++ ['\n'])) := by
        obtain ⟨y, hy⟩ := Text.exists_join_eq "\n\n".toList b' bs
        obtain ⟨c, r, rfl, hc⟩ :=
          (hbs b' (List.mem_cons_of_mem b List.mem_cons_self)).exists_eq_cons
        rw [hy]
        exact .further hc
      rw [Text.join_cons_cons, List.append_assoc, List.append_assoc, mergeTokens_append_break hb,
        mergeTokens_append_of_notMem (by decide), hrest]
      simp only [List.map_cons, Text.join_cons_cons, List.append_assoc]

end NodeGrammar
end ExtendedBnf
