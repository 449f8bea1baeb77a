import ExtendedBnf.Proofs.ByteScans

/-!
# Reading expressions by byte indices

A literal, a group and the word that a message shows are cut out of the text at bytes that
a scan has found. The levels of the reader are those of `Reader`, with these cuts
in them. Each level comes to what its namesake comes to, so none of the cuts slips.
-/
namespace ExtendedBnf
namespace ByIndex
open Halt
open Reader (Failure Suffix Mark skipSpaces)

/-- The byte behind the word that a message shows, when the text starts at byte `i` of it. -/
def wordEnd : Nat → Text → Nat
  | i, [] => i
  | i, c :: r => if Text.isBlank c || 16 ≤ i then i else wordEnd (i + c.utf8Size) r

/-- The failure to find what is expected in front of `rest`. -/
def unexpected {α : Type} (rest : Text) : Except (Halt Failure) α :=
  match rest with
  | [] => .error (.fault ⟨.malformed .unexpectedEnd, 0⟩)
  | ')' :: _ => .error (.fault ⟨.unbalanced, rest.size⟩)
  | _ => do
    let word ← rest.cut 0 (wordEnd 0 rest)
    .error (.fault ⟨.malformed (.unexpected word), rest.size⟩)

/-- Reads items until there is none. An item that takes nothing is none. -/
def many {α : Type} (item : Text → Except (Halt Failure) (Option (α × Text))) (t : Text) :
    Except (Halt Failure) (List α × Text) :=
  match item t with
  | .error halt => .error halt
  | .ok none => .ok ([], t)
  | .ok (some (a, rest)) =>
    if rest.length < t.length then (many item rest).map fun read => (a :: read.1, read.2)
    else .ok ([], t)
termination_by t.length

/-- The kind of quote a byte is, if it is one. -/
def quoteOf? (b : UInt8) : Option Quote :=
  if b = 0x27 then some .single else if b = 0x22 then some .double else none

/-- The literal that the text starts with, if its first byte is a quote. -/
def literal? (t : Text) : Option (Except (Halt Failure) (Literal × Text)) :=
  (t.bytes.head?.bind quoteOf?).map fun quote =>
    match Literal.end? t 0 with
    | some last => do
      let rest ← t.cut last t.size
      let close ← minus last 1
      let body ← t.cut 1 close
      .ok (⟨body, quote⟩, rest)
    | none => .error (.fault ⟨.malformed .unterminatedLiteral, t.size⟩)

/-- The group that the text starts with, its interior read by `inner`. -/
def group (inner : Text → Except (Halt Failure) Expr) (t : Text) :
    Except (Halt Failure) (Expr × Text) := do
  let close ← (matchingParen t 0).mapError (Halt.map fun _ => ⟨.unbalanced, t.size⟩)
  let inside ← t.cut 1 close
  if inside.isBlankText then .error (.fault ⟨.malformed .emptyGroup, t.size⟩)
  else
    let e ← (inner inside).mapError
      (Halt.map fun failure => { failure with unread := failure.unread + (t.size - close) })
    let rest ← t.cut (close + 1) t.size
    .ok (e, rest)

/-- A name, a literal or a group. -/
def primary (inner : Text → Except (Halt Failure) Expr) (t : Text) :
    Except (Halt Failure) (Expr × Text) :=
  match t with
  | [] => unexpected t
  | c :: r =>
    if isNameStart c then .ok (.name (c :: r.takeWhile isNameRest), r.dropWhile isNameRest)
    else if c = '(' then group inner t
    else
      match literal? t with
      | some read => read.map fun read => (.literal read.1, read.2)
      | none => unexpected t

/-- The bounds that an opening brace before `t` starts. -/
def bounds (t : Text) : Except (Halt Failure) (Bounds × Text) := do
  let (min, t₁) ← lift (Reader.number? (skipSpaces t))
  let (comma, t₂) := Reader.skipComma t₁
  let (max, t₃) ← lift (Reader.number? (skipSpaces t₂))
  match skipSpaces t₃ with
  | '}' :: rest =>
    match Reader.boundsOf? min comma max with
    | some bounds => .ok (bounds, rest)
    | none => .error (.fault ⟨.malformed .invalidBounds, 1 + t.size⟩)
  | rest => unexpected rest

/-- The next suffix, if there is one. Only bounds may have to show a word. -/
def suffix? (t : Text) : Except (Halt Failure) (Option (Suffix × Text)) :=
  match skipSpaces t with
  | '{' :: r => (bounds r).map fun read => some (.bounds read.1, read.2)
  | _ => lift (Reader.suffix? t)

/-- The rest of a separated list of `item`, after the `%`. -/
def listTail (item : Expr) (t : Text) : Except (Halt Failure) (Expr × Text) :=
  match literal? (skipSpaces t) with
  | none => .error (.fault ⟨.malformed .missingSeparator, Text.size (skipSpaces t)⟩)
  | some (.error halt) => .error halt
  | some (.ok (separator, r)) =>
    let written := (skipSpaces r).takeWhile Reader.isOperatorChar
    match ListOp.ofText? written with
    | some op => .ok (.list item separator op, (skipSpaces r).dropWhile Reader.isOperatorChar)
    | none => .error (.fault ⟨.operator written, Text.size (skipSpaces r)⟩)

/-- A primary with the tail of a list or with suffixes. -/
def operand (inner : Text → Except (Halt Failure) Expr) (t : Text) :
    Except (Halt Failure) (Expr × Text) := do
  let (e, r) ← primary inner t
  match skipSpaces r with
  | '%' :: tail => listTail e tail
  | _ =>
    let (suffixes, rest) ← many suffix? r
    .ok (suffixes.foldl Suffix.apply e, rest)

/-- An operand under its predicate marks. -/
def term (inner : Text → Except (Halt Failure) Expr) (t : Text) :
    Except (Halt Failure) (Expr × Text) := do
  let (marks, r) ← lift (Reader.many Reader.mark? t)
  let (e, rest) ← operand inner r
  .ok (marks.foldr (fun mark e => mark.apply e) e, rest)

/-- The next term of a sequence, if there is one. -/
def nextTerm? (inner : Text → Except (Halt Failure) Expr) (t : Text) :
    Except (Halt Failure) (Option (Expr × Text)) :=
  match Reader.joint? t with
  | some r => if Reader.startsTerm r then (term inner r).map some else .ok none
  | none => .ok none

/-- Terms one after the other. -/
def terms (inner : Text → Except (Halt Failure) Expr) (t : Text) :
    Except (Halt Failure) (Expr × Text) := do
  let (first, r) ← term inner t
  let (others, rest) ← many (nextTerm? inner) r
  .ok (Reader.together Expr.sequence first others, rest)

/-- The next alternative, if a `|` follows. -/
def nextAlternative? (inner : Text → Except (Halt Failure) Expr) (t : Text) :
    Except (Halt Failure) (Option (Expr × Text)) :=
  match skipSpaces t with
  | '|' :: r => (terms inner (skipSpaces r)).map some
  | _ => .ok none

/-- Alternatives one after the other. -/
def alternatives (inner : Text → Except (Halt Failure) Expr) (t : Text) :
    Except (Halt Failure) (Expr × Text) := do
  let (first, r) ← terms inner (Reader.skipBar t)
  let (others, rest) ← many (nextAlternative? inner) r
  .ok (Reader.together Expr.choice first others, rest)

/-- The whole text as one expression, its groups read by `inner`. -/
def whole (inner : Text → Except (Halt Failure) Expr) (t : Text) : Except (Halt Failure) Expr := do
  let (e, r) ← alternatives inner (skipSpaces t)
  match skipSpaces r with
  | [] => .ok e
  | rest => unexpected rest

/-- The whole text as one expression. -/
def read (t : Text) : Except (Halt Failure) Expr :=
  whole (fun inside => if inside.length < t.length then read inside else unexpected []) t
termination_by t.length

/-- The expression that the text says. -/
def expr (t : Text) : Except (Halt Fault) Expr := (read t).mapError (Halt.map (Failure.fault t))

/-! ### Each level comes to what its namesake comes to -/

theorem wordEnd_eq (i : Nat) (t : Text) :
    wordEnd i t = i +
      Text.size (Reader.startingWithin (16 - i) (t.takeWhile fun c => !Text.isBlank c)) := by
  have hnil (n : Nat) : Reader.startingWithin n [] = [] := by cases n <;> rfl
  induction t generalizing i with
  | nil => simp [wordEnd, hnil]
  | cons c r ih =>
    unfold wordEnd
    split
    next hstop =>
      rcases Bool.or_eq_true_iff.1 hstop with hblank | hlong
      · simp [hblank, hnil]
      · have hzero : 16 - i = 0 := by simpa [Nat.sub_eq_zero_iff_le] using hlong
        simp [hzero, Reader.startingWithin]
    next hgo =>
      simp only [Bool.or_eq_true, decide_eq_true_eq, not_or, Bool.not_eq_true] at hgo
      obtain ⟨hblank, hshort⟩ := hgo
      obtain ⟨n, hn⟩ : ∃ n, 16 - i = n + 1 := ⟨16 - i - 1, by omega⟩
      have hrest : 16 - (i + c.utf8Size) = n + 1 - c.utf8Size := by omega
      rw [ih, hrest, hn, List.takeWhile_cons_of_pos (by simp [hblank]), Reader.startingWithin,
        Text.size_cons, Nat.add_assoc]

theorem startingWithin_isPrefix (n : Nat) (t : Text) : Reader.startingWithin n t <+: t := by
  fun_induction Reader.startingWithin n t with
  | case1 | case2 => exact List.nil_prefix
  | case3 n c r ih => exact List.cons_prefix_cons.2 ⟨rfl, ih⟩

theorem unexpected_eq {α : Type} (rest : Text) :
    (unexpected rest : Except (Halt Failure) α) = lift (.error (Reader.unexpected rest)) := by
  obtain ⟨u, hu⟩ := (startingWithin_isPrefix 16 _).trans
    (List.takeWhile_prefix (fun c => !Text.isBlank c) (l := rest))
  have hend : wordEnd 0 rest = Text.size (Reader.firstWord rest) :=
    (wordEnd_eq 0 rest).trans (Nat.zero_add _)
  have hcut : (rest.cut 0 (wordEnd 0 rest) : Except (Halt Failure) Text) =
      .ok (Reader.firstWord rest) := by
    rw [hend]
    exact Text.cut_front hu.symm
  unfold unexpected
  split
  next => rfl
  next => rfl
  next hnil hclose =>
    rw [hcut, Reader.unexpected]
    · rfl
    · exact hnil
    · exact hclose

theorem many_eq {α : Type} {item : Text → Except Failure (Option (α × Text))}
    {item' : Text → Except (Halt Failure) (Option (α × Text))} (h : ∀ s, item' s = lift (item s))
    (t : Text) : many item' t = lift (Reader.many item t) := by
  fun_induction Reader.many item t with
  | case1 t failure hi => rw [many, h, hi]; rfl
  | case2 t hi => rw [many, h, hi]; rfl
  | case3 t a r hi hlt ih =>
    rw [many, h, hi, lift_map]
    simp only [lift_ok, hlt, if_true, ih]
  | case4 t a r hi hlt =>
    rw [many, h, hi]
    simp only [lift_ok, hlt, if_false]

theorem quoteOf?_char (quote : Quote) : quoteOf? (UInt8.ofNat quote.char.toNat) = some quote := by
  cases quote <;> rfl

theorem quoteOf?_eq_none {c : Char} (h : Quote.ofChar? c = none) {b : UInt8}
    (hb : b ∈ String.utf8EncodeChar c) : quoteOf? b = none := by
  obtain ⟨hdouble, hsingle⟩ := ne_quote_of_mem_utf8EncodeChar h hb
  rw [quoteOf?, if_neg hsingle, if_neg hdouble]

theorem literal?_eq (t : Text) : literal? t = (Reader.literal? t).map lift := by
  match t with
  | [] => rfl
  | c :: r =>
    cases hquote : Quote.ofChar? c with
    | none =>
      obtain ⟨b, tail, hencode, -⟩ := exists_first_utf8EncodeChar c
      have hmem : b ∈ String.utf8EncodeChar c := hencode ▸ List.mem_cons_self
      have hb : quoteOf? b = none := quoteOf?_eq_none hquote hmem
      simp [literal?, Reader.literal?, hquote, Text.bytes_cons, hencode, hb]
    | some quote =>
      obtain rfl := Quote.ofChar?_eq_some_iff.1 hquote
      have hsize := quote.utf8Size_char
      have hhead : ((Text.bytes (quote.char :: r)).head?.bind quoteOf?) = some quote := by
        rw [Text.bytes_cons, utf8EncodeChar_of_lt quote.toNat_char_lt]
        exact quoteOf?_char quote
      have hend := Literal.end?_append [] quote r
      simp only [List.nil_append, Text.size_nil, Nat.zero_add] at hend
      rw [literal?, hhead, Reader.literal?, hquote, Option.map_some, Option.map_some,
        Option.map_some, hend]
      congr 1
      cases hclosing : closing? '\\' quote.char r with
      | none => rfl
      | some split =>
        obtain ⟨body, rest⟩ := split
        obtain rfl := eq_append_of_closing? hclosing
        have hrest : (Text.cut (quote.char :: (body ++ quote.char :: rest)) (Text.size body + 2)
            (Text.size (quote.char :: (body ++ quote.char :: rest))) : Except (Halt Failure) Text) =
            .ok rest :=
          Text.cut_of_eq (a := quote.char :: body ++ [quote.char]) (b := []) (by simp)
            (by simp [hsize]; omega) (by simp [hsize]; omega)
        have hbody : (Text.cut (quote.char :: (body ++ quote.char :: rest)) 1 (Text.size body + 1) :
            Except (Halt Failure) Text) = .ok body :=
          Text.cut_of_eq (a := [quote.char]) (b := quote.char :: rest) rfl (by simp [hsize])
            (by simp [hsize]; omega)
        have hclose : (minus (Text.size body + 2) 1 : Except (Halt Failure) Nat) =
            .ok (Text.size body + 1) := minus_add (Text.size body + 1) 1
        dsimp only [Option.map_some]
        rw [hrest, hclose]
        dsimp only [bind, Except.bind]
        rw [hbody]
        rfl

/-- The interior of a group and what follows it are cut out at its parentheses. -/
theorem group_eq (f : Text → Except Failure Expr) (r : Text) :
    group (fun s => lift (f s)) ('(' :: r) = lift (Reader.group f r) := by
  have hmatch : Text.matchingParen? ('(' :: r) 0 =
      (Text.closeGroup 0 .code r).map fun split => 0 + 1 + Text.size split.1 := rfl
  rw [group, matchingParen_eq, Text.matchingParen, hmatch, Reader.group]
  cases hclose : Text.closeGroup 0 .code r with
  | none => rfl
  | some split =>
    obtain ⟨inside, rest⟩ := split
    obtain rfl := Text.eq_append_of_closeGroup hclose
    have hsize : '('.utf8Size = 1 ∧ ')'.utf8Size = 1 := ⟨rfl, rfl⟩
    have hinside : (Text.cut ('(' :: (inside ++ ')' :: rest)) 1 (0 + 1 + Text.size inside) :
        Except (Halt Failure) Text) = .ok inside :=
      Text.cut_of_eq (a := ['(']) (b := ')' :: rest) rfl rfl rfl
    have hrest : (Text.cut ('(' :: (inside ++ ')' :: rest)) (0 + 1 + Text.size inside + 1)
        (Text.size ('(' :: (inside ++ ')' :: rest))) : Except (Halt Failure) Text) = .ok rest :=
      Text.cut_of_eq (a := '(' :: inside ++ [')']) (b := []) (by simp) (by simp [hsize]; omega)
        (by simp [hsize]; omega)
    have hunread : Text.size ('(' :: (inside ++ ')' :: rest)) - (0 + 1 + Text.size inside) =
        1 + Text.size rest := by
      simp [hsize]
      omega
    dsimp only [Option.map_some, lift_ok, Except.mapError, bind, Except.bind]
    rw [hinside]
    dsimp only
    rw [hrest, hunread]
    split
    · rfl
    · cases f inside with
      | ok e => rfl
      | error failure =>
        exact congrArg (fun n => Except.error (fault { failure with unread := n }))
          (Nat.add_assoc ..).symm

section
variable (f : Text → Except Failure Expr)

theorem primary_eq (t : Text) : primary (fun s => lift (f s)) t = lift (Reader.primary f t) := by
  match t with
  | [] => exact unexpected_eq []
  | c :: r =>
    unfold primary Reader.primary
    dsimp only
    by_cases hname : isNameStart c
    · rw [if_pos hname, if_pos hname]
      rfl
    rw [if_neg hname, if_neg hname]
    by_cases hopen : c = '('
    · subst hopen
      exact group_eq f r
    rw [if_neg hopen, if_neg hopen, literal?_eq]
    cases Reader.literal? (c :: r) with
    | none => exact unexpected_eq (c :: r)
    | some read => exact (lift_map read _).symm

theorem bounds_eq (t : Text) : bounds t = lift (Reader.bounds t) := by
  unfold bounds Reader.bounds
  refine bind_eq_lift rfl fun min => ?_
  dsimp only
  refine bind_eq_lift rfl fun max => ?_
  cases skipSpaces max.2 with
  | nil => exact unexpected_eq []
  | cons c r =>
    by_cases hbrace : c = '}'
    · subst hbrace
      generalize Reader.boundsOf? min.1 (Reader.skipComma min.2).1 max.1 = found
      cases found <;> rfl
    · simp [hbrace, unexpected_eq]

theorem suffix?_eq (t : Text) : suffix? t = lift (Reader.suffix? t) := by
  unfold suffix?
  split
  next r hbrace =>
    rw [Reader.suffix?, hbrace, bounds_eq]
    exact (lift_map ..).symm
  next => rfl

theorem listTail_eq (item : Expr) (t : Text) : listTail item t = lift (Reader.listTail item t) := by
  unfold listTail Reader.listTail
  rw [literal?_eq]
  cases Reader.literal? (skipSpaces t) with
  | none => rfl
  | some read =>
    cases read with
    | error failure => rfl
    | ok read =>
      dsimp only [Option.map_some, lift_ok]
      cases ListOp.ofText? ((skipSpaces read.2).takeWhile Reader.isOperatorChar) <;> rfl

theorem operand_eq (t : Text) : operand (fun s => lift (f s)) t = lift (Reader.operand f t) := by
  unfold operand Reader.operand
  refine bind_eq_lift (primary_eq f t) fun read => ?_
  dsimp only
  have hsuffixes : (many suffix? read.2 >>= fun suffixes =>
        .ok (suffixes.1.foldl Suffix.apply read.1, suffixes.2)) =
      lift (Reader.many Reader.suffix? read.2 >>= fun suffixes =>
        .ok (suffixes.1.foldl Suffix.apply read.1, suffixes.2)) :=
    bind_eq_lift (many_eq suffix?_eq read.2) fun _ => rfl
  cases skipSpaces read.2 with
  | nil => exact hsuffixes
  | cons c r =>
    by_cases hpercent : c = '%'
    · subst hpercent
      exact listTail_eq read.1 r
    · simpa [hpercent] using hsuffixes

theorem term_eq (t : Text) : term (fun s => lift (f s)) t = lift (Reader.term f t) := by
  unfold term Reader.term
  refine bind_eq_lift rfl fun read => ?_
  exact bind_eq_lift (operand_eq f read.2) fun _ => rfl

theorem nextTerm?_eq (t : Text) :
    nextTerm? (fun s => lift (f s)) t = lift (Reader.nextTerm? f t) := by
  unfold nextTerm? Reader.nextTerm?
  cases Reader.joint? t with
  | none => rfl
  | some r =>
    dsimp only
    split
    · rw [term_eq, lift_map]
    · rfl

theorem terms_eq (t : Text) : terms (fun s => lift (f s)) t = lift (Reader.terms f t) := by
  unfold terms Reader.terms
  refine bind_eq_lift (term_eq f t) fun read => ?_
  exact bind_eq_lift (many_eq (nextTerm?_eq f) read.2) fun _ => rfl

theorem nextAlternative?_eq (t : Text) :
    nextAlternative? (fun s => lift (f s)) t = lift (Reader.nextAlternative? f t) := by
  unfold nextAlternative? Reader.nextAlternative?
  cases skipSpaces t with
  | nil => rfl
  | cons c r =>
    by_cases hbar : c = '|'
    · subst hbar
      have hterms : (terms (fun s => lift (f s)) (skipSpaces r)).map some =
          lift ((Reader.terms f (skipSpaces r)).map some) := by rw [terms_eq, lift_map]
      exact hterms
    · simp [hbar]

theorem alternatives_eq (t : Text) :
    alternatives (fun s => lift (f s)) t = lift (Reader.alternatives f t) := by
  unfold alternatives Reader.alternatives
  refine bind_eq_lift (terms_eq f (Reader.skipBar t)) fun read => ?_
  exact bind_eq_lift (many_eq (nextAlternative?_eq f) read.2) fun _ => rfl

theorem whole_eq (t : Text) : whole (fun s => lift (f s)) t = lift (Reader.whole f t) := by
  unfold whole Reader.whole
  refine bind_eq_lift (alternatives_eq f (skipSpaces t)) fun read => ?_
  dsimp only
  cases skipSpaces read.2 with
  | nil => rfl
  | cons c r => exact unexpected_eq (c :: r)

end

/-- Induction on the length of the text, which is longer than its groups. -/
theorem read_eq (t : Text) : read t = lift (Reader.read t) := by
  have hinner : (fun inside : Text =>
        if inside.length < t.length then read inside else unexpected []) =
      fun inside => lift (if inside.length < t.length then Reader.read inside
        else .error (Reader.unexpected [])) := by
    funext inside
    split
    next hlt => exact read_eq inside
    next => exact unexpected_eq []
  rw [read, Reader.read, hinner, whole_eq]
termination_by t.length

/-- Reading by byte indices comes to what reading comes to. -/
theorem expr_eq (t : Text) : expr t = lift (Expr.ofText t) := by
  rw [expr, read_eq, Expr.ofText, lift_mapError]

end ByIndex
end ExtendedBnf
