import ExtendedBnf.Proofs.NormalForm
import ExtendedBnf.Proofs.ReaderComplete

/-!
# Expressions read back from their text

The text of an expression says the expression with its sequences and choices
spliced, at the level of the grammar that its precedence names. A part of a
sequence or choice may be written without parentheses and be one itself, so what
stands between two joints is one part of the raw tree but several of the spliced
one. `Says.Spread` keeps count of the latter.
-/
namespace ExtendedBnf

namespace Says
open Reader (together)

theorem Many.append {α : Type} {item : Text → α → Prop} {t r : Text} {as bs : List α}
    (h : Many item t as) (g : Many item r bs) : Many item (t ++ r) (as ++ bs) := by
  induction h with
  | nil => exact g
  | cons ha _ ih =>
    rw [List.append_assoc]
    exact .cons ha ih

section
variable (piece joined : Text → Expr → Prop)

/-- The texts of several parts one after the other, each but the first with its joint. -/
inductive Chain : Text → List Expr → Prop
  | intro {t r : Text} {e : Expr} {es : List Expr} : piece t e → Many joined r es →
      Chain (t ++ r) (e :: es)

/-- The text of a chain of parts that are put together as the expression. -/
def Spread (s : Splicing) (t : Text) (e : Expr) : Prop :=
  ∃ first others, Chain piece joined t (first :: others) ∧
    (first :: others).flatMap s.parts = s.parts e ∧ together s.build first others = e

variable {piece joined} {s : Splicing} {joint t r : Text} {e : Expr} {es fs : List Expr}

theorem Spread.single (h : piece t e) : Spread piece joined s t e := by
  have hchain : Chain piece joined (t ++ []) [e] := .intro h .nil
  rw [List.append_nil] at hchain
  exact ⟨e, [], hchain, List.flatMap_singleton .., rfl⟩

variable (hjoint : ∀ u e, piece u e → joined (joint ++ u) e)
include hjoint

theorem Chain.append (h : Chain piece joined t es) (g : Chain piece joined r fs) :
    Chain piece joined (t ++ joint ++ r) (es ++ fs) := by
  cases h with
  | intro he hes =>
    cases g with
    | @intro u v e fs hf hfs =>
      have hothers := hes.append (.cons (hjoint u e hf) hfs)
      simpa using Chain.intro he hothers

variable {text : Expr → Text} {flat : Expr → Expr}
  (h : ∀ e ∈ es, Spread piece joined s (text e) (flat e))
include h

/-- The texts of parts with a joint between each two are a chain of all that the parts add. -/
theorem exists_chain_join (hne : es ≠ []) :
    ∃ parts, Chain piece joined (Text.join joint (es.map text)) parts ∧
      parts.flatMap s.parts = (es.map flat).flatMap s.parts ∧ es.length ≤ parts.length := by
  induction es with
  | nil => exact absurd rfl hne
  | cons e es ih =>
    obtain ⟨first, others, hchain, hparts, -⟩ := h e List.mem_cons_self
    -- the text of the last part has no joint after it
    cases es with
    | nil => exact ⟨first :: others, hchain, by simp [hparts], by simp⟩
    | cons f es =>
      obtain ⟨parts, hrest, hflat, hlen⟩ :=
        ih (fun x hx => h x (List.mem_cons_of_mem e hx)) (List.cons_ne_nil f es)
      refine ⟨first :: others ++ parts, hchain.append hjoint hrest, ?_, ?_⟩
      · rw [List.flatMap_append, hparts, hflat]
        simp
      · simp at hlen ⊢
        omega

/-- Several parts with joints between them are put together as what splicing them gives. -/
theorem spread_join (hflat : ∀ e ∈ es, (flat e).IsSpliced) (hlen : 2 ≤ es.length) :
    Spread piece joined s (Text.join joint (es.map text)) (s.build (es.map flat)) := by
  have hne : es ≠ [] := by
    rintro rfl
    simp at hlen
  obtain ⟨parts, hchain, hparts, hle⟩ := exists_chain_join hjoint h hne
  have htwo : 2 ≤ parts.length := Nat.le_trans hlen hle
  cases parts with
  | nil => simp at htwo
  | cons first others =>
    have hbuild : together s.build first others = s.build (first :: others) := by
      cases others with
      | nil => simp at htwo
      | cons => rfl
    refine ⟨first, others, hchain, ?_, hbuild.trans (Splicing.build_congr hparts)⟩
    rw [hparts, Splicing.parts_build (List.forall_mem_map.2 hflat)]

end

/-- The text says the expression as something that binds at least so strongly. -/
def AtLevel : Nat → Text → Expr → Prop
  | 0 => Spread (Terms Says) (Barred Says) .choice
  | 1 => Spread (Term Says) (Joined Says) .row
  | 2 => Term Says
  | 3 => Operand Says
  | _ + 4 => Primary Says

variable {n m : Nat} {t : Text} {e : Expr}

theorem AtLevel.pred (h : AtLevel (n + 1) t e) : AtLevel n t e := by
  match n, h with
  | 0, h =>
    obtain ⟨first, others, hchain, -, heq⟩ := h
    cases hchain with
    | @intro u v _ _ hfirst hothers =>
      have hterms : Terms Says (u ++ v) (together (Splicing.build .row) first others) :=
        .row hfirst hothers
      rw [heq] at hterms
      exact Spread.single hterms
  | 1, h => exact Spread.single h
  | 2, h => exact .operand h
  | 3, h =>
    have hoperand : Operand Says (t ++ []) e := .suffixes h .nil
    rwa [List.append_nil] at hoperand
  | _ + 4, h => exact h

theorem AtLevel.loosen (h : AtLevel n t e) (hle : m ≤ n) : AtLevel m t e := by
  induction hle with
  | refl => exact h
  | step _ ih => exact ih h.pred

theorem AtLevel.meaning (h : AtLevel n t e) : Says t e := by
  obtain ⟨first, others, hchain, -, heq⟩ := h.loosen (Nat.zero_le n)
  cases hchain with
  | @intro u v _ _ hfirst hothers =>
    have halternatives :
        Alternatives Says (u ++ v) (together (Splicing.build .choice) first others) :=
      .plain hfirst hothers
    have hwhole := Whole.spaced isGap_nil halternatives isGap_nil
    rw [heq, List.nil_append, List.append_nil] at hwhole
    exact .whole hwhole

/-- What the first part of a node says. -/
def Piece : Splicing → Text → Expr → Prop
  | .row => Term Says
  | .choice => Terms Says

/-- What a further part says, with what joins it to the part before. -/
def Further : Splicing → Text → Expr → Prop
  | .row => Joined Says
  | .choice => Barred Says

/-- The text makes what comes after it a further part. -/
def Joins (s : Splicing) (joint : Text) : Prop := ∀ u e, Piece s u e → Further s (joint ++ u) e

theorem joins_space : Joins .row [' '] := fun _ _ h => .gap isGap_space (List.cons_ne_nil _ _) h

theorem joins_bar {g : Text} (hg : IsGap g) : Joins .choice (g ++ "| ".toList) := by
  intro u e h
  have hbarred : Barred Says (g ++ '|' :: [' '] ++ u) e := .bar hg isGap_space h
  rw [List.append_assoc] at hbarred ⊢
  exact hbarred

theorem atLevel_binding (s : Splicing) :
    AtLevel s.binding.level = Spread (Piece s) (Further s) s := by cases s <;> rfl

/-- In parentheses or not, an operand binds as strongly as it is asked to, and no less strongly than
by itself. -/
theorem AtLevel.operand {own least : Precedence} (h : AtLevel own.level t e)
    (hm : m ≤ own.level ∨ m ≤ least.level) : AtLevel m (t.operand least own) e := by
  unfold Text.operand
  split
  next =>
    have hgroup : AtLevel 4 ('(' :: t ++ [')']) e := Primary.group h.meaning
    have hown : own.level ≤ 4 := by cases own <;> decide
    have hleast : least.level ≤ 4 := by cases least <;> decide
    exact hgroup.loosen (by omega)
  next hlt => exact h.loosen (by omega)

theorem AtLevel.as_operand {own : Precedence} (h : AtLevel own.level t e) (least : Precedence) :
    AtLevel least.level (t.operand least own) e := h.operand (.inr (Nat.le_refl _))

/-- Parts that say expressions, with a joint between each two, say a node of these. A node with one
part is written as that part. -/
theorem atLevel_node {s : Splicing} {joint : Text} {text : Expr → Text} {es : List Expr}
    (hjoint : Joins s joint) (h : (s.node es).Printable)
    (hes : ∀ e ∈ es, AtLevel e.precedence.level (text e) e.spliced) :
    AtLevel (s.node es).precedence.level
      (Text.join joint (es.map fun e => (text e).operand s.binding e.precedence))
      (s.node es).spliced := by
  obtain ⟨hne, hparts⟩ := Splicing.printable_node.1 h
  have hspliced (e : Expr) (he : e ∈ es) := Expr.isSpliced_spliced (hparts e he)
  rw [Expr.spliced_node]
  match es, hne with
  | [e], _ =>
    rw [Splicing.precedence_node_singleton, List.map_singleton, List.map_singleton,
      Splicing.build_singleton (hspliced e List.mem_cons_self)]
    exact (hes e List.mem_cons_self).operand (.inl (Nat.le_refl _))
  | e :: f :: es, _ =>
    rw [Splicing.precedence_node (by simp), atLevel_binding]
    refine spread_join hjoint (fun x hx => ?_) hspliced (by simp)
    rw [← atLevel_binding]
    exact (hes x hx).as_operand s.binding

theorem AtLevel.suffix {u : Text} {suffix : Reader.Suffix} (h : AtLevel 4 t e)
    (hu : Suffixed u suffix) : AtLevel 3 (t ++ u) (suffix.apply e) := by
  have hoperand : Operand Says (t ++ (u ++ [])) (suffix.apply e) := .suffixes h (.cons hu .nil)
  rwa [List.append_nil] at hoperand

theorem isNumber_ofNat (n : UInt32) : IsNumber (Text.ofNat n.toNat) n :=
  ⟨Nat.toDigits_ne_nil, fun _ hc => Nat.isDigit_of_mem_toDigits (by decide) (by decide) hc,
    Nat.ofDigitChars_ten_toDigits⟩

theorem bounded_text {bounds : Bounds} (h : bounds.isProper) : Bounded bounds.text bounds := by
  match bounds, h with
  | ⟨some min, some max⟩, h =>
    have hle : min ≤ max := of_decide_eq_true h
    have hmin := isNumber_ofNat min
    have hmax := isNumber_ofNat max
    rw [Bounds.text]
    split
    next heq =>
      rw [heq]
      simpa using Bounded.exactly isGap_nil hmax isGap_nil
    next =>
      simpa using Bounded.between isGap_nil hmin isGap_nil isGap_space hmax isGap_nil hle
  | ⟨some min, none⟩, _ =>
    simpa [Bounds.text] using Bounded.atLeast isGap_nil (isNumber_ofNat min) isGap_nil isGap_nil
  | ⟨none, some max⟩, _ =>
    simpa [Bounds.text] using Bounded.atMost isGap_nil isGap_space (isNumber_ofNat max) isGap_nil

end Says

namespace Expr
open Says (AtLevel)

/-- What is written for an expression says it, spliced, and binds as its precedence says. -/
theorem atLevel_text {e : Expr} (h : e.Printable) :
    AtLevel e.precedence.level e.text e.spliced := by
  induction e with
  | name n =>
    have hname : n.isName := (all_iff.1 h).1
    rw [spliced_eq]
    exact Says.Primary.name hname
  | literal l =>
    have hwhole : l.isWhole := (all_iff.1 h).1
    rw [spliced_eq]
    exact Says.Primary.literal (Literal.isWhole_iff.1 hwhole)
  | seq es ih =>
    have hes := (Splicing.printable_node (s := .row)).1 h
    rw [text, operandTexts_eq_map]
    exact Says.atLevel_node (s := .row) Says.joins_space h fun e he => ih e he (hes.2 e he)
  | alt es ih =>
    have hes := (Splicing.printable_node (s := .choice)).1 h
    rw [text, operandTexts_eq_map]
    exact Says.atLevel_node (s := .choice) (Says.joins_bar isGap_space) h
      fun e he => ih e he (hes.2 e he)
  | optional e ih =>
    have he := (ih ((all_iff.1 h).2 e List.mem_cons_self)).as_operand .atom
    rw [spliced_eq]
    exact he.suffix (.optional isGap_nil)
  | star e ih =>
    have he := (ih ((all_iff.1 h).2 e List.mem_cons_self)).as_operand .atom
    rw [spliced_eq]
    exact he.suffix (.star isGap_nil)
  | plus e ih =>
    have he := (ih ((all_iff.1 h).2 e List.mem_cons_self)).as_operand .atom
    rw [spliced_eq]
    exact he.suffix (.plus isGap_nil)
  | repeated e bounds ih =>
    have he := (ih ((all_iff.1 h).2 e List.mem_cons_self)).as_operand .atom
    have hbounds : bounds.isProper := (all_iff.1 h).1
    rw [spliced_eq]
    exact he.suffix (.bounds isGap_nil (Says.bounded_text hbounds))
  | ahead e ih =>
    have he := (ih ((all_iff.1 h).2 e List.mem_cons_self)).as_operand .predicate
    rw [spliced_eq]
    exact Says.Term.ahead isGap_nil he
  | notAhead e ih =>
    have he := (ih ((all_iff.1 h).2 e List.mem_cons_self)).as_operand .predicate
    rw [spliced_eq]
    exact Says.Term.notAhead isGap_nil he
  | list e separator op ih =>
    have he := (ih ((all_iff.1 h).2 e List.mem_cons_self)).as_operand .atom
    have hwhole : separator.isWhole := (all_iff.1 h).1
    have hbody := Literal.isWhole_iff.1 hwhole
    have htext : (list e separator op).text =
        e.text.operand .atom e.precedence ++ [' '] ++ '%' :: [' '] ++ separator.text ++ [' '] ++
          op.text := by
      rw [text]
      simp
    rw [spliced_eq, htext]
    exact Says.Operand.list he isGap_space isGap_space hbody isGap_space

/-- A printable expression reads back from its text with its sequences and choices spliced, and as
it is if there is nothing to splice. -/
theorem ofText_text {e : Expr} (h : e.Printable) :
    ofText e.text = .ok e.spliced ∧ (e.IsSpliced → ofText e.text = .ok e) := by
  have hread : ofText e.text = .ok e.spliced := ofText_of_meaning (atLevel_text h).meaning
  refine ⟨hread, fun hspliced => ?_⟩
  rw [spliced_eq_self hspliced] at hread
  exact hread

theorem ofText_text_row_in_row :
    let choice : Expr := .alt [.name ['b'], .ahead (.name ['c'])]
    let quote : Expr := .literal ⟨['\\', '\x27'], .single⟩
    let raw : Expr := .star (.seq [.seq [.name ['a'], quote], .seq [choice]])
    let flat : Expr := .star (.seq [.name ['a'], quote, choice])
    ofText raw.text = .ok flat ∧ ofText flat.text = .ok flat := by
  intro choice quote raw flat
  have hraw : raw.Printable := by decide
  have hflat : flat.Printable ∧ flat.IsSpliced := by decide
  have hspliced : raw.spliced = flat := by decide
  exact ⟨hspliced ▸ (ofText_text hraw).1, (ofText_text hflat.1).2 hflat.2⟩

end Expr
end ExtendedBnf
