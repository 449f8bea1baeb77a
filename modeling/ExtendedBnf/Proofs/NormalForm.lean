import ExtendedBnf.ExprText
import ExtendedBnf.Name
import ExtendedBnf.Proofs.LiteralBody
import ExtendedBnf.Transform
import Mathlib.Data.List.Basic

/-!
# Spliced and printable trees

A raw tree may hold sequences and choices with fewer than two parts or directly
inside one of their own kind. `Expr.spliced` is the tree without them, built from
the leaves up. It changes nothing in a tree that has none of them. A printable tree
has names that are names, literals that end at their last quote, repetitions with
bounds that can be met, and no sequence or choice without parts.
-/
namespace ExtendedBnf

/-- Whether the literal, as it is written, ends at its last quote and not before. -/
def Literal.isWhole (l : Literal) : Bool := Literal.end? l.text 0 == some (Text.size l.text)

theorem Literal.isWhole_iff {l : Literal} : l.isWhole ↔ IsBody '\\' l.quote.char l.body := by
  rw [Literal.isWhole, beq_iff_eq, Literal.end?_text_eq_some_iff, Literal.isClosed_iff]

/-- Whether the literal is between single quotes. -/
def Literal.isSingle (l : Literal) : Bool := l.quote == .single

/-- Whether there is a bound, and none that the other one excludes. -/
def Bounds.isProper : Bounds → Bool
  | ⟨some min, some max⟩ => decide (min ≤ max)
  | ⟨min, max⟩ => min.isSome || max.isSome

namespace Expr

/-- Every node of the tree satisfies `p`. -/
def All (p : Expr → Bool) (e : Expr) : Prop := e.any (fun node => !p node) = false

instance (p : Expr → Bool) (e : Expr) : Decidable (e.All p) := inferInstanceAs (Decidable (_ = _))

theorem all_iff {p : Expr → Bool} {e : Expr} :
    e.All p ↔ p e ∧ ∀ c ∈ e.children, c.All p := by
  unfold All
  rw [any_eq]
  simp

theorem All.imp {p q : Expr → Bool} {e : Expr} (h : e.All p) (hpq : ∀ node, p node → q node) :
    e.All q := by
  induction e using children_induction with
  | step e ih =>
    obtain ⟨he, hparts⟩ := all_iff.1 h
    exact all_iff.2 ⟨hpq e he, fun c hc => ih c hc (hparts c hc)⟩

theorem All.and {p q : Expr → Bool} {e : Expr} (hp : e.All p) (hq : e.All q) :
    e.All fun node => p node && q node := by
  induction e using children_induction with
  | step e ih =>
    obtain ⟨hpe, hpparts⟩ := all_iff.1 hp
    obtain ⟨hqe, hqparts⟩ := all_iff.1 hq
    exact all_iff.2 ⟨by simp [hpe, hqe], fun c hc => ih c hc (hpparts c hc) (hqparts c hc)⟩

/-- Whether the expression is a sequence. -/
def isSeq : Expr → Bool
  | seq _ => true
  | _ => false

/-- Whether the expression is a choice. -/
def isAlt : Expr → Bool
  | alt _ => true
  | _ => false

/-- Whether there is nothing to splice where the node is a sequence or a choice. -/
def isSettled : Expr → Bool
  | seq es => decide (2 ≤ es.length) && es.all fun e => !e.isSeq
  | alt es => decide (2 ≤ es.length) && es.all fun e => !e.isAlt
  | _ => true

/-- No sequence or choice has fewer than two parts or a direct part of its own kind. -/
abbrev IsSpliced (e : Expr) : Prop := e.All isSettled

/-- Whether the node can be read from the text that is written for it. -/
def isReadable : Expr → Bool
  | name n => n.isName
  | literal l => l.isWhole
  | seq es | alt es => !es.isEmpty
  | repeated _ bounds => bounds.isProper
  | list _ separator _ => separator.isWhole
  | _ => true

/-- Names are names, literals end where they should, bounds are proper, and no sequence or choice is
empty. -/
abbrev Printable (e : Expr) : Prop := e.All isReadable

/-- Whether the node can be read from its text and has nothing to splice. -/
def isNormal (e : Expr) : Bool := e.isReadable && e.isSettled

/-- The tree is printable and spliced. -/
abbrev Normal (e : Expr) : Prop := e.All isNormal

theorem normal_iff {e : Expr} : e.Normal ↔ e.Printable ∧ e.IsSpliced := by
  refine ⟨fun h => ⟨h.imp fun _ hnode => ?_, h.imp fun _ hnode => ?_⟩, fun h => h.1.and h.2⟩
  · exact (Bool.and_eq_true_iff.1 hnode).1
  · exact (Bool.and_eq_true_iff.1 hnode).2

/-- The tree with its sequences and choices spliced, from the leaves up. -/
def spliced (e : Expr) : Expr := Transform.apply {} e

end Expr

/-- The two ways in which parts are put together by splicing. -/
inductive Splicing where
  | row
  | choice
  deriving DecidableEq, Repr

namespace Splicing

/-- The node with the given parts as they are. -/
def node : Splicing → List Expr → Expr
  | row => .seq
  | choice => .alt

/-- Whether the expression is such a node. -/
def isNode : Splicing → Expr → Bool
  | row => Expr.isSeq
  | choice => Expr.isAlt

/-- The parts that an expression adds to a node. -/
def parts : Splicing → Expr → List Expr
  | row => Expr.items
  | choice => Expr.alternatives

/-- The parts put together. -/
def build : Splicing → List Expr → Expr
  | row => Expr.sequence
  | choice => Expr.choice

/-- How a node of the kind binds. -/
def binding : Splicing → Precedence
  | row => .sequence
  | choice => .choice

variable {s : Splicing} {e : Expr} {es : List Expr}

/-- A node with one part binds like that part. -/
@[simp] theorem precedence_node_singleton : (s.node [e]).precedence = e.precedence := by
  cases s <;> rfl

theorem precedence_node (h : 2 ≤ es.length) : (s.node es).precedence = s.binding := by
  match es with
  | [] | [_] => simp at h
  | _ :: _ :: _ => cases s <;> rfl

@[simp] theorem parts_node : s.parts (s.node es) = es := by cases s <;> rfl

theorem parts_of_isNode (h : s.isNode e = false) : s.parts e = [e] := by
  cases s <;> cases e <;> first | rfl | cases h

theorem exists_eq_node (h : s.isNode e) : ∃ es, e = s.node es := by
  cases s <;> cases e <;> first | exact ⟨_, rfl⟩ | cases h

theorem build_eq_node (h : (es.flatMap s.parts).length ≠ 1) :
    s.build es = s.node (es.flatMap s.parts) := by
  cases s with
  | row =>
    change Expr.sequence es = .seq (es.flatMap Expr.items)
    unfold Expr.sequence
    split
    next heq => exact absurd (congrArg List.length heq) h
    next => rfl
  | choice =>
    change Expr.choice es = .alt (es.flatMap Expr.alternatives)
    unfold Expr.choice
    split
    next heq => exact absurd (congrArg List.length heq) h
    next => rfl

theorem build_eq_of_singleton (h : es.flatMap s.parts = [e]) : s.build es = e := by
  cases s with
  | row =>
    change es.flatMap Expr.items = [e] at h
    change Expr.sequence es = e
    rw [Expr.sequence, h]
  | choice =>
    change es.flatMap Expr.alternatives = [e] at h
    change Expr.choice es = e
    rw [Expr.choice, h]

/-- What is built depends on the parts that are added only. -/
theorem build_congr {fs : List Expr} (h : es.flatMap s.parts = fs.flatMap s.parts) :
    s.build es = s.build fs := by
  by_cases hone : (es.flatMap s.parts).length = 1
  · obtain ⟨e, he⟩ := List.length_eq_one_iff.1 hone
    rw [build_eq_of_singleton he, build_eq_of_singleton (h ▸ he)]
  · rw [build_eq_node hone, build_eq_node (h ▸ hone), h]

theorem isSpliced_node :
    (s.node es).IsSpliced ↔
      (2 ≤ es.length ∧ ∀ e ∈ es, s.isNode e = false) ∧ ∀ e ∈ es, e.IsSpliced := by
  unfold Expr.IsSpliced
  rw [Expr.all_iff]
  cases s <;> simp [node, isNode, Expr.isSettled, Expr.children]

theorem printable_node : (s.node es).Printable ↔ es ≠ [] ∧ ∀ e ∈ es, e.Printable := by
  unfold Expr.Printable
  rw [Expr.all_iff]
  cases s <;> simp [node, Expr.isReadable, Expr.children]

/-- A spliced tree adds spliced parts, and none of them has anything to add by itself. -/
theorem isSpliced_of_mem_parts (h : e.IsSpliced) {p : Expr} (hp : p ∈ s.parts e) :
    s.isNode p = false ∧ p.IsSpliced := by
  cases hnode : s.isNode e with
  | true =>
    obtain ⟨es, rfl⟩ := exists_eq_node hnode
    rw [parts_node] at hp
    obtain ⟨⟨-, hnodes⟩, hes⟩ := isSpliced_node.1 h
    exact ⟨hnodes p hp, hes p hp⟩
  | false =>
    rw [parts_of_isNode hnode, List.mem_singleton] at hp
    rw [hp]
    exact ⟨hnode, h⟩

theorem parts_ne_nil (h : e.IsSpliced) : s.parts e ≠ [] := by
  cases hnode : s.isNode e with
  | true =>
    obtain ⟨es, rfl⟩ := exists_eq_node hnode
    obtain ⟨⟨hlen, -⟩, -⟩ := isSpliced_node.1 h
    rw [parts_node]
    rintro rfl
    simp at hlen
  | false => simp [parts_of_isNode hnode]

/-- A spliced tree alone is built into itself. -/
theorem build_singleton (h : e.IsSpliced) : s.build [e] = e := by
  cases hnode : s.isNode e with
  | true =>
    obtain ⟨es, rfl⟩ := exists_eq_node hnode
    obtain ⟨⟨hlen, -⟩, -⟩ := isSpliced_node.1 h
    have hparts : [s.node es].flatMap s.parts = es := by simp
    rw [build_eq_node (by rw [hparts]; omega), hparts]
  | false => exact build_eq_of_singleton (by simp [parts_of_isNode hnode])

section
variable (h : ∀ e ∈ es, e.IsSpliced)
include h

theorem isSpliced_of_mem_flatMap {p : Expr} (hp : p ∈ es.flatMap s.parts) :
    s.isNode p = false ∧ p.IsSpliced := by
  obtain ⟨e, he, hpe⟩ := List.mem_flatMap.1 hp
  exact isSpliced_of_mem_parts (h e he) hpe

/-- Nothing is left to splice in what is built. -/
theorem parts_build : s.parts (s.build es) = es.flatMap s.parts := by
  by_cases hone : (es.flatMap s.parts).length = 1
  · obtain ⟨p, hp⟩ := List.length_eq_one_iff.1 hone
    have hmem : p ∈ es.flatMap s.parts := by simp [hp]
    rw [build_eq_of_singleton hp, hp, parts_of_isNode (isSpliced_of_mem_flatMap h hmem).1]
  · rw [build_eq_node hone, parts_node]

/-- Splicing parts that are spliced gives a spliced tree. -/
theorem isSpliced_build (hne : es ≠ []) : (s.build es).IsSpliced := by
  have hparts {p : Expr} (hp : p ∈ es.flatMap s.parts) := isSpliced_of_mem_flatMap h hp
  by_cases hone : (es.flatMap s.parts).length = 1
  · obtain ⟨p, hp⟩ := List.length_eq_one_iff.1 hone
    rw [build_eq_of_singleton hp]
    exact (hparts (by simp [hp])).2
  · have hlen : es.flatMap s.parts ≠ [] := by
      obtain ⟨e, he⟩ := List.exists_mem_of_ne_nil es hne
      exact fun hnil => parts_ne_nil (h e he) (List.flatMap_eq_nil_iff.1 hnil e he)
    have := List.length_pos_iff.2 hlen
    rw [build_eq_node hone]
    exact isSpliced_node.2 ⟨⟨by omega, fun p hp => (hparts hp).1⟩, fun p hp => (hparts hp).2⟩

end

theorem build_eq_self (h : (s.node es).IsSpliced) : s.build es = s.node es := by
  obtain ⟨⟨hlen, hnodes⟩, -⟩ := isSpliced_node.1 h
  have hparts : es.flatMap s.parts = es := by
    rw [List.flatMap_congr fun e he => parts_of_isNode (hnodes e he), List.flatMap_singleton']
  rw [build_eq_node (by rw [hparts]; omega), hparts]

end Splicing

namespace Expr

/-- The parts of a node are spliced before they are put together. -/
theorem spliced_eq (e : Expr) : e.spliced = e.withChildren (e.children.map spliced) := by
  have hspliced : spliced = Transform.apply {} := rfl
  cases e <;> simp [hspliced, Transform.apply, children, withChildren]

theorem spliced_node (s : Splicing) (es : List Expr) :
    (s.node es).spliced = s.build (es.map spliced) := by
  cases s <;> exact spliced_eq _

/-- Without empty sequences and choices, splicing leaves nothing to splice. -/
theorem isSpliced_spliced {e : Expr} (h : e.Printable) : e.spliced.IsSpliced := by
  have hnode {s : Splicing} {es : List Expr} (h : (s.node es).Printable)
      (ih : ∀ e ∈ es, e.Printable → e.spliced.IsSpliced) : (s.node es).spliced.IsSpliced := by
    obtain ⟨hne, hes⟩ := Splicing.printable_node.1 h
    rw [spliced_node]
    refine Splicing.isSpliced_build (List.forall_mem_map.2 fun e he => ih e he (hes e he)) ?_
    exact fun hnil => hne (List.map_eq_nil_iff.1 hnil)
  induction e with
  | name n => rw [spliced_eq]; rfl
  | literal l => rw [spliced_eq]; rfl
  | seq es ih => exact hnode (s := .row) h ih
  | alt es ih => exact hnode (s := .choice) h ih
  | optional e ih | star e ih | plus e ih | repeated e _ ih | ahead e ih | notAhead e ih
  | list e _ _ ih =>
    have he := ih ((all_iff.1 h).2 e List.mem_cons_self)
    rw [spliced_eq]
    exact all_iff.2 ⟨rfl, List.forall_mem_singleton.2 he⟩

/-- A spliced tree is left as it is. -/
theorem spliced_eq_self {e : Expr} (h : e.IsSpliced) : e.spliced = e := by
  have hnode {s : Splicing} {es : List Expr} (h : (s.node es).IsSpliced)
      (ih : ∀ e ∈ es, e.IsSpliced → e.spliced = e) : (s.node es).spliced = s.node es := by
    have hes := (Splicing.isSpliced_node.1 h).2
    have hmap : es.map spliced = es := by
      rw [List.map_congr_left fun e he => ih e he (hes e he), List.map_id']
    rw [spliced_node, hmap, Splicing.build_eq_self h]
  induction e with
  | name n => exact spliced_eq _
  | literal l => exact spliced_eq _
  | seq es ih => exact hnode (s := .row) h ih
  | alt es ih => exact hnode (s := .choice) h ih
  | optional e ih | star e ih | plus e ih | repeated e _ ih | ahead e ih | notAhead e ih
  | list e _ _ ih =>
    have he := ih ((all_iff.1 h).2 e List.mem_cons_self)
    rw [spliced_eq, children, List.map_singleton, he]
    rfl

end Expr
end ExtendedBnf
