import ExtendedBnf.Proofs.LackingNodes
import ExtendedBnf.Proofs.PascalForm

/-!
# Rules in the naming of node grammars

A tree is in the naming of node grammars when its names are in Pascal case and none of
them is that of a built-in class, its literals stand between single quotes, and there is
nothing to splice. Such trees and no others are left as they are. A tree that is given
these names and quotes is such a tree, but for names of which the Pascal form happens to be
that of a built-in class: these become tokens the second time, and from then on nothing
changes.
-/
namespace ExtendedBnf

namespace Expr

/-- The name that the node is, if it is one. -/
def name? : Expr → Option Text
  | name n => some n
  | _ => none

/-- The names in the tree, those under predicates too, from left to right. -/
def everyName (e : Expr) : List Text := e.nodes.filterMap name?

theorem everyName_eq (e : Expr) :
    e.everyName = e.name?.toList ++ e.children.flatMap everyName := by
  rw [everyName, nodes_eq, List.filterMap_cons, List.filterMap_flatMap]
  cases e.name? <;> rfl

theorem mem_everyName_iff {e : Expr} {n : Text} : n ∈ e.everyName ↔ name n ∈ e.nodes := by
  rw [everyName, List.mem_filterMap]
  refine ⟨?_, fun h => ⟨name n, h, rfl⟩⟩
  rintro ⟨node, hnode, hname⟩
  cases node <;> cases hname
  exact hnode

/-- Whether the node is named and quoted as in node grammars, and has nothing to splice. A sequence
or a choice may be empty, and the separator of a list may stand between double quotes. -/
def isNodeNamed : Expr → Bool
  | name n => n.pascalCase == n && (builtinToken? n).isNone
  | literal l => l.isSingle
  | seq es => es.length != 1 && es.all fun e => !e.isSeq
  | alt es => es.length != 1 && es.all fun e => !e.isAlt
  | _ => true

end Expr

namespace Splicing
variable {s : Splicing} {es : List Expr}

theorem isNodeNamed_node :
    (s.node es).isNodeNamed ↔ es.length ≠ 1 ∧ ∀ e ∈ es, s.isNode e = false := by
  cases s <;> simp [node, isNode, Expr.isNodeNamed]

theorem all_isNodeNamed_node : (s.node es).All Expr.isNodeNamed ↔
    (es.length ≠ 1 ∧ ∀ e ∈ es, s.isNode e = false) ∧ ∀ e ∈ es, e.All Expr.isNodeNamed := by
  rw [Expr.all_iff, isNodeNamed_node]
  cases s <;> rfl

/-- Splicing trees with nothing to splice leaves nothing to splice. -/
theorem all_isNodeNamed_build (h : ∀ e ∈ es, e.All Expr.isNodeNamed) :
    (s.build es).All Expr.isNodeNamed := by
  have hparts {c : Expr} (hc : c ∈ es.flatMap s.parts) :
      s.isNode c = false ∧ c.All Expr.isNodeNamed := by
    obtain ⟨e, he, hce⟩ := List.mem_flatMap.1 hc
    cases hnode : s.isNode e with
    | true =>
      obtain ⟨fs, rfl⟩ := exists_eq_node hnode
      obtain ⟨⟨-, hnodes⟩, hall⟩ := all_isNodeNamed_node.1 (h _ he)
      rw [parts_node] at hce
      exact ⟨hnodes c hce, hall c hce⟩
    | false =>
      rw [parts_of_isNode hnode, List.mem_singleton] at hce
      rw [hce]
      exact ⟨hnode, h e he⟩
  by_cases hone : (es.flatMap s.parts).length = 1
  · obtain ⟨c, hc⟩ := List.length_eq_one_iff.1 hone
    rw [build_eq_of_singleton hc]
    exact (hparts (by simp [hc])).2
  · rw [build_eq_node hone]
    exact all_isNodeNamed_node.2 ⟨⟨hone, fun c hc => (hparts hc).1⟩, fun c hc => (hparts hc).2⟩

theorem build_eq_self_of_isNodeNamed (hone : es.length ≠ 1) (h : ∀ e ∈ es, s.isNode e = false) :
    s.build es = s.node es := by
  have hparts : es.flatMap s.parts = es := by
    rw [List.flatMap_congr fun e he => parts_of_isNode (h e he), List.flatMap_singleton']
  rw [build_eq_node (by rwa [hparts]), hparts]

@[simp] theorem everyName_node : (s.node es).everyName = es.flatMap Expr.everyName := by
  rw [Expr.everyName_eq]
  cases s <;> rfl

/-- Splicing keeps the names. -/
theorem everyName_build : (s.build es).everyName = es.flatMap Expr.everyName := by
  have hpart (e : Expr) : (s.parts e).flatMap Expr.everyName = e.everyName := by
    cases hnode : s.isNode e with
    | true =>
      obtain ⟨fs, rfl⟩ := exists_eq_node hnode
      rw [parts_node, everyName_node]
    | false => rw [parts_of_isNode hnode, List.flatMap_singleton]
  have hparts : (es.flatMap s.parts).flatMap Expr.everyName = es.flatMap Expr.everyName := by
    rw [List.flatMap_assoc]
    exact List.flatMap_congr fun e _ => hpart e
  by_cases hone : (es.flatMap s.parts).length = 1
  · obtain ⟨c, hc⟩ := List.length_eq_one_iff.1 hone
    rw [build_eq_of_singleton hc, ← hparts, hc, List.flatMap_singleton]
  · rw [build_eq_node hone, everyName_node, hparts]

end Splicing

namespace Expr
variable {e : Expr}

theorem nodeNamed_node (s : Splicing) (es : List Expr) :
    (s.node es).nodeNamed = s.build (es.map nodeNamed) := by
  cases s <;> exact congrArg _ (Transform.applyAll_eq_map _ es)

theorem nodeNamed_of_token {n token : Text} (h : builtinToken? n = some token) :
    (name n).nodeNamed = literal ⟨token, .single⟩ := by
  simp [nodeNamed, Transform.apply, h]

theorem nodeNamed_of_name {n : Text} (h : builtinToken? n = none) :
    (name n).nodeNamed = name n.pascalCase := by
  simp [nodeNamed, Transform.apply, h]

/-- The names that node grammars have in place of the names of a tree. -/
theorem everyName_nodeNamed (e : Expr) : e.nodeNamed.everyName =
    (e.everyName.filter fun n => (builtinToken? n).isNone).map Text.pascalCase := by
  have hnode {s : Splicing} {es : List Expr} (hes : ∀ e ∈ es, e.nodeNamed.everyName =
      (e.everyName.filter fun n => (builtinToken? n).isNone).map Text.pascalCase) :
      (s.node es).nodeNamed.everyName =
        ((s.node es).everyName.filter fun n => (builtinToken? n).isNone).map Text.pascalCase := by
    rw [nodeNamed_node, Splicing.everyName_build, Splicing.everyName_node, List.flatMap_map,
      List.filter_flatMap, List.map_flatMap]
    exact List.flatMap_congr hes
  induction e with
  | name n =>
    cases htoken : builtinToken? n with
    | some token =>
      rw [nodeNamed_of_token htoken]
      simp [everyName_eq, name?, children, htoken]
    | none =>
      rw [nodeNamed_of_name htoken]
      simp [everyName_eq, name?, children, htoken]
  | literal l => rfl
  | seq es ih => exact hnode (s := .row) ih
  | alt es ih => exact hnode (s := .choice) ih
  | optional e ih | star e ih | plus e ih | repeated e _ ih | ahead e ih | notAhead e ih
  | list e _ _ ih => exact ih

/-- A tree with names and quotes of node grammars is left as it is. -/
theorem nodeNamed_eq_self (h : e.All isNodeNamed) : e.nodeNamed = e := by
  have hnode {s : Splicing} {es : List Expr} (h : (s.node es).All isNodeNamed)
      (ih : ∀ e ∈ es, e.All isNodeNamed → e.nodeNamed = e) :
      (s.node es).nodeNamed = s.node es := by
    obtain ⟨⟨hone, hnodes⟩, hes⟩ := Splicing.all_isNodeNamed_node.1 h
    rw [nodeNamed_node, List.map_congr_left fun e he => ih e he (hes e he), List.map_id']
    exact Splicing.build_eq_self_of_isNodeNamed hone hnodes
  induction e with
  | name n =>
    obtain ⟨hpascal, hnone⟩ := Bool.and_eq_true_iff.1 (all_iff.1 h).1
    rw [nodeNamed_of_name (Option.isNone_iff_eq_none.1 hnone), beq_iff_eq.1 hpascal]
  | literal l =>
    have hquote : l.quote = .single := beq_iff_eq.1 (all_iff.1 h).1
    exact congrArg literal (hquote ▸ l.withQuote_self)
  | seq es ih => exact hnode (s := .row) h ih
  | alt es ih => exact hnode (s := .choice) h ih
  | optional e ih => exact congrArg optional (ih ((all_iff.1 h).2 e List.mem_cons_self))
  | star e ih => exact congrArg star (ih ((all_iff.1 h).2 e List.mem_cons_self))
  | plus e ih => exact congrArg plus (ih ((all_iff.1 h).2 e List.mem_cons_self))
  | repeated e bounds ih =>
    exact congrArg (repeated · bounds) (ih ((all_iff.1 h).2 e List.mem_cons_self))
  | ahead e ih => exact congrArg ahead (ih ((all_iff.1 h).2 e List.mem_cons_self))
  | notAhead e ih => exact congrArg notAhead (ih ((all_iff.1 h).2 e List.mem_cons_self))
  | list e separator op ih =>
    exact congrArg (list · separator op) (ih ((all_iff.1 h).2 e List.mem_cons_self))

/-- Only the names decide whether a tree is in the naming of node grammars once it has been given
it. -/
theorem all_isNodeNamed_nodeNamed (h : ∀ n ∈ e.nodeNamed.everyName, (name n).isNodeNamed) :
    e.nodeNamed.All isNodeNamed := by
  have hnode {s : Splicing} {es : List Expr}
      (h : ∀ n ∈ (s.node es).nodeNamed.everyName, (name n).isNodeNamed)
      (ih : ∀ e ∈ es, (∀ n ∈ e.nodeNamed.everyName, (name n).isNodeNamed) →
        e.nodeNamed.All isNodeNamed) : (s.node es).nodeNamed.All isNodeNamed := by
    rw [nodeNamed_node, Splicing.everyName_build, List.forall_mem_flatMap] at h
    rw [nodeNamed_node]
    refine Splicing.all_isNodeNamed_build (List.forall_mem_map.2 fun e he => ih e he ?_)
    exact h e.nodeNamed (List.mem_map_of_mem he)
  induction e with
  | name n =>
    cases htoken : builtinToken? n with
    | some token =>
      rw [nodeNamed_of_token htoken]
      exact (all_leaf rfl).2 rfl
    | none =>
      rw [nodeNamed_of_name htoken] at h ⊢
      exact (all_leaf rfl).2 (h _ (mem_everyName_iff.2 List.mem_cons_self))
  | literal l => exact (all_leaf rfl).2 (beq_iff_eq.2 (l.quote_withQuote .single))
  | seq es ih => exact hnode (s := .row) h ih
  | alt es ih => exact hnode (s := .choice) h ih
  | optional e ih | star e ih | plus e ih | repeated e _ ih | ahead e ih | notAhead e ih
  | list e _ _ ih => exact (all_node rfl rfl).2 (ih h)

section
variable (hnames : ∀ n ∈ e.everyName, n.pascalCase.pascalCase = n.pascalCase)
include hnames

theorem mem_everyName_nodeNamed {m : Text} (hm : m ∈ e.nodeNamed.everyName) :
    ∃ n ∈ e.everyName, builtinToken? n = none ∧ n.pascalCase = m ∧ m.pascalCase = m := by
  rw [everyName_nodeNamed] at hm
  obtain ⟨n, hn, rfl⟩ := List.mem_map.1 hm
  obtain ⟨hmem, hnone⟩ := List.mem_filter.1 hn
  exact ⟨n, hmem, Option.isNone_iff_eq_none.1 hnone, rfl, hnames n hmem⟩

theorem pascalCase_of_mem_everyName {m : Text} (hm : m ∈ e.nodeNamed.everyName) :
    m.pascalCase = m := by
  obtain ⟨-, -, -, -, hpascal⟩ := mem_everyName_nodeNamed hnames hm
  exact hpascal

/-- Names in Pascal case stay in Pascal case, so the second time only names of built-in classes are
left to be replaced. -/
theorem nodeNamed_nodeNamed_eq_iff : e.nodeNamed.nodeNamed = e.nodeNamed ↔
    ∀ n ∈ e.everyName, builtinToken? n = none → builtinToken? n.pascalCase = none := by
  have hpascal {m : Text} (hm : m ∈ e.nodeNamed.everyName) : m.pascalCase = m :=
    pascalCase_of_mem_everyName hnames hm
  constructor
  · intro hagain n hn hnone
    have hmem : n.pascalCase ∈ e.nodeNamed.everyName := by
      rw [everyName_nodeNamed]
      exact List.mem_map_of_mem (List.mem_filter.2 ⟨hn, by rw [hnone]; rfl⟩)
    rw [← hagain] at hmem
    obtain ⟨m, hm, htoken, hname, -⟩ :=
      mem_everyName_nodeNamed (fun m hm => by rw [hpascal hm, hpascal hm]) hmem
    rwa [← hname, hpascal hm]
  · intro h
    refine nodeNamed_eq_self (all_isNodeNamed_nodeNamed fun m hm => ?_)
    obtain ⟨n, hn, hnone, rfl, hpascal⟩ := mem_everyName_nodeNamed hnames hm
    refine Bool.and_eq_true_iff.2 ⟨beq_iff_eq.2 hpascal, ?_⟩
    rw [h n hn hnone]
    rfl

/-- Nothing changes any more after the second time. -/
theorem nodeNamed_thrice : e.nodeNamed.nodeNamed.nodeNamed = e.nodeNamed.nodeNamed := by
  have hpascal {m : Text} (hm : m ∈ e.nodeNamed.everyName) : m.pascalCase = m :=
    pascalCase_of_mem_everyName hnames hm
  refine (nodeNamed_nodeNamed_eq_iff fun m hm => by rw [hpascal hm, hpascal hm]).2 ?_
  intro m hm hnone
  rwa [hpascal hm]

/-- A tree is left as it is only if it has names and quotes of node grammars. -/
theorem nodeNamed_eq_self_iff : e.nodeNamed = e ↔ e.All isNodeNamed := by
  refine ⟨fun h => ?_, nodeNamed_eq_self⟩
  have hagain := (nodeNamed_nodeNamed_eq_iff hnames).1 (congrArg nodeNamed h)
  rw [← h]
  refine all_isNodeNamed_nodeNamed fun m hm => ?_
  obtain ⟨n, hn, hnone, rfl, hpascal⟩ := mem_everyName_nodeNamed hnames hm
  exact Bool.and_eq_true_iff.2 ⟨beq_iff_eq.2 hpascal, by rw [hagain n hn hnone]; rfl⟩

end

end Expr

namespace Rule

/-- A rule is left as it is just when its names are in Pascal case and not those of built-in
classes, its literals, the separators of lists aside, stand between single quotes and nothing is to
be spliced. A rule that has been given names and quotes of node grammars is so if no name but that
of a built-in class has the Pascal form of such a name. From the second time on nothing changes. -/
theorem nodeNamed_again {r : Rule} (hname : r.name.isName)
    (hbody : ∀ n ∈ r.body.everyName, n.isName) :
    (r.nodeNamed = r ↔ r.name.pascalCase = r.name ∧ r.body.All Expr.isNodeNamed) ∧
    ((∀ n ∈ r.body.everyName, builtinToken? n = none → builtinToken? n.pascalCase = none) →
      r.nodeNamed.nodeNamed = r.nodeNamed) ∧
    r.nodeNamed.nodeNamed.nodeNamed = r.nodeNamed.nodeNamed := by
  have hagain {n : Text} (hn : n.isName) : n.pascalCase.pascalCase = n.pascalCase :=
    Text.pascalCase_pascalCase fun _ hc => Text.isNameRest_of_mem hn hc
  have hnames : ∀ n ∈ r.body.everyName, n.pascalCase.pascalCase = n.pascalCase :=
    fun n hn => hagain (hbody n hn)
  refine ⟨?_, fun htokens => ?_, ?_⟩
  · rw [← Expr.nodeNamed_eq_self_iff hnames]
    obtain ⟨name, body, atomic⟩ := r
    simp [nodeNamed]
  · simp [nodeNamed, hagain hname, (Expr.nodeNamed_nodeNamed_eq_iff hnames).2 htokens]
  · simp [nodeNamed, hagain hname, Expr.nodeNamed_thrice hnames]

/-- The raw tree `((a_b "it's") | ('x')) | ASCIIDIGIT` with its choice in a choice. -/
theorem nodeNamed_again_raw :
    let row : Expr := .seq [.name "a_b".toList, .literal ⟨"it's".toList, .double⟩]
    let body : Expr :=
      .alt [.alt [row, .seq [.literal ⟨['x'], .single⟩]], .name "ASCIIDIGIT".toList]
    let r : Rule := ⟨"_r_1".toList, body, true⟩
    r.name.isName ∧ (∀ n ∈ r.body.everyName, n.isName) ∧
      (∀ n ∈ r.body.everyName, builtinToken? n = none → builtinToken? n.pascalCase = none) ∧
      r.nodeNamed.nodeNamed = r.nodeNamed ∧ r.nodeNamed ≠ r := by
  intro row body r
  have hname : r.name.isName := by decide
  have hbody : ∀ n ∈ r.body.everyName, n.isName := by decide
  have htokens : ∀ n ∈ r.body.everyName, builtinToken? n = none →
      builtinToken? n.pascalCase = none := by decide
  obtain ⟨hself, hagain, -⟩ := nodeNamed_again hname hbody
  exact ⟨hname, hbody, htokens, hagain htokens, fun h => absurd (hself.1 h).1 (by decide)⟩

/-- In Pascal case the name of a built-in class becomes its token like the name itself. A name that
only has this Pascal form is given it first, and is taken for the class the second time. -/
theorem nodeNamed_builtin_ne :
    let named : Rule := ⟨['R'], .name "ASCIIDIGIT".toList, false⟩
    let other : Rule := ⟨['r'], .name "ASCII__DIGIT".toList, false⟩
    (named.name.isName ∧ named.name.pascalCase = named.name ∧
      ∀ n ∈ named.body.everyName, n.isName ∧ n.pascalCase = n) ∧
    named.nodeNamed = ⟨['R'], .literal ⟨"digit".toList, .single⟩, false⟩ ∧
    named.nodeNamed ≠ named ∧
    (other.name.isName ∧ ∀ n ∈ other.body.everyName, n.isName) ∧
    other.nodeNamed = ⟨['R'], .name "ASCIIDIGIT".toList, false⟩ ∧
    other.nodeNamed.nodeNamed ≠ other.nodeNamed := by
  decide

end Rule
end ExtendedBnf
