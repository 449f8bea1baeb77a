import ExtendedBnf.Proofs.GrammarRoundTrip
import ExtendedBnf.Proofs.SoundTrees
import Mathlib.Data.List.Nodup

/-!
# Grammars that are read

Each line of a source adds one definition at most, and its name is a name. The body
of a rule is what its text says, and the start symbol is the name of a rule. So in a
grammar that is read, names are names, no two rules have the same one, and bodies are
sound.
-/
namespace ExtendedBnf

namespace Outline.State
variable {s s' : State} {line : Line} {raw : Text}

theorem written_close (h : s.close = .ok s') : s'.written = s.written := by
  rw [← written_of_close h, written, pending_of_close h]
  simp

/-- The names of the definitions that are known. -/
def names (s : State) : List Text := s.written.map (·.name)

theorem names_takes (h : Takes line s s') :
    s'.names = s.names ∨ ∃ n : Text, n.isName ∧ s'.names = s.names ++ [n] := by
  cases h with
  | vacant _ _ hclose => exact .inl (by rw [names, written_close hclose, names])
  | idle => cases hpending : s.pending <;> simp [names, written, hpending]
  | alternative _ _ hpending => exact .inl (by simp [names, written, hpending, extend])
  | header _ _ _ hclose hname =>
    exact .inr ⟨_, hname, by simp [names, written, written_of_close hclose]⟩

/-- A line brings in one name at most. -/
theorem names_takeLine (h : s.takeLine raw = .ok s') :
    s'.names = s.names ∨ ∃ n : Text, n.isName ∧ s'.names = s.names ++ [n] := by
  obtain ⟨marked, started, taken, hmarked, hstarted, htaken, rfl⟩ := takeLine_eq_ok_iff.1 h
  have hstart : started.names = s.names := by
    rw [names, written_of_takeStart hstarted, written_of_takeMark hmarked, names]
  have hcontent := names_takes (takes_of_takeContent htaken)
  rwa [hstart] at hcontent

/-- After any lines the names are names. -/
theorem isName_of_foldlM {lines : List Text} (hs : ∀ n ∈ s.names, n.isName)
    (h : lines.foldlM takeLine s = .ok s') : ∀ n ∈ s'.names, n.isName := by
  induction lines generalizing s with
  | nil =>
    cases h
    exact hs
  | cons raw lines ih =>
    rw [List.foldlM_cons] at h
    obtain ⟨t, ht, hrest⟩ := bind_eq_ok.1 h
    refine ih (fun n hn => ?_) hrest
    obtain hsame | ⟨m, hm, hmore⟩ := names_takeLine ht
    · exact hs n (hsame ▸ hn)
    · rw [hmore, List.mem_append, List.mem_singleton] at hn
      obtain hn | rfl := hn
      · exact hs n hn
      · exact hm

end Outline.State

theorem Outline.isName_of_ofText {source : Text} {outline : Outline}
    (h : Outline.ofText source = .ok outline) : ∀ d ∈ outline.definitions, d.name.isName := by
  obtain ⟨s, hs, hfinish⟩ := bind_eq_ok.1 h
  have hnames := State.isName_of_foldlM (s := {}) (fun n hn => absurd hn List.not_mem_nil) hs
  rw [State.written_of_finish hfinish]
  exact fun d hd => hnames d.name (List.mem_map_of_mem hd)

namespace Grammar
variable {source : Text} {g : Grammar}

/-- Every rule is read from a definition. -/
theorem exists_reads {ds : List Definition} {rs : List Rule}
    (h : List.Forall₂ Definition.Reads ds rs) {r : Rule} (hr : r ∈ rs) : ∃ d ∈ ds, d.Reads r := by
  induction h with
  | nil => cases hr
  | @cons d _ ds _ hd _ ih =>
    obtain rfl | hr := List.mem_cons.1 hr
    · exact ⟨d, List.mem_cons_self, hd⟩
    · obtain ⟨d', hd', hreads⟩ := ih hr
      exact ⟨d', List.mem_cons_of_mem d hd', hreads⟩

/-- Different rules of a grammar that is read have different names. -/
theorem name_ne_of_ofText (h : ofText source = .ok g) {r r' : Rule} (hr : r ∈ g.rules)
    (hr' : r' ∈ g.rules) (hne : r ≠ r') : r.name ≠ r'.name := by
  obtain ⟨outline, -, hreads⟩ := ofText_eq_ok_iff_reads.1 h
  exact fun hname => hne (List.inj_on_of_nodup_map hreads.distinct hr hr' hname)

/-- In a grammar that is read, names are names and bodies are normal. -/
theorem normal_of_ofText (h : ofText source = .ok g) :
    ∀ r ∈ g.rules, r.name.isName ∧ r.body.Normal := by
  obtain ⟨outline, houtline, hreads⟩ := ofText_eq_ok_iff_reads.1 h
  intro r hr
  obtain ⟨d, hd, hrule⟩ := exists_reads hreads.rules hr
  exact ⟨hrule.name ▸ Outline.isName_of_ofText houtline d hd, hrule.says.normal⟩

/-- In a grammar that is read, names are names and bodies are sound. -/
theorem sound_of_ofText (h : ofText source = .ok g) :
    (∀ r ∈ g.rules, r.name.isName ∧ r.body.Sound) ∧ ∀ symbol ∈ g.start, symbol.isName := by
  have hrules := normal_of_ofText h
  obtain ⟨outline, -, hreads⟩ := ofText_eq_ok_iff_reads.1 h
  refine ⟨fun r hr => (hrules r hr).imp_right Expr.Normal.sound, fun symbol hsymbol => ?_⟩
  obtain ⟨r, hr, rfl⟩ := List.mem_map.1 (hreads.defined symbol hsymbol)
  exact (hrules r hr).1

end Grammar
end ExtendedBnf
