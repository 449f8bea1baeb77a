import ExtendedBnf.Proofs.Loosening

/-!
# Lines and the definitions they hold

The lines of a source divide among its definitions: first come lines without code,
then the header, and then further lines up to the last one with code. A mark waits
for the next header, and no other line with code may come before it. So the marks up
to a header are one if the definition is atomic and none otherwise, and there are
none on the lines behind it.
-/
namespace ExtendedBnf

namespace Text

theorem afterWord?_eq_some_iff {t word rest : Text} :
    afterWord? t word = some rest ↔ t = word ++ rest ∧ ∀ c ∈ rest.head?, isBlank c := by
  constructor
  · intro h
    obtain rfl := eq_append_of_afterWord? h
    refine ⟨rfl, fun c hc => ?_⟩
    obtain ⟨r, rfl⟩ := List.head?_eq_some_iff.1 hc
    exact isBlank_of_afterWord? h
  · rintro ⟨rfl, hrest⟩
    cases rest with
    | nil => simp [afterWord?]
    | cons c r => exact afterWord?_append (hrest c rfl) word r

/-- The first text on the line that is not blank is the mark, as a word of its own. -/
def IsMarkLine (l : Text) : Prop :=
  ∃ g r, l = g ++ Line.atomicMarker ++ r ∧ g.isBlankText ∧ ∀ c ∈ r.head?, isBlank c

/-- The byte is on the line `l` behind the lines `ls`, not after its end. -/
def InLine (ls : List Text) (l : Text) (n : Nat) : Prop :=
  ∃ u, u <+: l.dropEndWhile Line.isEnding ∧ n = size ls.flatten + size u

end Text

namespace Line
variable {raw : Text}

/-- Up to its end a line is made of its other parts. -/
theorem append_parts (raw : Text) :
    (ofText raw).indent ++ (ofText raw).marker ++ (ofText raw).code ++ (ofText raw).comment =
      raw.dropEndWhile isEnding := by
  simp only [ofText, List.append_assoc, append_cutComment, append_cutMarker,
    List.takeWhile_append_dropWhile]

theorem isMarked_iff : (ofText raw).isMarked ↔ raw.IsMarkLine := by
  have hword : (ofText raw).isMarked ↔
      ∃ rest, (raw.dropEndWhile isEnding).trimStart.afterWord? atomicMarker = some rest := by
    simp only [isMarked, ofText, cutMarker, Text.trimStart]
    split
    next rest h => exact iff_of_true rfl ⟨rest, h⟩
    next h => simp [h]
  constructor
  · intro h
    obtain ⟨rest, hrest⟩ := hword.1 h
    obtain ⟨htext, hblank⟩ := Text.afterWord?_eq_some_iff.1 hrest
    refine ⟨(raw.dropEndWhile isEnding).takeWhile Text.isBlank,
      rest ++ raw.takeEndWhile isEnding, ?_, Text.isBlankText_takeWhile _, ?_⟩
    · rw [List.append_assoc, ← List.append_assoc atomicMarker, ← htext, Text.trimStart,
        ← List.append_assoc, List.takeWhile_append_dropWhile,
        Text.dropEndWhile_append_takeEndWhile]
    · cases rest with
      | nil =>
        exact fun c hc => List.all_eq_true.1 (isBlankText_ending raw) c (List.mem_of_head? hc)
      | cons c rest => exact hblank
  · rintro ⟨g, r, rfl, hg, hr⟩
    have hends : Text.Ends (fun c => !isEnding c) (g ++ atomicMarker) :=
      Text.Ends.append (t := atomicMarker) (Text.ends_concat (t := "#atomi".toList).2 rfl) g
    refine hword.2 ⟨r.dropEndWhile isEnding, Text.afterWord?_eq_some_iff.2 ⟨?_, fun c hc => ?_⟩⟩
    · rw [Text.dropEndWhile_append_of_ends hends, List.append_assoc, Text.trimStart_append hg]
      exact Text.trimStart_of_starts (Reader.starts_cons.2 rfl)
    · refine hr c ?_
      rw [← Text.dropEndWhile_append_takeEndWhile isEnding r, List.head?_append,
        Option.mem_def.1 hc]
      rfl

instance : DecidablePred Text.IsMarkLine := fun _ => decidable_of_iff _ isMarked_iff

end Line

namespace Outline
open Text (InLine)

/-- How many of the lines have a mark. -/
def marks (ls : List Text) : Nat := ls.countP fun l => l.IsMarkLine

@[simp] theorem marks_append (ls rest : List Text) : marks (ls ++ rest) = marks ls + marks rest :=
  List.countP_append

theorem marks_singleton (raw : Text) : marks [raw] = (Line.ofText raw).isMarked.toNat := by
  rw [marks, List.countP_singleton]
  cases h : (Line.ofText raw).isMarked with
  | false => exact if_neg (by simpa [← Line.isMarked_iff] using h)
  | true => exact if_pos (by simpa [← Line.isMarked_iff] using h)

/-- The definition has its name on the line `header` behind the lines `ls`, and its body ends on
the last one of the lines `more` after it, none of which is marked. -/
structure Holds (d : Definition) (ls : List Text) (header : Text) (more : List Text) : Prop where
  code : (Line.ofText header).hasCode
  name : InLine ls header d.nameOffset
  body : ∃ front l, header :: more = front ++ [l] ∧
    InLine (ls ++ front) l (d.bodyOffset + d.body.size)
  marks : marks more = 0

/-- The lines divide among the definitions, and a mark stands before each atomic one. -/
inductive Grouped : List Definition → List Text → Prop
  | nil : Grouped [] []
  | definition {ds : List Definition} {d : Definition} {ls lead more : List Text} {header : Text} :
      Grouped ds ls → (∀ l ∈ lead, (Line.ofText l).hasCode = false) →
      marks (lead ++ [header]) = d.atomic.toNat → Holds d (ls ++ lead) header more →
      Grouped (ds ++ [d]) (ls ++ lead ++ header :: more)

/-- The last definition may take in further lines without a mark. -/
theorem Grouped.extend {ds : List Definition} {d d' : Definition} {ls rest : List Text} {l : Text}
    (h : Grouped (ds ++ [d]) ls) (hname : d'.nameOffset = d.nameOffset)
    (hatomic : d'.atomic = d.atomic) (hmarks : Outline.marks (rest ++ [l]) = 0)
    (hend : InLine (ls ++ rest) l (d'.bodyOffset + d'.body.size)) :
    Grouped (ds ++ [d']) (ls ++ (rest ++ [l])) := by
  generalize hall : ds ++ [d] = all at h
  cases h with
  | nil => simp at hall
  | @definition ds _ ls lead more header hls hlead hmark hd =>
    obtain ⟨rfl, hlast⟩ := List.append_inj' hall rfl
    obtain rfl := List.singleton_inj.1 hlast
    have hd' : Holds d' (ls ++ lead) header (more ++ (rest ++ [l])) := by
      refine ⟨hd.code, hname ▸ hd.name, ⟨header :: (more ++ rest), l, by simp, ?_⟩, ?_⟩
      · simpa using hend
      · rw [marks_append, hd.marks, hmarks]
    simpa using Grouped.definition hls hlead (hatomic ▸ hmark) hd'

namespace State
variable {s s' : State} {raw : Text} {ls : List Text}

/-- The known definitions have their lines, and on those after them there is no code, and a mark
if one is waiting. -/
def Groups (s : State) (ls : List Text) : Prop :=
  ∃ known tail, ls = known ++ tail ∧ Grouped s.written known ∧
    (∀ l ∈ tail, (Line.ofText l).hasCode = false) ∧ marks tail = s.mark.isSome.toNat

theorem Covers.offset_of_pending {t : Text} {p : Pending} (hs : s.Covers t)
    (hp : s.pending = some p) :
    p.definition.bodyOffset + p.definition.body.size + p.gap.size = s.offset := by
  obtain ⟨u, w, -, -, -, -, hbody, ht⟩ := hs.pending p hp
  rw [hs.offset, ht, Text.size_append, Text.size_append, hbody]

theorem isSome_mark_of_takeMark {line : Line} (h : s.takeMark line = .ok s') :
    s'.mark.isSome.toNat = s.mark.isSome.toNat + line.isMarked.toNat := by
  obtain ⟨hmarked, rfl⟩ | ⟨hmarked, hmark, rfl⟩ := takeMark_eq_ok_iff.1 h
  · simp [hmarked]
  · simp [hmarked, hmark]

theorem inLine_of_code (hoffset : s.offset = Text.size ls.flatten) {u v : Text}
    (hcode : (Line.ofText raw).code = u ++ v) :
    InLine ls raw (s.offset + (Line.ofText raw).codeOffset + u.size) := by
  refine ⟨(Line.ofText raw).indent ++ (Line.ofText raw).marker ++ u,
    ⟨v ++ (Line.ofText raw).comment, ?_⟩, ?_⟩
  · rw [← Line.append_parts, hcode]
    simp only [List.append_assoc]
  · simp only [hoffset, Line.codeOffset, Text.size_append, Nat.add_assoc]

theorem inLine_of_trimmed (hoffset : s.offset = Text.size ls.flatten) :
    InLine ls raw
      (s.offset + (Line.ofText raw).codeOffset + (Line.ofText raw).code.trimEnd.size) :=
  inLine_of_code hoffset (Text.trimEnd_append_takeEndWhile _).symm

/-- The content of a line is taken in by the definition that it says, if it has code. -/
theorem Groups.takes {t : Text} {known tail : List Text} (hcovers : s.Covers t)
    (hoffset : s.offset = Text.size (known ++ tail).flatten) (hknown : Grouped s.written known)
    (htail : ∀ l ∈ tail, (Line.ofText l).hasCode = false)
    (hmarks : marks (tail ++ [raw]) = s.mark.isSome.toNat) (h : Takes (Line.ofText raw) s s') :
    s'.Groups (known ++ tail ++ [raw]) := by
  have hmore (hcode : (Line.ofText raw).hasCode = false) :
      ∀ l ∈ tail ++ [raw], (Line.ofText l).hasCode = false :=
    List.forall_mem_append.2 ⟨htail, List.forall_mem_singleton.2 hcode⟩
  cases h with
  | vacant hcode _ hclose =>
    refine ⟨known, tail ++ [raw], List.append_assoc .., ?_, hmore hcode, ?_⟩
    · rw [written, pending_of_close hclose, written_of_close hclose]
      simpa using hknown
    · rw [hmarks, mark_of_close hclose]
  | idle hcode _ =>
    refine ⟨known, tail ++ [raw], List.append_assoc .., ?_, hmore hcode, hmarks⟩
    cases hp : s.pending with
    | none => simpa [written, hp] using hknown
    | some p => simpa [written, hp] using hknown
  | @alternative p _ _ hp hmark =>
    have hwritten : s.written = s.outline.definitions ++ [p.definition] := by simp [written, hp]
    rw [hwritten] at hknown
    rw [hmark] at hmarks
    -- only its gap is behind the pending definition, so its body goes on to the code of this line
    have hpending := hcovers.offset_of_pending hp
    have hsize : (extend (Line.ofText raw) p).definition.bodyOffset +
        (extend (Line.ofText raw) p).definition.body.size =
        s.offset + (Line.ofText raw).codeOffset + (Line.ofText raw).code.trimEnd.size := by
      simp only [extend, Text.size_append, Text.size_spaces, Line.codeOffset]
      omega
    have hend : InLine (known ++ tail) raw _ := inLine_of_trimmed hoffset
    rw [← hsize] at hend
    have hextended : Grouped (s.outline.definitions ++ [(extend (Line.ofText raw) p).definition])
        (known ++ (tail ++ [raw])) := hknown.extend rfl rfl hmarks hend
    refine ⟨known ++ (tail ++ [raw]), [], by simp, hextended, List.forall_mem_nil _, ?_⟩
    rw [hmark]
    rfl
  | @header before rest closed hcode _ hcut hclose hname =>
    obtain ⟨w, -, hbefore, htrim⟩ := exists_eq_header hcut hname
    refine ⟨known ++ tail ++ [raw], [], by simp, ?_, List.forall_mem_nil _, rfl⟩
    have hwritten := written_of_close hclose
    simp only [written, hwritten]
    refine Grouped.definition hknown htail ?_ ?_
    · rw [hmarks, mark_of_close hclose]
    · refine ⟨hcode, inLine_of_code hoffset List.takeWhile_append_dropWhile.symm,
        ⟨[], raw, rfl, ?_⟩, rfl⟩
      have hline : InLine (known ++ tail) raw _ := inLine_of_trimmed hoffset
      have hmark : Text.size "::=".toList = 3 := rfl
      simp only [htrim, Text.size_append, hmark] at hline
      simpa [Nat.add_assoc] using hline

theorem Groups.takeLine {t : Text} (hs : s.Groups ls) (hcovers : s.Covers t)
    (hsize : t.size = Text.size ls.flatten) (h : s.takeLine raw = .ok s') :
    s'.Groups (ls ++ [raw]) := by
  obtain ⟨marked, started, taken, hmark, hstart, htaken, rfl⟩ := takeLine_eq_ok_iff.1 h
  obtain ⟨known, tail, rfl, hknown, htail, hmarks⟩ := hs
  have hcovers := (hcovers.takeMark hmark).takeStart hstart
  have hknown : Grouped started.written known := by
    rwa [written_of_takeStart hstart, written_of_takeMark hmark]
  have hmarks : marks (tail ++ [raw]) = started.mark.isSome.toNat := by
    rw [marks_append, marks_singleton, hmarks, mark_of_takeStart hstart,
      isSome_mark_of_takeMark hmark]
  have htakes : taken.Groups (known ++ tail ++ [raw]) :=
    Groups.takes hcovers (hcovers.offset.trans hsize) hknown htail hmarks
      (takes_of_takeContent htaken)
  exact htakes

/-- Induction on the lines. -/
theorem Groups.foldlM {t : Text} {rest : List Text} (hs : s.Groups ls) (hcovers : s.Covers t)
    (hsize : t.size = Text.size ls.flatten) (h : rest.foldlM State.takeLine s = .ok s') :
    s'.Groups (ls ++ rest) := by
  induction rest generalizing s t ls with
  | nil =>
    cases h
    simpa using hs
  | cons raw rest ih =>
    rw [List.foldlM_cons] at h
    obtain ⟨next, hnext, hrest⟩ := bind_eq_ok.1 h
    have hsize' : Text.size (t ++ (Line.ofText raw).blanked) = Text.size (ls ++ [raw]).flatten := by
      simp [hsize]
    have hall := ih (hs.takeLine hcovers hsize hnext) (hcovers.takeLine hnext) hsize' hrest
    rwa [List.append_assoc] at hall

end State

/-- The definitions of an outline have their lines, and no mark is left behind them. -/
theorem grouped_of_ofText {source : Text} {o : Outline} (h : ofText source = .ok o) :
    ∃ known tail, source.lines = known ++ tail ∧ Grouped o.definitions known ∧
      marks tail = 0 := by
  obtain ⟨last, hlast, hfinish⟩ := bind_eq_ok.1 h
  obtain ⟨closed, hclose, hmark, rfl⟩ := State.finish_eq_ok_iff.1 hfinish
  have hnone : State.Groups {} [] := ⟨[], [], rfl, .nil, nofun, rfl⟩
  obtain ⟨known, tail, hlines, hknown, -, htail⟩ := hnone.foldlM State.covers_nil rfl hlast
  rw [List.nil_append] at hlines
  rw [← State.written_of_close hclose] at hknown
  rw [← State.mark_of_close hclose, hmark] at htail
  exact ⟨known, tail, hlines, hknown, htail⟩

end Outline
end ExtendedBnf
