import EndpointCensus.Proofs.Line.Position
import EndpointCensus.Statement.Draft
import Mathlib.Data.List.Forall2

/-! Lines that differ in what a comment says. Everything that statements are read from is the same
on them: the code and the literals, the tag, the indentation and whether a literal stays open. -/

namespace EndpointCensus

theorem indentWidth_append {c : Char} (h : Text.isBlank c = false) (xs ys : List Char) :
    indentWidth (xs ++ c :: ys) = indentWidth (xs ++ [c]) := by
  induction xs with
  | nil => simp [indentWidth, h]
  | cons x xs ih => simp [indentWidth, ih]

namespace Line

def live (l : Line) : List Segment := l.segments.filter (·.kind != .comment)

/-- The lines agree in all that statements are read from. -/
structure Alike (l l' : Line) : Prop where
  number : l'.number = l.number
  tag : l'.tag = l.tag
  literalOpen : l'.literalOpen = l.literalOpen
  indent : indentWidth l'.text = indentWidth l.text
  live : l'.live = l.live

theorem Alike.refl (l : Line) : l.Alike l := ⟨rfl, rfl, rfl, rfl, rfl⟩

theorem hasContent_eq_live (l : Line) : l.hasContent = l.live.any Segment.hasContent := by
  rw [live, List.any_filter, hasContent]
  congr 1
  funext s
  unfold Segment.hasContent
  cases s.kind != .comment <;> rfl

theorem Alike.hasContent {l l' : Line} (h : l.Alike l') : l'.hasContent = l.hasContent := by
  rw [hasContent_eq_live, hasContent_eq_live, h.live]

end Line

/-- A line that ends in a comment is like the one that ends in another comment. -/
theorem alike_ofSegments_comment (number : Nat) (mode : Mode) (segments : List Segment)
    (language : Language) (cs ds : List Char) :
    (Line.ofSegments number mode .code (segments ++ [⟨.comment, commentMarker language ++ cs⟩])).Alike
      (Line.ofSegments number mode .code
        (segments ++ [⟨.comment, commentMarker language ++ ds⟩])) := by
  refine ⟨rfl, ?_, rfl, ?_, ?_⟩
  · simp [Line.ofSegments, Segment.hasContent]
  · have hmarker : ∃ c rest, commentMarker language = c :: rest ∧ Text.isBlank c = false := by
      cases language with
      | python => exact ⟨'#', [], rfl, rfl⟩
      | script => exact ⟨'/', ['/'], rfl, rfl⟩
    obtain ⟨c, rest, hmarker, hvisible⟩ := hmarker
    simp [Line.text, Line.ofSegments, hmarker, indentWidth_append hvisible _ (_ ++ _)]
  · simp [Line.live, Line.ofSegments]

/-- Behind a place in code, a comment is the last segment of its line and changes none before it. -/
theorem exists_scanFrom_comment {language : Language} {number : Nat} {k : Cursor} (hk : k.Sound)
    (line : List Char)
    (hcode : (k.read language number (commentMarker language) line).2.mode = .code) :
    ∃ segments, ∀ cs, scanFrom language number k (line ++ (commentMarker language ++ cs)) =
      (segments ++ [⟨.comment, commentMarker language ++ cs⟩], .code) := by
  refine ⟨(k.read language number (commentMarker language) line).1 ++
    cut .code (k.read language number (commentMarker language) line).2.seen, fun cs => ?_⟩
  rw [scanFrom_append, (conclusive_commentMarker language).read_append hk cs line]
  dsimp only
  rw [scanFrom_comment (hk.read _ line) hcode, List.append_assoc]

/-- The lines of a text are like those of one where a comment says something else. -/
theorem classify_comment {language : Language} {before later old new : List Char}
    (hcode : InCode language before (commentMarker language))
    (hlater : later = [] ∨ ∃ more, later = '\n' :: more) (hold : '\n' ∉ old) (hnew : '\n' ∉ new) :
    let table cs := classify language (before ++ (commentMarker language ++ (cs ++ later)))
    List.Forall₂ Line.Alike (table old).lines (table new).lines ∧
      (table new).unterminated = (table old).unterminated := by
  obtain ⟨earlier, line, rfl, hearlier, hline, hmode⟩ := hcode
  have hstart : ({ mode := .code } : Cursor).Sound :=
    Cursor.sound_start fun _ _ h => by contradiction
  have hreached := sound_scanLines language 1 hstart (physicalLines earlier)
  obtain ⟨segments, hscan⟩ := exists_scanFrom_comment hreached line hmode
  have hphysical (cs : List Char) (hcs : '\n' ∉ cs) :
      physicalLines (earlier ++ line ++ (commentMarker language ++ (cs ++ later))) =
        physicalLines earlier ++
          (line ++ (commentMarker language ++ lineEnding later cs)) ::
            physicalLines later.tail := by
    have hmarker : '\n' ∉ commentMarker language ∧ commentMarker language ≠ [] ∧
        (commentMarker language).getLast? ≠ some '\r' := by
      cases language <;> decide
    obtain ⟨hbreak, hne, hlast⟩ := hmarker
    have hreturn : (line ++ commentMarker language).getLast? ≠ some '\r' := by
      rw [List.getLast?_append]
      cases h : (commentMarker language).getLast? with
      | none => exact absurd (List.getLast?_eq_none_iff.mp h) hne
      | some c => rwa [Option.some_or, ← h]
    have hfront : '\n' ∉ line ++ commentMarker language := by simp [hline, hbreak]
    have hend := physicalLines_line hfront hcs hlater
      (by simp [hne]) hreturn
    rw [List.append_assoc, physicalLines_append hearlier, ← List.append_assoc line, hend,
      List.append_assoc]
  dsimp only
  unfold classify
  rw [hphysical old hold, hphysical new hnew]
  simp only [scanLines_append, scanLines]
  rw [Nat.add_comm 1, hscan, hscan]
  have hsame (lines : List Line) : List.Forall₂ Line.Alike lines lines :=
    List.forall₂_same.mpr fun l _ => .refl l
  refine ⟨?_, rfl⟩
  exact List.rel_append (hsame _) (.cons (alike_ofSegments_comment _ _ segments language _ _)
    (hsame _))

end EndpointCensus
