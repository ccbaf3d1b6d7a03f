import EndpointCensus.Proofs.Line.Comment
import EndpointCensus.Statement.Assembly

/-! Assembly of lines that are alike. The text of a line is only looked at for the indentation of
a statement that starts there, and comments are passed over, so lines that differ in comments
give the same statements. -/

namespace EndpointCensus

namespace Assembly

variable {language : Language} {l l' : Line}

theorem modifyFor_congr (hdraft : Draft.ofLine l' = .ofLine l) (chunk : List Char)
    (f : Draft → Draft) (a : Assembly) :
    a.modifyFor language l' chunk f = a.modifyFor language l chunk f := by
  unfold modifyFor
  rw [hdraft]

theorem pushCode_congr (hdraft : Draft.ofLine l' = .ofLine l) (chunk : List Char) (a : Assembly) :
    a.pushCode language l' chunk = a.pushCode language l chunk := by
  have hnumber : l'.number = l.number := congrArg Draft.startLine hdraft
  unfold pushCode
  rw [hnumber, modifyFor_congr hdraft]

theorem feedCode_congr (hdraft : Draft.ofLine l' = .ofLine l) (chunk seen rest : List Char)
    (a : Assembly) :
    a.feedCode language l' chunk seen rest = a.feedCode language l chunk seen rest := by
  induction rest generalizing a chunk seen with
  | nil => exact pushCode_congr hdraft chunk a
  | cons c rest ih =>
    unfold feedCode
    split
    · rw [modifyFor_congr hdraft, ih]
    · split
      · exact ih ..
      · split
        · rw [pushCode_congr hdraft, ih]
        · exact ih ..

theorem feedSegments_congr (hdraft : Draft.ofLine l' = .ofLine l)
    (hopen : l'.literalOpen = l.literalOpen) (segments : List Segment) (a : Assembly) :
    a.feedSegments language l' segments = a.feedSegments language l segments := by
  have hnumber : l'.number = l.number := congrArg Draft.startLine hdraft
  induction segments generalizing a with
  | nil => rfl
  | cons s rest ih =>
    unfold feedSegments
    cases s.kind with
    | comment => exact ih a
    | code =>
      dsimp only
      rw [feedCode_congr hdraft, ih]
    | literal =>
      dsimp only
      rw [hnumber, hopen, modifyFor_congr hdraft, ih]

theorem feedSegments_live (l : Line) (segments : List Segment) (a : Assembly) :
    a.feedSegments language l (segments.filter (·.kind != .comment)) =
      a.feedSegments language l segments := by
  induction segments generalizing a with
  | nil => rfl
  | cons s rest ih =>
    cases hkind : s.kind with
    | comment =>
      rw [List.filter_cons_of_neg (by simp [hkind]), ih]
      simp [feedSegments, hkind]
    | code =>
      rw [List.filter_cons_of_pos (by simp [hkind])]
      simp [feedSegments, hkind, ih]
    | literal =>
      have hlater : (rest.filter (·.kind != .comment)).any (·.kind == .literal) =
          rest.any (·.kind == .literal) := by
        rw [List.any_filter]
        congr 1
        funext t
        cases t.kind <;> rfl
      rw [List.filter_cons_of_pos (by simp [hkind])]
      simp only [feedSegments, hkind, hlater, ih]

theorem feedLine_congr (h : l.Alike l') (a : Assembly) :
    a.feedLine language l' = a.feedLine language l := by
  have hdraft : Draft.ofLine l' = .ofLine l := by
    unfold Draft.ofLine
    rw [h.number, h.indent]
  have hsegments : a.feedSegments language l' l'.segments =
      a.feedSegments language l l.segments := by
    rw [← feedSegments_live l' l'.segments, ← feedSegments_live l l.segments,
      feedSegments_congr hdraft h.literalOpen]
    exact congrArg _ h.live
  unfold feedLine
  rw [h.tag, h.hasContent, hsegments]

theorem foldl_feedLine_congr {lines lines' : List Line} (h : List.Forall₂ Line.Alike lines lines')
    (a : Assembly) : lines'.foldl (feedLine language) a = lines.foldl (feedLine language) a := by
  induction h generalizing a with
  | nil => rfl
  | cons hline _ ih => rw [List.foldl_cons, List.foldl_cons, feedLine_congr hline, ih]

end Assembly

theorem forall₂_takeWhile {lines lines' : List Line} (h : List.Forall₂ Line.Alike lines lines')
    (limit : Nat) : List.Forall₂ Line.Alike (lines.takeWhile fun l => l.number < limit)
      (lines'.takeWhile fun l => l.number < limit) := by
  induction h with
  | nil => exact .nil
  | cons hline _ ih =>
    rw [List.takeWhile_cons, List.takeWhile_cons, hline.number]
    split
    · exact .cons hline ih
    · exact .nil

/-- Alike lines hold the same statements. -/
theorem LineTable.assemble_congr (language : Language) {table table' : LineTable}
    (hlines : List.Forall₂ Line.Alike table.lines table'.lines)
    (hopen : table'.unterminated = table.unterminated) :
    table'.assemble language = table.assemble language := by
  unfold assemble
  rw [hopen]
  cases table.unterminated with
  | none =>
    dsimp only
    rw [Assembly.foldl_feedLine_congr hlines]
  | some limit =>
    dsimp only
    rw [Assembly.foldl_feedLine_congr (forall₂_takeWhile hlines limit.1)]

end EndpointCensus
