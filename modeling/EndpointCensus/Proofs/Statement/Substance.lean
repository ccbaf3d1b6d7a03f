import EndpointCensus.Proofs.Line.Concatenation
import EndpointCensus.Proofs.Statement.Pending
import EndpointCensus.Proofs.Text.Word

/-!
Assembly conserves its source. What assembly may add or drop is white space, semicolons and the
backslashes that continue a line; the rest of a text is its substance. The statements of a text, one
after the other, have the substance of its code and literals, in the same order and nothing else.

A chunk takes one of several ways into a statement: as the first of a line, after another one,
before a semicolon or as part of a literal, and the statement may be new, open or held back. All
of them append the substance of the chunk to what has been assembled so far, and ending a
statement only moves it.
-/

namespace EndpointCensus

namespace Text

/-- Neither white space nor a mark that assembly may drop. -/
def isSubstance (c : Char) : Bool := !isBlank c && c != ';' && c != '\\'

/-- The text without white space, semicolons and backslashes. -/
def substance (cs : List Char) : List Char := cs.filter isSubstance

@[simp] theorem substance_nil : substance [] = [] := rfl

@[simp] theorem substance_append (xs ys : List Char) :
    substance (xs ++ ys) = substance xs ++ substance ys := List.filter_append ..

theorem substance_cons_of_not {c : Char} (h : isSubstance c = false) (cs : List Char) :
    substance (c :: cs) = substance cs := by
  rw [substance, List.filter_cons_of_neg (by simp [h]), substance]

theorem isSubstance_of_isBlank {c : Char} (h : isBlank c = true) : isSubstance c = false := by
  simp [isSubstance, h]

@[simp] theorem substance_reverse (cs : List Char) :
    substance cs.reverse = (substance cs).reverse :=
  List.filter_reverse ..

theorem substance_of_allBlank {cs : List Char} (h : allBlank cs = true) : substance cs = [] := by
  rw [substance, List.filter_eq_nil_iff]
  intro c hc
  rw [isSubstance_of_isBlank (List.all_eq_true.mp h c hc)]
  exact Bool.false_ne_true

@[simp] theorem substance_trimStart (cs : List Char) : substance (trimStart cs) = substance cs :=
  filter_trimStart (fun _ => isSubstance_of_isBlank) cs

end Text

open Text (substance)

/-! ### Drafts -/

namespace Draft

def text (d : Draft) : List Char := d.cells.map Cell.char

@[simp] theorem text_ofLine (l : Line) : (ofLine l).text = [] := rfl

@[simp] theorem text_append (d : Draft) (cells : List Cell) :
    (d.append cells).text = d.text ++ cells.map Cell.char := by
  cases h : d.openLiteral <;> simp [append, text, Draft.cells, h]

@[simp] theorem text_openBracket (d : Draft) : d.openBracket.text = d.text := rfl

@[simp] theorem text_closeBracket (d : Draft) : d.closeBracket.text = d.text := rfl

@[simp] theorem text_closeLiteral (d : Draft) : d.closeLiteral.text = d.text := by
  cases h : d.openLiteral <;> simp [closeLiteral, text, cells, Piece.cells, h]

/-- White space is dropped from cells as from their characters. -/
theorem map_char_dropWhile (cells : List Cell) :
    (cells.dropWhile Cell.isBlank).map Cell.char = Text.trimStart (cells.map Cell.char) :=
  List.dropWhile_map.symm

/-- White space at the end of the code has no substance. -/
theorem substance_dropWhile_isBlank (cells : List Cell) :
    substance ((cells.dropWhile Cell.isBlank).map Cell.char) = substance (cells.map Cell.char) := by
  rw [map_char_dropWhile, Text.substance_trimStart]

@[simp] theorem substance_trimCode (d : Draft) : substance d.trimCode.text = substance d.text := by
  cases h : d.openLiteral <;> simp [trimCode, text, cells, h, substance_dropWhile_isBlank]

@[simp] theorem substance_enterLine (d : Draft) (line : Nat) :
    substance (d.enterLine line).text = substance d.text := by
  have hjoint : substance ([Cell.joint].map Cell.char) = [] := rfl
  unfold enterLine
  split
  · rfl
  · change substance (if d.width == 0 then d else d.trimCode.append [.joint]).text =
        substance d.text
    split
    · rfl
    · rw [text_append, Text.substance_append, hjoint, List.append_nil, substance_trimCode]

@[simp] theorem map_char_cellsOf (line : Nat) (chunk : List Char) :
    (cellsOf line chunk).map Cell.char = chunk := by
  simp [cellsOf, Function.comp_def]

theorem substance_pushCode (d : Draft) (line : Nat) (chunk : List Char) :
    substance (d.pushCode line chunk).text = substance d.text ++ substance chunk := by
  rw [pushCode, text_append, map_char_cellsOf, Text.substance_append, substance_enterLine]
  split <;> simp

theorem substance_pushLiteral (d : Draft) (line : Nat) (chunk : List Char) (continues : Bool) :
    substance (d.pushLiteral line chunk continues).text = substance d.text ++ substance chunk := by
  have hopen (e : Draft) : ({ e with openLiteral := some (e.openLiteral.getD []) } : Draft).text =
      e.text := by
    simp [text, cells]
  unfold pushLiteral
  dsimp only
  split <;> simp [hopen]

theorem substance_withoutContinuation? {d e : Draft} (h : d.withoutContinuation? = some e) :
    substance e.text = substance d.text := by
  unfold withoutContinuation? at h
  split at h
  · contradiction
  · next c before hdrop =>
    split at h
    · next hc =>
      obtain rfl := Option.some.inj h
      have htail : substance (before.map Cell.char) = substance (d.tail.map Cell.char) := by
        rw [← substance_dropWhile_isBlank d.tail, hdrop, List.map_cons, beq_iff_eq.mp hc]
        rfl
      simp [text, cells, htail]
    · contradiction

/-- A draft that is dropped for being blank has no substance. -/
theorem substance_finish (d : Draft) :
    substance (d.finish.elim [] Statement.text) = substance d.text := by
  have hcells : d.trimCode.pieces.flatMap Piece.cells = d.trimCode.cells := by
    simp [pieces, cells, Piece.cells]
  rw [← substance_trimCode, text, ← hcells, finish]
  split
  · next hblank =>
    symm
    apply Text.substance_of_allBlank
    simpa [Text.allBlank, Cell.isBlank] using hblank
  · rfl

end Draft

/-! ### Assemblies -/

namespace Assembly

/-- All characters so far: of finished statements, of the one that is held back and
of the open one. -/
def text (a : Assembly) : List Char :=
  a.finished.reverse.flatMap Statement.text ++ a.pending.elim [] Draft.text ++
    a.current.elim [] Draft.text

variable {a : Assembly}

theorem substance_emit (hcurrent : a.current = none) (hpending : a.pending = none) (d : Draft) :
    substance (a.emit d).text = substance a.text ++ substance d.text := by
  rw [← d.substance_finish]
  unfold emit
  cases d.finish <;> simp [text, hcurrent, hpending]

theorem substance_flushPending (hcurrent : a.current = none) :
    substance a.flushPending.text = substance a.text := by
  unfold flushPending
  split
  · next d hd =>
    rw [substance_emit (a := { a with pending := none }) hcurrent rfl]
    simp [text, hcurrent, hd]
  · rfl

/-- A change that appends to a statement appends to the text as a whole,
whichever statement it is. -/
theorem substance_modifyFor (language : Language) (l : Line) (chunk : List Char) {f : Draft → Draft}
    {added : List Char} (hf : ∀ d, substance (f d).text = substance d.text ++ added) :
    substance (a.modifyFor language l chunk f).text = substance a.text ++ added := by
  have hnew : substance (f (.ofLine l)).text = added := by simpa using hf (.ofLine l)
  unfold modifyFor
  split
  · next d _ hd => simp [text, hd, hf]
  · next d hnone hd =>
    split
    · simp [text, hnone, hd, hf]
    · have hflush := substance_flushPending hnone
      simp only [text, pending_flushPending, current_flushPending, hnone, Option.elim_none,
        List.append_nil]
        at hflush ⊢
      rw [Text.substance_append, hflush, Option.elim_some, hnew]
  · next hnone hd => simp [text, hnone, hd, hnew]

theorem substance_modifyCurrent {f : Draft → Draft}
    (hf : ∀ d, substance (f d).text = substance d.text) :
    substance (a.modifyCurrent f).text = substance a.text := by
  unfold modifyCurrent
  cases h : a.current <;> simp [text, h, hf]

theorem substance_pushCode (language : Language) (l : Line) (chunk : List Char) :
    substance (a.pushCode language l chunk).text = substance a.text ++ substance chunk := by
  unfold pushCode
  split
  · next hblank =>
    have hnone := Text.substance_of_allBlank hblank
    rw [substance_modifyCurrent, hnone, List.append_nil]
    intro d
    rw [Draft.substance_pushCode, hnone, List.append_nil]
  · exact substance_modifyFor language l chunk fun d => d.substance_pushCode l.number chunk

theorem substance_endStatement : substance a.endStatement.text = substance a.text := by
  unfold endStatement
  split
  · next d hd =>
    rw [substance_emit (current_flushPending _) (pending_flushPending _), substance_flushPending rfl]
    simp [text, hd]
  · rfl

/-- What is read of a code segment since its last semicolon is appended there or
at the end of it. -/
theorem substance_feedCode (language : Language) (l : Line) (seen rest : List Char) :
    substance (a.feedCode language l (seen.reverse ++ rest) seen rest).text =
      substance a.text ++ substance (seen.reverse ++ rest) := by
  induction rest generalizing a seen with
  | nil => exact substance_pushCode language l _
  | cons c rest ih =>
    have hnext : seen.reverse ++ c :: rest = (c :: seen).reverse ++ rest := by simp
    unfold feedCode
    split
    · have hopener : ∀ d : Draft, substance d.openBracket.text = substance d.text ++ [] :=
        fun d => by simp
      rw [hnext, ih, substance_modifyFor language l _ hopener, List.append_nil]
    · split
      · rw [hnext, ih, substance_modifyCurrent (fun d => by simp)]
      · split
        · next hsemicolon =>
          have hc : c = ';' := beq_iff_eq.mp (Bool.and_eq_true_iff.mp hsemicolon).1
          have hdrop : substance (c :: rest) = substance rest :=
            Text.substance_cons_of_not (by rw [hc]; rfl) rest
          have hrest := ih (a := (a.pushCode language l seen.reverse).endStatement) []
          rw [List.reverse_nil, List.nil_append] at hrest
          rw [hrest, substance_endStatement, substance_pushCode, Text.substance_append, hdrop,
            List.append_assoc]
        · rw [hnext, ih]

end Assembly

/-! ### Lines -/

/-- The code and the literals of segments. -/
def liveText (segments : List Segment) : List Char :=
  (segments.filter (·.kind != .comment)).flatMap Segment.chars

theorem liveText_cons (s : Segment) (segments : List Segment) :
    liveText (s :: segments) = (if s.kind = .comment then [] else s.chars) ++
      liveText segments := by
  unfold liveText
  by_cases h : s.kind = .comment <;> simp [h]

theorem substance_liveText_of_blank {segments : List Segment}
    (h : segments.any Segment.hasContent = false) : substance (liveText segments) = [] := by
  induction segments with
  | nil => rfl
  | cons s rest ih =>
    rw [List.any_cons, Bool.or_eq_false_iff] at h
    rw [liveText_cons, Text.substance_append, ih h.2, List.append_nil]
    split
    · rfl
    · next hkind =>
      apply Text.substance_of_allBlank
      simpa [Segment.hasContent, hkind] using h.1

namespace Assembly

variable {a : Assembly}

/-- Comments are passed over, all else is appended. -/
theorem substance_feedSegments (language : Language) (l : Line) (segments : List Segment) :
    substance (a.feedSegments language l segments).text =
      substance a.text ++ substance (liveText segments) := by
  induction segments generalizing a with
  | nil => exact (List.append_nil _).symm
  | cons s rest ih =>
    rw [liveText_cons, Text.substance_append, ← List.append_assoc]
    unfold feedSegments
    cases hkind : s.kind with
    | comment => simpa using ih
    | code =>
      have hcode := substance_feedCode (a := a) language l [] s.chars
      rw [List.reverse_nil, List.nil_append] at hcode
      simpa [hcode] using ih (a := a.feedCode language l s.chars [] s.chars)
    | literal =>
      dsimp only
      rw [ih, substance_modifyFor language l s.chars fun d =>
        d.substance_pushLiteral l.number s.chars _]
      simp

theorem substance_endLine {language : Language} (h : a.OnlyScriptsWait language) :
    substance (a.endLine language).text = substance a.text := by
  unfold endLine
  split
  · rfl
  · next d hd =>
    split
    · rfl
    · split
      · next e he => simp [text, hd, Draft.substance_withoutContinuation? he]
      · split
        · have hflush := substance_flushPending (a := { a with current := none }) rfl
          simp only [text, pending_flushPending, current_flushPending, Option.elim_none,
            Option.elim_some, List.append_nil, Text.substance_append, hd] at hflush ⊢
          rw [hflush]
        · rw [substance_emit (a := { a with current := none }) rfl (h rfl)]
          simp [text, hd, h rfl]

theorem substance_feedLine {language : Language} (h : a.OnlyScriptsWait language) {l : Line}
    (hl : l.tag = .comment → l.hasContent = false) :
    substance (a.feedLine language l).text = substance a.text ++
      substance (liveText l.segments) := by
  unfold feedLine
  split
  · next hskip =>
    have hblank : l.hasContent = false := by
      rcases Bool.or_eq_true_iff.mp hskip with htag | hnone
      · exact hl (beq_iff_eq.mp htag)
      · exact (Bool.not_eq_true' _).mp (Bool.and_eq_true_iff.mp hnone).2
    rw [substance_liveText_of_blank hblank, List.append_nil]
  · rw [substance_endLine (h.feedSegments l l.segments), substance_feedSegments]

theorem substance_foldl_feedLine {language : Language} (h : a.OnlyScriptsWait language)
    {lines : List Line} (hlines : ∀ l ∈ lines, l.tag = .comment → l.hasContent = false) :
    substance (lines.foldl (feedLine language) a).text =
      substance a.text ++ substance (lines.flatMap fun l => liveText l.segments) := by
  induction lines generalizing a with
  | nil => exact (List.append_nil _).symm
  | cons l rest ih =>
    rw [List.foldl_cons, ih (h.feedLine l) fun m hm => hlines m (List.mem_cons_of_mem l hm),
      substance_feedLine h (hlines l (List.mem_cons_self ..)), List.flatMap_cons,
      Text.substance_append, List.append_assoc]

end Assembly

/-- Where everything closes, the statements of a text have the substance of its
code and literals. -/
theorem substance_statements (language : Language) (cs : List Char)
    (hterminated : (classify language cs).unterminated = none)
    (hclosed : (readStatements language cs).unclosed = none) :
    substance ((readStatements language cs).statements.flatMap Statement.text) =
      substance ((classify language cs).lines.flatMap fun l => liveText l.segments) := by
  have hlines : ∀ l ∈ (classify language cs).lines, l.tag = .comment → l.hasContent = false :=
    fun l hl => hasContent_of_mem_scanLines hl
  have hstart : ({} : Assembly).OnlyScriptsWait language := fun _ => rfl
  have htext := Assembly.substance_foldl_feedLine hstart hlines
  unfold readStatements LineTable.assemble at hclosed ⊢
  rw [hterminated] at hclosed ⊢
  dsimp only at hclosed ⊢
  generalize (classify language cs).lines.foldl (Assembly.feedLine language) {} = a
    at htext hclosed ⊢
  have hcurrent : a.current = none := by
    rw [Assembly.current_flushPending] at hclosed
    exact Option.map_eq_none_iff.mp hclosed
  have hflush := Assembly.substance_flushPending hcurrent
  rw [htext] at hflush
  simpa [Assembly.text, Assembly.pending_flushPending, Assembly.current_flushPending, hcurrent]
    using hflush

/-- A template over two lines, comments with brackets and semicolons in them, and a
chain of calls. -/
theorem substance_statements_chain :
    let cs := "let a = `x;\n  (`; // b(;\napp.route('/c; d') /* ( */\n  .get(e)".toList
    (classify .script cs).unterminated = none ∧ (readStatements .script cs).unclosed = none ∧
      substance ((readStatements .script cs).statements.flatMap Statement.text) =
        substance ((classify .script cs).lines.flatMap fun l => liveText l.segments) := by
  intro cs
  have hterminated : (classify .script cs).unterminated = none := by decide +kernel
  have hclosed : (readStatements .script cs).unclosed = none := by decide +kernel
  exact ⟨hterminated, hclosed, substance_statements .script cs hterminated hclosed⟩

end EndpointCensus
