import EndpointCensus.Proofs.Idiom.Following
import EndpointCensus.Proofs.Idiom.Quoted
import EndpointCensus.Proofs.Statement.Alike
import EndpointCensus.Proofs.Statement.Reworded
import EndpointCensus.Unit.Report

/-!
Dead text in a unit: what a comment says, and what a literal says that is a statement of its own. A
unit is read from its statements alone. A comment shows in none of them, and a literal in one that
begins with a quote, which no idiom, import or declaration does. What such a literal does decide is
how far the line that closes it is indented. So the text is dead but for a statement that begins
behind the literal on that line.
-/

namespace EndpointCensus

/-! ### Imports -/

namespace ImportTable

theorem foldl_bindings {α : Type} {f : ImportTable → α → ImportTable}
    (hf : ∀ t a, ∃ bindings, f t a = { t with bindings }) (xs : List α) (t : ImportTable) :
    ∃ bindings, xs.foldl f t = { t with bindings } := by
  induction xs generalizing t with
  | nil => exact ⟨t.bindings, rfl⟩
  | cons a xs ih =>
    obtain ⟨first, hfirst⟩ := hf t a
    obtain ⟨rest, hrest⟩ := ih (f t a)
    exact ⟨rest, by rw [List.foldl_cons, hrest, hfirst]⟩

/-- A statement changes the bindings at most. -/
theorem scanPython_bindings (t : ImportTable) (s : Statement) :
    ∃ bindings, (t.scanPython s).1 = { t with bindings } := by
  unfold scanPython
  dsimp only
  split
  · refine foldl_bindings (fun t a => ?_) _ t
    split
    · exact ⟨t.bindings, rfl⟩
    · exact ⟨_, rfl⟩
  · split
    · refine foldl_bindings (fun t a => ?_) _ t
      split <;> exact ⟨_, rfl⟩
    · exact ⟨t.bindings, rfl⟩

theorem language_scanPython (t : ImportTable) (s : Statement) :
    (t.scanPython s).1.language = t.language := by
  obtain ⟨bindings, h⟩ := t.scanPython_bindings s
  rw [h]

end ImportTable

/-! ### Reading statements that are alike -/

/-- The statements are equal, or both begin with a quote in the same column. -/
abbrev Statement.Interchangeable : Statement → Statement → Prop := Statement.Alike fun _ => False

theorem decoratedBy?_quoted {s : Statement} (h : s.BeginsWithQuote) (indent : Nat)
    (rest : List Statement) : decoratedBy? indent (s :: rest) = none := by
  have hplain : s.isDecorator = false := h.isDecorator
  unfold decoratedBy?
  rw [hplain, h.defName?, h.className?]
  split <;> rfl

theorem decoratedBy?_congr {xs ys : List Statement}
    (h : List.Forall₂ Statement.Interchangeable xs ys) (indent : Nat) :
    decoratedBy? indent ys = decoratedBy? indent xs := by
  induction h with
  | nil => rfl
  | cons hs _ ih =>
    cases hs with
    | indent hi =>
      rw [hi not_false]
      unfold decoratedBy?
      rw [ih]
    | quoted h h' _ => rw [decoratedBy?_quoted h, decoratedBy?_quoted h']

namespace Reading

variable {unit unit' : SourceUnit} {flag : Bool} {r : Reading}

/-- A statement that begins with a quote closes scopes, and that is all. -/
theorem readOne_quoted (hpython : unit.language = .python) (himports : r.imports.language = .python)
    {s : Statement} (h : s.BeginsWithQuote) (rest : List Statement) :
    r.readOne unit flag s rest = { r with scopes := closeScopes r.scopes s.indent } := by
  have hscan : r.imports.scan s = (r.imports, false) := by
    unfold ImportTable.scan
    rw [himports]
    exact h.scanPython r.imports
  have hmatches (r' : Reading) : (r'.context unit.language s rest).matches = [] :=
    matches_quoted h hpython
  unfold readOne
  rw [hscan]
  dsimp only
  rw [hmatches, hpython, h.scope?]
  simp [ambiguity]

theorem imports_foldl_record (idiom : Idiom) (r : Reading) (es : List Emission) :
    (es.foldl (record idiom) r).imports = r.imports := by
  induction es generalizing r with
  | nil => rfl
  | cons e es ih =>
    rw [List.foldl_cons, ih]
    cases e <;> rfl

theorem imports_readOne (s : Statement) (rest : List Statement) :
    (r.readOne unit flag s rest).imports = (r.imports.scan s).1 := by
  unfold readOne
  dsimp only
  split
  · rfl
  · dsimp only
    split
    · exact imports_foldl_record _ _ _
    · rfl

/-- In Python, a statement is read alike whatever follows it, unless that
declares something else. -/
theorem readOne_congr (hpython : unit.language = .python) (s : Statement)
    {rest rest' : List Statement} (h : List.Forall₂ Statement.Interchangeable rest rest') :
    r.readOne unit flag s rest' = r.readOne unit flag s rest := by
  have hmatches (r' : Reading) :
      (r'.context unit.language s rest').matches = (r'.context unit.language s rest).matches :=
    matches_followedBy (r'.context unit.language s rest) rest' hpython
      (decoratedBy?_congr h s.indent)
  unfold readOne
  dsimp only
  rw [hmatches]

theorem readAll_congr (hpython : unit.language = .python) {xs ys : List Statement}
    (h : List.Forall₂ Statement.Interchangeable xs ys) (himports : r.imports.language = .python) :
    readAll unit flag r ys = readAll unit flag r xs := by
  induction h generalizing r with
  | nil => rfl
  | @cons s s' rest rest' hs hrest ih =>
    have hone : r.readOne unit flag s' rest' = r.readOne unit flag s rest := by
      cases hs with
      | indent hi =>
        rw [hi not_false]
        exact readOne_congr hpython s hrest
      | quoted h h' hindent =>
        rw [readOne_quoted hpython himports h, readOne_quoted hpython himports h', hindent]
    unfold readAll
    rw [hone]
    refine ih ?_
    rw [imports_readOne, ImportTable.scan, himports]
    exact (r.imports.language_scanPython s).trans himports

end Reading

/-! ### Reports -/

namespace SourceUnit

theorem readAll_withText (u : SourceUnit) (text : String) (flag : Bool) (r : Reading)
    (statements : List Statement) :
    Reading.readAll { u with text } flag r statements = Reading.readAll u flag r statements := by
  induction statements generalizing r with
  | nil => rfl
  | cons s rest ih => exact ih _

/-- A report depends on the text through its statements and what never closes. -/
theorem report_congr (u : SourceUnit) {text : String} (flag : Bool)
    (hopen : (classify u.language text.toList).unterminated =
      (classify u.language u.text.toList).unterminated)
    (hunclosed : (readStatements u.language text.toList).unclosed =
      (readStatements u.language u.text.toList).unclosed)
    (hread : ∀ r : Reading, r.imports.language = u.language →
      r.readAll u flag (readStatements u.language text.toList).statements =
        r.readAll u flag (readStatements u.language u.text.toList).statements) :
    ({ u with text } : SourceUnit).report flag = u.report flag := by
  have hreading := hread { imports := .empty u.identity.toList u.language } rfl
  unfold readStatements at hunclosed hreading
  unfold report textFindings
  dsimp only
  rw [readAll_withText, hopen, hunclosed, hreading]
  rfl

end SourceUnit

/-! ### Edits of dead text -/

/-- A text where a comment, or a literal in triple quotes that is a statement, says something else.
The lines `moved` are indented otherwise. -/
inductive DeadEdit : Language → (Nat → Prop) → List Char → List Char → Prop
  /-- A comment that starts in code, up to the end of its line. -/
  | comment {language : Language} {before later old new : List Char} :
      InCode language before (commentMarker language) → '\n' ∉ old → '\n' ∉ new →
      (later = [] ∨ ∃ more, later = '\n' :: more) →
      DeadEdit language (fun _ => False) (before ++ (commentMarker language ++ (old ++ later)))
        (before ++ (commentMarker language ++ (new ++ later)))
  /-- A literal that is closed. The text up to its end has it for its last statement. -/
  | literal {q : Char} {earlier line rest later old new : List Char} :
      LiteralPlace q earlier line rest later → IsInterior q old →
      EndsInLiteral q (earlier ++ line ++ (tripleQuote q ++ (old ++ tripleQuote q))) →
      new.count '\n' = old.count '\n' → '\\' ∉ new → ¬tripleQuote q <:+: new →
      new.getLast? ≠ some q →
      DeadEdit .python (Reindented ((physicalLines earlier).length + 1 + old.count '\n') old new)
        (earlier ++ line ++ (tripleQuote q ++ (old ++ (tripleQuote q ++ (rest ++ later)))))
        (earlier ++ line ++ (tripleQuote q ++ (new ++ (tripleQuote q ++ (rest ++ later)))))

namespace DeadEdit

variable {language : Language} {moved : Nat → Prop} {old new : List Char}

/-- Such a text is read alike. -/
theorem reads_alike (h : DeadEdit language moved old new) :
    (classify language new).unterminated = (classify language old).unterminated ∧
      (readStatements language new).unclosed = (readStatements language old).unclosed ∧
      ((readStatements language new).statements = (readStatements language old).statements ∨
        language = .python ∧
        List.Forall₂ (Statement.Alike moved) (readStatements language old).statements
          (readStatements language new).statements) := by
  cases h with
  | comment hcode hold hnew hlater =>
    obtain ⟨hlines, hopen⟩ := classify_comment hcode hlater hold hnew
    have htable := LineTable.assemble_congr language hlines hopen
    exact ⟨hopen, congrArg StatementTable.unclosed htable,
      .inl (congrArg StatementTable.statements htable)⟩
  | literal hplace hold hends hcount hescape hdelimiter hlast =>
    have hnew := isInterior_of_plain hplace.quote hescape hdelimiter hlast
    obtain ⟨hstatements, hunclosed, hopen⟩ := hplace.readStatements_reworded hold hnew hcount hends
    exact ⟨hopen, hunclosed, .inr ⟨rfl, hstatements⟩⟩

end DeadEdit

/-- Where no statement of `xs` starts on a free line, statements that are alike are
interchangeable. -/
theorem Statement.interchangeable_of_alike {free : Nat → Prop} {xs ys : List Statement}
    (h : List.Forall₂ (Statement.Alike free) xs ys) (hfree : ∀ s ∈ xs, ¬free s.startLine) :
    List.Forall₂ Statement.Interchangeable xs ys := by
  induction h with
  | nil => exact .nil
  | cons hs _ ih =>
    obtain ⟨hhead, htail⟩ := List.forall_mem_cons.mp hfree
    refine .cons ?_ (ih htail)
    cases hs with
    | indent hi => exact .indent fun _ => hi hhead
    | quoted h h' hindent => exact .quoted h h' hindent

/-- The report on a unit is the same after an edit of dead text, unless a statement starts on the
line where the edited literal closes and that line is indented otherwise. -/
theorem SourceUnit.report_deadEdit (u : SourceUnit) (text : String) (flag : Bool)
    {moved : Nat → Prop} (h : DeadEdit u.language moved u.text.toList text.toList)
    (hmoved : ∀ s ∈ (readStatements u.language u.text.toList).statements, ¬moved s.startLine) :
    ({ u with text } : SourceUnit).report flag = u.report flag := by
  obtain ⟨hopen, hunclosed, hstatements⟩ := h.reads_alike
  refine u.report_congr flag hopen hunclosed fun r himports => ?_
  rcases hstatements with heq | ⟨hpython, halike⟩
  · rw [heq]
  · exact Reading.readAll_congr hpython (Statement.interchangeable_of_alike halike hmoved)
      (himports.trans hpython)

/-- A unit with a statement behind the docstring of a function, on the line that closes it. -/
def docstringUnit (interior : String) : SourceUnit where
  identity := "app/main.py"
  language := .python
  text := "def create():\n    \"\"\"" ++ interior ++ "\"\"\"; app = FastAPI()\n"

theorem deadEdit_docstringUnit (old new : String) (closing : Nat)
    (hclosing : 2 + old.toList.count '\n' = closing) (hold : IsInterior '\x22' old.toList)
    (hends : EndsInLiteral '\x22' ("def create():\n".toList ++ "    ".toList ++
      (tripleQuote '\x22' ++ (old.toList ++ tripleQuote '\x22'))))
    (hcount : new.toList.count '\n' = old.toList.count '\n') (hescape : '\\' ∉ new.toList)
    (hdelimiter : ¬tripleQuote '\x22' <:+: new.toList) (hlast : new.toList.getLast? ≠ some '\x22') :
    DeadEdit .python (Reindented closing old.toList new.toList) (docstringUnit old).text.toList
      (docstringUnit new).text.toList := by
  have hplace : LiteralPlace '\x22' "def create():\n".toList "    ".toList
      "; app = FastAPI()".toList ['\n'] :=
    ⟨by decide, .inr (by decide), by decide, by decide, by decide, .inr ⟨[], rfl⟩⟩
  have hfront : "def create():\n    \"\"\"".toList =
      "def create():\n".toList ++ "    ".toList ++ tripleQuote '\x22' := by
    decide
  have hback : "\"\"\"; app = FastAPI()\n".toList =
      tripleQuote '\x22' ++ ("; app = FastAPI()".toList ++ ['\n']) := by
    decide
  have htext (cs : String) : (docstringUnit cs).text.toList =
      "def create():\n".toList ++ "    ".toList ++
        (tripleQuote '\x22' ++
          (cs.toList ++ (tripleQuote '\x22' ++ ("; app = FastAPI()".toList ++ ['\n'])))) := by
    rw [docstringUnit, String.toList_append, String.toList_append, hfront, hback, List.append_assoc,
      List.append_assoc, List.append_assoc]
  rw [htext, htext, ← hclosing]
  exact .literal hplace hold hends hcount hescape hdelimiter hlast

/-- Code in the docstring of a function is dead. -/
theorem SourceUnit.report_deadEdit_docstring :
    let u := docstringUnit "a\n    b"
    let text := (docstringUnit "@app.get(x); (\n    class B[:").text
    let moved := Reindented 3 "a\n    b".toList "@app.get(x); (\n    class B[:".toList
    DeadEdit .python moved u.text.toList text.toList ∧
      (∀ s ∈ (readStatements u.language u.text.toList).statements, ¬moved s.startLine) ∧
      ∀ flag, ({ u with text } : SourceUnit).report flag = u.report flag := by
  intro u text moved
  have hedit : DeadEdit .python moved u.text.toList text.toList :=
    deadEdit_docstringUnit _ _ _ (by decide) (by decide) (by decide +kernel) (by decide) (by decide)
      (by decide +kernel) (by decide)
  have hmoved : ∀ s ∈ (readStatements u.language u.text.toList).statements, ¬moved s.startLine := by
    decide +kernel
  exact ⟨hedit, hmoved, fun flag => u.report_deadEdit text flag hedit hmoved⟩

/-- A docstring decides how far the line that closes it is indented, and so which scope a
statement behind it is in. -/
theorem SourceUnit.report_docstring_ne :
    let u := docstringUnit "a\n    b"
    let text := (docstringUnit "a\nb").text
    DeadEdit .python (Reindented 3 "a\n    b".toList "a\nb".toList) u.text.toList text.toList ∧
      ({ u with text } : SourceUnit).report false ≠ u.report false := by
  intro u text
  have hedit :=
    deadEdit_docstringUnit "a\n    b" "a\nb" 3 (by decide) (by decide) (by decide +kernel)
      (by decide) (by decide) (by decide) (by decide)
  exact ⟨hedit, by decide +kernel⟩

end EndpointCensus
