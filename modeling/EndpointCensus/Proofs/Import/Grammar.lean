import EndpointCensus.Import.Scan
import EndpointCensus.Proofs.Text.Splitting
import EndpointCensus.Proofs.Text.Word

/-!
Import statements of Python as they are written: the words `from`, `import` and `as` between white
space, dots before a dotted name, and items between commas, in parentheses or not. A statement that
is written so is read as what it says.
-/

namespace EndpointCensus

open Text

/-! ### Dotted names -/

/-- Words with dots between them. -/
def IsDotted (cs : List Char) : Prop :=
  ∃ path : List (List Char), path ≠ [] ∧ (∀ s ∈ path, IsWord s) ∧ cs = ImportTable.joinParts path

namespace ImportTable

theorem joinParts_cons_cons (s t : List Char) (rest : List (List Char)) :
    joinParts (s :: t :: rest) = s ++ '.' :: joinParts (t :: rest) := by
  simp [joinParts]

@[simp] theorem joinParts_singleton (s : List Char) : joinParts [s] = s := by
  simp [joinParts]

theorem joinParts_ne_nil {path : List (List Char)} (hne : path ≠ [])
    (hpath : ∀ s ∈ path, IsWord s) : joinParts path ≠ [] := by
  cases path with
  | nil => contradiction
  | cons s rest =>
    obtain ⟨hs, -⟩ := List.forall_mem_cons.mp hpath
    cases rest with
    | nil => simpa using hs.1
    | cons t rest => simp [joinParts_cons_cons]

/-- The parts of a module one level down. -/
theorem joinModule_joinParts {path : List (List Char)} (hpath : ∀ s ∈ path, IsWord s)
    (name : List Char) : joinModule (joinParts path) name = joinParts (path ++ [name]) := by
  cases path with
  | nil => simp [joinModule, joinParts]
  | cons s rest =>
    have hne : (joinParts (s :: rest)).isEmpty = false := by
      simpa using joinParts_ne_nil (List.cons_ne_nil s rest) hpath
    rw [joinModule, hne, if_neg Bool.false_ne_true]
    clear hpath hne
    induction rest generalizing s with
    | nil => simp [joinParts]
    | cons t rest ih =>
      rw [joinParts_cons_cons, List.append_assoc, List.cons_append, ih t]; simp [joinParts]

/-- A dotted name is cut into its parts again. -/
theorem dottedParts_joinParts {path : List (List Char)} (hpath : ∀ s ∈ path, IsWord s) :
    dottedParts (joinParts path) = path := by
  cases path with
  | nil => rfl
  | cons s rest =>
    have hdot : ∀ t ∈ s :: rest, '.' ∉ t := fun t ht => (hpath t ht).not_mem (by decide)
    rw [dottedParts, joinParts, splitOn_intercalate (List.cons_ne_nil s rest) hdot,
      List.filter_eq_self]
    intro t ht
    simpa using (hpath t ht).1

theorem firstSegment_joinParts {s : List Char} (hs : IsWord s) (rest : List (List Char)) :
    firstSegment (joinParts (s :: rest)) = s := by
  have hdot : ∀ c ∈ s, (c != '.') = true := fun c hc => bne_iff_ne.mpr fun heq =>
    hs.not_mem (by decide) (heq ▸ hc)
  cases rest with
  | nil =>
    rw [joinParts_singleton]
    exact takeWhile_of_forall hdot
  | cons t rest =>
    rw [joinParts_cons_cons, firstSegment]
    exact takeWhile_run hdot (by simp)

end ImportTable

namespace IsDotted

open ImportTable

variable {cs : List Char}

theorem of_isWord (h : IsWord cs) : IsDotted cs := ⟨[cs], by simp, by simpa using h, by simp⟩

theorem ne_nil (h : IsDotted cs) : cs ≠ [] := by
  obtain ⟨path, hne, hpath, rfl⟩ := h
  exact joinParts_ne_nil hne hpath

theorem chars (h : IsDotted cs) : ∀ c ∈ cs, isWord c = true ∨ c = '.' := by
  obtain ⟨path, -, hpath, rfl⟩ := h
  induction path with
  | nil => exact fun c hc => absurd hc List.not_mem_nil
  | cons s rest ih =>
    obtain ⟨hs, hrest⟩ := List.forall_mem_cons.mp hpath
    cases rest with
    | nil =>
      rw [joinParts_singleton]
      exact fun c hc => .inl (hs.2 c hc)
    | cons t rest =>
      intro c hc
      rw [joinParts_cons_cons] at hc
      rcases List.mem_append.mp hc with hc | hc
      · exact .inl (hs.2 c hc)
      · rcases List.mem_cons.mp hc with rfl | hc
        · exact .inr rfl
        · exact ih hrest c hc

theorem head?_isWord (h : IsDotted cs) : cs.head?.any isWord = true := by
  obtain ⟨path, hne, hpath, rfl⟩ := h
  cases path with
  | nil => contradiction
  | cons s rest =>
    obtain ⟨⟨hs, hword⟩, -⟩ := List.forall_mem_cons.mp hpath
    have hhead : s.head?.any isWord = true := by
      cases s with
      | nil => contradiction
      | cons c s => exact hword c List.mem_cons_self
    cases rest with
    | nil => rwa [joinParts_singleton]
    | cons t rest => rwa [joinParts_cons_cons, head?_any_append hs]

theorem isBlank_eq_false (h : IsDotted cs) : ∀ c ∈ cs, isBlank c = false := fun c hc => by
  rcases h.chars c hc with hc | rfl
  · exact isBlank_of_isWord hc
  · decide

end IsDotted

/-! ### Items -/

/-- A character of the name of an item, as far as items are read. -/
def isItemPart (c : Char) : Bool := isWord c || c == '.' || c == '*' || c == '$'

theorem IsDotted.isItemPart {cs : List Char} (h : IsDotted cs) : ∀ c ∈ cs, isItemPart c = true :=
  fun c hc => by
  rcases h.chars c hc with hc | hc <;> simp [EndpointCensus.isItemPart, hc]

theorem isItemPart_of_isBlank (c : Char) (h : isBlank c = true) : isItemPart c = false := by
  have hne {d : Char} (hd : isBlank d = false) : c ≠ d := by
    rintro rfl
    exact Bool.noConfusion (h.symm.trans hd)
  have hdot : c ≠ '.' := hne (by decide)
  have hstar : c ≠ '*' := hne (by decide)
  have hdollar : c ≠ '$' := hne (by decide)
  simp [isItemPart, isWord_of_isBlank h, hdot, hstar, hdollar]

/-- An item is read as a name, and what follows it as a renaming. -/
theorem ImportTable.alias?_append {name rest : List Char} (hname : IsDotted name)
    (hrest : rest.head?.any isItemPart = false) :
    alias? (name ++ rest) = if rest.isEmpty then some ⟨name, none⟩
      else ((blanks? rest).bind (afterWord? ["as"])).bind fun rename =>
        if !rename.isEmpty && rename.all isNamePart then some ⟨name, some rename⟩ else none := by
  have hunfold (cs : List Char) : alias? cs =
      if (cs.takeWhile isItemPart).isEmpty then none
      else if (cs.dropWhile isItemPart).isEmpty then some ⟨cs.takeWhile isItemPart, none⟩
      else ((blanks? (cs.dropWhile isItemPart)).bind (afterWord? ["as"])).bind fun rename =>
        if !rename.isEmpty && rename.all isNamePart then some ⟨cs.takeWhile isItemPart, some rename⟩
          else none := rfl
  have hne : name.isEmpty = false := by simpa using hname.ne_nil
  rw [hunfold, takeWhile_run hname.isItemPart hrest, dropWhile_run hname.isItemPart hrest, hne,
    if_neg Bool.false_ne_true]

namespace Alias

/-- An item is written as its name, with the word `as` before its new name where it has one. -/
inductive Written : Alias → List Char → Prop
  | plain {name : List Char} : IsDotted name → Written ⟨name, none⟩ name
  | renamed {name rename before after : List Char} : IsDotted name → IsGap before → IsGap after →
      IsWord rename →
      Written ⟨name, some rename⟩ (name ++ (before ++ ("as".toList ++ (after ++ rename))))

variable {a : Alias} {cs : List Char}

theorem Written.alias? (h : a.Written cs) : ImportTable.alias? cs = some a := by
  cases h with
  | plain hname =>
    have hend : ([] : List Char).head?.any isItemPart = false := rfl
    simpa using ImportTable.alias?_append hname hend
  | @renamed name rename before after hname hbefore hafter hrename =>
    have hgap := hbefore.head?_any isItemPart_of_isBlank ("as".toList ++ (after ++ rename))
    have hword : ("as".toList ++ (after ++ rename)).head?.any isBlank = false := rfl
    have hnew : rename.head?.any isBlank = false :=
      head?_any_of_forall fun c hc => isBlank_of_isWord (hrename.2 c hc)
    have hrest : (blanks? (before ++ ("as".toList ++ (after ++ rename)))).bind (afterWord? ["as"]) =
        some rename := by
      rw [blanks?_gap hbefore hword, Option.bind_some, afterWord?_gap "as" hafter hnew]
    have hparts : rename.all isNamePart = true := by
      refine List.all_eq_true.mpr fun c hc => ?_
      simp [isNamePart, hrename.2 c hc]
    rw [ImportTable.alias?_append hname hgap, hrest, Option.bind_some, hparts]
    simp [hbefore.1, hrename.1]

/-- An item has word characters at both ends. -/
theorem Written.ends (h : a.Written cs) :
    cs.head?.any isBlank = false ∧ cs.getLast?.any isBlank = false := by
  cases h with
  | plain hname =>
    exact ⟨head?_any_of_forall hname.isBlank_eq_false, getLast?_any_of_forall hname.isBlank_eq_false⟩
  | renamed hname _ _ hrename =>
    refine ⟨?_, ?_⟩
    · rw [head?_any_append hname.ne_nil]
      exact head?_any_of_forall hname.isBlank_eq_false
    · rw [getLast?_any_append _ (by simp), getLast?_any_append _ (by simp),
        getLast?_any_append _ (by simp [hrename.1]), getLast?_any_append _ hrename.1]
      exact getLast?_any_of_forall fun c hc => isBlank_of_isWord (hrename.2 c hc)

/-- The character is no word character, no white space and no dot. -/
def IsForeign (c : Char) : Prop := isWord c = false ∧ isBlank c = false ∧ c ≠ '.'

instance : DecidablePred IsForeign := fun _ => inferInstanceAs (Decidable (_ ∧ _))

theorem IsForeign.not_mem_blank {c : Char} (hc : IsForeign c) {pad : List Char}
    (h : ∀ d ∈ pad, isBlank d = true) :
    c ∉ pad := fun hmem => Bool.noConfusion ((h c hmem).symm.trans hc.2.1)

theorem IsForeign.not_mem_dotted {c : Char} (hc : IsForeign c) (h : IsDotted cs) :
    c ∉ cs := fun hmem => by
  rcases h.chars c hmem with hword | hdot
  · exact Bool.noConfusion (hword.symm.trans hc.1)
  · exact hc.2.2 hdot

theorem Written.not_mem (h : a.Written cs) {c : Char} (hc : IsForeign c) : c ∉ cs := by
  cases h with
  | plain hname => exact hc.not_mem_dotted hname
  | renamed hname hbefore hafter hrename =>
    have has : c ∉ "as".toList := hc.not_mem_dotted (.of_isWord (by decide))
    simp only [List.mem_append, not_or]
    exact ⟨hc.not_mem_dotted hname, hc.not_mem_blank hbefore.2, has, hc.not_mem_blank hafter.2,
      hrename.not_mem hc.1⟩

/-- An item with white space around it. -/
def Padded (a : Alias) (cs : List Char) : Prop :=
  ∃ before text after, a.Written text ∧ (∀ c ∈ before, isBlank c = true) ∧
    (∀ c ∈ after, isBlank c = true) ∧ cs = before ++ (text ++ after)

theorem Padded.alias? (h : a.Padded cs) : ImportTable.alias? (trim cs) = some a := by
  obtain ⟨before, text, after, htext, hbefore, hafter, rfl⟩ := h
  rw [trim_padded hbefore hafter htext.ends.1 htext.ends.2]
  exact htext.alias?

theorem Padded.not_mem (h : a.Padded cs) {c : Char} (hc : IsForeign c) : c ∉ cs := by
  obtain ⟨before, text, after, htext, hbefore, hafter, rfl⟩ := h
  simp only [List.mem_append, not_or]
  exact ⟨hc.not_mem_blank hbefore, htext.not_mem hc, hc.not_mem_blank hafter⟩

end Alias

/-! ### Lists -/

/-- Items with commas between them, and one after the last if need be. -/
inductive Listed : List Alias → List Char → Prop
  | blank {pad : List Char} : (∀ c ∈ pad, isBlank c = true) → Listed [] pad
  | last {a : Alias} {cs : List Char} : a.Padded cs → Listed [a] cs
  | more {a : Alias} {cs rest : List Char} {items : List Alias} : a.Padded cs → Listed items rest →
      Listed (a :: items) (cs ++ ',' :: rest)

/-- A list as it stands in a statement, in parentheses or without white space at its ends. -/
inductive Enclosed (list : List Char) : List Char → Prop
  | bare : trim list = list → Enclosed list list
  | parentheses : Enclosed list ('(' :: (list ++ [')']))

namespace Listed

variable {items : List Alias} {cs names : List Char}

theorem not_mem (h : Listed items cs) {c : Char} (hc : Alias.IsForeign c) (hcomma : c ≠ ',') :
    c ∉ cs := by
  induction h with
  | blank hpad => exact hc.not_mem_blank hpad
  | last ha => exact ha.not_mem hc
  | more ha _ ih =>
    simp only [List.mem_append, List.mem_cons, not_or]
    exact ⟨ha.not_mem hc, hcomma, ih⟩

theorem listItems_of_not_mem (h : ',' ∉ cs) : ImportTable.listItems cs = [trim cs] := by
  have hsplit : splitOn ',' ([','].intercalate [cs]) = [cs] :=
    splitOn_intercalate (by simp) (by simpa using h)
  rw [ImportTable.listItems, show [','].intercalate [cs] = cs by simp] at *
  rw [hsplit]
  rfl

/-- A list is read as its items. -/
theorem filterMap_alias? (h : Listed items cs) :
    (ImportTable.listItems cs).filterMap ImportTable.alias? = items := by
  have hcomma : Alias.IsForeign ',' := by decide
  induction h with
  | @blank pad hpad =>
    have htrim : trim (pad ++ ([] ++ [])) = [] := trim_padded hpad (by simp) rfl rfl
    rw [List.append_nil, List.append_nil] at htrim
    rw [listItems_of_not_mem (hcomma.not_mem_blank hpad), htrim]
    rfl
  | last ha =>
    rw [listItems_of_not_mem (ha.not_mem hcomma), List.filterMap_cons_some ha.alias?,
      List.filterMap_nil]
  | @more a cs rest items ha _ ih =>
    have hfirst := listItems_of_not_mem (ha.not_mem hcomma)
    have hsplit : ImportTable.listItems (cs ++ ',' :: rest) =
        ImportTable.listItems cs ++ ImportTable.listItems rest := by
      rw [ImportTable.listItems, splitOn_append, List.map_append]
      rfl
    rw [hsplit, hfirst, List.singleton_append, List.filterMap_cons_some ha.alias?, ih]

/-- Neither parentheses nor white space belong to an enclosed list. -/
theorem stripRuns_trim (h : Listed items cs) (hnames : Enclosed cs names) :
    stripRuns '(' ')' (trim names) = cs := by
  have hopen : '(' ∉ cs := h.not_mem (by decide) (by decide)
  have hclose : ')' ∉ cs := h.not_mem (by decide) (by decide)
  cases hnames with
  | bare htrim => rw [htrim, stripRuns_bare hopen hclose]
  | parentheses =>
    have htrim : trim ([] ++ ('(' :: (cs ++ [')']) ++ [])) = '(' :: (cs ++ [')']) :=
      trim_padded (by simp) (by simp) rfl (by rw [← List.cons_append, List.getLast?_concat]; decide)
    rw [List.append_nil, List.nil_append] at htrim
    rw [htrim, stripRuns_enclosed (by decide) hopen hclose]

theorem ne_nil (h : Listed items cs) (hne : items ≠ []) : cs ≠ [] := by
  cases h with
  | blank => contradiction
  | last ha =>
    rintro rfl
    have halias := ha.alias?
    contradiction
  | more => simp

theorem enclosed (h : Listed items cs) (hne : items ≠ []) (hnames : Enclosed cs names) :
    names ≠ [] ∧ names.head?.any isBlank = false := by
  cases hnames with
  | bare htrim => exact ⟨h.ne_nil hne, htrim ▸ head?_trim cs⟩
  | parentheses => exact ⟨by simp, rfl⟩

end Listed

/-! ### Statements -/

/-- An import statement. -/
inductive ImportForm where
  /-- Names imported from a module, with so many dots before its path. -/
  | names (dots : Nat) (path : List (List Char)) (items : List Alias)
  | modules (items : List Alias)

namespace ImportForm

open ImportTable

/-- A statement as it is written, without white space around it. -/
inductive Written : ImportForm → List Char → Prop
  | names {dots : Nat} {path : List (List Char)} {items : List Alias}
      {first second third list names : List Char} :
      dots ≠ 0 ∨ path ≠ [] → (∀ s ∈ path, IsWord s) → items ≠ [] → (∀ a ∈ items, IsWord a.name) →
      IsGap first → IsGap second → IsGap third → Listed items list → Enclosed list names →
      Written (.names dots path items) ("from".toList ++
        (first ++ (List.replicate dots '.' ++
          (joinParts path ++ (second ++ ("import".toList ++ (third ++ names)))))))
  | modules {items : List Alias} {gap list : List Char} : items ≠ [] → IsGap gap →
      Listed items list → trim list = list →
      Written (.modules items) ("import".toList ++ (gap ++ list))

/-- The parts of the module that names are imported from. One dot is the package of the unit, and
each further one a package above. -/
def origin (package : List (List Char)) (dots : Nat) (path : List (List Char)) : List (List Char) :=
  if dots = 0 then path else package.take (package.length + 1 - dots) ++ path

theorem afterImport?_gap {gap names : List Char} (hgap : IsGap gap) (hne : names ≠ [])
    (hnames : names.head?.any isBlank = false) :
    afterImport? ("import".toList ++ (gap ++ names)) = some names := by
  have hfilter : (!names.isEmpty) = true := by simpa using hne
  rw [afterImport?, afterWord?_gap "import" hgap hnames, Option.filter_some, hfilter, if_pos rfl]

/-- The characters of a path. -/
theorem joinParts_chars {path : List (List Char)} (hpath : ∀ s ∈ path, IsWord s) :
    ∀ c ∈ joinParts path, (isWord c || c == '.') = true := fun c hc => by
  cases path with
  | nil => contradiction
  | cons s rest =>
    have hdotted : IsDotted (joinParts (s :: rest)) :=
      ⟨s :: rest, List.cons_ne_nil s rest, hpath, rfl⟩
    rcases hdotted.chars c hc with hc | hc <;> simp [hc]

/-- A path begins with a word character, and what stands for an empty one with white space. -/
theorem head?_joinParts_gap {path : List (List Char)} (hpath : ∀ s ∈ path, IsWord s)
    {gap : List Char} (hgap : IsGap gap) (cs : List Char) :
    (joinParts path ++ (gap ++ cs)).head?.any (· == '.') = false := by
  cases path with
  | nil =>
    exact hgap.head?_any (fun c hc => beq_eq_false_iff_ne.mpr
      fun heq => by subst heq; contradiction) cs
  | cons s rest =>
    have hdotted : IsDotted (joinParts (s :: rest)) :=
      ⟨s :: rest, List.cons_ne_nil s rest, hpath, rfl⟩
    have hword := hdotted.head?_isWord
    rw [head?_any_append hdotted.ne_nil]
    cases hhead : (joinParts (s :: rest)).head? with
    | none => rfl
    | some c =>
      rw [hhead] at hword
      exact beq_eq_false_iff_ne.mpr fun heq => by subst heq; contradiction

theorem fromImport?_names {dots : Nat} {path : List (List Char)}
    {first second third names : List Char} (hmodule : dots ≠ 0 ∨ path ≠ [])
    (hpath : ∀ s ∈ path, IsWord s) (hfirst : IsGap first) (hsecond : IsGap second)
    (hthird : IsGap third) (hne : names ≠ []) (hnames : names.head?.any isBlank = false) :
    fromImport? ("from".toList ++ (first ++ (List.replicate dots '.' ++ (joinParts path ++ (second ++
      ("import".toList ++ (third ++ names))))))) = some ⟨dots, joinParts path, names⟩ := by
  have hpart (c : Char) (hc : isBlank c = true) : (isWord c || c == '.') = false := by
    rw [isWord_of_isBlank hc, Bool.false_or, beq_eq_false_iff_ne]
    rintro rfl
    contradiction
  have hstart : (List.replicate dots '.' ++ (joinParts path ++ (second ++ ("import".toList ++
      (third ++ names))))).head?.any isBlank = false := by
    cases dots with
    | zero =>
      have hdotted : IsDotted (joinParts path) := ⟨path, hmodule.resolve_left (by simp), hpath, rfl⟩
      rw [List.replicate_zero, List.nil_append, head?_any_append hdotted.ne_nil]
      exact head?_any_of_forall hdotted.isBlank_eq_false
    | succ n => rfl
  have hdots : ∀ c ∈ List.replicate dots '.', (c == '.') = true := by simp
  have hrest := head?_joinParts_gap hpath hsecond ("import".toList ++ (third ++ names))
  have htail := hsecond.head?_any hpart ("import".toList ++ (third ++ names))
  have hword : ("import".toList ++ (third ++ names)).head?.any isBlank = false := rfl
  unfold fromImport?
  rw [after?_append, Option.bind_some]
  dsimp only
  rw [blanks?_gap hfirst hstart, Option.bind_some, dropWhile_run hdots hrest,
    takeWhile_run hdots hrest, takeWhile_run (joinParts_chars hpath) htail,
    dropWhile_run (joinParts_chars hpath) htail, blanks?_gap hsecond hword, Option.bind_some,
    afterImport?_gap hthird hne hnames, Option.map_some, Option.some_or, List.length_replicate]

end ImportForm

end EndpointCensus
