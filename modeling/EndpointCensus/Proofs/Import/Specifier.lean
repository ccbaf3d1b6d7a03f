import EndpointCensus.Import.Table
import EndpointCensus.Proofs.Path.ModuleName

/-!
Relative specifiers of scripts. A specifier leads from the directory of its unit to a place, and the
file that stands there has a module name. The specifier is given that name exactly when no dot is
lost: the text it spells out is cut at a known extension and then once more at its last dot, as if
it were the path of a file.
-/

open EndpointCensus.Path

namespace EndpointCensus.ImportTable

/-! ### Where a specifier leads -/

/-- The steps of a specifier lead from a directory to a place: a name leads down, two dots lead up,
and an empty step or a single dot stays. -/
inductive Leads : List (List Char) → List (List Char) → List (List Char) → Prop
  | here (dir : List (List Char)) : Leads dir [] dir
  | stay {s : List Char} {dir steps place : List (List Char)} :
      s = [] ∨ s = ['.'] → Leads dir steps place → Leads dir (s :: steps) place
  | up {name : List Char} {dir steps place : List (List Char)} :
      Leads dir steps place → Leads (dir ++ [name]) (parentStep :: steps) place
  | down {name : List Char} {dir steps place : List (List Char)} :
      IsName name → Leads (dir ++ [name]) steps place → Leads dir (name :: steps) place

variable {dir steps place : List (List Char)}

theorem Leads.isName (h : Leads dir steps place) (hdir : ∀ s ∈ dir, IsName s) :
    ∀ s ∈ place, IsName s := by
  induction h with
  | here dir => exact hdir
  | stay _ _ ih => exact ih hdir
  | up _ ih => exact ih fun s hs => hdir s (List.mem_append_left _ hs)
  | down hname _ ih =>
    refine ih fun s hs => ?_
    rcases List.mem_append.mp hs with hs | hs
    · exact hdir s hs
    · exact List.mem_singleton.mp hs ▸ hname

theorem resolveSteps_append (above names rest : List (List Char)) (h : ∀ s ∈ names, IsName s) :
    resolveSteps above (names ++ rest) = resolveSteps (names.reverse ++ above) rest := by
  induction names generalizing above with
  | nil => rfl
  | cons s names ih =>
    obtain ⟨hs, hnames⟩ := List.forall_mem_cons.mp h
    rw [List.cons_append, resolveSteps, if_neg (by simpa using hs.2.2.2), ih _ hnames,
      List.reverse_cons, List.append_assoc]
    rfl

/-- Taking the steps one by one reaches the place. -/
theorem Leads.resolveSteps (h : Leads dir steps place) :
    Path.resolveSteps dir.reverse ((steps.filter fun s => !s.isEmpty).filter fun s => s != ['.']) =
      place := by
  induction h with
  | here dir => simp [Path.resolveSteps]
  | stay hs _ ih => rcases hs with rfl | rfl <;> exact ih
  | up _ ih => simpa [Path.resolveSteps, parentStep] using ih
  | @down name dir steps place hname _ ih =>
    obtain ⟨hne, -, hdot, hstep⟩ := hname
    simpa [Path.resolveSteps, hne, hdot, hstep] using ih

theorem mem_ofSegments {c : Char} (h : c ∈ ofSegments dir) : c = '/' ∨ ∃ s ∈ dir, c ∈ s := by
  induction dir with
  | nil => contradiction
  | cons s rest ih =>
    cases rest with
    | nil => exact .inr ⟨s, List.mem_cons_self, by simpa [ofSegments] using h⟩
    | cons t rest =>
      rw [ofSegments, List.intercalate_cons_cons, List.mem_append, List.mem_append,
        List.mem_singleton] at h
      rcases h with (h | h) | h
      · exact .inr ⟨s, List.mem_cons_self, h⟩
      · exact .inl h
      · rcases ih h with hslash | ⟨u, hu, hc⟩
        · exact .inl hslash
        · exact .inr ⟨u, List.mem_cons_of_mem s hu, hc⟩

theorem directory_ofSegments {file : List Char} (hnames : ∀ s ∈ dir ++ [file], IsName s)
    (hslash : ∀ s ∈ dir, '\\' ∉ s) : directory (ofSegments (dir ++ [file])) = ofSegments dir := by
  rw [directory, components_ofSegments hnames, List.dropLast_concat]
  refine (List.map_congr_left fun c hc => ?_).trans (List.map_id _)
  rcases mem_ofSegments hc with rfl | ⟨s, hs, hcs⟩
  · rfl
  · have hne : c ≠ '\\' := fun heq => hslash s hs (heq ▸ hcs)
    simp [hne]

/-- The path of a specifier in its normal form is that of the place it leads to. -/
theorem normalize_specifier {file spec : List Char} (hnames : ∀ s ∈ dir ++ [file], IsName s)
    (hslash : ∀ s ∈ dir, '\\' ∉ s) (hleads : Leads dir (Text.splitOn '/' spec) place) :
    Path.normalize (directory (ofSegments (dir ++ [file])) ++ '/' :: spec) = ofSegments place := by
  have hdir : ∀ s ∈ dir, IsName s := fun s hs => hnames s (List.mem_append_left _ hs)
  have hplace := hleads.resolveSteps
  rw [Path.normalize, directory_ofSegments hnames hslash, components_append,
    components_ofSegments hdir, resolveSteps_append [] dir _ hdir, List.append_nil, components,
    segments, hplace]

/-! ### Known extensions -/

/-- An extension that specifiers may spell out. -/
def isScriptExtension (extension : List Char) : Bool :=
  scriptExtensions.contains (String.ofList ('.' :: extension))

/-- The text without an extension that specifiers may spell out. -/
def withoutExtension (cs : List Char) : List Char :=
  (scriptExtensions.findSome? (Text.before? · cs)).getD cs

/-- A known extension is a dot and letters after it. -/
theorem exists_of_mem_scriptExtensions {w : String} (h : w ∈ scriptExtensions) :
    ∃ extension, w.toList = '.' :: extension ∧ '.' ∉ extension ∧ '/' ∉ extension := by
  have hall : ∀ w ∈ scriptExtensions, w.toList.head? = some '.' ∧ '.' ∉ w.toList.tail ∧
      '/' ∉ w.toList.tail := by
    decide
  obtain ⟨hhead, hdot, hslash⟩ := hall w h
  obtain ⟨extension, hw⟩ := List.head?_eq_some_iff.mp hhead
  rw [hw] at hdot hslash
  exact ⟨extension, hw, hdot, hslash⟩

theorem before?_append {w : String} (stem : List Char) :
    Text.before? w (stem ++ w.toList) = some stem := by
  simp [Text.before?, Text.endsWith, String.length_toList]

theorem before?_eq_none {w : String} {cs : List Char} (h : ¬w.toList <:+ cs) :
    Text.before? w cs = none := by
  simp [Text.before?, Text.endsWith, h]

theorem before?_name {w : String} (hw : w ∈ scriptExtensions) (stem : List Char)
    {extension : List Char} (hext : '.' ∉ extension) :
    Text.before? w (stem ++ '.' :: extension) = if w = String.ofList ('.' :: extension)
      then some stem else none := by
  split
  · next heq =>
    have htext : '.' :: extension = w.toList := by simp [heq]
    rw [htext, before?_append]
  · next hne =>
    refine before?_eq_none fun ⟨before, hbefore⟩ => hne ?_
    obtain ⟨other, hother, hdot, -⟩ := exists_of_mem_scriptExtensions hw
    rw [hother] at hbefore
    -- Both are what follows the last dot.
    have hsplit := Text.splitLast?_append before hdot
    rw [hbefore, Text.splitLast?_append stem hext] at hsplit
    obtain ⟨-, rfl⟩ := Prod.mk.inj (Option.some.inj hsplit)
    rw [← hother, String.ofList_toList]

theorem withoutExtension_name (stem : List Char) {extension : List Char} (hext : '.' ∉ extension) :
    withoutExtension (stem ++ '.' :: extension) =
      if isScriptExtension extension then stem else stem ++ '.' :: extension := by
  have hfind : ∀ words : List String, (∀ w ∈ words, w ∈ scriptExtensions) →
      words.findSome? (Text.before? · (stem ++ '.' :: extension)) =
        if words.contains (String.ofList ('.' :: extension)) then some stem else none := by
    intro words hwords
    induction words with
    | nil => rfl
    | cons w words ih =>
      obtain ⟨hw, hrest⟩ := List.forall_mem_cons.mp hwords
      rw [List.findSome?_cons, before?_name hw stem hext, ih hrest, List.contains_cons]
      by_cases heq : w = String.ofList ('.' :: extension)
      · simp [heq]
      · have hne : (String.ofList ('.' :: extension) == w) = false :=
          beq_eq_false_iff_ne.mpr (Ne.symm heq)
        rw [if_neg heq, hne, Bool.false_or]
  rw [withoutExtension, hfind _ fun _ h => h, isScriptExtension]
  split <;> rfl

theorem withoutExtension_of_not_mem {cs : List Char} (h : '.' ∉ cs) : withoutExtension cs = cs := by
  have hnone : scriptExtensions.findSome? (Text.before? · cs) = none := by
    rw [List.findSome?_eq_none_iff]
    intro w hw
    obtain ⟨extension, hext, -⟩ := exists_of_mem_scriptExtensions hw
    refine before?_eq_none fun hsuffix => h (hsuffix.subset ?_)
    rw [hext]
    exact List.mem_cons_self
  rw [withoutExtension, hnone, Option.getD_none]

/-- A text that is cut at a known extension ends in a dot and that extension. -/
theorem withoutExtension_cases (cs : List Char) :
    withoutExtension cs = cs ∨ ∃ extension, '.' ∉ extension ∧ '/' ∉ extension ∧
      cs = withoutExtension cs ++ '.' :: extension := by
  cases hsplit : Text.splitLast? '.' cs with
  | none => exact .inl (withoutExtension_of_not_mem (Text.not_mem_of_splitLast?_eq_none hsplit))
  | some r =>
    obtain ⟨stem, extension⟩ := r
    obtain ⟨rfl, hdot⟩ := Text.eq_of_splitLast? hsplit
    rw [withoutExtension_name stem hdot]
    by_cases hknown : isScriptExtension extension = true
    · rw [if_pos hknown]
      obtain ⟨other, hother, -, hslash⟩ :=
        exists_of_mem_scriptExtensions (List.contains_iff_mem.mp hknown)
      rw [String.toList_ofList] at hother
      obtain rfl := List.tail_eq_of_cons_eq hother
      exact .inr ⟨extension, hdot, hslash, rfl⟩
    · exact .inl (if_neg hknown)

theorem length_moduleName_withoutExtension_lt {cs : List Char} (h : withoutExtension cs ≠ cs) :
    (moduleName (withoutExtension cs)).length < cs.length := by
  have hle := length_moduleName_le (withoutExtension cs)
  obtain ⟨extension, -, -, heq⟩ := (withoutExtension_cases cs).resolve_left h
  have := congrArg List.length heq
  simp only [List.length_append, List.length_cons] at this
  omega

/-! ### The module of a specifier -/

/-- Nothing in the text is taken for an extension. -/
def IsPlain (cs : List Char) : Prop := withoutExtension cs = cs ∧ extension? cs = none

instance (cs : List Char) : Decidable (IsPlain cs) := inferInstanceAs (Decidable (_ ∧ _))

/-- How a specifier may spell out a file of a directory: without the extension of the file, with it,
or by the directory alone. The place it leads to then, and when all dots that count are kept. -/
inductive Spells (dir : List (List Char)) (file : List Char) : List (List Char) → Prop → Prop
  | bare : Spells dir file (dir ++ [(cutExtension file).1])
    (IsPlain (ofSegments (dir ++ [(cutExtension file).1])))
  | full : Spells dir file (dir ++ [file])
      ((cutExtension file).2.any isScriptExtension = true →
        extension? (ofSegments (dir ++ [(cutExtension file).1])) = none)
  | folder : (cutExtension file).1 = "index".toList →
      Spells dir file dir (IsPlain (ofSegments dir) ∧ dir.getLast?.any isMarker = false)

theorem resolveSpecifier?_eq {here dir : List (List Char)} {unit spec : List Char}
    (hunit : ∀ s ∈ here ++ [unit], IsName s) (hslash : ∀ s ∈ here, '\\' ∉ s)
    (hspec : spec.head? = some '.') (hleads : Leads here (Text.splitOn '/' spec) dir) :
    (ImportTable.empty (ofSegments (here ++ [unit])) .script).resolveSpecifier? spec =
      some (moduleName (withoutExtension (ofSegments dir))) := by
  rw [resolveSpecifier?, hspec, if_pos (beq_self_eq_true _)]
  dsimp only [ImportTable.empty]
  rw [normalize_specifier hunit hslash hleads]
  rfl

section Spelled

variable {file : List Char}

/-- The module name of a file is dotted from the parts of its path without the extension. -/
theorem moduleName_file (hfile : ∀ s ∈ dir ++ [file], IsName s) {extension : List Char}
    (hext : (cutExtension file).2 = some extension) :
    moduleName (ofSegments (dir ++ [file])) =
      ['.'].intercalate
        (withoutMarker (properParts (ofSegments (dir ++ [(cutExtension file).1])))) := by
  obtain ⟨hne, heq, -⟩ := cutExtension_some hext
  have hslash : ∀ s ∈ dir ++ [(cutExtension file).1], '/' ∉ s := by
    intro s hs
    rcases List.mem_append.mp hs with hs | hs
    · exact (hfile s (List.mem_append_left _ hs)).2.1
    · have hfile := (hfile file (by simp)).2.1
      rw [List.mem_singleton.mp hs]
      exact fun hmem => hfile (heq ▸ List.mem_append_left _ hmem)
  have hparts : ∀ s ∈ dir ++ [(cutExtension file).1], s ≠ [] := by
    intro s hs
    rcases List.mem_append.mp hs with hs | hs
    · exact (hfile s (List.mem_append_left _ hs)).1
    · exact List.mem_singleton.mp hs ▸ hne
  rw [moduleName, moduleParts_of_components (components_ofSegments hfile)
    (hfile file (by simp)).2.2.2, properParts, components_ofSegments_filter hslash,
    List.filter_filter]
  refine congrArg (fun parts => ['.'].intercalate (withoutMarker parts))
    (List.filter_congr fun s hs => ?_)
  cases hempty : s with
  | nil => exact absurd hempty (hparts s hs)
  | cons c cs => simp [Bool.and_comm]

theorem properParts_of_isName (h : ∀ s ∈ dir, IsName s) : properParts (ofSegments dir) = dir := by
  rw [properParts, components_ofSegments h, List.filter_eq_self]
  exact fun s hs => by simpa using (h s hs).2.2.2

/-- A path that ends in a marker has no extension to lose. -/
theorem withoutExtension_of_isMarker {name : List Char} (hmarker : isMarker name = true) :
    withoutExtension (ofSegments (dir ++ [name])) = ofSegments (dir ++ [name]) := by
  refine Decidable.byContradiction fun hne => ?_
  obtain ⟨extension, -, hslash, heq⟩ := (withoutExtension_cases _).resolve_left hne
  have hsuffix : '.' :: extension <:+ ofSegments (dir ++ [name]) := ⟨_, heq.symm⟩
  have hmem :=
    (suffix_of_suffix_ofSegments (by simpa using hslash) hsuffix).subset List.mem_cons_self
  rcases Bool.or_eq_true_iff.mp hmarker with h | h
  all_goals
    rw [beq_iff_eq.mp h] at hmem
    revert hmem
    decide

/-- Without its extension, a file is named by the text exactly when nothing more is
taken for an extension. -/
theorem moduleName_bare_iff (hplace : ∀ s ∈ dir ++ [(cutExtension file).1], IsName s) :
    let path := ofSegments (dir ++ [(cutExtension file).1])
    moduleName (withoutExtension path) = ['.'].intercalate (withoutMarker (properParts path)) ↔
    IsPlain path := by
  intro path
  constructor
  · intro heq
    have hwhole : withoutExtension path = path := by
      refine Decidable.byContradiction fun hne => ?_
      have hlt := length_moduleName_withoutExtension_lt hne
      have hmarker : isMarker (cutExtension file).1 ≠ true :=
        fun h => hne (withoutExtension_of_isMarker h)
      have hparts : withoutMarker (properParts path) = dir ++ [(cutExtension file).1] := by
        rw [properParts_of_isName hplace]
        simp [withoutMarker, hmarker]
      rw [heq, hparts, length_intercalate, ← length_intercalate '/'] at hlt
      exact Nat.lt_irrefl _ hlt
    rw [hwhole] at heq
    exact ⟨hwhole, moduleName_eq_iff.mp heq⟩
  · rintro ⟨hwhole, hnone⟩
    rw [hwhole]
    exact moduleName_eq_iff.mpr hnone

/-- A directory is named by its path exactly when nothing is taken for an extension and the
directory does not have the name of a marker. -/
theorem moduleName_folder_iff (hplace : ∀ s ∈ dir, IsName s) :
    moduleName (withoutExtension (ofSegments dir)) = ['.'].intercalate dir ↔
      IsPlain (ofSegments dir) ∧ dir.getLast?.any isMarker = false := by
  have hparts := properParts_of_isName hplace
  have hle := length_intercalate_of_sublist '.' (withoutMarker_sublist dir)
  constructor
  · intro heq
    have hlength := congrArg List.length heq
    have hwhole : withoutExtension (ofSegments dir) = ofSegments dir := by
      refine Decidable.byContradiction fun hne => ?_
      have hlt := length_moduleName_withoutExtension_lt hne
      rw [hlength, length_intercalate, ← length_intercalate '/'] at hlt
      exact Nat.lt_irrefl _ hlt
    rw [hwhole] at heq hlength
    have hnone : extension? (ofSegments dir) = none := by
      cases hext : extension? (ofSegments dir) with
      | none => rfl
      | some extension =>
        have hlt := length_moduleName_lt hext
        rw [hparts] at hlt
        omega
    refine ⟨⟨hwhole, hnone⟩, Bool.eq_false_iff.mpr fun hmarker => ?_⟩
    rw [moduleName_eq_iff.mpr hnone, hparts, withoutMarker, if_pos hmarker] at hlength
    rcases dir.eq_nil_or_concat with rfl | ⟨init, last, rfl⟩
    · contradiction
    · have hlast := List.length_pos_iff.mpr (hplace last (by simp)).1
      rw [List.concat_eq_append, List.dropLast_concat] at hlength
      have hlt := length_intercalate_concat_lt '.' init (s := []) hlast
      have hsub := length_intercalate_of_sublist '.' (List.sublist_append_left init [[]])
      omega
  · rintro ⟨⟨hwhole, hnone⟩, hmarker⟩
    rw [hwhole, moduleName_eq_iff.mpr hnone, hparts, withoutMarker, hmarker]
    rfl

end Spelled

/-- A relative specifier always names a module. It is the module of the file that the specifier
leads to exactly when the dots that count are kept. -/
theorem resolveSpecifier?_eq_moduleName_iff {here dir place : List (List Char)}
    {unit file spec : List Char} {kept : Prop} (hunit : ∀ s ∈ here ++ [unit], IsName s)
    (hslash : ∀ s ∈ here, '\\' ∉ s) (hfile : ∀ s ∈ dir ++ [file], IsName s)
    (hscript : Language.ofPath? (ofSegments (dir ++ [file])) = some .script)
    (hspec : "./".toList <+: spec ∨ "../".toList <+: spec)
    (hleads : Leads here (Text.splitOn '/' spec) place) (hspells : Spells dir file place kept) :
    let t := ImportTable.empty (ofSegments (here ++ [unit])) .script
    (t.resolveSpecifier? spec).isSome = true ∧
      (t.resolveSpecifier? spec = some (moduleName (ofSegments (dir ++ [file]))) ↔ kept) := by
  intro t
  have hdot : spec.head? = some '.' := by
    rcases hspec with ⟨rest, rfl⟩ | ⟨rest, rfl⟩ <;> rfl
  have hplace := hleads.isName fun s hs => hunit s (List.mem_append_left _ hs)
  obtain ⟨extension, hext⟩ : ∃ extension, (cutExtension file).2 = some extension := by
    cases hcut : (cutExtension file).2 with
    | some extension => exact ⟨extension, rfl⟩
    | none =>
      have hname := fileName?_eq (components_ofSegments hfile) (hfile file (by simp)).2.2.2
      simp [Language.ofPath?, extension?, hname, hcut] at hscript
  rw [show t.resolveSpecifier? spec = _ from resolveSpecifier?_eq hunit hslash hdot hleads,
    moduleName_file hfile hext]
  refine ⟨rfl, ?_⟩
  rw [Option.some.injEq]
  cases hspells with
  | bare => exact moduleName_bare_iff hplace
  | full =>
    rw [hext, Option.any_some]
    obtain ⟨front, -, hpath⟩ := ofSegments_concat dir
    obtain ⟨-, heq, hnodot⟩ := cutExtension_some hext
    have hfull : ofSegments (dir ++ [file]) = ofSegments (dir ++ [(cutExtension file).1]) ++ '.' ::
        extension := by
      rw [hpath, hpath, List.append_assoc, ← heq]
    by_cases hknown : isScriptExtension extension = true
    · rw [hfull, withoutExtension_name _ hnodot, if_pos hknown, moduleName_eq_iff]
      exact ⟨fun h _ => h, fun h => h hknown⟩
    · rw [← moduleName_file hfile hext, hfull, withoutExtension_name _ hnodot, if_neg hknown]
      exact ⟨fun _ h => absurd h hknown, fun _ => rfl⟩
  | folder hindex =>
    have hdir : ∀ s ∈ dir, IsName s := fun s hs => hfile s (List.mem_append_left _ hs)
    have hindex' : ∀ s ∈ dir ++ [(cutExtension file).1], IsName s := by
      rw [hindex]
      intro s hs
      rcases List.mem_append.mp hs with hs | hs
      · exact hdir s hs
      · rw [List.mem_singleton.mp hs]
        decide
    rw [properParts_of_isName hindex', hindex, withoutMarker, List.getLast?_concat, Option.any_some,
      show isMarker "index".toList = true from by decide, if_pos rfl, List.dropLast_concat]
    exact moduleName_folder_iff hdir

/-- Up out of a directory with a dot in its name, and to a marker by its own directory. -/
theorem resolveSpecifier?_eq_moduleName_admin :
    let here := ["server".toList, "v1.2".toList]
    let t := ImportTable.empty (ofSegments (here ++ ["app.js".toList])) .script
    let admin := ["admin".toList]
    Leads here (Text.splitOn '/' "../..//admin/".toList) admin ∧
      Spells admin "index.ts".toList admin
        (IsPlain (ofSegments admin) ∧ admin.getLast?.any isMarker = false) ∧
      t.resolveSpecifier? "../..//admin/".toList = some (moduleName "admin/index.ts".toList) := by
  intro here t admin
  have hname : IsName "admin".toList := by decide
  have hdown : Leads [] [[], "admin".toList, []] admin :=
    .stay (.inl rfl) (.down hname (.stay (.inl rfl) (.here _)))
  have hup : Leads ([] ++ ["server".toList]) [parentStep, [], "admin".toList, []] admin := .up hdown
  have hleads : Leads here (Text.splitOn '/' "../..//admin/".toList) admin := Leads.up hup
  have hspells : Spells admin "index.ts".toList admin _ := .folder (by decide)
  refine ⟨hleads, hspells, ?_⟩
  exact (resolveSpecifier?_eq_moduleName_iff (by decide) (by decide) (by decide) (by decide)
    (by decide) hleads hspells).2.mpr (by decide)

/-- A file whose stem has a dot is not the module of the specifiers that lead to it, whether they
spell out its extension or not. -/
theorem resolveSpecifier?_ne_moduleName_routes :
    let t := ImportTable.empty "src/app.ts".toList .script
    let dir := ["src".toList]
    let file := "users.routes.ts".toList
    Leads dir (Text.splitOn '/' "./users.routes".toList) (dir ++ [(cutExtension file).1]) ∧
      t.resolveSpecifier? "./users.routes".toList ≠ some (moduleName (ofSegments (dir ++ [file]))) ∧
      Leads dir (Text.splitOn '/' "./users.routes.ts".toList) (dir ++ [file]) ∧
      t.resolveSpecifier? "./users.routes.ts".toList ≠
        some (moduleName (ofSegments (dir ++ [file]))) := by
  intro t dir file
  have hbare : IsName "users.routes".toList := by decide
  have hfull : IsName file := by decide
  exact ⟨.stay (.inr rfl) (.down hbare (.here _)), by decide,
    .stay (.inr rfl) (.down hfull (.here _)), by decide⟩

end EndpointCensus.ImportTable
