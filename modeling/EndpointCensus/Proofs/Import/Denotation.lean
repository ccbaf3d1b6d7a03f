import EndpointCensus.Proofs.Import.Grammar

/-!
What the local names of a Python unit denote. An import statement binds each of its items in order,
so that the last one of a name holds, and the module of a name imported from another one is the
next level below that.
-/

namespace EndpointCensus

open Text

/-! ### Bindings of a statement -/

namespace ImportTable

/-- The table with bindings made one after the other. -/
def bindAll (t : ImportTable) (bindings : List (List Char × Imported)) : ImportTable :=
  bindings.foldl (fun t b => t.bind b.1 b.2) t

theorem bindings_bindAll (t : ImportTable) (bindings : List (List Char × Imported)) :
    (t.bindAll bindings).bindings = bindings.reverse ++ t.bindings := by
  induction bindings generalizing t with
  | nil => rfl
  | cons b rest ih =>
    rw [bindAll, List.foldl_cons, ← bindAll, ih, List.reverse_cons, List.append_assoc]
    rfl

theorem lookup_reverse_eq_none {bindings : List (List Char × Imported)} {name : List Char}
    (h : name ∉ bindings.map Prod.fst) : bindings.reverse.lookup name = none := by
  refine List.lookup_eq_none_iff.mpr fun b hb => bne_iff_ne.mpr ?_
  rintro rfl
  exact h (List.mem_map_of_mem (List.mem_reverse.mp hb))

/-- The last item that binds a name holds. -/
theorem get?_bindAll_map (t : ImportTable) {binding : Alias → List Char × Imported}
    (front : List Alias) {back : List Alias} {a : Alias} {name : List Char} {target : Imported}
    (ha : binding a = (name, target)) (hback : ∀ b ∈ back, (binding b).1 ≠ name) :
    (t.bindAll ((front ++ a :: back).map binding)).get? name = some target := by
  have hlookup : (back.map binding).reverse.lookup name = none :=
    lookup_reverse_eq_none (by simpa using hback)
  rw [get?, bindings_bindAll]
  simp [List.lookup_append, hlookup, ha]

theorem get?_bindAll_of_not_mem (t : ImportTable) {bindings : List (List Char × Imported)}
    {name : List Char} (h : name ∉ bindings.map Prod.fst) :
    (t.bindAll bindings).get? name = t.get? name := by
  rw [get?, bindings_bindAll, List.lookup_append, lookup_reverse_eq_none h, Option.none_or, get?]

/-- Items that are bound one by one. -/
theorem foldl_eq_bindAll {step : ImportTable → Alias → ImportTable}
    {binding : Alias → List Char × Imported} {items : List Alias}
    (h : ∀ t, ∀ a ∈ items, step t a = t.bind (binding a).1 (binding a).2) (t : ImportTable) :
    items.foldl step t = t.bindAll (items.map binding) := by
  induction items generalizing t with
  | nil => rfl
  | cons a rest ih =>
    rw [List.foldl_cons, h t a List.mem_cons_self, ih fun t b hb => h t b (List.mem_cons_of_mem a hb)]
    rfl

theorem relativeModule_joinParts (t : ImportTable) {dots : Nat} (hdots : dots ≠ 0)
    {path : List (List Char)} (hpath : ∀ s ∈ path, IsWord s) :
    t.relativeModule dots (joinParts path) = joinParts (ImportForm.origin t.package dots path) := by
  have hlevel : t.package.length - (dots - 1) = t.package.length + 1 - dots := by omega
  rw [relativeModule, dottedParts_joinParts hpath, hlevel, ImportForm.origin, if_neg hdots]

end ImportTable

/-- The local name of an item imported from a module. -/
def Alias.bound (a : Alias) : List Char := a.rename.getD a.name

def Alias.root (a : Alias) : List Char := a.rename.getD (firstSegment a.name)

namespace ImportForm

open ImportTable

/-- The local names that a statement binds, with what each is bound to. -/
def bindings (package : List (List Char)) : ImportForm → List (List Char × Imported)
  | names dots path items => items.map fun a =>
      (a.bound, ⟨joinParts (origin package dots path), some a.name, false⟩)
  | modules items => items.map fun a =>
      (a.root, ⟨if a.rename.isSome then a.name else firstSegment a.name, none, false⟩)

def locals : ImportForm → List (List Char)
  | names _ _ items => items.map Alias.bound
  | modules items => items.map Alias.root

theorem map_fst_bindings (form : ImportForm) (package : List (List Char)) :
    (form.bindings package).map Prod.fst = form.locals := by
  cases form <;> simp [bindings, locals]

/-- The items of a list that stands in a statement. -/
theorem filterMap_alias?_names {items : List Alias} {list names : List Char}
    (hlist : Listed items list) (hnames : Enclosed list names) :
    ((listItems (stripRuns '(' ')' (trim names))).filter (!·.isEmpty)).filterMap alias? =
      items := by
  have hempty : (fun cs : List Char => if !cs.isEmpty then alias? cs else none) = alias? := by
    funext cs
    cases cs <;> rfl
  rw [hlist.stripRuns_trim hnames, List.filterMap_filter, hempty, hlist.filterMap_alias?]

/-- A statement that is written as an import statement binds what it says. -/
theorem scanPython_written {form : ImportForm} {s : Statement} (t : ImportTable)
    (h : form.Written (trim s.masked)) :
    t.scanPython s = (t.bindAll (form.bindings t.package), true) := by
  unfold scanPython
  dsimp only
  generalize trim s.masked = masked at h
  cases h with
  | @names dots path items first second third list names hmodule hpath hne hwords hfirst hsecond
    hthird hlist hnames =>
    obtain ⟨hsome, hhead⟩ := hlist.enclosed hne hnames
    have horigin : (if dots == 0 then joinParts path else t.relativeModule dots (joinParts path)) =
        joinParts (origin t.package dots path) := by
      by_cases hdots : dots = 0
      · simp [hdots, origin]
      · rw [if_neg (by simpa using hdots), t.relativeModule_joinParts hdots hpath]
    have hstar : ∀ a ∈ items, (a.name == ['*']) = false := fun a ha => by
      have hno : '*' ∉ a.name := (hwords a ha).not_mem (by decide)
      exact beq_eq_false_iff_ne.mpr fun heq => hno (heq ▸ List.mem_cons_self)
    rw [fromImport?_names hmodule hpath hfirst hsecond hthird hsome hhead]
    dsimp only
    rw [horigin, bindFrom, filterMap_alias?_names hlist hnames]
    refine congrArg (·, true) (foldl_eq_bindAll (fun t a ha => ?_) t)
    rw [hstar a ha, if_neg Bool.false_ne_true]
    rfl
  | @modules items gap list hne hgap hlist htrim =>
    obtain ⟨hsome, hhead⟩ := hlist.enclosed hne (.bare htrim)
    have hfrom : fromImport? ("import".toList ++ (gap ++ list)) = none := rfl
    rw [hfrom, afterImport?_gap hgap hsome hhead]
    dsimp only
    rw [bindModules, hlist.filterMap_alias?]
    refine congrArg (·, true) (foldl_eq_bindAll (fun t a _ => ?_) t)
    rw [Alias.root]
    cases a.rename <;> rfl

end ImportForm

/-! ### What a name denotes -/

/-- What a local name stands for. -/
inductive Meaning where
  /-- A module that was imported by its name from the one above it. -/
  | member (above : List (List Char)) (name : List Char)
  | module (parts : List (List Char))

namespace Meaning

def parts : Meaning → List (List Char)
  | member above name => above ++ [name]
  | module parts => parts

def imported : Meaning → Imported
  | member above name => ⟨ImportTable.joinParts above, some name, false⟩
  | module parts => ⟨ImportTable.joinParts parts, none, false⟩

end Meaning

namespace ImportForm

open ImportTable

/-- A local name denotes a module by the rules of Python: what the last item says that binds the
name. Dots lead as far up as there are packages. -/
inductive Denotes (package : List (List Char)) (name : List Char) : ImportForm → Meaning → Prop
  | member {dots : Nat} {path : List (List Char)} {front back : List Alias} {a : Alias} :
      dots ≤ package.length + 1 → a.bound = name → (∀ b ∈ back, b.bound ≠ name) →
      Denotes package name (.names dots path (front ++ a :: back))
        (.member (origin package dots path) a.name)
  | renamed {path : List (List Char)} {front back : List Alias} : path ≠ [] →
      (∀ s ∈ path, IsWord s) → (∀ b ∈ back, b.root ≠ name) →
      Denotes package name (.modules (front ++ ⟨joinParts path, some name⟩ :: back)) (.module path)
  | first {path : List (List Char)} {front back : List Alias} : IsWord name →
      (∀ b ∈ back, b.root ≠ name) →
      Denotes package name (.modules (front ++ ⟨joinParts (name :: path), none⟩ :: back))
        (.module [name])

variable {package : List (List Char)} {name : List Char} {form : ImportForm} {meaning : Meaning}

/-- After the statement the name is bound to what it denotes. -/
theorem Denotes.get?_bindAll (h : form.Denotes package name meaning) (t : ImportTable) :
    (t.bindAll (form.bindings package)).get? name = some meaning.imported := by
  cases h with
  | @member dots path front back a _ hname hback =>
    exact t.get?_bindAll_map front (congrArg (·, Imported.mk _ _ _) hname) hback
  | @renamed path front back _ _ hback => exact t.get?_bindAll_map front rfl hback
  | @first path front back hname hback =>
    refine t.get?_bindAll_map front ?_ hback
    simp [Alias.root, firstSegment_joinParts hname, Meaning.imported]

end ImportForm

end EndpointCensus
