import EndpointCensus.Settings

/-!
A cache is transparent: whatever runs it has served, also cancelled ones, the next run that is not
cancelled has the result of an analysis without a cache.

An entry stands for a text that some run has seen: its digest is that of the text, its report the
one that the text has under the flag of the entry. Lookups, insertions, evictions and removals only
move or drop entries, or add one that has just been read. A good entry therefore holds the report of
the unit it is found for, as long as no two of the texts have one digest.
-/

namespace EndpointCensus.Cache

/-- A call with a corpus, given as identities and texts. -/
structure Run where
  sources : List (String × String)
  settings : Settings
  cancellation : Cancellation := {}
  deriving DecidableEq, Repr

namespace Run

def units (r : Run) : List SourceUnit := r.sources.map fun s => .ofText s.1 s.2

def texts (r : Run) : List String := r.sources.map Prod.snd

def flag (r : Run) : Bool := r.settings.flagAmbiguous

/-- The run was not cancelled at any time. -/
def IsLive (r : Run) : Prop := r.cancellation = {}

end Run

/-- The results of runs that share a cache. -/
def serve : Cache → List Run → List (Except Failure Analysis)
  | _, [] => []
  | c, r :: rest =>
    let (c, result) := c.analyzeUnder r.flag r.cancellation r.units
    result :: serve c rest

/-- Different texts of the list have different digests. -/
def Distinguished (texts : List String) : Prop :=
  ∀ s ∈ texts, ∀ t ∈ texts, Digest.ofText s = Digest.ofText t → s = t

/-- The entry holds the report on one of the texts. -/
def StandsFor (texts : List String) (e : CacheEntry) : Prop :=
  ∃ t ∈ texts, e.digest = Digest.ofText t ∧
  e.report = (SourceUnit.ofText e.identity t).report e.flag

def Faithful (texts : List String) (c : Cache) : Prop := ∀ e ∈ c.entries, StandsFor texts e

/-- The unit is read from one of the texts, in the language of its identity. -/
def IsSource (texts : List String) (u : SourceUnit) : Prop :=
  u.text ∈ texts ∧ u = .ofText u.identity u.text

variable {texts : List String} {c : Cache} {u : SourceUnit} {flag : Bool}

theorem faithful_empty (texts : List String) (capacity : Nat) :
    (empty capacity).Faithful texts := by
  intro e he
  simp [empty] at he

theorem isSource_units {r : Run} (h : ∀ t ∈ r.texts, t ∈ texts) :
    ∀ u ∈ r.units, IsSource texts u := by
  intro u hu
  obtain ⟨s, hs, rfl⟩ := List.mem_map.1 hu
  exact ⟨h s.2 (List.mem_map.2 ⟨s, hs, rfl⟩), rfl⟩

/-! ### Single operations -/

theorem fresh?_spec {digest : String} {e : CacheEntry} (h : c.fresh? u digest flag = some e) :
    e ∈ c.entries ∧ e.identity = u.identity ∧ e.digest = digest ∧ e.flag = flag := by
  unfold fresh? at h
  obtain ⟨hfind, hgood⟩ := Option.filter_eq_some_iff.1 h
  have hmem := List.mem_of_find?_eq_some hfind
  have hid := List.find?_some hfind
  simp only [beq_iff_eq, Bool.and_eq_true] at hid hgood
  exact ⟨hmem, hid, hgood.1, hgood.2⟩

theorem mem_of_mem_without {e : CacheEntry} {identity : String} (h : e ∈ c.without identity) :
    e ∈ c.entries := (List.mem_filter.1 h).1

theorem faithful_get (hc : c.Faithful texts) (digest : String) (flag : Bool) :
    (c.get u digest flag).1.Faithful texts := by
  unfold get
  cases hf : c.fresh? u digest flag with
  | none => exact hc
  | some e =>
    intro x hx
    rcases List.mem_append.1 hx with hx | hx
    · exact hc x (mem_of_mem_without hx)
    · rw [List.mem_singleton.1 hx]
      exact hc e (fresh?_spec hf).1

/-- A good entry has the report of the unit. -/
theorem report_of_get (hd : Distinguished texts) (hc : c.Faithful texts) (hu : IsSource texts u)
    {report : UnitReport} (h : (c.get u (Digest.ofText u.text) flag).2 = some report) :
    report = u.report flag := by
  unfold get at h
  cases hf : c.fresh? u (Digest.ofText u.text) flag with
  | none => simp [hf] at h
  | some e =>
    simp only [hf, Option.some.injEq] at h
    obtain ⟨hmem, hid, hdigest, hflag⟩ := fresh?_spec hf
    obtain ⟨t, ht, htext, hreport⟩ := hc e hmem
    have hsame : t = u.text := hd t ht u.text hu.1 (htext.symm.trans hdigest)
    rw [← h, hreport, hid, hflag, hsame, ← hu.2]

theorem faithful_insert (hc : c.Faithful texts) (hu : IsSource texts u) (flag : Bool) :
    (c.insert u (Digest.ofText u.text) flag (u.report flag)).Faithful texts := by
  unfold insert
  split
  · exact hc
  · intro e he
    rcases List.mem_append.1 (List.mem_of_mem_drop he) with he | he
    · exact hc e (mem_of_mem_without he)
    · rw [List.mem_singleton.1 he]
      refine ⟨u.text, hu.1, rfl, ?_⟩
      rw [← hu.2]

theorem faithful_retain (hc : c.Faithful texts) (units : List SourceUnit) :
    (c.retain units).Faithful texts :=
  fun e he => hc e (List.mem_filter.1 he).1

/-! ### A run -/

/-- A looked up report, if there is one, is that of its unit. -/
def IsSound (flag : Bool) (found : List (SourceUnit × Option UnitReport)) : Prop :=
  ∀ p ∈ found, ∀ report, p.2 = some report → report = p.1.report flag

theorem getAll_spec (hd : Distinguished texts) {units : List SourceUnit} (hc : c.Faithful texts)
    (hu : ∀ u ∈ units, IsSource texts u) (flag : Bool) :
    (getAll flag c units).1.Faithful texts ∧ (getAll flag c units).2.map Prod.fst = units ∧
      IsSound flag (getAll flag c units).2 := by
  induction units generalizing c with
  | nil => exact ⟨hc, rfl, fun p hp => by simp [getAll] at hp⟩
  | cons u rest ih =>
    have hfirst := hu u (List.mem_cons_self ..)
    obtain ⟨hkept, hunits, hsound⟩ := ih (faithful_get hc (Digest.ofText u.text) flag)
      (fun x hx => hu x (List.mem_cons_of_mem u hx))
    refine ⟨hkept, congrArg (u :: ·) hunits, ?_⟩
    intro p hp report hreport
    rcases List.mem_cons.1 hp with rfl | hp
    · exact report_of_get hd hc hfirst hreport
    · exact hsound p hp report hreport

theorem eq_of_readUnits {cancelled : Bool} {units : List SourceUnit} {reports : List UnitReport}
    (h : Analysis.readUnits flag cancelled units = .ok reports) :
    reports = units.map (·.report flag) := by
  unfold Analysis.readUnits at h
  split at h
  · cases h
  · exact (Except.ok.inj h).symm

/-- Fresh reports come in the order of the units that lack one, so each of these takes its own. -/
theorem fill_fresh (flag : Bool) (c : Cache) (found : List (SourceUnit × Option UnitReport)) :
    (fill flag c found ((stale found).map (·.report flag))).2 =
      found.map fun p => p.2.getD (p.1.report flag) := by
  induction found generalizing c with
  | nil => rfl
  | cons p rest ih =>
    obtain ⟨u, _ | report⟩ := p
    · exact congrArg (u.report flag :: ·) (ih _)
    · exact congrArg (report :: ·) (ih c)

theorem faithful_fill {found : List (SourceUnit × Option UnitReport)} (hc : c.Faithful texts)
    (hu : ∀ p ∈ found, IsSource texts p.1) :
    (fill flag c found ((stale found).map (·.report flag))).1.Faithful texts := by
  induction found generalizing c with
  | nil => exact hc
  | cons p rest ih =>
    obtain ⟨hfirst, hrest⟩ := List.forall_mem_cons.mp hu
    obtain ⟨u, _ | report⟩ := p
    · exact ih (faithful_insert hc hfirst flag) hrest
    · exact ih hc hrest

theorem fill_spec {found : List (SourceUnit × Option UnitReport)} (hs : IsSound flag found) :
    (fill flag c found ((stale found).map (·.report flag))).2 =
      (found.map Prod.fst).map (·.report flag) := by
  rw [fill_fresh, List.map_map]
  refine List.map_congr_left fun p hp => ?_
  rcases hreport : p.2 with _ | report
  · rfl
  · exact hs p hp report hreport

/-- A run keeps the entries true, wherever it is cut off, and has the result of an analysis
without a cache if it is not. -/
theorem analyzeUnder_spec (hd : Distinguished texts) (hc : c.Faithful texts) {r : Run}
    (hr : ∀ t ∈ r.texts, t ∈ texts) :
    (c.analyzeUnder r.flag r.cancellation r.units).1.Faithful texts ∧
      (r.IsLive →
        (c.analyzeUnder r.flag r.cancellation r.units).2 =
          Analysis.ofUnits r.flag false r.units) := by
  have hu := isSource_units hr
  obtain ⟨hlooked, hunits, hsound⟩ := getAll_spec hd hc hu r.flag
  unfold analyzeUnder
  -- From here on only what the lookups have found matters, not how.
  generalize getAll r.flag c r.units = looked at hlooked hunits hsound ⊢
  have hfound : ∀ p ∈ looked.2, IsSource texts p.1 := by
    intro p hp
    exact hu p.1 (hunits ▸ List.mem_map.2 ⟨p, hp, rfl⟩)
  have hreports := fill_spec (c := looked.1) hsound
  rw [hunits] at hreports
  constructor
  · dsimp only
    split
    · exact hlooked
    · next fresh hread =>
      rw [eq_of_readUnits hread]
      exact faithful_retain (faithful_fill hlooked hfound) r.units
  · intro hlive
    unfold Run.IsLive at hlive
    simp only [hlive, Analysis.readUnits, Bool.false_and, Bool.false_eq_true, ↓reduceIte, hreports]
    rfl

/-! ### All runs -/

theorem getElem?_serve (hd : Distinguished texts) {runs : List Run}
    (hr : ∀ r ∈ runs, ∀ t ∈ r.texts, t ∈ texts) (hc : c.Faithful texts) {k : Nat} {r : Run}
    (hk : runs[k]? = some r) (hlive : r.IsLive) :
    (c.serve runs)[k]? = some (Analysis.ofUnits r.flag false r.units) := by
  induction runs generalizing c k with
  | nil => simp at hk
  | cons first rest ih =>
    obtain ⟨hkept, hresult⟩ := analyzeUnder_spec hd hc (hr first (List.mem_cons_self ..))
    cases k with
    | zero =>
      simp only [List.getElem?_cons_zero, Option.some.injEq] at hk
      subst hk
      exact congrArg some (hresult hlive)
    | succ k => exact ih (fun r h => hr r (List.mem_cons_of_mem first h)) hkept hk

/-- Runs that share a cache, of any capacity and empty at first, have the results of analyses
without a cache wherever they are not cancelled. -/
theorem serve_eq_analyses (capacity : Nat) (runs : List Run)
    (hd : Distinguished (runs.flatMap Run.texts)) :
    ∀ (k : Nat) (r : Run), runs[k]? = some r → r.IsLive →
      ((empty capacity).serve runs)[k]? = some (Analysis.ofUnits r.flag false r.units) := by
  intro k r hk hlive
  have hr : ∀ r ∈ runs, ∀ t ∈ r.texts, t ∈ runs.flatMap Run.texts :=
    fun r h t ht => List.mem_flatMap.2 ⟨r, h, ht⟩
  exact getElem?_serve hd hr (faithful_empty _ capacity) hk hlive

/-- A unit is read, edited in a run that is cancelled at its end, and analyzed
under another flag. -/
theorem serve_eq_analyses_edited :
    let first : Run := { sources := [("app.py", "@app.get('/a')")], settings := {} }
    let second : Run := {
      sources := [("app.py", "@app.get('/b')")], settings := {},
      cancellation := { closing := true } }
    let last : Run := {
      sources := [("app.py", "@app.get('/b')")], settings := { flagAmbiguous := false } }
    Distinguished ([first, second, last].flatMap Run.texts) ∧ last.IsLive ∧
      ((empty 1).serve [first, second, last])[2]? =
        some (Analysis.ofUnits last.flag false last.units) := by
  intro first second last
  have hd : Distinguished ([first, second, last].flatMap Run.texts) := by
    unfold Distinguished
    decide +kernel
  have hlast : [first, second, last][2]? = some last := rfl
  exact ⟨hd, rfl, serve_eq_analyses 1 [first, second, last] hd 2 last hlast rfl⟩

end EndpointCensus.Cache
