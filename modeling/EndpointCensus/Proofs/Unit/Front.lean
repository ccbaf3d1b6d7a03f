import EndpointCensus.Proofs.Unit.Intact

/-! The reading of a unit, one statement after the other. What a statement adds to the sightings is
told by what has been read before it and by the statements after it, and the fragments of a unit are
those of its statements in order. -/

namespace EndpointCensus

namespace Reading

variable {u : SourceUnit} {flag : Bool} {r : Reading}

/-- What has been read of the statements of a front, given those after it. -/
def readFront (u : SourceUnit) (flag : Bool) (r : Reading) :
    List Statement → List Statement → Reading
  | [], _ => r
  | s :: front, rest => readFront u flag (r.readOne u flag s (front ++ rest)) front rest

theorem readAll_append (front rest : List Statement) :
    readAll u flag r (front ++ rest) = readAll u flag (readFront u flag r front rest) rest := by
  induction front generalizing r with
  | nil => rfl
  | cons s front ih => exact ih

theorem readFront_append (front middle rest : List Statement) :
    readFront u flag r (front ++ middle) rest =
      readFront u flag (readFront u flag r front (middle ++ rest)) middle rest := by
  induction front generalizing r with
  | nil => rfl
  | cons s front ih =>
    rw [List.cons_append, readFront, ih, List.append_assoc]
    rfl

theorem readFront_concat (front rest : List Statement) (s : Statement) :
    readFront u flag r (front ++ [s]) rest =
      (readFront u flag r front (s :: rest)).readOne u flag s rest :=
  readFront_append front [s] rest

/-- What has been read when a statement is looked at: the scopes that it is not inside of are
closed, and its imports are known. -/
def arriveAt (u : SourceUnit) (r : Reading) (s : Statement) : Reading :=
  { r with
    scopes := if u.language == .python then closeScopes r.scopes s.indent else r.scopes
    imports := (r.imports.scan s).1 }

/-- The sightings that a statement adds. -/
def sighted (u : SourceUnit) (r : Reading) (s : Statement) (rest : List Statement) :
    List Sighting :=
  if (r.imports.scan s).2 then []
  else match ((r.arriveAt u s).context u.language s rest).matches with
    | (idiom, es) :: _ => (es.filter Emission.isSighted).map ((r.arriveAt u s).sighting idiom)
    | [] => []

theorem sightings_readOne (s : Statement) (rest : List Statement) :
    (r.readOne u flag s rest).sightings = r.sightings ++ r.sighted u s rest := by
  unfold readOne sighted
  dsimp only
  split
  · exact (List.append_nil _).symm
  · dsimp only [arriveAt]
    split
    · next hfound =>
      rw [hfound]
      exact sightings_foldl_record _ _ _
    · next hfound =>
      rw [hfound]
      exact (List.append_nil _).symm

theorem exists_sightings_readAll (statements : List Statement) :
    ∃ more, (readAll u flag r statements).sightings = r.sightings ++ more := by
  induction statements generalizing r with
  | nil => exact ⟨[], (List.append_nil _).symm⟩
  | cons s rest ih =>
    obtain ⟨more, hmore⟩ := ih (r := r.readOne u flag s rest)
    exact ⟨r.sighted u s rest ++ more, by rw [readAll, hmore, sightings_readOne, List.append_assoc]⟩

end Reading

namespace SourceUnit

variable {u : SourceUnit} {flag : Bool} {before after : List Statement} {s : Statement}

/-- What has been read of a unit up to the statements after a front. -/
def readingBefore (u : SourceUnit) (flag : Bool) (before after : List Statement) : Reading :=
  Reading.readFront u flag { imports := .empty u.identity.toList u.language } before after

theorem readingBefore_concat (u : SourceUnit) (flag : Bool) (before after : List Statement)
    (s : Statement) :
    u.readingBefore flag (before ++ [s]) after =
      (u.readingBefore flag before (s :: after)).readOne u flag s after :=
  Reading.readFront_concat before after s

/-- The sightings of a unit are those before a statement, its own, and more. -/
theorem exists_sightings (flag : Bool)
    (hstatements : (readStatements u.language u.text.toList).statements = before ++ s :: after) :
    ∃ later, (u.reading flag).sightings = (u.readingBefore flag before (s :: after)).sightings ++
      ((u.readingBefore flag before (s :: after)).sighted u s after ++ later) := by
  obtain ⟨later, hlater⟩ := @Reading.exists_sightings_readAll u flag
    ((u.readingBefore flag before (s :: after)).readOne u flag s after) after
  refine ⟨later, ?_⟩
  rw [← List.append_assoc, ← Reading.sightings_readOne, ← hlater, reading, hstatements,
    Reading.readAll_append]
  rfl

/-! ### Fragments -/

/-- How many fragments come of the sightings. -/
def fragmentCount (sightings : List Sighting) : Nat :=
  (sightings.filter fun s => s.emission.isFragment).length

theorem fragmentCount_append (xs ys : List Sighting) :
    fragmentCount (xs ++ ys) = fragmentCount xs + fragmentCount ys := by
  rw [fragmentCount, List.filter_append, List.length_append]
  rfl

/-- The fragments of a unit that come of one statement, given those before and after it. -/
def fragmentsOf (u : SourceUnit) (flag : Bool) (before : List Statement) (s : Statement)
    (after : List Statement) :
    List Fragment :=
  let r := u.readingBefore flag before (s :: after)
  ((u.report flag).fragments.drop (fragmentCount r.sightings)).take
  (fragmentCount (r.sighted u s after))

/-- The fragments that come of the statements after a front, one statement after the other. -/
def fragmentsFrom (u : SourceUnit) (flag : Bool) (before : List Statement) :
    List Statement → List Fragment
  | [] => []
  | s :: after => u.fragmentsOf flag before s after ++ u.fragmentsFrom flag (before ++ [s]) after

theorem fragmentsFrom_eq
    (hstatements : (readStatements u.language u.text.toList).statements = before ++ after) :
    u.fragmentsFrom flag before after =
      (u.report flag).fragments.drop
        (fragmentCount (u.readingBefore flag before after).sightings) := by
  induction after generalizing before with
  | nil =>
    have hall : u.reading flag = u.readingBefore flag before [] := by
      rw [reading, hstatements, Reading.readAll_append]
      rfl
    have hlength := (u.intact flag).fragments.length_eq
    rw [fragmentsFrom, ← hall, fragmentCount, hlength, List.drop_length]
  | cons s after ih =>
    rw [fragmentsFrom, ih (by rw [hstatements, List.append_assoc]; rfl), readingBefore_concat,
      Reading.sightings_readOne, fragmentCount_append, ← List.drop_drop, fragmentsOf]
    exact List.take_append_drop _ _

/-- The fragments of a unit are those of its statements in order. -/
theorem fragments_eq_fragmentsFrom (u : SourceUnit) (flag : Bool) :
    (u.report flag).fragments =
      u.fragmentsFrom flag [] (readStatements u.language u.text.toList).statements :=
  (@fragmentsFrom_eq u flag [] _ rfl).symm

/-- The fragments of a statement come of its sightings one by one. -/
theorem forall₂_fragmentsOf (flag : Bool)
    (hstatements : (readStatements u.language u.text.toList).statements = before ++ s :: after) :
    List.Forall₂ (u.FragmentOf flag (u.report flag).nodes)
      (((u.readingBefore flag before (s :: after)).sighted u s after).filter fun s =>
        s.emission.isFragment)
      (u.fragmentsOf flag before s after) := by
  obtain ⟨later, hsightings⟩ := exists_sightings flag hstatements
  have hfragments := (u.intact flag).fragments
  rw [hsightings, List.filter_append, List.filter_append] at hfragments
  have hown :=
    List.forall₂_take (fragmentCount ((u.readingBefore flag before (s :: after)).sighted u s after))
      (List.forall₂_drop (fragmentCount (u.readingBefore flag before (s :: after)).sightings)
        hfragments)
  rwa [fragmentCount, fragmentCount, List.drop_left, List.take_left] at hown

end SourceUnit

end EndpointCensus
