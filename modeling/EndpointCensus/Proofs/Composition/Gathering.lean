import EndpointCensus.Proofs.Composition.Lineage
import Mathlib.Logic.Relation

/-! The members of a class. Gathering them looks at each class once, also where several ways lead up
to it. That makes no difference: all that lies above a class that was left is gathered by then. So
the members are those of the sources in depth-first order, and of each action the first source that
has it is the only one. -/

namespace EndpointCensus

open Relation

namespace Member

def someHas (action : String) (ms : List Member) : Bool := ms.any (·.action == action)

def having (action : String) (ms : List Member) : List Member := ms.filter (·.action == action)

/-- Members with those of a batch whose actions are new. -/
def join (ms batch : List Member) : List Member := ms ++ batch.filter fun m => !someHas m.action ms

variable {action : String} {ms batch : List Member}

theorem someHas_iff : someHas action ms = true ↔ ∃ m ∈ ms, m.action = action := by
  simp [someHas]

theorem having_eq_nil_iff : having action ms = [] ↔ someHas action ms = false := by
  rw [having, List.filter_eq_nil_iff, someHas, List.any_eq_false]

theorem having_join : having action (join ms batch) =
    if someHas action ms then having action ms else having action batch := by
  have hnew : having action (batch.filter fun m => !someHas m.action ms) =
      if someHas action ms then [] else having action batch := by
    rw [having, List.filter_filter]
    split
    next hold =>
      refine List.filter_eq_nil_iff.mpr fun m _ hm => ?_
      simp only [Bool.and_eq_true, beq_iff_eq] at hm
      rw [hm.1, hold] at hm
      exact absurd hm.2 (by decide)
    next hold =>
      refine List.filter_congr fun m _ => ?_
      by_cases hm : m.action = action
      · simp [hm, hold]
      · simp [hm]
  rw [join, having, List.filter_append]
  change having action ms ++ having action _ = _
  rw [hnew]
  split
  · exact List.append_nil _
  next hold => rw [having_eq_nil_iff.mpr (Bool.eq_false_iff.mpr hold), List.nil_append]

theorem someHas_join :
    someHas action (join ms batch) = (someHas action ms || someHas action batch) := by
  refine Bool.eq_iff_iff.mpr (Decidable.not_iff_not.mp ?_)
  rw [Bool.not_eq_true, Bool.not_eq_true, Bool.or_eq_false_iff, ← having_eq_nil_iff, having_join]
  split
  next hold => simp [having_eq_nil_iff, hold]
  next hold => simp [having_eq_nil_iff, Bool.eq_false_iff.mpr hold]

/-- Batches without a new action add nothing. -/
theorem foldl_join_of_known {batches : List (List Member)}
    (h : ∀ batch ∈ batches, ∀ m ∈ batch, someHas m.action ms = true) :
    batches.foldl join ms = ms := by
  induction batches with
  | nil => rfl
  | cons batch batches ih =>
    obtain ⟨hbatch, hrest⟩ := List.forall_mem_cons.mp h
    have hnone : batch.filter (fun m => !someHas m.action ms) = [] :=
      List.filter_eq_nil_iff.mpr fun m hm => by simp [hbatch m hm]
    rw [List.foldl_cons, join, hnone, List.append_nil, ih hrest]

/-- The members of one action are those that the first batch with the action has. -/
theorem having_foldl_join (batches : List (List Member)) (ms : List Member) :
    having action (batches.foldl join ms) =
    if someHas action ms then having action ms
    else having action ((batches.find? (someHas action)).getD []) := by
  induction batches generalizing ms with
  | nil =>
    split
    · rfl
    next hnone => exact having_eq_nil_iff.mpr (Bool.eq_false_iff.mpr hnone)
  | cons batch batches ih =>
    rw [List.foldl_cons, ih, someHas_join, having_join]
    rcases hold : someHas action ms with _ | _
    · rcases hbatch : someHas action batch with _ | _ <;> simp [hbatch]
    · simp

end Member

namespace Gathering

/-- What was entered and gathered stays so. -/
structure Grows (g g' : Gathering) : Prop where
  classes : ∀ x ∈ g.classes, x ∈ g'.classes
  members : ∀ action, Member.someHas action g.members = true →
    Member.someHas action g'.members = true

namespace Grows

theorem refl (g : Gathering) : g.Grows g := ⟨fun _ h => h, fun _ h => h⟩

theorem trans {g₁ g₂ g₃ : Gathering} (h : g₁.Grows g₂) (h' : g₂.Grows g₃) : g₁.Grows g₃ :=
  ⟨fun x hx => h'.classes x (h.classes x hx), fun a ha => h'.members a (h.members a ha)⟩

theorem foldl {α : Type} {step : Gathering → α → Gathering}
    (h : ∀ (g : Gathering) x, g.Grows (step g x)) (g : Gathering) (xs : List α) :
    g.Grows (xs.foldl step g) := by
  induction xs generalizing g with
  | nil => exact .refl g
  | cons x xs ih => exact (h g x).trans (ih (step g x))

end Grows

theorem members_addSource (g : Gathering) (batch : List Member) :
    (g.addSource batch).members = Member.join g.members batch := rfl

theorem grows_addSource (g : Gathering) (batch : List Member) : g.Grows (g.addSource batch) := by
  refine ⟨fun _ h => h, fun a ha => ?_⟩
  rw [members_addSource, Member.someHas_join, ha, Bool.true_or]

end Gathering

namespace Corpus

/-- The members that a source has for the class `owner`. -/
def membersFrom (c : Corpus) (owner : Node) (resource : Bool) : MemberSource → List Member
  | .own i => c.ownMembers resource i
  | .implied _ _ base => impliedMembers owner resource base

def takeBase (c : Corpus) (owner : Node) (resource : Bool) (fuel : Nat) (g : Gathering)
    (base : Reference) :
    Gathering :=
  match c.parent? base with
  | some j => c.gather owner resource fuel g j
  | none => g.addSource (impliedMembers owner resource base)

def enter (c : Corpus) (resource : Bool) (g : Gathering) (i : Nat) : Gathering :=
  { g with classes := i :: g.classes }.addSource (c.ownMembers resource i)

/-- A base has been dealt with: its class was entered, or what it implies is gathered. -/
def Taken (c : Corpus) (owner : Node) (resource : Bool) (g : Gathering) (base : Reference) : Prop :=
  match c.parent? base with
  | some j => j ∈ g.classes
  | none => ∀ m ∈ impliedMembers owner resource base, Member.someHas m.action g.members = true

/-- What was entered is dealt with, apart from the classes of `below`, which are
entered and not left yet. -/
structure Explored (c : Corpus) (owner : Node) (resource : Bool) (below : List Nat)
    (g : Gathering) : Prop where
  opened : ∀ x ∈ below, x ∈ g.classes
  own : ∀ x ∈ g.classes, x ∉ below → ∀ m ∈ c.ownMembers resource x,
    Member.someHas m.action g.members = true
  bases : ∀ x ∈ g.classes, x ∉ below → ∀ base ∈ c.basesOf x, c.Taken owner resource g base

/-- Gathering went on by the members of these sources. -/
structure Gathers (c : Corpus) (owner : Node) (resource : Bool) (below : List Nat)
    (g g' : Gathering) (sources : List MemberSource) : Prop where
  explored : c.Explored owner resource below g'
  members : g'.members = (sources.map (c.membersFrom owner resource)).foldl Member.join g.members

/-- To this depth, gathering from any class but those of `below` goes on by the members
of the sources above it. -/
def GathersAbove (c : Corpus) (owner : Node) (resource : Bool) (fuel : Nat) (below : List Nat) :
    Prop :=
  ∀ g i, c.Explored owner resource below g → i ∉ below → i < c.graph.size →
    c.Gathers owner resource below g (c.gather owner resource fuel g i)
      ((c.sourcesAbove fuel below i).map Prod.snd) ∧ i ∈ (c.gather owner resource fuel g i).classes

section
variable {c : Corpus} {owner : Node} {resource : Bool} {below : List Nat} {g g' g'' : Gathering}
  {i fuel : Nat} {base : Reference}

theorem gather_succ (c : Corpus) (owner : Node) (resource : Bool) (fuel : Nat) (g : Gathering)
    (i : Nat) : c.gather owner resource (fuel + 1) g i = if g.classes.contains i then g
      else (c.basesOf i).foldl (c.takeBase owner resource fuel) (c.enter resource g i) := rfl

/-- A class that was entered is not entered again. -/
theorem gather_of_mem (h : i ∈ g.classes) (fuel : Nat) : c.gather owner resource fuel g i = g := by
  cases fuel with
  | zero => rfl
  | succ fuel => rw [gather_succ, if_pos (List.contains_iff_mem.mpr h)]

/-! ### What is gathered stays -/

theorem grows_enter (g : Gathering) (i : Nat) : g.Grows (c.enter resource g i) := by
  have hopen : g.Grows { g with classes := i :: g.classes } :=
    ⟨fun _ h => List.mem_cons_of_mem i h, fun _ h => h⟩
  exact hopen.trans (Gathering.grows_addSource _ _)

theorem grows_gather (fuel : Nat) (g : Gathering) (i : Nat) :
    g.Grows (c.gather owner resource fuel g i) := by
  induction fuel generalizing g i with
  | zero => exact .refl g
  | succ fuel ih =>
    rw [gather_succ]
    split
    · exact .refl g
    · refine (grows_enter g i).trans (.foldl (fun g base => ?_) _ _)
      unfold takeBase
      split
      · exact ih g _
      · exact g.grows_addSource _

theorem grows_takeBase (g : Gathering) (base : Reference) :
    g.Grows (c.takeBase owner resource fuel g base) := by
  unfold takeBase
  split
  · exact grows_gather fuel g _
  · exact g.grows_addSource _

theorem Taken.mono (h : c.Taken owner resource g base) (hg : g.Grows g') :
    c.Taken owner resource g' base := by
  unfold Taken at h ⊢
  split at h
  · exact hg.classes _ h
  · exact fun m hm => hg.members _ (h m hm)

/-! ### No more depth -/

/-- The depth is never used up. -/
theorem gather_add (hbelow : ∀ x ∈ below, x ∈ g.classes) (hnodup : (i :: below).Nodup)
    (hlt : ∀ x ∈ i :: below, x < c.graph.size) (hfuel : c.graph.size ≤ fuel + below.length)
    (extra : Nat) :
    c.gather owner resource (fuel + extra) g i = c.gather owner resource fuel g i := by
  induction fuel generalizing below g i with
  | zero =>
    obtain ⟨_, h⟩ := exists_fuel_eq_succ hnodup hlt hfuel
    contradiction
  | succ fuel ih =>
    rw [Nat.succ_add, gather_succ, gather_succ]
    split
    · rfl
    · -- The classes on the way are entered before the bases are looked at, and they stay so.
      have hopen : ∀ x ∈ i :: below, x ∈ (c.enter resource g i).classes :=
        fun x hx => List.cons_subset_cons i hbelow hx
      generalize c.enter resource g i = own at hopen
      induction c.basesOf i generalizing own with
      | nil => rfl
      | cons base bases ihbases =>
        have hstep : c.takeBase owner resource (fuel + extra) own base =
            c.takeBase owner resource fuel own base := by
          unfold takeBase
          split
          next j hj =>
            by_cases hold : j ∈ own.classes
            · rw [gather_of_mem hold, gather_of_mem hold]
            · refine ih hopen (List.nodup_cons.mpr ⟨fun h => hold (hopen j h), hnodup⟩)
                (List.forall_mem_cons.mpr ⟨lt_size_of_parent? hj, hlt⟩) ?_
              rw [List.length_cons]
              omega
          · rfl
        rw [List.foldl_cons, List.foldl_cons, hstep]
        exact ihbases _ fun x hx => (grows_takeBase own base).classes x (hopen x hx)

/-! ### What is gathered -/

/-- Whatever leads up from a class that was left is gathered already. -/
theorem Explored.someHas {entered : List Nat} (h : c.Explored owner resource entered g)
    {address : List Nat} {s : MemberSource} (hs : c.LeadsUp below i address s)
    (hsub : ∀ x ∈ entered, x ∈ below) (hi : i ∈ g.classes) (hleft : i ∉ entered) :
    ∀ m ∈ c.membersFrom owner resource s, Member.someHas m.action g.members = true := by
  induction hs with
  | own => exact h.own _ hi hleft
  | implied hbase hnone =>
    have htaken := h.bases _ hi hleft _ (List.mem_of_getElem? hbase)
    rw [Taken, hnone] at htaken
    exact htaken
  | @parent below i k j base address s hbase hparent hnew _ ih =>
    have htaken := h.bases _ hi hleft _ (List.mem_of_getElem? hbase)
    rw [Taken, hparent] at htaken
    have hsub' : ∀ x ∈ entered, x ∈ i :: below := fun x hx => List.mem_cons_of_mem i (hsub x hx)
    exact ih hsub' htaken fun hj => hnew (hsub' j hj)

theorem Gathers.trans {sources sources' : List MemberSource}
    (h : c.Gathers owner resource below g g' sources)
    (h' : c.Gathers owner resource below g' g'' sources') :
    c.Gathers owner resource below g g'' (sources ++ sources') := by
  refine ⟨h'.explored, ?_⟩
  rw [h'.members, h.members, List.map_append, List.foldl_append]

/-- A class that is entered is the next one to be left. -/
theorem Explored.enter (hg : c.Explored owner resource below g) (i : Nat) :
    c.Explored owner resource (i :: below) (c.enter resource g i) := by
  have hgrows : g.Grows (c.enter resource g i) := grows_enter g i
  have hold : ∀ x ∈ (c.enter resource g i).classes, x ∉ i :: below → x ∈ g.classes ∧ x ∉ below := by
    intro x hx hleft
    obtain ⟨hne, hnot⟩ := List.ne_and_not_mem_of_not_mem_cons hleft
    exact ⟨(List.mem_cons.mp hx).resolve_left hne, hnot⟩
  refine ⟨fun x hx => List.cons_subset_cons i hg.opened hx, fun x hx hleft m hm => ?_,
    fun x hx hleft base hbase => ?_⟩
  · obtain ⟨hx, hleft⟩ := hold x hx hleft
    exact hgrows.members _ (hg.own x hx hleft m hm)
  · obtain ⟨hx, hleft⟩ := hold x hx hleft
    exact (hg.bases x hx hleft base hbase).mono hgrows

/-- A class whose own members are gathered and whose bases are dealt with can be left. -/
theorem Explored.leave (hg : c.Explored owner resource (i :: below) g)
    (hown : ∀ m ∈ c.ownMembers resource i, Member.someHas m.action g.members = true)
    (hbases : ∀ base ∈ c.basesOf i, c.Taken owner resource g base) :
    c.Explored owner resource below g := by
  refine ⟨fun x hx => hg.opened x (List.mem_cons_of_mem i hx), fun x hx hleft => ?_,
    fun x hx hleft => ?_⟩
  · by_cases hxi : x = i
    · exact hxi ▸ hown
    · exact hg.own x hx (List.not_mem_cons_of_ne_of_not_mem hxi hleft)
  · by_cases hxi : x = i
    · exact hxi ▸ hbases
    · exact hg.bases x hx (List.not_mem_cons_of_ne_of_not_mem hxi hleft)

theorem someHas_enter (g : Gathering) {m : Member} (hm : m ∈ c.ownMembers resource i) :
    Member.someHas m.action (c.enter resource g i).members = true := by
  rw [enter, Gathering.members_addSource, Member.someHas_join, Member.someHas_iff.mpr ⟨m, hm, rfl⟩,
    Bool.or_true]

/-- Gathering goes on at one base. -/
theorem gathers_takeBase {k : Nat} (hnext : c.GathersAbove owner resource fuel (i :: below))
    (hg : c.Explored owner resource (i :: below) g) (base : Reference) :
    c.Gathers owner resource (i :: below) g (c.takeBase owner resource fuel g base)
      ((c.sourcesOfBase below i (c.sourcesAbove fuel (i :: below)) base k).map Prod.snd) ∧
    c.Taken owner resource (c.takeBase owner resource fuel g base) base := by
  unfold takeBase sourcesOfBase Taken
  rcases hparent : c.parent? base with _ | j
  · have hgrows := g.grows_addSource (impliedMembers owner resource base)
    refine ⟨⟨⟨hg.opened, ?_, ?_⟩, rfl⟩, ?_⟩
    · exact fun x hx hleft m hm => hgrows.members _ (hg.own x hx hleft m hm)
    · exact fun x hx hleft base' hbase' => (hg.bases x hx hleft base' hbase').mono hgrows
    · intro m hm
      rw [Gathering.members_addSource, Member.someHas_join, Member.someHas_iff.mpr ⟨m, hm, rfl⟩,
        Bool.or_true]
  · dsimp only
    by_cases hold : j ∈ i :: below
    · rw [gather_of_mem (hg.opened j hold), if_pos hold]
      exact ⟨⟨hg, rfl⟩, hg.opened j hold⟩
    · rw [if_neg hold, List.map_map]
      exact hnext g j hg hold (lt_size_of_parent? hparent)

/-- Gathering goes on at all bases, one after the other. -/
theorem gathers_foldl_takeBase (hnext : c.GathersAbove owner resource fuel (i :: below))
    (hg : c.Explored owner resource (i :: below) g) (bases : List Reference) (k : Nat) :
    c.Gathers owner resource (i :: below) g (bases.foldl (c.takeBase owner resource fuel) g)
      (((bases.zipIdx k).flatMap fun (base, k) =>
        c.sourcesOfBase below i (c.sourcesAbove fuel (i :: below)) base k).map Prod.snd) ∧
    ∀ base ∈ bases, c.Taken owner resource (bases.foldl (c.takeBase owner resource fuel) g) base := by
  induction bases generalizing g k with
  | nil => exact ⟨⟨hg, rfl⟩, fun _ h => absurd h List.not_mem_nil⟩
  | cons base bases ihbases =>
    obtain ⟨hfirst, htaken⟩ := gathers_takeBase (k := k) hnext hg base
    obtain ⟨hrest, htakens⟩ := ihbases hfirst.explored (k + 1)
    refine ⟨?_, List.forall_mem_cons.mpr ⟨htaken.mono (.foldl grows_takeBase _ bases), htakens⟩⟩
    rw [List.zipIdx_cons, List.flatMap_cons, List.map_append]
    exact hfirst.trans hrest

/-- Gathering goes on by the members of all sources above a class, although it
looks at each class once. -/
theorem gathersAbove (hnodup : below.Nodup) (hlt : ∀ x ∈ below, x < c.graph.size)
    (hfuel : c.graph.size ≤ fuel + below.length) : c.GathersAbove owner resource fuel below := by
  intro g i hg hleft hi
  have hnodup' : (i :: below).Nodup := List.nodup_cons.mpr ⟨hleft, hnodup⟩
  have hlt' : ∀ x ∈ i :: below, x < c.graph.size := List.forall_mem_cons.mpr ⟨hi, hlt⟩
  induction fuel generalizing below g i with
  | zero =>
    obtain ⟨_, h⟩ := exists_fuel_eq_succ hnodup' hlt' hfuel
    contradiction
  | succ fuel ih =>
    by_cases hold : i ∈ g.classes
    · -- The class was left before, so nothing above it is new.
      rw [gather_of_mem hold]
      refine ⟨⟨hg, (Member.foldl_join_of_known fun batch hbatch => ?_).symm⟩, hold⟩
      simp only [List.map_map, List.mem_map, Function.comp_apply, Prod.exists] at hbatch
      obtain ⟨address, s, hs, rfl⟩ := hbatch
      exact hg.someHas (leadsUp_of_mem_sourcesAbove hs) (fun _ h => h) hold hleft
    · rw [gather_succ, if_neg (by simpa using hold)]
      have hfuel' : c.graph.size ≤ fuel + (i :: below).length := by
        rw [List.length_cons]
        omega
      have hnext : c.GathersAbove owner resource fuel (i :: below) := fun g j hg hj hjlt =>
        ih hnodup' hlt' hfuel' g j hg hj hjlt (List.nodup_cons.mpr ⟨hj, hnodup'⟩)
          (List.forall_mem_cons.mpr ⟨hjlt, hlt'⟩)
      obtain ⟨hgathers, htaken⟩ := gathers_foldl_takeBase hnext (hg.enter i) (c.basesOf i) 0
      have hgrows : (c.enter resource g i).Grows
          ((c.basesOf i).foldl (c.takeBase owner resource fuel) _) :=
        .foldl grows_takeBase _ _
      refine ⟨⟨hgathers.explored.leave (fun m hm => hgrows.members _ (someHas_enter g hm)) htaken,
        ?_⟩, hgrows.classes i List.mem_cons_self⟩
      rw [hgathers.members]
      rfl

end

end Corpus
end EndpointCensus
