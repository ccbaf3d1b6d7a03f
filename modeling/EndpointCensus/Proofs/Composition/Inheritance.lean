import EndpointCensus.Proofs.Composition.Gathering
import Mathlib.Data.List.Nodup
import Mathlib.Tactic.SplitIfs

/-! The members that a class view exposes. They are those of the class itself, of the classes of the
corpus that it descends from, and of the framework bases of all of these. Each action has one
source, the first one in depth-first order over the bases. -/

namespace EndpointCensus

open Relation

namespace Resource

/-- All actions that a base implies are standard ones. -/
theorem standardAction?_of_mem_impliedActions {name : List Char} {action : String}
    (h : action ∈ impliedActions name) : (standardAction? action.toList).isSome = true := by
  have hstandard : ∀ a ∈ standardActions.map Prod.fst, (standardAction? a.toList).isSome =
      true := by decide
  refine hstandard action ?_
  revert h
  unfold impliedActions
  dsimp only
  split_ifs <;> revert action <;> decide

end Resource

namespace Corpus

/-- The actions that a framework base implies. -/
def impliedActions (resource : Bool) (base : Reference) : List String :=
  if resource then Resource.impliedActions base.name.toList
  else (ClassView.impliedMethods base.name.toList).map Method.verb

theorem map_action_impliedMembers (owner : Node) (resource : Bool) (base : Reference) :
    (impliedMembers owner resource base).map Member.action = impliedActions resource base := by
  cases resource with
  | false => simp [impliedMembers, impliedActions, Function.comp_def]
  | true =>
    simp only [impliedMembers, impliedActions, if_true, List.map_filterMap, Option.map_map,
      Function.comp_def]
    refine Eq.trans (List.filterMap_congr fun action haction => ?_) List.filterMap_some
    obtain ⟨found, hfound⟩ :=
      Option.isSome_iff_exists.mp (Resource.standardAction?_of_mem_impliedActions haction)
    rw [hfound]
    rfl

theorem someHas_impliedMembers {owner : Node} {resource : Bool} {base : Reference}
    {action : String} :
    Member.someHas action (impliedMembers owner resource base) = true ↔
    action ∈ impliedActions resource base := by
  rw [Member.someHas_iff, ← map_action_impliedMembers owner, List.mem_map]

variable {c : Corpus} {owner : Node} {resource : Bool} {i : Nat}

/-- A way up leads over classes of the corpus, and ends at one of them or at a base of it. -/
theorem LeadsUp.exists_class {below address : List Nat} {s : MemberSource}
    (h : c.LeadsUp below i address s) : ∃ j, ReflTransGen c.Extends i j ∧ (s = .own j ∨
      ∃ k base, s = .implied j k base ∧ base ∈ c.basesOf j ∧ c.parent? base = none) := by
  induction h with
  | own => exact ⟨_, .refl, .inl rfl⟩
  | implied hbase hnone => exact ⟨_, .refl, .inr ⟨_, _, rfl, List.mem_of_getElem? hbase, hnone⟩⟩
  | parent hbase hparent _ _ ih =>
    obtain ⟨j, hj, hs⟩ := ih
    exact ⟨j, .head ⟨_, List.mem_of_getElem? hbase, hparent⟩ hj, hs⟩

/-- All sources above a class, each with its address. -/
def sources (c : Corpus) (i : Nat) : List (List Nat × MemberSource) :=
  c.sourcesAbove (c.graph.size + 1) [] i

theorem gathers_members (howner : c.graph.nodes[i]? = some owner) (resource : Bool) :
    c.Gathers owner resource [] {} (c.gather owner resource (c.graph.size + 1) {} i)
      ((c.sources i).map Prod.snd) ∧
      i ∈ (c.gather owner resource (c.graph.size + 1) {} i).classes := by
  have hnone : c.Explored owner resource [] {} :=
    ⟨fun _ h => h, fun _ h => absurd h List.not_mem_nil, fun _ h => absurd h List.not_mem_nil⟩
  have hdepth : c.GathersAbove owner resource (c.graph.size + 1) [] :=
    gathersAbove .nil (fun _ h => absurd h List.not_mem_nil) (Nat.le_succ _)
  exact hdepth {} i hnone List.not_mem_nil (List.getElem?_eq_some_iff.mp howner).1

theorem members_eq_gather (howner : c.graph.nodes[i]? = some owner) :
    c.members resource i = (c.gather owner resource (c.graph.size + 1) {} i).members := by
  rw [members, howner]

theorem mem_sources (howner : c.graph.nodes[i]? = some owner) {address : List Nat}
    {s : MemberSource} : (address, s) ∈ c.sources i ↔ c.LeadsUp [] i address s := by
  refine ⟨leadsUp_of_mem_sourcesAbove, fun h => mem_sourcesAbove h (List.nodup_singleton i) ?_
    (Nat.le_succ _)⟩
  rw [List.forall_mem_singleton]
  exact (List.getElem?_eq_some_iff.mp howner).1

/-- The members of an action are those of the first source that has it. -/
theorem having_members (howner : c.graph.nodes[i]? = some owner) (action : String) :
    Member.having action (c.members resource i) = Member.having action
      ((((c.sources i).find? fun p => Member.someHas action (c.membersFrom owner resource p.2)).map
        fun p => c.membersFrom owner resource p.2).getD []) := by
  rw [members_eq_gather howner, (gathers_members howner resource).1.members,
    Member.having_foldl_join, List.map_map, List.find?_map]
  rfl

/-- An action is a member's exactly if a source has it. -/
theorem someHas_members (howner : c.graph.nodes[i]? = some owner) {action : String} :
    Member.someHas action (c.members resource i) = true ↔
      ∃ address s, c.LeadsUp [] i address s ∧
      Member.someHas action (c.membersFrom owner resource s) = true := by
  refine not_iff_not.mp ?_
  rw [Bool.not_eq_true, ← Member.having_eq_nil_iff, having_members howner]
  constructor
  · rintro h ⟨address, s, hs, hhas⟩
    rcases hfind : (c.sources i).find? fun p => Member.someHas action
      (c.membersFrom owner resource p.2) with _ | p
    · exact List.find?_eq_none.mp hfind (address, s) ((mem_sources howner).mpr hs) hhas
    · rw [hfind, Option.map_some, Option.getD_some, Member.having_eq_nil_iff, List.find?_some hfind]
        at h
      contradiction
  · intro h
    have hfind : (c.sources i).find? (fun p => Member.someHas action
        (c.membersFrom owner resource p.2)) = none :=
      List.find?_eq_none.mpr fun p hp hhas => h ⟨p.1, p.2, (mem_sources howner).mp hp, hhas⟩
    rw [hfind]
    rfl

/-- What a class that is reached over bases declares, and what the framework bases of it
imply, has been gathered. -/
theorem someHas_members_of_reaches (howner : c.graph.nodes[i]? = some owner) {j : Nat}
    (hreach : ReflTransGen c.Extends i j) :
    (∀ m ∈ c.ownMembers resource j, Member.someHas m.action (c.members resource i) = true) ∧
      ∀ base ∈ c.basesOf j, c.parent? base = none →
        ∀ action ∈ impliedActions resource base, Member.someHas action (c.members resource i) =
          true := by
  obtain ⟨⟨hexplored, -⟩, hi⟩ := gathers_members howner resource
  rw [members_eq_gather howner]
  have hj : j ∈ (c.gather owner resource (c.graph.size + 1) {} i).classes := by
    induction hreach with
    | refl => exact hi
    | tail _ hext ih =>
      obtain ⟨base, hbase, hparent⟩ := hext
      have htaken := hexplored.bases _ ih List.not_mem_nil base hbase
      rwa [Taken, hparent] at htaken
  refine ⟨hexplored.own j hj List.not_mem_nil, fun base hbase hnone action haction => ?_⟩
  have htaken := hexplored.bases j hj List.not_mem_nil base hbase
  rw [Taken, hnone] at htaken
  obtain ⟨m, hm, rfl⟩ := Member.someHas_iff.mp (someHas_impliedMembers.mpr haction)
  exact htaken m hm

/-- The actions of a class are those of all classes it descends from, and of their
bases that are no classes. -/
theorem someHas_members_iff (howner : c.graph.nodes[i]? = some owner) {action : String} :
    Member.someHas action (c.members resource i) = true ↔ ∃ j, ReflTransGen c.Extends i j ∧
      (Member.someHas action (c.ownMembers resource j) = true ∨
        ∃ base ∈ c.basesOf j, c.parent? base = none ∧ action ∈ impliedActions resource base) := by
  constructor
  · intro h
    obtain ⟨address, s, hs, hhas⟩ := (someHas_members howner).mp h
    obtain ⟨j, hreach, rfl | ⟨k, base, rfl, hbase, hnone⟩⟩ := hs.exists_class
    · exact ⟨j, hreach, .inl hhas⟩
    · exact ⟨j, hreach, .inr ⟨base, hbase, hnone, someHas_impliedMembers.mp hhas⟩⟩
  · rintro ⟨j, hreach, hown | ⟨base, hbase, hnone, haction⟩⟩
    · obtain ⟨m, hm, rfl⟩ := Member.someHas_iff.mp hown
      exact (someHas_members_of_reaches howner hreach).1 m hm
    · exact (someHas_members_of_reaches howner hreach).2 base hbase hnone action haction

/-- Every member comes from a source. -/
theorem exists_source_of_mem_members (howner : c.graph.nodes[i]? = some owner) {m : Member}
    (hm : m ∈ c.members resource i) :
    ∃ address s, c.LeadsUp [] i address s ∧ m ∈ c.membersFrom owner resource s := by
  have hhaving : m ∈ Member.having m.action (c.members resource i) :=
    List.mem_filter.mpr ⟨hm, beq_self_eq_true _⟩
  rw [having_members howner] at hhaving
  rcases hfind : (c.sources i).find? fun p => Member.someHas m.action
    (c.membersFrom owner resource p.2) with _ | p
  · rw [hfind] at hhaving
    exact absurd hhaving List.not_mem_nil
  · rw [hfind] at hhaving
    exact ⟨p.1, p.2, (mem_sources howner).mp (List.mem_of_find?_eq_some hfind),
      (List.mem_filter.mp hhaving).1⟩

/-- The members of a class, whatever its bases are. Gathering ends by itself. The actions are those
that the class, the classes it descends from and their framework bases have. The members of one
action are those of one source: of the class if it declares the action, and else of the first source
in depth-first order, which has the least address. -/
theorem members_from_first_source (c : Corpus) (resource : Bool) {i : Nat} {owner : Node}
    (howner : c.graph.nodes[i]? = some owner) :
    let members := c.members resource i
    (∀ extra, c.gather owner resource (c.graph.size + 1 + extra) {} i =
      c.gather owner resource (c.graph.size + 1) {} i) ∧
    (∀ action, Member.someHas action (c.ownMembers resource i) = true →
      Member.having action members = Member.having action (c.ownMembers resource i)) ∧
    (∀ action, Member.someHas action members = true ↔ ∃ j, ReflTransGen c.Extends i j ∧
      (Member.someHas action (c.ownMembers resource j) = true ∨
        ∃ base ∈ c.basesOf j, c.parent? base = none ∧ action ∈ impliedActions resource base)) ∧
    ∀ action, Member.someHas action members = true → ∃ address s, c.LeadsUp [] i address s ∧
      Member.someHas action (c.membersFrom owner resource s) = true ∧
      Member.having action members = Member.having action (c.membersFrom owner resource s) ∧
      ∀ address' s', c.LeadsUp [] i address' s' →
        Member.someHas action (c.membersFrom owner resource s') = true →
          address = address' ∨ address < address' := by
  intro members
  have hlt : ∀ x ∈ [i], x < c.graph.size := by
    rw [List.forall_mem_singleton]
    exact (List.getElem?_eq_some_iff.mp howner).1
  refine ⟨fun extra => ?_, fun action hown => ?_, fun action => someHas_members_iff howner,
    fun action h => ?_⟩
  · exact gather_add (fun _ h => absurd h List.not_mem_nil) (List.nodup_singleton i) hlt
      (Nat.le_succ _) extra
  · have hfirst : c.sources i = ([], .own i) :: (c.sources i).tail := rfl
    rw [having_members howner, hfirst, List.find?_cons_of_pos (by exact hown)]
    rfl
  · rcases hfind : (c.sources i).find? fun p => Member.someHas action
      (c.membersFrom owner resource p.2) with _ | p
    · obtain ⟨address, s, hs, hhas⟩ := (someHas_members howner).mp h
      exact absurd hhas (List.find?_eq_none.mp hfind (address, s) ((mem_sources howner).mpr hs))
    · obtain ⟨hhas, before, after, hsplit, hbefore⟩ := List.find?_eq_some_iff_append.mp hfind
      have hmem : p ∈ c.sources i := hsplit ▸ List.mem_append_right _ List.mem_cons_self
      refine ⟨p.1, p.2, (mem_sources howner).mp hmem, hhas, ?_, fun address' s' hs' hhas' => ?_⟩
      · rw [having_members howner, hfind]
        rfl
      -- The sources are sorted, and none before the first one that has the action has it.
      · have hsorted := pairwise_sourcesAbove (c := c) (c.graph.size + 1) [] i
        have hmem' := (mem_sources howner).mpr hs'
        rw [hsplit, List.mem_append, List.mem_cons] at hmem'
        rw [← sources, hsplit, List.pairwise_append, List.pairwise_cons] at hsorted
        rcases hmem' with hmem' | rfl | hmem'
        · have hnot := hbefore _ hmem'
          rw [hhas'] at hnot
          contradiction
        · exact .inl rfl
        · exact .inr (hsorted.2.1.1 _ hmem')

/-- Two ways lead up to one class, which descends from the first one again: every
action has its first source. -/
theorem members_from_first_source_diamond :
    let view (name : String) (bases : List Reference) : Node :=
      { unit := "v.py", module := "v", name, kind := .viewClass, bases, location := ⟨"v.py", 1⟩ }
    let handler (owner : String) (method : Method) : Fragment :=
      { method, path := "", symbol := owner ++ "." ++ method.verb, action := some method.verb,
        idiom := .classMethods
        location := ⟨"v.py", 2⟩, metadata := {}, key := some (.inUnit "v.py" "v" owner) }
    let here (name : String) : Reference := .inUnit "v.py" "v" name
    let nodes := [view "A" [here "B", here "C"], view "B" [here "D"],
      view "C" [here "D", .external "rest" "ListAPIView"],
      view "D" [here "A", .external "rest" "CreateAPIView"]]
    let c := Corpus.ofParts [handler "A" .delete, handler "D" .put, handler "C" .put] nodes
    (c.members false 0).map (fun m => (m.action, m.symbol)) =
        [("delete", "A.delete"), ("put", "D.put"), ("post", "A.post"), ("get", "A.get")] ∧
      ∀ action, Member.someHas action (c.members false 0) = true →
      ∃ address s, c.LeadsUp [] 0 address s := by
  intro view handler here nodes c
  have howner : c.graph.nodes[0]? = some (view "A" [here "B", here "C"]) := by decide +kernel
  refine ⟨by decide +kernel, fun action h => ?_⟩
  obtain ⟨-, -, -, hfirst⟩ := members_from_first_source c false howner
  obtain ⟨address, s, hs, -⟩ := hfirst action h
  exact ⟨address, s, hs⟩

end Corpus

end EndpointCensus
