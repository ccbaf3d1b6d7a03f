import EndpointCensus.Composition.Compose

/-! Which fragments of a corpus go to nodes and which are endpoints at once. A composition is the
walks of the fragments without a node, one after the other, and then the walk of the corpus; only
findings that repeat an earlier one are left out. -/

namespace EndpointCensus

namespace Walk

@[ext] theorem ext' {a b : Walk} (he : a.endpoints = b.endpoints)
    (hd : a.diagnostics = b.diagnostics) (hn : a.entered = b.entered) : a = b := by
  cases a; cases b; simp_all

@[simp] theorem endpoints_append (a b : Walk) : (a ++ b).endpoints = a.endpoints ++ b.endpoints :=
  rfl

@[simp] theorem diagnostics_append (a b : Walk) :
    (a ++ b).diagnostics = a.diagnostics ++ b.diagnostics := rfl

@[simp] theorem entered_append (a b : Walk) : (a ++ b).entered = a.entered ++ b.entered := rfl

theorem append_assoc (a b c : Walk) : a ++ b ++ c = a ++ (b ++ c) := by
  ext1 <;> simp

@[simp] theorem empty_append (a : Walk) : ({} : Walk) ++ a = a := by
  ext1 <;> simp

@[simp] theorem append_empty (a : Walk) : a ++ ({} : Walk) = a := by
  ext1 <;> simp

@[simp] theorem concat_nil : concat [] = ({} : Walk) := rfl

theorem foldl_append (w : Walk) (ws : List Walk) : ws.foldl (· ++ ·) w = w ++ concat ws := by
  induction ws generalizing w with
  | nil => simp
  | cons v ws ih =>
    have hv : concat (v :: ws) = v ++ concat ws := by
      rw [concat, List.foldl_cons, ih, empty_append]
    rw [List.foldl_cons, ih, hv, append_assoc]

@[simp] theorem concat_cons (w : Walk) (ws : List Walk) : concat (w :: ws) = w ++ concat ws := by
  rw [concat, List.foldl_cons, foldl_append, empty_append]

theorem concat_append (ws vs : List Walk) : concat (ws ++ vs) = concat ws ++ concat vs := by
  induction ws with
  | nil => simp
  | cons w ws ih => rw [List.cons_append, concat_cons, ih, concat_cons, append_assoc]

/-- Walks made of parts are the parts of all of them in order. -/
theorem concat_map_concat {α : Type} (f : α → List Walk) (xs : List α) :
    concat (xs.map fun x => concat (f x)) = concat (xs.flatMap f) := by
  induction xs with
  | nil => rfl
  | cons x xs ih => rw [List.map_cons, concat_cons, ih, List.flatMap_cons, concat_append]

theorem endpoints_concat (ws : List Walk) : (concat ws).endpoints = ws.flatMap endpoints := by
  induction ws with
  | nil => rfl
  | cons w ws ih => simp [ih]

theorem diagnostics_concat (ws : List Walk) : (concat ws).diagnostics = ws.flatMap diagnostics := by
  induction ws with
  | nil => rfl
  | cons w ws ih => simp [ih]

theorem entered_concat (ws : List Walk) : (concat ws).entered = ws.flatMap entered := by
  induction ws with
  | nil => rfl
  | cons w ws ih => simp [ih]

@[simp] theorem endpoints_emit (es : List Endpoint) : (emit es).endpoints = es := rfl

@[simp] theorem diagnostics_emit (es : List Endpoint) : (emit es).diagnostics = [] := rfl

@[simp] theorem entered_emit (es : List Endpoint) : (emit es).entered = [] := rfl

@[simp] theorem endpoints_report (l : Location) (i : Issue) : (report l i).endpoints = [] := rfl

@[simp] theorem diagnostics_report (l : Location) (i : Issue) :
    (report l i).diagnostics = [⟨l, i⟩] := rfl

@[simp] theorem entered_report (l : Location) (i : Issue) : (report l i).entered = [] := rfl

end Walk

namespace Graph

/-- The node that a fragment belongs to. -/
def home? (g : Graph) (f : Fragment) : Option Nat := f.key.bind g.lookup?

end Graph

namespace Composition

/-! ### Assignment -/

/-- What a fragment comes to by itself: nothing when it belongs to a node. -/
def stray (g : Graph) (f : Fragment) : Walk :=
  match f.key with
  | none => .emit [({} : Frame).ofFragment f]
  | some key =>
    match g.lookup? key with
    | some _ => {}
    | none =>
      .emit [looseEndpoint f key.message] ++ .report f.location (.unresolvedReference key.message)

theorem assign_eq (g : Graph) (a : Assignment) (f : Fragment) :
    assign g a f = ⟨a.owned ++ ((g.home? f).map fun i => (i, f)).toList, a.walk ++ stray g f⟩ := by
  unfold assign stray Graph.home?
  rcases hk : f.key with _ | key
  · simp
  · rcases hl : g.lookup? key with _ | i <;> simp [hl]

/-- Fragments are assigned one by one, so what each comes to does not depend on the others. -/
theorem foldl_assign (g : Graph) (a : Assignment) (fs : List Fragment) :
    fs.foldl (assign g) a =
      ⟨a.owned ++ fs.filterMap fun f => (g.home? f).map fun i => (i, f),
        a.walk ++ .concat (fs.map (stray g))⟩ := by
  induction fs generalizing a with
  | nil => simp
  | cons f fs ih =>
    rw [List.foldl_cons, ih, assign_eq, List.map_cons, Walk.concat_cons, Walk.append_assoc,
      List.append_assoc]
    rcases h : g.home? f with _ | i <;> simp [h]

end Composition

namespace Corpus

/-- The corpus of fragments and nodes: stand-ins resolved, and the fragments at their nodes. -/
def ofParts (fragments : List Fragment) (nodes : List Node) : Corpus :=
  let graph := (Graph.ofNodes nodes).absorbAll.1
  ⟨graph, fragments.filterMap fun f => (graph.home? f).map fun i => (i, f)⟩

@[simp] theorem graph_ofParts (fragments : List Fragment) (nodes : List Node) :
    (ofParts fragments nodes).graph = (Graph.ofNodes nodes).absorbAll.1 := rfl

theorem fragmentsOf_ofParts (fragments : List Fragment) (nodes : List Node) (i : Nat) :
    (ofParts fragments nodes).fragmentsOf i =
      fragments.filter fun f => (ofParts fragments nodes).graph.home? f == some i := by
  simp only [fragmentsOf, ofParts]
  induction fragments with
  | nil => rfl
  | cons f fs ih =>
    rcases h : (Graph.ofNodes nodes).absorbAll.1.home? f with _ | j
    · simpa [List.filterMap_cons, List.filter_cons, h] using ih
    · by_cases hj : j = i <;> simpa [List.filterMap_cons, List.filter_cons, h, hj] using ih

end Corpus

namespace Composition

/-- The endpoints of a composition: those of the fragments without a node, then
those of the walk. -/
theorem endpoints_ofParts (fragments : List Fragment) (nodes : List Node) :
    (ofParts fragments nodes).endpoints =
      fragments.flatMap (fun f => (stray (Corpus.ofParts fragments nodes).graph f).endpoints) ++
        (Corpus.ofParts fragments nodes).walk.endpoints := by
  simp only [ofParts, foldl_assign, Walk.empty_append, Walk.endpoints_concat, List.flatMap_map]
  rfl

/-- The findings of a composition before those that repeat an earlier one are left out. -/
def findings (fragments : List Fragment) (nodes : List Node) : List Diagnostic :=
  let c := Corpus.ofParts fragments nodes
  (Graph.ofNodes nodes).absorbAll.2 ++ fragments.flatMap (fun f => (stray c.graph f).diagnostics) ++
    c.walk.diagnostics ++ c.unreachable c.walk.entered

/-! ### Findings -/

theorem message_unresolvedReference (r : String) :
    (Issue.unresolvedReference r).message = "unresolved reference `" ++ r ++ "`" := rfl

theorem message_cyclicInclusion (r : String) :
    (Issue.cyclicInclusion r).message = "cyclic inclusion through `" ++ r ++ "`" := rfl

/-- Findings of a composition are told apart by their texts. -/
theorem issue_eq_of_message_eq {i j : Issue} (hi : i.category = .composition)
    (hj : j.category = .composition) (h : i.message = j.message) : i = j := by
  have hhead := congrArg (fun s => s.toList.head?) h
  have hlist := congrArg String.toList h
  cases i <;> cases hi <;> cases j <;> cases hj
  · simp only [message_unresolvedReference, String.toList_append, List.append_cancel_right_eq,
      List.append_cancel_left_eq] at hlist
    rw [String.toList_injective hlist]
  · simp [message_unresolvedReference, message_cyclicInclusion, String.toList_append] at hhead
  · simp [message_unresolvedReference, message_cyclicInclusion, String.toList_append] at hhead
  · simp only [message_cyclicInclusion, String.toList_append, List.append_cancel_right_eq,
      List.append_cancel_left_eq] at hlist
    rw [String.toList_injective hlist]

/-- The findings seen so far with one more, unless it repeats one of them. -/
def note (seen : List Diagnostic) (d : Diagnostic) : List Diagnostic :=
  if seen.any fun e => e.location == d.location && e.issue.message == d.issue.message then seen
  else seen ++ [d]

theorem mem_note {seen : List Diagnostic} {d x : Diagnostic} (hd : d.issue.category = .composition)
    (hs : ∀ e ∈ seen, e.issue.category = .composition) : x ∈ note seen d ↔ x ∈ seen ∨ x = d := by
  unfold note
  split
  case isFalse => simp
  case isTrue h =>
    obtain ⟨e, he, hed⟩ := List.any_eq_true.mp h
    simp only [Bool.and_eq_true, beq_iff_eq] at hed
    have hde : e = d := by
      have hissue := issue_eq_of_message_eq (hs e he) hd hed.2
      cases e; cases d; simp_all
    constructor
    · exact Or.inl
    · rintro (hx | rfl)
      · exact hx
      · exact hde ▸ he

theorem mem_foldl_note {ds seen : List Diagnostic} (hds : ∀ d ∈ ds, d.issue.category = .composition)
    (hs : ∀ e ∈ seen, e.issue.category = .composition) (x : Diagnostic) :
    x ∈ ds.foldl note seen ↔ x ∈ seen ∨ x ∈ ds := by
  induction ds generalizing seen with
  | nil => simp
  | cons d ds ih =>
    have hd := hds d (by simp)
    have hnote : ∀ e ∈ note seen d, e.issue.category = .composition := by
      intro e he
      rcases (mem_note hd hs).mp he with he | rfl
      · exact hs e he
      · exact hd
    rw [List.foldl_cons, ih (fun e he => hds e (by simp [he])) hnote, mem_note hd hs]
    simp [or_assoc]

/-- Leaving out repetitions loses no finding about a composition. -/
theorem mem_distinct {ds : List Diagnostic} (hds : ∀ d ∈ ds, d.issue.category = .composition)
    (x : Diagnostic) : x ∈ distinct ds ↔ x ∈ ds := by
  have h : distinct ds = ds.foldl note [] := rfl
  rw [h, mem_foldl_note hds (by simp)]
  simp

theorem diagnostics_ofParts (fragments : List Fragment) (nodes : List Node) :
    (ofParts fragments nodes).diagnostics = distinct (findings fragments nodes) := by
  simp only [ofParts, findings, foldl_assign, Walk.empty_append, Walk.diagnostics_concat,
    List.flatMap_map]
  rfl

end Composition

end EndpointCensus
