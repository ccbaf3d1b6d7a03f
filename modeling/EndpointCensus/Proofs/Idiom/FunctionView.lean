import EndpointCensus.Idiom.Match

/-! Which statements declare function views. Only a decorator that names the methods of a
function does, and it gives the view a route for each of them. So no function view is
declared without a route. -/

namespace EndpointCensus

namespace Emission

def functionView? : Emission → Option (List Char)
  | node name .viewFunction _ _ _ _ => some name
  | _ => none

/-- The router or view that a fragment is registered on. -/
def receiver? : Emission → Option (List Char)
  | fragment receiver _ _ _ _ _ _ => receiver
  | _ => none

theorem functionView?_node {kind : NodeKind} (hk : kind ≠ .viewFunction) (name path : List Char)
    (metadata : Metadata) (bases : List (List Char)) (line : Nat) :
    (node name kind path metadata bases line).functionView? = none := by
  cases kind <;> first | rfl | exact absurd rfl hk

end Emission

/-- No function view is declared. -/
def Viewless (es : List Emission) : Prop := ∀ e ∈ es, e.functionView? = none

/-- Every function view that is declared has a route. -/
def Supplied (es : List Emission) : Prop :=
  ∀ e ∈ es, ∀ name, e.functionView? = some name → ∃ f ∈ es, f.receiver? = some name

theorem Viewless.supplied {es : List Emission} (h : Viewless es) : Supplied es := by
  intro e he name hname
  rw [h e he] at hname
  contradiction

theorem viewless_nil : Viewless [] := fun _ h => absurd h List.not_mem_nil

theorem viewless_cons {e : Emission} {es : List Emission} (he : e.functionView? = none)
    (hes : Viewless es) : Viewless (e :: es) := List.forall_mem_cons.mpr ⟨he, hes⟩

theorem viewless_singleton {e : Emission} (he : e.functionView? = none) : Viewless [e] :=
  viewless_cons he viewless_nil

theorem viewless_append {es fs : List Emission} (he : Viewless es) (hf : Viewless fs) :
    Viewless (es ++ fs) :=
  List.forall_mem_append.mpr ⟨he, hf⟩

theorem viewless_map {α : Type} {f : α → Emission} (hf : ∀ a, (f a).functionView? = none)
    (xs : List α) : Viewless (xs.map f) := by
  intro e he
  obtain ⟨a, -, rfl⟩ := List.mem_map.mp he
  exact hf a

theorem viewless_filterMap {α : Type} {f : α → Option Emission}
    (hf : ∀ a e, f a = some e → e.functionView? = none) (xs : List α) :
    Viewless (xs.filterMap f) := by
  intro e he
  obtain ⟨a, -, ha⟩ := List.mem_filterMap.mp he
  exact hf a e ha

theorem viewless_flatMap {α : Type} {f : α → List Emission} (hf : ∀ a, Viewless (f a))
    (xs : List α) : Viewless (xs.flatMap f) := by
  intro e he
  obtain ⟨a, -, ha⟩ := List.mem_flatMap.mp he
  exact hf a e ha

/-- What is read, if anything is, declares no function view. -/
def ReadsNoView (o : Option (List Emission)) : Prop := ∀ es, o = some es → Viewless es

namespace ReadsNoView

theorem none : ReadsNoView .none := fun _ h => by contradiction

theorem some {es : List Emission} (h : Viewless es) : ReadsNoView (.some es) := by
  intro fs hfs
  cases hfs
  exact h

theorem bind {α : Type} {o : Option α} {f : α → Option (List Emission)}
    (h : ∀ a, ReadsNoView (f a)) : ReadsNoView (o.bind f) := by
  intro es hes
  obtain ⟨a, -, ha⟩ := Option.bind_eq_some_iff.mp hes
  exact h a es ha

theorem ite {p : Prop} [Decidable p] {o q : Option (List Emission)} (ho : ReadsNoView o)
    (hq : ReadsNoView q) : ReadsNoView (if p then o else q) := by
  split
  · exact ho
  · exact hq

theorem map {α : Type} {o : Option α} {f : α → List Emission}
    (h : ∀ a, o = .some a → Viewless (f a)) : ReadsNoView (o.map f) := by
  intro es hes
  obtain ⟨a, ha, rfl⟩ := Option.map_eq_some_iff.mp hes
  exact h a ha

theorem or {o p : Option (List Emission)} (ho : ReadsNoView o) (hp : ReadsNoView p) :
    ReadsNoView (o.or p) := by
  intro es hes
  rcases Option.or_eq_some_iff.mp hes with h | ⟨-, h⟩
  · exact ho es h
  · exact hp es h

end ReadsNoView

/-! ### Decorators -/

namespace Decorator

theorem readsNoView_constructed? (c : Context) (e : Expr) : ReadsNoView (constructed? c e) := by
  refine .bind fun a => ?_
  split
  · exact .some (viewless_singleton (Emission.functionView?_node (by decide) _ _ _ _ _))
  · exact .none

theorem readsNoView_included? (c : Context) (e : Expr) : ReadsNoView (included? c e) := by
  refine .bind ?_
  rintro ⟨parent, verb, args⟩
  dsimp only
  split
  · exact .none
  · refine .bind ?_
    rintro ⟨child, path⟩
    dsimp only
    split <;> exact .bind fun target => .some (viewless_singleton rfl)

theorem readsNoView_applied? (c : Context) (e : Expr) : ReadsNoView (applied? c e) := by
  refine .bind fun p => .bind fun application => ?_
  split
  · exact .none
  · refine .bind fun handler => ?_
    exact .some (viewless_map (fun _ => rfl) _)

/-- A decorator that names methods names at least one. -/
theorem ne_nil_of_read?_hint {body : Expr} {methods : List Method}
    (h : read? body = some (.hint methods)) : methods ≠ [] := by
  obtain ⟨⟨callee, args⟩, -, h⟩ := Option.bind_eq_some_iff.mp h
  dsimp only at h
  rcases hhinted : hinted (Text.lastSegment callee) args with _ | ⟨method, others⟩
  · simp only [hhinted] at h
    split at h
    · split at h
      · cases h
      · split at h <;> cases h
    · cases h
  · have hhint : some (Reading.hint (method :: others)) = some (.hint methods) → methods ≠ [] := by
      intro heq
      cases heq
      exact List.cons_ne_nil method others
    simp only [hhinted] at h
    split at h
    · split at h
      · cases h
      · split at h
        · cases h
        · exact hhint h
    · exact hhint h

/-- The view that a decorator declares has a route for each of the methods. -/
theorem supplied_decorated? (c : Context) (body : Expr) {es : List Emission}
    (h : decorated? c body = some es) : Supplied es := by
  obtain ⟨reading, hreading, h⟩ := Option.bind_eq_some_iff.mp h
  obtain ⟨target, -, h⟩ := Option.bind_eq_some_iff.mp h
  cases reading with
  | route receiver methods args =>
    have hroute : Viewless es := by
      dsimp only at h
      split at h
      · cases h
        exact viewless_singleton rfl
      · cases h
        exact viewless_map (fun _ => rfl) _
    exact hroute.supplied
  | hint methods =>
    dsimp only at h
    split at h
    · contradiction
    · cases h
      intro e he name hname
      obtain ⟨method, hmethod⟩ := List.exists_mem_of_ne_nil methods (ne_nil_of_read?_hint hreading)
      rcases List.mem_cons.mp he with rfl | he
      · cases hname
        exact ⟨_, List.mem_cons_of_mem _ (List.mem_map.mpr ⟨method, hmethod, rfl⟩), rfl⟩
      · obtain ⟨_, -, rfl⟩ := List.mem_map.mp he
        contradiction

theorem supplied_match? (c : Context) {es : List Emission} (h : match? c = some es) :
    Supplied es := by
  unfold match? at h
  dsimp only at h
  split at h
  · exact supplied_decorated? c _ h
  · have hreads := (readsNoView_constructed? c c.expr).or
      ((readsNoView_included? c c.expr).or (readsNoView_applied? c c.expr))
    exact (hreads es h).supplied

end Decorator

/-! ### Classes -/

namespace Resource

theorem readsNoView_constructed? (c : Context) (e : Expr) : ReadsNoView (constructed? c e) := by
  refine .bind fun a => ?_
  split
  · exact .some (viewless_singleton (Emission.functionView?_node (by decide) _ _ _ _ _))
  · exact .none

theorem readsNoView_registered? (c : Context) (e : Expr) : ReadsNoView (registered? c e) := by
  refine .bind ?_
  rintro ⟨router, member, args⟩
  dsimp only
  split
  · exact .none
  · exact .bind fun path => .bind fun viewSet => .some (viewless_singleton rfl)

theorem readsNoView_extraAction? (c : Context) (owner : List Char) (body : Expr) :
    ReadsNoView (extraAction? c owner body) := by
  refine .bind fun p => .bind fun detail => .bind fun target => ?_
  split
  · exact .none
  · exact .some (viewless_map (fun _ => rfl) _)

theorem readsNoView_member? (c : Context) (owner : List Char) (e : Expr) :
    ReadsNoView (member? c owner e) := by
  unfold member?
  split
  · exact readsNoView_extraAction? c owner _
  · exact .bind fun name => .bind fun action => .some (viewless_singleton rfl)

theorem readsNoView_match? (c : Context) : ReadsNoView (match? c) := by
  unfold match?
  split
  · exact readsNoView_member? c _ _
  · exact (readsNoView_constructed? c _).or (readsNoView_registered? c _)

end Resource

theorem ClassView.readsNoView_match? (c : Context) : ReadsNoView (ClassView.match? c) := by
  unfold ClassView.match?
  split
  · exact .some (viewless_singleton (Emission.functionView?_node (by decide) _ _ _ _ _))
  · refine .bind fun owner => .bind fun member => ?_
    split
    · exact .bind fun method => .some (viewless_singleton rfl)
    · exact .none

namespace Controller

theorem functionView?_route? {owner : List Char} {s : Statement} {body : Expr} {masked : List Char}
    {mark : Method × List Char × List Char} {e : Emission}
    (h : route? owner s body masked mark = some e) : e.functionView? = none := by
  obtain ⟨args, -, h⟩ := Option.bind_eq_some_iff.mp h
  obtain ⟨member, -, h⟩ := Option.bind_eq_some_iff.mp h
  cases h
  rfl

theorem readsNoView_match? (c : Context) : ReadsNoView (match? c) := by
  refine .bind fun rest => .bind fun args => ?_
  split
  · exact .none
  · refine .bind fun s => .bind fun parts => .some (viewless_cons ?_ ?_)
    · exact Emission.functionView?_node (by decide) _ _ _ _ _
    · exact viewless_filterMap (fun _ _ h => functionView?_route? h) _

end Controller

/-! ### Tables -/

namespace UrlTable

theorem functionView?_viewEntry (s : Site) (view : Expr) (route : List Char) (line : Nat)
    (metadata : Metadata) : (s.viewEntry view route line metadata).functionView? = none := by
  unfold Site.viewEntry
  dsimp only
  split <;> rfl

/-- Entries and inclusions nest in each other, so both are followed at once. -/
theorem viewless_entry_and_included (s : Site) (fuel : Nat) :
    (∀ outer item, Viewless (s.entry fuel outer item)) ∧
      ∀ first route line, Viewless (s.included fuel first route line) := by
  induction fuel with
  | zero => exact ⟨fun _ _ => viewless_nil, fun _ _ _ => viewless_nil⟩
  | succ fuel ih =>
    obtain ⟨hentry, hincluded⟩ := ih
    constructor
    · intro outer item
      unfold Site.entry
      have hplain : ∀ view route line metadata, Viewless [s.viewEntry view route line metadata] := by
        intro view route line metadata
        exact viewless_singleton (functionView?_viewEntry s view route line metadata)
      split
      · exact viewless_nil
      · dsimp only
        split
        · exact viewless_nil
        · split
          · split
            · exact hplain _ _ _ _
            · split
              · split
                · exact hincluded _ _ _
                · exact viewless_nil
              · split
                · exact viewless_singleton rfl
                · exact hplain _ _ _ _
          · exact viewless_nil
    · intro first route line
      unfold Site.included
      split
      · exact viewless_singleton rfl
      · split
        · split
          · split
            · exact hincluded _ _ _
            · exact viewless_nil
          · exact viewless_flatMap (fun item => hentry route item) _
        · split
          · exact viewless_singleton rfl
          · exact viewless_nil

theorem viewless_operand (s : Site) (e : Expr) : Viewless (s.operand e) := by
  have hentry := fun fuel => (viewless_entry_and_included s fuel).1 []
  unfold Site.operand
  dsimp only
  split
  · exact viewless_flatMap (hentry _) _
  · split
    · exact viewless_singleton rfl
    · split
      · split
        · exact viewless_flatMap (hentry _) _
        · exact viewless_nil
      · exact viewless_nil

theorem readsNoView_match? (c : Context) : ReadsNoView (match? c) := by
  refine .bind ?_
  rintro ⟨name, value⟩
  dsimp only
  split
  · exact .none
  · refine .some (viewless_cons (Emission.functionView?_node (by decide) _ _ _ _ _) ?_)
    exact viewless_flatMap (fun e => viewless_operand _ e) _

end UrlTable

/-! ### Calls -/

namespace MemberCall

theorem readsNoView_constructed? (c : Context) (e : Expr) : ReadsNoView (constructed? c e) := by
  refine .bind fun a => .ite (.some (viewless_singleton ?_)) .none
  exact Emission.functionView?_node (by decide) _ _ _ _ _

theorem functionView?_exportedItem? {item : Expr} {e : Emission} (h : exportedItem? item = some e) :
    e.functionView? = none := by
  obtain ⟨-, h⟩ := Option.ite_none_right_eq_some.mp h
  cases h
  rfl

theorem readsNoView_exported? (e : Expr) : ReadsNoView (exported? e) := by
  refine .or (.map fun x hx => viewless_singleton ?_) (.bind fun value => ?_)
  · rcases Option.or_eq_some_iff.mp hx with h | ⟨-, h⟩
    · obtain ⟨rest, -, h⟩ := Option.bind_eq_some_iff.mp h
      obtain ⟨name, -, h⟩ := Option.bind_eq_some_iff.mp h
      cases h
      rfl
    · obtain ⟨start, -, h⟩ := Option.bind_eq_some_iff.mp h
      obtain ⟨⟨as, rest⟩, -, h⟩ := Option.bind_eq_some_iff.mp h
      obtain ⟨name, -, h⟩ := Option.bind_eq_some_iff.mp h
      cases h
      rfl
  · dsimp only
    split
    · exact .none
    · refine .bind fun items => ?_
      have hitems : Viewless (items.filterMap exportedItem?) :=
        viewless_filterMap (fun _ _ h => functionView?_exportedItem? h) items
      split
      · exact .none
      · exact .some hitems

theorem readsNoView_aliases? (c : Context) (e : Expr) : ReadsNoView (aliases? c e) := by
  refine .bind ?_
  rintro ⟨fields, receiver⟩
  dsimp only
  split
  · exact .none
  · split
    · exact .none
    · refine .some (viewless_filterMap ?_ _)
      intro field e h
      obtain ⟨-, h⟩ := Option.ite_none_right_eq_some.mp h
      cases h
      rfl

variable (m : MemberCall)

theorem viewless_fragments (methods : List Method) (path symbol : List Char) (line : Nat)
    (metadata : Metadata) : Viewless (m.fragments methods path symbol line metadata) :=
  viewless_map (fun _ => rfl) _

theorem readsNoView_verbCall? (method : Method) (verb : List Char) :
    ReadsNoView (m.verbCall? method verb) :=
  .bind fun _ => .bind fun _ => .some (m.viewless_fragments _ _ _ _ _)

theorem readsNoView_chainFrom? (path : List Char) (fuel : Nat) (e : Expr) :
    ReadsNoView (m.chainFrom? path fuel e) := by
  induction fuel generalizing e with
  | zero => exact .none
  | succ fuel ih =>
    unfold chainFrom?
    split
    · exact .some viewless_nil
    · refine .bind fun start => .bind fun p => .bind fun args => .bind fun method => ?_
      intro es hes
      obtain ⟨links, hlinks, h⟩ := Option.bind_eq_some_iff.mp hes
      cases h
      exact viewless_append (m.viewless_fragments _ _ _ _ _) (ih _ links hlinks)

theorem readsNoView_chain? : ReadsNoView m.chain? :=
  .bind fun _ => m.readsNoView_chainFrom? _ _ _

theorem readsNoView_mount? : ReadsNoView m.mount? := by
  unfold mount?
  split
  · exact .none
  · exact .bind fun first => .bind fun target => .some (viewless_singleton rfl)

theorem readsNoView_handlerCall? (method : Method) (place : Nat) :
    ReadsNoView (m.handlerCall? method place) := by
  unfold handlerCall?
  split
  · exact .none
  · exact .bind fun path => .bind fun handler => .some (m.viewless_fragments _ _ _ _ _)

theorem readsNoView_endpointCall? : ReadsNoView m.endpointCall? := by
  unfold endpointCall?
  split
  · exact .none
  · exact .bind fun path => .bind fun endpoint => .some (m.viewless_fragments _ _ _ _ _)

theorem readsNoView_ruleCall? : ReadsNoView m.ruleCall? := by
  unfold ruleCall?
  split
  · exact .none
  · refine .bind fun rule => ?_
    dsimp only
    split
    · exact .map fun owner _ => viewless_singleton rfl
    · exact .bind fun symbol => .some (m.viewless_fragments _ _ _ _ _)

theorem readsNoView_methodCall? : ReadsNoView m.methodCall? := by
  refine .bind fun written => ?_
  dsimp only
  split <;> exact .bind fun method => m.readsNoView_handlerCall? method 1

theorem readsNoView_register? (member : List Char) : ReadsNoView (m.register? member) := by
  have hverb : ReadsNoView ((verbMethod? member).bind fun method => m.verbCall? method member) :=
    .bind fun method => m.readsNoView_verbCall? method member
  unfold register?
  dsimp only
  split
  · split
    · exact m.readsNoView_chain?
    · split
      · exact m.readsNoView_mount?
      · exact hverb
  · split
    · exact m.readsNoView_endpointCall?
    · split
      · exact m.readsNoView_ruleCall?
      · split
        · exact m.readsNoView_methodCall?
        · split
          · exact m.readsNoView_handlerCall? _ 0
          · exact hverb

theorem readsNoView_aliasCall? (c : Context) (e : Expr) : ReadsNoView (aliasCall? c e) := by
  refine .bind fun p => ?_
  dsimp only
  split
  · exact .bind fun a => .bind fun m => .bind fun method => m.readsNoView_verbCall? method a.verb
  · exact .none

theorem readsNoView_registered? (c : Context) (e : Expr) : ReadsNoView (registered? c e) := by
  unfold registered?
  split
  · exact readsNoView_aliasCall? c e
  · dsimp only
    split
    · exact .bind fun m => m.readsNoView_register? _
    · exact .none

theorem readsNoView_match? (c : Context) : ReadsNoView (match? c) := by
  refine .or (readsNoView_constructed? c c.expr) ?_
  split
  · exact (readsNoView_exported? _).or ((readsNoView_aliases? c _).or (readsNoView_registered? c _))
  · exact readsNoView_registered? c _

end MemberCall

/-! ### All idioms -/

/-- Whatever an idiom reads, each function view has a route. -/
theorem Idiom.supplied_match? (i : Idiom) (c : Context) {es : List Emission}
    (h : i.match? c = some es) :
    Supplied es := by
  unfold Idiom.match? at h
  have h := (Option.filter_eq_some_iff.mp h).1
  cases i with
  | decoratorCall =>
    dsimp only at h
    split at h
    · exact Decorator.supplied_match? c h
    · exact (Controller.readsNoView_match? c es h).supplied
  | urlPattern => exact (UrlTable.readsNoView_match? c es h).supplied
  | resourceRegistration => exact (Resource.readsNoView_match? c es h).supplied
  | classMethods => exact (ClassView.readsNoView_match? c es h).supplied
  | callRegistration => exact (MemberCall.readsNoView_match? c es h).supplied

end EndpointCensus
