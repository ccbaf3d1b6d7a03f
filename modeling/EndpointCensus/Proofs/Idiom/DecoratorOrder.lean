import EndpointCensus.Proofs.Idiom.Following
import EndpointCensus.Proofs.Idiom.MemberDecorator

/-!
The order of the decorators of a controller member. A member keeps its method, path and name
whatever the order of its decorators is, and the other members of the class keep their routes. The
status code is that of the decorators below the route decorator: the search for the method begins
behind it, so a status code that is declared above it is lost.
-/

namespace EndpointCensus

/-- An emission without the line that it stands on. -/
def Emission.unplaced : Emission → Emission
  | .fragment receiver method path symbol action _ metadata =>
    .fragment receiver method path symbol action 0 metadata
  | .node name kind path metadata bases _ => .node name kind path metadata bases 0
  | .link parent target binding path metadata _ => .link parent target binding path metadata 0
  | .export name as => .export name as
  | .verbAlias as receiver verb => .verbAlias as receiver verb

namespace Controller

open Text MemberDecorator

/-! ### The class below a controller decorator -/

/-- The name of the class that a statement declares and its body, from the brace on. -/
def declared? (s : Statement) : Option (List Char × Expr) :=
  let whole := Expr.ofStatement s
  (classParts? whole.masked).map fun (start, after, brace) =>
    (whole.between start after, whole.tail (whole.offsetOf brace))

/-- The class that a controller decorator is written above. -/
def class? (c : Context) : Option (Statement × List Char × Expr) :=
  (c.following.find? fun s => !s.isDecorator).bind fun s => (declared? s).map fun r => (s, r)

def path? (c : Context) : Option (List Char) := do
  let e := c.expr
  let rest ← after? "@Controller" e.masked
  let args ← e.argsAt? (e.offsetOf (trimStart rest))
  if !(e.tail args.stop).isEmpty then none else some (basePath args)

def routes (owner : List Char) (s : Statement) (body : Expr) : List Emission :=
  (marks none body.masked).filterMap (route? owner s body body.masked)

/-- A controller is a router with the routes of its class. -/
theorem match?_eq (c : Context) :
    match? c = (path? c).bind fun path => (class? c).map fun (s, owner, body) =>
    .node owner .router path {} [] c.line :: routes owner s body := by
  unfold match? path? class?
  simp only [Option.bind_eq_bind, Option.bind_assoc]
  congr 1
  funext rest
  congr 1
  funext args
  split
  · rfl
  · rw [Option.bind_some]
    cases c.following.find? fun s => !s.isDecorator with
    | none => rfl
    | some s =>
      rw [Option.bind_some, Option.bind_some, declared?]
      cases classParts? (Expr.ofStatement s).masked <;> rfl

/-- The body of a class does not end in white space. -/
theorem getLast?_class? {c : Context} {s : Statement} {owner : List Char} {body : Expr}
    (h : class? c = some (s, owner, body)) : body.glyphs.getLast?.any Glyph.isBlank = false := by
  obtain ⟨s', -, hs⟩ := Option.bind_eq_some_iff.mp h
  obtain ⟨r, hr, heq⟩ := Option.map_eq_some_iff.mp hs
  obtain ⟨parts, -, rfl⟩ := Option.map_eq_some_iff.mp hr
  obtain ⟨-, -, rfl⟩ := heq
  exact getLast?_dropEndWhile _ _

/-! ### Routes without their lines -/

variable {owner start paren : List Char} {method : Method} {s s' : Statement} {body body' : Expr}
  {pre post gs more more' : List Glyph}

/-- The path among the arguments of a route decorator. -/
def pathIn (args : Args) : List Char := ((args.positional? 0).bind Expr.stringValue?).getD []

def memberRoute (owner : List Char) (method : Method) (args : Args)
    (member : List Char × Metadata) : Emission :=
  .fragment (some owner) method (pathIn args) (owner ++ '.' :: member.1) (some member.1) 0 member.2

/-- The route of a method whose route decorator has its arguments at the beginning of glyphs. -/
def routeOf? (owner : List Char) (method : Method) (gs : List Glyph) : Option Emission :=
  ((⟨gs, 0⟩ : Expr).argsAt? 0).bind fun args =>
    (memberOf? none ((⟨gs, 0⟩ : Expr).tail args.stop).glyphs).map (memberRoute owner method args)

theorem memberRoute_congr {a b : Args} (h : a.look = b.look) :
    memberRoute owner method a = memberRoute owner method b := by
  have hfirst : (a.positional? 0).bind Expr.stringValue? =
      (b.positional? 0).bind Expr.stringValue? :=
    bind_congr_of_map (Args.positional?_congr h 0) fun _ _ _ _ => Expr.stringValue?_congr
  funext member
  rw [memberRoute, memberRoute, pathIn, pathIn, hfirst]

/-- A route is told by the glyphs from its argument list on. -/
theorem unplaced_route? (hbody : body.glyphs = pre ++ gs) (hparen : maskedText gs = paren) :
    (route? owner s body body.masked (method, start, paren)).map Emission.unplaced =
      routeOf? owner method gs := by
  subst hparen
  have hx : Expr.Behind pre ⟨gs, body.offset + glyphWidth pre⟩ body := ⟨hbody, rfl⟩
  have hmasked : body.masked = maskedText pre ++ maskedText gs := hx.masked
  have hoffset : body.offsetOf (maskedText gs) = glyphWidth pre := by
    rw [Expr.offsetOf_append hmasked, width_maskedText_eq]
  have hargs := hx.argsAt? 0
  rw [Nat.add_zero] at hargs
  have hsame := @Expr.argsAt?_congr ⟨gs, body.offset + glyphWidth pre⟩ ⟨gs, 0⟩ rfl 0
  unfold route? routeOf?
  dsimp only [Option.bind_eq_bind]
  rw [hoffset, show body.argsIn? body.masked (glyphWidth pre) =
    body.argsAt? (glyphWidth pre) from rfl, hargs]
  cases hown : (⟨gs, body.offset + glyphWidth pre⟩ : Expr).argsAt? 0 with
  | none =>
    rw [hown] at hsame
    rw [Option.map_eq_none_iff.mp hsame.symm]
    rfl
  | some args =>
    rw [hown] at hsame
    obtain ⟨args', hargs', hlook⟩ := Option.map_eq_some_iff.mp hsame.symm
    obtain ⟨hlook, hstop⟩ := Prod.mk.inj hlook
    have htail : (body.tail (glyphWidth pre + args.stop)).glyphs =
        ((⟨gs, 0⟩ : Expr).tail args'.stop).glyphs := by
      rw [hx.tail, hstop]
      exact Expr.tail_congr rfl _
    have hfuel := Nat.lt_succ_of_le (congrArg List.length htail).ge
    rw [hargs', Option.bind_some, Option.map_some, Option.bind_some, Args.moved,
      member?_eq htail hfuel, memberRoute_congr hlook]
    cases memberOf? none ((⟨gs, 0⟩ : Expr).tail args'.stop).glyphs <;> rfl

/-- The route of arguments that are written in full. -/
theorem exists_routeOf? {arguments : List Glyph} (hargs : Expr.IsArgs arguments) (owner : List Char)
    (method : Method) :
    ∃ args, (⟨arguments, 0⟩ : Expr).argsAt? 0 = some args ∧
    ∀ gs, routeOf? owner method (arguments ++ gs) =
      (memberOf? none (trimGlyphs gs)).map (memberRoute owner method args) := by
  obtain ⟨args, hown, -, -⟩ :=
    hargs.argsAt? (show (⟨arguments, 0⟩ : Expr).glyphs = arguments ++ [] by simp)
  refine ⟨args, hown, fun gs => ?_⟩
  obtain ⟨args', args'', hown', hread, hlook, htail⟩ :=
    exists_argsAt? hargs (show (⟨arguments ++ gs, 0⟩ : Expr).glyphs =
      [] ++ (arguments ++ gs) from rfl)
  obtain rfl := Option.some.inj (hown.symm.trans hown')
  rw [routeOf?, show (⟨arguments ++ gs, 0⟩ : Expr).argsAt? 0 = some args'' from hread,
    Option.bind_some, htail, memberRoute_congr hlook]

/-! ### The routes of a class -/

/-- In front of decorators, the route of a member is the same whatever these are. -/
theorem route?_before (hpre : IsFront (maskedText pre)) (hmore : IsDecorated more)
    (hmore' : IsDecorated more') (hbody : body.glyphs = pre ++ more)
    (hbody' : body'.glyphs = pre ++ more') {mark : Method × List Char × List Char}
    (hmark : mark ∈ marks none (maskedText pre)) :
    (route? owner s body body.masked (followMark (maskedText more) mark)).map Emission.unplaced =
      (route? owner s' body' body'.masked (followMark (maskedText more') mark)).map
        Emission.unplaced := by
  obtain ⟨before, us, vs, hpresplit, hvs⟩ := exists_of_mem_marks hmark
  obtain ⟨name, hname⟩ := decoratorName?_of_markAt? hvs
  obtain ⟨word, -, gap, -, hsign, -, hopen⟩ := exists_of_markAt? hvs
  rw [hsign] at hpresplit
  obtain ⟨xs, ys, rfl, -, hys⟩ := exists_glyph_of_maskedText hpresplit (by decide)
  have hgs : maskedText (⟨'@', false⟩ :: ys) = vs := by
    rw [hsign, ← hys]
    rfl
  have hfront : IsFront (maskedText (⟨'@', false⟩ :: ys)) := by
    rw [Draft.maskedText_append] at hpre
    exact hpre.suffix (by rw [hgs, hsign]; exact List.cons_ne_nil _ _)
  obtain ⟨front, arguments, tail, hsplit, -, hargs, hparen, htail⟩ :=
    exists_of_called hfront (hgs ▸ hname) hopen
  obtain ⟨args, -, hroute⟩ := exists_routeOf? hargs owner mark.1
  have hplaced {s : Statement} {body : Expr} {more : List Glyph} (hmore : IsDecorated more)
      (hbody : body.glyphs = (xs ++ ⟨'@', false⟩ :: ys) ++ more) :
      (route? owner s body body.masked (followMark (maskedText more) mark)).map Emission.unplaced =
        (memberOf? none (tail.dropWhile Glyph.isBlank ++ more)).map
          (memberRoute owner mark.1 args) := by
    have hwhole : body.glyphs = (xs ++ front) ++ (arguments ++ (tail ++ more)) := by
      rw [hbody, hsplit]
      simp
    have hrest : maskedText (arguments ++ (tail ++ more)) = mark.2.2 ++ maskedText more := by
      rw [hparen, ← List.append_assoc, Draft.maskedText_append _ more]
    rw [← hmore.isRest.trimGlyphs, ← hroute]
    exact unplaced_route? hwhole hrest
  rw [hplaced hmore hbody, hplaced hmore' hbody', memberOf?_before htail hmore hmore']

/-- Behind the decorators of a member, the routes are the same whatever stands in front. -/
theorem route?_behind {front front' : List Glyph} (hbody : body.glyphs = front ++ post)
    (hbody' : body'.glyphs = front' ++ post) {before : Option Char}
    {mark : Method × List Char × List Char} (hmark : mark ∈ marks before (maskedText post)) :
    (route? owner s body body.masked mark).map Emission.unplaced =
      (route? owner s' body' body'.masked mark).map Emission.unplaced := by
  obtain ⟨before', us, vs, hpost, hvs⟩ := exists_of_mem_marks hmark
  obtain ⟨word, -, gap, -, hsign, -, hopen⟩ := exists_of_markAt? hvs
  obtain ⟨rest, hparen⟩ := List.head?_eq_some_iff.mp hopen
  have hsplit : maskedText post = (us ++ '@' :: (word.toList ++ gap)) ++ '(' :: rest := by
    rw [hpost, hsign, hparen]
    simp
  obtain ⟨xs, ys, rfl, -, hys⟩ := exists_glyph_of_maskedText hsplit (by decide)
  have hgs : maskedText (⟨'(', false⟩ :: ys) = mark.2.2 := by
    rw [hparen, ← hys]
    rfl
  rw [← List.append_assoc] at hbody hbody'
  exact (unplaced_route? hbody hgs).trans (unplaced_route? hbody' hgs).symm

/-- The decorator makes a member a route of the method, and nothing else within it does. -/
def IsRoute (d : MemberDecorator) (method : Method) : Prop :=
  marks (some ' ') (maskedText d.glyphs) =
    [(method, maskedText d.glyphs, maskedText d.arguments ++ d.trail)]

/-- There is no route decorator within the decorator. -/
def IsOther (d : MemberDecorator) : Prop := marks (some ' ') (maskedText d.glyphs) = []

structure Stack where
  above : List MemberDecorator
  route : MemberDecorator
  below : List MemberDecorator

namespace Stack

variable {k k' : Stack}

def decorators (k : Stack) : List MemberDecorator := k.above ++ k.route :: k.below

def glyphs (k : Stack) : List Glyph := stack k.decorators

/-- The decorators are written in full, and the route decorator is the only one. -/
structure Routes (k : Stack) (method : Method) : Prop where
  written : ∀ d ∈ k.decorators, d.IsWritten
  route : IsRoute k.route method
  others : ∀ d ∈ k.above ++ k.below, IsOther d

/-- The order of the decorators plays no part. -/
theorem Routes.perm (h : k.Routes method) (hroute : k'.route = k.route)
    (hperm : k'.decorators.Perm k.decorators) : k'.Routes method where
  written d hd := h.written d (hperm.mem_iff.mp hd)
  route := hroute ▸ h.route
  others d hd := by
    have hrest : (k.route :: (k'.above ++ k'.below)).Perm (k.route :: (k.above ++ k.below)) := by
      have hmiddle := List.perm_middle.symm.trans (hperm.trans List.perm_middle)
      rwa [hroute] at hmiddle
    exact h.others d (hrest.cons_inv.mem_iff.mp hd)

end Stack

/-- What stands below the decorators of a member: no further decorator, white space or
argument list begins it. -/
structure IsMember (post : List Glyph) : Prop where
  anew : StartsAnew (maskedText post)
  plain : (maskedText post).head? ≠ some '@'

theorem marks_others {ds : List MemberDecorator} (hwritten : ∀ d ∈ ds, d.IsWritten)
    (hothers : ∀ d ∈ ds, IsOther d) (hmore : IsRest more) :
    marks (some ' ') (maskedText (stack ds ++ more)) = marks (some ' ') (maskedText more) := by
  induction ds with
  | nil => rfl
  | cons d ds ih =>
    obtain ⟨hd, hwritten⟩ := List.forall_mem_cons.mp hwritten
    obtain ⟨hother, hothers⟩ := List.forall_mem_cons.mp hothers
    rw [stack_cons, Draft.maskedText_append, marks_append hd.blank (isRest_stack ds hmore).anew,
      hother, ih hwritten hothers]
    rfl

theorem Stack.glyphs_append (k : Stack) (more : List Glyph) :
    k.glyphs ++ more = stack k.above ++ (k.route.glyphs ++ (stack k.below ++ more)) := by
  rw [← stack_cons, Stack.glyphs, Stack.decorators, stack, List.flatMap_append, List.append_assoc]
  rfl

theorem Stack.isDecorated (k : Stack) (hmore : IsRest more) : IsDecorated (k.glyphs ++ more) := by
  obtain ⟨d, ds, hds⟩ : ∃ d ds, k.decorators = d :: ds := by
    cases habove : k.above with
    | nil => exact ⟨k.route, k.below, by rw [Stack.decorators, habove]; rfl⟩
    | cons d above => exact ⟨d, above ++ k.route :: k.below, by rw [Stack.decorators, habove]; rfl⟩
  rw [Stack.glyphs, hds, stack_cons]
  exact d.isDecorated (isRest_stack ds hmore)

/-- A stack has the mark of its route decorator, and no other. -/
theorem marks_stack {k : Stack} (h : k.Routes method) (hpost : IsRest post) :
    marks (some ' ') (maskedText (k.glyphs ++ post)) =
      (method, maskedText (k.route.glyphs ++ (stack k.below ++ post)),
        maskedText (k.route.arguments ++ (plainGlyphs k.route.trail ++ (stack k.below ++ post)))) ::
          marks (some ' ') (maskedText post) := by
  obtain ⟨habove, hbelow⟩ := List.forall_mem_append.mp h.written
  obtain ⟨hroute, hbelow⟩ := List.forall_mem_cons.mp hbelow
  obtain ⟨hothers, hothers'⟩ := List.forall_mem_append.mp h.others
  have hrest := isRest_stack k.below hpost
  have hsplit : maskedText (k.route.arguments ++
      (plainGlyphs k.route.trail ++ (stack k.below ++ post))) =
        (maskedText k.route.arguments ++ k.route.trail) ++ maskedText (stack k.below ++ post) := by
    rw [Draft.maskedText_append, Draft.maskedText_append, maskedText_plainGlyphs, List.append_assoc]
  rw [Stack.glyphs_append, marks_others habove hothers (k.route.isDecorated hrest).isRest,
    Draft.maskedText_append, marks_append hroute.blank hrest.anew, h.route,
    marks_others hbelow hothers' hpost, hsplit]
  rfl

/-- The route that a route decorator makes of the member it is written above, without its line. -/
def routed (owner : List Char) (method : Method) (post : List Glyph) (d : MemberDecorator)
    (code : Option UInt16) :
    Option Emission :=
  d.args?.bind fun args => (memberName? post).map fun name =>
    memberRoute owner method args (name, { statusCode := code })

theorem isArgs_of_isRoute {d : MemberDecorator} (hd : d.IsWritten) (h : IsRoute d method) :
    Expr.IsArgs d.arguments := by
  rcases hd.arguments with ⟨-, hnone⟩ | hargs
  · have hmark : (method, maskedText d.glyphs, maskedText d.arguments ++ d.trail) ∈
        marks (some ' ') (maskedText d.glyphs) := h ▸ List.mem_cons_self
    obtain ⟨before, us, vs, -, hvs⟩ := exists_of_mem_marks hmark
    obtain ⟨word, -, gap, -, -, -, hopen⟩ := exists_of_markAt? hvs
    have hblank := hd.trail.head?_isBlank []
    rw [List.append_nil] at hblank
    rw [hnone, show maskedText [] ++ d.trail = d.trail from rfl] at hopen
    rw [hopen] at hblank
    contradiction
  · exact hargs

/-- The route of a member has the status code of the decorators below its route decorator. -/
theorem route?_stack {k : Stack} (h : k.Routes method) (hrest : IsRest post) (hpost : IsMember post)
    (hbody : body.glyphs = pre ++ (k.glyphs ++ post)) :
    (route? owner s body body.masked (method, start, maskedText
        (k.route.arguments ++ (plainGlyphs k.route.trail ++ (stack k.below ++ post))))).map
      Emission.unplaced = routed owner method post k.route (statusOf none k.below) := by
  obtain ⟨-, hbelow⟩ := List.forall_mem_append.mp h.written
  obtain ⟨hroute, hbelow⟩ := List.forall_mem_cons.mp hbelow
  obtain ⟨args, hown, hread⟩ := exists_routeOf? (isArgs_of_isRoute hroute h.route) owner method
  have hwhole : body.glyphs =
      (pre ++ (stack k.above ++ plainGlyphs ('@' :: (k.route.name ++ k.route.gap)))) ++
        (k.route.arguments ++ (plainGlyphs k.route.trail ++ (stack k.below ++ post))) := by
    rw [hbody, Stack.glyphs_append, MemberDecorator.glyphs]
    simp only [List.append_assoc]
  have hnone : decoratorName? (maskedText post) = none := decoratorName?_of_ne hpost.plain
  rw [unplaced_route? hwhole rfl, hread, (isRest_stack k.below hrest).trimGlyphs,
    hroute.dropWhile_trail, List.nil_append, memberOf?_stack hbelow hrest, memberOf?_of_none hnone,
    routed, args?, hown, Option.bind_some, Option.map_map]
  rfl

/-- The routes of a class are those in front of a stack, the one of its member and those behind. -/
theorem unplaced_routes {k : Stack} (h : k.Routes method) (hpre : IsFront (maskedText pre))
    (hrest : IsRest post) (hpost : IsMember post)
    (hbody : body.glyphs = pre ++ (k.glyphs ++ post)) :
    (routes owner s body).map Emission.unplaced =
      (marks none (maskedText pre)).filterMap (fun mark => (route? owner s body body.masked
        (followMark (maskedText (k.glyphs ++ post)) mark)).map Emission.unplaced) ++
      ((routed owner method post k.route (statusOf none k.below)).toList ++
        (marks (some ' ') (maskedText post)).filterMap fun mark =>
          (route? owner s body body.masked mark).map Emission.unplaced) := by
  have hmasked : body.masked = maskedText pre ++ maskedText (k.glyphs ++ post) := by
    rw [← Draft.maskedText_append, ← hbody]
    rfl
  have hanew : StartsAnew (maskedText (k.glyphs ++ post)) := (k.isDecorated hrest).isRest.anew
  have hmarks := marks_append hpre.blank hanew none
  rw [marks_stack h hrest] at hmarks
  rw [routes, List.map_filterMap]
  conv_lhs => rw [hmasked, hmarks, List.filterMap_append, List.filterMap_map, List.filterMap_cons,
    ← hmasked]
  rw [route?_stack h hrest hpost hbody]
  cases routed owner method post k.route (statusOf none k.below) <;> rfl

/-- The class below a controller decorator has a member in its body, with what stands before its
decorators and what stands behind them. -/
def HasMember (c : Context) (owner : List Char) (pre : List Glyph) (k : Stack) (post : List Glyph) :
    Prop :=
  ∃ s body, class? c = some (s, owner, body) ∧ body.glyphs = pre ++ (k.glyphs ++ post)

/-- The order of the decorators of a controller member plays no part for the other members of the
class, nor for the method, the path and the name of the member. Its status code is the one that is
declared below its route decorator. -/
theorem match?_permuted {c : Context} {following following' : List Statement} {owner : List Char}
    {pre post : List Glyph} {k k' : Stack} {method : Method}
    (hmember : HasMember (c.followedBy following) owner pre k post)
    (hmember' : HasMember (c.followedBy following') owner pre k' post)
    (hpre : IsFront (maskedText pre)) (hpost : IsMember post) (hroutes : k.Routes method)
    (hroute : k'.route = k.route) (hperm : k'.decorators.Perm k.decorators) : ∃ earlier later,
      let emitted := fun code => (path? c).map fun path =>
        .node owner .router path {} [] 0 ::
          (earlier ++ ((routed owner method post k.route code).toList ++ later))
      (match? (c.followedBy following)).map (List.map Emission.unplaced) =
        emitted (statusOf none k.below) ∧
        (match? (c.followedBy following')).map (List.map Emission.unplaced) =
          emitted (statusOf none k'.below) := by
  obtain ⟨s, body, hclass, hbody⟩ := hmember
  obtain ⟨s', body', hclass', hbody'⟩ := hmember'
  have hrest : IsRest post := by
    have hne : post ≠ [] := by
      rintro rfl
      obtain ⟨c, hc, -⟩ := hpost.anew
      contradiction
    have hlast := getLast?_class? hclass
    rw [hbody, ← List.append_assoc, getLast?_any_append _ hne] at hlast
    exact ⟨hpost.anew, hlast⟩
  have hemitted {following : List Statement} {s : Statement} {body : Expr}
      (hclass : class? (c.followedBy following) = some (s, owner, body)) :
      (match? (c.followedBy following)).map (List.map Emission.unplaced) = (path? c).map fun path =>
        .node owner .router path {} [] 0 :: (routes owner s body).map Emission.unplaced := by
    rw [match?_eq, hclass, show path? (c.followedBy following) = path? c from rfl]
    cases path? c <;> rfl
  let earlier := (marks none (maskedText pre)).filterMap fun mark =>
    (route? owner s body body.masked (followMark (maskedText (k.glyphs ++ post)) mark)).map
      Emission.unplaced
  let later := (marks (some ' ') (maskedText post)).filterMap fun mark =>
    (route? owner s body body.masked mark).map Emission.unplaced
  have hearlier : (marks none (maskedText pre)).filterMap
      (fun mark => (route? owner s' body' body'.masked
        (followMark (maskedText (k'.glyphs ++ post)) mark)).map Emission.unplaced) = earlier :=
    List.filterMap_congr fun _ hmark =>
      route?_before hpre (k'.isDecorated hrest) (k.isDecorated hrest) hbody' hbody hmark
  have hlater : (marks (some ' ') (maskedText post)).filterMap (fun mark =>
      (route? owner s' body' body'.masked mark).map Emission.unplaced) = later :=
    List.filterMap_congr fun _ hmark =>
      route?_behind (hbody'.trans (List.append_assoc _ _ _).symm)
        (hbody.trans (List.append_assoc _ _ _).symm) hmark
  refine ⟨earlier, later, ?_, ?_⟩
  · rw [hemitted hclass, unplaced_routes hroutes hpre hrest hpost hbody]
  · rw [hemitted hclass', unplaced_routes (hroutes.perm hroute hperm) hpre hrest hpost hbody',
      hroute, hearlier, hlater]

/-- The statements of a controller with two members, the second one below decorators. -/
def controllerWith (decorators : String) : List Statement :=
  (readStatements .script ("@Controller('u')\nclass A \x7b\n @Get()\n list() \x7b\x7d\n" ++
    decorators ++ " create() \x7b\x7d\n\x7d").toList).statements

def contextOf (s : Statement) (following : List Statement) : Context :=
  ⟨.script, s, following, none, [], [], .empty "a.ts".toList .script⟩

/-- The router and, between other routes, the one of its second member. -/
def created (earlier : List Emission) (code : Option UInt16) (later : List Emission) :
    List Emission :=
  .node "A".toList .router "u".toList {} [] 0 :: (earlier ++
    .fragment (some "A".toList) .post "x".toList "A.create".toList (some "create".toList) 0
      { statusCode := code } :: later)

/-- A decorator with its path, or a class with its name and its body. -/
def seen (s : Statement) : Bool × Option (List Char) × Option (List Char × List Glyph) :=
  (s.isDecorator, path? (contextOf s []), (declared? s).map fun r => (r.1, r.2.glyphs))

theorem hasMember_of_seen {s₀ s : Statement} {owner : List Char} {pre post : List Glyph} {k : Stack}
    (h : seen s = (false, none, some (owner, pre ++ (k.glyphs ++ post)))) :
    HasMember (contextOf s₀ [s]) owner pre k post := by
  obtain ⟨hplain, hdeclared⟩ := Prod.mk.inj h
  obtain ⟨⟨owner, body⟩, hbody, howner⟩ := Option.map_eq_some_iff.mp (Prod.mk.inj hdeclared).2
  obtain ⟨rfl, hglyphs⟩ := Prod.mk.inj howner
  refine ⟨s, body, ?_, hglyphs⟩
  rw [class?, contextOf, List.find?_cons_of_pos (by rw [hplain]; rfl), Option.bind_some, hbody]
  rfl

section Create

def plainOf (text : String) : List Glyph := plainGlyphs text.toList

def decorating (name : String) (arguments : List Glyph) : MemberDecorator :=
  ⟨name.toList, [], arguments, [' ']⟩

def posting : MemberDecorator :=
  decorating "Post" (Token.glyphsOf [.code '(', .literal "'x'".toList, .code ')'])

def guarding : MemberDecorator := decorating "Guard" (plainOf "([a(1)])")

def statusCoded : MemberDecorator := decorating "HttpCode" (plainOf "(201)")

def logging : MemberDecorator := decorating "Log" []

def statusAbove : Stack := ⟨[statusCoded, guarding], posting, [logging]⟩

def statusBelow : Stack := ⟨[logging], posting, [guarding, statusCoded]⟩

/-- What stands before the decorators of the second member, and what stands behind them. -/
def listMember : List Glyph := plainOf "\x7b @Get() list() \x7b\x7d "

def createMember : List Glyph := plainOf "create() \x7b\x7d \x7d"

theorem routes_statusAbove : statusAbove.Routes .post := by
  have hall {p : Char → Bool} {cs : List Char} (h : cs.all p = true) : ∀ c ∈ cs, p c = true :=
    List.all_eq_true.mp h
  have hspace : IsGap [' '] := ⟨by decide, hall rfl⟩
  refine ⟨?_, rfl, ?_⟩
  · simp only [Stack.decorators, statusAbove, List.cons_append, List.nil_append, List.forall_mem_cons]
    exact ⟨⟨by decide, hall rfl, hall rfl, .inr (by decide), hspace⟩,
      ⟨by decide, hall rfl, hall rfl, .inr (by decide), hspace⟩,
      ⟨by decide, hall rfl, hall rfl, .inr (by decide), hspace⟩,
      ⟨by decide, hall rfl, hall rfl, .inl ⟨rfl, rfl⟩, hspace⟩, List.forall_mem_nil _⟩
  · simp only [statusAbove, List.cons_append, List.nil_append, List.forall_mem_cons]
    exact ⟨rfl, rfl, rfl, List.forall_mem_nil _⟩

theorem routed_createMember (code : Option UInt16) :
    routed "A".toList .post createMember posting code =
      some (.fragment (some "A".toList) .post "x".toList "A.create".toList (some "create".toList) 0
        { statusCode := code }) := by
  have hargs : posting.args?.map pathIn = some "x".toList := by decide +kernel
  have hname : memberName? createMember = some "create".toList := by decide +kernel
  obtain ⟨args, hown, hpath⟩ := Option.map_eq_some_iff.mp hargs
  rw [routed, hown, Option.bind_some, hname, Option.map_some, memberRoute, hpath]
  rfl

/-- The two statements of a controller with these decorators. -/
theorem exists_controllerWith {decorators : String} {k : Stack} {first : Option Statement}
    (h : (controllerWith decorators).map seen = [(true, some "u".toList, none),
      (false, none, some ("A".toList, listMember ++ (k.glyphs ++ createMember)))] ∧
        (controllerWith decorators).head? = first) :
    ∃ s₀ s, controllerWith decorators = [s₀, s] ∧ first = some s₀ ∧
      path? (contextOf s₀ []) = some "u".toList ∧
      HasMember (contextOf s₀ [s]) "A".toList listMember k createMember := by
  obtain ⟨hread, hfirst⟩ := h
  obtain ⟨s₀, tail, hstatements, hs₀, hread⟩ := List.map_eq_cons_iff.mp hread
  obtain ⟨s, tail, rfl, hs, hnil⟩ := List.map_eq_cons_iff.mp hread
  obtain rfl := List.map_eq_nil_iff.mp hnil
  rw [hstatements] at hfirst
  exact ⟨s₀, s, hstatements, hfirst.symm, (Prod.mk.inj (Prod.mk.inj hs₀).2).1, hasMember_of_seen hs⟩

end Create

theorem match?_permuted_create : ∃ s₀ s s' earlier later,
    controllerWith " @HttpCode(201)\n @Guard([a(1)])\n @Post('x')\n @Log\n" = [s₀, s] ∧
    controllerWith " @Log\n @Post('x')\n @Guard([a(1)])\n @HttpCode(201)\n" = [s₀, s'] ∧
    (match? (contextOf s₀ [s])).map (List.map Emission.unplaced) =
      some (created earlier none later) ∧
    (match? (contextOf s₀ [s'])).map (List.map Emission.unplaced) =
      some (created earlier (some 201) later) := by
  let first := (readStatements .script "@Controller('u')".toList).statements.head?
  obtain ⟨s₀, s, hstatements, hfirst, hpath, hmember⟩ := @exists_controllerWith
    " @HttpCode(201)\n @Guard([a(1)])\n @Post('x')\n @Log\n" statusAbove first (by
      simp only [controllerWith, String.toList_append]
      repeat rw [String.toList_ofList]
      decide +kernel)
  obtain ⟨s₀', s', hstatements', hfirst', -, hmember'⟩ := @exists_controllerWith
    " @Log\n @Post('x')\n @Guard([a(1)])\n @HttpCode(201)\n" statusBelow first (by
      simp only [controllerWith, String.toList_append]
      repeat rw [String.toList_ofList]
      decide +kernel)
  obtain rfl : s₀ = s₀' := Option.some.inj (hfirst.symm.trans hfirst')
  obtain ⟨earlier, later, hemitted, hemitted'⟩ :=
    @match?_permuted (contextOf s₀ []) [s] [s'] "A".toList listMember createMember statusAbove
      statusBelow .post hmember hmember' (by decide +kernel)
    ⟨⟨'c', rfl, rfl, by decide⟩, by decide⟩ routes_statusAbove rfl
    (List.reverse_perm statusAbove.decorators)
  have hstatus : statusOf none statusAbove.below = none ∧
      statusOf none statusBelow.below = some 201 := by
    decide +kernel
  have hroute : statusAbove.route = posting := rfl
  refine ⟨s₀, s, s', earlier, later, hstatements, hstatements', ?_, ?_⟩
  · exact hemitted.trans (by simp only [hpath, hstatus.1, hroute, routed_createMember]; rfl)
  · exact hemitted'.trans (by simp only [hpath, hstatus.2, hroute, routed_createMember]; rfl)

/-- What a controller at the beginning of a script emits. -/
def readController (text : String) : Option (List Emission) :=
  match (readStatements .script text.toList).statements with
  | [] => none
  | s :: following => match? (contextOf s following)

theorem readController_ofList (cs : List Char) : readController (String.ofList cs) =
    match (readStatements .script cs).statements with
    | [] => none
    | s :: following => match? (contextOf s following) := by
  rw [readController, String.toList_ofList]

/-- A status code that is declared above the route decorator is lost. -/
theorem readController_statusCode :
    readController
      "@Controller('u')\nclass A \x7b\n @HttpCode(201)\n @Post()\n create() \x7b\x7d\n\x7d\n" =
        some [.node "A".toList .router "u".toList {} [] 1,
          .fragment (some "A".toList) .post [] "A.create".toList (some "create".toList) 4 {}] ∧
    readController
      "@Controller('u')\nclass A \x7b\n @Post()\n @HttpCode(201)\n create() \x7b\x7d\n\x7d\n" =
        some [.node "A".toList .router "u".toList {} [] 1,
          .fragment (some "A".toList) .post [] "A.create".toList (some "create".toList) 3
            { statusCode := some 201 }] := by
  rw [readController_ofList, readController_ofList]
  decide +kernel

end Controller

end EndpointCensus
