import EndpointCensus.Proofs.Expr.Part
import EndpointCensus.Proofs.Idiom.UrlTable
import EndpointCensus.Proofs.Path.Placeholder

/-!
The entries of a table of URL patterns. What an entry adds to the table is one link or fragment,
and the entry is its trace; an inclusion of an inline list adds what the listed entries add.
Lists nest by parts that become shorter, so all of them are read, and traces come in the order in
which they are written.
-/

namespace EndpointCensus

open Text

/-- A link or a fragment of the table. -/
def Emission.BelongsTo (table : List Char) : Emission → Prop
  | link parent _ _ _ _ _ => parent = table
  | fragment receiver _ _ _ _ _ _ => receiver = some table
  | _ => False

/-- A bracket in front is no letter of a string literal and no quote. -/
theorem stringLiteral?_opener {c : Char} (h : isOpener c = true) (cs : List Char) :
    stringLiteral? (c :: cs) = none := by
  have hdelimiters : (stringDelimiters.all fun d => !d.head?.any isOpener && !d.isEmpty) =
      true := by decide
  have hmark : isStringMark c = false := by
    unfold isOpener at h
    simp only [Bool.or_eq_true, beq_iff_eq] at h
    rcases h with (rfl | rfl) | rfl <;> rfl
  have hbody : ((c :: cs).take 2).takeWhile isStringMark = [] := by
    rw [List.take_succ_cons, List.takeWhile_cons, hmark]
    rfl
  have hfind : stringDelimiters.find? (·.isPrefixOf (c :: cs)) = none := by
    refine List.find?_eq_none.mpr fun d hd hbegins => ?_
    have hno := List.all_eq_true.mp hdelimiters d hd
    obtain ⟨rest, hrest⟩ := List.isPrefixOf_iff_prefix.mp hbegins
    cases d with
    | nil => simp at hno
    | cons q d =>
      obtain ⟨rfl, -⟩ := List.cons.inj hrest
      simp [h] at hno
  unfold stringLiteral?
  dsimp only
  rw [hbody, List.length_nil, List.drop_zero, hfind, Option.bind_none]

namespace Expr

theorem stringValue?_of_items? {e : Expr} {items : List Expr} (h : e.items? = some items) :
    e.stringValue? = none := by
  unfold items? at h
  dsimp only at h
  split at h
  next closer stop hcloser _ =>
    obtain ⟨c, hhead, hc⟩ := Option.bind_eq_some_iff.mp hcloser
    obtain ⟨hopen, -, hveil⟩ := opener_of_closerOf? hc
    obtain ⟨vs, hchars⟩ := List.head?_eq_some_iff.mp hhead
    have hchars : maskedText e.glyphs = [] ++ c :: vs := hchars
    obtain ⟨xs, ys, hglyphs, hxs, -⟩ := exists_glyph_of_maskedText hchars hveil
    obtain rfl : xs = [] := by
      cases xs with
      | nil => rfl
      | cons g xs =>
        have hwidth := width_maskedText_eq (g :: xs)
        have hpos := g.char.utf8Size_pos
        rw [hxs, glyphWidth, Text.width_nil] at hwidth
        omega
    rw [stringValue?, text, hglyphs]
    exact stringLiteral?_opener hopen _
  next => contradiction

end Expr

namespace UrlTable

open EndpointCensus.Expr (Part Before Parts)

/-! ### Entries -/

/-- The view of an item that is an entry. -/
def view? (item : Expr) : Option Expr :=
  item.call?.bind fun c =>
    if isOneOf ["path", "re_path", "url"] (lastSegment c.callee) then
      (c.args.positional? 1).or (c.args.keyword? "view")
    else none

/-- What an inclusion is given, if the view is one. -/
def inclusion? (view : Expr) : Option (Option Expr) :=
  (view.call?.filter fun v => isOneOf ["include"] (lastSegment v.callee)).map fun v =>
    v.args.positional? 0

def tupleHead? (e : Expr) : Option Expr :=
  if e.masked.head? == some '(' then e.items?.bind List.head? else none

/-- The items of a list that is no tuple. -/
def listed (e : Expr) : List Expr := if e.masked.head? == some '(' then [] else e.items?.getD []

/-- What an inclusion is given when every tuple stands for its first item. -/
inductive Unwraps : Expr → Expr → Prop
  | whole {e : Expr} (h : tupleHead? e = none) : Unwraps e e
  | tuple {e inner x : Expr} (h : tupleHead? e = some inner) (hx : Unwraps inner x) : Unwraps e x

/-- The entry is listed by an inclusion that is given the expression. -/
def Lists (first y : Expr) : Prop := ∃ e, Unwraps first e ∧ y ∈ listed e

/-- The expression is the text of a module or a dotted name. -/
def IsNamed (e : Expr) : Prop := e.stringValue?.isSome = true ∨ e.namePath?.isSome = true

/-- An entry that is no inclusion, or one that names what it includes. -/
def LeavesTrace (item : Expr) : Prop :=
  ∃ view, view? item = some view ∧ (inclusion? view = none ∨
    ∃ first e, inclusion? view = some (some first) ∧ Unwraps first e ∧ IsNamed e)

/-- The expression is the item, or it is listed by an inclusion beneath it. -/
inductive Beneath : Expr → Expr → Prop
  | self (item : Expr) : Beneath item item
  | listed {item view first y x : Expr} (hview : view? item = some view)
      (hfirst : inclusion? view = some (some first)) (hy : Lists first y) (hx : Beneath y x) :
      Beneath item x

theorem parts_view? {item view : Expr} (h : view? item = some view) :
    view.Part item ∧ view.glyphs.length < item.glyphs.length := by
  obtain ⟨c, hc, h⟩ := Option.bind_eq_some_iff.mp h
  split at h
  next =>
    rcases Option.or_eq_some_iff.mp h with hview | ⟨-, hview⟩
    · exact Expr.parts_positional? hc hview
    · exact Expr.parts_keyword? hc hview
  next => contradiction

theorem parts_inclusion? {view first : Expr} (h : inclusion? view = some (some first)) :
    first.Part view ∧ first.glyphs.length < view.glyphs.length := by
  obtain ⟨v, hv, hfirst⟩ := Option.map_eq_some_iff.mp h
  exact Expr.parts_positional? (Option.filter_eq_some_iff.mp hv).1 hfirst

theorem parts_tupleHead? {e inner : Expr} (h : tupleHead? e = some inner) :
    inner.Part e ∧ inner.glyphs.length < e.glyphs.length := by
  unfold tupleHead? at h
  split at h
  next =>
    obtain ⟨items, hitems, hinner⟩ := Option.bind_eq_some_iff.mp h
    have hparts := Expr.parts_items? hitems
    have hmem := List.mem_of_mem_head? hinner
    exact ⟨hparts.part inner hmem, hparts.shorter inner hmem⟩
  next => contradiction

theorem parts_listed (e : Expr) : e.Parts (listed e) := by
  have hnone : e.Parts [] :=
    ⟨fun _ h => absurd h List.not_mem_nil, fun _ h => absurd h List.not_mem_nil, .nil⟩
  unfold listed
  split
  · exact hnone
  · rcases hitems : e.items? with _ | items
    · exact hnone
    · exact Expr.parts_items? hitems

theorem Unwraps.part {first e : Expr} (h : Unwraps first e) : e.Part first := by
  induction h with
  | whole => exact .refl _
  | tuple hinner _ ih => exact ih.trans (parts_tupleHead? hinner).1

theorem Unwraps.tupleHead?_eq_none {first e : Expr} (h : Unwraps first e) :
    tupleHead? e = none := by
  induction h with
  | whole hnone => exact hnone
  | tuple _ _ ih => exact ih

theorem Unwraps.unique {first e e' : Expr} (h : Unwraps first e) (h' : Unwraps first e') :
    e = e' := by
  induction h with
  | whole hnone =>
    cases h' with
    | whole => rfl
    | tuple hinner => exact absurd (hnone.symm.trans hinner) (Option.some_ne_none _).symm
  | tuple hinner _ ih =>
    cases h' with
    | whole hnone => exact absurd (hnone.symm.trans hinner) (Option.some_ne_none _).symm
    | tuple hinner' hrest => exact ih (Option.some.inj (hinner.symm.trans hinner') ▸ hrest)

/-- Tuples are unwrapped to something, as they become shorter. -/
theorem exists_unwraps (first : Expr) : ∃ e, Unwraps first e := by
  induction hlength : first.glyphs.length using Nat.strong_induction_on generalizing first with
  | _ n ih =>
    subst hlength
    rcases hinner : tupleHead? first with _ | inner
    · exact ⟨first, .whole hinner⟩
    · obtain ⟨e, he⟩ := ih _ (parts_tupleHead? hinner).2 inner rfl
      exact ⟨e, .tuple hinner he⟩

namespace Site

variable {s : Site}

theorem belongsTo_inclusion (target : Target) (route : List Char) (line : Nat) :
    (s.inclusion target route line).BelongsTo s.table := rfl

theorem belongsTo_viewEntry (view : Expr) (route : List Char) (line : Nat) (metadata : Metadata) :
    (s.viewEntry view route line metadata).BelongsTo s.table := by
  unfold viewEntry
  dsimp only
  split <;> rfl

/-- An item that is no entry adds nothing. -/
theorem entry_of_view?_none {item : Expr} (h : view? item = none) (fuel : Nat) (outer : List Char) :
    s.entry fuel outer item = [] := by
  cases fuel with
  | zero => rw [entry]
  | succ fuel =>
    rw [entry]
    rcases hc : item.call? with _ | c
    · rfl
    · rw [view?, hc, Option.bind_some] at h
      dsimp only
      split
      · rfl
      next view hview =>
        split
        next hkind =>
          rw [if_pos hkind, hview] at h
          contradiction
        next => rfl

/-- An entry adds what its view is, or what its inclusion is given. -/
theorem entry_of_view? {item view : Expr} (h : view? item = some view) (fuel : Nat)
    (outer : List Char) :
    (inclusion? view = none → ∃ e, e.BelongsTo s.table ∧ s.entry (fuel + 1) outer item = [e]) ∧
      (inclusion? view = some none → s.entry (fuel + 1) outer item = []) ∧
      ∀ first, inclusion? view = some (some first) →
        ∃ route line, s.entry (fuel + 1) outer item = s.included fuel first route line := by
  obtain ⟨c, hc, h⟩ := Option.bind_eq_some_iff.mp h
  split at h
  next hkind =>
    rw [entry, hc]
    dsimp only
    rw [h]
    dsimp only
    rw [if_pos hkind, inclusion?]
    rcases hv : view.call? with _ | v
    · exact ⟨fun _ => ⟨_, belongsTo_viewEntry .., rfl⟩, fun h => by contradiction,
        fun _ h => by contradiction⟩
    · dsimp only
      by_cases hinclude : isOneOf ["include"] (lastSegment v.callee) = true
      · rw [if_pos hinclude, Option.filter_some, if_pos hinclude, Option.map_some]
        refine ⟨fun h => by contradiction, fun h => ?_, fun first h => ?_⟩
        · rw [Option.some.inj h]
        · rw [Option.some.inj h]
          exact ⟨_, _, rfl⟩
      · rw [if_neg hinclude, Option.filter_some, if_neg hinclude]
        refine ⟨fun _ => ?_, fun h => by contradiction, fun _ h => by contradiction⟩
        split
        · refine ⟨_, ?_, rfl⟩
          rfl
        · exact ⟨_, belongsTo_viewEntry .., rfl⟩
  next => contradiction

/-- A tuple is read as its first item. -/
theorem included_tuple {first inner : Expr} (h : tupleHead? first = some inner) (fuel : Nat)
    (route : List Char) (line : Nat) :
    s.included (fuel + 1) first route line = s.included fuel inner route line := by
  unfold tupleHead? at h
  split at h
  next hhead =>
    obtain ⟨items, hitems, hinner⟩ := Option.bind_eq_some_iff.mp h
    obtain ⟨rest, rfl⟩ := List.head?_eq_some_iff.mp hinner
    rw [included, Expr.stringValue?_of_items? hitems, hitems]
    dsimp only
    rw [if_pos hhead]
  next => contradiction

/-- Whatever is no tuple adds a link if it is named, and else the entries that it lists. -/
theorem included_whole {e : Expr} (h : tupleHead? e = none) (fuel : Nat) (route : List Char)
    (line : Nat) :
    (IsNamed e → listed e = [] ∧ ∃ target, s.included (fuel + 1) e route line =
      [s.inclusion target route line]) ∧
      (¬ IsNamed e → s.included (fuel + 1) e route line =
        (listed e).flatMap (s.entry fuel route)) := by
  unfold IsNamed listed
  rw [included]
  rcases hstring : e.stringValue? with _ | module
  · rcases hitems : e.items? with _ | items
    · rcases hname : e.namePath? with _ | name
      · simp
      · exact ⟨fun _ => ⟨by simp, _, rfl⟩, by simp⟩
    · have hname : e.namePath? = none := by
        rcases hname : e.namePath? with _ | name
        · rfl
        · rw [Expr.items?_of_namePath? hname] at hitems
          contradiction
      rw [hname]
      dsimp only
      refine ⟨by simp, fun _ => ?_⟩
      split
      next hhead =>
        rw [tupleHead?, if_pos hhead, hitems, Option.bind_some, List.head?_eq_none_iff] at h
        subst h
        simp
      next => rfl
  · have hitems : e.items? = none := by
      rcases hitems : e.items? with _ | items
      · rfl
      · rw [Expr.stringValue?_of_items? hitems] at hstring
        contradiction
    rw [hitems]
    exact ⟨fun _ => ⟨by simp, _, rfl⟩, by simp⟩

theorem included_of_unwraps {first e : Expr} (h : Unwraps first e) {fuel : Nat}
    (hfuel : first.glyphs.length < fuel) (route : List Char) (line : Nat) :
    ∃ fuel', e.glyphs.length ≤ fuel' ∧ s.included fuel first route line =
      s.included (fuel' + 1) e route line := by
  induction h generalizing fuel with
  | @whole e _ =>
    obtain ⟨n, rfl⟩ : ∃ n, fuel = n + 1 := ⟨fuel - 1, by omega⟩
    exact ⟨n, by omega, rfl⟩
  | @tuple e inner x hinner _ ih =>
    obtain ⟨n, rfl⟩ : ∃ n, fuel = n + 1 := ⟨fuel - 1, by omega⟩
    have hlength := (parts_tupleHead? hinner).2
    rw [included_tuple hinner]
    exact ih (by omega)

end Site

/-! ### Traces -/

variable {table : List Char} {P Q : Expr → Prop} {e : Expr} {es : List Emission}

/-- The emissions are links and fragments of the table, one for each expression that has the
property. These are parts of an expression, in their order. -/
def Traced (table : List Char) (P : Expr → Prop) (e : Expr) (es : List Emission) : Prop :=
  ∃ ts : List (Expr × Emission), es = ts.map Prod.snd ∧ (ts.Pairwise fun t u => t.1.Before u.1) ∧
    (∀ t ∈ ts, t.1.Part e ∧ t.2.BelongsTo table) ∧ ∀ x, (∃ em, (x, em) ∈ ts) ↔ P x

namespace Traced

theorem congr (h : Traced table P e es) (hP : ∀ x, P x ↔ Q x) : Traced table Q e es := by
  obtain ⟨ts, hes, hordered, hparts, hcovers⟩ := h
  exact ⟨ts, hes, hordered, hparts, fun x => (hcovers x).trans (hP x)⟩

theorem part {e' : Expr} (h : Traced table P e es) (he : e.Part e') : Traced table P e' es := by
  obtain ⟨ts, hes, hordered, hparts, hcovers⟩ := h
  exact ⟨ts, hes, hordered, fun t ht => ⟨(hparts t ht).1.trans he, (hparts t ht).2⟩, hcovers⟩

theorem nil (hP : ∀ x, ¬ P x) : Traced table P e [] :=
  ⟨[], rfl, .nil, fun _ h => absurd h List.not_mem_nil,
    fun x => ⟨fun ⟨_, h⟩ => absurd h List.not_mem_nil, fun h => (hP x h).elim⟩⟩

theorem singleton {em : Emission} (hem : em.BelongsTo table) (hP : ∀ x, P x ↔ x = e) :
    Traced table P e [em] := by
  refine ⟨[(e, em)], rfl, List.pairwise_singleton .., fun t ht => ?_, fun x => ?_⟩
  · rw [List.mem_singleton.mp ht]
    exact ⟨.refl e, hem⟩
  · rw [hP]
    simp

theorem flatMap {xs : List Expr} {f : Expr → List Emission} {R : Expr → Expr → Prop}
    (hxs : ∀ x ∈ xs, x.Part e) (hordered : xs.Pairwise Before)
    (h : ∀ x ∈ xs, Traced table (R x) x (f x)) :
    Traced table (fun y => ∃ x ∈ xs, R x y) e (xs.flatMap f) := by
  have hall : ∃ ts : List (Expr × Emission), xs.flatMap f = ts.map Prod.snd ∧
      (ts.Pairwise fun t u => t.1.Before u.1) ∧
      (∀ t ∈ ts, (∃ x ∈ xs, t.1.Part x) ∧ t.2.BelongsTo table) ∧ ∀ y, (∃ em, (y, em) ∈ ts) ↔
      ∃ x ∈ xs, R x y := by
    clear hxs
    induction xs with
    | nil => exact ⟨[], rfl, .nil, by simp, by simp⟩
    | cons x xs ih =>
      obtain ⟨hx, hrest⟩ := List.pairwise_cons.mp hordered
      obtain ⟨hfirst, htail⟩ := List.forall_mem_cons.mp h
      obtain ⟨ts, hts, htordered, htparts, htcovers⟩ := hfirst
      obtain ⟨us, hus, huordered, huparts, hucovers⟩ := ih hrest htail
      refine ⟨ts ++ us, by rw [List.flatMap_cons, hts, hus, List.map_append], ?_, fun t ht => ?_,
        fun y => ?_⟩
      · refine List.pairwise_append.mpr ⟨htordered, huordered, fun t ht u hu => ?_⟩
        obtain ⟨⟨x', hx', hpart⟩, -⟩ := huparts u hu
        exact (hx x' hx').mono (htparts t ht).1 hpart
      · rcases List.mem_append.mp ht with ht | ht
        · exact ⟨⟨x, List.mem_cons_self, (htparts t ht).1⟩, (htparts t ht).2⟩
        · obtain ⟨⟨x', hx', hpart⟩, hbelongs⟩ := huparts t ht
          exact ⟨⟨x', List.mem_cons_of_mem x hx', hpart⟩, hbelongs⟩
      · simp only [List.mem_append, exists_or, List.exists_mem_cons_iff]
        rw [htcovers, hucovers]
  obtain ⟨ts, hts, htordered, htparts, htcovers⟩ := hall
  refine ⟨ts, hts, htordered, fun t ht => ?_, htcovers⟩
  obtain ⟨⟨x, hx, hpart⟩, hbelongs⟩ := htparts t ht
  exact ⟨hpart.trans (hxs x hx), hbelongs⟩

end Traced

/-! ### What an entry leads to -/

section Chain

variable {item view first x : Expr}

/-- An item that is no inclusion of anything has nothing else beneath it. -/
theorem beneath_iff_self
    (h : ∀ view, view? item = some view → ∀ first, inclusion? view ≠ some (some first)) :
    Beneath item x ↔ x = item := by
  constructor
  · rintro (_ | ⟨hview, hfirst, -, -⟩)
    · rfl
    · exact absurd hfirst (h _ hview _)
  · rintro rfl
    exact .self x

variable (hview : view? item = some view) (hfirst : inclusion? view = some (some first))
  (he : Unwraps first e)

include hview hfirst he

/-- Beneath an inclusion are the entries that it lists, and what is beneath them. -/
theorem beneath_iff_listed : Beneath item x ↔ x = item ∨ ∃ y ∈ listed e, Beneath y x := by
  constructor
  · rintro (_ | ⟨hview', hfirst', ⟨e', he', hy⟩, hx⟩)
    · exact .inl rfl
    · obtain rfl := Option.some.inj (hview.symm.trans hview')
      obtain rfl := Option.some.inj (Option.some.inj (hfirst.symm.trans hfirst'))
      exact .inr ⟨_, he.unique he' ▸ hy, hx⟩
  · rintro (rfl | ⟨y, hy, hx⟩)
    · exact .self x
    · exact .listed hview hfirst ⟨e, he, hy⟩ hx

theorem leavesTrace_iff_isNamed : LeavesTrace item ↔ IsNamed e := by
  constructor
  · rintro ⟨view', hview', hnone | ⟨first', e', hfirst', he', hnamed⟩⟩
    · rw [← Option.some.inj (hview.symm.trans hview'), hfirst] at hnone
      contradiction
    · obtain rfl := Option.some.inj (hview.symm.trans hview')
      obtain rfl := Option.some.inj (Option.some.inj (hfirst.symm.trans hfirst'))
      exact he.unique he' ▸ hnamed
  · exact fun hnamed => ⟨view, hview, .inr ⟨first, e, hfirst, he, hnamed⟩⟩

end Chain

theorem leavesTrace_iff_of_no_argument {item view : Expr} (hview : view? item = some view)
    (hfirst : ∀ first, inclusion? view ≠ some (some first)) :
    LeavesTrace item ↔ inclusion? view = none := by
  constructor
  · rintro ⟨view', hview', hnone | ⟨first, e, hinclusion, -⟩⟩
    · exact Option.some.inj (hview.symm.trans hview') ▸ hnone
    · exact absurd (Option.some.inj (hview.symm.trans hview') ▸ hinclusion) (hfirst first)
  · exact fun hnone => ⟨view, hview, .inl hnone⟩

namespace Site

variable {item view first e : Expr} {fuel : Nat} {outer : List Char}

/-- An item that is no entry leaves no trace, and nothing is beneath it that does. -/
theorem traced_of_view?_none (s : Site) (hview : view? item = none) :
    Traced s.table (fun x => Beneath item x ∧ LeavesTrace x) item (s.entry fuel outer item) := by
  rw [entry_of_view?_none hview]
  refine .nil fun x ⟨hx, view, hxview, _⟩ => ?_
  obtain rfl := (beneath_iff_self fun view h => by rw [hview] at h; contradiction).mp hx
  rw [hview] at hxview
  contradiction

/-- An entry that includes nothing leaves a trace if it has a view. -/
theorem traced_of_no_argument (s : Site) (hview : view? item = some view)
    (hfirst : ∀ first, inclusion? view ≠ some (some first)) :
    Traced s.table (fun x => Beneath item x ∧ LeavesTrace x) item
      (s.entry (fuel + 1) outer item) := by
  obtain ⟨hplain, hnothing, -⟩ := entry_of_view? (s := s) hview fuel outer
  have hbeneath (x : Expr) : Beneath item x ↔ x = item :=
    beneath_iff_self fun view' h => Option.some.inj (hview.symm.trans h) ▸ hfirst
  have hleaves := leavesTrace_iff_of_no_argument hview hfirst
  simp only [hbeneath]
  rcases hinclusion : inclusion? view with _ | _ | first
  · obtain ⟨em, hem, hentry⟩ := hplain hinclusion
    rw [hentry]
    exact .singleton hem fun x => and_iff_left_of_imp fun hx => hx ▸ hleaves.mpr hinclusion
  · rw [hnothing hinclusion]
    refine .nil fun x ⟨hx, hxleaves⟩ => ?_
    rw [hleaves.mp (hx ▸ hxleaves)] at hinclusion
    contradiction
  · exact absurd hinclusion (hfirst first)

/-- An inclusion leaves a trace if it names what it includes, and else the
traces of what it lists. -/
theorem traced_of_inclusion (s : Site) (hview : view? item = some view)
    (hfirst : inclusion? view = some (some first)) (he : Unwraps first e)
    (hfuel : first.glyphs.length < fuel)
    (hlisted : ∀ depth route, e.glyphs.length ≤ depth → ∀ y ∈ listed e,
      Traced s.table (fun x => Beneath y x ∧ LeavesTrace x) y (s.entry depth route y)) :
    Traced s.table (fun x => Beneath item x ∧ LeavesTrace x) item
      (s.entry (fuel + 1) outer item) := by
  obtain ⟨-, -, hincluded⟩ := entry_of_view? (s := s) hview fuel outer
  obtain ⟨route, line, hentry⟩ := hincluded first hfirst
  obtain ⟨depth, hdepth, hincludes⟩ := included_of_unwraps (s := s) he hfuel route line
  obtain ⟨hnamed, hlists⟩ := included_whole (s := s) he.tupleHead?_eq_none depth route line
  have hbeneath (x : Expr) := beneath_iff_listed (x := x) hview hfirst he
  have hleaves := leavesTrace_iff_isNamed hview hfirst he
  rw [hentry, hincludes]
  by_cases hname : IsNamed e
  · obtain ⟨hnone, target, hlink⟩ := hnamed hname
    rw [hlink]
    refine .singleton (belongsTo_inclusion target route line) fun x => ?_
    simp only [hbeneath, hnone, List.not_mem_nil, false_and, exists_false, or_false]
    exact and_iff_left_of_imp fun hx => hx ▸ hleaves.mpr hname
  · have hparts := parts_listed e
    have hpart : e.Part item :=
      he.part.trans ((parts_inclusion? hfirst).1.trans (parts_view? hview).1)
    rw [hlists hname]
    refine ((Traced.flatMap hparts.part hparts.ordered (hlisted depth route hdepth)).part hpart).congr
      fun x => ?_
    rw [hbeneath]
    constructor
    · rintro ⟨y, hy, hx, hxleaves⟩
      exact ⟨.inr ⟨y, hy, hx⟩, hxleaves⟩
    · rintro ⟨rfl | ⟨y, hy, hx⟩, hxleaves⟩
      · exact absurd (hleaves.mp hxleaves) hname
      · exact ⟨y, hy, hx, hxleaves⟩

/-- As long as the nesting does not exceed the depth, an item adds exactly the traces beneath it.
The induction is on the length of the item: what an entry lists is shorter than the entry. -/
theorem traced_entry (s : Site) {item : Expr} {fuel : Nat} (hfuel : item.glyphs.length < fuel)
    (outer : List Char) :
    Traced s.table (fun x => Beneath item x ∧ LeavesTrace x) item (s.entry fuel outer item) := by
  induction hlength : item.glyphs.length using Nat.strong_induction_on generalizing item fuel outer
    with
  | _ n ih =>
    subst hlength
    obtain ⟨fuel, rfl⟩ : ∃ n, fuel = n + 1 := ⟨fuel - 1, by omega⟩
    rcases hview : view? item with _ | view
    · exact s.traced_of_view?_none hview
    by_cases hfirst : ∃ first, inclusion? view = some (some first)
    · obtain ⟨first, hfirst⟩ := hfirst
      obtain ⟨e, he⟩ := exists_unwraps first
      have hviewLength := (parts_view? hview).2
      have hfirstLength := (parts_inclusion? hfirst).2
      have hshorter := he.part.length_le
      refine s.traced_of_inclusion hview hfirst he (by omega) fun depth route hdepth y hy => ?_
      have hlength := (parts_listed e).shorter y hy
      exact ih _ (by omega) (by omega) route rfl
    · exact s.traced_of_no_argument hview fun first h => hfirst ⟨first, h⟩

end Site

/-! ### Operands -/

/-- What an operand lists: the items of a list, or the arguments of `patterns` behind
the prefix of the views. -/
def operandEntries (e : Expr) : List Expr :=
  match e.items? with
  | some items => items
  | none =>
    match e.namePath? with
    | some _ => []
    | none =>
      match e.call? with
      | some c =>
        if isOneOf ["patterns"] (lastSegment c.callee) then c.args.positionals.drop 1 else []
      | none => []

/-- An operand adds the table that it names, or the traces of what it lists. -/
theorem Site.traced_operand (s : Site) (e : Expr) :
    Traced s.table (fun x => x = e ∧ e.namePath?.isSome = true ∨
      ∃ y ∈ operandEntries e, Beneath y x ∧ LeavesTrace x) e (s.operand e) := by
  have hlist {items : List Expr} (hparts : e.Parts items) :
      Traced s.table (fun x => ∃ y ∈ items, Beneath y x ∧ LeavesTrace x) e
        (items.flatMap (s.entry (e.glyphs.length + 1) [])) := by
    refine Traced.flatMap hparts.part hparts.ordered fun y hy => s.traced_entry ?_ []
    have hlength := hparts.shorter y hy
    omega
  have hnothing : Traced s.table (fun x => ∃ y ∈ ([] : List Expr), Beneath y x ∧ LeavesTrace x) e
      [] :=
    .nil fun _ ⟨_, h, _⟩ => absurd h List.not_mem_nil
  unfold operand operandEntries
  dsimp only
  rcases hitems : e.items? with _ | items
  · rcases hname : e.namePath? with _ | name
    · dsimp only
      simp only [Option.isSome_none, Bool.false_eq_true, and_false, false_or]
      rcases hc : e.call? with _ | c
      · exact hnothing
      · dsimp only
        split
        · exact hlist ((Expr.parts_call? hc).1.sublist (List.drop_sublist 1 _))
        · exact hnothing
    · refine .singleton (belongsTo_inclusion ..) fun x => ?_
      simp
  · have hname : e.namePath? = none := by
      rcases hname : e.namePath? with _ | name
      · rfl
      · rw [Expr.items?_of_namePath? hname] at hitems
        contradiction
    rw [hname]
    simp only [Option.isSome_none, Bool.false_eq_true, and_false, false_or]
    exact hlist (Expr.parts_items? hitems)

theorem Site.operand_of_isEmpty (s : Site) {e : Expr} (h : e.isEmpty = true) :
    s.operand e = [] := by
  obtain ⟨glyphs, offset⟩ := e
  obtain rfl : glyphs = [] := List.isEmpty_iff.mp h
  rfl

/-! ### Tables -/

/-- The operands of the sum that is assigned to a table. -/
def operands (c : Context) : List Expr :=
  match assigned? c.expr.masked with
  | some (_, value) =>
    let sum := c.expr.tail (c.expr.offsetOf value)
    (sum.split '+' 0 sum.width).filter (!·.isEmpty)
  | none => []

def tableName (c : Context) : List Char :=
  match assigned? c.expr.masked with
  | some (name, _) => c.expr.chars 0 (width name)
  | none => []

/-- What is assigned stands behind an equals sign. -/
theorem suffix_of_assigned? {masked name value : List Char}
    (h : assigned? masked = some (name, value)) : '=' :: value <:+ masked := by
  simp only [assigned?, bind, Option.bind_eq_some_iff] at h
  obtain ⟨⟨word, rest⟩, hword, h⟩ := h
  have hrest : rest <:+ masked := ⟨word, (word?_eq_some_iff.mp hword).2.1.symm⟩
  split at h
  next => contradiction
  next =>
    -- White space and an annotation are passed over before the equals sign.
    have htrim : trimStart rest <:+ rest := List.dropWhile_suffix _
    generalize hskipped : (if (trimStart rest).head? == some ':'
      then (trimStart rest).dropWhile (· != '=')
      else trimStart rest) = skipped at h
    have hsuffix : skipped <:+ masked := by
      rw [← hskipped]
      split
      · exact (List.dropWhile_suffix _).trans (htrim.trans hrest)
      · exact htrim.trans hrest
    split at h
    · obtain ⟨-, rfl⟩ := Prod.mk.inj (Option.some.inj h)
      exact hsuffix
    · obtain ⟨-, rfl⟩ := Prod.mk.inj (Option.some.inj h)
      exact (List.suffix_cons _ _).trans hsuffix
    · contradiction

/-- The operands are parts of the statement in order. -/
theorem operands_part (c : Context) :
    (∀ x ∈ operands c, x.Part c.expr) ∧ (operands c).Pairwise Before := by
  unfold operands
  split
  next name value hassigned =>
    obtain ⟨us, hus⟩ := suffix_of_assigned? hassigned
    have hcut := (Glyph.isCut_of_maskedText (c := '=') hus.symm (by decide)).2
    have hwidth := congrArg Text.width hus
    rw [Text.width_append, Text.width_cons, Expr.masked, width_maskedText_eq] at hwidth
    have hoffset : min (c.expr.offsetOf value) c.expr.width = Text.width us + '='.utf8Size := by
      rw [Expr.offsetOf, Expr.width]
      omega
    have htail : (c.expr.tail (c.expr.offsetOf value)).Part c.expr := by
      rw [Expr.tail, hoffset]
      exact (Expr.slice_part hcut (Glyph.isCut_width _)).1
    generalize c.expr.tail (c.expr.offsetOf value) = sum at htail
    have hveil : '+' ≠ '_' := by decide
    obtain ⟨hparts, hordered⟩ :=
      Expr.split_part (e := sum) hveil (Glyph.isCut_zero _) (Glyph.isCut_width _)
    exact ⟨fun x hx => (hparts x (List.mem_filter.mp hx).1).1.trans htail, hordered⟩
  next => exact ⟨fun _ h => absurd h List.not_mem_nil, .nil⟩

/-- A table is a node, and then what its operands add. -/
theorem match?_eq {c : Context} {es : List Emission} (h : match? c = some es) :
    es = .node (tableName c) .urlTable [] {} [] c.line :: (operands c).flatMap
      (Site.operand ⟨c, tableName c⟩) := by
  have hempty (s : Site) (xs : List Expr) : xs.flatMap s.operand =
      (xs.filter (!·.isEmpty)).flatMap s.operand := by
    induction xs with
    | nil => rfl
    | cons x xs ih =>
      rw [List.flatMap_cons, ih, List.filter_cons]
      by_cases hx : x.isEmpty = true
      · rw [s.operand_of_isEmpty hx, hx]
        rfl
      · simp [hx]
  simp only [match?, bind, Option.bind_eq_some_iff] at h
  obtain ⟨⟨name, value⟩, hassigned, h⟩ := h
  split at h
  next => contradiction
  next =>
    obtain rfl := Option.some.inj h
    rw [tableName, operands, hassigned]
    dsimp only
    rw [hempty]

/-- An expression stands as an item in a table: in a list operand, as an argument of `patterns`, or
in an inline inclusion beneath one of these. -/
def Occurs (c : Context) (x : Expr) : Prop :=
  ∃ operand ∈ operands c, ∃ item ∈ operandEntries operand, Beneath item x

/-- A view that includes nothing: the inclusion has no argument, or one that is no
text, no name and no list. -/
def Unread (view : Expr) : Prop :=
  inclusion? view = some none ∨
    ∃ first e, inclusion? view = some (some first) ∧ Unwraps first e ∧ ¬ IsNamed e ∧ e.items? = none

/-- Traces of the operands of a table, and of what occurs in them. -/
theorem traced_operands (c : Context) :
    Traced (tableName c)
      (fun x => x ∈ operands c ∧ x.namePath?.isSome = true ∨ Occurs c x ∧ LeavesTrace x) c.expr
      ((operands c).flatMap (Site.operand ⟨c, tableName c⟩)) := by
  obtain ⟨hparts, hordered⟩ := operands_part c
  refine (Traced.flatMap hparts hordered fun e _ => Site.traced_operand ⟨c, tableName c⟩ e).congr
    fun x => ?_
  constructor
  · rintro ⟨e, he, ⟨rfl, hname⟩ | ⟨y, hy, hx, hleaves⟩⟩
    · exact .inl ⟨he, hname⟩
    · exact .inr ⟨⟨e, he, y, hy, hx⟩, hleaves⟩
  · rintro (⟨hx, hname⟩ | ⟨⟨e, he, y, hy, hx⟩, hleaves⟩)
    · exact ⟨x, hx, .inl ⟨rfl, hname⟩⟩
    · exact ⟨e, he, .inr ⟨y, hy, hx, hleaves⟩⟩

/-- What an entry lists occurs where the entry does. -/
theorem Occurs.listed {c : Context} {x view first y : Expr} (h : Occurs c x)
    (hview : view? x = some view) (hfirst : inclusion? view = some (some first))
    (hy : Lists first y) : Occurs c y := by
  obtain ⟨e, he, item, hitem, hx⟩ := h
  refine ⟨e, he, item, hitem, ?_⟩
  clear hitem
  induction hx with
  | self item => exact .listed hview hfirst hy (.self y)
  | listed hview' hfirst' hy' _ ih => exact .listed hview' hfirst' hy' (ih hview)

/-- Every entry of a table leaves a trace, exactly one link or fragment, if it is no inclusion or
names what it includes. An inclusion of a list leaves the traces of the items of the list, which
occur in the table as well. Only an inclusion that is given none of these leaves nothing. Traces
come in the order of their entries. -/
theorem entries_leave_traces {c : Context} {es : List Emission} (h : match? c = some es) :
    ∃ ts : List (Expr × Emission),
      es = .node (tableName c) .urlTable [] {} [] c.line :: ts.map Prod.snd ∧
      (ts.Pairwise fun t u => t.1.Before u.1) ∧
      (∀ t ∈ ts, t.1.Part c.expr ∧ t.2.BelongsTo (tableName c)) ∧
      (∀ x, (∃ e, (x, e) ∈ ts) ↔
        x ∈ operands c ∧ x.namePath?.isSome = true ∨ Occurs c x ∧ LeavesTrace x) ∧
      ∀ x view, Occurs c x → view? x = some view → (∃ e, (x, e) ∈ ts) ∨
        (∃ first e items, inclusion? view = some (some first) ∧ Unwraps first e ∧
          e.items? = some items ∧ ∀ y ∈ items, Occurs c y) ∨
        Unread view := by
  obtain ⟨ts, hes, hordered, hparts, hcovers⟩ := traced_operands c
  refine ⟨ts, by rw [match?_eq h, hes], hordered, hparts, hcovers, fun x view hx hview => ?_⟩
  rcases hinclusion : inclusion? view with _ | _ | first
  · exact .inl ((hcovers x).mpr (.inr ⟨hx, view, hview, .inl hinclusion⟩))
  · exact .inr (.inr (.inl hinclusion))
  · obtain ⟨e, he⟩ := exists_unwraps first
    by_cases hnamed : IsNamed e
    · exact .inl ((hcovers x).mpr (.inr ⟨hx, view, hview, .inr ⟨first, e, hinclusion, he, hnamed⟩⟩))
    · rcases hitems : e.items? with _ | items
      · exact .inr (.inr (.inr ⟨first, e, hinclusion, he, hnamed, hitems⟩))
      · refine .inr (.inl ⟨first, e, items, rfl, he, hitems, fun y hy => ?_⟩)
        refine hx.listed hview hinclusion ⟨e, he, ?_⟩
        have hnone := he.tupleHead?_eq_none
        rw [tupleHead?, hitems, Option.bind_some] at hnone
        unfold UrlTable.listed
        split at hnone
        next => rw [List.head?_eq_none_iff.mp hnone] at hy; contradiction
        next hhead => rwa [if_neg hhead, hitems, Option.getD_some]

/-- The context of a statement that stands by itself. -/
def alone (s : Statement) : Context where
  language := .python
  statement := s
  following := []
  owner? := none
  routers := []
  verbAliases := []
  imports := .empty [] .python

theorem entries_leave_traces_inline :
    ∃ s ∈ (readStatements .python
        "urlpatterns = [path('a/', include([path('b', v)]))]".toList).statements,
      ∃ es, match? (alone s) = some es ∧ ∃ ts : List (Expr × Emission), ts.length = 1 ∧
        es = .node "urlpatterns".toList .urlTable [] {} [] 1 :: ts.map Prod.snd ∧
        ∀ t ∈ ts, t.1.Part (alone s).expr ∧ t.2.BelongsTo "urlpatterns".toList := by
  have htable :
      ∃ s ∈ (readStatements .python
        "urlpatterns = [path('a/', include([path('b', v)]))]".toList).statements,
        ((match? (alone s)).any fun es => es.length == 2) = true ∧
        tableName (alone s) = "urlpatterns".toList ∧ (alone s).line = 1 := by decide +kernel
  obtain ⟨s, hs, hlength, hname, hline⟩ := htable
  obtain ⟨es, hes, hlength⟩ := (Option.any_eq_true _ _).mp hlength
  obtain ⟨ts, heq, -, hparts, -⟩ := entries_leave_traces hes
  rw [hname] at hparts
  rw [hname, hline] at heq
  refine ⟨s, hs, es, hes, ts, ?_, heq, hparts⟩
  rw [heq] at hlength
  simpa using hlength

/-- An inclusion of what a call returns leaves nothing, although its entry has a view. -/
theorem inclusion_of_call_leaves_nothing :
    ∃ s ∈ (readStatements .python "urlpatterns = [path('a/', include(get()))]".toList).statements,
      match? (alone s) = some [.node "urlpatterns".toList .urlTable [] {} [] 1] ∧
        ∃ item view, Occurs (alone s) item ∧ view? item = some view := by
  have htable :
      ∃ s ∈ (readStatements .python "urlpatterns = [path('a/', include(get()))]".toList).statements,
        match? (alone s) = some [.node "urlpatterns".toList .urlTable [] {} [] 1] ∧
        ∃ e ∈ operands (alone s), ∃ item ∈ operandEntries e, (view? item).isSome = true := by
          decide +kernel
  obtain ⟨s, hs, hmatch, e, he, item, hitem, hview⟩ := htable
  obtain ⟨view, hview⟩ := Option.isSome_iff_exists.mp hview
  exact ⟨s, hs, hmatch, item, view, ⟨e, he, item, hitem, .self item⟩, hview⟩

end UrlTable

end EndpointCensus
