import EndpointCensus.Proofs.Statement.Concatenation
import EndpointCensus.Proofs.Statement.Substance

/-!
Invariants of assembly. Whatever is read, a draft is changed in few ways: code is appended, a
literal is, a bracket is counted, and at the end of a line a continuation is dropped. So what these
changes keep holds of every draft and of every statement. A bracket is counted before its text is
appended, so while a line is read an invariant may speak of what was read and not appended.
-/

namespace EndpointCensus

def Line.HasCode (l : Line) (c : Char) : Prop := ∃ s ∈ l.segments, s.kind = .code ∧ c ∈ s.chars

/-- The part of a line that was read. -/
structure LinePart where
  /-- Its code and literals so far. -/
  live : List Char := []
  /-- Its code since the last literal. -/
  code : List Char := []
  /-- What of that was not appended yet, in reverse. -/
  seen : List Char := []

namespace LinePart

def read (r : LinePart) (c : Char) : LinePart := ⟨r.live ++ [c], r.code ++ [c], c :: r.seen⟩

def settle (r : LinePart) : LinePart := { r with seen := [] }

def literal (r : LinePart) (cs : List Char) : LinePart := ⟨r.live ++ cs, [], []⟩

def segments (r : LinePart) : List Segment → LinePart
  | [] => r
  | s :: rest =>
    match s.kind with
    | .comment => r.segments rest
    | .code => segments ⟨r.live ++ s.chars, r.code ++ s.chars, []⟩ rest
    | .literal => segments (r.literal s.chars) rest

/-- What was not appended is the end of the code. -/
def Consistent (r : LinePart) : Prop :=
  ∃ live code, r.live = live ++ r.seen.reverse ∧ r.code = code ++ r.seen.reverse

theorem Consistent.read {r : LinePart} (h : r.Consistent) (c : Char) : (r.read c).Consistent := by
  obtain ⟨live, code, hlive, hcode⟩ := h
  exact ⟨live, code, by simp [LinePart.read, hlive], by simp [LinePart.read, hcode]⟩

theorem consistent_of_seen {r : LinePart} (h : r.seen = []) :
    r.Consistent := ⟨r.live, r.code, by simp [h], by simp [h]⟩

theorem seen_segments {r : LinePart} (h : r.seen = []) (segments : List Segment) :
    (r.segments segments).seen = [] := by
  induction segments generalizing r with
  | nil => exact h
  | cons s rest ih =>
    unfold LinePart.segments
    cases s.kind with
    | comment => exact ih h
    | code => exact ih rfl
    | literal => exact ih rfl

theorem live_segments (r : LinePart) (segments : List Segment) :
    (r.segments segments).live = r.live ++ liveText segments := by
  induction segments generalizing r with
  | nil => exact (List.append_nil r.live).symm
  | cons s rest ih =>
    unfold LinePart.segments
    rw [liveText_cons]
    cases s.kind with
    | comment => simp [ih]
    | code => simp [ih]
    | literal => simp [ih, LinePart.literal]

end LinePart

/-! ### Drafts -/

/-- What drafts keep on line `l`. `Rest` holds between lines, `Rest'` behind this one and `Mid`
while it is read; `Good` is what becomes of the statements. -/
structure Draft.KeptOn (l : Line) (Good : Statement → Prop) (Rest Rest' : Draft → Prop)
    (Mid : LinePart → Draft → Prop) : Prop where
  skip : ∀ {d}, Rest d → Rest' d
  enter : ∀ {d r}, Rest d → r.Consistent → Mid r d
  start : ∀ {r}, r.Consistent → Mid r (.ofLine l)
  openBracket : ∀ {d r c}, Mid r d → l.HasCode c → Text.isOpener c = true →
    Mid (r.read c) d.openBracket
  closeBracket : ∀ {d r c}, Mid r d → l.HasCode c → Text.isCloser c = true →
    Mid (r.read c) d.closeBracket
  read : ∀ {d r c}, Mid r d → l.HasCode c → Text.isCloser c = false → Mid (r.read c) d
  pushCode : ∀ {d r}, Mid r d → r.Consistent → (∀ c ∈ r.seen, l.HasCode c) →
    Mid r.settle (d.pushCode l.number r.seen.reverse)
  pushLiteral : ∀ {d r s continues}, Mid r d → r.seen = [] → s ∈ l.segments → s.kind = .literal →
    (continues = true → l.literalOpen = true) →
    Mid (r.literal s.chars) (d.pushLiteral l.number s.chars continues)
  stay : ∀ {d}, Mid (({} : LinePart).segments l.segments) d → d.isOpen = true → Rest' d
  resume : ∀ {d e}, Mid (({} : LinePart).segments l.segments) d → d.isOpen = false →
    d.withoutContinuation? = some e → Rest' e
  wait : ∀ {d}, Mid (({} : LinePart).segments l.segments) d → d.isOpen = false →
    d.withoutContinuation? = none → Rest' d
  finish : ∀ {d s r}, Mid r d → r.seen = [] → r.live <+: liveText l.segments → d.finish = some s →
    Good s

namespace Assembly

/-- `Good` holds of every statement, `Rest` of a draft that is held back and
`Open` of the open one. -/
structure Has (Good : Statement → Prop) (Rest Open : Draft → Prop) (a : Assembly) : Prop where
  finished : ∀ s ∈ a.finished, Good s
  pending : ∀ d, a.pending = some d → Rest d
  current : ∀ d, a.current = some d → Open d

variable {a : Assembly} {language : Language} {l : Line} {Good : Statement → Prop}
  {Rest Rest' Open Open' : Draft → Prop} {Mid : LinePart → Draft → Prop}

theorem Has.emit (h : a.Has Good Rest Open) {d : Draft} (hd : ∀ s, d.finish = some s → Good s) :
    (a.emit d).Has Good Rest Open := by
  refine ⟨?_, ?_, ?_⟩
  · unfold Assembly.emit
    split
    · next s hs =>
      intro t ht
      rcases List.mem_cons.mp ht with rfl | ht
      · exact hd t hs
      · exact h.finished t ht
    · exact h.finished
  · rw [pending_emit]
    exact h.pending
  · rw [current_emit]
    exact h.current

theorem Has.flushPending (h : a.Has Good Rest Open)
    (hrest : ∀ d s, Rest d → d.finish = some s → Good s) : a.flushPending.Has Good Rest Open := by
  unfold Assembly.flushPending
  split
  · next d hd =>
    have hnone : ({ a with pending := none } : Assembly).Has Good Rest Open :=
      ⟨h.finished, fun _ hc => by contradiction, h.current⟩
    exact hnone.emit fun s hs => hrest d s (h.pending d hd) hs
  · exact h

theorem Has.modifyCurrent (h : a.Has Good Rest Open) {f : Draft → Draft}
    (hf : ∀ d, Open d → Open' (f d)) : (a.modifyCurrent f).Has Good Rest Open' := by
  refine ⟨h.finished, h.pending, fun d hd => ?_⟩
  obtain ⟨e, he, rfl⟩ := Option.map_eq_some_iff.mp hd
  exact hf e (h.current e he)

/-- A change is made to the open draft, to the one that was held back or to a new one. -/
theorem Has.modifyFor (h : a.Has Good Rest Open)
    (hrest : ∀ d s, Rest d → d.finish = some s → Good s) (chunk : List Char) {f : Draft → Draft}
    (hopen : ∀ d, Open d → Open' (f d)) (hheld : ∀ d, Rest d → Open' (f d))
    (hnew : Open' (f (.ofLine l))) : (a.modifyFor language l chunk f).Has Good Rest Open' := by
  have hplaced {b : Assembly} (hb : b.Has Good Rest Open) {d : Draft} (hd : Open' (f d)) :
      ({ b with current := some (f d) } : Assembly).Has Good Rest Open' := by
    refine ⟨hb.finished, hb.pending, fun e he => ?_⟩
    obtain rfl : f d = e := Option.some.inj he
    exact hd
  unfold Assembly.modifyFor
  split
  · next _ d hd => exact hplaced h (hopen d (h.current d hd))
  · next d hnone hd =>
    split
    · have htaken : ({ a with pending := none } : Assembly).Has Good Rest Open :=
        ⟨h.finished, fun _ hc => by contradiction, h.current⟩
      exact hplaced htaken (hheld d (h.pending d hd))
    · exact hplaced (h.flushPending hrest) hnew
  · exact hplaced h hnew

theorem current_endStatement (a : Assembly) : a.endStatement.current = none := by
  unfold endStatement
  split
  · rw [current_emit, current_flushPending]
  · assumption

theorem Has.endStatement (h : a.Has Good Rest Open)
    (hrest : ∀ d s, Rest d → d.finish = some s → Good s)
    (hopen : ∀ d s, Open d → d.finish = some s → Good s) : a.endStatement.Has Good Rest Open' := by
  have hkept : a.endStatement.Has Good Rest Open := by
    unfold Assembly.endStatement
    split
    · next d hd =>
      have hnone : ({ a with current := none } : Assembly).Has Good Rest Open :=
        ⟨h.finished, h.pending, fun _ hc => by contradiction⟩
      exact (hnone.flushPending hrest).emit fun s hs => hopen d s (h.current d hd) hs
    · exact h
  refine ⟨hkept.finished, hkept.pending, fun d hd => ?_⟩
  rw [current_endStatement] at hd
  contradiction

end Assembly

namespace Draft.KeptOn

open Assembly (Has)

variable {a : Assembly} {language : Language} {l : Line} {Good : Statement → Prop}
  {Rest Rest' : Draft → Prop} {Mid : LinePart → Draft → Prop} (k : KeptOn l Good Rest Rest' Mid)

include k

theorem finish_rest (d : Draft) (s : Statement) (hd : Rest d) (hs : d.finish = some s) : Good s :=
  k.finish (r := {}) (k.enter hd (LinePart.consistent_of_seen rfl)) rfl (List.nil_prefix) hs

theorem has_pushCode {r : LinePart} (h : a.Has Good Rest (Mid r)) (hr : r.Consistent)
    (hseen : ∀ c ∈ r.seen, l.HasCode c) :
    (a.pushCode language l r.seen.reverse).Has Good Rest (Mid r.settle) := by
  unfold Assembly.pushCode
  split
  · exact h.modifyCurrent fun d hd => k.pushCode hd hr hseen
  · exact h.modifyFor k.finish_rest _ (fun d hd => k.pushCode hd hr hseen)
      (fun d hd => k.pushCode (k.enter hd hr) hr hseen) (k.pushCode (k.start hr) hr hseen)

theorem has_feedCode (language : Language) {r : LinePart} (h : a.Has Good Rest (Mid r))
    (hr : r.Consistent) (hseen : ∀ c ∈ r.seen, l.HasCode c) {rest : List Char}
    (hrest : ∀ c ∈ rest, l.HasCode c) (hlive : r.live ++ rest <+: liveText l.segments) :
    (a.feedCode language l (r.seen.reverse ++ rest) r.seen rest).Has Good Rest
      (Mid ⟨r.live ++ rest, r.code ++ rest, []⟩) := by
  induction rest generalizing a r with
  | nil =>
    rw [List.append_nil, List.append_nil, List.append_nil]
    exact k.has_pushCode h hr hseen
  | cons c rest ih =>
    have hc : l.HasCode c := hrest c List.mem_cons_self
    have hseen' : ∀ d ∈ (r.read c).seen, l.HasCode d :=
      fun d hd => (List.mem_cons.mp hd).elim (· ▸ hc) (hseen d)
    have hrest' := fun d hd => hrest d (List.mem_cons_of_mem c hd)
    have hchunk : r.seen.reverse ++ c :: rest = (r.read c).seen.reverse ++ rest := by
      simp [LinePart.read]
    have hlive' : (r.read c).live ++ rest <+: liveText l.segments := by
      simpa [LinePart.read] using hlive
    have hread {b : Assembly} (hb : b.Has Good Rest (Mid (r.read c))) :
        (b.feedCode language l (r.seen.reverse ++ c :: rest) (c :: r.seen) rest).Has Good Rest
          (Mid ⟨r.live ++ c :: rest, r.code ++ c :: rest, []⟩) := by
      have hnext := ih hb (hr.read c) hseen' hrest' hlive'
      rw [← hchunk] at hnext
      simpa [LinePart.read] using hnext
    unfold Assembly.feedCode
    split
    · next hopener =>
      exact hread (h.modifyFor k.finish_rest _ (fun d hd => k.openBracket hd hc hopener)
        (fun d hd => k.openBracket (k.enter hd hr) hc hopener)
        (k.openBracket (k.start hr) hc hopener))
    · split
      · next hcloser => exact hread (h.modifyCurrent fun d hd => k.closeBracket hd hc hcloser)
      · next hcloser =>
        split
        · have hended : (a.pushCode language l r.seen.reverse).endStatement.Has Good Rest
              (Mid (r.read c).settle) :=
            (k.has_pushCode h hr hseen).endStatement k.finish_rest fun d s hd hs =>
              k.finish hd rfl ((List.prefix_append r.live (c :: rest)).trans hlive) hs
          have hnext :=
            ih hended (LinePart.consistent_of_seen rfl) (fun d hd => absurd hd List.not_mem_nil)
              hrest' hlive'
          simpa [LinePart.read, LinePart.settle] using hnext
        · exact hread ⟨h.finished, h.pending, fun d hd => k.read (h.current d hd) hc
            (Bool.eq_false_iff.mpr hcloser)⟩

theorem has_feedSegments (language : Language) {r : LinePart} (h : a.Has Good Rest (Mid r))
    (hr : r.seen = []) {segments : List Segment} (hsegments : ∀ s ∈ segments, s ∈ l.segments)
    (hlive : (r.segments segments).live = liveText l.segments) :
    (a.feedSegments language l segments).Has Good Rest (Mid (r.segments segments)) := by
  induction segments generalizing a r with
  | nil => exact h
  | cons s rest ih =>
    have hs : s ∈ l.segments := hsegments s List.mem_cons_self
    have hrest := fun t ht => hsegments t (List.mem_cons_of_mem s ht)
    unfold Assembly.feedSegments LinePart.segments
    unfold LinePart.segments at hlive
    cases hkind : s.kind with
    | comment =>
      rw [hkind] at hlive
      exact ih h hr hrest hlive
    | code =>
      rw [hkind] at hlive
      have hread : r.live ++ s.chars <+: liveText l.segments := by
        rw [← hlive]
        rw [LinePart.live_segments]
        exact List.prefix_append _ _
      have hnone : ∀ c ∈ r.seen, l.HasCode c := fun c hc => by
        rw [hr] at hc
        contradiction
      have hchunk : ∀ c ∈ s.chars, l.HasCode c := fun c hc => ⟨s, hs, hkind, hc⟩
      have hcode := k.has_feedCode language h (LinePart.consistent_of_seen hr) hnone hchunk hread
      rw [hr] at hcode
      exact ih hcode rfl hrest hlive
    | literal =>
      rw [hkind] at hlive
      have hr' := LinePart.consistent_of_seen hr
      have hcontinues : (l.literalOpen && !rest.any (·.kind == .literal)) = true →
          l.literalOpen = true :=
        fun h => (Bool.and_eq_true_iff.mp h).1
      refine ih (h.modifyFor k.finish_rest _ (fun d hd => ?_) (fun d hd => ?_) ?_) rfl hrest hlive
      · exact k.pushLiteral hd hr hs hkind hcontinues
      · exact k.pushLiteral (k.enter hd hr') hr hs hkind hcontinues
      · exact k.pushLiteral (k.start hr') hr hs hkind hcontinues

theorem has_endLine (h : a.Has Good Rest (Mid (({} : LinePart).segments l.segments))) :
    (a.endLine language).Has Good Rest' Rest' := by
  have hpending : ∀ d, a.pending = some d → Rest' d := fun d hd => k.skip (h.pending d hd)
  unfold Assembly.endLine
  split
  · next hnone =>
    refine ⟨h.finished, hpending, fun d hd => ?_⟩
    rw [hnone] at hd
    contradiction
  · next d hd =>
    have hmid := h.current d hd
    split
    · next hopen =>
      refine ⟨h.finished, hpending, fun e he => ?_⟩
      obtain rfl : d = e := Option.some.inj (hd.symm.trans he)
      exact k.stay hmid hopen
    · next hopen =>
      have hclosed : d.isOpen = false := Bool.eq_false_iff.mpr hopen
      have hnone : ({ a with current := none } : Assembly).Has Good Rest Rest' :=
        ⟨h.finished, h.pending, fun _ hc => by contradiction⟩
      split
      · next e he =>
        refine ⟨h.finished, hpending, fun e' he' => ?_⟩
        obtain rfl : e = e' := Option.some.inj he'
        exact k.resume hmid hclosed he
      · next hwhole =>
        split
        · have hflushed := hnone.flushPending k.finish_rest
          refine ⟨hflushed.finished, fun e he => ?_, hflushed.current⟩
          obtain rfl : d = e := Option.some.inj he
          exact k.wait hmid hclosed hwhole
        · have hemitted : ({ a with current := none }.emit d : Assembly).Has Good Rest Rest' := by
            refine hnone.emit fun s hs => ?_
            refine k.finish hmid (LinePart.seen_segments rfl l.segments) ?_ hs
            rw [LinePart.live_segments]
            exact List.prefix_rfl
          exact ⟨hemitted.finished, fun e he => k.skip (hemitted.pending e he), hemitted.current⟩

theorem has_feedLine (language : Language) (h : a.Has Good Rest Rest) :
    (a.feedLine language l).Has Good Rest' Rest' := by
  unfold Assembly.feedLine
  split
  · exact ⟨h.finished, fun d hd => k.skip (h.pending d hd), fun d hd => k.skip (h.current d hd)⟩
  · have hstart : a.Has Good Rest (Mid {}) :=
      ⟨h.finished, h.pending, fun d hd => k.enter (h.current d hd) (LinePart.consistent_of_seen rfl)⟩
    exact k.has_endLine (k.has_feedSegments language hstart rfl (fun _ hs => hs)
      (LinePart.live_segments {} l.segments))

end Draft.KeptOn

/-- What drafts keep on each line, by its number, holds of every statement of the lines. -/
theorem Assembly.has_foldl_feedLine {language : Language} {Good : Statement → Prop}
    {Rest : Nat → Draft → Prop} {Mid : Line → LinePart → Draft → Prop} {lines : List Line} {m : Nat}
    {a : Assembly} (h : a.Has Good (Rest m) (Rest m))
    (hlines : lines.Pairwise fun l l' => l.number < l'.number) (hm : ∀ l ∈ lines, m < l.number)
    (hkept : ∀ l ∈ lines, ∀ n < l.number, Draft.KeptOn l Good (Rest n) (Rest l.number) (Mid l)) :
    ∃ n, (lines.foldl (Assembly.feedLine language) a).Has Good (Rest n) (Rest n) := by
  induction lines generalizing a m with
  | nil => exact ⟨m, h⟩
  | cons l rest ih =>
    obtain ⟨hfirst, hrest⟩ := List.pairwise_cons.mp hlines
    have hline := (hkept l List.mem_cons_self m (hm l List.mem_cons_self)).has_feedLine language h
    exact ih hline hrest hfirst fun l' hl' => hkept l' (List.mem_cons_of_mem l hl')

/-- What drafts keep on each line that is read holds of every statement of a text. -/
theorem Statement.good_of_mem_readStatements {language : Language} {cs : List Char}
    {Good : Statement → Prop} {Rest : Nat → Draft → Prop} {Mid : Line → LinePart → Draft → Prop}
    (hkept : ∀ l ∈ (classify language cs).readable, ∀ n < l.number,
      Draft.KeptOn l Good (Rest n) (Rest l.number) (Mid l))
    (hrest : ∀ n d s, Rest n d → d.finish = some s → Good s) {s : Statement}
    (h : s ∈ (readStatements language cs).statements) : Good s := by
  have hnumbers : (classify language cs).lines.map Line.number =
      List.range' 1 (physicalLines cs).length :=
    map_number_scanLines language 1 .code (physicalLines cs)
  have hlines : (classify language cs).lines.Pairwise fun l l' => l.number < l'.number := by
    rw [← List.pairwise_map (f := Line.number) (R := (· < ·)), hnumbers]
    exact List.pairwise_lt_range'
  have hpositive : ∀ l ∈ (classify language cs).lines, 0 < l.number := by
    intro l hl
    have hmem := List.mem_map_of_mem (f := Line.number) hl
    rw [hnumbers, List.mem_range'_1] at hmem
    omega
  have hreadable := (classify language cs).prefix_lines
  have hstart : ({} : Assembly).Has Good (Rest 0) (Rest 0) :=
    ⟨fun _ hs => absurd hs List.not_mem_nil, fun _ hd => by contradiction,
      fun _ hd => by contradiction⟩
  obtain ⟨n, hfold⟩ := Assembly.has_foldl_feedLine hstart (hlines.sublist hreadable.sublist)
    (fun l hl => hpositive l (hreadable.subset hl)) hkept
  rw [readStatements, LineTable.assemble_eq] at h
  exact (hfold.flushPending (hrest n)).finished s (List.mem_reverse.mp h)

end EndpointCensus
