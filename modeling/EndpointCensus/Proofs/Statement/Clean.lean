import EndpointCensus.Proofs.Line.Closed
import EndpointCensus.Proofs.Statement.Invariant

/-!
Statements of closed literals. Where every literal of a text is closed on its own line, a statement
is made of whole literals, and its code has no delimiters. No literal is ever open in a draft then,
so code is trimmed and cut back without any regard to literals.
-/

namespace EndpointCensus

/-- A literal is closed, and code has no delimiters. -/
def Piece.Clean (language : Language) : Piece → Prop
  | code cells => ∀ c ∈ cells, language.opensLiteral c.char = false
  | literal cells => IsClosed (cells.map Cell.char)

/-- All literals of the statement are closed, and its code has no delimiters. -/
def Statement.Clean (language : Language) (s : Statement) : Prop := ∀ p ∈ s.pieces, p.Clean language

theorem opensLiteral_of_isBlank (language : Language) {c : Char} (h : Text.isBlank c = true) :
    language.opensLiteral c = false := by
  rw [Bool.eq_false_iff]
  intro hopens
  have hdelimiter : isDelimiter c = true := by
    cases language with
    | python => exact isDelimiter_of_isQuote hopens
    | script => exact hopens
  rw [isDelimiter_of_isBlank h] at hdelimiter
  contradiction

namespace Draft

variable {language : Language} {d : Draft}

structure Clean (language : Language) (d : Draft) : Prop where
  settled : ∀ p ∈ d.settled, p.Clean language
  tail : ∀ c ∈ d.tail, language.opensLiteral c.char = false
  openLiteral : d.openLiteral = none

namespace Clean

theorem append (h : d.Clean language) {cells : List Cell}
    (hcells : ∀ c ∈ cells, language.opensLiteral c.char = false) :
    (d.append cells).Clean language := by
  unfold Draft.append
  rw [h.openLiteral]
  refine ⟨h.settled, fun c hc => ?_, rfl⟩
  rcases List.mem_append.mp hc with hc | hc
  · exact hcells c (List.mem_reverse.mp hc)
  · exact h.tail c hc

theorem trimCode (h : d.Clean language) : d.trimCode.Clean language := by
  unfold Draft.trimCode
  rw [h.openLiteral]
  exact ⟨h.settled, fun c hc => h.tail c (List.dropWhile_subset _ hc), rfl⟩

theorem enterLine (h : d.Clean language) (line : Nat) : (d.enterLine line).Clean language := by
  have hjoint : ∀ c ∈ [Cell.joint], language.opensLiteral c.char = false := by
    intro c hc
    rw [List.mem_singleton.mp hc]
    exact opensLiteral_of_isBlank language rfl
  have hjoined : (if d.width == 0 then d else d.trimCode.append [.joint]).Clean language := by
    split
    · exact h
    · exact h.trimCode.append hjoint
  unfold Draft.enterLine
  split
  · exact h
  · exact ⟨hjoined.settled, hjoined.tail, hjoined.openLiteral⟩

theorem pushCode (h : d.Clean language) (line : Nat) {chunk : List Char}
    (hchunk : ∀ c ∈ chunk, language.opensLiteral c = false) :
    (d.pushCode line chunk).Clean language := by
  refine (h.enterLine line).append fun c hc => ?_
  obtain ⟨a, ha, rfl⟩ := List.mem_map.mp hc
  split at ha
  · exact hchunk a ha
  · exact hchunk a (List.dropWhile_subset _ ha)

theorem pushLiteral (h : d.Clean language) (line : Nat) {chunk : List Char}
    (hchunk : IsClosed chunk) : (d.pushLiteral line chunk false).Clean language := by
  have hentered := h.enterLine line
  have hpushed : d.pushLiteral line chunk false = { d.enterLine line with
      settled :=
    .literal (cellsOf line chunk) :: .code (d.enterLine line).tail.reverse ::
      (d.enterLine line).settled
      tail := []
      openLiteral := none
      width := (d.enterLine line).width + cellWidth (cellsOf line chunk) } := by
    simp [Draft.pushLiteral, Draft.append, closeLiteral, hentered.openLiteral]
  rw [hpushed]
  refine ⟨fun p hp => ?_, fun c hc => absurd hc List.not_mem_nil, rfl⟩
  rcases List.mem_cons.mp hp with rfl | hp
  · show IsClosed ((cellsOf line chunk).map Cell.char)
    rwa [map_char_cellsOf]
  · rcases List.mem_cons.mp hp with rfl | hp
    · exact fun c hc => hentered.tail c (List.mem_reverse.mp hc)
    · exact hentered.settled p hp

theorem withoutContinuation? (h : d.Clean language) {e : Draft}
    (he : d.withoutContinuation? = some e) : e.Clean language := by
  unfold Draft.withoutContinuation? at he
  split at he
  · contradiction
  · next c before hdrop =>
    split at he
    · obtain rfl := Option.some.inj he
      refine ⟨h.settled, fun a ha => ?_, h.openLiteral⟩
      apply h.tail a
      apply List.dropWhile_subset
      rw [hdrop]
      exact List.mem_cons_of_mem c ha
    · contradiction

theorem finish (h : d.Clean language) {s : Statement} (hs : d.finish = some s) :
    s.Clean language := by
  have htrimmed := h.trimCode
  unfold Draft.finish at hs
  dsimp only at hs
  split at hs
  · contradiction
  · obtain rfl := Option.some.inj hs
    intro p hp
    rcases List.mem_append.mp hp with hp | hp
    · exact htrimmed.settled p (List.mem_reverse.mp hp)
    · obtain rfl := List.mem_singleton.mp hp
      rw [htrimmed.openLiteral]
      intro c hc
      apply htrimmed.tail c
      simpa using hc

end Clean

/-- On a line whose literals are closed, drafts stay clean. -/
theorem keptOn_clean {l : Line} (hopen : l.literalOpen = false)
    (hl : ∀ s ∈ l.segments, s.Clean language) :
    KeptOn l (Statement.Clean language) (Clean language) (Clean language) fun _ d =>
      d.Clean language := by
  have hcode {c : Char} (hc : l.HasCode c) : language.opensLiteral c = false := by
    obtain ⟨s, hs, hkind, hmem⟩ := hc
    have hclean := hl s hs
    unfold Segment.Clean at hclean
    rw [hkind] at hclean
    exact hclean c hmem
  constructor
  case skip => exact id
  case enter => exact fun h _ => h
  case start =>
    intro r hr
    exact ⟨fun p hp => absurd hp List.not_mem_nil, fun c hc => absurd hc List.not_mem_nil, rfl⟩
  case openBracket => exact fun h _ _ => ⟨h.settled, h.tail, h.openLiteral⟩
  case closeBracket => exact fun h _ _ => ⟨h.settled, h.tail, h.openLiteral⟩
  case read => exact fun h _ _ => h
  case pushCode =>
    intro d r h hr hseen
    exact h.pushCode l.number fun c hc => hcode (hseen c (List.mem_reverse.mp hc))
  case pushLiteral =>
    intro d r s continues h hr hs hkind hcontinues
    have hclosed : continues = false := by
      rw [Bool.eq_false_iff]
      intro htrue
      rw [hcontinues htrue] at hopen
      contradiction
    have hclean := hl s hs
    unfold Segment.Clean at hclean
    rw [hkind] at hclean
    rw [hclosed]
    exact h.pushLiteral l.number hclean
  case stay => exact fun h _ => h
  case resume => exact fun h _ he => h.withoutContinuation? he
  case wait => exact fun h _ _ => h
  case finish => exact fun h _ _ hs => h.finish hs

end Draft

/-- The statements of a text whose literals are all closed on their lines. -/
theorem Statement.clean_of_mem_readStatements {language : Language} {cs : List Char}
    (h : LiteralsClose language cs) {s : Statement}
    (hs : s ∈ (readStatements language cs).statements) : s.Clean language := by
  refine @Statement.good_of_mem_readStatements language cs _ (fun _ d => d.Clean language)
    (fun _ _ d => d.Clean language) (fun l hl n _ => ?_) (fun _ _ _ hd ht => hd.finish ht) s hs
  obtain ⟨hopen, hsegments⟩ := h.clean ((classify language cs).prefix_lines.subset hl)
  exact Draft.keptOn_clean hopen hsegments

end EndpointCensus
