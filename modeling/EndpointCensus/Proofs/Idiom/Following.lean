import EndpointCensus.Unit.Scope

/-! What the statements after a statement contribute to it. In Python they are only looked at for
the declaration that a stack of decorators is written above, so other statements in their place give
the same matches as long as they declare the same there. -/

namespace EndpointCensus

def Context.followedBy (c : Context) (following : List Statement) : Context := { c with following }

variable (c : Context) (following : List Statement)

/-! ### Tables of URL patterns -/

namespace UrlTable

theorem Site.entry_followedBy (table : List Char) (fuel : Nat) :
    entry ⟨c.followedBy following, table⟩ fuel = entry ⟨c, table⟩ fuel ∧
      included ⟨c.followedBy following, table⟩ fuel = included ⟨c, table⟩ fuel := by
  have hline : lineOf ⟨c.followedBy following, table⟩ = lineOf ⟨c, table⟩ := rfl
  have hinclusion : inclusion ⟨c.followedBy following, table⟩ = inclusion ⟨c, table⟩ := rfl
  have hview : viewEntry ⟨c.followedBy following, table⟩ = viewEntry ⟨c, table⟩ := rfl
  induction fuel with
  | zero => exact ⟨rfl, rfl⟩
  | succ fuel ih =>
    obtain ⟨hentry, hincluded⟩ := ih
    constructor
    · funext outer item
      unfold entry
      rw [hline, hview, hincluded]
    · funext first route line
      unfold included
      rw [hinclusion, hentry, hincluded]

theorem match?_followedBy : match? (c.followedBy following) = match? c := by
  have hoperand (table : List Char) :
      Site.operand ⟨c.followedBy following, table⟩ = Site.operand ⟨c, table⟩ := by
    funext e
    unfold Site.operand
    dsimp only
    rw [(Site.entry_followedBy c following table _).1]
    rfl
  unfold match?
  simp only [hoperand]
  rfl

end UrlTable

/-! ### Calls of members -/

namespace MemberCall

theorem register?_followedBy {m : MemberCall} (hpython : m.context.language = .python)
    (member : List Char) :
    ({ m with context := m.context.followedBy following } : MemberCall).register? member =
      m.register? member := by
  have hpython' : (m.context.followedBy following).language = .python := hpython
  unfold register?
  dsimp only
  rw [hpython, hpython']
  rfl

theorem ofCall?_followedBy (e : Expr) (receiver : List Char) (stop : Nat) :
    ofCall? (c.followedBy following) e receiver stop =
      (ofCall? c e receiver stop).map fun m =>
        { m with context := m.context.followedBy following } := by
  unfold ofCall?
  cases (e.callOpen? stop).bind e.argsAt? <;> rfl

theorem context_of_ofCall? {c : Context} {e : Expr} {receiver : List Char} {stop : Nat}
    {m : MemberCall} (h : ofCall? c e receiver stop = some m) : m.context = c := by
  unfold ofCall? at h
  cases hargs : (e.callOpen? stop).bind e.argsAt? with
  | none => simp [hargs] at h
  | some args =>
    rw [hargs] at h
    obtain rfl := Option.some.inj h
    rfl

theorem aliasCall?_followedBy (e : Expr) :
    aliasCall? (c.followedBy following) e = aliasCall? c e := by
  unfold aliasCall?
  simp only [ofCall?_followedBy]
  cases Text.identifier? e.masked with
  | none => rfl
  | some r =>
    dsimp only [Option.bind_eq_bind, Option.bind_some]
    split
    · change (c.verbAliases.lookup _).bind _ = (c.verbAliases.lookup _).bind _
      congr 1
      funext a
      cases ofCall? c e a.receiver (e.offsetOf r.2) <;> rfl
    · rfl

theorem match?_followedBy (hpython : c.language = .python) :
    match? (c.followedBy following) = match? c := by
  have hpython' : (c.followedBy following).language = .python := hpython
  have hregistered : registered? (c.followedBy following) c.expr = registered? c c.expr := by
    unfold registered?
    rw [aliasCall?_followedBy]
    cases callee? c.expr.masked with
    | none => rfl
    | some r =>
      dsimp only
      rw [ofCall?_followedBy]
      have haccepts (receiver : List Char) :
          acceptsReceiver (c.followedBy following) receiver = acceptsReceiver c receiver := rfl
      have howner (receiver : List Char) : ownerOf (c.followedBy following) receiver =
          ownerOf c receiver := rfl
      rw [haccepts, howner]
      split
      · cases hcall : ofCall? c c.expr (ownerOf c (c.expr.chars 0 (Text.width r.1)))
          (c.expr.offsetOf r.2.2) with
        | none => rfl
        | some m =>
          have hm : m.context.language = .python := by rw [context_of_ofCall? hcall, hpython]
          exact register?_followedBy following hm _
      · rfl
  unfold match?
  dsimp only
  rw [hpython, hpython', show (c.followedBy following).expr = c.expr from rfl, hregistered]
  rfl

end MemberCall

/-! ### All idioms -/

/-- In Python, what follows a statement matters through what its decorators apply to. -/
theorem matches_followedBy (hpython : c.language = .python)
    (hdecorated : (c.followedBy following).decorated? = c.decorated?) :
    (c.followedBy following).matches = c.matches := by
  have hpython' : (c.followedBy following).language = .python := hpython
  have hdecorator : Decorator.match? (c.followedBy following) = Decorator.match? c := by
    unfold Decorator.match? Decorator.decorated?
    rw [hdecorated]
    rfl
  have hresource : Resource.match? (c.followedBy following) = Resource.match? c := by
    unfold Resource.match? Resource.member? Resource.extraAction?
    rw [hdecorated]
    rfl
  have hmatch (i : Idiom) : i.match? (c.followedBy following) = i.match? c := by
    unfold Idiom.match?
    cases i with
    | decoratorCall =>
      dsimp only
      rw [hpython, hpython']
      dsimp only
      rw [hdecorator]
    | urlPattern =>
      dsimp only
      rw [UrlTable.match?_followedBy]
    | resourceRegistration =>
      dsimp only
      rw [hresource]
    | classMethods => rfl
    | callRegistration =>
      dsimp only
      rw [MemberCall.match?_followedBy c following hpython]
  unfold Context.matches
  simp only [hmatch, hpython, hpython']

end EndpointCensus
