import Mathlib.Data.List.Induction
import EndpointCensus.Proofs.Cache.Replay

/-! Whose report a lookup finds. Under an identity a cache holds at most what was stored there last:
later operations move or drop the entry, or store another one in its place. A lookup asks for the
digest of the text and for the flag, so it finds the report of the unit stored last only if that had
the same text, read under the same flag. It does not ask in which language the text was read. -/

namespace EndpointCensus.Cache

inductive Operation where
  | get (unit : SourceUnit) (digest : String) (flag : Bool)
  | insert (unit : SourceUnit) (digest : String) (flag : Bool) (report : UnitReport)
  | retain (units : List SourceUnit)
  | clear
  deriving DecidableEq, Repr

namespace Operation

def run (c : Cache) : Operation → Cache
  | get u digest flag => (c.get u digest flag).1
  | insert u digest flag report => c.insert u digest flag report
  | retain units => c.retain units
  | clear => c.clear

/-- What is stored is the report on the unit, under the digest of its text. -/
def IsGenuine : Operation → Prop
  | insert u digest flag report => digest = Digest.ofText u.text ∧ report = u.report flag
  | _ => True

/-- The texts whose digests are stored. -/
def texts : Operation → List String
  | insert u _ _ _ => [u.text]
  | _ => []

def stored? (identity : String) : Operation → Option (SourceUnit × Bool)
  | insert u _ flag _ => if u.identity = identity then some (u, flag) else none
  | _ => none

end Operation

/-- The cache after some operations. -/
def runAll (c : Cache) (ops : List Operation) : Cache := ops.foldl Operation.run c

/-- The unit stored last under an identity, and the flag it was read under. -/
def lastStored? (ops : List Operation) (identity : String) : Option (SourceUnit × Bool) :=
  ops.reverse.findSome? (Operation.stored? identity)

theorem lastStored?_concat (ops : List Operation) (op : Operation) (identity : String) :
    lastStored? (ops ++ [op]) identity = (op.stored? identity).or (lastStored? ops identity) := by
  unfold lastStored?
  rw [List.reverse_append, List.reverse_singleton, List.singleton_append, List.findSome?_cons]
  cases op.stored? identity <;> rfl

theorem exists_of_lastStored? {ops : List Operation} {identity : String} {u : SourceUnit}
    {flag : Bool} (h : lastStored? ops identity = some (u, flag)) :
    u.identity = identity ∧ ∃ digest report, Operation.insert u digest flag report ∈ ops := by
  obtain ⟨op, hop, hstored⟩ := List.exists_of_findSome?_eq_some h
  cases op with
  | insert v digest flag' report =>
    simp only [Operation.stored?, Option.ite_none_right_eq_some, Option.some.injEq, Prod.mk.injEq]
      at hstored
    obtain ⟨hid, rfl, rfl⟩ := hstored
    exact ⟨hid, digest, report, List.mem_reverse.mp hop⟩
  | _ => contradiction

/-- The entry holds the report of the unit stored last under its identity. -/
def IsLatest (ops : List Operation) (e : CacheEntry) : Prop :=
  ∃ u, lastStored? ops e.identity = some (u, e.flag) ∧ e.digest = Digest.ofText u.text ∧
  e.report = u.report e.flag

/-- Every entry is what was stored last under its identity, and a cache without room has none. -/
structure Remembers (c : Cache) (ops : List Operation) : Prop where
  latest : ∀ e ∈ c.entries, IsLatest ops e
  room : c.capacity = 0 → c.entries = []

/-- Operations that store nothing under the identity of an entry leave it the latest. -/
theorem IsLatest.concat {ops : List Operation} {op : Operation} {e : CacheEntry}
    (h : IsLatest ops e) (hop : op.stored? e.identity = none) : IsLatest (ops ++ [op]) e := by
  obtain ⟨u, hlast, hentry⟩ := h
  exact ⟨u, by rw [lastStored?_concat, hop, Option.none_or, hlast], hentry⟩

namespace Remembers

variable {c : Cache} {ops : List Operation}

theorem of_subset {d : Cache} {op : Operation} (h : c.Remembers ops)
    (hcapacity : d.capacity = c.capacity) (hentries : d.entries ⊆ c.entries)
    (hop : ∀ identity, op.stored? identity = none) : d.Remembers (ops ++ [op]) := by
  refine ⟨fun e he => (h.latest e (hentries he)).concat (hop e.identity), fun hnone => ?_⟩
  rw [hcapacity] at hnone
  exact List.subset_nil.mp (h.room hnone ▸ hentries)

theorem get (h : c.Remembers ops) (u : SourceUnit) (digest : String) (flag : Bool) :
    (c.get u digest flag).1.Remembers (ops ++ [.get u digest flag]) := by
  refine h.of_subset ?_ ?_ fun _ => rfl
  · unfold Cache.get
    split <;> rfl
  · unfold Cache.get
    split
    · next e hfresh =>
      intro x hx
      rcases List.mem_append.mp hx with hx | hx
      · exact mem_of_mem_without hx
      · rw [List.mem_singleton.mp hx]
        exact (fresh?_spec hfresh).1
    · exact fun _ hx => hx

theorem insert (h : c.Remembers ops) (u : SourceUnit) (flag : Bool) :
    (c.insert u (Digest.ofText u.text) flag (u.report flag)).Remembers
      (ops ++ [.insert u (Digest.ofText u.text) flag (u.report flag)]) := by
  unfold Cache.insert
  split
  · next hfull =>
    have hempty := h.room (beq_iff_eq.mp hfull)
    exact ⟨fun e he => by simp [hempty] at he, h.room⟩
  · next hroom =>
    refine ⟨fun e he => ?_, fun hnone => absurd (beq_iff_eq.mpr hnone) hroom⟩
    rcases List.mem_append.mp (List.mem_of_mem_drop he) with he | he
    · have hother : e.identity ≠ u.identity := by simpa using (List.mem_filter.mp he).2
      exact (h.latest e (mem_of_mem_without he)).concat (if_neg (Ne.symm hother))
    · rw [List.mem_singleton.mp he]
      exact ⟨u, by rw [lastStored?_concat, Operation.stored?, if_pos rfl, Option.some_or], rfl, rfl⟩

theorem run (h : c.Remembers ops) {op : Operation} (hop : op.IsGenuine) :
    (op.run c).Remembers (ops ++ [op]) := by
  cases op with
  | get u digest flag => exact h.get u digest flag
  | insert u digest flag report =>
    obtain ⟨rfl, rfl⟩ := hop
    exact h.insert u flag
  | retain units => exact h.of_subset rfl List.filter_sublist.subset fun _ => rfl
  | clear => exact h.of_subset rfl (List.nil_subset _) fun _ => rfl

end Remembers

theorem remembers_runAll (capacity : Nat) {ops : List Operation} (h : ∀ op ∈ ops, op.IsGenuine) :
    ((empty capacity).runAll ops).Remembers ops := by
  induction ops using List.reverseRecOn with
  | nil => exact ⟨fun e he => absurd he List.not_mem_nil, fun _ => rfl⟩
  | append_singleton ops op ih =>
    rw [runAll, List.foldl_append]
    exact (ih fun x hx => h x (List.mem_append_left _ hx)).run (h op (by simp))

/-- A lookup finds the report of the unit that was stored last under the identity. That unit has the
same text, and the report was made under the same flag; it is the report of the unit looked up if
the languages are the same, too. -/
theorem get_runAll (capacity : Nat) (ops : List Operation) (hops : ∀ op ∈ ops, op.IsGenuine)
    (u : SourceUnit) (flag : Bool) (hd : Distinguished (u.text :: ops.flatMap Operation.texts))
    {report : UnitReport}
    (h : (((empty capacity).runAll ops).get u (Digest.ofText u.text) flag).2 = some report) :
    ∃ v, lastStored? ops u.identity = some (v, flag) ∧ v = { u with language := v.language } ∧
      report = v.report flag ∧ (v.language = u.language → report = u.report flag) := by
  unfold get at h
  split at h
  · next e hfresh =>
    obtain ⟨hmem, hid, hdigest, hflag⟩ := fresh?_spec hfresh
    obtain ⟨v, hlast, hstored, hreport⟩ := (remembers_runAll capacity hops).latest e hmem
    rw [hid, hflag] at hlast
    obtain ⟨hidentity, digest, stored, hop⟩ := exists_of_lastStored? hlast
    have htext : v.text = u.text := by
      have hv : v.text ∈ ops.flatMap Operation.texts :=
        List.mem_flatMap.mpr ⟨_, hop, List.mem_singleton_self v.text⟩
      exact hd v.text (List.mem_cons_of_mem _ hv) u.text List.mem_cons_self
        (hstored.symm.trans hdigest)
    have hv : v = { u with language := v.language } := by rw [← hidentity, ← htext]
    have hfound : report = v.report flag := by rw [← Option.some.inj h, hreport, hflag]
    refine ⟨v, hlast, hv, hfound, fun hlanguage => ?_⟩
    rw [hfound, hv, hlanguage]
  · contradiction

/-- Two units share an identity and a text; the one that was stored is found for
its own language. -/
theorem get_runAll_stored :
    let u : SourceUnit := ⟨"app", .script, "/*\napp.get('/a', h)\n*/"⟩
    let other : SourceUnit := ⟨"main", .python, "app = FastAPI()"⟩
    let genuine (v : SourceUnit) : Operation :=
      .insert v (Digest.ofText v.text) true (v.report true)
    let ops := [genuine { u with language := .python }, genuine u, genuine other,
      .get u (Digest.ofText u.text) false, .retain [u]]
    (∀ op ∈ ops, op.IsGenuine) ∧ Distinguished (u.text :: ops.flatMap Operation.texts) ∧
      (((empty 2).runAll ops).get u (Digest.ofText u.text) true).2 = some (u.report true) ∧
      ∃ v, lastStored? ops u.identity = some (v, true) ∧ v = { u with language := v.language } ∧
        u.report true = v.report true ∧
        (v.language = u.language → u.report true = u.report true) := by
  intro u other genuine ops
  have hops : ∀ op ∈ ops, op.IsGenuine := by simp [ops, genuine, Operation.IsGenuine]
  have hd : Distinguished (u.text :: ops.flatMap Operation.texts) := by
    unfold Distinguished
    decide +kernel
  have hfound : (((empty 2).runAll ops).get u (Digest.ofText u.text) true).2 =
      some (u.report true) := by
    decide +kernel
  exact ⟨hops, hd, hfound, get_runAll 2 ops hops u true hd hfound⟩

/-- A text that was stored as one language is found as another one, in which it reads otherwise. -/
theorem get_runAll_ne :
    let stored : SourceUnit := ⟨"app", .python, "/*\napp.get('/a', h)\n*/"⟩
    let u : SourceUnit := { stored with language := .script }
    let ops : List Operation :=
      [.insert stored (Digest.ofText stored.text) true (stored.report true)]
    (∀ op ∈ ops, op.IsGenuine) ∧ Distinguished (u.text :: ops.flatMap Operation.texts) ∧
      (((empty 1).runAll ops).get u (Digest.ofText u.text) true).2 = some (stored.report true) ∧
      stored.report true ≠ u.report true := by
  intro stored u ops
  have hops : ∀ op ∈ ops, op.IsGenuine := by simp [ops, Operation.IsGenuine]
  have hd : Distinguished (u.text :: ops.flatMap Operation.texts) := by
    unfold Distinguished
    decide +kernel
  exact ⟨hops, hd, by decide +kernel, by decide +kernel⟩

end EndpointCensus.Cache
