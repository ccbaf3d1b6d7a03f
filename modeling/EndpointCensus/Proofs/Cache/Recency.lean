import Mathlib.Data.List.Dedup
import Mathlib.Data.List.DropRight
import EndpointCensus.Proofs.Cache.History

/-! Which entries a cache holds. An identity is touched when something is stored under it and when a
lookup finds it, and each touch makes it the latest. A cache holds the identities touched most
recently, as many as it has room for, and under each of them what was stored there last. -/

namespace EndpointCensus.Cache

/-! ### Ranking by the last touch -/

section Ranking

variable {α : Type} [DecidableEq α]

/-- The last `n` distinct elements, in the order in which each of them occurs last. -/
def recent (n : Nat) (xs : List α) : List α := xs.dedup.rtake n

theorem nodup_recent (n : Nat) (xs : List α) : (recent n xs).Nodup :=
  (List.drop_sublist _ _).nodup xs.nodup_dedup

theorem length_recent_le (n : Nat) (xs : List α) : (recent n xs).length ≤ n := by
  rw [recent, List.rtake, List.length_drop]
  omega

/-- One more occurrence moves an element to the end. -/
theorem dedup_concat (xs : List α) (x : α) :
    (xs ++ [x]).dedup = xs.dedup.filter (· != x) ++ [x] := by
  induction xs with
  | nil => rfl
  | cons y xs ih =>
    rw [List.cons_append]
    by_cases hmem : y ∈ xs
    · rw [List.dedup_cons_of_mem (List.mem_append_left _ hmem), List.dedup_cons_of_mem hmem, ih]
    · rw [List.dedup_cons_of_notMem hmem]
      by_cases hyx : y = x
      · rw [List.dedup_cons_of_mem (by simp [hyx]), ih, List.filter_cons_of_neg (by simp [hyx])]
      · rw [List.dedup_cons_of_notMem (by simp [hmem, hyx]), ih,
          List.filter_cons_of_pos (by simpa using hyx)]
        rfl

/-- Of distinct elements one is missing at most, so one more than needed are enough. -/
theorem take_filter_take {xs : List α} (h : xs.Nodup) (x : α) (n : Nat) :
    ((xs.take (n + 1)).filter (· != x)).take n = (xs.filter (· != x)).take n := by
  induction xs generalizing n with
  | nil => rfl
  | cons y xs ih =>
    obtain ⟨hy, hxs⟩ := List.nodup_cons.mp h
    rw [List.take_succ_cons]
    by_cases hyx : y = x
    · subst hyx
      have hkept : ∀ z ∈ xs, (z != y) = true := fun z hz => bne_iff_ne.mpr fun heq => hy (heq ▸ hz)
      rw [List.filter_cons_of_neg (by simp), List.filter_cons_of_neg (by simp),
        List.filter_eq_self.mpr hkept, List.filter_eq_self.mpr fun z hz =>
          hkept z (List.mem_of_mem_take hz), List.take_take, Nat.min_self]
    · rw [List.filter_cons_of_pos (by simpa using hyx), List.filter_cons_of_pos (by simpa using hyx)]
      cases n with
      | zero => rfl
      | succ n => rw [List.take_succ_cons, List.take_succ_cons, ih hxs]

/-- What is recent after one more occurrence is told by what was recent before it. -/
theorem recent_concat {n : Nat} (hn : 1 ≤ n) (xs : List α) (x : α) :
    recent n (xs ++ [x]) = ((recent n xs).filter (· != x) ++ [x]).rtake n := by
  obtain ⟨n, rfl⟩ : ∃ m, n = m + 1 := ⟨n - 1, by omega⟩
  have hsame := take_filter_take (List.nodup_reverse.mpr xs.nodup_dedup) x n
  rw [recent, dedup_concat, List.rtake_concat_succ, List.rtake_concat_succ, recent]
  congr 1
  rw [List.rtake_eq_reverse_take_reverse, List.rtake_eq_reverse_take_reverse,
    List.rtake_eq_reverse_take_reverse, ← List.filter_reverse, ← List.filter_reverse,
    List.reverse_reverse, hsame]

/-- An element that is recent already is moved, and nothing drops out. -/
theorem recent_concat_of_mem {n : Nat} (hn : 1 ≤ n) {xs : List α} {x : α} (hx : x ∈ recent n xs) :
    recent n (xs ++ [x]) = (recent n xs).filter (· != x) ++ [x] := by
  have hlength : ((recent n xs).filter (· != x) ++ [x]).length ≤ n := by
    have hlt : ((recent n xs).filter (· != x)).length < (recent n xs).length :=
      List.length_filter_lt_length_iff_exists.mpr ⟨x, hx, by simp⟩
    have hle := length_recent_le n xs
    rw [List.length_append, List.length_singleton]
    omega
  rw [recent_concat hn, List.rtake, Nat.sub_eq_zero_of_le hlength, List.drop_zero]

end Ranking

/-! ### Touches -/

namespace Operation

/-- The operation looks something up or stores something. -/
def IsAccess : Operation → Prop
  | get .. | insert .. => True
  | retain _ | clear => False

def touched? (c : Cache) : Operation → Option String
  | get u digest flag => if (c.get u digest flag).2.isSome then some u.identity else none
  | insert u _ _ _ => some u.identity
  | retain _ | clear => none

def insertion? (identity : String) : Operation → Option CacheEntry
  | insert u digest flag report =>
    if u.identity = identity then some ⟨u.identity, digest, flag, report⟩ else none
  | _ => none

end Operation

def touches : Cache → List Operation → List String
  | _, [] => []
  | c, op :: ops => (op.touched? c).toList ++ touches (op.run c) ops

def lastInserted? (ops : List Operation) (identity : String) : Option CacheEntry :=
  ops.reverse.findSome? (Operation.insertion? identity)

def identities (c : Cache) : List String := c.entries.map CacheEntry.identity

theorem runAll_concat (c : Cache) (ops : List Operation) (op : Operation) :
    c.runAll (ops ++ [op]) = op.run (c.runAll ops) := by
  rw [runAll, List.foldl_append]
  rfl

theorem touches_concat (c : Cache) (ops : List Operation) (op : Operation) :
    touches c (ops ++ [op]) = touches c ops ++ (op.touched? (c.runAll ops)).toList := by
  induction ops generalizing c with
  | nil => exact List.append_nil _
  | cons first ops ih =>
    rw [List.cons_append, touches, touches, ih, List.append_assoc]
    rfl

theorem lastInserted?_concat (ops : List Operation) (op : Operation) (identity : String) :
    lastInserted? (ops ++ [op]) identity = (op.insertion? identity).or
      (lastInserted? ops identity) := by
  unfold lastInserted?
  rw [List.reverse_append, List.reverse_singleton, List.singleton_append, List.findSome?_cons]
  cases op.insertion? identity <;> rfl

/-! ### Single operations -/

section Single

variable {c : Cache} {u : SourceUnit} {digest : String} {flag : Bool} {report : UnitReport}

theorem identities_without (c : Cache) (identity : String) :
    (c.without identity).map CacheEntry.identity = c.identities.filter (· != identity) := by
  rw [without, identities, List.filter_map]
  rfl

/-- A lookup that finds nothing changes nothing. -/
theorem get_of_none (h : (c.get u digest flag).2 = none) : (c.get u digest flag).1 = c := by
  unfold get at h ⊢
  split
  next hfresh => simp [hfresh] at h
  next => rfl

/-- A lookup that finds an entry makes it the latest. -/
theorem exists_of_get (h : (c.get u digest flag).2.isSome = true) :
    ∃ e ∈ c.entries, e.identity = u.identity ∧
      (c.get u digest flag).1 = { c with entries := c.without u.identity ++ [e] } := by
  unfold get at h ⊢
  split at h
  next e hfresh =>
    obtain ⟨hmem, hid, -⟩ := fresh?_spec hfresh
    exact ⟨e, hmem, hid, rfl⟩
  next => contradiction

theorem insert_eq (hroom : 1 ≤ c.capacity) :
    c.insert u digest flag report =
      { c with entries :=
          (c.without u.identity ++
            [(⟨u.identity, digest, flag, report⟩ : CacheEntry)]).rtake c.capacity } := by
  have hfull : ¬(c.capacity == 0) = true := by simpa using Nat.ne_of_gt hroom
  exact if_neg hfull

/-- The entry of an identity that is held makes room for the new one. -/
theorem insert_of_mem (hroom : 1 ≤ c.capacity) (hsize : c.size ≤ c.capacity)
    (hheld : u.identity ∈ c.identities) :
    c.insert u digest flag report =
      { c with entries := c.without u.identity ++ [⟨u.identity, digest, flag, report⟩] } := by
  have hlt : (c.without u.identity).length < c.size := by
    obtain ⟨e, he, hid⟩ := List.mem_map.mp hheld
    exact List.length_filter_lt_length_iff_exists.mpr ⟨e, he, by simp [hid]⟩
  rw [insert_eq hroom, List.rtake, List.length_append, List.length_singleton,
    Nat.sub_eq_zero_of_le (by omega), List.drop_zero]

theorem length_without (hnodup : c.identities.Nodup) (hheld : u.identity ∈ c.identities) :
    (c.without u.identity).length + 1 = c.size := by
  have hlength := congrArg List.length (c.identities_without u.identity)
  have herase : (c.identities.erase u.identity).length = c.identities.length - 1 :=
    List.length_erase_of_mem hheld
  have hpos := List.length_pos_of_mem hheld
  rw [hnodup.erase_eq_filter] at herase
  rw [List.length_map] at hlength
  have hsize : c.identities.length = c.size := List.length_map _
  rw [hlength, herase, hsize]
  omega

end Single

/-! ### Histories -/

/-- The cache holds the identities touched most recently, each once, and what was stored
last under each of them. -/
structure HoldsRecent (capacity : Nat) (ops : List Operation) (c : Cache) : Prop where
  capacity_eq : c.capacity = capacity
  identities_eq : c.identities = recent capacity (touches (empty capacity) ops)
  nodup : c.identities.Nodup
  latest : ∀ e ∈ c.entries, lastInserted? ops e.identity = some e
  size_le : c.size ≤ capacity

namespace HoldsRecent

variable {capacity : Nat} {ops : List Operation} {c : Cache}

/-- The order of the identities tells how many they are. -/
theorem of_identities (hcapacity : c.capacity = capacity)
    (h : c.identities = recent capacity (touches (empty capacity) ops))
    (hlatest : ∀ e ∈ c.entries, lastInserted? ops e.identity = some e) :
    HoldsRecent capacity ops c where
  capacity_eq := hcapacity
  identities_eq := h
  nodup := h ▸ nodup_recent capacity _
  latest := hlatest
  size_le := by
    have hlength : c.identities.length = c.size := List.length_map _
    rw [← hlength, h]
    exact length_recent_le capacity _

theorem get (hroom : 1 ≤ capacity) (h : HoldsRecent capacity ops c)
    (hc : c = (empty capacity).runAll ops) (u : SourceUnit) (digest : String) (flag : Bool) :
    HoldsRecent capacity (ops ++ [.get u digest flag]) (c.get u digest flag).1 := by
  have hlatest (e : CacheEntry) (he : e ∈ c.entries) :
      lastInserted? (ops ++ [.get u digest flag]) e.identity = some e := by
    rw [lastInserted?_concat]
    exact h.latest e he
  cases hfound : (c.get u digest flag).2 with
  | none =>
    rw [get_of_none hfound]
    refine of_identities h.capacity_eq ?_ hlatest
    rw [touches_concat, ← hc, Operation.touched?, hfound, if_neg (by simp), Option.toList_none,
      List.append_nil]
    exact h.identities_eq
  | some report =>
    obtain ⟨e, he, hid, hget⟩ := exists_of_get (c := c) (by rw [hfound]; rfl)
    have hheld : u.identity ∈ recent capacity (touches (empty capacity) ops) := by
      rw [← h.identities_eq, ← hid]
      exact List.mem_map_of_mem he
    rw [hget]
    refine of_identities h.capacity_eq ?_ fun x hx => ?_
    · rw [touches_concat, ← hc, Operation.touched?, hfound, if_pos (by simp), Option.toList_some,
        recent_concat_of_mem hroom hheld, ← h.identities_eq, ← identities_without, identities,
        List.map_append, List.map_singleton, hid]
    · rcases List.mem_append.mp hx with hx | hx
      · exact hlatest x (mem_of_mem_without hx)
      · rw [List.mem_singleton.mp hx]
        exact hlatest e he

theorem insert (hroom : 1 ≤ capacity) (h : HoldsRecent capacity ops c) (u : SourceUnit)
    (digest : String) (flag : Bool) (report : UnitReport) :
    HoldsRecent capacity (ops ++ [.insert u digest flag report])
      (c.insert u digest flag report) := by
  have hcapacity := h.capacity_eq
  rw [insert_eq (hcapacity ▸ hroom)]
  refine of_identities hcapacity ?_ fun x hx => ?_
  · rw [touches_concat, Operation.touched?, Option.toList_some, recent_concat hroom,
      ← h.identities_eq, ← identities_without, identities, List.rtake, List.rtake, List.map_drop,
      List.map_append, List.map_singleton, hcapacity]
    simp
  · rw [lastInserted?_concat, Operation.insertion?]
    rcases List.mem_append.mp (List.mem_of_mem_drop hx) with hx | hx
    · have hother : x.identity ≠ u.identity := by simpa using (List.mem_filter.mp hx).2
      rw [if_neg (Ne.symm hother), Option.none_or]
      exact h.latest x (mem_of_mem_without hx)
    · rw [List.mem_singleton.mp hx, if_pos rfl, Option.some_or]

end HoldsRecent

theorem holdsRecent_runAll {capacity : Nat} (hroom : 1 ≤ capacity) {ops : List Operation}
    (hops : ∀ op ∈ ops, op.IsAccess) : HoldsRecent capacity ops ((empty capacity).runAll ops) := by
  induction ops using List.reverseRecOn with
  | nil =>
    refine .of_identities rfl ?_ fun e he => absurd he List.not_mem_nil
    simp [recent, touches, runAll, identities, empty]
  | append_singleton ops op ih =>
    have hbefore := ih fun x hx => hops x (List.mem_append_left _ hx)
    have haccess := hops op (by simp)
    rw [runAll_concat]
    cases op with
    | get u digest flag => exact hbefore.get hroom rfl u digest flag
    | insert u digest flag report => exact hbefore.insert hroom u digest flag report
    | retain units => exact haccess.elim
    | clear => exact haccess.elim

/-- After any lookups and insertions a cache with room holds the identities touched most recently,
and under each of them what was stored last. A lookup that finds nothing leaves it as it is, and
what is stored again under an identity that is held takes the place of the old entry alone. -/
theorem accesses_keep_recent {capacity : Nat} (hroom : 1 ≤ capacity) {ops : List Operation}
    (hops : ∀ op ∈ ops, op.IsAccess) :
    let c := (empty capacity).runAll ops
    HoldsRecent capacity ops c ∧
      (∀ u digest flag, (c.get u digest flag).2 = none → (c.get u digest flag).1 = c) ∧
      ∀ (u : SourceUnit) digest flag report, u.identity ∈ c.identities →
        (c.insert u digest flag report).size = c.size ∧
          ∀ e ∈ c.entries, e.identity ≠ u.identity →
            e ∈ (c.insert u digest flag report).entries := by
  intro c
  have hheld : HoldsRecent capacity ops c := holdsRecent_runAll hroom hops
  refine ⟨hheld, fun u digest flag => get_of_none, fun u digest flag report hu => ?_⟩
  have hcapacity := hheld.capacity_eq
  have hsize : c.size ≤ c.capacity := hcapacity ▸ hheld.size_le
  rw [insert_of_mem (hcapacity ▸ hroom) hsize hu]
  refine ⟨?_, fun e he hother => List.mem_append_left _
    (List.mem_filter.mpr ⟨he, by simpa using hother⟩)⟩
  rw [size, List.length_append, List.length_singleton]
  exact length_without hheld.nodup hu

/-- Room for two: the lookup of the first entry makes the second one drop out when a third comes,
and the lookup of the second one that follows touches nothing. -/
theorem accesses_keep_recent_two :
    let u (identity : String) : SourceUnit := ⟨identity, .python, ""⟩
    let store (identity digest : String) : Operation :=
      .insert (u identity) digest true ⟨identity, [], [], []⟩
    let ops : List Operation := [store "a" "1", store "b" "1", .get (u "a") "1" true, store "d" "1",
      .get (u "b") "1" true, store "a" "2"]
    let c := (empty 2).runAll ops
    1 ≤ 2 ∧ (∀ op ∈ ops, op.IsAccess) ∧ c.identities = ["d", "a"] ∧ HoldsRecent 2 ops c ∧
      (∀ u digest flag, (c.get u digest flag).2 = none → (c.get u digest flag).1 = c) ∧
      ∀ (u : SourceUnit) digest flag report, u.identity ∈ c.identities →
        (c.insert u digest flag report).size = c.size ∧
          ∀ e ∈ c.entries, e.identity ≠ u.identity →
            e ∈ (c.insert u digest flag report).entries := by
  intro u store ops c
  have hops : ∀ op ∈ ops, op.IsAccess := by simp [ops, store, Operation.IsAccess]
  exact ⟨by decide, hops, by decide +kernel, accesses_keep_recent (by decide) hops⟩

end EndpointCensus.Cache
