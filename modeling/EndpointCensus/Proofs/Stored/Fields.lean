import EndpointCensus.Stored.Fields
import Mathlib.Data.List.Nodup

/-!
Fields that are written and read again. The members of a record are its fields in order, those
without a value left out, and each field is read from its own member. A field that was left out is
read as missing, which an optional field allows and a required one does not.
-/

namespace EndpointCensus.Stored

variable {α : Type _} {encode : α → Json} {decode : Json → Option α}

/-! ### Records -/

/-- The members of a record: its fields in order, without those that have no value. -/
def present : List String → List (Option Json) → List (String × Json)
  | key :: keys, some v :: fields => (key, v) :: present keys fields
  | _ :: keys, none :: fields => present keys fields
  | _, _ => []

theorem present_nil (fields : List (Option Json)) : present [] fields = [] := by
  cases fields <;> rfl

theorem present_member (key : String) (a : Option α) (keys : List String)
    (fields : List (Option Json)) :
    present (key :: keys) (a.map encode :: fields) =
      member key encode a ++ present keys fields := by
  cases a <;> rfl

/-- A list as a field that is left out when it is empty. -/
def listField (encode : α → Json) (as : List α) : Option Json :=
  if as.isEmpty then none else some (.ofList encode as)

theorem present_listMember (key : String) (as : List α) (keys : List String)
    (fields : List (Option Json)) :
    present (key :: keys) (listField encode as :: fields) =
      listMember key encode as ++ present keys fields := by
  cases as <;> rfl

theorem filter_present {key : String} {keys : List String} (h : key ∉ keys)
    (fields : List (Option Json)) : (present keys fields).filter (·.1 == key) = [] := by
  induction keys generalizing fields with
  | nil => rfl
  | cons k keys ih =>
    obtain ⟨hk, hkeys⟩ := not_or.mp (mt List.mem_cons.mpr h)
    match fields with
    | [] => rfl
    | none :: fields => exact ih hkeys fields
    | some v :: fields =>
      rw [present, List.filter_cons_of_neg (by simpa using Ne.symm hk)]
      exact ih hkeys fields

/-- Every field is read as it was written. -/
theorem fields?_present {keys : List String} (hkeys : keys.Nodup) {fields : List (Option Json)}
    (hlength : fields.length = keys.length) :
    fields? keys (.obj (present keys fields)) = some fields := by
  -- The members of the keys that were read already stand before those of the others.
  suffices h : ∀ before : List (String × Json), (∀ m ∈ before, m.1 ∉ keys) →
      keys.mapM (member? (before ++ present keys fields)) =
        some fields from h [] fun _ hm => by contradiction
  induction keys generalizing fields with
  | nil => simp [List.eq_nil_of_length_eq_zero hlength]
  | cons key keys ih =>
    obtain ⟨v, fields, rfl⟩ := List.exists_cons_of_length_eq_add_one hlength
    obtain ⟨hkey, hrest⟩ := List.nodup_cons.mp hkeys
    intro before hbefore
    have hnone : before.filter (·.1 == key) = [] := by
      rw [List.filter_eq_nil_iff]
      intro m hm
      simpa using List.ne_of_not_mem_cons (hbefore m hm)
    have hfirst : member? (before ++ present (key :: keys) (v :: fields)) key = some v := by
      unfold member?
      rw [List.filter_append, hnone, List.nil_append]
      cases v with
      | none => rw [present, filter_present hkey]
      | some v => rw [present, List.filter_cons_of_pos (by simp), filter_present hkey]
    have htail : keys.mapM (member? (before ++ present (key :: keys) (v :: fields))) =
        some fields := by
      have hfresh : ∀ m ∈ before, m.1 ∉ keys :=
        fun m hm => List.not_mem_of_not_mem_cons (hbefore m hm)
      cases v with
      | none => exact ih hrest (by simpa using hlength) before hfresh
      | some v =>
        have hmore := ih hrest (by simpa using hlength) (before ++ [(key, v)]) fun m hm => by
          rcases List.mem_append.mp hm with hm | hm
          · exact hfresh m hm
          · rw [List.mem_singleton.mp hm]
            exact hkey
        rwa [List.append_assoc] at hmore
    rw [List.mapM_cons, hfirst, htail]
    rfl

theorem fields?_record {v : Json} {keys : List String} {fields : List (Option Json)}
    (hv : v = .obj (present keys fields)) (hkeys : keys.Nodup)
    (hlength : fields.length = keys.length) : fields? keys v = some fields := by
  rw [hv, fields?_present hkeys hlength]

/-! ### Values -/

/-- Reading what was written gives back the values that `whole` holds of and fails
for the others. -/
def Restores (encode : α → Json) (decode : Json → Option α) (whole : α → Bool) : Prop :=
  ∀ a, decode (encode a) = if whole a then some a else none

/-- A list can be read when all its values can. -/
theorem Restores.list? {whole : α → Bool} (h : Restores encode decode whole) (as : List α) :
    Json.list? decode (.ofList encode as) = if as.all whole then some as else none := by
  unfold Json.ofList Json.list?
  dsimp only
  induction as with
  | nil => rfl
  | cons a as ih =>
    rw [List.map_cons, List.mapM_cons, h a, ih, List.all_cons]
    cases whole a <;> cases as.all whole <;> rfl

/-- Every value is read as it was written. -/
def Lawful (encode : α → Json) (decode : Json → Option α) : Prop := ∀ a, decode (encode a) = some a

theorem Lawful.list? (h : Lawful encode decode) :
    Lawful (Json.ofList encode) (Json.list? decode) := by
  intro as
  have hwhole : Restores encode decode fun _ => true := fun a => h a
  have hall := hwhole.list? as
  rwa [if_pos (by simp)] at hall

theorem Lawful.nullable? (h : Lawful encode decode) (hnull : ∀ a, encode a ≠ .null) :
    Lawful (Json.ofOption encode) (Json.nullable? decode) := by
  intro a
  cases a with
  | none => rfl
  | some a =>
    have hvalue : Json.nullable? decode (encode a) = (decode (encode a)).map some := by
      unfold Json.nullable?
      split
      · next heq => exact absurd heq (hnull a)
      · rfl
    rw [Json.ofOption, hvalue, h a]
    rfl

/-- A value that may be left out. -/
theorem Lawful.optional?_map (h : Lawful encode decode) (hnull : ∀ a, encode a ≠ .null)
    (a : Option α) : optional? decode (a.map encode) = some a := by
  cases a with
  | none => rfl
  | some a => exact h.nullable? hnull (some a)

/-- A list that was left out for being empty cannot be read. -/
theorem Lawful.required?_listField (h : Lawful encode decode) (as : List α) :
    required? (Json.list? decode) (listField encode as) = if as.isEmpty then none else some as := by
  unfold listField
  split
  · rfl
  · exact h.list? as

theorem lawful_str : Lawful Json.str Json.str? := fun _ => rfl

theorem str_ne_null (s : String) : Json.str s ≠ .null := fun h => Json.noConfusion h

end EndpointCensus.Stored
