import EndpointCensus.Proofs.Composition.Usage
import Mathlib.Data.List.Induction
import Mathlib.Data.List.Nodup

/-! The algebra of declared facts. Inserting a list of tags appends those that are new, each
once, so it does not matter whether the tags of two inner declarations are united first. Merging
is therefore associative, and the facts of nested declarations are the same however the
declarations are grouped. -/

namespace EndpointCensus

namespace Metadata

/-! ### Tags -/

theorem insertTag_of_mem {tags : List String} {t : String} (h : t ∈ tags) :
    insertTag tags t = tags :=
  if_pos (List.contains_iff_mem.mpr h)

theorem insertTag_of_not_mem {tags : List String} {t : String} (h : t ∉ tags) :
    insertTag tags t = tags ++ [t] :=
  if_neg (mt List.contains_iff_mem.mp h)

theorem mem_insertTag {tags : List String} {s t : String} :
    s ∈ insertTag tags t ↔ s ∈ tags ∨ s = t := by
  by_cases h : t ∈ tags
  · rw [insertTag_of_mem h]
    exact ⟨.inl, fun hs => hs.elim id (· ▸ h)⟩
  · rw [insertTag_of_not_mem h, List.mem_append, List.mem_singleton]

theorem prefix_insertTag (tags : List String) (t : String) : tags <+: insertTag tags t := by
  by_cases h : t ∈ tags
  · exact (insertTag_of_mem h).symm ▸ List.prefix_rfl
  · rw [insertTag_of_not_mem h]
    exact List.prefix_append _ _

theorem nodup_insertTag {tags : List String} (h : tags.Nodup) (t : String) :
    (insertTag tags t).Nodup := by
  by_cases ht : t ∈ tags
  · rwa [insertTag_of_mem ht]
  · rw [insertTag_of_not_mem ht]
    exact List.concat_eq_append ▸ h.concat ht

/-- The tags of an outer declaration and then those of an inner one that are new. -/
def unite (outer inner : List String) : List String := inner.foldl insertTag outer

@[simp] theorem unite_nil (tags : List String) : unite tags [] = tags := rfl

theorem unite_cons (outer : List String) (t : String) (inner : List String) :
    unite outer (t :: inner) = unite (insertTag outer t) inner := rfl

theorem unite_concat (outer inner : List String) (t : String) :
    unite outer (inner ++ [t]) = insertTag (unite outer inner) t := List.foldl_concat ..

theorem mem_unite {outer inner : List String} {s : String} :
    s ∈ unite outer inner ↔ s ∈ outer ∨ s ∈ inner := by
  induction inner generalizing outer with
  | nil => simp
  | cons t inner ih => rw [unite_cons, ih, mem_insertTag, List.mem_cons, or_assoc]

theorem prefix_unite (outer inner : List String) : outer <+: unite outer inner := by
  induction inner generalizing outer with
  | nil => exact List.prefix_rfl
  | cons t inner ih => exact (prefix_insertTag outer t).trans (ih _)

theorem nodup_unite {outer : List String} (h : outer.Nodup) (inner : List String) :
    (unite outer inner).Nodup := by
  induction inner generalizing outer with
  | nil => exact h
  | cons t inner ih => exact ih (nodup_insertTag h t)

/-- Tags without repeats that are all new are appended as they are. -/
theorem unite_eq_append {outer inner : List String} (h : (outer ++ inner).Nodup) :
    unite outer inner = outer ++ inner := by
  induction inner generalizing outer with
  | nil => exact (List.append_nil _).symm
  | cons t inner ih =>
    have hnew : t ∉ outer :=
      fun ht => (List.nodup_append.mp h).2.2 t ht t (List.mem_cons_self ..) rfl
    rw [unite_cons, insertTag_of_not_mem hnew, ih (by simpa using h)]
    exact List.append_cons .. |>.symm

/-- Nothing is left out of tags that are inserted into none exactly if no tag repeats. -/
theorem unite_nil_eq_iff (tags : List String) : unite [] tags = tags ↔ tags.Nodup :=
  ⟨fun h => h ▸ nodup_unite List.nodup_nil tags, fun h => unite_eq_append h⟩

/-- A tag that the middle list brings a second time is new to neither side, so the grouping does
not show. The induction is on the innermost list from its end, where one more tag is one more
insertion on both sides. -/
theorem unite_assoc (outer middle inner : List String) :
    unite outer (unite middle inner) = unite (unite outer middle) inner := by
  induction inner using List.reverseRecOn with
  | nil => rfl
  | append_singleton inner t ih =>
    rw [unite_concat, unite_concat, ← ih]
    by_cases ht : t ∈ unite middle inner
    · rw [insertTag_of_mem ht, insertTag_of_mem (mem_unite.mpr (.inr ht))]
    · rw [insertTag_of_not_mem ht, unite_concat]

/-! ### Merging -/

theorem merge_assoc (a b c : Metadata) : a.merge (b.merge c) = (a.merge b).merge c := by
  simp only [merge, mk.injEq, Option.or_assoc, List.append_assoc, Bool.or_assoc, true_and, and_true]
  exact unite_assoc a.tags b.tags c.tags

theorem merge_empty (m : Metadata) : m.merge {} = m := by
  simp [merge]

theorem empty_merge_iff (m : Metadata) : ({} : Metadata).merge m = m ↔ m.tags.Nodup := by
  rw [← unite_nil_eq_iff]
  refine ⟨congrArg tags, fun h => ?_⟩
  have htags : m.tags.foldl insertTag [] = m.tags := h
  simp [merge, htags]

end Metadata

/-! ### Groupings -/

/-- Nested declarations, the outermost first, in groups of groups. -/
inductive Grouping where
  | level (d : Declaration)
  | join (outer inner : Grouping)

namespace Grouping

/-- The declarations, the outermost first. -/
def levels : Grouping → List Declaration
  | level d => [d]
  | join g h => g.levels ++ h.levels

/-- The facts of all declarations, those of a group merged before the group is
merged with another. -/
def metadata : Grouping → Metadata
  | level d => d.metadata
  | join g h => g.metadata.merge h.metadata

/-- A frame that takes in the declarations one after the other gets the facts of their groups. -/
theorem foldl_merge (g : Grouping) (m : Metadata) :
    (g.levels.map Declaration.metadata).foldl Metadata.merge m = m.merge g.metadata := by
  induction g generalizing m with
  | level d => rfl
  | join g h ihg ihh =>
    rw [levels, List.map_append, List.foldl_append, ihg, ihh, metadata, Metadata.merge_assoc]

/-- The facts of a group are those of its declarations, merged one after the other. -/
theorem metadata_eq_foldl (g : Grouping) :
    ∃ m ms, g.levels.map Declaration.metadata = m :: ms ∧
    g.metadata = ms.foldl Metadata.merge m := by
  induction g with
  | level d => exact ⟨_, _, rfl, rfl⟩
  | join g h ihg _ =>
    obtain ⟨m, ms, hlevels, hg⟩ := ihg
    refine ⟨m, ms ++ h.levels.map Declaration.metadata, ?_, ?_⟩
    · rw [levels, List.map_append, hlevels, List.cons_append]
    · rw [List.foldl_append, foldl_merge, ← hg, metadata]

theorem metadata_congr {g h : Grouping} (heq : g.levels = h.levels) : g.metadata = h.metadata := by
  obtain ⟨m, ms, hg, hgm⟩ := g.metadata_eq_foldl
  obtain ⟨m', ms', hh, hhm⟩ := h.metadata_eq_foldl
  rw [heq, hh] at hg
  obtain ⟨rfl, rfl⟩ := List.cons.inj hg
  exact hgm.trans hhm.symm

end Grouping

theorem Frame.metadata_foldl_nest (f : Frame) (ds : List Declaration) :
    (ds.foldl (fun f d => f.nest d.route d.metadata) f).metadata =
      (ds.map Declaration.metadata).foldl Metadata.merge f.metadata := by
  induction ds generalizing f with
  | nil => rfl
  | cons d ds ih => exact ih _

/-- Merging is associative. The empty facts change nothing beneath others, and nothing above them
exactly if no tag of these repeats. The tags of the outer facts come first, then those of the
inner ones that are new. So the facts at the end of a way of nested declarations are the same for
every grouping of the way. -/
theorem Metadata.merge_is_associative :
    (∀ a b c : Metadata, a.merge (b.merge c) = (a.merge b).merge c) ∧
    (∀ m : Metadata, m.merge {} = m) ∧
    (∀ m : Metadata, ({} : Metadata).merge m = m ↔ m.tags.Nodup) ∧
    (∀ a b : Metadata, (a.tags.Nodup → (a.merge b).tags.Nodup) ∧ a.tags <+: (a.merge b).tags ∧
      ∀ t, t ∈ (a.merge b).tags ↔ t ∈ a.tags ∨ t ∈ b.tags) ∧
    (∀ g h : Grouping, g.levels = h.levels → g.metadata = h.metadata) ∧
    (∀ (f : Frame) (g : Grouping),
      (g.levels.foldl (fun f d => f.nest d.route d.metadata) f).metadata =
        f.metadata.merge g.metadata) ∧
    ∀ (u : Usage) (g : Grouping), g.levels = u.declarations →
      u.frame.metadata = ({} : Metadata).merge g.metadata := by
  refine ⟨merge_assoc, merge_empty, empty_merge_iff, fun a b => ⟨fun h => ?_, ?_, fun t => ?_⟩,
    fun _ _ => Grouping.metadata_congr, fun f g => ?_, fun u g h => ?_⟩
  · exact nodup_unite h b.tags
  · exact prefix_unite a.tags b.tags
  · exact mem_unite
  · rw [Frame.metadata_foldl_nest, Grouping.foldl_merge]
  · rw [← Grouping.foldl_merge, h]
    rfl

theorem Metadata.merge_is_associative_repeats :
    let a : Metadata := { tags := ["admin"] }
    let b : Metadata := { tags := ["users", "admin", "users"] }
    a.tags.Nodup ∧ (a.merge b).tags.Nodup ∧ (a.merge b).tags = ["admin", "users"] ∧
      ({} : Metadata).merge b ≠ b := by
  intro a b
  have ha : a.tags.Nodup := by decide
  obtain ⟨-, -, hleft, htags, -⟩ := merge_is_associative
  exact ⟨ha, (htags a b).1 ha, by decide, mt (hleft b).mp (by decide)⟩

end EndpointCensus
