import Borsh.Schema.Definition

/-! Runs of `add_definition` over a list of entries on one map. When no two entries of the
list disagree, a run succeeds exactly when the map admits every entry, and it ends in the
left-biased union of the map with the entries.
-/

namespace Borsh.Schema

/-- `add_definition` of each entry, in order, on one map. -/
def addDefinitions : List (Declaration × Definition) → DefinitionMap → Except String DefinitionMap
  | [], definitions => .ok definitions
  | (declaration, definition) :: rest, definitions => do
      let definitions ← addDefinition declaration definition definitions
      addDefinitions rest definitions

/-- No two entries give one declaration different definitions. -/
def Consistent (entries : List (Declaration × Definition)) : Prop :=
  ∀ p ∈ entries, ∀ q ∈ entries, p.1 = q.1 → p.2 = q.2

/-- The map holding the entries of a list, the first entry of a declaration winning. -/
def entriesMap : List (Declaration × Definition) → DefinitionMap
  | [] => ∅
  | (declaration, definition) :: rest => (entriesMap rest).insert declaration definition

theorem addDefinitions_append (l₁ l₂ : List (Declaration × Definition))
    (definitions : DefinitionMap)
    : addDefinitions (l₁ ++ l₂) definitions
      = addDefinitions l₁ definitions >>= addDefinitions l₂ := by
  induction l₁ generalizing definitions with
  | nil => rfl
  | cons entry rest ih =>
      obtain ⟨declaration, definition⟩ := entry
      simp only [List.cons_append, addDefinitions, List.append_eq, ih, bind_assoc]

theorem Consistent.tail {entry : Declaration × Definition}
    {rest : List (Declaration × Definition)} (h : Consistent (entry :: rest)) : Consistent rest :=
  fun p hp q hq => h p (List.mem_cons_of_mem _ hp) q (List.mem_cons_of_mem _ hq)

theorem Consistent.mono {l₁ l₂ : List (Declaration × Definition)} (h : Consistent l₂)
    (hsub : ∀ p ∈ l₁, p ∈ l₂) : Consistent l₁ :=
  fun p hp q hq => h p (hsub p hp) q (hsub q hq)

theorem mem_of_lookup_entriesMap {l : List (Declaration × Definition)} {declaration : Declaration}
    {definition : Definition} (h : (entriesMap l).lookup declaration = some definition)
    : (declaration, definition) ∈ l := by
  induction l with
  | nil => simp [entriesMap] at h
  | cons entry rest ih =>
      obtain ⟨key, value⟩ := entry
      by_cases hk : declaration = key
      · subst hk; simp_all [entriesMap]
      · simp only [entriesMap, Finmap.lookup_insert_of_ne _ hk] at h
        exact List.mem_cons_of_mem _ (ih h)

theorem lookup_entriesMap_of_mem {l : List (Declaration × Definition)} (hl : Consistent l)
    {declaration : Declaration} {definition : Definition} (h : (declaration, definition) ∈ l)
    : (entriesMap l).lookup declaration = some definition := by
  induction l with
  | nil => simp at h
  | cons entry rest ih =>
      obtain ⟨key, value⟩ := entry
      by_cases hk : declaration = key
      · subst hk
        simp only [entriesMap, Finmap.lookup_insert]
        exact congrArg some (hl _ (List.mem_cons_self _ _) _ h rfl)
      · simp only [entriesMap, Finmap.lookup_insert_of_ne _ hk]
        exact ih hl.tail (by simpa [hk] using h)

/-- The map of a consistent list is determined by which entries the list holds. -/
theorem entriesMap_eq_of_mem_iff {l₁ l₂ : List (Declaration × Definition)}
    (h₁ : Consistent l₁) (h₂ : Consistent l₂) (h : ∀ p, p ∈ l₁ ↔ p ∈ l₂)
    : entriesMap l₁ = entriesMap l₂ := by
  refine Finmap.ext_lookup fun declaration => ?_
  cases hl : (entriesMap l₁).lookup declaration with
  | some definition =>
      exact (lookup_entriesMap_of_mem h₂ ((h _).mp (mem_of_lookup_entriesMap hl))).symm
  | none =>
      cases hr : (entriesMap l₂).lookup declaration with
      | none => rfl
      | some definition =>
          have := lookup_entriesMap_of_mem h₁ ((h _).mpr (mem_of_lookup_entriesMap hr))
          simp_all

/-- After an admitted entry is inserted, a consistent rest is admitted iff it was before. -/
theorem admits_insert_iff {declaration : Declaration} {definition : Definition}
    {rest : List (Declaration × Definition)} (hl : Consistent ((declaration, definition) :: rest))
    {definitions : DefinitionMap} (ha : Admits definitions declaration definition)
    : (∀ p ∈ rest, Admits (definitions.insert declaration definition) p.1 p.2)
      ↔ ∀ p ∈ rest, Admits definitions p.1 p.2 := by
  refine forall₂_congr fun p hp => ?_
  have hsame : p.1 = declaration → p.2 = definition := fun hk =>
    (hl _ (List.mem_cons_self _ _) p (List.mem_cons_of_mem _ hp) hk.symm).symm
  by_cases hk : p.1 = declaration
  · rw [hk] at hsame ⊢
    simp only [Admits, Finmap.lookup_insert, Option.some.injEq, hsame rfl]
    exact ⟨fun _ e he => ha e he, fun _ _ he => he.symm⟩
  · simp only [Admits, Finmap.lookup_insert_of_ne _ hk]

/-- An entry of the right map survives the left-biased union when the left map admits it. -/
theorem lookup_union_of_admits {definitions m : DefinitionMap} {declaration : Declaration}
    {definition : Definition} (ha : Admits definitions declaration definition)
    (h : m.lookup declaration = some definition)
    : (definitions ∪ m).lookup declaration = some definition := by
  by_cases hm : declaration ∈ definitions
  · obtain ⟨existing, he⟩ := Finmap.mem_iff.mp hm
    rw [Finmap.lookup_union_left hm, he, ha existing he]
  · rw [Finmap.lookup_union_right hm, h]

theorem insert_union_entriesMap {declaration : Declaration} {definition : Definition}
    {rest : List (Declaration × Definition)} {definitions : DefinitionMap}
    (ha : Admits definitions declaration definition)
    : definitions.insert declaration definition ∪ entriesMap rest
      = definitions ∪ entriesMap ((declaration, definition) :: rest) := by
  refine Finmap.ext_lookup fun key => ?_
  rw [← Finmap.insert_union, entriesMap]
  by_cases hk : key = declaration
  · subst hk
    rw [Finmap.lookup_insert, lookup_union_of_admits ha (Finmap.lookup_insert _)]
  · rw [Finmap.lookup_insert_of_ne _ hk]
    by_cases hm : key ∈ definitions
    · rw [Finmap.lookup_union_left hm, Finmap.lookup_union_left hm]
    · rw [Finmap.lookup_union_right hm, Finmap.lookup_union_right hm,
        Finmap.lookup_insert_of_ne _ hk]

/-- The run lemma: a consistent list of entries succeeds exactly when the map admits each of
them, and then leaves the map's union with the entries; by induction on the list.
-/
theorem addDefinitions_eq {l : List (Declaration × Definition)} (hl : Consistent l)
    (definitions : DefinitionMap)
    : addDefinitions l definitions
      = if ∀ p ∈ l, Admits definitions p.1 p.2 then .ok (definitions ∪ entriesMap l)
        else .error redefinitionMessage := by
  induction l generalizing definitions with
  | nil => simp [addDefinitions, entriesMap]
  | cons entry rest ih =>
      obtain ⟨declaration, definition⟩ := entry
      simp only [addDefinitions, addDefinition_eq]
      by_cases ha : Admits definitions declaration definition
      · simp only [ha, if_true, Except.ok_bind, ih hl.tail, admits_insert_iff hl ha,
          insert_union_entriesMap ha, List.forall_mem_cons, true_and]
      · simp only [ha, if_false, Except.error_bind, List.forall_mem_cons, false_and]

/-- A run of a consistent list depends only on which entries the list holds. -/
theorem addDefinitions_congr {l₁ l₂ : List (Declaration × Definition)} (h₁ : Consistent l₁)
    (h₂ : Consistent l₂) (h : ∀ p, p ∈ l₁ ↔ p ∈ l₂) (definitions : DefinitionMap)
    : addDefinitions l₁ definitions = addDefinitions l₂ definitions := by
  rw [addDefinitions_eq h₁, addDefinitions_eq h₂, entriesMap_eq_of_mem_iff h₁ h₂ h]
  simp only [h]

/-- An entry of the map of a consistent list is an entry of the list. -/
theorem lookup_entriesMap_iff {l : List (Declaration × Definition)} (hl : Consistent l)
    {declaration : Declaration} {definition : Definition}
    : (entriesMap l).lookup declaration = some definition ↔ (declaration, definition) ∈ l :=
  ⟨mem_of_lookup_entriesMap, lookup_entriesMap_of_mem hl⟩

end Borsh.Schema
