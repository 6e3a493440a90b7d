import Mathlib.Data.String.Basic
import Borsh.Registry.Container

/-! The registry as a state machine: its state is the definition map, and a step runs one
library type's `add_definitions_recursively`. Every state reached from an empty map holds only
registrations of library types. So no definition is stored under a primitive name, every
reference is strictly shorter than the declaration storing it (the definition graph has no
cycle), and each stored definition is recomputed from its declaration alone.
-/

namespace Borsh.Schema

theorem Except.exists_of_bind_eq_ok {α β : Type} {x : Except String α}
    {f : α → Except String β} {b : β} (h : (x >>= f) = .ok b)
    : ∃ a, x = .ok a ∧ f a = .ok b := by
  cases x with
  | error e => cases h
  | ok a => exact ⟨a, rfl, h⟩

-----------------------------------------------------------------------------------------
-- The state invariant
-----------------------------------------------------------------------------------------

/-- Every entry of the map is the registration of some library type. -/
def Registered (definitions : DefinitionMap) : Prop :=
  ∀ declaration definition, definitions.lookup declaration = some definition →
    ∃ t : RustType, (declaration, definition) ∈ t.registrations

theorem Registered.empty : Registered ∅ := fun _ _ h => by simp at h

/-- The step lemma: a successful run of a library type keeps a map registered. -/
theorem Registered.addDefinitionsRecursively {definitions result : DefinitionMap}
    (h : Registered definitions) {t : RustType}
    (hrun : t.addDefinitionsRecursively definitions = .ok result) : Registered result := by
  rw [t.addDefinitionsRecursively_eq_ite] at hrun
  split at hrun
  · cases hrun
    intro declaration definition hl
    rcases Finmap.mem_lookup_union'.mp hl with hl | ⟨-, hl⟩
    · exact h _ _ hl
    · exact ⟨t, mem_of_lookup_entriesMap hl⟩
  · cases hrun

/-- The run lemma: library types run in turn keep a map registered, by induction on them. -/
theorem Registered.addDefinitionsInTurn : ∀ {ts : List RustType}
    {definitions result : DefinitionMap}, Registered definitions →
      RustType.addDefinitionsInTurn ts definitions = .ok result → Registered result
  | [], _, _, h, hrun => by cases hrun; exact h
  | t :: _, _, _, h, hrun => by
      obtain ⟨_, hstep, hrest⟩ :=
        Except.exists_of_bind_eq_ok (x := t.addDefinitionsRecursively _) hrun
      exact (h.addDefinitionsRecursively hstep).addDefinitionsInTurn hrest

/-- Library types run in turn from an empty map hold exactly their registrations. -/
theorem RustType.addDefinitionsInTurn_empty (ts : List RustType)
    : RustType.addDefinitionsInTurn ts ∅ = .ok (entriesMap (RustType.registrationsAll ts)) :=
  (RustType.addDefinitionsInTurn_eq ts ∅).trans
    (addDefinitions_empty (RustType.consistent_registrationsAll ts))

theorem RustType.registered_entriesMap (t : RustType) : Registered (entriesMap t.registrations) :=
  fun _ _ h => ⟨t, mem_of_lookup_entriesMap h⟩

-----------------------------------------------------------------------------------------
-- Keys are never primitive names
-----------------------------------------------------------------------------------------

theorem lt_not_mem_primitiveNames : ∀ name ∈ primitiveNames, '<' ∉ name.data := by decide

/-- A type with a definition of its own has a bracket in its declaration. -/
theorem RustType.lt_mem_declaration : ∀ {t : RustType}, t.registrations ≠ [] →
    '<' ∈ t.declaration.data
  | .box t, h => RustType.lt_mem_declaration (t := t) h
  | .primitive _, h | .unit, h | .phantomData _, h => absurd rfl h
  | .array .., _ | .option _, _ | .result .., _ | .vec _, _ | .slice _, _ | .hashMap .., _
  | .hashSet _, _ | .bTreeMap .., _ | .bTreeSet _, _ | .tuple .., _ => by
      simp [RustType.declaration, tupleDeclaration]

theorem RustType.declaration_not_primitive {t : RustType} (h : t.registrations ≠ [])
    : t.declaration ∉ primitiveNames :=
  fun hp => lt_not_mem_primitiveNames _ hp (RustType.lt_mem_declaration h)

/-- No library type registers a definition under a primitive name. -/
theorem key_not_primitive {t : RustType} {declaration : Declaration} {definition : Definition}
    (h : (declaration, definition) ∈ t.registrations) : declaration ∉ primitiveNames := by
  obtain ⟨s, hs⟩ := RustType.exists_head_of_mem_registrations h
  have hk : declaration = s.declaration := RustType.fst_of_head_registrations hs
  rw [hk]
  exact RustType.declaration_not_primitive fun he => by simp [he] at hs

theorem Registered.not_primitive {definitions : DefinitionMap} (h : Registered definitions)
    {declaration : Declaration} (hk : declaration ∈ definitions)
    : declaration ∉ primitiveNames := by
  obtain ⟨_, hl⟩ := Finmap.mem_iff.mp hk
  obtain ⟨_, ht⟩ := h _ _ hl
  exact key_not_primitive ht

-----------------------------------------------------------------------------------------
-- References are shorter than their keys
-----------------------------------------------------------------------------------------

theorem length_le_flatten {d : Declaration} : ∀ {ds : List Declaration}, d ∈ ds →
    d.length ≤ (ds.map fun d => [',', ' '] ++ d.data).flatten.length
  | _ :: _, .head _ => by
      simp only [← String.length_data, List.map_cons, List.flatten_cons, List.length_append,
        List.length_cons, List.length_nil]
      omega
  | _ :: _, .tail _ h => by
      have := length_le_flatten h
      simp only [List.map_cons, List.flatten_cons, List.length_append] at this ⊢
      omega

/-- A type's own definition refers only to declarations shorter than its own, by cases on the
type.
-/
theorem RustType.references_shorter : ∀ {s : RustType} {k : Declaration} {d : Definition},
    s.registrations.head? = some (k, d) → ∀ r ∈ d.references, r.length < k.length
  | .box t, _, _, h => RustType.references_shorter (s := t) h
  | .primitive _, _, _, h | .unit, _, _, h | .phantomData _, _, _, h => by
      simp [RustType.registrations] at h
  | .array t _, _, _, h | .vec t, _, _, h | .slice t, _, _, h | .hashSet t, _, _, h
  | .bTreeSet t, _, _, h | .option t, _, _, h | .result t _, _, _, h | .hashMap t _, _, _, h
  | .bTreeMap t _, _, _, h => by
      simp only [RustType.registrations, List.head?_cons, Option.some.injEq, Prod.mk.injEq] at h
      obtain ⟨rfl, rfl⟩ := h
      intro r hr
      simp [Definition.references] at hr
      rcases hr with rfl | rfl <;>
        simp only [← String.length_data, RustType.declaration, unitDeclaration,
          tupleDeclaration_data, String.data_append, List.length_append, List.length_cons,
          List.length_nil, List.map_cons, List.map_nil, List.flatten_cons, List.flatten_nil] <;>
        omega
  | .tuple head tail, _, _, h => by
      simp only [RustType.registrations, List.head?_cons, Option.some.injEq, Prod.mk.injEq] at h
      obtain ⟨rfl, rfl⟩ := h
      intro r hr
      have hl : (RustType.tuple head tail).declaration.length
          = 6 + head.declaration.length
            + ((RustType.declarations tail).map fun d => [',', ' '] ++ d.data).flatten.length
            + 1 := by
        simp only [← String.length_data, RustType.declaration, tupleDeclaration_data,
          List.length_append, List.length_cons, List.length_nil]
        omega
      rw [hl]
      rcases List.mem_cons.mp hr with rfl | hr
      · omega
      · have := length_le_flatten hr; omega

theorem reference_shorter {t : RustType} {declaration : Declaration} {definition : Definition}
    (h : (declaration, definition) ∈ t.registrations)
    : ∀ reference ∈ definition.references, reference.length < declaration.length :=
  have ⟨_, hs⟩ := RustType.exists_head_of_mem_registrations h
  RustType.references_shorter hs

/-- Following references in a registered map never lengthens the declaration, by induction
on the path.
-/
theorem Registered.length_le_of_reaches {definitions : DefinitionMap} (h : Registered definitions)
    {source target : Declaration} (hr : Reaches definitions source target)
    : target.length ≤ source.length := by
  induction hr with
  | refl => exact le_rfl
  | step stored references _ ih =>
      obtain ⟨_, ht⟩ := h _ _ stored
      have := reference_shorter ht _ references
      omega

/-- Every state the registry reaches from an empty map is acyclic: whatever a stored definition
refers to, directly or through further definitions, is strictly shorter than its declaration.
-/
theorem addDefinitionsInTurn_acyclic (ts : List RustType)
    : ∃ definitions, RustType.addDefinitionsInTurn ts ∅ = .ok definitions
      ∧ ∀ declaration definition, definitions.lookup declaration = some definition →
          ∀ reference ∈ definition.references, ∀ target,
            Reaches definitions reference target → target.length < declaration.length := by
  have hrun := RustType.addDefinitionsInTurn_empty ts
  have hreg := Registered.empty.addDefinitionsInTurn hrun
  refine ⟨_, hrun, fun _ _ hl reference hr _ hreach => ?_⟩
  obtain ⟨_, ht⟩ := hreg _ _ hl
  have := reference_shorter ht reference hr
  have := hreg.length_le_of_reaches hreach
  omega

-----------------------------------------------------------------------------------------
-- Definitions are recomputed from their declarations
-----------------------------------------------------------------------------------------

/-- The definition a consumer recomputes from a declaration alone: the own entry of the type the
declaration reads back as.
-/
def definitionOf (declaration : Declaration) : Option Definition :=
  (readDeclaration declaration).bind fun t => t.registrations.head?.map Prod.snd

theorem definitionOf_of_mem {t : RustType} {declaration : Declaration} {definition : Definition}
    (h : (declaration, definition) ∈ t.registrations)
    : definitionOf declaration = some definition := by
  obtain ⟨s, hs⟩ := RustType.exists_head_of_mem_registrations h
  have hk : declaration = s.declaration := RustType.fst_of_head_registrations hs
  subst hk
  simp [definitionOf, readDeclaration_declaration, s.registrations_unalias, hs]

/-- Every state the registry reaches from an empty map is a restriction of one computable map:
each stored definition is the one `definitionOf` recomputes from its declaration.
-/
theorem addDefinitionsInTurn_lookup_eq_definitionOf (ts : List RustType)
    : ∃ definitions, RustType.addDefinitionsInTurn ts ∅ = .ok definitions
      ∧ ∀ declaration definition, definitions.lookup declaration = some definition →
          definitionOf declaration = some definition := by
  have hrun := RustType.addDefinitionsInTurn_empty ts
  refine ⟨_, hrun, fun _ _ hl => ?_⟩
  obtain ⟨_, ht⟩ := Registered.empty.addDefinitionsInTurn hrun _ _ hl
  exact definitionOf_of_mem ht

example : ∀ name ∈ primitiveNames, definitionOf name = none := by decide

-----------------------------------------------------------------------------------------
-- Empty containers
-----------------------------------------------------------------------------------------

theorem RustType.registrations_eq_nil_iff (t : RustType)
    : t.registrations = [] ↔ t.declaration ∈ primitiveNames := by
  refine ⟨fun h => ?_, fun h => by_contra fun hne => RustType.declaration_not_primitive hne h⟩
  rcases t.declaration_registered_or_primitive with ⟨_, hd⟩ | hp
  · simp [h] at hd
  · exact hp

theorem entriesMap_eq_empty_iff (l : List (Declaration × Definition))
    : entriesMap l = ∅ ↔ l = [] := by
  refine ⟨fun h => ?_, fun h => by rw [h]; rfl⟩
  cases l with
  | nil => rfl
  | cons entry rest =>
      have hl : (entriesMap (entry :: rest)).lookup entry.1 = some entry.2 := by
        simp [entriesMap]
      simp [h] at hl

/-- The definitions of a schema container are empty exactly when its declaration is a
primitive name: the types without a definition of their own are the primitives, `()`,
`PhantomData` and boxes of them.
-/
theorem schemaContainer_definitions_eq_empty_iff (t : RustType)
    : ∃ container, t.schemaContainer = .ok container
      ∧ (container.definitions = ∅ ↔ container.declaration ∈ primitiveNames) :=
  ⟨_, t.schemaContainer_eq, (entriesMap_eq_empty_iff _).trans t.registrations_eq_nil_iff⟩

end Borsh.Schema
