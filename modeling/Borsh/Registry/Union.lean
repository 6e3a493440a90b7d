import Borsh.Registry.Registrations

/-! The registry's update of a map is a union. A type's run on any map succeeds exactly when
the map agrees with the definitions the type collects from empty, and then adds them; so two
runs commute and a run repeated changes nothing.
-/

namespace Borsh.Schema

theorem RustType.addDefinitionsRecursively_fun (t : RustType)
    : t.addDefinitionsRecursively = addDefinitions t.registrations :=
  funext t.addDefinitionsRecursively_eq

theorem consistent_registrations_append (t₁ t₂ : RustType)
    : Consistent (t₁.registrations ++ t₂.registrations) :=
  consistent_of_registered fun _ h => (List.mem_append.mp h).elim (⟨t₁, ·⟩) (⟨t₂, ·⟩)

/-- One type's run on any map, in closed form. -/
theorem RustType.addDefinitionsRecursively_eq_ite (t : RustType) (definitions : DefinitionMap)
    : t.addDefinitionsRecursively definitions
      = if ∀ p ∈ t.registrations, Admits definitions p.1 p.2 then
          .ok (definitions ∪ entriesMap t.registrations)
        else .error redefinitionMessage := by
  rw [t.addDefinitionsRecursively_eq, addDefinitions_eq t.consistent_registrations]

/-- Running two types in turn is the run of their registrations together. -/
theorem RustType.addDefinitionsRecursively_bind (t₁ t₂ : RustType) (definitions : DefinitionMap)
    : (t₁.addDefinitionsRecursively definitions >>= t₂.addDefinitionsRecursively)
      = addDefinitions (t₁.registrations ++ t₂.registrations) definitions := by
  rw [addDefinitions_append, t₁.addDefinitionsRecursively_fun, t₂.addDefinitionsRecursively_fun]

/-- The registry's map update is a union, independent of order: from any map, a type's run
succeeds exactly when every definition it collects from empty is absent or equal there, and
then leaves the map's union with them; two runs commute and a repeated run changes nothing.
-/
theorem addDefinitionsRecursively_union (definitions : DefinitionMap) (t t₁ t₂ : RustType)
    : (∃ collected, t.addDefinitionsRecursively ∅ = .ok collected
        ∧ ((∃ result, t.addDefinitionsRecursively definitions = .ok result)
            ↔ ∀ declaration definition, collected.lookup declaration = some definition →
                ∀ existing, definitions.lookup declaration = some existing → existing = definition)
        ∧ ∀ result, t.addDefinitionsRecursively definitions = .ok result →
            result = definitions ∪ collected)
      ∧ (t₁.addDefinitionsRecursively definitions >>= t₂.addDefinitionsRecursively)
          = (t₂.addDefinitionsRecursively definitions >>= t₁.addDefinitionsRecursively)
      ∧ (t.addDefinitionsRecursively definitions >>= t.addDefinitionsRecursively)
          = t.addDefinitionsRecursively definitions := by
  have hl := t.consistent_registrations
  refine ⟨⟨_, by rw [t.addDefinitionsRecursively_eq, addDefinitions_empty hl], ?_, ?_⟩, ?_, ?_⟩
  · have hiff : (∀ p ∈ t.registrations, Admits definitions p.1 p.2)
        ↔ ∀ declaration definition, (entriesMap t.registrations).lookup declaration
            = some definition → Admits definitions declaration definition :=
      ⟨fun h _ _ he => h _ ((lookup_entriesMap_iff hl).mp he),
        fun h p hp => h _ _ ((lookup_entriesMap_iff hl).mpr hp)⟩
    rw [t.addDefinitionsRecursively_eq_ite]
    split
    · exact ⟨fun _ => hiff.mp ‹_›, fun _ => ⟨_, rfl⟩⟩
    · exact ⟨fun ⟨_, h⟩ => (by cases h), fun h => absurd (hiff.mpr h) ‹_›⟩
  · intro result h
    rw [t.addDefinitionsRecursively_eq_ite] at h
    split at h <;> simp_all
  · rw [RustType.addDefinitionsRecursively_bind, RustType.addDefinitionsRecursively_bind]
    exact addDefinitions_congr (consistent_registrations_append t₁ t₂)
      (consistent_registrations_append t₂ t₁)
      (fun _ => by simp only [List.mem_append, or_comm]) definitions
  · rw [RustType.addDefinitionsRecursively_bind, t.addDefinitionsRecursively_eq]
    exact addDefinitions_congr (consistent_registrations_append t t) hl
      (fun _ => by rw [List.mem_append, or_self]) definitions

/-- Any sequence of library types, run in turn on any map, gives the same outcome in every
order.
-/
theorem addDefinitionsInTurn_perm {ts ts' : List RustType} (h : ts.Perm ts')
    (definitions : DefinitionMap)
    : RustType.addDefinitionsInTurn ts definitions
      = RustType.addDefinitionsInTurn ts' definitions := by
  rw [RustType.addDefinitionsInTurn_eq, RustType.addDefinitionsInTurn_eq]
  exact addDefinitions_congr (RustType.consistent_registrationsAll ts)
    (RustType.consistent_registrationsAll ts')
    (fun _ => by simp only [mem_registrationsAll, h.mem_iff]) definitions

theorem addDefinitionsInTurn_swap_vec_option :
    [RustType.vec (.primitive .u8), .option (.primitive .u8)].Perm
        [.option (.primitive .u8), .vec (.primitive .u8)]
      ∧ RustType.addDefinitionsInTurn [.vec (.primitive .u8), .option (.primitive .u8)] ∅
        = RustType.addDefinitionsInTurn [.option (.primitive .u8), .vec (.primitive .u8)] ∅ :=
  ⟨.swap _ _ _, addDefinitionsInTurn_perm (.swap _ _ _) ∅⟩

end Borsh.Schema
