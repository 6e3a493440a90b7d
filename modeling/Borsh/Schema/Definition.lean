import Mathlib.Data.Finmap

/-! The data model of `borsh::schema`: declarations, definitions, the definition map and
`add_definition`, the one step of the schema registry that can panic.
-/

namespace Borsh.Schema

/-- The type that we use to represent the declaration of the Borsh type. -/
abbrev Declaration := String

/-- The type that we use for the name of the variant. -/
abbrev VariantName := String

/-- The name of the field in the struct. -/
abbrev FieldName := String

/-- The collection representing the fields of a struct. -/
inductive Fields where
  | namedFields (fields : List (FieldName × Declaration))
  | unnamedFields (fields : List Declaration)
  | empty
  deriving DecidableEq, Repr

/-- The type that we use to represent the definition of the Borsh type. -/
inductive Definition where
  | array (length : UInt32) (elements : Declaration)
  | sequence (elements : Declaration)
  | tuple (elements : List Declaration)
  | enum (variants : List (VariantName × Declaration))
  | struct (fields : Fields)
  deriving DecidableEq, Repr

/-- The declarations a struct's fields name. -/
def Fields.declarations : Fields → List Declaration
  | .namedFields fields => fields.map Prod.snd
  | .unnamedFields fields => fields
  | .empty => []

/-- The declarations a definition refers to: its elements, variant payloads or fields. -/
def Definition.references : Definition → List Declaration
  | .array _ elements => [elements]
  | .sequence elements => [elements]
  | .tuple elements => elements
  | .enum variants => variants.map Prod.snd
  | .struct fields => fields.declarations

/-- The `HashMap<Declaration, Definition>` the registry fills; its equality is by entries. -/
abbrev DefinitionMap := Finmap fun _ : Declaration => Definition

/-- All schema information needed to deserialize a single type. -/
structure BorshSchemaContainer where
  declaration : Declaration
  definitions : DefinitionMap
  deriving DecidableEq

@[simp] theorem Except.ok_bind {α β : Type} (a : α) (f : α → Except String β)
    : (Except.ok a >>= f) = f a := rfl

@[simp] theorem Except.error_bind {α β : Type} (e : String) (f : α → Except String β)
    : (Except.error e >>= f) = Except.error e := rfl

/-- The text of the `assert_eq!` in `add_definition`. -/
def redefinitionMessage : String :=
  "Redefining type schema for the same type name. Types with the same names are not supported."

/-- `BorshSchema::add_definition`: an occupied entry must already hold `definition`, or the
assertion panics; a vacant one receives it.
-/
def addDefinition (declaration : Declaration) (definition : Definition)
    (definitions : DefinitionMap) : Except String DefinitionMap :=
  match definitions.lookup declaration with
  | some existing =>
      if existing = definition then .ok definitions else .error redefinitionMessage
  | none => .ok (definitions.insert declaration definition)

/-- An entry `declaration ↦ definition` can be added to `definitions` without a conflict. -/
def Admits (definitions : DefinitionMap) (declaration : Declaration)
    (definition : Definition) : Prop :=
  ∀ existing, definitions.lookup declaration = some existing → existing = definition

instance (definitions : DefinitionMap) (declaration : Declaration) (definition : Definition) :
    Decidable (Admits definitions declaration definition) :=
  match h : definitions.lookup declaration with
  | none => isTrue fun _ he => by simp [h] at he
  | some existing =>
      if hd : existing = definition then isTrue fun _ he => by simp_all
      else isFalse fun ha => hd (ha existing h)

theorem insert_eq_self_of_lookup {definitions : DefinitionMap} {declaration : Declaration}
    {definition : Definition} (h : definitions.lookup declaration = some definition)
    : definitions.insert declaration definition = definitions :=
  Finmap.ext_lookup fun key => by
    by_cases hk : key = declaration
    · subst hk; simp [h]
    · simp [Finmap.lookup_insert_of_ne _ hk]

/-- The spec of `add_definition`: it succeeds exactly on an admitted entry, and then the map
holds the entry whether it was occupied or vacant.
-/
theorem addDefinition_eq (declaration : Declaration) (definition : Definition)
    (definitions : DefinitionMap)
    : addDefinition declaration definition definitions =
        if Admits definitions declaration definition then
          .ok (definitions.insert declaration definition)
        else .error redefinitionMessage := by
  unfold addDefinition Admits
  split
  · rename_i existing h
    by_cases hd : existing = definition
    · subst hd; simp [h, insert_eq_self_of_lookup h]
    · simp [h, hd]
  · rename_i h
    simp [h]

/-- Conflict detection: a second definition under one declaration fails exactly when it
differs from the first, and adding the same definition twice is adding it once.
-/
theorem addDefinition_twice (declaration : Declaration) (d₁ d₂ : Definition)
    (definitions : DefinitionMap)
    : (addDefinition declaration d₁ definitions >>= addDefinition declaration d₂)
      = if d₁ = d₂ then addDefinition declaration d₁ definitions
        else .error redefinitionMessage := by
  rw [addDefinition_eq declaration d₁]
  by_cases ha : Admits definitions declaration d₁
  · have hself : Admits (definitions.insert declaration d₁) declaration d₂ ↔ d₁ = d₂ := by
      simp [Admits]
    rw [if_pos ha, Except.ok_bind, addDefinition_eq, if_congr hself rfl rfl]
    split_ifs with hd
    · subst hd; simp
    · rfl
  · rw [if_neg ha, Except.error_bind]
    split <;> rfl

end Borsh.Schema
