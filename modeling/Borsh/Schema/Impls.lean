import Borsh.Schema.Definition

/-! The `BorshSchema` impls of `borsh::schema` for the library's own types, as one syntax of
type expressions with `declaration`, `add_definitions_recursively` and `schema_container`.
-/

namespace Borsh.Schema

/-- The types `impl_for_primitives!` and `impl_for_renamed_primitives!` implement. -/
inductive Primitive where
  | bool | f32 | f64 | i8 | i16 | i32 | i64 | i128 | u8 | u16 | u32 | u64 | u128
  | string | str | isize | usize
  deriving DecidableEq, Repr

/-- `stringify!($name)`: the declaration of each primitive, renamed ones included. -/
def Primitive.name : Primitive → Declaration
  | .bool => "bool"
  | .f32 => "f32"
  | .f64 => "f64"
  | .i8 => "i8"
  | .i16 => "i16"
  | .i32 => "i32"
  | .i64 => "i64"
  | .i128 => "i128"
  | .u8 => "u8"
  | .u16 => "u16"
  | .u32 => "u32"
  | .u64 => "u64"
  | .u128 => "u128"
  | .string => "string"
  | .str => "string"
  | .isize => "i64"
  | .usize => "u64"

/-- A type expression built from the library's `BorshSchema` impls. The array length is the
`usize` constant `N`, read as a natural number. The library implements tuples of arity 1 to
21 (`impl_tuple!`); a tuple here has a head and any tail.
-/
inductive RustType where
  | primitive (p : Primitive)
  | unit
  | box (t : RustType)
  | array (t : RustType) (n : Nat)
  | option (t : RustType)
  | result (t e : RustType)
  | vec (t : RustType)
  | slice (t : RustType)
  | hashMap (k v : RustType)
  | hashSet (t : RustType)
  | bTreeMap (k v : RustType)
  | bTreeSet (t : RustType)
  | phantomData (t : RustType)
  | tuple (head : RustType) (tail : List RustType)

/-- `<()>::declaration()`, which `PhantomData` and the `None` variant of `Option` reuse. -/
def unitDeclaration : Declaration := "nil"

/-- `impl_tuple!`'s declaration: `format!("Tuple<{}>", params.join(", "))`. -/
def tupleDeclaration (params : List Declaration) : Declaration :=
  "Tuple<" ++ String.intercalate ", " params ++ ">"

mutual
/-- `BorshSchema::declaration` of each impl. -/
def RustType.declaration : RustType → Declaration
  | .primitive p => p.name
  | .unit => unitDeclaration
  | .box t => t.declaration
  | .array t n => "Array<" ++ t.declaration ++ ", " ++ toString n ++ ">"
  | .option t => "Option<" ++ t.declaration ++ ">"
  | .result t e => "Result<" ++ t.declaration ++ ", " ++ e.declaration ++ ">"
  | .vec t => "Vec<" ++ t.declaration ++ ">"
  | .slice t => "Vec<" ++ t.declaration ++ ">"
  | .hashMap k v => "HashMap<" ++ k.declaration ++ ", " ++ v.declaration ++ ">"
  | .hashSet t => "HashSet<" ++ t.declaration ++ ">"
  | .bTreeMap k v => "BTreeMap<" ++ k.declaration ++ ", " ++ v.declaration ++ ">"
  | .bTreeSet t => "BTreeSet<" ++ t.declaration ++ ">"
  | .phantomData _ => unitDeclaration
  | .tuple head tail => tupleDeclaration (head.declaration :: RustType.declarations tail)

/-- The declarations of a tuple's elements, `vec![$($name::declaration()),+]`. -/
def RustType.declarations : List RustType → List Declaration
  | [] => []
  | t :: ts => t.declaration :: RustType.declarations ts
end

/-- `impl_tuple!`'s `add_definitions_recursively` for elements with these declarations:
add the tuple's definition, then run the elements' own `add_definitions_recursively`.
-/
def tupleAddDefinitions (elements : List Declaration)
    (addElements : DefinitionMap → Except String DefinitionMap)
    (definitions : DefinitionMap) : Except String DefinitionMap := do
  let definitions ← addDefinition (tupleDeclaration elements) (.tuple elements) definitions
  addElements definitions

mutual
/-- `BorshSchema::add_definitions_recursively` of each impl; `.error` is the panic of
`add_definition`. The maps call the tuple impl of `(K, V)` on their key and value.
-/
def RustType.addDefinitionsRecursively :
    RustType → DefinitionMap → Except String DefinitionMap
  | .primitive _, definitions => pure definitions
  | .unit, definitions => pure definitions
  | .box t, definitions => t.addDefinitionsRecursively definitions
  | .array t n, definitions => do
      let definition := Definition.array (UInt32.ofNat n) t.declaration
      let definitions ← addDefinition (RustType.array t n).declaration definition definitions
      t.addDefinitionsRecursively definitions
  | .option t, definitions => do
      let definition :=
        Definition.enum [("None", unitDeclaration), ("Some", t.declaration)]
      let definitions ← addDefinition (RustType.option t).declaration definition definitions
      t.addDefinitionsRecursively definitions
  | .result t e, definitions => do
      let definition := Definition.enum [("Ok", t.declaration), ("Err", e.declaration)]
      let definitions ← addDefinition (RustType.result t e).declaration definition definitions
      t.addDefinitionsRecursively definitions
  | .vec t, definitions => do
      let definition := Definition.sequence t.declaration
      let definitions ← addDefinition (RustType.vec t).declaration definition definitions
      t.addDefinitionsRecursively definitions
  | .slice t, definitions => do
      let definition := Definition.sequence t.declaration
      let definitions ← addDefinition (RustType.slice t).declaration definition definitions
      t.addDefinitionsRecursively definitions
  | .hashMap k v, definitions => do
      let definition := Definition.sequence (tupleDeclaration [k.declaration, v.declaration])
      let definitions ← addDefinition (RustType.hashMap k v).declaration definition definitions
      tupleAddDefinitions [k.declaration, v.declaration]
        (fun definitions => do
          let definitions ← k.addDefinitionsRecursively definitions
          v.addDefinitionsRecursively definitions)
        definitions
  | .hashSet t, definitions => do
      let definition := Definition.sequence t.declaration
      let definitions ← addDefinition (RustType.hashSet t).declaration definition definitions
      t.addDefinitionsRecursively definitions
  | .bTreeMap k v, definitions => do
      let definition := Definition.sequence (tupleDeclaration [k.declaration, v.declaration])
      let definitions ← addDefinition (RustType.bTreeMap k v).declaration definition definitions
      tupleAddDefinitions [k.declaration, v.declaration]
        (fun definitions => do
          let definitions ← k.addDefinitionsRecursively definitions
          v.addDefinitionsRecursively definitions)
        definitions
  | .bTreeSet t, definitions => do
      let definition := Definition.sequence t.declaration
      let definitions ← addDefinition (RustType.bTreeSet t).declaration definition definitions
      t.addDefinitionsRecursively definitions
  | .phantomData _, definitions => pure definitions
  | .tuple head tail, definitions =>
      tupleAddDefinitions (head.declaration :: RustType.declarations tail)
        (fun definitions => do
          let definitions ← head.addDefinitionsRecursively definitions
          RustType.addDefinitionsInTurn tail definitions)
        definitions

/-- `t₁::add_definitions_recursively`, ..., `tₙ::add_definitions_recursively` on one map, in
turn, as `impl_tuple!` runs its elements.
-/
def RustType.addDefinitionsInTurn :
    List RustType → DefinitionMap → Except String DefinitionMap
  | [], definitions => pure definitions
  | t :: ts, definitions => do
      let definitions ← t.addDefinitionsRecursively definitions
      RustType.addDefinitionsInTurn ts definitions
end

/-- `BorshSchema::schema_container`: the definitions collected from an empty map, and the
declaration.
-/
def RustType.schemaContainer (t : RustType) : Except String BorshSchemaContainer := do
  let definitions ← t.addDefinitionsRecursively ∅
  pure { declaration := t.declaration, definitions }

end Borsh.Schema
