import Borsh.Schema.Impls

/-! The aliases the impls introduce: `Box<U>` is `U`, `[T]` is `Vec<T>`, `str` is `String`,
`isize` is `i64`, `usize` is `u64` and `PhantomData<X>` is `()`. Rewriting them away keeps the
declaration.
-/

namespace Borsh.Schema

/-- The primitive a renamed primitive declares itself as. -/
def Primitive.unalias : Primitive → Primitive
  | .str => .string
  | .isize => .i64
  | .usize => .u64
  | p => p

@[simp] theorem Primitive.name_unalias (p : Primitive) : p.unalias.name = p.name := by
  cases p <;> rfl

mutual
/-- Rewrites every alias of a type expression to the type it stands for. -/
def RustType.unalias : RustType → RustType
  | .primitive p => .primitive p.unalias
  | .unit => .unit
  | .box t => t.unalias
  | .array t n => .array t.unalias n
  | .option t => .option t.unalias
  | .result t e => .result t.unalias e.unalias
  | .vec t => .vec t.unalias
  | .slice t => .vec t.unalias
  | .hashMap k v => .hashMap k.unalias v.unalias
  | .hashSet t => .hashSet t.unalias
  | .bTreeMap k v => .bTreeMap k.unalias v.unalias
  | .bTreeSet t => .bTreeSet t.unalias
  | .phantomData _ => .unit
  | .tuple head tail => .tuple head.unalias (RustType.unaliasAll tail)

/-- `RustType.unalias` on each tuple element. -/
def RustType.unaliasAll : List RustType → List RustType
  | [] => []
  | t :: ts => t.unalias :: RustType.unaliasAll ts
end

mutual
/-- Rewriting the aliases keeps the declaration, by structural recursion. -/
theorem RustType.declaration_unalias : ∀ t : RustType, t.unalias.declaration = t.declaration
  | .primitive p => Primitive.name_unalias p
  | .unit | .phantomData _ => rfl
  | .box t => t.declaration_unalias
  | .array t _ | .option t | .vec t | .slice t | .hashSet t | .bTreeSet t => by
      simp only [RustType.unalias, RustType.declaration, t.declaration_unalias]
  | .result k v | .hashMap k v | .bTreeMap k v => by
      simp only [RustType.unalias, RustType.declaration, k.declaration_unalias,
        v.declaration_unalias]
  | .tuple head tail => by
      simp only [RustType.unalias, RustType.declaration, head.declaration_unalias,
        RustType.declarations_unaliasAll tail]

theorem RustType.declarations_unaliasAll : ∀ ts : List RustType,
    RustType.declarations (RustType.unaliasAll ts) = RustType.declarations ts
  | [] => rfl
  | t :: ts => by
      simp only [RustType.unaliasAll, RustType.declarations, t.declaration_unalias,
        RustType.declarations_unaliasAll ts]
end

end Borsh.Schema
