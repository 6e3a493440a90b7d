import Borsh.Declaration.Reading
import Borsh.Registry.Run

/-! `add_definitions_recursively` adds, in DFS order, the entries of `RustType.registrations`.
Each entry is the first entry of some type's own list, keyed by that type's declaration; with
the declarations' unique readability, no two library types register different definitions
under one declaration, so the assertion of `add_definition` never fires on them.
-/

namespace Borsh.Schema

mutual
/-- The entries `add_definitions_recursively` adds, in the order it adds them. -/
def RustType.registrations : RustType → List (Declaration × Definition)
  | .primitive _ | .unit | .phantomData _ => []
  | .box t => t.registrations
  | .array t n =>
      ((RustType.array t n).declaration, .array (UInt32.ofNat n) t.declaration)
        :: t.registrations
  | .option t =>
      ((RustType.option t).declaration,
        .enum [("None", unitDeclaration), ("Some", t.declaration)]) :: t.registrations
  | .result t e =>
      ((RustType.result t e).declaration,
        .enum [("Ok", t.declaration), ("Err", e.declaration)]) :: t.registrations
  | .vec t => ((RustType.vec t).declaration, .sequence t.declaration) :: t.registrations
  | .slice t => ((RustType.slice t).declaration, .sequence t.declaration) :: t.registrations
  | .hashMap k v =>
      ((RustType.hashMap k v).declaration,
          .sequence (tupleDeclaration [k.declaration, v.declaration]))
        :: (tupleDeclaration [k.declaration, v.declaration], .tuple [k.declaration, v.declaration])
        :: (k.registrations ++ v.registrations)
  | .hashSet t => ((RustType.hashSet t).declaration, .sequence t.declaration) :: t.registrations
  | .bTreeMap k v =>
      ((RustType.bTreeMap k v).declaration,
          .sequence (tupleDeclaration [k.declaration, v.declaration]))
        :: (tupleDeclaration [k.declaration, v.declaration], .tuple [k.declaration, v.declaration])
        :: (k.registrations ++ v.registrations)
  | .bTreeSet t => ((RustType.bTreeSet t).declaration, .sequence t.declaration) :: t.registrations
  | .tuple head tail =>
      ((RustType.tuple head tail).declaration,
          .tuple (head.declaration :: RustType.declarations tail))
        :: (head.registrations ++ RustType.registrationsAll tail)

/-- The entries of several types, one after another. -/
def RustType.registrationsAll : List RustType → List (Declaration × Definition)
  | [] => []
  | t :: ts => t.registrations ++ RustType.registrationsAll ts
end

mutual
/-- The recursive impls add exactly their registrations, in order; by structural recursion. -/
theorem RustType.addDefinitionsRecursively_eq : ∀ (t : RustType) (definitions : DefinitionMap),
    t.addDefinitionsRecursively definitions = addDefinitions t.registrations definitions
  | .primitive _, _ | .unit, _ | .phantomData _, _ => rfl
  | .box t, definitions => t.addDefinitionsRecursively_eq definitions
  | .array t _, _ | .option t, _ | .result t _, _ | .vec t, _ | .slice t, _ | .hashSet t, _
  | .bTreeSet t, _ => by
      simp only [RustType.addDefinitionsRecursively, RustType.registrations, addDefinitions,
        t.addDefinitionsRecursively_eq]
  | .hashMap k v, _ | .bTreeMap k v, _ => by
      simp only [RustType.addDefinitionsRecursively, RustType.registrations, addDefinitions,
        tupleAddDefinitions, addDefinitions_append, k.addDefinitionsRecursively_eq,
        v.addDefinitionsRecursively_eq]
  | .tuple head tail, _ => by
      simp only [RustType.addDefinitionsRecursively, RustType.registrations, addDefinitions,
        tupleAddDefinitions, addDefinitions_append, head.addDefinitionsRecursively_eq,
        RustType.addDefinitionsInTurn_eq tail]
      rfl

theorem RustType.addDefinitionsInTurn_eq : ∀ (ts : List RustType) (definitions : DefinitionMap),
    RustType.addDefinitionsInTurn ts definitions
      = addDefinitions (RustType.registrationsAll ts) definitions
  | [], _ => rfl
  | t :: ts, _ => by
      simp only [RustType.addDefinitionsInTurn, RustType.registrationsAll, addDefinitions_append,
        t.addDefinitionsRecursively_eq, RustType.addDefinitionsInTurn_eq ts]
end

example : (RustType.tuple (.primitive .u64) [.tuple (.primitive .u8) [.primitive .bool],
      .primitive .string]).registrations
    = [("Tuple<u64, Tuple<u8, bool>, string>", .tuple ["u64", "Tuple<u8, bool>", "string"]),
        ("Tuple<u8, bool>", .tuple ["u8", "bool"])] := by decide

mutual
/-- Rewriting the aliases keeps the registrations, by structural recursion. -/
theorem RustType.registrations_unalias : ∀ t : RustType, t.unalias.registrations = t.registrations
  | .primitive _ | .unit | .phantomData _ => rfl
  | .box t => t.registrations_unalias
  | .array t _ | .option t | .vec t | .slice t | .hashSet t | .bTreeSet t => by
      simp only [RustType.unalias, RustType.registrations, RustType.declaration,
        t.declaration_unalias, t.registrations_unalias]
  | .result k v | .hashMap k v | .bTreeMap k v => by
      simp only [RustType.unalias, RustType.registrations, RustType.declaration,
        k.declaration_unalias, v.declaration_unalias, k.registrations_unalias,
        v.registrations_unalias]
  | .tuple head tail => by
      simp only [RustType.unalias, RustType.registrations, RustType.declaration,
        head.declaration_unalias, RustType.declarations_unaliasAll, head.registrations_unalias,
        RustType.registrationsAll_unaliasAll tail]

theorem RustType.registrationsAll_unaliasAll : ∀ ts : List RustType,
    RustType.registrationsAll (RustType.unaliasAll ts) = RustType.registrationsAll ts
  | [] => rfl
  | t :: ts => by
      simp only [RustType.unaliasAll, RustType.registrationsAll, t.registrations_unalias,
        RustType.registrationsAll_unaliasAll ts]
end

/-- A type's own entry, the first of its registrations, is keyed by its declaration. -/
theorem RustType.fst_of_head_registrations : ∀ {t : RustType} {entry : Declaration × Definition},
    t.registrations.head? = some entry → entry.1 = t.declaration
  | .box t, _, h => RustType.fst_of_head_registrations (t := t) h
  | .primitive _, _, h | .unit, _, h | .phantomData _, _, h => by
      simp [RustType.registrations] at h
  | .array .., _, h | .option _, _, h | .result .., _, h | .vec _, _, h | .slice _, _, h
  | .hashMap .., _, h | .hashSet _, _, h | .bTreeMap .., _, h | .bTreeSet _, _, h
  | .tuple .., _, h => by
      simp only [RustType.registrations, List.head?_cons, Option.some.injEq] at h
      rw [← h]

/-- The maps' second entry is the own entry of the pair `(K, V)`. -/
theorem tuple_pair_registrations (k v : RustType)
    : (RustType.tuple k [v]).registrations
      = (tupleDeclaration [k.declaration, v.declaration], .tuple [k.declaration, v.declaration])
        :: (k.registrations ++ v.registrations) := by
  simp [RustType.registrations, RustType.registrationsAll, RustType.declaration,
    RustType.declarations]

theorem exists_head_of_mem_own {s : RustType} {own : Declaration × Definition}
    {rest : List (Declaration × Definition)} (hs : s.registrations = own :: rest)
    {entry : Declaration × Definition} (h : entry ∈ own :: rest)
    (ih : entry ∈ rest → ∃ s' : RustType, s'.registrations.head? = some entry)
    : ∃ s' : RustType, s'.registrations.head? = some entry := by
  rcases List.mem_cons.mp h with rfl | h
  · exact ⟨s, by rw [hs]; rfl⟩
  · exact ih h

mutual
/-- Every registered entry is the own entry of some type, by structural recursion. -/
theorem RustType.exists_head_of_mem_registrations :
    ∀ {t : RustType} {entry : Declaration × Definition},
      entry ∈ t.registrations → ∃ s : RustType, s.registrations.head? = some entry
  | .primitive _, _, h | .unit, _, h | .phantomData _, _, h => by
      simp [RustType.registrations] at h
  | .box t, _, h => RustType.exists_head_of_mem_registrations (t := t) h
  | .array t n, _, h => exists_head_of_mem_own (s := .array t n) rfl h
      (RustType.exists_head_of_mem_registrations (t := t))
  | .option t, _, h => exists_head_of_mem_own (s := .option t) rfl h
      (RustType.exists_head_of_mem_registrations (t := t))
  | .result t e, _, h => exists_head_of_mem_own (s := .result t e) rfl h
      (RustType.exists_head_of_mem_registrations (t := t))
  | .vec t, _, h => exists_head_of_mem_own (s := .vec t) rfl h
      (RustType.exists_head_of_mem_registrations (t := t))
  | .slice t, _, h => exists_head_of_mem_own (s := .slice t) rfl h
      (RustType.exists_head_of_mem_registrations (t := t))
  | .hashSet t, _, h => exists_head_of_mem_own (s := .hashSet t) rfl h
      (RustType.exists_head_of_mem_registrations (t := t))
  | .bTreeSet t, _, h => exists_head_of_mem_own (s := .bTreeSet t) rfl h
      (RustType.exists_head_of_mem_registrations (t := t))
  | .hashMap k v, _, h => exists_head_of_mem_own (s := .hashMap k v) rfl h fun h =>
      exists_head_of_mem_own (s := .tuple k [v]) (tuple_pair_registrations k v) h fun h =>
        (List.mem_append.mp h).elim (RustType.exists_head_of_mem_registrations (t := k))
          (RustType.exists_head_of_mem_registrations (t := v))
  | .bTreeMap k v, _, h => exists_head_of_mem_own (s := .bTreeMap k v) rfl h fun h =>
      exists_head_of_mem_own (s := .tuple k [v]) (tuple_pair_registrations k v) h fun h =>
        (List.mem_append.mp h).elim (RustType.exists_head_of_mem_registrations (t := k))
          (RustType.exists_head_of_mem_registrations (t := v))
  | .tuple head tail, _, h => exists_head_of_mem_own (s := .tuple head tail) rfl h fun h =>
      (List.mem_append.mp h).elim (RustType.exists_head_of_mem_registrations (t := head))
        (RustType.exists_head_of_mem_registrationsAll (l := tail))

theorem RustType.exists_head_of_mem_registrationsAll :
    ∀ {l : List RustType} {entry : Declaration × Definition},
      entry ∈ RustType.registrationsAll l → ∃ s : RustType, s.registrations.head? = some entry
  | [], _, h => by simp [RustType.registrationsAll] at h
  | t :: ts, _, h => (List.mem_append.mp h).elim
      (RustType.exists_head_of_mem_registrations (t := t))
      (RustType.exists_head_of_mem_registrationsAll (l := ts))
end

/-- Two library types never register different definitions under one declaration: both are
own entries of types with that declaration, which agree up to the aliases.
-/
theorem registrations_agree {t₁ t₂ : RustType} {declaration : Declaration}
    {d₁ d₂ : Definition} (h₁ : (declaration, d₁) ∈ t₁.registrations)
    (h₂ : (declaration, d₂) ∈ t₂.registrations) : d₁ = d₂ := by
  obtain ⟨s₁, hs₁⟩ := RustType.exists_head_of_mem_registrations h₁
  obtain ⟨s₂, hs₂⟩ := RustType.exists_head_of_mem_registrations h₂
  have hu : s₁.unalias = s₂.unalias := unalias_eq_of_declaration_eq (by
    rw [← RustType.fst_of_head_registrations hs₁, ← RustType.fst_of_head_registrations hs₂])
  have hr : s₁.registrations = s₂.registrations := by
    rw [← s₁.registrations_unalias, hu, s₂.registrations_unalias]
  rw [hr, hs₂, Option.some.injEq, Prod.mk.injEq] at hs₁
  exact hs₁.2.symm

theorem mem_registrationsAll {ts : List RustType} {entry : Declaration × Definition}
    : entry ∈ RustType.registrationsAll ts ↔ ∃ t ∈ ts, entry ∈ t.registrations := by
  induction ts with
  | nil => simp [RustType.registrationsAll]
  | cons t ts ih => simp [RustType.registrationsAll, ih]

/-- Any list of registered entries is consistent. -/
theorem consistent_of_registered {l : List (Declaration × Definition)}
    (h : ∀ entry ∈ l, ∃ t : RustType, entry ∈ t.registrations) : Consistent l := by
  intro p hp q hq hk
  obtain ⟨t₁, h₁⟩ := h p hp
  obtain ⟨t₂, h₂⟩ := h q hq
  obtain ⟨declaration, d₁⟩ := p
  obtain ⟨_, d₂⟩ := q
  subst hk
  exact registrations_agree h₁ h₂

theorem RustType.consistent_registrations (t : RustType) : Consistent t.registrations :=
  consistent_of_registered fun _ h => ⟨t, h⟩

theorem RustType.consistent_registrationsAll (ts : List RustType)
    : Consistent (RustType.registrationsAll ts) :=
  consistent_of_registered fun _ he => (mem_registrationsAll.mp he).imp fun _ h => h.2

theorem addDefinitions_empty {l : List (Declaration × Definition)} (hl : Consistent l)
    : addDefinitions l ∅ = .ok (entriesMap l) := by
  have hadmits : ∀ p ∈ l, Admits ∅ p.1 p.2 := fun _ _ _ he => by simp at he
  rw [addDefinitions_eq hl, if_pos hadmits, Finmap.empty_union]

/-- The assertion of `add_definition` never fires on library types: any sequence of them run
in turn on one map from empty succeeds, since no two register different definitions under one
declaration.
-/
theorem addDefinitionsInTurn_never_conflicts
    : (∀ ts : List RustType, ∃ definitions, RustType.addDefinitionsInTurn ts ∅ = .ok definitions)
      ∧ ∀ (t₁ t₂ : RustType) (declaration : Declaration) (d₁ d₂ : Definition),
          (declaration, d₁) ∈ t₁.registrations → (declaration, d₂) ∈ t₂.registrations →
            d₁ = d₂ :=
  ⟨fun ts => ⟨_, (RustType.addDefinitionsInTurn_eq ts ∅).trans
      (addDefinitions_empty (RustType.consistent_registrationsAll ts))⟩,
    fun _ _ _ _ _ => registrations_agree⟩

end Borsh.Schema
