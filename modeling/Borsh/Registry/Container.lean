import Borsh.Registry.Union

/-! The map of `schema_container`: every key is reachable from the root declaration, and every
reference is defined or primitive except the error payload of a `Result`, whose impl never
recurses into `E`.
-/

namespace Borsh.Schema

/-- The declarations that need no definition. -/
def primitiveNames : List Declaration := primitiveDeclarations.map Prod.fst

/-- The root declaration and every declaration a stored definition references is a key of the
map or a primitive name.
-/
def Closed (container : BorshSchemaContainer) : Prop :=
  (container.declaration ∈ container.definitions ∨ container.declaration ∈ primitiveNames)
  ∧ ∀ declaration definition, container.definitions.lookup declaration = some definition →
      ∀ reference ∈ definition.references,
        reference ∈ container.definitions ∨ reference ∈ primitiveNames

/-- `target` is reached from `declaration` through the references of stored definitions. -/
inductive Reaches (definitions : DefinitionMap) : Declaration → Declaration → Prop
  | refl (declaration : Declaration) : Reaches definitions declaration declaration
  | step {declaration reference target : Declaration} {definition : Definition}
      (stored : definitions.lookup declaration = some definition)
      (references : reference ∈ definition.references)
      (rest : Reaches definitions reference target) : Reaches definitions declaration target

/-- `schema_container` never panics on a library type: it holds the type's registrations. -/
theorem RustType.schemaContainer_eq (t : RustType)
    : t.schemaContainer = .ok ⟨t.declaration, entriesMap t.registrations⟩ := by
  simp only [RustType.schemaContainer, t.addDefinitionsRecursively_eq,
    addDefinitions_empty t.consistent_registrations, Except.ok_bind]
  rfl

example : (RustType.hashMap (.primitive .u64) (.primitive .string)).schemaContainer
    = .ok ⟨"HashMap<u64, string>",
        (Finmap.singleton "HashMap<u64, string>" (.sequence "Tuple<u64, string>")).insert
          "Tuple<u64, string>" (.tuple ["u64", "string"])⟩ := rfl

theorem RustType.exists_of_mem_declarations {ts : List RustType} {declaration : Declaration}
    (h : declaration ∈ RustType.declarations ts) : ∃ u ∈ ts, u.declaration = declaration := by
  induction ts with
  | nil => simp [RustType.declarations] at h
  | cons t ts ih =>
      rcases List.mem_cons.mp h with rfl | h
      · exact ⟨t, List.mem_cons_self _ _, rfl⟩
      · obtain ⟨u, hu, rfl⟩ := ih h
        exact ⟨u, List.mem_cons_of_mem _ hu, rfl⟩

theorem RustType.registrations_subset_all {ts : List RustType} {u : RustType} (h : u ∈ ts)
    : u.registrations ⊆ RustType.registrationsAll ts :=
  fun _ hp => mem_registrationsAll.mpr ⟨u, h, hp⟩

/-- An alias gives exactly the schema container of the type it stands for. -/
theorem RustType.schemaContainer_unalias (t : RustType)
    : t.unalias.schemaContainer = t.schemaContainer := by
  rw [RustType.schemaContainer_eq, RustType.schemaContainer_eq, t.declaration_unalias,
    t.registrations_unalias]

/-- A type's declaration is its own first entry, or a primitive name. -/
theorem RustType.declaration_registered_or_primitive : ∀ t : RustType,
    (∃ definition, (t.declaration, definition) ∈ t.registrations)
      ∨ t.declaration ∈ primitiveNames
  | .primitive p => .inr (by cases p <;> decide)
  | .unit => .inr (by decide)
  | .phantomData _ => .inr (show unitDeclaration ∈ primitiveNames by decide)
  | .box t => t.declaration_registered_or_primitive
  | .array .. | .option _ | .result .. | .vec _ | .slice _ | .hashMap .. | .hashSet _
  | .bTreeMap .. | .bTreeSet _ | .tuple .. => .inl ⟨_, List.mem_cons_self _ _⟩

-----------------------------------------------------------------------------------------
-- References are defined, except a `Result`'s error payload
-----------------------------------------------------------------------------------------

/-- `reference` has a definition among `entries`, or needs none. -/
def Defined (entries : List (Declaration × Definition)) (reference : Declaration) : Prop :=
  (∃ definition, (reference, definition) ∈ entries) ∨ reference ∈ primitiveNames

/-- Every reference of an entry of `l` is defined in `entries`, or is the error payload of a
`Result`'s definition.
-/
def DefinedExceptErr (entries l : List (Declaration × Definition)) : Prop :=
  ∀ p ∈ l, ∀ reference ∈ p.2.references,
    Defined entries reference ∨ ∃ ok, p.2 = .enum [("Ok", ok), ("Err", reference)]

theorem Defined.mono {l₁ l₂ : List (Declaration × Definition)} {reference : Declaration}
    (h : Defined l₁ reference) (hsub : l₁ ⊆ l₂) : Defined l₂ reference :=
  h.imp (fun ⟨definition, hd⟩ => ⟨definition, hsub hd⟩) id

theorem DefinedExceptErr.mono {entries₁ entries₂ l : List (Declaration × Definition)}
    (h : DefinedExceptErr entries₁ l) (hsub : entries₁ ⊆ entries₂)
    : DefinedExceptErr entries₂ l :=
  fun p hp reference hr => (h p hp reference hr).imp_left (·.mono hsub)

theorem DefinedExceptErr.cons {entries l : List (Declaration × Definition)}
    {own : Declaration × Definition}
    (hown : ∀ reference ∈ own.2.references, Defined entries reference
      ∨ ∃ ok, own.2 = .enum [("Ok", ok), ("Err", reference)])
    (hl : DefinedExceptErr entries l) : DefinedExceptErr entries (own :: l) :=
  List.forall_mem_cons.mpr ⟨hown, hl⟩

theorem DefinedExceptErr.append {entries l₁ l₂ : List (Declaration × Definition)}
    (h₁ : DefinedExceptErr entries l₁) (h₂ : DefinedExceptErr entries l₂)
    : DefinedExceptErr entries (l₁ ++ l₂) :=
  List.forall_mem_append.mpr ⟨h₁, h₂⟩

theorem RustType.defined_declaration (t : RustType) : Defined t.registrations t.declaration :=
  t.declaration_registered_or_primitive

mutual
/-- Within one type's registrations every reference is defined, except the error payload of a
`Result`; by structural recursion.
-/
theorem RustType.references_defined : ∀ t : RustType,
    DefinedExceptErr t.registrations t.registrations
  | .primitive _ | .unit | .phantomData _ => fun _ h => by simp [RustType.registrations] at h
  | .box t => t.references_defined
  | .array t _ | .vec t | .slice t | .hashSet t | .bTreeSet t =>
      .cons (fun _ hr => .inl (by
        rw [List.mem_singleton.mp hr]
        exact t.defined_declaration.mono (List.subset_cons_self _ _)))
        (t.references_defined.mono (List.subset_cons_self _ _))
  | .option t =>
      .cons (fun _ hr => .inl (by
        rcases List.mem_pair.mp hr with rfl | rfl
        · exact .inr (by decide)
        · exact t.defined_declaration.mono (List.subset_cons_self _ _)))
        (t.references_defined.mono (List.subset_cons_self _ _))
  | .result t e =>
      .cons (fun _ hr => by
        rcases List.mem_pair.mp hr with rfl | rfl
        · exact .inl (t.defined_declaration.mono (List.subset_cons_self _ _))
        · exact .inr ⟨_, rfl⟩)
        (t.references_defined.mono (List.subset_cons_self _ _))
  | .hashMap k v | .bTreeMap k v =>
      .cons (fun _ hr => .inl (.inl ⟨.tuple [k.declaration, v.declaration], by
          rw [List.mem_singleton.mp hr]
          exact List.mem_cons_of_mem _ (List.mem_cons_self _ _)⟩))
        (.cons (fun _ hr => .inl (by
            rcases List.mem_pair.mp hr with rfl | rfl
            · exact k.defined_declaration.mono fun _ hx => by simp [RustType.registrations, hx]
            · exact v.defined_declaration.mono fun _ hx => by simp [RustType.registrations, hx]))
          ((k.references_defined.mono fun _ hx => by simp [RustType.registrations, hx]).append
            (v.references_defined.mono fun _ hx => by simp [RustType.registrations, hx])))
  | .tuple head tail =>
      .cons (fun _ hr => .inl (by
          rcases List.mem_cons.mp hr with rfl | hr
          · exact head.defined_declaration.mono fun _ hx => by simp [RustType.registrations, hx]
          · obtain ⟨u, hu, rfl⟩ := RustType.exists_of_mem_declarations hr
            exact u.defined_declaration.mono fun _ hx => List.mem_cons_of_mem _
              (List.mem_append_right _ (RustType.registrations_subset_all hu hx))))
        ((head.references_defined.mono fun _ hx => by simp [RustType.registrations, hx]).append
          ((RustType.references_definedAll tail).mono fun _ hx => by
            simp [RustType.registrations, hx]))

theorem RustType.references_definedAll : ∀ ts : List RustType,
    DefinedExceptErr (RustType.registrationsAll ts) (RustType.registrationsAll ts)
  | [] => fun _ h => by simp [RustType.registrationsAll] at h
  | t :: ts =>
      (t.references_defined.mono (List.subset_append_left _ _)).append
        ((RustType.references_definedAll ts).mono (List.subset_append_right _ _))
end

-----------------------------------------------------------------------------------------
-- Every key is reachable from the root
-----------------------------------------------------------------------------------------

theorem RustType.mem_declarations {ts : List RustType} {u : RustType} (h : u ∈ ts)
    : u.declaration ∈ RustType.declarations ts := by
  induction ts with
  | nil => simp at h
  | cons t ts ih =>
      rcases List.mem_cons.mp h with rfl | h
      · exact List.mem_cons_self _ _
      · exact List.mem_cons_of_mem _ (ih h)

mutual
/-- In a consistent map that holds a type's registrations, each of them is reached from the
type's declaration; by structural recursion.
-/
theorem RustType.reaches_registered {entries : List (Declaration × Definition)}
    (hc : Consistent entries) : ∀ t : RustType, t.registrations ⊆ entries →
      ∀ p ∈ t.registrations, Reaches (entriesMap entries) t.declaration p.1
  | .primitive _, _, _, hp | .unit, _, _, hp | .phantomData _, _, _, hp => by
      simp [RustType.registrations] at hp
  | .box t, hsub, p, hp => RustType.reaches_registered hc t hsub p hp
  | .array t _, hsub, p, hp | .vec t, hsub, p, hp | .slice t, hsub, p, hp
  | .hashSet t, hsub, p, hp | .bTreeSet t, hsub, p, hp => by
      rcases List.mem_cons.mp hp with rfl | hp
      · exact .refl _
      · exact .step (lookup_entriesMap_of_mem hc (hsub (List.mem_cons_self _ _)))
          (List.mem_singleton_self _)
          (RustType.reaches_registered hc t (fun _ hx => hsub (List.mem_cons_of_mem _ hx)) p hp)
  | .option t, hsub, p, hp | .result t _, hsub, p, hp => by
      rcases List.mem_cons.mp hp with rfl | hp
      · exact .refl _
      · exact .step (lookup_entriesMap_of_mem hc (hsub (List.mem_cons_self _ _)))
          (by simp [Definition.references])
          (RustType.reaches_registered hc t (fun _ hx => hsub (List.mem_cons_of_mem _ hx)) p hp)
  | .hashMap k v, hsub, p, hp | .bTreeMap k v, hsub, p, hp => by
      have hpair := fun {target : Declaration} (h : Reaches (entriesMap entries)
          (tupleDeclaration [k.declaration, v.declaration]) target) =>
        Reaches.step (lookup_entriesMap_of_mem hc (hsub (List.mem_cons_self _ _)))
          (List.mem_singleton_self _) h
      have htuple := lookup_entriesMap_of_mem hc
        (hsub (List.mem_cons_of_mem _ (List.mem_cons_self _ _)))
      simp only [RustType.registrations, List.mem_cons, List.mem_append] at hp
      rcases hp with rfl | rfl | hp | hp
      · exact .refl _
      · exact hpair (.refl _)
      · exact hpair (.step htuple (List.mem_cons_self _ _) (RustType.reaches_registered hc k
          (fun _ hx => hsub (by simp [RustType.registrations, hx])) p hp))
      · exact hpair (.step htuple (List.mem_cons_of_mem _ (List.mem_singleton_self _))
          (RustType.reaches_registered hc v
            (fun _ hx => hsub (by simp [RustType.registrations, hx])) p hp))
  | .tuple head tail, hsub, p, hp => by
      have hown := lookup_entriesMap_of_mem hc (hsub (List.mem_cons_self _ _))
      rcases List.mem_cons.mp hp with rfl | hp
      · exact .refl _
      rcases List.mem_append.mp hp with hp | hp
      · exact .step hown (List.mem_cons_self _ _) (RustType.reaches_registered hc head
          (fun _ hx => hsub (by simp [RustType.registrations, hx])) p hp)
      · obtain ⟨u, hu, hr⟩ := RustType.reaches_registeredAll hc tail
          (fun _ hx => hsub (by simp [RustType.registrations, hx])) p hp
        exact .step hown (List.mem_cons_of_mem _ (RustType.mem_declarations hu)) hr

theorem RustType.reaches_registeredAll {entries : List (Declaration × Definition)}
    (hc : Consistent entries) : ∀ ts : List RustType, RustType.registrationsAll ts ⊆ entries →
      ∀ p ∈ RustType.registrationsAll ts,
        ∃ u ∈ ts, Reaches (entriesMap entries) u.declaration p.1
  | [], _, _, hp => by simp [RustType.registrationsAll] at hp
  | t :: ts, hsub, p, hp => by
      rcases List.mem_append.mp hp with hp | hp
      · exact ⟨t, List.mem_cons_self _ _, RustType.reaches_registered hc t
          (fun _ hx => hsub (List.mem_append_left _ hx)) p hp⟩
      · obtain ⟨u, hu, hr⟩ := RustType.reaches_registeredAll hc ts
          (fun _ hx => hsub (List.mem_append_right _ hx)) p hp
        exact ⟨u, List.mem_cons_of_mem _ hu, hr⟩
end

/-- Every key of a type's schema container is reached from its root declaration. -/
theorem schemaContainer_keys_reachable (t : RustType)
    : ∃ container, t.schemaContainer = .ok container
      ∧ ∀ declaration ∈ container.definitions,
          Reaches container.definitions container.declaration declaration := by
  refine ⟨_, t.schemaContainer_eq, fun declaration hd => ?_⟩
  obtain ⟨_, hl⟩ := Finmap.mem_iff.mp hd
  exact RustType.reaches_registered t.consistent_registrations t (fun _ h => h) _
    (mem_of_lookup_entriesMap hl)

/-- A name defined by a type's registrations is a key of its map or a primitive. -/
theorem RustType.mem_of_defined (t : RustType) {reference : Declaration}
    (h : Defined t.registrations reference)
    : reference ∈ entriesMap t.registrations ∨ reference ∈ primitiveNames :=
  h.imp_left fun ⟨_, hd⟩ =>
    Finmap.mem_of_lookup_eq_some (lookup_entriesMap_of_mem t.consistent_registrations hd)

/-- A type's schema container is closed but for the error payloads of `Result`s: the root and
every other reference is a key or a primitive name.
-/
theorem schemaContainer_closed_except_err (t : RustType)
    : ∃ container, t.schemaContainer = .ok container
      ∧ (container.declaration ∈ container.definitions
          ∨ container.declaration ∈ primitiveNames)
      ∧ ∀ declaration definition, container.definitions.lookup declaration = some definition →
          ∀ reference ∈ definition.references,
            reference ∈ container.definitions ∨ reference ∈ primitiveNames
              ∨ ∃ ok, definition = .enum [("Ok", ok), ("Err", reference)] := by
  refine ⟨_, t.schemaContainer_eq, t.mem_of_defined t.defined_declaration,
    fun _ _ hl reference hr => ?_⟩
  rcases t.references_defined _ (mem_of_lookup_entriesMap hl) reference hr with h | h
  · exact (t.mem_of_defined h).imp_right .inl
  · exact .inr (.inr h)

/-- `Result<u8, Vec<u8>>` references its error payload `Vec<u8>` and never defines it. -/
theorem result_schemaContainer_not_closed :
    (RustType.result (.primitive .u8) (.vec (.primitive .u8))).schemaContainer
        = .ok ⟨"Result<u8, Vec<u8>>",
            Finmap.singleton "Result<u8, Vec<u8>>" (.enum [("Ok", "u8"), ("Err", "Vec<u8>")])⟩
      ∧ ¬ Closed ⟨"Result<u8, Vec<u8>>",
            Finmap.singleton "Result<u8, Vec<u8>>" (.enum [("Ok", "u8"), ("Err", "Vec<u8>")])⟩ := by
  refine ⟨rfl, fun ⟨_, h⟩ => ?_⟩
  have := h _ _ Finmap.lookup_singleton_eq "Vec<u8>" (by decide)
  revert this
  decide

end Borsh.Schema
