import Borsh.Registry.Invariant

/-! What a schema is for: a consumer that holds only a container expands a declaration, through
the stored definitions, into the layout the declaration stands for. On a closed container the
expansion of the root is the type's layout, within as many steps as the root declaration has
characters; and the expansion succeeds only on closed containers.
-/

namespace Borsh.Schema

/-- The shape a schema describes, with every declaration expanded: what reading Borsh bytes
needs when the Rust type is not at hand.
-/
inductive Layout where
  | primitive (name : Declaration)
  | array (length : Nat) (elements : Layout)
  | sequence (elements : Layout)
  | tuple (elements : List Layout)
  | enum (variants : List (String × Layout))
  | namedStruct (fields : List (String × Layout))
  | unnamedStruct (fields : List Layout)

mutual
/-- The layout of a library type: `Option` and `Result` are two-variant enums, the collections
sequences, the maps sequences of key-value pairs, `[T; N]` exactly `N` elements.
-/
def RustType.layout : RustType → Layout
  | .primitive p => .primitive p.name
  | .unit => .primitive unitDeclaration
  | .box t => t.layout
  | .array t n => .array n t.layout
  | .option t => .enum [("None", .primitive unitDeclaration), ("Some", t.layout)]
  | .result t e => .enum [("Ok", t.layout), ("Err", e.layout)]
  | .vec t => .sequence t.layout
  | .slice t => .sequence t.layout
  | .hashMap k v => .sequence (.tuple [k.layout, v.layout])
  | .hashSet t => .sequence t.layout
  | .bTreeMap k v => .sequence (.tuple [k.layout, v.layout])
  | .bTreeSet t => .sequence t.layout
  | .phantomData _ => .primitive unitDeclaration
  | .tuple head tail => .tuple (head.layout :: RustType.layouts tail)

/-- The layouts of a tuple's elements. -/
def RustType.layouts : List RustType → List Layout
  | [] => []
  | t :: ts => t.layout :: RustType.layouts ts
end

mutual
/-- Every array length in the type fits the `u32` field of `Definition::Array`. -/
def RustType.lengthsFit : RustType → Bool
  | .primitive _ | .unit | .phantomData _ => true
  | .box t | .option t | .vec t | .slice t | .hashSet t | .bTreeSet t => t.lengthsFit
  | .array t n => decide (n < 2 ^ 32) && t.lengthsFit
  | .result t e | .hashMap t e | .bTreeMap t e => t.lengthsFit && e.lengthsFit
  | .tuple head tail => head.lengthsFit && RustType.lengthsFitAll tail

/-- Every array length in the types fits `u32`. -/
def RustType.lengthsFitAll : List RustType → Bool
  | [] => true
  | t :: ts => t.lengthsFit && RustType.lengthsFitAll ts
end

/-- The layout one definition describes, given the layouts of the declarations it refers to. -/
def Definition.expandWith (expandReference : Declaration → Option Layout) :
    Definition → Option Layout
  | .array length elements => (expandReference elements).map (.array length.toNat)
  | .sequence elements => (expandReference elements).map .sequence
  | .tuple elements => (elements.mapM expandReference).map .tuple
  | .enum variants =>
      (variants.mapM fun variant => (expandReference variant.2).map (variant.1, ·)).map .enum
  | .struct (.namedFields fields) =>
      (fields.mapM fun field => (expandReference field.2).map (field.1, ·)).map .namedStruct
  | .struct (.unnamedFields fields) => (fields.mapM expandReference).map .unnamedStruct
  | .struct .empty => some (.unnamedStruct [])

/-- A consumer's reading of a declaration: its stored definition expanded, or a primitive name,
at most `fuel` definitions deep.
-/
def expand : Nat → DefinitionMap → Declaration → Option Layout
  | 0, _, _ => none
  | fuel + 1, definitions, declaration =>
      match definitions.lookup declaration with
      | some definition => definition.expandWith (expand fuel definitions)
      | none => if declaration ∈ primitiveNames then some (.primitive declaration) else none

instance (container : BorshSchemaContainer) : Decidable (Closed container) :=
  decidable_of_iff
    ((container.declaration ∈ container.definitions
        ∨ container.declaration ∈ primitiveNames)
      ∧ ∀ entry ∈ container.definitions.entries, ∀ reference ∈ entry.2.references,
          reference ∈ container.definitions ∨ reference ∈ primitiveNames)
    (and_congr_right fun _ =>
      ⟨fun h _ _ hl => h _ (Finmap.lookup_eq_some_iff.mp hl),
        fun h entry he => h entry.1 entry.2 (Finmap.lookup_eq_some_iff.mpr he)⟩)

theorem expand_succ_of_lookup {definitions : DefinitionMap} {declaration : Declaration}
    {definition : Definition} (fuel : Nat) (h : definitions.lookup declaration = some definition)
    : expand (fuel + 1) definitions declaration
      = definition.expandWith (expand fuel definitions) := by
  simp only [expand, h]

theorem mapM_eq_some_forall {α β : Type} {f : α → Option β}
    : ∀ {l : List α} {ys : List β}, l.mapM f = some ys → ∀ x ∈ l, ∃ y, f x = some y
  | [], _, _, _, hx => nomatch hx
  | a :: l, _, h, x, hx => by
      simp only [List.mapM_cons, Option.bind_eq_bind, Option.bind_eq_some, Option.pure_def,
        Option.some.injEq] at h
      obtain ⟨b, ha, bs, hl, -⟩ := h
      rcases List.mem_cons.mp hx with rfl | hx
      · exact ⟨b, ha⟩
      · exact mapM_eq_some_forall hl x hx

theorem mapM_pairs_forall {g : Declaration → Option Layout} {pairs : List (String × Declaration)}
    {ys : List (String × Layout)} (h : (pairs.mapM fun p => (g p.2).map (p.1, ·)) = some ys)
    : ∀ reference ∈ pairs.map Prod.snd, ∃ l, g reference = some l := by
  intro reference hr
  obtain ⟨_, hp, rfl⟩ := List.mem_map.mp hr
  obtain ⟨_, hv⟩ := mapM_eq_some_forall h _ hp
  exact (Option.map_eq_some'.mp hv).imp fun _ h => h.1

/-- A definition expands only when every declaration it refers to does. -/
theorem Definition.expandWith_references {g : Declaration → Option Layout}
    : ∀ {d : Definition} {layout : Layout}, d.expandWith g = some layout →
      ∀ reference ∈ d.references, ∃ l, g reference = some l
  | .array _ _, _, h, _, hr | .sequence _, _, h, _, hr => by
      rw [List.mem_singleton.mp hr]
      exact (Option.map_eq_some'.mp h).imp fun _ h => h.1
  | .tuple _, _, h, reference, hr | .struct (.unnamedFields _), _, h, reference, hr =>
      have ⟨_, hls, _⟩ := Option.map_eq_some'.mp h
      mapM_eq_some_forall hls reference hr
  | .enum _, _, h, reference, hr | .struct (.namedFields _), _, h, reference, hr =>
      have ⟨_, hls, _⟩ := Option.map_eq_some'.mp h
      mapM_pairs_forall hls reference hr
  | .struct .empty, _, _, _, hr => nomatch hr

-----------------------------------------------------------------------------------------
-- Expanding a closed map of registrations gives the types' layouts
-----------------------------------------------------------------------------------------

/-- A map the expansion can rely on: every entry is a library registration, and every
reference is a key or a primitive name.
-/
structure Expandable (definitions : DefinitionMap) : Prop where
  registered : Registered definitions
  closed : ∀ declaration definition, definitions.lookup declaration = some definition →
    ∀ reference ∈ definition.references,
      reference ∈ definitions ∨ reference ∈ primitiveNames

theorem Registered.expand_primitive {definitions : DefinitionMap} (h : Registered definitions)
    {name : Declaration} (hp : name ∈ primitiveNames) {fuel : Nat} (hfuel : 0 < fuel)
    : expand fuel definitions name = some (.primitive name) := by
  obtain ⟨fuel, rfl⟩ : ∃ f, fuel = f + 1 := ⟨fuel - 1, by omega⟩
  have hl : definitions.lookup name = none :=
    Finmap.lookup_eq_none.mpr fun hk => h.not_primitive hk hp
  simp only [expand, hl, if_pos hp]

/-- A type's declaration, held by the map or primitive, is stored with the type's own
definition: the expansion steps into it, and its references are keys or primitive names, each
shorter than the declaration.
-/
theorem Expandable.expand_own {definitions : DefinitionMap} (h : Expandable definitions)
    {t : RustType} (hin : t.declaration ∈ definitions ∨ t.declaration ∈ primitiveNames)
    {definition : Definition} {rest : List (Declaration × Definition)}
    (hown : t.registrations = (t.declaration, definition) :: rest) (fuel : Nat)
    : expand (fuel + 1) definitions t.declaration = definition.expandWith (expand fuel definitions)
      ∧ ∀ reference ∈ definition.references,
          (reference ∈ definitions ∨ reference ∈ primitiveNames)
            ∧ reference.length < t.declaration.length := by
  have hmem : (t.declaration, definition) ∈ t.registrations := hown ▸ List.mem_cons_self _ _
  obtain ⟨stored, hl⟩ := Finmap.mem_iff.mp (hin.resolve_right (key_not_primitive hmem))
  obtain ⟨_, hs⟩ := h.registered _ _ hl
  rw [← registrations_agree hmem hs] at hl
  exact ⟨expand_succ_of_lookup fuel hl,
    fun reference hr => ⟨h.closed _ _ hl reference hr, reference_shorter hmem reference hr⟩⟩

mutual
/-- The expansion of a type's declaration in a closed map of registrations is the type's
layout, given more fuel than the declaration has characters; by structural recursion.
-/
theorem RustType.expand_declaration {definitions : DefinitionMap} (h : Expandable definitions)
    : ∀ (t : RustType) (fuel : Nat), t.declaration.length < fuel → t.lengthsFit →
      (t.declaration ∈ definitions ∨ t.declaration ∈ primitiveNames) →
        expand fuel definitions t.declaration = some t.layout
  | .primitive p, _, hlen, _, _ =>
      h.registered.expand_primitive (by cases p <;> decide) (by omega)
  | .unit, _, hlen, _, _ | .phantomData _, _, hlen, _, _ =>
      h.registered.expand_primitive (show unitDeclaration ∈ primitiveNames by decide) (by omega)
  | .box t, fuel, hlen, hfit, hin => t.expand_declaration h fuel hlen hfit hin
  | .array t n, fuel + 1, hlen, hfit, hin => by
      simp only [RustType.lengthsFit, Bool.and_eq_true, decide_eq_true_eq] at hfit
      obtain ⟨hexp, href⟩ := h.expand_own hin rfl fuel
      obtain ⟨hin', hlt⟩ := href t.declaration (List.mem_singleton_self _)
      have hn : (UInt32.ofNat n).toNat = n := Nat.mod_eq_of_lt hfit.1
      rw [hexp, Definition.expandWith, t.expand_declaration h fuel (by omega) hfit.2 hin', hn]
      rfl
  | .option t, fuel + 1, hlen, hfit, hin => by
      obtain ⟨hexp, href⟩ := h.expand_own hin rfl fuel
      obtain ⟨hin', hlt⟩ := href t.declaration (by simp [Definition.references])
      simp only [hexp, Definition.expandWith, List.mapM_cons, List.mapM_nil,
        t.expand_declaration h fuel (by omega) hfit hin',
        h.registered.expand_primitive (show unitDeclaration ∈ primitiveNames by decide)
          (show 0 < fuel by omega)]
      rfl
  | .result t e, fuel + 1, hlen, hfit, hin => by
      simp only [RustType.lengthsFit, Bool.and_eq_true] at hfit
      obtain ⟨hexp, href⟩ := h.expand_own hin rfl fuel
      obtain ⟨hint, hltt⟩ := href t.declaration (by simp [Definition.references])
      obtain ⟨hine, hlte⟩ := href e.declaration (by simp [Definition.references])
      simp only [hexp, Definition.expandWith, List.mapM_cons, List.mapM_nil,
        t.expand_declaration h fuel (by omega) hfit.1 hint,
        e.expand_declaration h fuel (by omega) hfit.2 hine]
      rfl
  | .vec t, fuel + 1, hlen, hfit, hin | .slice t, fuel + 1, hlen, hfit, hin
  | .hashSet t, fuel + 1, hlen, hfit, hin | .bTreeSet t, fuel + 1, hlen, hfit, hin => by
      obtain ⟨hexp, href⟩ := h.expand_own hin rfl fuel
      obtain ⟨hin', hlt⟩ := href t.declaration (List.mem_singleton_self _)
      rw [hexp, Definition.expandWith, t.expand_declaration h fuel (by omega) hfit hin']
      rfl
  | .hashMap k v, fuel + 1, hlen, hfit, hin | .bTreeMap k v, fuel + 1, hlen, hfit, hin => by
      simp only [RustType.lengthsFit, Bool.and_eq_true] at hfit
      obtain ⟨hexp, href⟩ := h.expand_own hin rfl fuel
      have hpair : tupleDeclaration [k.declaration, v.declaration]
          = (RustType.tuple k [v]).declaration := rfl
      obtain ⟨hinp, hltp⟩ := href _ (List.mem_singleton_self _)
      rw [hpair] at hinp hltp
      obtain ⟨fuel, rfl⟩ : ∃ f, fuel = f + 1 := ⟨fuel - 1, by omega⟩
      obtain ⟨hexpp, hrefp⟩ := h.expand_own hinp rfl fuel
      obtain ⟨hink, hltk⟩ := hrefp k.declaration (List.mem_cons_self _ _)
      obtain ⟨hinv, hltv⟩ := hrefp v.declaration (by simp [Definition.references,
        RustType.declarations])
      simp only [hexp, Definition.expandWith, hpair, hexpp, RustType.declarations,
        List.mapM_cons, List.mapM_nil, k.expand_declaration h fuel (by omega) hfit.1 hink,
        v.expand_declaration h fuel (by omega) hfit.2 hinv]
      rfl
  | .tuple head tail, fuel + 1, hlen, hfit, hin => by
      simp only [RustType.lengthsFit, Bool.and_eq_true] at hfit
      obtain ⟨hexp, href⟩ := h.expand_own hin rfl fuel
      obtain ⟨hinh, hlth⟩ := href head.declaration (List.mem_cons_self _ _)
      have htail := RustType.expand_declarations h tail fuel (fun u hu =>
        have ⟨hinu, hltu⟩ := href _ (List.mem_cons_of_mem _ (RustType.mem_declarations hu))
        ⟨by omega, hinu⟩) hfit.2
      simp only [hexp, Definition.expandWith, List.mapM_cons,
        head.expand_declaration h fuel (by omega) hfit.1 hinh, htail]
      rfl
  | _, 0, hlen, _, _ => absurd hlen (Nat.not_lt_zero _)

/-- The tail of a tuple expands element by element, by structural recursion on it. -/
theorem RustType.expand_declarations {definitions : DefinitionMap} (h : Expandable definitions)
    : ∀ (ts : List RustType) (fuel : Nat),
      (∀ u ∈ ts, u.declaration.length < fuel
        ∧ (u.declaration ∈ definitions ∨ u.declaration ∈ primitiveNames)) →
      RustType.lengthsFitAll ts →
        (RustType.declarations ts).mapM (expand fuel definitions) = some (RustType.layouts ts)
  | [], _, _, _ => rfl
  | t :: ts, fuel, hts, hfit => by
      simp only [RustType.lengthsFitAll, Bool.and_eq_true] at hfit
      obtain ⟨hlen, hin⟩ := hts t (List.mem_cons_self _ _)
      simp only [RustType.declarations, List.mapM_cons, t.expand_declaration h fuel hlen hfit.1 hin,
        RustType.expand_declarations h ts fuel (fun u hu => hts u (List.mem_cons_of_mem _ hu))
          hfit.2]
      rfl
end

-----------------------------------------------------------------------------------------
-- A consumer of a schema container
-----------------------------------------------------------------------------------------

theorem mem_or_primitive_of_expand {definitions : DefinitionMap} {declaration : Declaration}
    {fuel : Nat} {layout : Layout} (h : expand fuel definitions declaration = some layout)
    : declaration ∈ definitions ∨ declaration ∈ primitiveNames := by
  cases fuel with
  | zero => cases h
  | succ fuel =>
      simp only [expand] at h
      split at h
      next hl => exact .inl (Finmap.mem_of_lookup_eq_some hl)
      next => exact .inr (of_not_not fun hp => by simp [hp] at h)

/-- An expansion through a stored definition expands every declaration the definition refers
to.
-/
theorem expand_reference {definitions : DefinitionMap} {declaration reference : Declaration}
    {definition : Definition} (hl : definitions.lookup declaration = some definition)
    (hr : reference ∈ definition.references) {fuel : Nat} {layout : Layout}
    (h : expand fuel definitions declaration = some layout)
    : ∃ fuel' layout', expand fuel' definitions reference = some layout' := by
  cases fuel with
  | zero => cases h
  | succ fuel =>
      rw [expand_succ_of_lookup fuel hl] at h
      obtain ⟨l, hl'⟩ := Definition.expandWith_references h reference hr
      exact ⟨fuel, l, hl'⟩

/-- Whatever is reached from a declaration that expands also expands, by induction on the
path.
-/
theorem expand_of_reaches {definitions : DefinitionMap} {source target : Declaration}
    (hr : Reaches definitions source target) {fuel : Nat} {layout : Layout}
    (h : expand fuel definitions source = some layout)
    : ∃ fuel' layout', expand fuel' definitions target = some layout' := by
  induction hr generalizing fuel layout with
  | refl => exact ⟨fuel, layout, h⟩
  | step stored references _ ih =>
      obtain ⟨_, _, h'⟩ := expand_reference stored references h
      exact ih h'

/-- A consumer reading a closed schema container gets the type's layout, with any fuel above
the length of the root declaration, whenever the type's array lengths fit `u32`.
-/
theorem expand_schemaContainer (t : RustType) (container : BorshSchemaContainer)
    (h : t.schemaContainer = .ok container) (hclosed : Closed container) (hfit : t.lengthsFit)
    (fuel : Nat) (hfuel : container.declaration.length < fuel)
    : expand fuel container.definitions container.declaration = some t.layout := by
  rw [t.schemaContainer_eq] at h
  cases h
  exact t.expand_declaration ⟨t.registered_entriesMap, hclosed.2⟩ fuel hfuel hfit hclosed.1

theorem expand_schemaContainer_result_vec :
    (RustType.result (.vec (.primitive .u8)) (.vec (.primitive .u8))).schemaContainer
        = .ok ⟨"Result<Vec<u8>, Vec<u8>>",
            (Finmap.singleton "Result<Vec<u8>, Vec<u8>>"
              (.enum [("Ok", "Vec<u8>"), ("Err", "Vec<u8>")])).insert "Vec<u8>" (.sequence "u8")⟩
      ∧ Closed ⟨"Result<Vec<u8>, Vec<u8>>",
          (Finmap.singleton "Result<Vec<u8>, Vec<u8>>"
            (.enum [("Ok", "Vec<u8>"), ("Err", "Vec<u8>")])).insert "Vec<u8>" (.sequence "u8")⟩
      ∧ (RustType.result (.vec (.primitive .u8)) (.vec (.primitive .u8))).lengthsFit
      ∧ expand 25
          ((Finmap.singleton "Result<Vec<u8>, Vec<u8>>"
            (.enum [("Ok", "Vec<u8>"), ("Err", "Vec<u8>")])).insert "Vec<u8>" (.sequence "u8"))
          "Result<Vec<u8>, Vec<u8>>"
        = some (.enum [("Ok", .sequence (.primitive "u8")),
            ("Err", .sequence (.primitive "u8"))]) :=
  ⟨rfl, by decide, rfl,
    expand_schemaContainer (.result (.vec (.primitive .u8)) (.vec (.primitive .u8))) _ rfl
      (by decide) rfl 25 (by decide)⟩

/-- `[u8; 4294967296]` declares `Array<u8, 4294967296>` but stores the length `N as u32`, which
is `0`: the container is closed, and a consumer expands it to an array of no elements.
-/
theorem array_schemaContainer_truncates_length :
    (RustType.array (.primitive .u8) 4294967296).schemaContainer
        = .ok ⟨"Array<u8, 4294967296>",
            Finmap.singleton "Array<u8, 4294967296>" (.array 0 "u8")⟩
      ∧ Closed ⟨"Array<u8, 4294967296>",
          Finmap.singleton "Array<u8, 4294967296>" (.array 0 "u8")⟩
      ∧ expand 30 (Finmap.singleton "Array<u8, 4294967296>" (.array 0 "u8"))
          "Array<u8, 4294967296>" = some (.array 0 (.primitive "u8"))
      ∧ (RustType.array (.primitive .u8) 4294967296).layout
        = .array 4294967296 (.primitive "u8")
      ∧ (RustType.array (.primitive .u8) 4294967296).lengthsFit = false :=
  ⟨rfl, by decide, rfl, rfl, rfl⟩

/-- A consumer succeeds on a type's schema container only if the container is closed: a
reference that is neither a key nor a primitive name is reachable from the root, and stops the
expansion at any fuel.
-/
theorem closed_of_expand_schemaContainer (t : RustType)
    : ∃ container, t.schemaContainer = .ok container
      ∧ ∀ fuel layout, expand fuel container.definitions container.declaration = some layout →
          Closed container := by
  refine ⟨_, t.schemaContainer_eq, fun fuel layout he =>
    ⟨mem_or_primitive_of_expand he, fun declaration definition hl reference hr => ?_⟩⟩
  have hreach := RustType.reaches_registered t.consistent_registrations t (fun _ h => h) _
    (mem_of_lookup_entriesMap hl)
  obtain ⟨_, _, hk⟩ := expand_of_reaches hreach he
  obtain ⟨_, _, hr'⟩ := expand_reference hl hr hk
  exact mem_or_primitive_of_expand hr'

-----------------------------------------------------------------------------------------
-- Primitive error types keep a container closed
-----------------------------------------------------------------------------------------

mutual
/-- Every `Result` whose definition the type registers has an error type named by a primitive,
as in `Result<T, String>`.
-/
def RustType.errorTypesPrimitive : RustType → Bool
  | .primitive _ | .unit | .phantomData _ => true
  | .box t | .array t _ | .option t | .vec t | .slice t | .hashSet t | .bTreeSet t =>
      t.errorTypesPrimitive
  | .result t e => decide (e.declaration ∈ primitiveNames) && t.errorTypesPrimitive
  | .hashMap k v | .bTreeMap k v => k.errorTypesPrimitive && v.errorTypesPrimitive
  | .tuple head tail => head.errorTypesPrimitive && RustType.errorTypesPrimitiveAll tail

/-- Every `Result` the types register has a primitive error type. -/
def RustType.errorTypesPrimitiveAll : List RustType → Bool
  | [] => true
  | t :: ts => t.errorTypesPrimitive && RustType.errorTypesPrimitiveAll ts
end

mutual
/-- In such a type the error payload of every registered `Result` definition is a primitive
name; by structural recursion.
-/
theorem RustType.err_primitive : ∀ t : RustType, t.errorTypesPrimitive →
    ∀ p ∈ t.registrations, ∀ ok reference, p.2 = .enum [("Ok", ok), ("Err", reference)] →
      reference ∈ primitiveNames
  | .primitive _, _, _, hp, _, _, _ | .unit, _, _, hp, _, _, _
  | .phantomData _, _, _, hp, _, _, _ => by simp [RustType.registrations] at hp
  | .box t, h, p, hp, ok, r, he => t.err_primitive h p hp ok r he
  | .array t _, h, p, hp, ok, r, he | .vec t, h, p, hp, ok, r, he
  | .slice t, h, p, hp, ok, r, he | .hashSet t, h, p, hp, ok, r, he
  | .bTreeSet t, h, p, hp, ok, r, he | .option t, h, p, hp, ok, r, he => by
      rcases List.mem_cons.mp hp with rfl | hp
      · simp at he
      · exact t.err_primitive h p hp ok r he
  | .result t e, h, p, hp, ok, r, he => by
      simp only [RustType.errorTypesPrimitive, Bool.and_eq_true, decide_eq_true_eq] at h
      rcases List.mem_cons.mp hp with rfl | hp
      · simp only [Definition.enum.injEq, List.cons.injEq, Prod.mk.injEq] at he
        exact he.2.1.2 ▸ h.1
      · exact t.err_primitive h.2 p hp ok r he
  | .hashMap k v, h, p, hp, ok, r, he | .bTreeMap k v, h, p, hp, ok, r, he => by
      simp only [RustType.errorTypesPrimitive, Bool.and_eq_true] at h
      simp only [RustType.registrations, List.mem_cons, List.mem_append] at hp
      rcases hp with rfl | rfl | hp | hp
      · cases he
      · cases he
      · exact k.err_primitive h.1 p hp ok r he
      · exact v.err_primitive h.2 p hp ok r he
  | .tuple head tail, h, p, hp, ok, r, he => by
      simp only [RustType.errorTypesPrimitive, Bool.and_eq_true] at h
      rcases List.mem_cons.mp hp with rfl | hp
      · cases he
      rcases List.mem_append.mp hp with hp | hp
      · exact head.err_primitive h.1 p hp ok r he
      · exact RustType.err_primitiveAll tail h.2 p hp ok r he

theorem RustType.err_primitiveAll : ∀ ts : List RustType, RustType.errorTypesPrimitiveAll ts →
    ∀ p ∈ RustType.registrationsAll ts, ∀ ok reference,
      p.2 = .enum [("Ok", ok), ("Err", reference)] → reference ∈ primitiveNames
  | [], _, _, hp, _, _, _ => by simp [RustType.registrationsAll] at hp
  | t :: ts, h, p, hp, ok, r, he => by
      simp only [RustType.errorTypesPrimitiveAll, Bool.and_eq_true] at h
      rcases List.mem_append.mp hp with hp | hp
      · exact t.err_primitive h.1 p hp ok r he
      · exact RustType.err_primitiveAll ts h.2 p hp ok r he
end

/-- When every `Result` a type registers has a primitive error type, its schema container is
closed, and a consumer expands it to the type's layout whenever the array lengths fit `u32`.
-/
theorem expand_schemaContainer_of_errorTypesPrimitive (t : RustType)
    (herr : t.errorTypesPrimitive) (hfit : t.lengthsFit)
    : ∃ container, t.schemaContainer = .ok container ∧ Closed container
      ∧ ∀ fuel, container.declaration.length < fuel →
          expand fuel container.definitions container.declaration = some t.layout := by
  have hclosed : Closed ⟨t.declaration, entriesMap t.registrations⟩ :=
    ⟨t.mem_of_defined t.defined_declaration, fun _ _ hl reference hr => by
      rcases t.references_defined _ (mem_of_lookup_entriesMap hl) reference hr with
        h | ⟨ok, hok⟩
      · exact t.mem_of_defined h
      · exact .inr (t.err_primitive herr _ (mem_of_lookup_entriesMap hl) ok reference hok)⟩
  exact ⟨_, t.schemaContainer_eq, hclosed, fun fuel hfuel =>
    t.expand_declaration ⟨t.registered_entriesMap, hclosed.2⟩ fuel hfuel hfit hclosed.1⟩

theorem expand_schemaContainer_result_string :
    (RustType.result (.vec (.primitive .u8)) (.primitive .string)).errorTypesPrimitive
      ∧ (RustType.result (.vec (.primitive .u8)) (.primitive .string)).lengthsFit
      ∧ ∃ container,
          (RustType.result (.vec (.primitive .u8)) (.primitive .string)).schemaContainer
            = .ok container
          ∧ Closed container
          ∧ ∀ fuel, container.declaration.length < fuel →
              expand fuel container.definitions container.declaration
                = some (.enum [("Ok", .sequence (.primitive "u8")),
                    ("Err", .primitive "string")]) :=
  ⟨rfl, rfl, expand_schemaContainer_of_errorTypesPrimitive _ rfl rfl⟩

end Borsh.Schema
