import Mathlib.Data.Nat.Digits
import Mathlib.Tactic.IntervalCases
import Borsh.Schema.Aliases

/-! Declarations are uniquely readable: a reader recovers from `T::declaration()` the type `T`
with its aliases rewritten. So two types share a declaration exactly when they agree up to
the aliases.
-/

namespace Borsh.Schema

-----------------------------------------------------------------------------------------
-- Decimal array lengths
-----------------------------------------------------------------------------------------

/-- The value of a run of decimal digits, most significant first. -/
def digitsValue (digits : List Char) : Nat :=
  digits.foldl (fun n c => 10 * n + (c.toNat - '0'.toNat)) 0

theorem digitChar_digit (d : Nat) (h : d < 10)
    : (Nat.digitChar d).toNat - '0'.toNat = d ∧ (Nat.digitChar d).isDigit := by
  interval_cases d <;> decide

/-- `toDigitsCore` prepends the digits of `n`, by induction on the fuel. -/
theorem toDigitsCore_foldl (fuel n : Nat) (ds : List Char) (h : n < fuel)
    : (Nat.toDigitsCore 10 fuel n ds).foldl (fun n c => 10 * n + (c.toNat - '0'.toNat)) 0
      = ds.foldl (fun n c => 10 * n + (c.toNat - '0'.toNat)) n := by
  induction fuel generalizing n ds with
  | zero => omega
  | succ fuel ih =>
      have hd := (digitChar_digit (n % 10) (Nat.mod_lt _ (by omega))).1
      simp only [Nat.toDigitsCore]
      split
      · simp only [List.foldl_cons, hd]; congr 1; omega
      · rw [ih _ _ (by omega)]; simp only [List.foldl_cons, hd]; congr 1; omega

theorem toDigitsCore_isDigit (fuel n : Nat) (ds : List Char) (hds : ∀ c ∈ ds, c.isDigit)
    : ∀ c ∈ Nat.toDigitsCore 10 fuel n ds, c.isDigit := by
  induction fuel generalizing n ds with
  | zero => exact hds
  | succ fuel ih =>
      have hd := (digitChar_digit (n % 10) (Nat.mod_lt _ (by omega))).2
      simp only [Nat.toDigitsCore]
      split
      · exact List.forall_mem_cons.2 ⟨hd, hds⟩
      · exact ih _ _ (List.forall_mem_cons.2 ⟨hd, hds⟩)

theorem digitsValue_toDigits (n : Nat) : digitsValue (Nat.toDigits 10 n) = n :=
  toDigitsCore_foldl (n + 1) n [] (by omega)

theorem isDigit_of_mem_toDigits {n : Nat} {c : Char} (h : c ∈ Nat.toDigits 10 n)
    : c.isDigit :=
  toDigitsCore_isDigit (n + 1) n [] (fun _ h => nomatch h) c h

-----------------------------------------------------------------------------------------
-- The reader
-----------------------------------------------------------------------------------------

/-- The declarations of the alias-free primitives; these are the names that need no
definition.
-/
def primitiveDeclarations : List (Declaration × RustType) :=
  [("bool", .primitive .bool), ("f32", .primitive .f32), ("f64", .primitive .f64),
    ("i8", .primitive .i8), ("i16", .primitive .i16), ("i32", .primitive .i32),
    ("i64", .primitive .i64), ("i128", .primitive .i128), ("u8", .primitive .u8),
    ("u16", .primitive .u16), ("u32", .primitive .u32), ("u64", .primitive .u64),
    ("u128", .primitive .u128), ("string", .primitive .string), ("nil", .unit)]

/-- What the leading name of a declaration stands for. -/
inductive Head where
  | primitive (t : RustType)
  | array
  | unary (make : RustType → RustType)
  | binary (make : RustType → RustType → RustType)
  | tuple

/-- Every leading name a declaration can start with; none is a prefix of another. -/
def heads : List (Declaration × Head) :=
  primitiveDeclarations.map (fun entry => (entry.1, .primitive entry.2)) ++
    [("Array<", .array), ("Option<", .unary .option), ("Result<", .binary .result),
      ("Vec<", .unary .vec), ("HashMap<", .binary .hashMap), ("HashSet<", .unary .hashSet),
      ("BTreeMap<", .binary .bTreeMap), ("BTreeSet<", .unary .bTreeSet),
      ("Tuple<", .tuple)]

/-- Reads the leading name of a declaration. -/
def readHead (cs : List Char) : Option (Head × List Char) :=
  heads.findSome? fun entry => (cs.dropPrefix? entry.1.data).map (entry.2, ·)

mutual
/-- Reads one declaration off the front of `cs`, returning the type and the rest. -/
def readType : Nat → List Char → Option (RustType × List Char)
  | 0, _ => none
  | fuel + 1, cs => do
      let (head, r) ← readHead cs
      match head with
      | .primitive t => return (t, r)
      | .array =>
          let (t, r) ← readType fuel r
          let r ← r.dropPrefix? ", ".data
          let rest ← (r.dropWhile Char.isDigit).dropPrefix? ">".data
          return (.array t (digitsValue (r.takeWhile Char.isDigit)), rest)
      | .unary make =>
          let (t, r) ← readType fuel r
          let r ← r.dropPrefix? ">".data
          return (make t, r)
      | .binary make =>
          let (t, r) ← readType fuel r
          let r ← r.dropPrefix? ", ".data
          let (u, r) ← readType fuel r
          let r ← r.dropPrefix? ">".data
          return (make t u, r)
      | .tuple =>
          let (t, r) ← readType fuel r
          let (ts, r) ← readElements fuel r
          return (.tuple t ts, r)

/-- Reads the `, `-separated tail of a tuple's elements up to its closing bracket. -/
def readElements : Nat → List Char → Option (List RustType × List Char)
  | 0, _ => none
  | _ + 1, '>' :: r => some ([], r)
  | fuel + 1, ',' :: ' ' :: r => do
      let (t, r) ← readType fuel r
      let (ts, r) ← readElements fuel r
      return (t :: ts, r)
  | _ + 1, _ => none
end

/-- Reads a whole declaration. -/
def readDeclaration (declaration : Declaration) : Option RustType :=
  match readType (declaration.data.length + 1) declaration.data with
  | some (t, []) => some t
  | _ => none

-----------------------------------------------------------------------------------------
-- The reader inverts `declaration`
-----------------------------------------------------------------------------------------

@[simp] theorem toString_data (n : Nat) : (toString n).data = Nat.toDigits 10 n := rfl

theorem intercalate_go_data (acc sep : String) (l : List String)
    : (String.intercalate.go acc sep l).data
      = acc.data ++ (l.map fun a => sep.data ++ a.data).flatten := by
  induction l generalizing acc with
  | nil => simp [String.intercalate.go]
  | cons a l ih => simp [String.intercalate.go, ih]

theorem tupleDeclaration_data (head : Declaration) (tail : List Declaration)
    : (tupleDeclaration (head :: tail)).data
      = "Tuple<".data ++ (head.data
          ++ ((tail.map fun d => [',', ' '] ++ d.data).flatten ++ ">".data)) := by
  simp [tupleDeclaration, String.intercalate, intercalate_go_data]

theorem prefix_of_dropPrefix?_eq_some {m p s : List Char} (h : m.dropPrefix? p = some s)
    : p <+: m := by
  obtain ⟨p', rfl, hp⟩ := List.dropPrefix?_eq_some_iff.mp h
  exact eq_of_beq hp ▸ List.prefix_append p' s

/-- Dropping the literal `p` from `l ++ x` reads only `l`, unless `l` is a proper prefix of `p`. -/
theorem dropPrefix?_append_of_not_prefix {l p : List Char} (x : List Char)
    (h : l <+: p → p <+: l)
    : (l ++ x).dropPrefix? p = (l.dropPrefix? p).map (· ++ x) := by
  by_cases hp : p <+: l
  · obtain ⟨r, rfl⟩ := hp
    rw [List.append_assoc, List.dropPrefix?_append_of_beq _ (beq_self_eq_true p),
      List.dropPrefix?_append_of_beq _ (beq_self_eq_true p)]
    rfl
  · have hnone : ∀ {m}, l <+: m → m.dropPrefix? p = none := fun hl =>
      Option.eq_none_iff_forall_not_mem.mpr fun _ hd =>
        (List.prefix_or_prefix_of_prefix (prefix_of_dropPrefix?_eq_some hd) hl).elim hp (hp ∘ h)
    rw [hnone (List.prefix_append l x), hnone (List.prefix_refl l)]
    rfl

theorem findSome?_dropPrefix?_append {l : List Char} (x : List Char)
    {entries : List (Declaration × Head)}
    (h : ∀ entry ∈ entries, l <+: entry.1.data → entry.1.data <+: l)
    : entries.findSome? (fun entry => ((l ++ x).dropPrefix? entry.1.data).map (entry.2, ·))
      = (entries.findSome? fun entry => (l.dropPrefix? entry.1.data).map (entry.2, ·)).map
          fun read => (read.1, read.2 ++ x) := by
  induction entries with
  | nil => rfl
  | cons entry entries ih =>
    rw [List.findSome?_cons, List.findSome?_cons,
      dropPrefix?_append_of_not_prefix x (h entry (List.mem_cons_self _ _))]
    cases l.dropPrefix? entry.1.data with
    | none => exact ih fun e he => h e (List.mem_cons_of_mem _ he)
    | some r => rfl

/-- A name that no other entry of the table extends is read off whatever follows it. -/
theorem readHead_append {l : List Char} {head : Head} (x : List Char)
    (hl : readHead l = some (head, []))
    (h : heads.all fun entry => !l.isPrefixOf entry.1.data || entry.1.data.isPrefixOf l)
    : readHead (l ++ x) = some (head, x) := by
  unfold readHead at hl ⊢
  rw [findSome?_dropPrefix?_append x fun entry he hp => by
    simpa [List.isPrefixOf_iff_prefix.mpr hp] using List.all_eq_true.mp h entry he, hl]
  rfl

theorem readType_primitive {name : Declaration} {t : RustType} {fuel : Nat} {x : List Char}
    (hh : readHead (name.data ++ x) = some (.primitive t, x))
    : readType (fuel + 1) (name.data ++ x) = some (t, x) := by
  simp only [readType, hh]
  rfl

theorem readType_unary {name : Declaration} {make : RustType → RustType} {fuel : Nat}
    {x s : List Char} {u : RustType} (hh : readHead (name.data ++ x) = some (.unary make, x))
    (hu : readType fuel x = some (u, ">".data ++ s))
    : readType (fuel + 1) (name.data ++ x) = some (make u, s) := by
  simp only [readType, hh, Option.bind_some]
  simp [hu, List.dropPrefix?]

theorem readType_binary {name : Declaration} {make : RustType → RustType → RustType}
    {fuel : Nat} {x y s : List Char} {u v : RustType}
    (hh : readHead (name.data ++ x) = some (.binary make, x))
    (hu : readType fuel x = some (u, ", ".data ++ y))
    (hv : readType fuel y = some (v, ">".data ++ s))
    : readType (fuel + 1) (name.data ++ x) = some (make u v, s) := by
  simp only [readType, hh, Option.bind_some]
  simp [hu, hv, List.dropPrefix?]

theorem readType_array {fuel n : Nat} {x s : List Char} {u : RustType}
    (hu : readType fuel x = some (u, ", ".data ++ (Nat.toDigits 10 n ++ (">".data ++ s))))
    : readType (fuel + 1) ("Array<".data ++ x) = some (.array u n, s) := by
  have hd : ∀ c ∈ Nat.toDigits 10 n, c.isDigit := fun _ => isDigit_of_mem_toDigits
  have hh : readHead ("Array<".data ++ x) = some (.array, x) := readHead_append x rfl rfl
  simp only [readType, hh, Option.bind_some]
  simp [hu, List.dropPrefix?, List.takeWhile_append_of_pos hd, List.dropWhile_append_of_pos hd,
    digitsValue_toDigits, List.takeWhile, List.dropWhile]

theorem readType_tuple {fuel : Nat} {x y s : List Char} {u : RustType} {us : List RustType}
    (hu : readType fuel x = some (u, y)) (hus : readElements fuel y = some (us, s))
    : readType (fuel + 1) ("Tuple<".data ++ x) = some (.tuple u us, s) := by
  have hh : readHead ("Tuple<".data ++ x) = some (.tuple, x) := readHead_append x rfl rfl
  simp only [readType, hh, Option.bind_some]
  simp [hu, hus]

theorem readElements_nil (fuel : Nat) (s : List Char)
    : readElements (fuel + 1) (">".data ++ s) = some ([], s) := rfl

theorem readElements_cons {fuel : Nat} {x y s : List Char} {u : RustType} {us : List RustType}
    (hu : readType fuel x = some (u, y)) (hus : readElements fuel y = some (us, s))
    : readElements (fuel + 1) (", ".data ++ x) = some (u :: us, s) := by
  show readElements (fuel + 1) (',' :: ' ' :: x) = _
  simp [readElements, hu, hus]

mutual
/-- The reader recovers the alias-free type from its declaration and leaves any remainder,
by structural recursion on the type; the fuel is the declaration's length.
-/
theorem readType_declaration : ∀ (t : RustType) (fuel : Nat) (s : List Char),
    t.declaration.data.length < fuel →
      readType fuel (t.declaration.data ++ s) = some (t.unalias, s)
  | .primitive p, fuel + 1, s, _ => by
      cases p <;> exact readType_primitive (readHead_append s rfl rfl)
  | .unit, fuel + 1, s, _ | .phantomData _, fuel + 1, s, _ =>
      readType_primitive (readHead_append s rfl rfl)
  | .box t, fuel, s, h => readType_declaration t fuel s h
  | .array t n, fuel + 1, s, h => by
      simp only [RustType.declaration, RustType.unalias, String.data_append, toString_data,
        List.append_assoc, List.length_append, List.length_cons, List.length_nil] at h ⊢
      exact readType_array (readType_declaration t fuel _ (by omega))
  | .option t, fuel + 1, s, h | .vec t, fuel + 1, s, h | .slice t, fuel + 1, s, h
  | .hashSet t, fuel + 1, s, h | .bTreeSet t, fuel + 1, s, h => by
      simp only [RustType.declaration, RustType.unalias, String.data_append, List.append_assoc,
        List.length_append, List.length_cons, List.length_nil] at h ⊢
      exact readType_unary (readHead_append _ rfl rfl) (readType_declaration t fuel _ (by omega))
  | .result k v, fuel + 1, s, h | .hashMap k v, fuel + 1, s, h
  | .bTreeMap k v, fuel + 1, s, h => by
      simp only [RustType.declaration, RustType.unalias, String.data_append, List.append_assoc,
        List.length_append, List.length_cons, List.length_nil] at h ⊢
      exact readType_binary (readHead_append _ rfl rfl)
        (readType_declaration k fuel _ (by omega))
        (readType_declaration v fuel _ (by omega))
  | .tuple head tail, fuel + 1, s, h => by
      simp only [RustType.declaration, RustType.unalias, tupleDeclaration_data,
        List.append_assoc] at h ⊢
      simp only [List.length_append, List.length_cons, List.length_nil] at h
      exact readType_tuple (readType_declaration head fuel _ (by omega))
        (readElements_declarations tail fuel s (by omega))
  | _, 0, _, h => absurd h (Nat.not_lt_zero _)

/-- The tail reader recovers a tuple's remaining elements, by structural recursion on them. -/
theorem readElements_declarations : ∀ (ts : List RustType) (fuel : Nat) (s : List Char),
    ((RustType.declarations ts).map fun d => [',', ' '] ++ d.data).flatten.length < fuel →
      readElements fuel
          (((RustType.declarations ts).map fun d => [',', ' '] ++ d.data).flatten
            ++ (">".data ++ s))
        = some (RustType.unaliasAll ts, s)
  | [], fuel + 1, s, _ => readElements_nil fuel s
  | t :: ts, fuel + 1, s, h => by
      simp only [RustType.declarations, RustType.unaliasAll, List.map_cons, List.flatten_cons,
        List.append_assoc, List.length_append, List.length_cons, List.length_nil] at h ⊢
      exact readElements_cons (readType_declaration t fuel _ (by omega))
        (readElements_declarations ts fuel s (by omega))
  | _, 0, _, h => absurd h (Nat.not_lt_zero _)
end

/-- A schema consumer recovers the alias-free type from a declaration alone. -/
theorem readDeclaration_declaration (t : RustType)
    : readDeclaration t.declaration = some t.unalias := by
  have h := readType_declaration t _ [] (Nat.lt_add_one _)
  rw [List.append_nil] at h
  unfold readDeclaration
  rw [h]

example : readDeclaration "Tuple<u64, Tuple<u8, bool>, string>"
    = some (.tuple (.primitive .u64) [.tuple (.primitive .u8) [.primitive .bool],
        .primitive .string]) := rfl

theorem unalias_eq_of_declaration_eq {t₁ t₂ : RustType}
    (h : t₁.declaration = t₂.declaration)
    : t₁.unalias = t₂.unalias :=
  Option.some.inj <| (readDeclaration_declaration t₁).symm.trans <|
    h ▸ readDeclaration_declaration t₂

/-- Declarations are injective up to the aliases: two types share a declaration exactly when
they agree after `Box<U>`, `[T]`, `str`, `isize`, `usize` and `PhantomData<X>` are rewritten.
-/
theorem declaration_eq_iff_unalias_eq (t₁ t₂ : RustType)
    : t₁.declaration = t₂.declaration ↔ t₁.unalias = t₂.unalias :=
  ⟨unalias_eq_of_declaration_eq, fun h => by
    rw [← t₁.declaration_unalias, h, t₂.declaration_unalias]⟩

end Borsh.Schema
