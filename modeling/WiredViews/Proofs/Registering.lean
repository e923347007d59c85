import WiredViews.Proofs.TableWrites
import WiredViews.Registry

namespace WiredViews

section Kinds
variable {kind : Kind} {kinds : List Kind} {value : Value} {values : List Value} {argument : String}
  {allowed : KindSet}

theorem mem_both (kind : Kind) : kind ∈ KindSet.both.kinds := by
  cases kind <;> simp [KindSet.kinds]

theorem mem_only {other : Kind} : kind ∈ (KindSet.only other).kinds ↔ kind = other := by
  simp [KindSet.kinds]

theorem kinds_ne_nil (allowed : KindSet) : allowed.kinds ≠ [] := by
  cases allowed <;> simp [KindSet.kinds]

theorem ofValue?_exact : Kind.ofValue? value = some kind ↔ value = .str kind.name := by
  constructor
  · intro read
    cases value with
    | str name =>
      by_cases text : name = "string"
      · simp only [Kind.ofValue?, text, if_true, Option.some.injEq] at read
        rw [text, ← read]
        rfl
      · by_cases textList : name = "string[]"
        · simp only [Kind.ofValue?, textList, String.reduceEq, if_false, if_true, Option.some.injEq] at read
          rw [textList, ← read]
          rfl
        · simp [Kind.ofValue?, text, textList] at read
    | null | bool | int | decimal | list | tuple | object => simp [Kind.ofValue?] at read
  · intro named
    subst named
    cases kind <;> rfl

theorem readKinds_exact : readKinds values = .ok kinds ↔ values = kinds.map fun kind => .str kind.name := by
  constructor
  · intro read
    induction values generalizing kinds with
    | nil =>
      cases read
      rfl
    | cons value rest ih =>
      unfold readKinds at read
      cases found : Kind.ofValue? value with
      | none => simp [found] at read
      | some kind =>
        cases later : readKinds rest with
        | error fault => simp [found, later, Except.map] at read
        | ok others =>
          simp only [found, later, Except.map, Except.ok.injEq] at read
          rw [← read, List.map_cons, ofValue?_exact.mp found, ih later]
  · intro named
    subst named
    induction kinds with
    | nil => rfl
    | cons kind rest ih => simp [readKinds, ofValue?_exact.mpr rfl, ih, Except.map]

structure Spells (values : List Value) (allowed : KindSet) : Prop where
  known : ∀ value ∈ values, ∃ kind ∈ allowed.kinds, value = .str kind.name
  named : ∀ kind ∈ allowed.kinds, .str kind.name ∈ values

theorem exists_kinds (known : ∀ value ∈ values, ∃ kind : Kind, value = .str kind.name) :
    ∃ kinds : List Kind, values = kinds.map fun kind => .str kind.name := by
  induction values with
  | nil => exact ⟨[], rfl⟩
  | cons value rest ih =>
    obtain ⟨⟨kind, rfl⟩, later⟩ := List.forall_mem_cons.mp known
    obtain ⟨kinds, rfl⟩ := ih later
    exact ⟨kind :: kinds, rfl⟩

theorem ofKinds?_exact : KindSet.ofKinds? kinds = some allowed ↔ ∀ kind, kind ∈ kinds ↔ kind ∈ allowed.kinds := by
  have each : (∀ kind, kind ∈ kinds ↔ kind ∈ allowed.kinds) ↔
      (Kind.text ∈ kinds ↔ Kind.text ∈ allowed.kinds) ∧ (Kind.textList ∈ kinds ↔ Kind.textList ∈ allowed.kinds) := by
    constructor
    · intro same
      exact ⟨same .text, same .textList⟩
    · intro same kind
      cases kind with
      | text => exact same.1
      | textList => exact same.2
  rw [each]
  unfold KindSet.ofKinds?
  by_cases text : Kind.text ∈ kinds <;> by_cases textList : Kind.textList ∈ kinds <;> cases allowed with
  | only kind => cases kind <;> simp [text, textList, mem_only]
  | both => simp [text, textList, mem_both]

theorem name_injective : Function.Injective Kind.name := by
  intro kind other same
  cases kind <;> cases other <;> simp [Kind.name] at same ⊢

theorem mem_spelled : .str kind.name ∈ kinds.map (fun kind => Value.str kind.name) ↔ kind ∈ kinds := by
  constructor
  · intro given
    obtain ⟨other, member, same⟩ := List.mem_map.mp given
    exact name_injective (Value.str.inj same) ▸ member
  · intro member
    exact List.mem_map.mpr ⟨kind, member, rfl⟩

theorem readKindSet_exact : readKindSet argument values = .ok allowed ↔ Spells values allowed := by
  constructor
  · intro read
    unfold readKindSet at read
    cases found : readKinds values with
    | error fault => simp [found] at read
    | ok kinds =>
      cases made : KindSet.ofKinds? kinds with
      | none => simp [found, made] at read
      | some set =>
        simp only [found, made, Except.ok.injEq] at read
        subst read
        have same := ofKinds?_exact.mp made
        rw [readKinds_exact.mp found]
        refine ⟨fun value member => ?_, fun kind allowed => mem_spelled.mpr ((same kind).mpr allowed)⟩
        obtain ⟨kind, inside, rfl⟩ := List.mem_map.mp member
        exact ⟨kind, (same kind).mp inside, rfl⟩
  · intro spells
    obtain ⟨kinds, rfl⟩ := exists_kinds fun value member => (spells.known value member).imp fun _ given => given.2
    have same : KindSet.ofKinds? kinds = some allowed := by
      refine ofKinds?_exact.mpr fun kind => ⟨fun inside => ?_, fun inside => ?_⟩
      · obtain ⟨other, member, equal⟩ := spells.known _ (mem_spelled.mpr inside)
        exact name_injective (Value.str.inj equal) ▸ member
      · exact mem_spelled.mp (spells.named kind inside)
    simp only [readKindSet, readKinds_exact.mpr rfl, same]

end Kinds

def ArgumentModel.DeclaredBy (model : ArgumentModel) (rows : List (String × List Value)) : Prop :=
  List.Forall₂ (fun row held => row.1 = held.1 ∧ Spells row.2 held.2) (Table.ofList rows).rows model.rows

theorem readModelRows_exact {rows : List (String × List Value)} {model result : ArgumentModel}
    (distinct : (rows.map Prod.fst).Nodup) (fresh : ∀ row ∈ rows, row.1 ∉ model.keys) :
    readModelRows model rows = .ok result ↔ ∃ added,
      List.Forall₂ (fun row held => row.1 = held.1 ∧ Spells row.2 held.2) rows added ∧
        result.rows = model.rows ++ added := by
  induction rows generalizing model with
  | nil =>
    constructor
    · intro read
      cases read
      exact ⟨[], .nil, (List.append_nil _).symm⟩
    · intro given
      obtain ⟨added, declared, same⟩ := given
      cases declared
      exact congrArg Except.ok (Table.eq_of_rows (same.trans (List.append_nil _)).symm)
  | cons row rest ih =>
    obtain ⟨argument, values⟩ := row
    rw [List.map_cons, List.nodup_cons] at distinct
    rw [List.forall_mem_cons] at fresh
    have grown : ∀ allowed, (model.insert argument allowed).rows = model.rows ++ [(argument, allowed)] :=
      fun _ => Table.insertRow_of_absent fresh.1
    have later : ∀ allowed, ∀ row ∈ rest, row.1 ∉ (model.insert argument allowed).keys := by
      intro allowed row listed
      rw [Table.mem_keys_insert, not_or]
      exact ⟨fun same => distinct.1 (List.mem_map.mpr ⟨row, listed, same⟩), fresh.2 row listed⟩
    unfold readModelRows
    constructor
    · intro read
      cases found : readKindSet argument values with
      | error fault => simp [found] at read
      | ok allowed =>
        simp only [found] at read
        obtain ⟨added, declared, same⟩ := (ih distinct.2 (later allowed)).mp read
        refine ⟨(argument, allowed) :: added, .cons ⟨rfl, readKindSet_exact.mp found⟩ declared, ?_⟩
        rw [same, grown, List.append_assoc, List.singleton_append]
    · intro given
      obtain ⟨_, declared, same⟩ := given
      cases declared with
      | @cons _ held _ added first others =>
        obtain ⟨held_argument, allowed⟩ := held
        obtain ⟨equal, spells⟩ := first
        dsimp only at equal spells
        subst equal
        simp only [readKindSet_exact.mpr spells]
        refine (ih distinct.2 (later allowed)).mpr ⟨added, others, ?_⟩
        rw [same, grown, List.append_assoc, List.singleton_append]

theorem read_exact {rows : List (String × List Value)} {model : ArgumentModel} :
    ArgumentModel.read rows = .ok model ↔ model.DeclaredBy rows := by
  have known := @readModelRows_exact (Table.ofList rows).rows ∅ model (Table.ofList rows).keys_distinct
    fun _ _ => by simp [Table.mem_keys]
  rw [ArgumentModel.read, known]
  constructor
  · intro given
    obtain ⟨added, declared, same⟩ := given
    have rows : model.rows = added := same
    rwa [ArgumentModel.DeclaredBy, rows]
  · intro declared
    exact ⟨model.rows, declared, rfl⟩

structure Admits (name : String) (rows : List (String × List Value)) (model : ArgumentModel) : Prop where
  free : name ≠ systemName
  named : fitsLine isProviderName name = true
  declared : model.DeclaredBy rows
  arguments : ∀ argument ∈ model.keys, fitsLine isName argument = true

namespace Registry
variable {registry : Registry} {name : String}

theorem register_exact {callback : Option Nat} {rows : List (String × List Value)} {after : Registry} :
    registry.register name callback rows = .ok after ↔
      ∃ number model, callback = some number ∧ Admits name rows model ∧
        after = ⟨registry.registered.insert name ⟨model, .registered number, false⟩⟩ := by
  unfold register
  constructor
  · intro went
    by_cases system : isSystemName name = true
    · simp [system] at went
    · by_cases named : fitsLine isProviderName name = true
      · cases callback with
        | none => simp [system, named] at went
        | some number =>
          cases read : ArgumentModel.read rows with
          | error fault => simp [system, named, read] at went
          | ok model =>
            cases odd : model.keys.find? fun argument => !fitsLine isName argument with
            | some argument => simp [system, named, read, odd] at went
            | none =>
              simp only [system, named, read, odd, Bool.not_true, Bool.false_eq_true, if_false,
                Except.ok.injEq] at went
              refine ⟨number, model, rfl, ⟨by simpa [isSystemName] using system, named, read_exact.mp read, ?_⟩,
                went.symm⟩
              simpa using List.find?_eq_none.mp odd
      · simp [system, named] at went
  · intro given
    obtain ⟨number, model, rfl, admits, rfl⟩ := given
    have system : isSystemName name = false := by simpa [isSystemName] using admits.free
    have fit : (model.keys.find? fun argument => !fitsLine isName argument) = none := by
      simpa using admits.arguments
    simp [system, admits.named, read_exact.mpr admits.declared, fit]

theorem snapshot_get? (registry : Registry) (name : String) : registry.snapshot.get? name = registry.get? name := by
  unfold snapshot get? isSystemName
  rw [Table.get?_insertAll_rows, Table.get?_insert, Table.get?_empty]
  cases registry.registered.get? name with
  | some provider => rfl
  | none =>
    by_cases system : name = systemName
    · simp [system]
    · simp [system, Ne.symm system]

theorem contains_eq (registry : Registry) (name : String) : registry.contains name = (registry.get? name).isSome := by
  unfold contains get? Table.contains
  cases registry.registered.get? name with
  | some provider => rfl
  | none => cases isSystemName name <;> rfl

theorem snapshot_rows (free : systemName ∉ registry.registered.keys) :
    registry.snapshot.rows = (systemName, systemProvider) :: registry.registered.rows := by
  refine Table.rows_insertAll registry.registered.keys_distinct fun row listed => ?_
  rw [Table.mem_keys_insert, not_or]
  refine ⟨fun same => free ?_, by simp [Table.mem_keys]⟩
  exact same ▸ List.mem_map_of_mem listed

theorem snapshot_keys (free : systemName ∉ registry.registered.keys) :
    registry.snapshot.keys = systemName :: registry.registered.keys := by
  unfold Table.keys
  rw [snapshot_rows free, List.map_cons]

theorem snapshot_size (free : systemName ∉ registry.registered.keys) :
    registry.snapshot.size = registry.size + 1 := by
  unfold Table.size size
  rw [snapshot_rows free, List.length_cons]
  rfl

section Writing
variable {other : String} {provider : Provider}

theorem get?_written (registry : Registry) :
    (Registry.mk (registry.registered.insert name provider)).get? other =
      if name = other then some provider else registry.get? other := by
  unfold get?
  rw [Table.get?_insert]
  by_cases same : name = other <;> simp [same]

theorem snapshot_keys_written (free : systemName ∉ registry.registered.keys) (differ : name ≠ systemName) :
    (Registry.mk (registry.registered.insert name provider)).snapshot.keys =
      if name ∈ registry.snapshot.keys then registry.snapshot.keys else registry.snapshot.keys ++ [name] := by
  have free_after : systemName ∉ (Registry.mk (registry.registered.insert name provider)).registered.keys := by
    rw [Table.mem_keys_insert, not_or]
    exact ⟨Ne.symm differ, free⟩
  rw [snapshot_keys free_after, snapshot_keys free]
  by_cases known : name ∈ registry.registered.keys
  · rw [if_pos (List.mem_cons_of_mem _ known), Table.keys_insert_of_mem known]
  · rw [if_neg (by simp [differ, known]), Table.keys_insert_of_absent known, List.cons_append]

end Writing

end Registry
end WiredViews
