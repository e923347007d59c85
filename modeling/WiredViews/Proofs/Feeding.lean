import Mathlib.Logic.Relation
import WiredViews.DependencyGraph
import WiredViews.Proofs.TableWrites

namespace WiredViews
namespace Context
variable {context : Context}

def Feeds (context : Context) (parent child : String) : Prop :=
  ∃ service, context.services.get? child = some service ∧
    ∃ dependency ∈ service.dependencies, ∃ field,
      context.bindings.get? dependency.source = some (.reference parent field)

-- The beginning of a chain of one or more feeding services. A service on a cycle
-- is its own ancestor.
def Ancestor (context : Context) : String → String → Prop :=
  Relation.TransGen context.Feeds

def OnCycle (context : Context) (name : String) : Prop :=
  context.Ancestor name name

def Declared (context : Context) : Prop :=
  ∀ name service field, context.bindings.get? name = some (.reference service field) →
    service ∈ context.services.keys

def parentsOf (context : Context) (name : String) : List String :=
  context.parents.getD name []

def childrenOf (context : Context) (name : String) : List String :=
  context.children.getD name []

theorem get?_references {name service field : String} :
    context.references.get? name = some (service, field) ↔
      context.bindings.get? name = some (.reference service field) := by
  rw [references, Table.get?_filterMapRows, Option.bind_eq_some_iff]
  constructor
  · intro given
    obtain ⟨meaning, held, read⟩ := given
    cases meaning with
    | constant value => simp [Variable.reference?] at read
    | reference service field =>
      simp only [Variable.reference?, Option.some.injEq, Prod.mk.injEq] at read
      obtain ⟨rfl, rfl⟩ := read
      exact held
  · intro held
    exact ⟨_, held, rfl⟩

theorem get?_constants {name value : String} :
    context.constants.get? name = some value ↔ context.bindings.get? name = some (.constant value) := by
  rw [constants, Table.get?_filterMapRows, Option.bind_eq_some_iff]
  constructor
  · intro given
    obtain ⟨meaning, held, read⟩ := given
    cases meaning with
    | constant value =>
      simp only [Variable.constant?, Option.some.injEq] at read
      rw [← read]
      exact held
    | reference service field => simp [Variable.constant?] at read
  · intro held
    exact ⟨_, held, rfl⟩

theorem mem_producers {service : Service} {parent : String} :
    parent ∈ context.producers service ↔ ∃ dependency ∈ service.dependencies, ∃ field,
      context.bindings.get? dependency.source = some (.reference parent field) := by
  unfold producers
  rw [mem_distinct, List.mem_filterMap]
  constructor
  · intro given
    obtain ⟨dependency, member, found⟩ := given
    obtain ⟨⟨owner, field⟩, held, rfl⟩ := Option.map_eq_some_iff.mp found
    exact ⟨dependency, member, field, get?_references.mp held⟩
  · intro given
    obtain ⟨dependency, member, field, held⟩ := given
    exact ⟨dependency, member, by rw [get?_references.mpr held]; rfl⟩

theorem parents_keys : context.parents.keys = context.services.keys :=
  Table.keys_mapRows _ _

theorem children_keys : context.children.keys = context.services.keys :=
  Table.keys_mapRows _ _

theorem get?_parents {name : String} :
    context.parents.get? name = (context.services.get? name).map context.producers :=
  Table.get?_mapRows _ _ _

theorem get?_parents_of_mem {name : String} (declared : name ∈ context.services.keys) :
    context.parents.get? name = some (context.parentsOf name) := by
  obtain ⟨held, found⟩ := Table.mem_keys.mp (parents_keys.symm ▸ declared)
  rw [parentsOf, Table.getD_of_get? found, found]

theorem mem_parentsOf {parent child : String} :
    parent ∈ context.parentsOf child ↔ context.Feeds parent child := by
  unfold parentsOf Table.getD Feeds
  rw [get?_parents]
  cases found : context.services.get? child with
  | none => simp
  | some service =>
    simp only [Option.map_some, Option.getD_some, Option.some.injEq, exists_eq_left']
    exact mem_producers

theorem nodup_parentsOf (name : String) : (context.parentsOf name).Nodup := by
  unfold parentsOf Table.getD
  rw [get?_parents]
  cases context.services.get? name with
  | none => simp
  | some service => exact nodup_distinct _

theorem feeds_child {parent child : String} (feeds : context.Feeds parent child) :
    child ∈ context.services.keys := by
  obtain ⟨service, held, _⟩ := feeds
  exact Table.mem_keys.mpr ⟨service, held⟩

theorem feeds_parent (declared : context.Declared) {parent child : String}
    (feeds : context.Feeds parent child) : parent ∈ context.services.keys := by
  obtain ⟨_, _, _, _, field, held⟩ := feeds
  exact declared _ _ _ held

theorem ancestor_child {ancestor child : String} (chain : context.Ancestor ancestor child) :
    child ∈ context.services.keys := by
  cases chain with
  | single feeds => exact feeds_child feeds
  | tail _ feeds => exact feeds_child feeds

theorem mem_parents_row {child : String} {parents : List String} :
    (child, parents) ∈ context.parents.rows ↔
      child ∈ context.services.keys ∧ parents = context.parentsOf child := by
  rw [← Table.get?_eq_some]
  constructor
  · intro found
    have declared : child ∈ context.services.keys := parents_keys ▸ Table.mem_keys.mpr ⟨_, found⟩
    rw [get?_parents_of_mem declared] at found
    exact ⟨declared, (Option.some.inj found).symm⟩
  · intro given
    obtain ⟨declared, rfl⟩ := given
    exact get?_parents_of_mem declared

theorem mem_childrenOf {parent child : String} :
    child ∈ context.childrenOf parent ↔ parent ∈ context.services.keys ∧ context.Feeds parent child := by
  unfold childrenOf Table.getD children
  rw [Table.get?_mapRows, Table.mem_keys]
  cases context.services.get? parent with
  | none => simp
  | some service =>
    simp only [Option.map_some, Option.getD_some, List.mem_map, List.mem_filter, decide_eq_true_eq,
      Option.some.injEq, exists_eq', true_and]
    constructor
    · intro given
      obtain ⟨⟨name, parents⟩, ⟨member, listed⟩, rfl⟩ := given
      obtain ⟨_, rfl⟩ := mem_parents_row.mp member
      exact mem_parentsOf.mp listed
    · intro feeds
      exact ⟨(child, context.parentsOf child),
        ⟨mem_parents_row.mpr ⟨feeds_child feeds, rfl⟩, mem_parentsOf.mpr feeds⟩, rfl⟩

theorem nodup_childrenOf (name : String) : (context.childrenOf name).Nodup := by
  unfold childrenOf Table.getD children
  rw [Table.get?_mapRows]
  cases context.services.get? name with
  | none => simp
  | some service => exact context.parents.keys_distinct.sublist (List.filter_sublist.map Prod.fst)

theorem mem_roots {name : String} :
    name ∈ context.roots ↔ name ∈ context.services.keys ∧ context.parentsOf name = [] := by
  unfold roots
  simp only [List.mem_map, List.mem_filter, List.isEmpty_iff]
  constructor
  · intro given
    obtain ⟨⟨child, parents⟩, ⟨member, none⟩, rfl⟩ := given
    obtain ⟨declared, rfl⟩ := mem_parents_row.mp member
    exact ⟨declared, none⟩
  · intro given
    obtain ⟨declared, none⟩ := given
    exact ⟨(name, context.parentsOf name), ⟨mem_parents_row.mpr ⟨declared, rfl⟩, none⟩, rfl⟩

theorem nodup_roots : context.roots.Nodup :=
  context.parents.keys_distinct.sublist (List.filter_sublist.map Prod.fst)

end Context
end WiredViews
