import WiredViews.Proofs.HopLevels

-- The tables of a plan, looked up in the other direction: what they list is what the context
-- says, no more and no less, and nothing is listed twice.
namespace WiredViews

def Plan.entries (plan : Plan) : List (String × String × String) :=
  plan.fields.rows.flatMap fun owner =>
    owner.2.rows.flatMap fun output => output.2.map fun name => (name, owner.1, output.1)

structure Context.Inverted (context : Context) (providers : Providers) (policy : Policy) (plan : Plan) : Prop where
  listed : ∀ service field name, name ∈ (plan.fields.getD service ∅).getD field [] ↔
    context.bindings.get? name = some (.reference service field)
  order : ∀ service field, ((plan.fields.getD service ∅).getD field []).Sublist context.bindings.keys
  once : (plan.entries.map Prod.fst).Nodup
  references : ∀ name service field, (name, service, field) ∈ plan.entries ↔
    context.bindings.get? name = some (.reference service field)
  owners : ∀ service, service ∈ plan.fields.keys ↔
    ∃ name field, context.bindings.get? name = some (.reference service field)
  outputs : ∀ service field, field ∈ (plan.fields.getD service ∅).keys ↔
    ∃ name, context.bindings.get? name = some (.reference service field)
  constants : ∀ name value, plan.constants.get? name = some value ↔
    context.bindings.get? name = some (.constant value)
  covered : (plan.constants.keys ++ plan.entries.map Prod.fst).Perm context.bindings.keys
  services : plan.children.keys = context.services.keys
  children : ∀ parent child, child ∈ plan.children.getD parent [] ↔ context.Feeds parent child
  brood : ∀ parent, (plan.children.getD parent []).Nodup ∧
    (plan.children.getD parent []).Sublist context.services.keys
  roots : ∀ strategy, ∃ leveled, Plan.build context providers { policy with levels := strategy } = .ok leveled ∧
    leveled.children = plan.children ∧
    ∀ name, leveled.Places 0 name ↔ name ∈ plan.children.keys ∧ ∀ parent, name ∉ plan.children.getD parent []

theorem Table.nodup_flatMap {κ α β : Type} (table : Table κ α) {items : κ × α → List β} (owner : β → κ)
    (once : ∀ row ∈ table.rows, (items row).Nodup)
    (owned : ∀ row ∈ table.rows, ∀ item ∈ items row, owner item = row.1) : (table.rows.flatMap items).Nodup := by
  rw [List.nodup_flatMap]
  refine ⟨once, ?_⟩
  have apart := List.pairwise_map.mp table.keys_distinct
  refine apart.imp_of_mem fun {row other} member also differ item here there => ?_
  exact differ ((owned row member item here).symm.trans (owned other also item there))

theorem Table.getD_iff {κ α : Type} [DecidableEq κ] {table : Table κ α} {key : κ} {default : α} {holds : α → Prop}
    (unfit : ¬ holds default) : holds (table.getD key default) ↔ ∃ value, (key, value) ∈ table.rows ∧ holds value := by
  simp only [← Table.get?_eq_some, Table.getD]
  cases table.get? key with
  | none => simp [unfit]
  | some value => simp

theorem Table.keys_filterMapRows {κ α β : Type} (keep : κ → α → Option β) (table : Table κ α) :
    (table.filterMapRows keep).keys.Sublist table.keys := by
  change ((table.rows.filterMap fun row => (keep row.1 row.2).map (row.1, ·)).map Prod.fst).Sublist _
  unfold Table.keys
  induction table.rows with
  | nil => exact .slnil
  | cons row rest ih =>
    cases kept : keep row.1 row.2 with
    | none => simpa [kept] using ih.cons row.1
    | some value => simpa [kept] using ih.cons_cons row.1

namespace Context
variable {context : Context} {providers : Providers} {policy : Policy} {plan : Plan} {name service field : String}

section Fields

theorem fieldTable_getD (service field : String) : (context.fieldTable.getD service ∅).getD field [] =
    (context.references.rows.filter fun row => row.2 = (service, field)).map Prod.fst := by
  rw [fieldTable, getD_fieldRows]
  rfl

theorem fields_order (service field : String) :
    ((context.fieldTable.getD service ∅).getD field []).Sublist context.bindings.keys := by
  rw [fieldTable_getD]
  exact (List.filter_sublist.map Prod.fst).trans (Table.keys_filterMapRows _ context.bindings)

theorem mem_owners : service ∈ context.fieldTable.keys ↔
    ∃ name field, context.bindings.get? name = some (.reference service field) := by
  have nothing : (∅ : Table String (Table String (List String))).keys = [] := rfl
  rw [fieldTable, mem_fieldRows, nothing]
  constructor
  · intro given
    obtain ⟨⟨name, _, field⟩, member, rfl⟩ := given.resolve_left List.not_mem_nil
    exact ⟨name, field, get?_references.mp (Table.get?_eq_some.mpr member)⟩
  · intro given
    obtain ⟨name, field, bound⟩ := given
    exact Or.inr ⟨(name, service, field), Table.get?_eq_some.mp (get?_references.mpr bound), rfl⟩

theorem mem_outputs : field ∈ (context.fieldTable.getD service ∅).keys ↔
    ∃ name, context.bindings.get? name = some (.reference service field) := by
  have nothing : ((∅ : Table String (Table String (List String))).getD service ∅).keys = [] := rfl
  rw [fieldTable, mem_fieldRows_fields, nothing]
  constructor
  · intro given
    obtain ⟨⟨name, owner⟩, member, rfl⟩ := given.resolve_left List.not_mem_nil
    exact ⟨name, get?_references.mp (Table.get?_eq_some.mpr member)⟩
  · intro given
    obtain ⟨name, bound⟩ := given
    exact Or.inr ⟨(name, service, field), Table.get?_eq_some.mp (get?_references.mpr bound), rfl⟩

theorem mem_entries : (name, service, field) ∈ (context.plan providers policy).entries ↔
    context.bindings.get? name = some (.reference service field) := by
  have owned : name ∈ (context.fieldTable.getD service ∅).getD field [] ↔
      ∃ fields, (service, fields) ∈ context.fieldTable.rows ∧ name ∈ fields.getD field [] :=
    @Table.getD_iff _ _ _ _ _ _ (fun fields : Table String (List String) => name ∈ fields.getD field []) List.not_mem_nil
  have listed : ∀ fields : Table String (List String), name ∈ fields.getD field [] ↔
      ∃ names, (field, names) ∈ fields.rows ∧ name ∈ names :=
    fun _ => @Table.getD_iff _ _ _ _ _ _ (name ∈ ·) List.not_mem_nil
  rw [← mem_fieldTable, owned]
  simp only [listed, Plan.entries, plan, List.mem_flatMap, List.mem_map, Prod.exists, Prod.mk.injEq]
  constructor
  · intro given
    obtain ⟨_, fields, member, _, names, row, _, inside, rfl, rfl, rfl⟩ := given
    exact ⟨fields, member, names, row, inside⟩
  · intro given
    obtain ⟨fields, member, names, row, inside⟩ := given
    exact ⟨service, fields, member, field, names, row, name, inside, rfl, rfl, rfl⟩

theorem entries_nodup : (context.plan providers policy).entries.Nodup := by
  refine Table.nodup_flatMap _ (fun entry => entry.2.1) (fun owner member => ?_) (fun owner member entry listed => ?_)
  · refine Table.nodup_flatMap _ (fun entry => entry.2.2) (fun output row => ?_) (fun output row entry listed => ?_)
    · have fields : context.fieldTable.getD owner.1 ∅ = owner.2 := Table.getD_of_get? (Table.get?_eq_some.mpr member)
      have names : owner.2.getD output.1 [] = output.2 := Table.getD_of_get? (Table.get?_eq_some.mpr row)
      have order := @fields_order context owner.1 output.1
      rw [fields, names] at order
      exact (order.nodup context.bindings.keys_nodup).map fun name other same => congrArg Prod.fst same
    · obtain ⟨name, _, rfl⟩ := List.mem_map.mp listed
      rfl
  · obtain ⟨output, _, inside⟩ := List.mem_flatMap.mp listed
    obtain ⟨name, _, rfl⟩ := List.mem_map.mp inside
    rfl

theorem entries_perm : (context.plan providers policy).entries.Perm context.references.rows := by
  have distinct : context.references.rows.Nodup := .of_map Prod.fst context.references.keys_distinct
  rw [List.perm_ext_iff_of_nodup entries_nodup distinct]
  intro entry
  obtain ⟨name, service, field⟩ := entry
  rw [mem_entries, ← get?_references, Table.get?_eq_some]

theorem entries_once : ((context.plan providers policy).entries.map Prod.fst).Nodup :=
  (entries_perm.map Prod.fst).nodup_iff.mpr context.references.keys_distinct

theorem variables_covered : (context.constants.keys ++ (context.plan providers policy).entries.map Prod.fst).Perm
    context.bindings.keys := by
  refine ((entries_perm.map Prod.fst).append_left _).trans ?_
  have apart : ∀ name ∈ context.constants.keys, ∀ other ∈ context.references.keys, name ≠ other := by
    intro name constant other reference same
    subst same
    obtain ⟨value, held⟩ := Table.mem_keys.mp constant
    obtain ⟨meaning, found⟩ := Table.mem_keys.mp reference
    rw [get?_constants] at held
    rw [get?_references, held] at found
    cases found
  have distinct := List.nodup_append.mpr ⟨context.constants.keys_nodup, context.references.keys_nodup, apart⟩
  refine (List.perm_ext_iff_of_nodup distinct context.bindings.keys_nodup).mpr fun name => ?_
  simp only [List.mem_append, Table.mem_keys, get?_constants, Prod.exists, get?_references]
  constructor
  · intro given
    rcases given with ⟨value, held⟩ | ⟨service, field, held⟩
    · exact ⟨_, held⟩
    · exact ⟨_, held⟩
  · intro given
    obtain ⟨meaning, held⟩ := given
    cases meaning with
    | constant value => exact Or.inl ⟨value, held⟩
    | reference service field => exact Or.inr ⟨service, field, held⟩

end Fields

section Services

theorem childrenOf_order (parent : String) : (context.childrenOf parent).Sublist context.services.keys := by
  unfold childrenOf Table.getD children
  rw [Table.get?_mapRows]
  cases context.services.get? parent with
  | none => simp
  | some service =>
    rw [← parents_keys]
    exact List.filter_sublist.map Prod.fst

theorem root_unlisted (declared : context.Declared) :
    context.Root name ↔ name ∈ context.children.keys ∧ ∀ parent, name ∉ context.childrenOf parent := by
  rw [Root, children_keys]
  refine and_congr_right fun known => forall_congr' fun parent => not_congr ?_
  rw [mem_childrenOf]
  exact ⟨fun feeds => ⟨feeds_parent declared feeds, feeds⟩, And.right⟩

theorem ground_iff (timely : context.Timely providers (context.plan providers policy)) :
    (context.plan providers policy).Places 0 name ↔ context.Root name := by
  cases strategy : policy.levels with
  | singleHop =>
    rw [places_hopped timely.declared timely.settled strategy, ← mem_frontierAfter timely.declared, root_iff]
    rfl
  | longestPath =>
    rw [places_waited timely.declared timely.settled strategy, Root]
    refine and_congr_right fun known => ⟨fun low parent feeds => ?_, fun orphan => ?_⟩
    · have higher := rank_lt_of_ancestor timely.settled (.single feeds)
      omega
    · cases context.rank_attained name with
      | inl lowest => exact lowest
      | inr attained =>
        obtain ⟨parent, feeds, _⟩ := attained
        exact absurd feeds (orphan parent)

end Services

theorem build_inverted (accepted : Plan.build context providers policy = .ok plan) :
    context.Inverted providers policy plan := by
  obtain ⟨rfl, timely⟩ := build_timely accepted
  have declared := timely.declared
  constructor
  case listed => exact fun service field name => mem_fieldTable
  case order => exact fields_order
  case once => exact entries_once
  case references => exact fun name service field => mem_entries
  case owners => exact fun service => mem_owners
  case outputs => exact fun service field => mem_outputs
  case constants => exact fun name value => get?_constants
  case covered => exact variables_covered
  case services => exact children_keys
  case children =>
    intro parent child
    refine mem_childrenOf.trans ⟨And.right, fun feeds => ⟨feeds_parent declared feeds, feeds⟩⟩
  case brood => exact fun parent => ⟨nodup_childrenOf parent, childrenOf_order parent⟩
  case roots =>
    intro strategy
    have rebuilt := build_levels accepted strategy
    refine ⟨_, rebuilt, rfl, fun name => ?_⟩
    exact (ground_iff (build_timely rebuilt).2).trans (root_unlisted declared)

end Context

def transfer : Context where
  bindings := Table.ofList [("end", .reference "back" "goal"), ("start", .constant "Oslo"),
    ("stop", .reference "out" "goal"), ("price", .reference "out" "fare"), ("port", .reference "out" "goal")]
  services := Table.ofList [("back", ⟨"Trip", [⟨"from", "stop"⟩, ⟨"by", "port"⟩, ⟨"over", "stop"⟩]⟩),
    ("out", ⟨"Trip", [⟨"from", "start"⟩]⟩), ("walk", ⟨"Ferry", [⟨"from", "home"⟩]⟩)]

theorem transfer_inverted : ∃ plan, Plan.build transfer seaways .standard = .ok plan ∧
    plan.fields.getD "out" ∅ = Table.ofList [("goal", ["stop", "port"]), ("fare", ["price"])] ∧
    plan.children = Table.ofList [("back", []), ("out", ["back"]), ("walk", [])] ∧
    transfer.Inverted seaways .standard plan :=
  ⟨_, rfl, by decide +kernel, by decide +kernel,
    Context.build_inverted (show Plan.build transfer seaways .standard = .ok _ from rfl)⟩

end WiredViews
