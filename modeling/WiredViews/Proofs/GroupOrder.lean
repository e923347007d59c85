import WiredViews.Proofs.LevelBatches

namespace WiredViews

-- The first items of all keys, key by key as the keys first come, stand in the order of the list.
theorem firsts_sublist {ι κ : Type} [DecidableEq κ] (key : ι → κ) (items : List ι) :
    ((distinct (items.map key)).filterMap fun k => (items.filter fun item => key item = k).head?).Sublist items := by
  induction items with
  | nil => simp [distinct]
  | cons first rest ih =>
    have here : ((first :: rest).filter fun item => key item = key first).head? = some first := by simp
    have later : ∀ k ∈ (distinct (rest.map key)).filter (· ≠ key first),
        ((first :: rest).filter fun item => key item = k).head? = (rest.filter fun item => key item = k).head? := by
      intro k listed
      have differ : k ≠ key first := by simpa using (List.mem_filter.mp listed).2
      rw [List.filter_cons_of_neg (by simpa using Ne.symm differ)]
    rw [List.map_cons, distinct, List.filterMap_cons]
    simp only [here]
    rw [List.filterMap_congr later]
    apply List.Sublist.cons_cons
    exact (List.filter_sublist.filterMap _).trans ih

namespace Context
variable {context : Context} {providers : Providers} {policy : Policy}

structure Grouped (context : Context) (level : Level) : Prop where
  once : level.names.Nodup
  single : (level.groups.map Group.provider).Nodup
  serving : ∀ provider, (∃ group ∈ level.groups, group.provider = provider) ↔
    ∃ name ∈ level.names, context.providerOf name = some provider
  services : ∀ group ∈ level.groups, group.names =
    context.services.keys.filter fun name => name ∈ level.names ∧ context.providerOf name = some group.provider
  members : ∀ group ∈ level.groups, ∀ member ∈ group.members,
    context.services.get? member.name = some ⟨group.provider, member.dependencies⟩
  order : (level.groups.filterMap fun group => group.names.head?).Sublist context.services.keys

theorem groups_firsts (names : List String) :
    ((context.groupServices names).filterMap fun group => group.names.head?).Sublist names := by
  have firsts := (firsts_sublist Prod.fst (names.filterMap context.entry?)).map fun entry => entry.2.name
  rw [List.map_filterMap] at firsts
  rw [groupServices_eq, List.filterMap_map]
  simp only [Function.comp_def, Group.names, List.head?_map, Option.map_map]
  exact firsts.trans (entries_names names)

section Level
variable {count : Nat} {level : Level}

theorem level_firsts (place : (context.plan providers policy).levels[count]? = some level) :
    (level.groups.filterMap fun group => group.names.head?).Sublist context.services.keys := by
  obtain ⟨names, found, same⟩ := level_grouped place
  rw [same]
  exact (groups_firsts names).trans (levelNames_ordered (List.mem_of_getElem? found))

theorem level_serving (place : (context.plan providers policy).levels[count]? = some level) {provider : String} :
    (∃ group ∈ level.groups, group.provider = provider) ↔
      ∃ name ∈ level.names, context.providerOf name = some provider := by
  obtain ⟨names, found, same⟩ := level_grouped place
  have declared : ∀ name ∈ names, name ∈ context.services.keys :=
    fun name => levelNames_declared (List.mem_of_getElem? found)
  have groups : (∃ group ∈ level.groups, group.provider = provider) ↔
      ∃ entry ∈ names.filterMap context.entry?, entry.1 = provider := by
    simp only [same, groupServices_eq, List.mem_map, exists_exists_and_eq_and, mem_distinct]
  rw [groups, Level.names, same]
  constructor
  · intro given
    obtain ⟨entry, listed, rfl⟩ := given
    obtain ⟨name, place, entered⟩ := List.mem_filterMap.mp listed
    obtain ⟨rfl, held⟩ := entry?_eq_some.mp entered
    exact ⟨_, (mem_level_names declared).mpr place, by rw [providerOf, held, Option.map_some]⟩
  · intro given
    obtain ⟨name, named, owner⟩ := given
    obtain ⟨service, held, rfl⟩ := Option.map_eq_some_iff.mp owner
    exact ⟨(service.provider, ⟨name, service.dependencies⟩),
      List.mem_filterMap.mpr ⟨name, (mem_level_names declared).mp named, entry?_eq_some.mpr ⟨rfl, held⟩⟩, rfl⟩

theorem Timely.grouped (timely : context.Timely providers (context.plan providers policy))
    (place : (context.plan providers policy).levels[count]? = some level) : context.Grouped level := by
  constructor
  case once => exact timely.once count level place
  case single => exact level_providers place
  case serving => exact fun provider => level_serving place
  case services =>
    intro group grouped
    rw [group_due place grouped, due]
    simp only [List.not_mem_nil, not_false_eq_true, and_true]
  case members => exact fun group grouped member listed => (timely.placed count level place group grouped member listed).1
  case order => exact level_firsts place

end Level
end Context
end WiredViews
