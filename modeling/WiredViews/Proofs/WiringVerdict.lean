import WiredViews.Proofs.FirstItem
import WiredViews.Proofs.LevelPlaces

-- Which contexts can be planned, and what is said against the others. The conditions
-- are stated on the context; none of them mentions a table made while planning.
namespace WiredViews

namespace Context
variable {context : Context} {providers : Providers} {policy : Policy}

def ProvidersKnown (context : Context) (providers : Providers) : Prop :=
  ∀ row ∈ context.services.rows, row.2.provider ∈ providers.keys

def Supplied (context : Context) (provider argument : String) : Prop :=
  ∃ row ∈ context.services.rows, row.2.provider = provider ∧
    ∃ dependency ∈ row.2.dependencies, dependency.argument = argument

def Short (context : Context) (name : String) (provider : Provider) : Prop :=
  ∃ argument ∈ provider.model.keys, ¬ context.Supplied name argument

def Checked (context : Context) (policy : Policy) (name : String) (provider : Provider) : Prop :=
  if policy.checkUnused then provider.reserved = false
  else ∃ row ∈ context.services.rows, row.2.provider = name

def Wired (context : Context) (providers : Providers) (policy : Policy) : Prop :=
  ∀ name provider, providers.get? name = some provider → context.Checked policy name provider →
    ¬ context.Short name provider

def FirstUnknown (context : Context) (providers : Providers) (service provider : String) : Prop :=
  ∃ held, IsFirst (fun row : String × Service => row.2.provider ∉ providers.keys) context.services.rows
    (service, held) ∧ held.provider = provider

def FirstUndeclared (context : Context) (reference service : String) : Prop :=
  ∃ field, IsFirst (fun row : String × Variable =>
    ∃ service field, row.2 = .reference service field ∧ service ∉ context.services.keys)
      context.bindings.rows (reference, .reference service field)

-- The first of the checked providers that is short of an argument: in the order of the
-- providers, or in that of the services if only used providers are checked.
def FirstShort (context : Context) (providers : Providers) (policy : Policy) (name : String)
    (provider : Provider) : Prop :=
  if policy.checkUnused then
    IsFirst (fun row : String × Provider => row.2.reserved = false ∧ context.Short row.1 row.2)
      providers.rows (name, provider)
  else
    providers.get? name = some provider ∧ ∃ service, IsFirst (fun row : String × Service =>
      ∃ provider, providers.get? row.2.provider = some provider ∧ context.Short row.2.provider provider)
        context.services.rows service ∧ service.2.provider = name

def FirstUnwired (context : Context) (providers : Providers) (policy : Policy)
    (name argument : String) : Prop :=
  ∃ provider, context.FirstShort providers policy name provider ∧
    IsFirst (fun argument => ¬ context.Supplied name argument) provider.model.keys argument

def Trapped (context : Context) (name : String) : Prop :=
  context.OnCycle name ∨ ∃ looped, context.OnCycle looped ∧ context.Ancestor looped name

-- What planning comes to. Every check comes after those above it have found nothing.
inductive Verdict (context : Context) (providers : Providers) (policy : Policy) :
    Except WiringError Plan → Prop where
  | unknownProvider {service provider : String} (first : context.FirstUnknown providers service provider) :
      Verdict context providers policy (.error (.unknownProvider service provider))
  | unknownService {reference service : String} (known : context.ProvidersKnown providers)
      (first : context.FirstUndeclared reference service) :
      Verdict context providers policy (.error (.unknownService reference service))
  | missingWiring {provider argument : String} (known : context.ProvidersKnown providers)
      (declared : context.Declared) (first : context.FirstUnwired providers policy provider argument) :
      Verdict context providers policy (.error (.missingWiring provider argument))
  | cycle {names : List String} (known : context.ProvidersKnown providers) (declared : context.Declared)
      (wired : context.Wired providers policy) (looped : ∃ name, context.OnCycle name)
      (sorted : names.Pairwise (· ≤ ·)) (distinct : names.Nodup)
      (trapped : ∀ name, name ∈ names ↔ context.Trapped name) :
      Verdict context providers policy (.error (.cycle names))
  | planned (known : context.ProvidersKnown providers) (declared : context.Declared)
      (wired : context.Wired providers policy) (acyclic : ∀ name, ¬ context.OnCycle name) :
      Verdict context providers policy (.ok (context.plan providers policy))

theorem unknownProvider?_eq_some {error : WiringError} :
    context.unknownProvider? providers = some error ↔
      ∃ service provider, error = .unknownProvider service provider ∧
        context.FirstUnknown providers service provider := by
  unfold unknownProvider? FirstUnknown
  rw [Option.map_eq_some_iff]
  have tests : ∀ row : String × Service,
      (!providers.contains row.2.provider) = true ↔ row.2.provider ∉ providers.keys := by
    intro row
    rw [Table.mem_keys, ← Table.contains_iff]
    simp
  simp only [find?_eq_first tests]
  constructor
  · intro given
    obtain ⟨⟨service, held⟩, first, rfl⟩ := given
    exact ⟨service, held.provider, rfl, held, first, rfl⟩
  · intro given
    obtain ⟨service, _, rfl, held, first, rfl⟩ := given
    exact ⟨(service, held), first, rfl⟩

theorem unknownService?_eq_some {error : WiringError} :
    context.unknownService? = some error ↔
      ∃ reference service, error = .unknownService reference service ∧
        context.FirstUndeclared reference service := by
  unfold unknownService? FirstUndeclared
  rw [Option.map_eq_some_iff]
  have tests : ∀ row : String × String × String,
      (!context.services.contains row.2.1) = true ↔ row.2.1 ∉ context.services.keys := by
    intro row
    rw [Table.mem_keys, ← Table.contains_iff]
    simp
  have reads : ∀ (row : String × Variable) (found : String × String × String),
      (row.2.reference?).map (row.1, ·) = some found ↔ row = (found.1, .reference found.2.1 found.2.2) := by
    rintro ⟨name, meaning⟩ ⟨other, service, field⟩
    cases meaning <;> simp [Variable.reference?]
  have same : ∀ row : String × Variable,
      (∃ found : String × String × String, row = (found.1, .reference found.2.1 found.2.2) ∧
        found.2.1 ∉ context.services.keys) ↔
      ∃ service field, row.2 = .reference service field ∧ service ∉ context.services.keys := by
    intro given
    obtain ⟨name, meaning⟩ := given
    constructor
    · intro given
      obtain ⟨⟨_, service, field⟩, equal, absent⟩ := given
      exact ⟨service, field, congrArg Prod.snd equal, absent⟩
    · intro given
      obtain ⟨service, field, equal, absent⟩ := given
      exact ⟨(name, service, field), by rw [← equal], absent⟩
  simp only [find?_eq_first tests, references, Table.filterMapRows, isFirst_filterMap, reads, same]
  constructor
  · intro given
    obtain ⟨⟨reference, service, field⟩, ⟨row, first, rfl⟩, rfl⟩ := given
    exact ⟨reference, service, rfl, field, first⟩
  · intro given
    obtain ⟨reference, service, rfl, field, first⟩ := given
    exact ⟨(reference, service, field), ⟨_, first, rfl⟩, rfl⟩

theorem supplies_iff {provider argument : String} :
    context.supplies provider argument = true ↔ context.Supplied provider argument := by
  unfold supplies Supplied Table.values
  simp only [List.any_map, List.any_eq_true, Function.comp_apply, Bool.and_eq_true, beq_iff_eq]

theorem missingArgument?_eq_some {name argument : String} :
    context.missingArgument? providers name = some argument ↔
      ∃ provider, providers.get? name = some provider ∧
        IsFirst (fun argument => ¬ context.Supplied name argument) provider.model.keys argument := by
  have tests : ∀ argument, (!context.supplies name argument) = true ↔ ¬ context.Supplied name argument := by
    intro argument
    rw [← supplies_iff]
    simp
  unfold missingArgument?
  cases providers.get? name with
  | none => simp
  | some provider => simp [find?_eq_first tests]

theorem exists_missingArgument? {name : String} :
    (∃ argument, context.missingArgument? providers name = some argument) ↔
      ∃ provider, providers.get? name = some provider ∧ context.Short name provider := by
  simp only [missingArgument?_eq_some]
  constructor
  · intro given
    obtain ⟨argument, provider, held, first⟩ := given
    exact ⟨provider, held, exists_isFirst.mp ⟨argument, first⟩⟩
  · intro given
    obtain ⟨provider, held, short⟩ := given
    obtain ⟨argument, first⟩ := exists_isFirst.mpr short
    exact ⟨argument, provider, held, first⟩

theorem firstShort_iff {name : String} {provider : Provider} :
    context.FirstShort providers policy name provider ↔ providers.get? name = some provider ∧
      IsFirst (fun name => ∃ provider, providers.get? name = some provider ∧ context.Short name provider)
        (context.checkedProviders providers policy) name := by
  unfold FirstShort checkedProviders
  split
  · simp only [isFirst_map, isFirst_filter, Bool.not_eq_true']
    -- In its own table a provider is found under the name of its row.
    have same : ∀ row ∈ providers.rows,
        ((∃ provider, providers.get? row.1 = some provider ∧ context.Short row.1 provider) ↔
          context.Short row.1 row.2) := by
      intro row member
      rw [Table.get?_eq_some.mpr (show (row.1, row.2) ∈ providers.rows from member)]
      simp
    constructor
    · intro given
      obtain ⟨before, after, equal, ⟨unreserved, short⟩, earlier⟩ := given
      have member : (name, provider) ∈ providers.rows := by simp [equal]
      have held := Table.get?_eq_some.mpr member
      refine ⟨held, (name, provider), ⟨before, after, equal, ⟨unreserved, provider, held, short⟩, ?_⟩, rfl⟩
      rintro other listed ⟨unreserved, short⟩
      exact earlier other listed ⟨unreserved, (same other (by simp [equal, listed])).mp short⟩
    · intro given
      obtain ⟨held, ⟨owner, found⟩, ⟨before, after, equal, ⟨unreserved, short⟩, earlier⟩, rfl⟩ := given
      have member : (owner, found) ∈ providers.rows := by rw [equal]; simp
      have equalProvider : found = provider := by
        rw [Table.get?_eq_some.mpr member] at held
        exact Option.some.inj held
      subst equalProvider
      refine ⟨before, after, equal, ⟨unreserved, (same _ member).mp short⟩, ?_⟩
      rintro other listed ⟨unreserved, short⟩
      exact earlier other listed ⟨unreserved, (same other (by simp [equal, listed])).mpr short⟩
  · unfold usedProviders Table.values
    rw [isFirst_distinct, isFirst_map]
    simp only [isFirst_map]
    constructor
    · intro given
      obtain ⟨held, row, first, rfl⟩ := given
      exact ⟨held, row.2, ⟨row, first, rfl⟩, rfl⟩
    · intro given
      obtain ⟨held, _, ⟨row, first, rfl⟩, rfl⟩ := given
      exact ⟨held, row, first, rfl⟩

theorem missingWiring?_eq_some {error : WiringError} :
    context.missingWiring? providers policy = some error ↔
      ∃ provider argument, error = .missingWiring provider argument ∧
        context.FirstUnwired providers policy provider argument := by
  unfold missingWiring? FirstUnwired
  rw [findSome?_eq_first]
  have some_found : ∀ name, (∃ found, (context.missingArgument? providers name).map
      (WiringError.missingWiring name) = some found) ↔
      ∃ provider, providers.get? name = some provider ∧ context.Short name provider := by
    intro name
    rw [← exists_missingArgument?]
    cases context.missingArgument? providers name <;> simp
  simp only [some_found, firstShort_iff]
  simp only [Option.map_eq_some_iff, missingArgument?_eq_some]
  constructor
  · intro given
    obtain ⟨name, first, argument, ⟨provider, held, missing⟩, rfl⟩ := given
    exact ⟨name, argument, rfl, provider, ⟨held, first⟩, missing⟩
  · intro given
    obtain ⟨name, argument, rfl, provider, ⟨held, first⟩, missing⟩ := given
    exact ⟨name, first, argument, ⟨provider, held, missing⟩, rfl⟩

theorem mem_checkedProviders {name : String} {provider : Provider}
    (held : providers.get? name = some provider) :
    name ∈ context.checkedProviders providers policy ↔ context.Checked policy name provider := by
  unfold checkedProviders Checked
  split
  · simp only [List.mem_map, List.mem_filter, Bool.not_eq_true']
    constructor
    · intro given
      obtain ⟨row, ⟨member, unreserved⟩, rfl⟩ := given
      rw [Table.get?_eq_some.mpr (show (row.1, row.2) ∈ providers.rows from member)] at held
      rwa [← Option.some.inj held]
    · intro unreserved
      exact ⟨(name, provider), ⟨Table.get?_eq_some.mp held, unreserved⟩, rfl⟩
  · unfold usedProviders Table.values
    rw [mem_distinct, List.map_map, List.mem_map]
    rfl

theorem checked_known (known : context.ProvidersKnown providers) {name : String}
    (checked : name ∈ context.checkedProviders providers policy) : name ∈ providers.keys := by
  unfold checkedProviders at checked
  split at checked
  · obtain ⟨row, kept, rfl⟩ := List.mem_map.mp checked
    exact List.mem_map_of_mem (List.mem_filter.mp kept).1
  · unfold usedProviders Table.values at checked
    rw [mem_distinct, List.map_map, List.mem_map] at checked
    obtain ⟨row, member, rfl⟩ := checked
    exact known row member

theorem unknownProvider?_eq_none :
    context.unknownProvider? providers = none ↔ context.ProvidersKnown providers := by
  rw [Option.eq_none_iff_forall_ne_some]
  constructor
  · intro none row member
    by_contra unknown
    have some_unknown : ∃ row ∈ context.services.rows, row.2.provider ∉ providers.keys :=
      ⟨row, member, unknown⟩
    obtain ⟨⟨service, held⟩, first⟩ := exists_isFirst.mpr some_unknown
    exact none _ (unknownProvider?_eq_some.mpr ⟨service, held.provider, rfl, held, first, rfl⟩)
  · intro known error found
    obtain ⟨_, _, _, held, first, _⟩ := unknownProvider?_eq_some.mp found
    obtain ⟨row, member, unknown⟩ := exists_isFirst.mp ⟨_, first⟩
    exact unknown (known row member)

theorem unknownService?_eq_none : context.unknownService? = none ↔ context.Declared := by
  rw [Option.eq_none_iff_forall_ne_some]
  constructor
  · intro none name service field held
    by_contra absent
    have some_absent : ∃ row ∈ context.bindings.rows,
        ∃ service field, row.2 = .reference service field ∧ service ∉ context.services.keys :=
      ⟨_, Table.get?_eq_some.mp held, service, field, rfl, absent⟩
    obtain ⟨⟨reference, meaning⟩, first⟩ := exists_isFirst.mpr some_absent
    have dangling := first
    obtain ⟨_, _, _, ⟨owner, output, rfl, _⟩, _⟩ := dangling
    exact none _ (unknownService?_eq_some.mpr ⟨reference, owner, rfl, output, first⟩)
  · intro declared error found
    obtain ⟨_, _, _, _, first⟩ := unknownService?_eq_some.mp found
    obtain ⟨row, member, service, field, equal, absent⟩ := exists_isFirst.mp ⟨_, first⟩
    exact absent (declared row.1 service field (Table.get?_eq_some.mpr (equal ▸ member)))

theorem missingWiring?_eq_none :
    context.missingWiring? providers policy = none ↔ context.Wired providers policy := by
  rw [Option.eq_none_iff_forall_ne_some]
  constructor
  · intro none name provider held checked short
    have some_short : ∃ name ∈ context.checkedProviders providers policy,
        ∃ provider, providers.get? name = some provider ∧ context.Short name provider :=
      ⟨name, (mem_checkedProviders held).mpr checked, provider, held, short⟩
    obtain ⟨other, first⟩ := exists_isFirst.mpr some_short
    have missing_there := first
    obtain ⟨_, _, _, ⟨found, heldOther, shortOther⟩, _⟩ := missing_there
    obtain ⟨argument, missing⟩ := exists_isFirst.mpr shortOther
    exact none _ (missingWiring?_eq_some.mpr
      ⟨other, argument, rfl, found, firstShort_iff.mpr ⟨heldOther, first⟩, missing⟩)
  · intro wired error found
    obtain ⟨name, _, _, provider, short, missing⟩ := missingWiring?_eq_some.mp found
    obtain ⟨held, first⟩ := firstShort_iff.mp short
    have member : name ∈ context.checkedProviders providers policy := by
      obtain ⟨before, after, equal, _, _⟩ := first
      simp [equal]
    exact wired name provider held ((mem_checkedProviders held).mp member) (exists_isFirst.mp ⟨_, missing⟩)

theorem sortedNames_iff {names items : List String} (distinct : items.Nodup) :
    names = sortedNames items ↔
      names.Pairwise (· ≤ ·) ∧ names.Nodup ∧ ∀ name, name ∈ names ↔ name ∈ items := by
  have sorted : (sortedNames items).Pairwise (· ≤ ·) := by
    have ordered : (items.mergeSort fun left right => decide (left ≤ right)).Pairwise
        fun left right => decide (left ≤ right) = true := by
      refine List.pairwise_mergeSort (fun a b c first second => ?_) (fun a b => ?_) items
      · exact decide_eq_true (String.le_trans (of_decide_eq_true first) (of_decide_eq_true second))
      · simpa using String.le_total a b
    exact ordered.imp fun below => of_decide_eq_true below
  have perm : (sortedNames items).Perm items := List.mergeSort_perm _ _
  constructor
  · rintro rfl
    exact ⟨sorted, perm.nodup_iff.mpr distinct, fun name => perm.mem_iff⟩
  · intro given
    obtain ⟨ordered, once, same⟩ := given
    have equal := (List.perm_ext_iff_of_nodup once distinct).mpr same
    exact (equal.trans perm.symm).eq_of_pairwise (fun a b _ _ => String.le_antisymm) ordered sorted

theorem unresolved_nodup : context.unresolved.Nodup :=
  context.rankingEnd.pending.keys_distinct.sublist (List.filter_sublist.map Prod.fst)

theorem mem_unresolved_iff_trapped (declared : context.Declared) {name : String} :
    name ∈ context.unresolved ↔ context.Trapped name := by
  rw [mem_unresolved declared]
  constructor
  · intro given
    obtain ⟨looped, cycle, rfl | chain⟩ := given
    · exact Or.inl cycle
    · exact Or.inr ⟨looped, cycle, chain⟩
  · intro given
    rcases given with cycle | ⟨looped, cycle, chain⟩
    · exact ⟨name, cycle, Or.inl rfl⟩
    · exact ⟨looped, cycle, Or.inr chain⟩

theorem cycle?_eq_none (declared : context.Declared) :
    context.cycle? = none ↔ ∀ name, ¬ context.OnCycle name := by
  rw [← unresolved_eq_nil declared]
  unfold cycle?
  split <;> simp_all

theorem cycle?_eq_some (declared : context.Declared) {error : WiringError} :
    context.cycle? = some error ↔ ∃ names, error = .cycle names ∧ (∃ name, context.OnCycle name) ∧
      names.Pairwise (· ≤ ·) ∧ names.Nodup ∧ ∀ name, name ∈ names ↔ context.Trapped name := by
  have looped : context.unresolved ≠ [] ↔ ∃ name, context.OnCycle name := by
    rw [ne_eq, unresolved_eq_nil declared]
    push Not
    rfl
  have reported : context.cycle? = some error ↔
      context.unresolved ≠ [] ∧ error = .cycle (sortedNames context.unresolved) := by
    unfold cycle?
    split
    · rename_i none
      simp [none]
    · rename_i stuck
      constructor
      · intro found
        exact ⟨stuck, (Option.some.inj found).symm⟩
      · intro given
        obtain ⟨_, rfl⟩ := given
        rfl
  simp only [← mem_unresolved_iff_trapped declared, ← sortedNames_iff unresolved_nodup, ← looped]
  rw [reported]
  constructor
  · intro given
    obtain ⟨stuck, rfl⟩ := given
    exact ⟨_, rfl, stuck, rfl⟩
  · intro given
    obtain ⟨_, rfl, stuck, rfl⟩ := given
    exact ⟨stuck, rfl⟩

theorem build_verdict : Verdict context providers policy (Plan.build context providers policy) := by
  unfold Plan.build wiringError?
  cases unknown : context.unknownProvider? providers with
  | some error =>
    obtain ⟨service, provider, rfl, first⟩ := unknownProvider?_eq_some.mp unknown
    exact .unknownProvider first
  | none =>
    have known := unknownProvider?_eq_none.mp unknown
    cases undeclared : context.unknownService? with
    | some error =>
      obtain ⟨reference, service, rfl, first⟩ := unknownService?_eq_some.mp undeclared
      exact .unknownService known first
    | none =>
      have declared := unknownService?_eq_none.mp undeclared
      cases unwired : context.missingWiring? providers policy with
      | some error =>
        obtain ⟨provider, argument, rfl, first⟩ := missingWiring?_eq_some.mp unwired
        exact .missingWiring known declared first
      | none =>
        have wired := missingWiring?_eq_none.mp unwired
        cases stuck : context.cycle? with
        | some error =>
          obtain ⟨names, rfl, looped, sorted, distinct, trapped⟩ := (cycle?_eq_some declared).mp stuck
          exact .cycle known declared wired looped sorted distinct trapped
        | none => exact .planned known declared wired ((cycle?_eq_none declared).mp stuck)

theorem verdict_build {outcome : Except WiringError Plan}
    (verdict : Verdict context providers policy outcome) : Plan.build context providers policy = outcome := by
  unfold Plan.build wiringError?
  cases verdict with
  | @unknownProvider service provider first =>
    rw [unknownProvider?_eq_some.mpr ⟨service, provider, rfl, first⟩]
    rfl
  | @unknownService reference service known first =>
    rw [unknownProvider?_eq_none.mpr known, unknownService?_eq_some.mpr ⟨reference, service, rfl, first⟩]
    rfl
  | @missingWiring provider argument known declared first =>
    rw [unknownProvider?_eq_none.mpr known, unknownService?_eq_none.mpr declared,
      missingWiring?_eq_some.mpr ⟨provider, argument, rfl, first⟩]
    rfl
  | @cycle names known declared wired looped sorted distinct trapped =>
    rw [unknownProvider?_eq_none.mpr known, unknownService?_eq_none.mpr declared,
      missingWiring?_eq_none.mpr wired,
      (cycle?_eq_some declared).mpr ⟨names, rfl, looped, sorted, distinct, trapped⟩]
    rfl
  | planned known declared wired acyclic =>
    rw [unknownProvider?_eq_none.mpr known, unknownService?_eq_none.mpr declared,
      missingWiring?_eq_none.mpr wired, (cycle?_eq_none declared).mpr acyclic]
    rfl

end Context
end WiredViews
