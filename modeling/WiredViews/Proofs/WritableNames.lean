import WiredViews.Proofs.RegistryHistory
import WiredViews.Proofs.Reordering
import WiredViews.Proofs.SpelledTemplate
import WiredViews.Proofs.WellFormedTemplates

-- Which registered names a template can write, and when any template at all can be planned with
-- the providers. A registered name may have a line feed behind it, and such a name no template
-- can write.
namespace WiredViews

def OnLine (grammar : List Char → Bool) (name : String) : Prop :=
  ∃ word, grammar word = true ∧ (name.toList = word ∨ name.toList = word ++ ['\n'])

def Servable (name : String) (arguments : List String) : Prop :=
  ∃ text template, Template.read text = .ok template ∧ ∃ row ∈ template.context.services.rows,
    row.2.provider = name ∧ ∀ argument ∈ arguments, ∃ dependency ∈ row.2.dependencies, dependency.argument = argument

def Compilable (providers : Providers) (policy : Policy) : Prop :=
  ∃ text template plan, Template.read text = .ok template ∧ Plan.build template.context providers policy = .ok plan

-- How far the names in a registry are names that templates can write. Only providers with
-- arguments have to be written, and only if unused providers are checked.
structure Providers.Writable (providers : Providers) : Prop where
  names : ∀ name ∈ providers.keys, OnLine isProviderName name ∧ (isProviderName name.toList = true ↔ '\n' ∉ name.toList)
  arguments : ∀ name provider, providers.get? name = some provider → ∀ argument ∈ provider.model.keys,
    OnLine isName argument ∧ (isName argument.toList = true ↔ '\n' ∉ argument.toList)
  servable : ∀ name provider, providers.get? name = some provider → ∀ arguments ⊆ provider.model.keys,
    (Servable name arguments ↔ '\n' ∉ name.toList ∧ ∀ argument ∈ arguments, '\n' ∉ argument.toList)
  compilable : ∀ policy, Compilable providers policy ↔ (policy.checkUnused = true →
    ∀ name provider, providers.get? name = some provider → ∀ argument ∈ provider.model.keys,
      '\n' ∉ name.toList ∧ '\n' ∉ argument.toList)

section Lines
variable {grammar : List Char → Bool} {name : String}

theorem fitsLine_iff : fitsLine grammar name = true ↔ OnLine grammar name := by
  unfold fitsLine OnLine
  simp only [Bool.or_eq_true, Bool.and_eq_true, beq_iff_eq]
  constructor
  · intro given
    rcases given with whole | ⟨feed, cut⟩
    · exact ⟨name.toList, whole, Or.inl rfl⟩
    · obtain ⟨word, spelled⟩ := List.getLast?_eq_some_iff.mp feed
      rw [spelled, List.dropLast_concat] at cut
      exact ⟨word, cut, Or.inr spelled⟩
  · intro given
    obtain ⟨word, fits, spelled | spelled⟩ := given
    · exact Or.inl (spelled ▸ fits)
    · exact Or.inr (by simp [spelled, fits])

theorem OnLine.whole (unbroken : grammar name.toList = true → '\n' ∉ name.toList) (line : OnLine grammar name) :
    grammar name.toList = true ↔ '\n' ∉ name.toList := by
  refine ⟨unbroken, fun plain => ?_⟩
  obtain ⟨word, fits, spelled | spelled⟩ := line
  · rwa [spelled]
  · rw [spelled] at plain
    simp at plain

end Lines

section Asking

def serial (number : Nat) : String :=
  String.ofList (List.replicate (number + 1) 'a')

def demand (name : String) (arguments : List String) : Service :=
  ⟨name, (distinct arguments).map fun argument => ⟨argument, "a"⟩⟩

-- A template that consists of services and one empty view. It has no variables at all, so no
-- service waits for another.
def Template.asking (services : List Service) : Template :=
  { Session.bareTemplate with
    context := ⟨∅, Table.ofList (((List.range services.length).map serial).zip services)⟩ }

variable {services : List Service} {name : String} {arguments : List String}

theorem serial_injective : Function.Injective serial := by
  intro number other same
  have length := congrArg (fun name => name.toList.length) same
  simpa [serial] using length

theorem serial_declarable (number : Nat) : Declarable (serial number) := by
  rw [declarable_iff, serial, String.toList_ofList, List.replicate_succ]
  refine ⟨?_, rfl⟩
  rw [isName_iff]
  refine ⟨'a', _, rfl, by decide, fun c listed => ?_⟩
  rw [List.eq_of_mem_replicate listed]
  decide

theorem demand_spellable (provider : isProviderName name.toList = true)
    (named : ∀ argument ∈ arguments, isName argument.toList = true) : (demand name arguments).Spellable := by
  constructor
  case provider => exact provider
  case dependencies =>
    unfold demand
    rw [List.forall_mem_map]
    exact fun argument listed => ⟨named argument (mem_distinct.mp listed), show isName "a".toList = true by decide⟩
  case distinct =>
    have own : (demand name arguments).dependencies.map Dependency.argument = distinct arguments := by
      simp [demand, Function.comp_def]
    rw [own]
    exact nodup_distinct arguments

theorem asking_rows : (Template.asking services).context.services.rows =
    ((List.range services.length).map serial).zip services := by
  refine (Table.rows_insertAll ?_ fun _ _ => by simp [Table.mem_keys]).trans (List.nil_append _)
  rw [List.map_fst_zip (by simp)]
  exact List.nodup_range.map serial_injective

theorem mem_asking {service : Service} :
    (∃ row ∈ (Template.asking services).context.services.rows, row.2 = service) ↔ service ∈ services := by
  rw [← List.mem_map, asking_rows, List.map_snd_zip (by simp)]

theorem asking_supplies (asked : demand name arguments ∈ services) :
    ∃ row ∈ (Template.asking services).context.services.rows, row.2.provider = name ∧
      ∀ argument ∈ arguments, ∃ dependency ∈ row.2.dependencies, dependency.argument = argument := by
  obtain ⟨row, listed, service⟩ := mem_asking.mpr asked
  refine ⟨row, listed, by rw [service, demand], fun argument wanted => ?_⟩
  rw [service]
  exact ⟨⟨argument, "a"⟩, List.mem_map_of_mem (mem_distinct.mpr wanted), rfl⟩

theorem asking_spellable (spellable : ∀ service ∈ services, service.Spellable) :
    (Template.asking services).Spellable := by
  constructor
  case context =>
    refine ⟨List.forall_mem_nil _, fun row listed => ?_⟩
    have asked := mem_asking.mp ⟨row, listed, rfl⟩
    rw [asking_rows] at listed
    obtain ⟨number, _, named⟩ := List.mem_map.mp (List.of_mem_zip listed).1
    exact ⟨named ▸ serial_declarable number, spellable row.2 asked⟩
  case views =>
    have views : (Template.asking services).views.rows = [(defaultViewName, ⟨.html, "", 2⟩)] := rfl
    rw [views, List.forall_mem_singleton]
    exact ⟨by decide, by decide, by decide +kernel⟩
  case some_view => exact List.cons_ne_nil _ _

theorem read_asking (spellable : ∀ service ∈ services, service.Spellable) :
    ∃ text template, Template.read text = .ok template ∧ template.context = (Template.asking services).context :=
  ⟨_, _, read_placed (asking_spellable spellable), rfl⟩

theorem servable_iff : Servable name arguments ↔
    isProviderName name.toList = true ∧ ∀ argument ∈ arguments, isName argument.toList = true := by
  constructor
  · intro given
    obtain ⟨text, template, read, row, listed, rfl, supplied⟩ := given
    have spellable := ((read_spellable read).services row listed).2
    refine ⟨spellable.provider, fun argument asked => ?_⟩
    obtain ⟨dependency, member, rfl⟩ := supplied argument asked
    exact (spellable.dependencies dependency member).argument
  · intro given
    obtain ⟨provider, named⟩ := given
    obtain ⟨text, template, read, same⟩ :=
      read_asking (List.forall_mem_singleton.mpr (demand_spellable provider named))
    exact ⟨text, template, read, same ▸ asking_supplies (List.mem_singleton_self _)⟩

end Asking

section Planning
variable {services : List Service} {providers : Providers} {policy : Policy} {name argument : String}

theorem asking_plannable (known : ∀ service ∈ services, service.provider ∈ providers.keys)
    (wired : (Template.asking services).context.Wired providers policy) :
    (Template.asking services).context.Plannable providers policy := by
  have unfed : ∀ parent child, ¬ (Template.asking services).context.Feeds parent child := by
    rintro parent child ⟨_, _, _, _, field, bound⟩
    cases bound
  constructor
  case known =>
    intro row listed
    exact known row.2 (mem_asking.mp ⟨row, listed, rfl⟩)
  case declared =>
    intro name service field bound
    cases bound
  case wired => exact wired
  case acyclic =>
    intro name looped
    obtain ⟨child, feeds, _⟩ := Relation.TransGen.head'_iff.mp looped
    exact unfed name child feeds

def demands (providers : Providers) : List Service :=
  (providers.rows.filter fun row => !row.2.model.keys.isEmpty).map fun row => demand row.1 row.2.model.keys

theorem mem_demands {service : Service} : service ∈ demands providers ↔
    ∃ name provider argument, providers.get? name = some provider ∧ argument ∈ provider.model.keys ∧
      service = demand name provider.model.keys := by
  simp only [demands, List.mem_map, List.mem_filter, Prod.exists, ← Table.get?_eq_some]
  constructor
  · intro given
    obtain ⟨name, provider, ⟨held, some⟩, rfl⟩ := given
    obtain ⟨argument, listed⟩ := List.exists_mem_of_ne_nil provider.model.keys (by simpa using some)
    exact ⟨name, provider, argument, held, listed, rfl⟩
  · intro given
    obtain ⟨name, provider, argument, held, listed, rfl⟩ := given
    exact ⟨name, provider, ⟨held, by simpa using List.ne_nil_of_mem listed⟩, rfl⟩

theorem demands_known : ∀ service ∈ demands providers, service.provider ∈ providers.keys := by
  intro service asked
  obtain ⟨name, provider, argument, held, listed, rfl⟩ := mem_demands.mp asked
  exact Table.mem_keys.mpr ⟨provider, held⟩

theorem demands_spellable (written : ∀ name provider, providers.get? name = some provider →
      ∀ argument ∈ provider.model.keys, isProviderName name.toList = true ∧ isName argument.toList = true) :
    ∀ service ∈ demands providers, service.Spellable := by
  intro service asked
  obtain ⟨name, provider, argument, held, listed, rfl⟩ := mem_demands.mp asked
  have named := written name provider held
  exact demand_spellable (named argument listed).1 fun other known => (named other known).2

theorem demands_wired : (Template.asking (demands providers)).context.Wired providers policy := by
  intro name provider held _ short
  obtain ⟨argument, listed, unsupplied⟩ := short
  have asked := mem_demands.mpr ⟨name, provider, argument, held, listed, rfl⟩
  obtain ⟨row, member, same, supplies⟩ := asking_supplies asked
  exact unsupplied ⟨row, member, same, supplies argument listed⟩

theorem idle_wired (unasked : policy.checkUnused = false) :
    (Template.asking []).context.Wired providers policy := by
  intro name provider _ checked
  rw [Context.Checked, if_neg (by simp [unasked])] at checked
  obtain ⟨row, listed, _⟩ := checked
  cases listed

theorem compilable_asking (spellable : ∀ service ∈ services, service.Spellable)
    (known : ∀ service ∈ services, service.provider ∈ providers.keys)
    (wired : (Template.asking services).context.Wired providers policy) : Compilable providers policy := by
  obtain ⟨text, template, read, same⟩ := read_asking spellable
  exact ⟨text, template, _, read, Context.build_accepts.mpr ⟨same ▸ asking_plannable known wired, rfl⟩⟩

theorem compilable_iff (reserved : ∀ name provider, providers.get? name = some provider →
      provider.reserved = true → provider.model.keys = []) :
    Compilable providers policy ↔ (policy.checkUnused = true → ∀ name provider, providers.get? name = some provider →
      ∀ argument ∈ provider.model.keys, isProviderName name.toList = true ∧ isName argument.toList = true) := by
  constructor
  · rintro ⟨text, template, plan, read, accepted⟩ unused name provider held argument listed
    have wired := (Context.build_accepts.mp accepted).1.wired
    have checked : template.context.Checked policy name provider := by
      rw [Context.Checked, if_pos unused]
      by_contra kept
      rw [reserved name provider held (Bool.not_eq_false _ ▸ kept)] at listed
      cases listed
    by_contra unwritten
    refine wired name provider held checked ⟨argument, listed, fun supplied => unwritten ?_⟩
    obtain ⟨row, member, same, supplies⟩ := supplied
    have served : Servable name [argument] := ⟨text, template, read, row, member, same, by simpa using supplies⟩
    simpa using servable_iff.mp served
  · intro written
    by_cases unused : policy.checkUnused = true
    · exact compilable_asking (demands_spellable (written unused)) demands_known demands_wired
    · exact compilable_asking (List.forall_mem_nil _) (List.forall_mem_nil _) (idle_wired (by simpa using unused))

end Planning

namespace Session
variable {session : Session} {registrations : List Registration} {policy : Policy} {name : String} {provider : Provider}

theorem Follows.named (follows : session.Follows registrations) (listed : name ∈ session.registry.snapshot.keys) :
    OnLine isProviderName name := by
  obtain ⟨provider, held⟩ := Table.mem_keys.mp listed
  rcases follows.admitted held with ⟨rfl, _⟩ | ⟨rows, admits, _⟩
  · exact ⟨systemName.toList, by decide, Or.inl rfl⟩
  · exact fitsLine_iff.mp admits.named

theorem Follows.arguments (follows : session.Follows registrations)
    (held : session.registry.snapshot.get? name = some provider) :
    ∀ argument ∈ provider.model.keys, OnLine isName argument := by
  rcases follows.admitted held with ⟨_, rfl⟩ | ⟨rows, admits, _⟩
  · exact List.forall_mem_nil _
  · exact fun argument listed => fitsLine_iff.mp (admits.arguments argument listed)

theorem Follows.compilable (follows : session.Follows registrations) :
    Compilable session.registry.snapshot policy ↔ (policy.checkUnused = true →
      ∀ name provider, session.registry.snapshot.get? name = some provider → ∀ argument ∈ provider.model.keys,
        isProviderName name.toList = true ∧ isName argument.toList = true) := by
  refine compilable_iff fun name provider held reserved => ?_
  rcases follows.admitted held with ⟨_, rfl⟩ | ⟨rows, _, registered⟩
  · rfl
  · rw [registered] at reserved
    cases reserved

theorem Follows.writable (follows : session.Follows registrations) : session.registry.snapshot.Writable := by
  have provider_whole : ∀ name ∈ session.registry.snapshot.keys,
      isProviderName name.toList = true ↔ '\n' ∉ name.toList :=
    fun name listed => (follows.named listed).whole plain_provider
  have argument_whole : ∀ name provider, session.registry.snapshot.get? name = some provider →
      ∀ argument ∈ provider.model.keys, isName argument.toList = true ↔ '\n' ∉ argument.toList :=
    fun name provider held argument listed =>
      (follows.arguments held argument listed).whole fun named => name_apart named '\n' (by decide)
  constructor
  case names => exact fun name listed => ⟨follows.named listed, provider_whole name listed⟩
  case arguments =>
    exact fun name provider held argument listed =>
      ⟨follows.arguments held argument listed, argument_whole name provider held argument listed⟩
  case servable =>
    intro name provider held arguments inside
    rw [servable_iff, provider_whole name (Table.mem_keys.mpr ⟨provider, held⟩)]
    exact and_congr_right fun _ => forall₂_congr fun argument listed =>
      argument_whole name provider held argument (inside listed)
  case compilable =>
    intro policy
    rw [follows.compilable]
    refine imp_congr_right fun _ => forall₃_congr fun name provider held => forall₂_congr fun argument listed => ?_
    rw [provider_whole name (Table.mem_keys.mpr ⟨provider, held⟩), argument_whole name provider held argument listed]

theorem registry_writable (settings : Settings) (commands : List Command) :
    (reach settings commands).registry.snapshot.Writable :=
  (reach_follows settings commands).writable

end Session

def misnaming : List Command :=
  [.register "Ferry\n" (some Session.idle) [("from", [.str "string"])],
    .register "Trip" (some Session.idle) [("from\n", [.str "string"])]]

-- A name with a line feed behind it cannot be written in any template, and no template gets past it.
theorem misnaming_unwritable :
    (Session.reach .standard misnaming).registry.snapshot.keys = ["Arguments", "Ferry\n", "Trip"] ∧
    isProviderName "Ferry\n".toList = false ∧ isName "from\n".toList = false ∧
    ¬ Servable "Ferry\n" [] ∧ ¬ Servable "Trip" ["from\n"] ∧
    ¬ Compilable (Session.reach .standard misnaming).registry.snapshot .standard := by
  have ferry : isProviderName "Ferry\n".toList = false := by decide
  have start : isName "from\n".toList = false := by decide
  refine ⟨by decide +kernel, ferry, start, ?_, ?_, ?_⟩
  · intro served
    have named := (servable_iff.mp served).1
    rw [ferry] at named
    cases named
  · intro served
    have named := (servable_iff.mp served).2 "from\n" (List.mem_singleton_self _)
    rw [start] at named
    cases named
  · rw [(Session.reach_follows .standard misnaming).compilable]
    intro written
    have held : (Session.reach .standard misnaming).registry.snapshot.get? "Ferry\n" =
        some ⟨Table.ofList [("from", .only .text)], .registered 0, false⟩ := by decide +kernel
    have named := (written rfl "Ferry\n" _ held "from" (by decide)).1
    rw [ferry] at named
    cases named

end WiredViews
