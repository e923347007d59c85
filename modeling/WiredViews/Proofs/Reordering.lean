import WiredViews.Proofs.HopLevels
import WiredViews.Proofs.TableAgreement

namespace WiredViews
namespace Context

structure Alike (context other : Context) : Prop where
  bindings : ∀ name, context.bindings.get? name = other.bindings.get? name
  services : ∀ name, context.services.get? name = other.services.get? name

variable {context other : Context} {providers : Providers} {policy : Policy}

theorem Alike.symm (alike : context.Alike other) : other.Alike context where
  bindings name := (alike.bindings name).symm
  services name := (alike.services name).symm

section Relations
variable (alike : context.Alike other)
include alike

theorem Alike.known {name : String} : name ∈ context.services.keys ↔ name ∈ other.services.keys :=
  Table.mem_keys_same alike.services

theorem Alike.rows {row : String × Service} : row ∈ context.services.rows ↔ row ∈ other.services.rows :=
  (Table.rows_perm alike.services).mem_iff

theorem Alike.feeds : context.Feeds = other.Feeds := by
  funext parent child
  simp only [Feeds, alike.bindings, alike.services]

theorem Alike.onCycle {name : String} : context.OnCycle name ↔ other.OnCycle name := by
  rw [OnCycle, Ancestor, alike.feeds]
  rfl

theorem Alike.declared : context.Declared ↔ other.Declared := by
  simp only [Declared, alike.bindings, alike.known]

theorem Alike.providersKnown : context.ProvidersKnown providers ↔ other.ProvidersKnown providers := by
  simp only [ProvidersKnown, alike.rows]

theorem Alike.wired : context.Wired providers policy ↔ other.Wired providers policy := by
  simp only [Wired, Checked, Short, Supplied, alike.rows]

theorem Alike.away {name : String} {count : Nat} : context.Away name count ↔ other.Away name count := by
  have walks : ∀ {first second : Context}, first.Feeds = second.Feeds → ∀ {source count name},
      first.Hops source count name → second.Hops source count name := by
    intro first second same source count name path
    induction path with
    | here => exact .here
    | step _ feeds ih => exact ih.step (same ▸ feeds)
  have roots : ∀ root, context.Root root ↔ other.Root root := by
    intro root
    rw [Root, Root, alike.known, alike.feeds]
  unfold Away
  refine exists_congr fun root => and_congr (roots root) ⟨?_, ?_⟩
  · exact walks alike.feeds
  · exact walks alike.feeds.symm

end Relations

-- What it takes to be planned, without a word about the order in which it is checked.
structure Plannable (context : Context) (providers : Providers) (policy : Policy) : Prop where
  known : context.ProvidersKnown providers
  declared : context.Declared
  wired : context.Wired providers policy
  acyclic : ∀ name, ¬ context.OnCycle name

theorem build_accepts {plan : Plan} : Plan.build context providers policy = .ok plan ↔
    context.Plannable providers policy ∧ plan = context.plan providers policy := by
  constructor
  · intro accepted
    have verdict : Verdict context providers policy (.ok plan) := accepted ▸ build_verdict
    cases verdict with
    | planned known declared wired acyclic => exact ⟨⟨known, declared, wired, acyclic⟩, rfl⟩
  · intro given
    obtain ⟨⟨known, declared, wired, acyclic⟩, rfl⟩ := given
    exact verdict_build (.planned known declared wired acyclic)

theorem Alike.plannable (alike : context.Alike other) (plannable : context.Plannable providers policy) :
    other.Plannable providers policy where
  known := alike.providersKnown.mp plannable.known
  declared := alike.declared.mp plannable.declared
  wired := alike.wired.mp plannable.wired
  acyclic _ cycle := plannable.acyclic _ (alike.onCycle.mpr cycle)

end Context

structure Plan.Alike (plan twin : Plan) : Prop where
  levels : List.Forall₂ (fun level other => level.index = other.index ∧ level.names.Perm other.names)
    plan.levels twin.levels
  constants : plan.constants.Agree Eq twin.constants
  fields : plan.fields.Agree (Table.Agree List.Perm) twin.fields
  children : plan.children.Agree List.Perm twin.children
  providers : plan.providers = twin.providers
  policy : plan.policy = twin.policy

namespace Context
variable {context other : Context} {providers : Providers} {policy : Policy}

section Ranks
variable (alike : context.Alike other) (declared : context.Declared) (settled : context.unresolved = [])
include alike declared settled

theorem alike_settled : other.unresolved = [] := by
  rw [unresolved_eq_nil declared] at settled
  rw [unresolved_eq_nil (alike.declared.mp declared)]
  exact fun name cycle => settled name (alike.onCycle.mpr cycle)

theorem Alike.rank {name : String} (known : name ∈ context.services.keys) :
    context.rankOf name = other.rankOf name := by
  have mine := away_rank declared settled known
  have theirs := away_rank (alike.declared.mp declared) (alike_settled alike declared settled) (alike.known.mp known)
  simp only [← alike.away] at theirs
  exact mine.unique theirs

theorem Alike.places {count : Nat} {name : String} (placed : (context.plan providers policy).Places count name) :
    (other.plan providers policy).Places count name := by
  have elsewhere := alike_settled alike declared settled
  cases strategy : policy.levels with
  | longestPath =>
    obtain ⟨known, rank⟩ := (places_waited declared settled strategy).mp placed
    exact (places_waited (alike.declared.mp declared) elsewhere strategy).mpr
      ⟨alike.known.mp known, alike.rank declared settled known ▸ rank⟩
  | singleHop =>
    have away := (places_hopped declared settled strategy).mp placed
    exact (places_hopped (alike.declared.mp declared) elsewhere strategy).mpr (alike.away.mp away)

end Ranks

section Levels
variable (declared : context.Declared) (settled : context.unresolved = [])
include declared settled

theorem level_occupied {count : Nat} (within : count < (context.plan providers policy).levels.length) :
    ∃ name, (context.plan providers policy).Places count name := by
  obtain ⟨names, found, same⟩ := level_grouped (List.getElem?_eq_getElem within)
  have some_name : ∃ name, name ∈ names := by
    cases strategy : policy.levels with
    | longestPath =>
      rw [strategy] at found
      obtain ⟨name, known, rank⟩ := level_filled declared settled (List.getElem?_eq_some_iff.mp found).1
      exact ⟨name, (mem_level settled found).mpr ⟨known, rank⟩⟩
    | singleHop =>
      rw [strategy] at found
      exact List.exists_mem_of_ne_nil _ (frontiers_filled (List.mem_of_getElem? found))
  obtain ⟨name, listed⟩ := some_name
  exact ⟨name, places_iff.mpr ⟨names, found, listed⟩⟩

theorem Alike.levels_le (alike : context.Alike other) :
    (context.plan providers policy).levels.length ≤ (other.plan providers policy).levels.length := by
  by_contra more
  obtain ⟨name, placed⟩ := level_occupied declared settled (Nat.lt_of_not_le more)
  obtain ⟨level, place, _⟩ := alike.places declared settled placed
  rw [List.getElem?_eq_none (Nat.le_refl _)] at place
  cases place

end Levels

section Plans
variable (alike : context.Alike other) (timely : context.Timely providers (context.plan providers policy))
include alike timely

theorem alike_timely : other.Timely providers (other.plan providers policy) :=
  plan_timely (alike.providersKnown.mp timely.known) (alike.declared.mp timely.declared)
    (alike_settled alike timely.declared timely.settled)

theorem Alike.levels : List.Forall₂ (fun level twin : Level => level.index = twin.index ∧ level.names.Perm twin.names)
    (context.plan providers policy).levels (other.plan providers policy).levels := by
  have back := alike_timely alike timely
  rw [List.forall₂_iff_get]
  constructor
  · exact Nat.le_antisymm (alike.levels_le timely.declared timely.settled)
      (alike.symm.levels_le back.declared back.settled)
  · intro count mine theirs
    have place := List.getElem?_eq_getElem mine
    have twin := List.getElem?_eq_getElem theirs
    refine ⟨(level_index place).trans (level_index twin).symm, ?_⟩
    apply (List.perm_ext_iff_of_nodup (timely.once _ _ place) (back.once _ _ twin)).mpr
    intro name
    constructor
    · intro named
      obtain ⟨level, found, listed⟩ := alike.places timely.declared timely.settled ⟨_, place, named⟩
      rw [twin] at found
      cases found
      exact listed
    · intro named
      obtain ⟨level, found, listed⟩ := alike.symm.places back.declared back.settled ⟨_, twin, named⟩
      rw [place] at found
      cases found
      exact listed

end Plans

section Tables
variable (alike : context.Alike other)
include alike

theorem Alike.children : context.children.Agree List.Perm other.children := by
  apply Table.agree_of_getD [] []
  · intro name
    rw [children_keys, children_keys, alike.known]
  · intro name _
    apply (List.perm_ext_iff_of_nodup (nodup_childrenOf name) (nodup_childrenOf name)).mpr
    intro child
    rw [mem_childrenOf, mem_childrenOf, alike.known, alike.feeds]

theorem Alike.references : context.references.rows.Perm other.references.rows := by
  apply Table.rows_perm
  intro name
  rw [Context.references, Context.references, Table.get?_filterMapRows, Table.get?_filterMapRows, alike.bindings]

theorem Alike.constants : context.constants.Agree Eq other.constants := by
  rw [Table.agree_eq]
  intro name
  rw [Context.constants, Context.constants, Table.get?_filterMapRows, Table.get?_filterMapRows, alike.bindings]

theorem Alike.fields : context.fieldTable.Agree (Table.Agree List.Perm) other.fieldTable := by
  apply Table.agree_of_getD ∅ ∅
  · intro service
    rw [fieldTable, fieldTable, mem_fieldRows, mem_fieldRows]
    simp only [alike.references.mem_iff]
  · intro service _
    apply Table.agree_of_getD [] []
    · intro field
      rw [fieldTable, fieldTable, mem_fieldRows_fields, mem_fieldRows_fields]
      simp only [alike.references.mem_iff]
    · intro field _
      rw [fieldTable, fieldTable, getD_fieldRows, getD_fieldRows]
      exact ((alike.references.filter _).map _).append_left _

end Tables

theorem Alike.plans (alike : context.Alike other) (timely : context.Timely providers (context.plan providers policy)) :
    (context.plan providers policy).Alike (other.plan providers policy) where
  levels := alike.levels timely
  constants := alike.constants
  fields := alike.fields
  children := alike.children
  providers := rfl
  policy := rfl

end Context
end WiredViews
