import WiredViews.Proofs.PlannedLevels

namespace WiredViews
namespace Context
variable {context : Context} {providers : Providers} {policy : Policy} {world : World} {overrides : Record}

def argumentsOf (context : Context) (values : Record) (service : String) : Record :=
  match context.services.get? service with
  | none => ∅
  | some held => Member.arguments ⟨service, held.dependencies⟩ values

-- The name does not stand for an output of any other service.
def Within (context : Context) (overrides : Record) (trusted : String → Prop) (name : String) : Prop :=
  name ∉ overrides.keys → ∀ service field,
    context.bindings.get? name = some (.reference service field) → trusted service

theorem member_arguments {member : Member} {provider : String} (values : Record)
    (held : context.services.get? member.name = some ⟨provider, member.dependencies⟩) :
    member.arguments values = context.argumentsOf values member.name := by
  unfold argumentsOf
  rw [held]

theorem group_batch_eq {group : Group} {values : Record} (held : ∀ member ∈ group.members,
      context.services.get? member.name = some ⟨group.provider, member.dependencies⟩) :
    group.batch values = group.members.map fun member => context.argumentsOf values member.name :=
  List.map_congr_left fun member listed => member_arguments values (held member listed)

theorem arguments_congr {first second : Record} {service : String}
    (same : ∀ name, context.Within overrides (fun parent => context.Feeds parent service) name →
      first.get? name = second.get? name) :
    context.argumentsOf first service = context.argumentsOf second service := by
  unfold argumentsOf
  cases held : context.services.get? service with
  | none => rfl
  | some found =>
    dsimp only
    unfold Member.arguments
    refine congrArg Table.ofList (List.map_congr_left fun dependency depends => ?_)
    have equal := same dependency.source fun _ parent field bound =>
      ⟨found, held, dependency, depends, field, bound⟩
    rw [Record.read, Record.read, Table.getD, Table.getD, equal]

section Pass
variable {count : Nat} {level : Level} {progress : Progress}
  (timely : context.Timely providers (context.plan providers policy))
  (place : (context.plan providers policy).levels[count]? = some level)
include timely place

theorem pass_low {name : String}
    (low : context.Within overrides (fun service => context.rankOf service < count) name) :
    ((context.plan providers policy).pass world overrides progress level).values.get? name =
      progress.values.get? name := by
  refine pass_unwritten fun free answer answered field bound => ?_
  obtain ⟨attempt, made, listed⟩ := answer_member answered
  have rank := (timely.candidate place (round_candidate made) listed).2.1
  have lower := low free _ _ bound
  omega

theorem pass_arguments {service : String} (rank : context.rankOf service ≤ count) :
    context.argumentsOf ((context.plan providers policy).pass world overrides progress level).values service =
      context.argumentsOf progress.values service := by
  refine @arguments_congr _ overrides _ _ _ fun name fed => ?_
  refine pass_low timely place fun free parent field bound => ?_
  have lower := rank_lt_of_ancestor timely.settled (.single (fed free parent field bound))
  omega

end Pass
end Context
end WiredViews
