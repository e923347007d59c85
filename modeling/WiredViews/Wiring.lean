import WiredViews.Policy
import WiredViews.Ranking
import WiredViews.Registry

namespace WiredViews

inductive WiringError where
  | unknownProvider (service provider : String)
  | unknownService (reference service : String)
  | missingWiring (provider argument : String)
  | cycle (services : List String)
deriving DecidableEq

def WiringError.message : WiringError → String
  | .unknownProvider service provider =>
    "service \"@" ++ service ++ "\" uses provider \"" ++ provider ++ "\" which has no implementation"
  | .unknownService reference service =>
    "variable \"$" ++ reference ++ "\" references undeclared service \"@" ++ service ++ "\""
  | .missingWiring provider argument =>
    "argument \"" ++ argument ++ "\" of provider \"" ++ provider ++
      "\" is not supplied by any service instance"
  | .cycle services =>
    "dependency cycle detected among services: " ++ ", ".intercalate (services.map ("@" ++ ·))

namespace Context

def unknownProvider? (context : Context) (providers : Providers) : Option WiringError :=
  (context.services.rows.find? fun row => !providers.contains row.2.provider).map fun row =>
    .unknownProvider row.1 row.2.provider

def unknownService? (context : Context) : Option WiringError :=
  (context.references.rows.find? fun row => !context.services.contains row.2.1).map fun row =>
    .unknownService row.1 row.2.1

def usedProviders (context : Context) : List String :=
  distinct (context.services.values.map Service.provider)

def supplies (context : Context) (provider argument : String) : Bool :=
  context.services.values.any fun service =>
    service.provider == provider &&
      service.dependencies.any fun dependency => dependency.argument == argument

-- Reserved providers are only looked at when a service uses them and unused
-- providers are not asked for.
def checkedProviders (context : Context) (providers : Providers) (policy : Policy) : List String :=
  if policy.checkUnused then
    (providers.rows.filter fun row => !row.2.reserved).map Prod.fst
  else context.usedProviders

def missingArgument? (context : Context) (providers : Providers) (name : String) : Option String :=
  match providers.get? name with
  | none => none
  | some provider => provider.model.keys.find? fun argument => !context.supplies name argument

def missingWiring? (context : Context) (providers : Providers) (policy : Policy) : Option WiringError :=
  (context.checkedProviders providers policy).findSome? fun name =>
    (context.missingArgument? providers name).map (.missingWiring name)

def cycle? (context : Context) : Option WiringError :=
  match context.unresolved with
  | [] => none
  | services => some (.cycle (sortedNames services))

def wiringError? (context : Context) (providers : Providers) (policy : Policy) : Option WiringError :=
  (context.unknownProvider? providers).or <| context.unknownService?.or <|
    (context.missingWiring? providers policy).or context.cycle?

end Context
end WiredViews
