import WiredViews.Value

namespace WiredViews

inductive LevelStrategy where
  | longestPath
  | singleHop
deriving DecidableEq

inductive FailureCascade where
  | direct
  | transitive
deriving DecidableEq

structure Policy where
  levels : LevelStrategy
  cascade : FailureCascade
  checkUnused : Bool
deriving DecidableEq

def LevelStrategy.name : LevelStrategy → String
  | .longestPath => "longest_path"
  | .singleHop => "single_hop"

def LevelStrategy.ofName? (name : String) : Option LevelStrategy :=
  if name = "longest_path" then some .longestPath
  else if name = "single_hop" then some .singleHop
  else none

def FailureCascade.name : FailureCascade → String
  | .direct => "direct"
  | .transitive => "transitive"

def FailureCascade.ofName? (name : String) : Option FailureCascade :=
  if name = "direct" then some .direct
  else if name = "transitive" then some .transitive
  else none

def Policy.standard : Policy :=
  ⟨.longestPath, .transitive, true⟩

def flagOfText? (text : String) : Option Bool :=
  let word := text.toLower
  if word ∈ ["1", "true", "t", "yes", "y", "on"] then some true
  else if word ∈ ["0", "false", "f", "no", "n", "off"] then some false
  else none

def flagOfValue? : Value → Option Bool
  | .str text => flagOfText? text
  | value =>
    match value.whole? with
    | some 1 => some true
    | some 0 => some false
    | _ => none

def textOfValue? : Value → Option String
  | .str text => some text
  | _ => none

def chosen {α : Type} (standard : α) (read : Value → Option α) : Option Value → Option α
  | none => some standard
  | some value => read value

def Policy.read (fields : List (String × Value)) : Except (List String) Policy :=
  let checkUnused := chosen standard.checkUnused flagOfValue? (Value.field? "check_unused_providers" fields)
  let cascade := chosen standard.cascade (fun value => textOfValue? value >>= FailureCascade.ofName?)
    (Value.field? "failure_cascade" fields)
  let levels := chosen standard.levels (fun value => textOfValue? value >>= LevelStrategy.ofName?)
    (Value.field? "level_strategy" fields)
  match levels, cascade, checkUnused with
  | some levels, some cascade, some checkUnused => .ok ⟨levels, cascade, checkUnused⟩
  | levels, cascade, checkUnused =>
    .error ((if checkUnused.isNone then ["check_unused_providers"] else []) ++
      (if cascade.isNone then ["failure_cascade"] else []) ++
      (if levels.isNone then ["level_strategy"] else []))

end WiredViews
