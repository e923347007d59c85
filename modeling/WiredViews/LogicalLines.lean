import WiredViews.Lines

namespace WiredViews

def continuation : Char := '\\'

structure LogicalLine (ν : Type) where
  number : ν
  text : List Char
deriving DecidableEq

structure Unfinished (ν : Type) where
  start : ν
  text : List Char
deriving DecidableEq

def Unfinished.finish {ν : Type} (pending : Unfinished ν) : LogicalLine ν :=
  ⟨pending.start, trim pending.text⟩

def Unfinished.extend {ν : Type} (before : Unfinished ν) (line : Line) : Unfinished ν × Bool :=
  let content := trim line
  if content.getLast? = some continuation then
    (⟨before.start, before.text ++ content.dropLast⟩, true)
  else
    (⟨before.start, before.text ++ content⟩, false)

-- Comments and blank lines vanish also between a continued line and the line
-- that continues it. At the end an open declaration counts unless it is blank.
def assembleFrom {ν : Type} : Option (Unfinished ν) → List (ν × Line) → List (LogicalLine ν)
  | none, [] => []
  | some pending, [] => if isAllBlank pending.text then [] else [pending.finish]
  | pending, (number, line) :: rest =>
    if isIgnorable line then
      assembleFrom pending rest
    else
      match (pending.getD ⟨number, []⟩).extend line with
      | (longer, true) => assembleFrom (some longer) rest
      | (whole, false) => whole.finish :: assembleFrom none rest

def assemble {ν : Type} (lines : List (ν × Line)) : List (LogicalLine ν) :=
  assembleFrom none lines

end WiredViews
