import WiredViews.ArgumentCheck

namespace WiredViews

structure Validator where
  model : ArgumentModel
  errors : Complaints

namespace Validator

def start (model : ArgumentModel) : Validator :=
  ⟨model, ∅⟩

def clear (validator : Validator) : Validator :=
  { validator with errors := ∅ }

def visit (record : Record) (validator : Validator) (row : String × KindSet) : Validator :=
  match row.2.rule.complaint? (record.get? row.1) with
  | none => validator
  | some complaint => { validator with errors := validator.errors.insert row.1 complaint }

-- Whether nothing was found. There is no answer if the check breaks off, and then
-- nothing of an earlier record is left either.
def examine (record : Record) (validator : Validator) : Option Bool × Validator :=
  if validator.model.breaksOn record then (none, validator.clear)
  else
    let examined := validator.model.rows.foldl (visit record) validator.clear
    (some examined.errors.isEmpty, examined)

def validate (validator : Validator) (record : Record) : Option Complaints × Validator :=
  if validator.model.isEmpty then (some ∅, validator)
  else
    match examine record validator with
    | (none, after) => (none, after)
    | (some true, after) => (some ∅, after)
    | (some false, after) => (some after.errors, after)

def validateAll : Validator → List Record → List (Option Complaints) × Validator
  | validator, [] => ([], validator)
  | validator, record :: rest =>
    let (answer, after) := validator.validate record
    let (answers, last) := after.validateAll rest
    (answer :: answers, last)

end Validator
end WiredViews
