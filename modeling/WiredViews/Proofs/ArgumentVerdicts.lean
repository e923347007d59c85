import WiredViews.Proofs.ArgumentFit
import WiredViews.Validator

namespace WiredViews

namespace ArgumentModel

def Blames (model : ArgumentModel) (record : Record) (name : String) : Prop :=
  ∃ allowed, model.get? name = some allowed ∧ (record.get? name = none ∨ record.get? name = some .null ∨
    ∃ value, record.get? name = some value ∧ ∀ kind ∈ allowed.kinds, ¬ kind.Admits value)

-- Nothing but a list is allowed, and there is an object with a shape of its own.
def Upsets (model : ArgumentModel) (record : Record) (name : String) : Prop :=
  model.get? name = some (.only .textList) ∧
    ∃ fields, record.get? name = some (.object fields) ∧ ∃ row ∈ fields, row.1 = shapeEntry

-- Where it says which items of a list are at fault, these are the items that are no text.
structure Judges (model : ArgumentModel) (record : Record) (errors : Complaints) : Prop where
  names : ∀ name, name ∈ errors.keys ↔ model.Blames record name
  conforming : errors.isEmpty = true ↔ model.Fits record
  items : ∀ name items complaint, model.get? name = some (.only .textList) →
    (record.get? name = some (.list items) ∨ record.get? name = some (.tuple items)) →
    errors.get? name = some complaint →
    ∃ faults, complaint = .wrong (.items faults) ∧ (faults.map Prod.fst).Pairwise (· < ·) ∧
      ∀ position, position ∈ faults.map Prod.fst ↔ ∃ item, items[position]? = some item ∧ ¬ ∃ text, item = .str text

def answerAfter (model : ArgumentModel) (earlier : List Record) (record : Record) : Option Complaints :=
  (((Validator.start model).validateAll earlier).2.validate record).1

end ArgumentModel

section Complaints
variable {model : ArgumentModel} {record : Record} {name : String}

theorem get?_complaints : (model.complaints record).get? name =
    (model.get? name).bind fun allowed => allowed.rule.complaint? (record.get? name) :=
  Table.get?_filterMapRows _ _ _

theorem complaints_names : name ∈ (model.complaints record).keys ↔ model.Blames record name := by
  rw [Table.mem_keys, get?_complaints]
  cases found : model.get? name with
  | none => simp [ArgumentModel.Blames, found]
  | some allowed =>
    have fitting := @complaint_eq_none allowed (record.get? name)
    have named : (∃ complaint, allowed.rule.complaint? (record.get? name) = some complaint) ↔
        ¬ ∃ value, record.get? name = some value ∧ ∃ kind ∈ allowed.kinds, kind.Admits value := by
      rw [← fitting, ← Option.isSome_iff_exists, Option.isSome_iff_ne_none]
    simp only [ArgumentModel.Blames, found, Option.bind_some, Option.some.injEq, exists_eq_left', named]
    constructor
    · intro unfit
      cases held : record.get? name with
      | none => exact Or.inl rfl
      | some value =>
        right
        right
        refine ⟨value, rfl, fun kind listed admits => ?_⟩
        exact unfit ⟨value, held, kind, listed, admits⟩
    · intro wrong fits
      obtain ⟨value, held, kind, listed, admits⟩ := fits
      rcases wrong with missing | null | ⟨other, given, refused⟩
      · rw [missing] at held
        cases held
      · rw [null] at held
        cases held
        cases kind <;> simp [Kind.Admits] at admits
      · rw [given] at held
        cases held
        exact refused kind listed admits

theorem itemFaults_zipIdx (shape : Shape) (start : Nat) (items : List Value) : itemFaults shape start items =
    (items.zipIdx start).filterMap fun row => (shape.itemFault? row.1).map fun fault => (row.2, fault) := by
  induction items generalizing start with
  | nil => rfl
  | cons item rest ih =>
    rw [itemFaults, List.zipIdx_cons, List.filterMap_cons]
    cases shape.itemFault? item with
    | none => exact ih (start + 1)
    | some fault => exact congrArg ((start, fault) :: ·) (ih (start + 1))

theorem itemFaults_rising (shape : Shape) (start : Nat) (items : List Value) :
    ((itemFaults shape start items).map Prod.fst).Pairwise (· < ·) := by
  have places : (items.zipIdx start).Pairwise fun row later => row.2 < later.2 := by
    rw [← List.pairwise_map, List.zipIdx_map_snd]
    exact List.pairwise_lt_range'
  rw [itemFaults_zipIdx, List.pairwise_map, List.pairwise_filterMap]
  refine places.imp fun less fault here other there => ?_
  obtain ⟨_, _, rfl⟩ := Option.map_eq_some_iff.mp here
  obtain ⟨_, _, rfl⟩ := Option.map_eq_some_iff.mp there
  exact less

theorem mem_itemFaults {items : List Value} {position : Nat} :
    position ∈ (itemFaults .text 0 items).map Prod.fst ↔
      ∃ item, items[position]? = some item ∧ ¬ ∃ text, item = .str text := by
  simp only [itemFaults_zipIdx, List.mem_map, List.mem_filterMap, Option.map_eq_some_iff, ← itemFault_text,
    ← Option.isSome_iff_ne_none, Option.isSome_iff_exists]
  constructor
  · intro given
    obtain ⟨_, ⟨row, listed, fault, found, rfl⟩, rfl⟩ := given
    exact ⟨row.1, List.mem_zipIdx_iff_getElem?.mp listed, fault, found⟩
  · intro given
    obtain ⟨item, placed, fault, found⟩ := given
    exact ⟨_, ⟨(item, position), List.mem_zipIdx_iff_getElem?.mpr placed, fault, found, rfl⟩, rfl⟩

theorem list_complaint {value : Value} {items : List Value} {complaint : Complaint}
    (listed : value = .list items ∨ value = .tuple items)
    (made : (KindSet.only .textList).rule.complaint? (some value) = some complaint) :
    complaint = .wrong (.items (itemFaults .text 0 items)) := by
  have single : (KindSet.only .textList).rule.complaint? (some value) =
      (Kind.textList.rule.fault? value).map .wrong := by rcases listed with rfl | rfl <;> rfl
  rw [single, Option.map_eq_some_iff, listed_fault listed] at made
  obtain ⟨fault, found, rfl⟩ := made
  split at found
  · cases found
  · cases found
    rfl

theorem complaints_judge (model : ArgumentModel) (record : Record) :
    model.Judges record (model.complaints record) := by
  constructor
  case names => exact fun name => complaints_names
  case conforming => exact complaints_eq_nil
  case items =>
    intro name items complaint allowed given made
    obtain ⟨value, held, listed⟩ : ∃ value, record.get? name = some value ∧
        (value = .list items ∨ value = .tuple items) := by
      rcases given with held | held
      · exact ⟨_, held, Or.inl rfl⟩
      · exact ⟨_, held, Or.inr rfl⟩
    rw [get?_complaints, allowed, held] at made
    exact ⟨_, list_complaint listed made, itemFaults_rising _ _ _, fun position => mem_itemFaults⟩

theorem field_isSome {fields : List (String × Value)} :
    (Value.field? name fields).isSome = true ↔ ∃ row ∈ fields, row.1 = name := by
  induction fields with
  | nil => simp [Value.field?]
  | cons row rest ih =>
    rw [Value.field?]
    split
    · rename_i same
      simp [same]
    · rename_i other
      simp [other, ih]

theorem rule_breaksOn {allowed : KindSet} {value : Value} : allowed.rule.breaksOn value = true ↔
    allowed = .only .textList ∧ ∃ fields, value = .object fields ∧ ∃ row ∈ fields, row.1 = shapeEntry := by
  cases value with
  | object fields =>
    cases allowed with
    | only kind => cases kind <;> simp [ArgumentRule.breaksOn, KindSet.rule, KindSet.kinds, Kind.rule, field_isSome]
    | both => simp [ArgumentRule.breaksOn, KindSet.rule, KindSet.kinds]
  | null | bool | int | decimal | str | list | tuple => simp [ArgumentRule.breaksOn]

theorem read_object {fields : List (String × Value)} :
    record.read name = .object fields ↔ record.get? name = some (.object fields) := by
  unfold Record.read Table.getD
  cases record.get? name <;> simp

theorem breaksOn_iff : model.breaksOn record = true ↔ ∃ name, model.Upsets record name := by
  simp only [ArgumentModel.breaksOn, List.any_eq_true, rule_breaksOn, read_object, ArgumentModel.Upsets,
    @Table.get?_eq_some _ _ _ model]
  constructor
  · intro given
    obtain ⟨⟨name, _⟩, listed, rfl, upset⟩ := given
    exact ⟨name, listed, upset⟩
  · intro given
    obtain ⟨name, listed, upset⟩ := given
    exact ⟨(name, _), listed, rfl, upset⟩

end Complaints

namespace Validator
variable {validator : Validator} {record : Record}

theorem foldl_visit (validator : Validator) (record : Record) (rows : List (String × KindSet)) :
    rows.foldl (visit record) validator = { validator with
      errors := validator.errors.insertAll (rows.filterMap fun row =>
        (row.2.rule.complaint? (record.get? row.1)).map (row.1, ·)) } := by
  induction rows generalizing validator with
  | nil => rfl
  | cons row rest ih =>
    rw [List.foldl_cons, ih, List.filterMap_cons, visit]
    cases row.2.rule.complaint? (record.get? row.1) <;> rfl

theorem examine_exact (validator : Validator) (record : Record) : examine record validator =
    if validator.model.breaksOn record then (none, validator.clear)
    else (some (validator.model.complaints record).isEmpty, ⟨validator.model, validator.model.complaints record⟩) := by
  have whole : validator.clear.errors.insertAll (validator.model.complaints record).rows =
      validator.model.complaints record := Table.insertAll_own_rows _
  have visited : validator.model.rows.foldl (visit record) validator.clear =
      ⟨validator.model, validator.model.complaints record⟩ := by
    rw [foldl_visit, ← whole]
    rfl
  simp only [examine, visited]

theorem validate_check (validator : Validator) (record : Record) :
    (validator.validate record).1 = validator.model.check record ∧
      (validator.validate record).2.model = validator.model := by
  obtain ⟨model, errors⟩ := validator
  by_cases nothing : model.isEmpty = true
  · obtain rfl := Table.isEmpty_iff.mp nothing
    exact ⟨rfl, rfl⟩
  · rw [validate, if_neg nothing, examine_exact, ArgumentModel.check]
    by_cases breaks : model.breaksOn record = true
    · rw [if_pos breaks, if_pos breaks]
      exact ⟨rfl, rfl⟩
    · rw [if_neg breaks, if_neg breaks]
      cases conforming : (model.complaints record).isEmpty with
      | true => exact ⟨congrArg some (Table.isEmpty_iff.mp conforming).symm, rfl⟩
      | false => exact ⟨rfl, rfl⟩

theorem validateAll_check (validator : Validator) (records : List Record) :
    (validator.validateAll records).1 = records.map validator.model.check ∧
      (validator.validateAll records).2.model = validator.model := by
  induction records generalizing validator with
  | nil => exact ⟨rfl, rfl⟩
  | cons record rest ih =>
    obtain ⟨answer, kept⟩ := validate_check validator record
    obtain ⟨answers, last⟩ := ih (validator.validate record).2
    rw [kept] at answers last
    exact ⟨congrArg₂ List.cons answer answers, last⟩

end Validator

theorem answerAfter_check (model : ArgumentModel) (earlier : List Record) (record : Record) :
    model.answerAfter earlier record = model.check record := by
  obtain ⟨answer, _⟩ := Validator.validate_check ((Validator.start model).validateAll earlier).2 record
  rw [(Validator.validateAll_check (Validator.start model) earlier).2] at answer
  exact answer

-- The arguments that are named are those at fault, whatever was looked at before. There is no
-- answer at all if the check breaks off.
theorem validate_judges (model : ArgumentModel) (earlier : List Record) (record : Record) :
    (∀ others, model.answerAfter others record = model.answerAfter earlier record) ∧
      (model.answerAfter earlier record = none ↔ ∃ name, model.Upsets record name) ∧
      ∀ errors, model.answerAfter earlier record = some errors → model.Judges record errors := by
  refine ⟨fun others => ?_, ?_, fun errors answered => ?_⟩
  · rw [answerAfter_check, answerAfter_check]
  · rw [answerAfter_check, ← breaksOn_iff, ArgumentModel.check]
    simp
  · rw [answerAfter_check, ArgumentModel.check] at answered
    split at answered
    · cases answered
    · cases answered
      exact complaints_judge model record

def itinerary : ArgumentModel :=
  Table.ofList [("stops", .only .textList), ("over", .both), ("start", .only .text)]

def oddStops : Record :=
  Table.ofList [("stops", .object [("type", .str "string")])]

def lateItinerary : Record :=
  Table.ofList [("stops", .list [.str "Oslo", .null, .str "Bergen", .list [.str "Voss"]]), ("over", .list [.str "Odda"]),
    ("other", .int 3)]

theorem itinerary_judged : ∃ errors, itinerary.answerAfter [oddStops] lateItinerary = some errors ∧
    itinerary.Judges lateItinerary errors ∧
    errors.rows = [("stops", .wrong (.items [(1, .null), (3, .wrongShape .text)])), ("start", .missing)] := by
  have known : (itinerary.answerAfter [oddStops] lateItinerary).map Table.rows =
      some [("stops", .wrong (.items [(1, .null), (3, .wrongShape .text)])), ("start", .missing)] := by decide +kernel
  obtain ⟨errors, answered, listed⟩ := Option.map_eq_some_iff.mp known
  exact ⟨errors, answered, (validate_judges itinerary [oddStops] lateItinerary).2.2 errors answered, listed⟩

-- An object is no list, whether it has a shape of its own or not, but the one that has is not named.
theorem oddStops_unjudged : ¬ ∀ (model : ArgumentModel) (record : Record),
    ∃ errors, model.answerAfter [] record = some errors ∧ ∀ name, name ∈ errors.keys ↔ model.Blames record name := by
  intro judged
  obtain ⟨errors, answered, _⟩ := judged (Table.ofList [("stops", .only .textList)]) oddStops
  have broken : (ArgumentModel.answerAfter (Table.ofList [("stops", .only .textList)]) [] oddStops).isSome = false := by
    decide +kernel
  rw [answered] at broken
  cases broken

end WiredViews
