import Mathlib.Data.List.Count
import WiredViews.Proofs.FirstItem
import WiredViews.Proofs.TableWrites
import WiredViews.Round

namespace WiredViews

def Kind.Admits : Kind → Value → Prop
  | .text, value => ∃ text, value = .str text
  | .textList, value => ∃ items, (value = .list items ∨ value = .tuple items) ∧ ∀ item ∈ items, ∃ text, item = .str text

def ArgumentModel.Fits (model : ArgumentModel) (arguments : Record) : Prop :=
  ∀ row ∈ model.rows, ∃ value, arguments.get? row.1 = some value ∧ ∃ kind ∈ row.2.kinds, kind.Admits value

section Rules

theorem itemFault_text {item : Value} : Shape.text.itemFault? item = none ↔ ∃ text, item = .str text := by
  cases item <;> simp [Shape.itemFault?, Shape.admits]

theorem itemFaults_eq_nil {shape : Shape} {position : Nat} {items : List Value} :
    itemFaults shape position items = [] ↔ ∀ item ∈ items, shape.itemFault? item = none := by
  induction items generalizing position with
  | nil => simp [itemFaults]
  | cons item rest ih =>
    rw [List.forall_mem_cons, itemFaults]
    cases shape.itemFault? item with
    | none => simp [ih]
    | some fault => simp

theorem listed_fault {value : Value} {items : List Value} (listed : value = .list items ∨ value = .tuple items) :
    Kind.textList.rule.fault? value =
      match itemFaults .text 0 items with
      | [] => none
      | faults => some (.items faults) := by
  rcases listed with rfl | rfl <;> rfl

theorem kind_fault {kind : Kind} {value : Value} : kind.rule.fault? value = none ↔ kind.Admits value := by
  cases kind with
  | text => cases value <;> simp [Kind.rule, ShapeRule.fault?, Kind.Admits, Shape.admits]
  | textList =>
    have whole : ∀ items, (value = .list items ∨ value = .tuple items) →
        (Kind.textList.rule.fault? value = none ↔ ∀ item ∈ items, ∃ text, item = .str text) := by
      intro items listed
      simp only [listed_fault listed, ← itemFault_text]
      rw [← @itemFaults_eq_nil _ 0]
      cases itemFaults .text 0 items <;> simp
    cases value with
    | list items => simpa [Kind.Admits] using whole items (Or.inl rfl)
    | tuple items => simpa [Kind.Admits] using whole items (Or.inr rfl)
    | null | bool | int | decimal | str | object => simp [Kind.rule, ShapeRule.fault?, Kind.Admits, Shape.admits]

theorem alternatives_fault {rules : List ShapeRule} {value : Value} :
    faultOfAlternatives rules value = none ↔ ∃ rule ∈ rules, rule.fault? value = none := by
  unfold faultOfAlternatives
  split
  · simp
  · have fewer : (rules.filterMap fun rule => rule.fault? value).length < rules.length ↔
        ∃ rule ∈ rules, rule.fault? value = none := by
      rw [List.length_filterMap_eq_countP, List.countP_lt_length_iff]
      simp
    simp [fewer]

theorem complaint_eq_none {allowed : KindSet} {held : Option Value} :
    allowed.rule.complaint? held = none ↔
      ∃ value, held = some value ∧ ∃ kind ∈ allowed.kinds, kind.Admits value := by
  have alternatives : ∀ value, faultOfAlternatives allowed.rule.alternatives value = none ↔
      ∃ kind ∈ allowed.kinds, kind.Admits value := by
    intro value
    rw [alternatives_fault, KindSet.rule]
    simp only [List.mem_map, exists_exists_and_eq_and, kind_fault]
  cases held with
  | none => simp [ArgumentRule.complaint?, KindSet.rule]
  | some value =>
    cases value with
    | null =>
      have refused : ∀ kind : Kind, ¬ kind.Admits .null := fun kind => by cases kind <;> simp [Kind.Admits]
      simp [ArgumentRule.complaint?, KindSet.rule, refused]
    | bool | int | decimal | str | list | tuple | object =>
      simp only [Option.some.injEq, exists_eq_left', ← alternatives]
      rfl

end Rules

theorem complaints_eq_nil {model : ArgumentModel} {arguments : Record} :
    (model.complaints arguments).isEmpty = true ↔ model.Fits arguments := by
  unfold ArgumentModel.complaints Table.isEmpty Table.filterMapRows ArgumentModel.Fits
  rw [List.isEmpty_iff, List.filterMap_eq_nil_iff]
  simp only [Option.map_eq_none_iff, complaint_eq_none]

-- The check only breaks off where an object was given for a list.
theorem breaks_unfit {model : ArgumentModel} {arguments : Record} (breaks : model.breaksOn arguments = true) :
    ¬ model.Fits arguments := by
  intro fits
  obtain ⟨row, listed, broken⟩ := List.any_eq_true.mp breaks
  obtain ⟨value, held, kind, allowed, admitted⟩ := fits row listed
  rw [Record.read, Table.getD_of_get? held] at broken
  cases value with
  | object fields => cases kind <;> simp [Kind.Admits] at admitted
  | null | bool | int | decimal | str | list | tuple => simp [ArgumentRule.breaksOn] at broken

section Members
variable {member : Member} {provider : String} {model : ArgumentModel} {values : Record}

theorem member_error_none :
    member.error? provider model values = none ↔ model.Fits (member.arguments values) := by
  unfold Member.error? ArgumentModel.check
  split
  · rename_i broken
    split at broken
    · rename_i breaks
      simp [breaks_unfit breaks]
    · cases broken
  · rename_i complaints checked
    split at checked
    · cases checked
    · cases checked
      rw [← complaints_eq_nil]
      simp

theorem member_error_some {error : RunError} : member.error? provider model values = some error ↔
    ¬ model.Fits (member.arguments values) ∧
      error = if model.breaksOn (member.arguments values) then .breakdown
        else .typing ⟨provider, member.name, model.complaints (member.arguments values)⟩ := by
  unfold Member.error? ArgumentModel.check
  rw [@eq_comm _ error]
  by_cases breaks : model.breaksOn (member.arguments values) = true
  · simp [breaks, breaks_unfit breaks]
  · rw [← complaints_eq_nil]
    simp [breaks]

end Members
end WiredViews
