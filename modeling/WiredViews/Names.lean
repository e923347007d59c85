import WiredViews.Blank

namespace WiredViews

def isNameChar (c : Char) : Bool :=
  c.isLower || c == '_'

def isName : List Char → Bool
  | [] => false
  | c :: rest => c.isLower && rest.all isNameChar

def isProviderName : List Char → Bool
  | [] => false
  | c :: rest => c.isUpper && rest.all Char.isAlphanum

-- Unlike other names, the name of a view may begin with an underscore.
def isViewName (text : List Char) : Bool :=
  !text.isEmpty && text.all isNameChar

def takeName : List Char → Option (List Char × List Char)
  | [] => none
  | c :: rest =>
    if c.isLower then some (c :: rest.takeWhile isNameChar, rest.dropWhile isNameChar) else none

def takeMark : List Char → List Char → Option (List Char)
  | [], text => some text
  | _ :: _, [] => none
  | m :: mark, c :: text => if m = c then takeMark mark text else none

def startsWith (mark text : List Char) : Bool :=
  (takeMark mark text).isSome

def cutAt (mark : Char) : List Char → Option (List Char × List Char)
  | [] => none
  | c :: rest =>
    if c = mark then some ([], rest) else (cutAt mark rest).map fun cut => (c :: cut.1, cut.2)

theorem isName_of_takeName {text name rest : List Char} (taken : takeName text = some (name, rest)) :
    isName name = true := by
  cases text with
  | nil => simp [takeName] at taken
  | cons c tail =>
    by_cases lower : c.isLower = true
    · simp only [takeName, lower, if_true, Option.some.injEq, Prod.mk.injEq] at taken
      obtain ⟨rfl, rfl⟩ := taken
      simp [isName, lower]
    · simp [takeName, lower] at taken

theorem takeMark_eq_some {mark text rest : List Char} :
    takeMark mark text = some rest ↔ text = mark ++ rest := by
  induction mark generalizing text with
  | nil => simp [takeMark]
  | cons m mark ih =>
    cases text with
    | nil => simp [takeMark]
    | cons c text =>
      unfold takeMark
      split
      · rename_i same
        simp [ih, same]
      · rename_i differ
        simp only [reduceCtorEq, List.cons_append, List.cons.injEq, false_iff, not_and]
        exact fun same => absurd same.symm differ

theorem cutAt_eq_some {mark : Char} {text before rest : List Char} :
    cutAt mark text = some (before, rest) ↔ text = before ++ mark :: rest ∧ mark ∉ before := by
  induction text generalizing before with
  | nil => simp [cutAt]
  | cons c text ih =>
    unfold cutAt
    split
    · rename_i same
      subst same
      cases before <;> simp_all
    · rename_i differ
      cases before with
      | nil => simp_all
      | cons b before =>
        simp only [Option.map_eq_some_iff, Prod.mk.injEq, List.cons.injEq, Prod.exists,
          List.cons_append, List.mem_cons, not_or]
        constructor
        · rintro ⟨left, right, found, ⟨rfl, rfl⟩, rfl⟩
          obtain ⟨rfl, absent⟩ := ih.mp found
          exact ⟨⟨rfl, rfl⟩, fun same => differ same.symm, absent⟩
        · rintro ⟨⟨rfl, rfl⟩, _, absent⟩
          exact ⟨before, rest, ih.mpr ⟨rfl, absent⟩, ⟨rfl, rfl⟩, rfl⟩

end WiredViews
