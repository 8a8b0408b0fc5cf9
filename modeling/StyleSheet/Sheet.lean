import StyleSheet.Text

namespace StyleSheet

structure Rule where
  selector : Text
  body : Text
  deriving DecidableEq, Repr

def Rule.render (rule : Rule) : Text :=
  rule.selector ++ '{' :: rule.body ++ ['}']

/-- A place in a sheet under its index; a hole holds no rule. -/
structure Slot where
  index : UInt64
  rule : Option Rule
  deriving DecidableEq, Repr

/-- The rules of the slots that are no holes, with their indices. -/
def Slot.live (slots : List Slot) : List (UInt64 × Rule) :=
  slots.filterMap fun slot => slot.rule.map fun rule => (slot.index, rule)

/-- Slots in ascending order of their indices. -/
structure Sheet where
  slots : Array Slot := #[]
  deriving DecidableEq, Repr

namespace Sheet

def live (sheet : Sheet) : List (UInt64 × Rule) :=
  Slot.live sheet.slots.toList

def size (sheet : Sheet) : Nat :=
  sheet.slots.countP fun slot => slot.rule.isSome

/-- How many slots there are, holes included. -/
def slotCount (sheet : Sheet) : Nat :=
  sheet.slots.size

def isEmpty (sheet : Sheet) : Bool :=
  sheet.size == 0

/-- A sheet as it is printed; holes leave no trace. -/
def render (sheet : Sheet) : Text :=
  sheet.live.flatMap fun entry => entry.2.render

/-- Rules under the indices 0, 1, 2 and so on. -/
def ofRules (rules : List Rule) : Sheet :=
  ⟨(rules.zipIdx.map fun (rule, i) => ⟨UInt64.ofNat i, some rule⟩).toArray⟩

/-- Looks for an index between two positions by halving their distance. -/
def findBetween (slots : Array Slot) (index : UInt64) (lo hi : Nat) (bound : hi ≤ slots.size) :
    Option (Fin slots.size) :=
  if nonempty : lo < hi then
    let mid := lo + (hi - lo) / 2
    have inside : mid < slots.size := by omega
    if slots[mid].index = index then some ⟨mid, inside⟩
    else if slots[mid].index < index then findBetween slots index (mid + 1) hi bound
    else findBetween slots index lo mid (by omega)
  else none
termination_by hi - lo

def position? (sheet : Sheet) (index : UInt64) : Option (Fin sheet.slots.size) :=
  findBetween sheet.slots index 0 sheet.slots.size (Nat.le_refl _)

def get? (sheet : Sheet) (index : UInt64) : Option Rule :=
  (sheet.position? index).bind fun position => sheet.slots[position].rule

/-- Puts something else at a position, under the same index. -/
def setAt (sheet : Sheet) (position : Fin sheet.slots.size) (rule : Option Rule) : Sheet :=
  ⟨sheet.slots.set position { sheet.slots[position] with rule := rule }⟩

/-- Changes the rule under an index; `none` if there is no such rule. -/
def modify? (sheet : Sheet) (index : UInt64) (change : Rule → Rule) : Option Sheet :=
  (sheet.position? index).bind fun position =>
    sheet.slots[position].rule.map fun rule => sheet.setAt position (some (change rule))

/-- Takes the rule under an index out and leaves a hole; `none` if there is no such rule. -/
def remove? (sheet : Sheet) (index : UInt64) : Option (Rule × Sheet) :=
  (sheet.position? index).bind fun position =>
    sheet.slots[position].rule.map fun rule => (rule, sheet.setAt position none)

/-- The index behind the last slot, hole or not; there is none behind the largest index. -/
def nextIndex? (sheet : Sheet) : Option UInt64 :=
  match sheet.slots.back? with
  | none => some 0
  | some last => if last.index.toNat + 1 < UInt64.size then some (last.index + 1) else none

/-- Appends a rule and gives the index it got. -/
def push? (sheet : Sheet) (rule : Rule) : Option (UInt64 × Sheet) :=
  sheet.nextIndex?.map fun index => (index, ⟨sheet.slots.push ⟨index, some rule⟩⟩)

end Sheet

end StyleSheet
