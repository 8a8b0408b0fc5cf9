import StyleSheet.Cascade
import StyleSheet.Sheet
import StyleSheet.Proofs.Splitting

namespace StyleSheet

def Rule.atoms (rule : Rule) : List Text :=
  rule.selector.splitOn ','

def Rule.declarationsFor (rule : Rule) (atom : Text) : List Text :=
  if atom ∈ rule.atoms then Body.split rule.body else []

namespace Slot

def rules (slots : List Slot) : List Rule :=
  slots.filterMap Slot.rule

def atoms (slots : List Slot) : List Text :=
  (rules slots).flatMap Rule.atoms

def declarationsFor (slots : List Slot) (atom : Text) : List Text :=
  (rules slots).flatMap (·.declarationsFor atom)

@[simp]
theorem rules_append (slots others : List Slot) :
    rules (slots ++ others) = rules slots ++ rules others :=
  List.filterMap_append

@[simp]
theorem rules_cons_some (index : UInt64) (rule : Rule) (slots : List Slot) :
    rules (⟨index, some rule⟩ :: slots) = rule :: rules slots :=
  rfl

@[simp]
theorem rules_cons_none (index : UInt64) (slots : List Slot) :
    rules (⟨index, none⟩ :: slots) = rules slots :=
  rfl

theorem map_snd_live (slots : List Slot) : (live slots).map Prod.snd = rules slots := by
  rw [live, rules, List.map_filterMap]
  congr 1
  funext slot
  cases slot.rule <;> rfl

end Slot

namespace Sheet

def rules (sheet : Sheet) : List Rule :=
  Slot.rules sheet.slots.toList

def atoms (sheet : Sheet) : List Text :=
  Slot.atoms sheet.slots.toList

def declarationsFor (sheet : Sheet) (atom : Text) : List Text :=
  Slot.declarationsFor sheet.slots.toList atom

theorem size_eq_length_rules (sheet : Sheet) : sheet.size = sheet.rules.length := by
  rw [size, ← Array.countP_toList, rules, Slot.rules]
  exact List.length_filterMap_eq_countP.symm

end Sheet

namespace Cascade

def claims (property : Text) (declarations : List Text) : List Text :=
  declarations.filter (Declaration.property? · == some property)

/-- The last important declaration of a property, or else the last one. -/
def decisive (property : Text) (declarations : List Text) : Option Text :=
  ((claims property declarations).filter Declaration.isImportant).getLast?.or
    (claims property declarations).getLast?

/-- Two for an important declaration, one for any other, nothing for none. -/
def weight : Option Text → Nat
  | none => 0
  | some declaration => if Declaration.isImportant declaration then 2 else 1

/-- The later of two declarations unless the earlier one has more weight. -/
def override (earlier later : Option Text) : Option Text :=
  if weight later < weight earlier then earlier else later

theorem weight_override (earlier later : Option Text) :
    weight (override earlier later) = max (weight earlier) (weight later) := by
  unfold override
  split <;> omega

theorem weight_some (declaration : Text) :
    weight (some declaration) = if Declaration.isImportant declaration then 2 else 1 :=
  rfl

theorem weight_some_pos (declaration : Text) : 0 < weight (some declaration) := by
  rw [weight_some]
  split <;> decide

theorem claims_append (property : Text) (declarations others : List Text) :
    claims property (declarations ++ others) =
      claims property declarations ++ claims property others :=
  List.filter_append ..

theorem decisive_congr {property : Text} {declarations others : List Text}
    (h : claims property declarations = claims property others) :
    decisive property declarations = decisive property others := by
  rw [decisive, decisive, h]

theorem decisive_eq_none_iff {property : Text} {declarations : List Text} :
    decisive property declarations = none ↔ claims property declarations = [] := by
  rw [decisive, Option.or_eq_none_iff, List.getLast?_eq_none_iff, List.getLast?_eq_none_iff]
  constructor
  · exact And.right
  · intro h
    rw [h]
    exact ⟨rfl, rfl⟩

theorem decisive_of_important {property : Text} {declarations : List Text} {declaration : Text}
    (h : ((claims property declarations).filter Declaration.isImportant).getLast? =
      some declaration) :
    decisive property declarations = some declaration ∧ weight (some declaration) = 2 := by
  have hi := (List.mem_filter.mp (List.mem_of_getLast? h)).2
  exact ⟨by rw [decisive, h]; rfl, by rw [weight_some, if_pos hi]⟩

theorem decisive_of_not_important {property : Text} {declarations : List Text}
    (h : (claims property declarations).filter Declaration.isImportant = []) :
    decisive property declarations = (claims property declarations).getLast? ∧
      weight (decisive property declarations) ≤ 1 := by
  have he : decisive property declarations = (claims property declarations).getLast? := by
    rw [decisive, h]
    rfl
  refine ⟨he, ?_⟩
  rw [he]
  cases hl : (claims property declarations).getLast? with
  | none => exact Nat.zero_le 1
  | some declaration =>
    have hn := List.filter_eq_nil_iff.mp h declaration (List.mem_of_getLast? hl)
    have hw : weight (some declaration) = 1 := by rw [weight_some, if_neg hn]
    exact Nat.le_of_eq hw

theorem weight_le_two (declaration : Option Text) : weight declaration ≤ 2 := by
  unfold weight
  split
  · decide
  · split <;> decide

theorem override_none (earlier : Option Text) : override earlier none = earlier := by
  cases earlier with
  | none => rfl
  | some declaration => exact if_pos (weight_some_pos declaration)

theorem decisive_append (property : Text) (declarations others : List Text) :
    decisive property (declarations ++ others) =
      override (decisive property declarations) (decisive property others) := by
  have spell : decisive property (declarations ++ others) =
      (((claims property others).filter Declaration.isImportant).getLast?.or
        ((claims property declarations).filter Declaration.isImportant).getLast?).or
      ((claims property others).getLast?.or (claims property declarations).getLast?) := by
    rw [decisive, claims_append, List.filter_append, List.getLast?_append, List.getLast?_append]
  cases later : ((claims property others).filter Declaration.isImportant).getLast? with
  | some declaration =>
    obtain ⟨hd, hw⟩ := decisive_of_important later
    have hle := weight_le_two (decisive property declarations)
    rw [spell, later, hd, override, if_neg (by omega)]
    rfl
  | none =>
    obtain ⟨ho, hlight⟩ := decisive_of_not_important (List.getLast?_eq_none_iff.mp later)
    cases earlier : ((claims property declarations).filter Declaration.isImportant).getLast? with
    | some declaration =>
      obtain ⟨hd, hw⟩ := decisive_of_important earlier
      rw [spell, later, earlier, hd, override, if_pos (by omega)]
      rfl
    | none =>
      obtain ⟨hd, hw⟩ := decisive_of_not_important (List.getLast?_eq_none_iff.mp earlier)
      cases last : (claims property others).getLast? with
      | some declaration =>
        have hpos := weight_some_pos declaration
        rw [spell, later, earlier, last, ho, last, override, if_neg (by omega)]
        rfl
      | none =>
        rw [spell, later, earlier, last, ho, last, override_none, hd]
        rfl

/-- The weight of what decides depends on which declarations there are, not on their order. -/
theorem weight_decisive (property : Text) (declarations : List Text) :
    weight (decisive property declarations) =
      if (claims property declarations).any Declaration.isImportant then 2
      else if (claims property declarations).isEmpty then 0 else 1 := by
  cases h : ((claims property declarations).filter Declaration.isImportant).getLast? with
  | some declaration =>
    obtain ⟨hd, hw⟩ := decisive_of_important h
    obtain ⟨hm, hi⟩ := List.mem_filter.mp (List.mem_of_getLast? h)
    rw [hd, hw, if_pos (List.any_eq_true.mpr ⟨declaration, hm, hi⟩)]
  | none =>
    have hn := List.filter_eq_nil_iff.mp (List.getLast?_eq_none_iff.mp h)
    obtain ⟨hd, hw⟩ := decisive_of_not_important (List.getLast?_eq_none_iff.mp h)
    rw [if_neg (by simpa using hn)]
    cases hc : claims property declarations with
    | nil =>
      rw [decisive_eq_none_iff.mpr hc]
      rfl
    | cons declaration rest =>
      have hne : decisive property declarations ≠ none := by
        intro he
        rw [decisive_eq_none_iff.mp he] at hc
        cases hc
      obtain ⟨other, ho⟩ := Option.ne_none_iff_exists'.mp hne
      have hpos := weight_some_pos other
      rw [ho] at hw ⊢
      exact Nat.le_antisymm hw hpos

theorem two_le_weight_iff {property : Text} {declarations : List Text} :
    2 ≤ weight (decisive property declarations) ↔
      ∃ declaration ∈ claims property declarations, Declaration.isImportant declaration = true := by
  rw [weight_decisive, ← List.any_eq_true]
  cases (claims property declarations).any Declaration.isImportant with
  | true => exact ⟨fun _ => rfl, fun _ => Nat.le_refl 2⟩
  | false => cases (claims property declarations).isEmpty <;> simp

theorem weight_decisive_perm (property : Text) {declarations others : List Text}
    (h : declarations.Perm others) :
    weight (decisive property declarations) = weight (decisive property others) := by
  have hc : (claims property declarations).Perm (claims property others) := h.filter _
  rw [weight_decisive, weight_decisive, hc.any_eq, hc.isEmpty_eq]

end Cascade

end StyleSheet
