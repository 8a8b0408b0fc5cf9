import Mathlib.Data.List.Induction
import StyleSheet.Proofs.Pruning
import StyleSheet.Proofs.Reading

namespace StyleSheet.Cascade

variable {standing : Table Winner} {declarations : List Text} {property declaration : Text}

/-- A declaration that decides a property, and the winner that stands for it. -/
inductive Decides (declarations : List Text) : Option Winner → Option Text → Prop
  | none : Decides declarations none none
  | some {winner : Winner} {declaration : Text}
      (position : declarations[winner.position]? = some declaration)
      (important : winner.important = Declaration.isImportant declaration) :
      Decides declarations (some winner) (some declaration)

def Decided (standing : Table Winner) (declarations : List Text) : Prop :=
  ∀ name, Decides declarations (standing.get? name) (decisive name declarations)

theorem decisive_singleton (name declaration : Text) :
    decisive name [declaration] =
      if Declaration.property? declaration = some name then some declaration else none := by
  rw [decisive, claims, List.filter_cons]
  by_cases h : Declaration.property? declaration = some name
  · cases hi : Declaration.isImportant declaration <;> simp [h, hi]
  · simp [h]

theorem Decides.append {holder : Option Winner} {decided : Option Text}
    (h : Decides declarations holder decided) (others : List Text) :
    Decides (declarations ++ others) holder decided := by
  cases h with
  | none => exact .none
  | some position important =>
    have hi := (List.getElem?_eq_some_iff.mp position).1
    exact .some (by rwa [List.getElem?_append_left hi]) important

theorem yieldsTo_iff {holder : Winner} {earlier : Text}
    (h : holder.important = Declaration.isImportant earlier) (later : Text) (position : Nat) :
    holder.yieldsTo ⟨position, Declaration.isImportant later⟩ = true ↔
      weight (some earlier) ≤ weight (some later) := by
  rw [weight_some, weight_some, Winner.yieldsTo, h]
  cases Declaration.isImportant earlier <;> cases Declaration.isImportant later <;> simp

/-- A newcomer that takes a property over overrides what decided it, and no other does. -/
theorem override_eq_ite (earlier later : Text) (winner : Winner) (position : Nat)
    (h : winner.important = Declaration.isImportant earlier) :
    override (some earlier) (some later) =
      if winner.yieldsTo ⟨position, Declaration.isImportant later⟩ then some later
      else some earlier := by
  simp only [override, yieldsTo_iff h, ← Nat.not_lt, ite_not]

theorem get?_contend_of_ne {name : Text} (h : Declaration.property? declaration ≠ some name)
    (standing : Table Winner) (position : Nat) :
    (contend standing (declaration, position)).get? name = standing.get? name := by
  rcases contend_cases standing (declaration, position) with ⟨he, -⟩ | ⟨named, hp, he⟩
  · rw [he]
  · rw [he, Table.get?_insert, if_neg]
    rintro rfl
    exact h hp

theorem Decided.contend (h : Decided standing declarations) (declaration : Text) :
    Decided (contend standing (declaration, declarations.length))
      (declarations ++ [declaration]) := by
  intro name
  have hold := h name
  have newcomer : Decides (declarations ++ [declaration])
      (some ⟨declarations.length, Declaration.isImportant declaration⟩) (some declaration) :=
    .some List.getElem?_concat_length rfl
  rw [decisive_append, decisive_singleton]
  by_cases hp : Declaration.property? declaration = some name
  · rw [if_pos hp]
    simp only [Cascade.contend, hp]
    generalize hg : standing.get? name = holder at hold ⊢
    generalize decisive name declarations = decided at hold ⊢
    cases hold with
    | none =>
      rw [Table.get?_insert_self]
      exact newcomer
    | @some winner earlier position important =>
      rw [override_eq_ite _ _ winner declarations.length important]
      simp only
      split
      next =>
        rw [Table.get?_insert_self]
        exact newcomer
      next =>
        rw [hg]
        exact Decides.append (.some position important) _
  · rw [if_neg hp, override_none, get?_contend_of_ne hp]
    exact hold.append _

theorem winners_concat (front : List Text) (declaration : Text) :
    winners (front ++ [declaration]) = contend (winners front) (declaration, front.length) := by
  rw [winners, List.zipIdx_append, List.foldl_append, Nat.zero_add]
  rfl

theorem decided_winners (declarations : List Text) :
    Decided (winners declarations) declarations := by
  induction declarations using List.reverseRecOn with
  | nil => exact fun _ => .none
  | append_singleton front declaration ih =>
    rw [winners_concat]
    exact ih.contend declaration

theorem property?_of_decisive (h : decisive property declarations = some declaration) :
    Declaration.property? declaration = some property := by
  have hm : declaration ∈ claims property declarations := by
    rcases Option.or_eq_some_iff.mp h with h | ⟨-, h⟩
    · exact (List.mem_filter.mp (List.mem_of_getLast? h)).1
    · exact List.mem_of_getLast? h
  exact beq_iff_eq.mp (List.mem_filter.mp hm).2

theorem mem_survivors_of_decisive (h : decisive property declarations = some declaration) :
    declaration ∈ survivors declarations := by
  have hp := property?_of_decisive h
  have hd := decided_winners declarations property
  rw [h] at hd
  generalize hg : (winners declarations).get? property = holder at hd
  cases hd with
  | @some winner _ position important =>
    apply List.mem_map.mpr
    refine ⟨(declaration, winner.position), List.mem_filter.mpr ⟨?_, ?_⟩, rfl⟩
    · exact List.mem_zipIdx_iff_getElem?.mpr position
    · apply survives_iff.mpr
      intro name hn other ho
      cases hp.symm.trans hn
      cases hg.symm.trans ho
      rfl

theorem claims_survivors (property : Text) (declarations : List Text) :
    claims property (survivors declarations) = (decisive property declarations).toList := by
  have hlone : (claims property (survivors declarations)).Pairwise fun _ _ => False := by
    have hn := List.pairwise_filterMap.mp (properties_survivors_nodup declarations)
    apply (hn.filter _).imp_of_mem
    intro first second hf hs hne
    exact hne property (beq_iff_eq.mp (List.mem_filter.mp hf).2) property
      (beq_iff_eq.mp (List.mem_filter.mp hs).2) rfl
  cases hd : decisive property declarations with
  | none =>
    have hc := decisive_eq_none_iff.mp hd
    exact List.sublist_nil.mp (hc ▸ (survivors_sublist declarations).filter _)
  | some declaration =>
    have hm : declaration ∈ claims property (survivors declarations) :=
      List.mem_filter.mpr ⟨mem_survivors_of_decisive hd, beq_iff_eq.mpr (property?_of_decisive hd)⟩
    generalize claims property (survivors declarations) = left at hlone hm
    match left, hlone, hm with
    | [only], _, hm => rw [List.mem_singleton.mp hm]; rfl
    | first :: second :: rest, hlone, _ =>
      exact ((List.pairwise_cons.mp hlone).1 second List.mem_cons_self).elim

theorem count_survivors_of_nameless (h : Declaration.property? declaration = none)
    (declarations : List Text) :
    (survivors declarations).count declaration = declarations.count declaration := by
  conv_rhs => rw [← List.zipIdx_map_fst 0 declarations]
  rw [survivors, List.count_eq_countP, List.count_eq_countP, List.countP_map, List.countP_map,
    List.countP_filter]
  apply List.countP_congr
  intro entry _
  simp only [Function.comp_apply, Bool.and_eq_true, beq_iff_eq, and_iff_left_iff_imp]
  intro he
  rw [survives, he, h]

end StyleSheet.Cascade
