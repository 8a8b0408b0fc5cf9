import StyleSheet.Proofs.Merging.Collapse
import StyleSheet.Proofs.Seams
import StyleSheet.Proofs.Survivors

namespace StyleSheet

namespace Cascade

variable {property declaration : Text} {declarations others : List Text}

/-- The declarations of a property that decide it when they come last. -/
def heaviest (property : Text) (declarations : List Text) : List Text :=
  (claims property declarations).filter fun declaration =>
    Declaration.isImportant declaration ||
      !(claims property declarations).any Declaration.isImportant

theorem decisive_eq_getLast? (property : Text) (declarations : List Text) :
    decisive property declarations = (heaviest property declarations).getLast? := by
  rw [decisive, heaviest]
  cases h : (claims property declarations).any Declaration.isImportant with
  | false =>
    have hn := List.any_eq_false.mp h
    have ha : (claims property declarations).filter (fun declaration =>
        Declaration.isImportant declaration || !false) = claims property declarations :=
      List.filter_eq_self.mpr fun declaration _ => Bool.or_true _
    rw [List.filter_eq_nil_iff.mpr hn, ha]
    rfl
  | true =>
    obtain ⟨declaration, hm, hi⟩ := List.any_eq_true.mp h
    have hne := List.ne_nil_of_mem (List.mem_filter.mpr ⟨hm, hi⟩)
    simp only [Bool.not_true, Bool.or_false]
    rw [List.getLast?_eq_some_getLast hne]
    rfl

theorem heaviest_perm (property : Text) (h : declarations.Perm others) :
    (heaviest property declarations).Perm (heaviest property others) := by
  have hc : (claims property declarations).Perm (claims property others) := h.filter _
  rw [heaviest, heaviest, hc.any_eq]
  exact hc.filter _

theorem exists_heaviest_eq_filter (property : Text) (declarations : List Text) :
    ∃ p : Text → Bool, heaviest property declarations = declarations.filter p :=
  ⟨_, List.filter_filter⟩

theorem decisive_of_heaviest {front back : List Text}
    (h : declaration ∈ heaviest property (front ++ declaration :: back))
    (hb : ∀ later ∈ back, later ∉ heaviest property (front ++ declaration :: back)) :
    decisive property (front ++ declaration :: back) = some declaration := by
  obtain ⟨p, hp⟩ := exists_heaviest_eq_filter property (front ++ declaration :: back)
  rw [hp] at h hb
  have hd := (List.mem_filter.mp h).2
  have hn : back.filter p = [] := by
    apply List.filter_eq_nil_iff.mpr
    intro later hm hl
    exact hb later hm (List.mem_filter.mpr ⟨by simp [hm], hl⟩)
  rw [decisive_eq_getLast?, hp, List.filter_append, List.filter_cons_of_pos hd, hn]
  exact List.getLast?_concat

theorem mem_of_mem_heaviest (h : declaration ∈ heaviest property declarations) :
    declaration ∈ declarations :=
  (List.mem_filter.mp (List.mem_filter.mp h).1).1

/-- Where all that could decide a property read the same, their order does not matter. -/
theorem decisive_eq_of_perm (h : declarations.Perm others)
    (hu : ∀ first ∈ heaviest property declarations, ∀ second ∈ heaviest property declarations,
      first = second) : decisive property declarations = decisive property others := by
  have hp := heaviest_perm property h
  rw [decisive_eq_getLast?, decisive_eq_getLast?]
  cases hl : (heaviest property declarations).getLast? with
  | none =>
    rw [List.getLast?_eq_none_iff] at hl
    rw [hl] at hp
    rw [← hp.nil_eq]
    rfl
  | some first =>
    cases hr : (heaviest property others).getLast? with
    | none =>
      rw [List.getLast?_eq_none_iff] at hr
      rw [hr] at hp
      rw [hp.eq_nil] at hl
      cases hl
    | some second =>
      have hs := hp.mem_iff.mpr (List.mem_of_getLast? hr)
      rw [hu first (List.mem_of_getLast? hl) second hs]

theorem survivors_perm_iff (h : declarations.Perm others) :
    (survivors declarations).Perm (survivors others) ↔
      ∀ property, decisive property declarations = decisive property others := by
  constructor
  · intro hs property
    have hc : (claims property (survivors declarations)).Perm
        (claims property (survivors others)) := hs.filter _
    rw [claims_survivors, claims_survivors] at hc
    generalize decisive property declarations = first at hc ⊢
    generalize decisive property others = second at hc ⊢
    cases first <;> cases second <;> simp_all
  · intro hd
    apply List.perm_iff_count.mpr
    intro declaration
    cases hp : Declaration.property? declaration with
    | none =>
      rw [count_survivors_of_nameless hp, count_survivors_of_nameless hp]
      exact h.count_eq declaration
    | some property =>
      have hc : (Declaration.property? declaration == some property) = true :=
        beq_iff_eq.mpr hp
      have one (list : List Text) : (survivors list).count declaration =
          (decisive property list).toList.count declaration := by
        rw [← claims_survivors, claims]
        exact (List.count_filter (p := (Declaration.property? · == some property)) hc).symm
      rw [one, one, hd]

end Cascade

namespace Body

open Cascade

variable {body property declaration : Text}

theorem not_endsEscaped_of_mem_dropLast (hm : declaration ∈ (split body).dropLast) :
    endsEscaped false declaration = false := by
  have hj := (joinable_split body).ends
  rw [split_eq_concat_tail] at hj
  exact (List.pairwise_append.mp hj).2.2 declaration hm _ (List.mem_singleton.mpr rfl)

theorem mem_dropLast_or_eq_tail (hm : declaration ∈ split body) :
    declaration ∈ (split body).dropLast ∨ declaration = tail body := by
  rw [split_eq_concat_tail] at hm
  exact (List.mem_append.mp hm).imp_right List.mem_singleton.mp

theorem declarations_perm {other : Text} (h : (split body).Perm (split other)) :
    (declarations body).Perm (declarations other) :=
  h.filter _

theorem decisive_of_split {front back : List Text} (hs : split body = front ++ declaration :: back)
    (hm : declaration ∈ heaviest property (declarations body))
    (hb : ∀ later ∈ back, later ∉ heaviest property (declarations body)) :
    decisive property (declarations body) = some declaration := by
  have hd : declarations body = (front.filter fun piece => !piece.all Text.isBlank) ++
      declaration :: back.filter fun piece => !piece.all Text.isBlank := by
    have hn := (List.mem_filter.mp (mem_of_mem_heaviest hm)).2
    rw [declarations, hs, List.filter_append, List.filter_cons, if_pos hn]
  rw [hd] at hm hb ⊢
  exact decisive_of_heaviest hm fun later hl => hb later (List.mem_filter.mp hl).1

theorem decisive_of_endsEscaped (hm : declaration ∈ heaviest property (declarations body))
    (he : declaration.getLast? = some '\\') :
    decisive property (declarations body) = some declaration := by
  have hs : declaration ∈ split body := (List.mem_filter.mp (mem_of_mem_heaviest hm)).1
  rcases mem_dropLast_or_eq_tail hs with hi | rfl
  · exact absurd he (endsEscaped_eq_false_iff.mp (not_endsEscaped_of_mem_dropLast hi))
  · exact decisive_of_split (split_eq_concat_tail body) hm fun _ hl => (List.not_mem_nil hl).elim

/-- Any order of the pieces is that of some body, if no backslash comes before a semicolon. -/
theorem exists_split_eq {pieces : List Text} (h : (split body).Perm pieces)
    (he : ∀ piece ∈ pieces.dropLast, endsEscaped false piece = false) :
    ∃ other, split other = pieces := by
  have hne : pieces ≠ [] := by
    rintro rfl
    exact split_ne_nil body h.eq_nil
  have hj : Joinable pieces := by
    constructor
    · intro piece hm
      exact (joinable_split body).unbroken piece (h.mem_iff.mpr hm)
    · rw [← List.dropLast_concat_getLast hne]
      apply List.pairwise_append.mpr
      refine ⟨?_, List.pairwise_singleton _ _, fun piece hm _ _ => he piece hm⟩
      exact List.pairwise_of_forall_mem_list fun piece hm _ _ => he piece hm
  exact ⟨join pieces, hj.split_join hne⟩

theorem exists_decided {front back : List Text}
    (hm : declaration ∈ heaviest property (declarations body))
    (h : (split body).Perm (front ++ declaration :: back))
    (he : ∀ piece ∈ (front ++ declaration :: back).dropLast, endsEscaped false piece = false)
    (hb : ∀ later ∈ back, later ∉ heaviest property (declarations body)) :
    ∃ other, (split body).Perm (split other) ∧
      decisive property (declarations other) = some declaration := by
  obtain ⟨other, ho⟩ := exists_split_eq h he
  have hs : (split body).Perm (split other) := by rwa [ho]
  have hp := heaviest_perm property (declarations_perm hs)
  refine ⟨other, hs, decisive_of_split ho (hp.mem_iff.mp hm) fun later hl hh => ?_⟩
  exact hb later hl (hp.mem_iff.mpr hh)

/-- Of declarations that could decide a property, any one does after some reordering. -/
theorem exists_reordered (hm : declaration ∈ heaviest property (declarations body))
    (he : ∀ other ∈ heaviest property (declarations body), endsEscaped false other = false) :
    ∃ other, (split body).Perm (split other) ∧
      decisive property (declarations other) = some declaration := by
  have hs : declaration ∈ split body := (List.mem_filter.mp (mem_of_mem_heaviest hm)).1
  by_cases ht : tail body ∈ heaviest property (declarations body)
  · have hp : (split body).Perm ((split body).erase declaration ++ [declaration]) :=
      (List.perm_cons_erase hs).trans (List.perm_append_singleton _ _).symm
    refine exists_decided hm hp (fun piece hd => ?_) fun _ hl => (List.not_mem_nil hl).elim
    have hpiece := hp.mem_iff.mpr (List.dropLast_subset _ hd)
    rcases mem_dropLast_or_eq_tail hpiece with hi | rfl
    · exact not_endsEscaped_of_mem_dropLast hi
    · exact he _ ht
  · have hi : declaration ∈ (split body).dropLast := by
      rcases mem_dropLast_or_eq_tail hs with hi | rfl
      · exact hi
      · exact absurd hm ht
    have hq := (List.perm_cons_erase hi).trans (List.perm_append_singleton _ _).symm
    have hp : (split body).Perm
        ((split body).dropLast.erase declaration ++ declaration :: [tail body]) := by
      rw [List.append_cons _ declaration]
      conv_lhs => rw [split_eq_concat_tail]
      exact hq.append_right _
    refine exists_decided hm hp (fun piece hd => ?_) fun later hl => ?_
    · rw [List.append_cons, List.dropLast_concat] at hd
      exact not_endsEscaped_of_mem_dropLast (hq.mem_iff.mpr hd)
    · rw [List.mem_singleton.mp hl]
      exact ht

end Body

namespace Criterion

open Body Cascade

variable {property : Text} {rule : Rule}

theorem prune_perm_iff {other : Rule} (h : alike .body rule other = true) :
    (declarations (prune rule.body)).Perm (declarations (prune other.body)) ↔
      ∀ property, decisive property (declarations rule.body) =
        decisive property (declarations other.body) := by
  rw [declarations_prune, declarations_prune]
  exact survivors_perm_iff (declarations_perm (alike_body_iff.mp h))

theorem decisive_eq_of_alike {other : Rule} (h : alike .body rule other = true)
    (hall : (∀ first ∈ heaviest property (declarations rule.body),
        ∀ second ∈ heaviest property (declarations rule.body), first = second) ∨
      ∃ last ∈ heaviest property (declarations rule.body), last.getLast? = some '\\') :
    decisive property (declarations rule.body) = decisive property (declarations other.body) := by
  have hd := declarations_perm (alike_body_iff.mp h)
  rcases hall with hu | ⟨last, hm, hb⟩
  · exact decisive_eq_of_perm hd hu
  · have hm' := (heaviest_perm property hd).mem_iff.mp hm
    rw [decisive_of_endsEscaped hm hb, decisive_of_endsEscaped hm' hb]

theorem decisive_of_forall_alike
    (h : ∀ other, alike .body rule other = true →
      decisive property (declarations rule.body) = decisive property (declarations other.body))
    (he : ∀ last ∈ heaviest property (declarations rule.body), last.getLast? ≠ some '\\')
    {declaration : Text} (hm : declaration ∈ heaviest property (declarations rule.body)) :
    decisive property (declarations rule.body) = some declaration := by
  obtain ⟨other, hp, hd⟩ :=
    exists_reordered hm fun last hl => endsEscaped_eq_false_iff.mpr (he last hl)
  rw [← hd]
  exact h ⟨rule.selector, other⟩ (alike_body_iff.mpr hp)

/--
Rules with alike bodies keep the same declarations when pruned exactly when each property is decided
alike. So they do in any order only if, for each property, the declarations that could decide it
read the same, or one of them ends with a backslash and so has to come last.
-/
theorem alike_survivors_iff (rule : Rule) :
    (∀ other, alike .body rule other = true →
      ((declarations (prune rule.body)).Perm (declarations (prune other.body)) ↔
        ∀ property, decisive property (declarations rule.body) =
          decisive property (declarations other.body))) ∧
    ((∀ other, alike .body rule other = true →
        (declarations (prune rule.body)).Perm (declarations (prune other.body))) ↔
      ∀ property,
        (∀ first ∈ heaviest property (declarations rule.body),
          ∀ second ∈ heaviest property (declarations rule.body), first = second) ∨
        ∃ last ∈ heaviest property (declarations rule.body), last.getLast? = some '\\') := by
  refine ⟨fun other h => prune_perm_iff h, fun hall property => ?_, fun hall other h => ?_⟩
  · have hd other (h : alike .body rule other = true) :
        decisive property (declarations rule.body) = decisive property (declarations other.body) :=
      (prune_perm_iff h).mp (hall other h) property
    by_cases hl : ∃ last ∈ heaviest property (declarations rule.body), last.getLast? = some '\\'
    · exact .inr hl
    · have he : ∀ last ∈ heaviest property (declarations rule.body),
          last.getLast? ≠ some '\\' := fun last hm hb => hl ⟨last, hm, hb⟩
      refine .inl fun first hf second hs => ?_
      have hfirst := decisive_of_forall_alike hd he hf
      exact Option.some.inj (hfirst.symm.trans (decisive_of_forall_alike hd he hs))
  · exact (prune_perm_iff h).mpr fun property => decisive_eq_of_alike h (hall property)

/-- Two orders of the same declarations of one property, each decided by another of them. -/
theorem alike_bodies_survive_apart :
    let rule : Rule := ⟨"p".toList, "top:0;top:1;".toList⟩
    let other : Rule := ⟨"a".toList, "top:1;top:0;".toList⟩
    alike .body rule other = true ∧
    declarations (prune rule.body) = ["top:1".toList] ∧
    declarations (prune other.body) = ["top:0".toList] ∧
    ¬(declarations (prune rule.body)).Perm (declarations (prune other.body)) := by
  decide +kernel

end Criterion

end StyleSheet
