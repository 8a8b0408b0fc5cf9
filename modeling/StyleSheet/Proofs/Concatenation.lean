import StyleSheet.Proofs.Winners

namespace StyleSheet

namespace Cascade

variable {declarations others front : List Text} {declaration last : Text}

/-- Whether a declaration has more weight than what decides its property further down. -/
def outlasts (later : List Text) (declaration : Text) : Bool :=
  match Declaration.property? declaration with
  | none => true
  | some property => weight (decisive property later) < weight (some declaration)

/-- Whether a declaration has no less weight than what decides its property further up. -/
def overcomes (earlier : List Text) (declaration : Text) : Bool :=
  match Declaration.property? declaration with
  | none => true
  | some property => weight (decisive property earlier) ≤ weight (some declaration)

theorem outlasts_append (declarations others : List Text) :
    outlasts (declarations ++ others) = fun declaration =>
      outlasts declarations declaration && outlasts others declaration := by
  funext declaration
  unfold outlasts
  cases Declaration.property? declaration with
  | none => rfl
  | some property =>
    simp only [decisive_append, weight_override, Nat.max_lt, Bool.decide_and]

theorem overcomes_append (declarations others : List Text) :
    overcomes (declarations ++ others) = fun declaration =>
      overcomes declarations declaration && overcomes others declaration := by
  funext declaration
  unfold overcomes
  cases Declaration.property? declaration with
  | none => rfl
  | some property =>
    simp only [decisive_append, weight_override, Nat.max_le, Bool.decide_and]

theorem outlasts_singleton {property : Text}
    (h : Declaration.property? declaration = some property)
    (hl : Declaration.property? last = some property) :
    outlasts [last] declaration = decide (weight (some last) < weight (some declaration)) := by
  simp only [outlasts, h, decisive_singleton, if_pos hl]

theorem outlasts_singleton_of_ne
    (h : ∀ property, Declaration.property? declaration = some property →
      Declaration.property? last ≠ some property) : outlasts [last] declaration = true := by
  unfold outlasts
  cases hp : Declaration.property? declaration with
  | none => rfl
  | some property =>
    simp only [decisive_singleton, if_neg (h property hp)]
    exact decide_eq_true (weight_some_pos declaration)

theorem survives_eq {property : Text} (h : Declaration.property? declaration = some property)
    (standing : Table Winner) (position : Nat) :
    survives standing (declaration, position) =
      (standing.get? property).all fun winner => winner.position == position := by
  simp only [survives, h]

theorem get?_contend_of_free {property : Text} {standing : Table Winner}
    (h : Declaration.property? last = some property) (hg : standing.get? property = none)
    (position : Nat) :
    (contend standing (last, position)).get? property =
      some ⟨position, Declaration.isImportant last⟩ := by
  simp only [contend, h, hg, Table.get?_insert_self]

theorem get?_contend_of_held {property : Text} {standing : Table Winner} {holder : Winner}
    (h : Declaration.property? last = some property)
    (hg : standing.get? property = some holder) (position : Nat) :
    (contend standing (last, position)).get? property =
      some (if holder.yieldsTo ⟨position, Declaration.isImportant last⟩ then
        ⟨position, Declaration.isImportant last⟩ else holder) := by
  simp only [contend, h, hg]
  split
  next => exact Table.get?_insert_self ..
  next => exact hg

theorem exists_decisive {property : Text} {holder : Winner}
    (h : (winners front).get? property = some holder) :
    ∃ earlier, decisive property front = some earlier ∧
      front[holder.position]? = some earlier ∧
      holder.important = Declaration.isImportant earlier := by
  have hd := decided_winners front property
  rw [h] at hd
  generalize decisive property front = decided at hd ⊢
  cases hd with
  | some position important => exact ⟨_, rfl, position, important⟩

theorem survives_concat_of_rival {property : Text} {position : Nat}
    (hp : Declaration.property? declaration = some property)
    (hl : Declaration.property? last = some property) (h : front[position]? = some declaration) :
    survives (winners (front ++ [last])) (declaration, position) =
      (survives (winners front) (declaration, position) && outlasts [last] declaration) := by
  obtain ⟨holder, hg⟩ := (held_winners front).held (declaration, position)
    (List.mem_zipIdx_iff_getElem?.mpr h) property hp
  obtain ⟨earlier, -, hd, hi⟩ := exists_decisive hg
  have hne : (front.length == position) = false := by
    have hlt := (List.getElem?_eq_some_iff.mp h).1
    exact beq_false_of_ne (Nat.ne_of_gt hlt)
  rw [winners_concat, survives_eq hp, survives_eq hp, get?_contend_of_held hl hg, hg,
    outlasts_singleton hp hl, Option.all_some, Option.all_some]
  by_cases hw : holder.position = position
  · rw [← hw, hd] at h
    cases h
    have hy := yieldsTo_iff hi last front.length
    split
    next yields => rw [hne, decide_eq_false (Nat.not_lt.mpr (hy.mp yields)), Bool.and_false]
    next stays => rw [decide_eq_true (Nat.lt_of_not_le (mt hy.mpr stays)), Bool.and_true]
  · rw [beq_false_of_ne hw, Bool.false_and]
    split
    next => exact hne
    next => exact beq_false_of_ne hw

theorem survives_concat_of_no_rival
    (h : ∀ property, Declaration.property? declaration = some property →
      Declaration.property? last ≠ some property) (position : Nat) :
    survives (winners (front ++ [last])) (declaration, position) =
      survives (winners front) (declaration, position) := by
  rw [winners_concat]
  unfold survives
  cases hp : Declaration.property? declaration with
  | none => rfl
  | some property => simp only [get?_contend_of_ne (h property hp)]

theorem survives_winners_concat {position : Nat} (h : front[position]? = some declaration)
    (last : Text) :
    survives (winners (front ++ [last])) (declaration, position) =
      (survives (winners front) (declaration, position) && outlasts [last] declaration) := by
  by_cases hr : ∃ property, Declaration.property? declaration = some property ∧
      Declaration.property? last = some property
  · obtain ⟨property, hp, hl⟩ := hr
    exact survives_concat_of_rival hp hl h
  · have hn : ∀ property, Declaration.property? declaration = some property →
        Declaration.property? last ≠ some property := fun property hp hl => hr ⟨property, hp, hl⟩
    rw [survives_concat_of_no_rival hn, outlasts_singleton_of_ne hn, Bool.and_true]

theorem survives_winners_last (front : List Text) (last : Text) :
    survives (winners (front ++ [last])) (last, front.length) = overcomes front last := by
  rw [winners_concat, overcomes]
  cases hl : Declaration.property? last with
  | none => simp only [survives, hl]
  | some property =>
    simp only [survives_eq hl]
    cases hg : (winners front).get? property with
    | none =>
      have hd := decided_winners front property
      rw [hg] at hd
      generalize decisive property front = decided at hd ⊢
      cases hd with
      | none => simp [get?_contend_of_free hl hg, weight]
    | some holder =>
      obtain ⟨earlier, he, hd, hi⟩ := exists_decisive hg
      have hlt := (List.getElem?_eq_some_iff.mp hd).1
      have hy := yieldsTo_iff hi last front.length
      rw [get?_contend_of_held hl hg, Option.all_some, he]
      split
      next yields => rw [beq_self_eq_true, decide_eq_true (hy.mp yields)]
      next stays => rw [beq_false_of_ne (Nat.ne_of_lt hlt), decide_eq_false (mt hy.mpr stays)]

theorem survivors_concat (front : List Text) (last : Text) :
    survivors (front ++ [last]) =
      (survivors front).filter (outlasts [last]) ++ [last].filter (overcomes front) := by
  have hf : front.zipIdx.filter (survives (winners (front ++ [last]))) =
      (front.zipIdx.filter (survives (winners front))).filter fun entry =>
        outlasts [last] entry.1 := by
    rw [List.filter_filter]
    apply List.filter_congr
    intro entry hm
    rw [Bool.and_comm]
    exact survives_winners_concat (List.mem_zipIdx_iff_getElem?.mp hm) last
  have hl : ([last].zipIdx (0 + front.length)).filter (survives (winners (front ++ [last]))) =
      ([last].filter (overcomes front)).zipIdx front.length := by
    simp only [List.zipIdx_singleton, Nat.zero_add, List.filter_cons, List.filter_nil,
      survives_winners_last]
    split <;> rfl
  rw [survivors, List.zipIdx_append, List.filter_append, hf, hl, List.map_append,
    List.zipIdx_map_fst, survivors, List.filter_map]
  rfl

/-- Of the survivors of two lists, those survive together that outlast what comes behind them and
overcome what comes before. -/
theorem survivors_append (declarations others : List Text) :
    survivors (declarations ++ others) =
      (survivors declarations).filter (outlasts others) ++
        (survivors others).filter (overcomes declarations) := by
  induction others using List.reverseRecOn with
  | nil =>
    have ha : ∀ declaration ∈ survivors declarations, outlasts [] declaration = true := by
      intro declaration _
      unfold outlasts
      cases Declaration.property? declaration with
      | none => rfl
      | some property => exact decide_eq_true (weight_some_pos declaration)
    rw [List.append_nil, List.filter_eq_self.mpr ha]
    exact (List.append_nil _).symm
  | append_singleton front last ih =>
    rw [← List.append_assoc, survivors_concat, ih, survivors_concat]
    simp only [List.filter_append, List.filter_filter, outlasts_append, overcomes_append,
      List.append_assoc, Bool.and_comm]

theorem decisive_survivors (property : Text) (declarations : List Text) :
    decisive property (survivors declarations) = decisive property declarations := by
  have hc := claims_survivors property declarations
  cases hd : decisive property declarations with
  | none =>
    rw [hd] at hc
    exact decisive_eq_none_iff.mpr hc
  | some declaration =>
    rw [hd] at hc
    have hp := property?_of_decisive hd
    have hs : claims property [declaration] = [declaration] :=
      List.filter_cons_of_pos (beq_iff_eq.mpr hp)
    rw [decisive_congr (hc.trans hs.symm), decisive_singleton, if_pos hp]

theorem survivors_survivors (declarations : List Text) :
    survivors (survivors declarations) = survivors declarations :=
  survivors_of_nodup (properties_survivors_nodup declarations)

theorem survivors_append_survivors (declarations others : List Text) :
    survivors (survivors declarations ++ survivors others) = survivors (declarations ++ others) := by
  have ho : outlasts (survivors others) = outlasts others := by
    funext declaration
    simp only [outlasts, decisive_survivors]
  have hc : overcomes (survivors declarations) = overcomes declarations := by
    funext declaration
    simp only [overcomes, decisive_survivors]
  rw [survivors_append, survivors_survivors, survivors_survivors, ho, hc, ← survivors_append]

end Cascade

namespace Body

variable {body other : Text}

theorem declarations_append_of_isClosed (h : isClosed body = true) (other : Text) :
    declarations (body ++ other) = declarations body ++ declarations other :=
  filter_split_append h other rfl

theorem isClosed_prune_of_isClosed (h : isClosed body = true) :
    isClosed (Cascade.prune body) = true := by
  by_cases hp : Cascade.prune body = []
  · rw [hp]
    rfl
  · rwa [isClosed_prune hp]

theorem prune_congr (hd : Cascade.survivors (declarations body) =
      Cascade.survivors (declarations other)) (hc : isClosed body = isClosed other) :
    Cascade.prune body = Cascade.prune other := by
  simp only [Cascade.prune, hd, hc]

theorem prune_prune (body : Text) : Cascade.prune (Cascade.prune body) = Cascade.prune body := by
  obtain ⟨kept, closed, h⟩ := exists_pruned_prune body
  exact h.prune_eq

theorem prune_append_prune (h : isClosed body = true) (ho : isClosed other = true) :
    Cascade.prune (Cascade.prune body ++ Cascade.prune other) = Cascade.prune (body ++ other) := by
  have hp := isClosed_prune_of_isClosed h
  apply prune_congr
  · rw [declarations_append_of_isClosed hp, declarations_append_of_isClosed h, declarations_prune,
      declarations_prune, Cascade.survivors_append_survivors]
  · rw [isClosed_append hp (isClosed_prune_of_isClosed ho), isClosed_append h ho]

/-- Pruning closed bodies before they are written one behind another makes no difference once the
whole is pruned, and a body that is pruned, closed or not, has nothing left to prune. -/
theorem prune_append_and_prune :
    (∀ body other, isClosed body = true → isClosed other = true →
      Cascade.prune (body ++ other) = Cascade.prune (Cascade.prune body ++ Cascade.prune other)) ∧
    ∀ body, Cascade.prune (Cascade.prune body) = Cascade.prune body :=
  ⟨fun _ _ h ho => (prune_append_prune h ho).symm, prune_prune⟩

/-- An important declaration ahead of the seam, an overridden one and an escaped semicolon. -/
theorem prune_important_append :
    let body := "color:red!important; ;top:0;".toList
    let other := "COLOR:blue;top:1\\;;".toList
    isClosed body = true ∧ isClosed other = true ∧
      Cascade.prune (body ++ other) = "color:red!important;top:1\\;;".toList ∧
      Cascade.prune (body ++ other) =
        Cascade.prune (Cascade.prune body ++ Cascade.prune other) := by
  intro body other
  have hb : isClosed body = true := by decide +kernel
  have ho : isClosed other = true := by decide +kernel
  exact ⟨hb, ho, by decide +kernel, prune_append_and_prune.1 body other hb ho⟩

end Body

end StyleSheet
