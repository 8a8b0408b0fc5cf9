import Mathlib.Data.List.FinRange
import Mathlib.Order.Bounds.Basic
import StyleSheet.Proofs.Survivors

namespace StyleSheet

namespace Declaration

def name? (declaration : Text) : Option Text :=
  ((parts? declaration).map fun parts => Text.trim parts.1).filter fun name => !name.isEmpty

/-- Custom names are the same letter for letter, others whatever their case. -/
def SameName (name other : Text) : Prop :=
  if isCustom name then name = other else Text.lower name = Text.lower other

instance (name other : Text) : Decidable (SameName name other) :=
  inferInstanceAs
    (Decidable (if isCustom name then name = other else Text.lower name = Text.lower other))

/-- Both declarations name a property, and it is the same one. -/
def SameProperty (declaration other : Text) : Prop :=
  ∃ name ∈ name? declaration, ∃ second ∈ name? other, SameName name second

instance (declaration other : Text) : Decidable (SameProperty declaration other) :=
  inferInstanceAs
    (Decidable (∃ name ∈ name? declaration, ∃ second ∈ name? other, SameName name second))

variable {declaration other name second property : Text}

def key (name : Text) : Text :=
  if isCustom name then name else Text.lower name

theorem isCustom_lower (name : Text) : isCustom (Text.lower name) = isCustom name := by
  have hyphen {c : Char} : c.toLower = '-' ↔ c = '-' := Text.toLower_eq_iff rfl
  match name with
  | [] => rfl
  | [c] => simp [isCustom, Text.lower, List.isPrefixOf]
  | c :: d :: rest =>
    apply Bool.eq_iff_iff.mpr
    simp [isCustom, Text.lower, hyphen, @eq_comm Char '-']

theorem sameName_iff : SameName name second ↔ key name = key second := by
  have hl := isCustom_lower name
  have hr := isCustom_lower second
  rw [SameName, key, key]
  cases hn : isCustom name <;> cases hs : isCustom second <;> grind

theorem property?_eq_map_key (declaration : Text) :
    property? declaration = (name? declaration).map key := by
  rw [property?, name?]
  cases parts? declaration with
  | none => rfl
  | some parts =>
    rw [Option.bind_some, Option.map_some, Option.filter_some]
    cases he : (Text.trim parts.1).isEmpty with
    | true => simp [he]
    | false =>
      simp only [he, key, Bool.false_eq_true, if_false, Bool.not_false, if_true, Option.map_some]
      split <;> rfl

theorem property?_eq_none_iff : property? declaration = none ↔ name? declaration = none := by
  rw [property?_eq_map_key, Option.map_eq_none_iff]

theorem sameProperty_iff (h : property? declaration = some property) :
    SameProperty declaration other ↔ property? other = some property := by
  rw [property?_eq_map_key] at h ⊢
  obtain ⟨name, hn, rfl⟩ := Option.map_eq_some_iff.mp h
  rw [SameProperty, hn, Option.map_eq_some_iff]
  constructor
  · rintro ⟨_, ⟨⟩, second, hs, he⟩
    exact ⟨second, hs, (sameName_iff.mp he).symm⟩
  · rintro ⟨second, hs, he⟩
    exact ⟨name, rfl, second, hs, sameName_iff.mpr he.symm⟩

end Declaration

namespace Cascade

open Declaration (name? SameProperty isImportant property?)

variable {declarations : List Text} {property : Text}

section Winning

variable (declarations) (i : Fin declarations.length)

def rivals : Set (Fin declarations.length) :=
  {j | SameProperty declarations[i] declarations[j]}

def important : Set (Fin declarations.length) :=
  {j | isImportant declarations[j] = true}

/-- The last important declaration of a property wins it, or the last one if none is important. -/
def Wins : Prop :=
  IsGreatest (rivals declarations i ∩ important declarations) i ∨
    ¬(rivals declarations i ∩ important declarations).Nonempty ∧
      IsGreatest (rivals declarations i) i

instance : Decidable (Wins declarations i) :=
  let Rival (j : Fin declarations.length) := SameProperty declarations[i] declarations[j]
  let Weighty (j : Fin declarations.length) := Rival j ∧ isImportant declarations[j] = true
  inferInstanceAs (Decidable
    ((Weighty i ∧ ∀ j, Weighty j → j ≤ i) ∨ (¬∃ j, Weighty j) ∧ Rival i ∧ ∀ j, Rival j → j ≤ i))

/-- A declaration stays if it has no name or wins the property it names. -/
def Stays : Prop :=
  name? declarations[i] = none ∨ Wins declarations i

instance : Decidable (Stays declarations i) :=
  inferInstanceAs (Decidable (name? declarations[i] = none ∨ Wins declarations i))

end Winning

theorem Wins.eq {i k : Fin declarations.length} (hi : Wins declarations i)
    (hk : Wins declarations k) (h : rivals declarations i = rivals declarations k) : i = k := by
  rw [Wins, h] at hi
  rcases hi with hi | ⟨none, hi⟩ <;> rcases hk with hk | ⟨none', hk⟩
  · exact hi.unique hk
  · exact (none' hi.nonempty).elim
  · exact (none hk.nonempty).elim
  · exact hi.unique hk

/-- An important winner has no weightier rival; among equals it is the later one. -/
def Winner.Dominates (winner other : Winner) : Prop :=
  if winner.important = other.important then other.position ≤ winner.position
  else winner.important = true

theorem Winner.Dominates.refl (winner : Winner) : winner.Dominates winner := by
  rw [Winner.Dominates, if_pos rfl]

theorem Winner.Dominates.trans {first second third : Winner} (h : first.Dominates second)
    (h' : second.Dominates third) : first.Dominates third := by
  unfold Winner.Dominates at *
  grind

theorem Winner.Dominates.position_le {winner other : Winner} (h : winner.Dominates other)
    (he : winner.important = other.important) : other.position ≤ winner.position := by
  rwa [Winner.Dominates, if_pos he] at h

theorem Winner.Dominates.important {winner other : Winner} (h : winner.Dominates other)
    (ho : other.important = true) : winner.important = true := by
  rw [Winner.Dominates] at h
  split at h
  next he => exact he.trans ho
  next => exact h

theorem Winner.dominates_of_yieldsTo (holder newcomer : Winner)
    (h : holder.position < newcomer.position) :
    if holder.yieldsTo newcomer then newcomer.Dominates holder else holder.Dominates newcomer := by
  unfold Winner.Dominates Winner.yieldsTo
  grind

/-- A winner dominates each declaration of a property. -/
def Winner.Tops (winner : Winner) (declarations : List Text) (property : Text) : Prop :=
  ∀ i declaration, declarations[i]? = some declaration → property? declaration = some property →
    winner.Dominates ⟨i, isImportant declaration⟩

structure Leads (declarations : List Text) (property : Text) (winner : Winner) : Prop where
  stands : ∃ declaration, declarations[winner.position]? = some declaration ∧
    property? declaration = some property ∧ winner.important = isImportant declaration
  tops : winner.Tops declarations property

section Concat

variable {front : List Text} {last declaration : Text} {winner holder : Winner}

theorem getElem?_concat_eq_some {i : Nat} (h : (front ++ [last])[i]? = some declaration) :
    front[i]? = some declaration ∨ i = front.length ∧ declaration = last := by
  rw [List.getElem?_append] at h
  split at h
  next => exact .inl h
  next hi =>
    obtain ⟨hb, he⟩ := List.getElem?_eq_some_iff.mp h
    rw [List.length_singleton] at hb
    simp only [show i - front.length = 0 by omega, List.getElem_cons_zero] at he
    exact .inr ⟨by omega, he.symm⟩

theorem Winner.Tops.concat (h : winner.Tops front property)
    (hl : property? last = some property → winner.Dominates ⟨front.length, isImportant last⟩) :
    winner.Tops (front ++ [last]) property := by
  intro i declaration hi hp
  rcases getElem?_concat_eq_some hi with hi | ⟨rfl, rfl⟩
  · exact h i declaration hi hp
  · exact hl hp

theorem Winner.Tops.of_dominates (h : holder.Tops front property) (hw : winner.Dominates holder) :
    winner.Tops front property :=
  fun i declaration hi hp => hw.trans (h i declaration hi hp)

theorem Leads.concat (h : Leads front property winner)
    (hl : property? last = some property → winner.Dominates ⟨front.length, isImportant last⟩) :
    Leads (front ++ [last]) property winner where
  stands := by
    obtain ⟨declaration, hd, hp⟩ := h.stands
    have hi := (List.getElem?_eq_some_iff.mp hd).1
    exact ⟨declaration, by rwa [List.getElem?_append_left hi], hp⟩
  tops := h.tops.concat hl

theorem Leads.of_newcomer (hl : property? last = some property)
    (ht : Winner.Tops ⟨front.length, isImportant last⟩ front property) :
    Leads (front ++ [last]) property ⟨front.length, isImportant last⟩ where
  stands := ⟨last, List.getElem?_concat_length, hl, rfl⟩
  tops := ht.concat fun _ => .refl _

end Concat

def Led (standing : Table Winner) (declarations : List Text) : Prop :=
  ∀ property winner, standing.get? property = some winner → Leads declarations property winner

theorem Led.contend {standing : Table Winner} {front : List Text} (h : Led standing front)
    (held : Held standing front.zipIdx) (last : Text) :
    Led (contend standing (last, front.length)) (front ++ [last]) := by
  intro property winner hw
  by_cases hl : property? last = some property
  · simp only [Cascade.contend, hl] at hw
    cases hg : standing.get? property with
    | none =>
      rw [hg, Table.get?_insert_self] at hw
      cases hw
      apply Leads.of_newcomer hl
      intro i declaration hi hp
      obtain ⟨holder, hh⟩ := held.held (declaration, i) (List.mem_zipIdx_iff_getElem?.mpr hi)
        property hp
      cases hg.symm.trans hh
    | some holder =>
      have leads := h property holder hg
      obtain ⟨_, hd, -, -⟩ := leads.stands
      have hlt := (List.getElem?_eq_some_iff.mp hd).1
      have hy := holder.dominates_of_yieldsTo ⟨front.length, isImportant last⟩ hlt
      simp only [hg] at hw
      split at hw
      next yields =>
        rw [if_pos yields] at hy
        rw [Table.get?_insert_self] at hw
        cases hw
        exact .of_newcomer hl (leads.tops.of_dominates hy)
      next stays =>
        rw [if_neg stays] at hy
        cases hg.symm.trans hw
        exact leads.concat fun _ => hy
  · rw [get?_contend_of_ne hl] at hw
    exact (h property winner hw).concat fun hp => (hl hp).elim

theorem led_winners (declarations : List Text) : Led (winners declarations) declarations := by
  induction declarations using List.reverseRecOn with
  | nil =>
    intro property winner h
    cases h
  | append_singleton front last ih =>
    rw [winners_concat]
    exact ih.contend (held_winners front) last

theorem Leads.wins {winner : Winner} (h : Leads declarations property winner)
    {i : Fin declarations.length} (hi : winner.position = i) : Wins declarations i := by
  obtain ⟨_, hd, hp, himp⟩ := h.stands
  rw [hi, List.getElem?_eq_getElem i.isLt] at hd
  obtain rfl := Option.some.inj hd
  have mem_rivals (j : Fin declarations.length) :
      j ∈ rivals declarations i ↔ property? declarations[j] = some property :=
    Declaration.sameProperty_iff hp
  have dominates (j : Fin declarations.length) (hj : j ∈ rivals declarations i) :
      winner.Dominates ⟨j, isImportant declarations[j]⟩ :=
    h.tops j _ (List.getElem?_eq_getElem j.isLt) ((mem_rivals j).mp hj)
  have self : i ∈ rivals declarations i := (mem_rivals i).mpr hp
  have le (j : Fin declarations.length) (hj : j ∈ rivals declarations i)
      (he : winner.important = isImportant declarations[j]) : j ≤ i :=
    Nat.le_trans ((dominates j hj).position_le he) hi.le
  cases hw : winner.important with
  | true =>
    refine .inl ⟨⟨self, himp.symm.trans hw⟩, ?_⟩
    rintro j ⟨hj, hji⟩
    exact le j hj (hw.trans hji.symm)
  | false =>
    have light (j : Fin declarations.length) (hj : j ∈ rivals declarations i) :
        isImportant declarations[j] = false := by
      cases hji : isImportant declarations[j] with
      | false => rfl
      | true => exact ((dominates j hj).important hji).symm.trans hw
    refine .inr ⟨?_, self, ?_⟩
    · rintro ⟨j, hj, hji⟩
      cases (light j hj).symm.trans hji
    · intro j hj
      exact le j hj (hw.trans (light j hj).symm)

/-- The winner of a property stands where the property is won, and nowhere else. -/
theorem Leads.position_eq_iff_wins {winner : Winner} (h : Leads declarations property winner)
    {i : Fin declarations.length} (hp : property? declarations[i] = some property) :
    winner.position = i ↔ Wins declarations i := by
  constructor
  · exact h.wins
  · intro hi
    obtain ⟨_, hd, hk, -⟩ := h.stands
    obtain ⟨hlt, rfl⟩ := List.getElem?_eq_some_iff.mp hd
    have same : rivals declarations i = rivals declarations ⟨winner.position, hlt⟩ := by
      ext j
      exact (Declaration.sameProperty_iff hp).trans (Declaration.sameProperty_iff hk).symm
    rw [hi.eq (h.wins rfl) same]

theorem survives_winners_iff (declarations : List Text) (i : Fin declarations.length) :
    survives (winners declarations) (declarations[i], i) = true ↔ Stays declarations i := by
  rw [survives_iff, Stays]
  cases hp : property? declarations[i] with
  | none =>
    have hn := Declaration.property?_eq_none_iff.mp hp
    exact ⟨fun _ => .inl hn, fun _ name hs => nomatch hs⟩
  | some property =>
    have hn : name? declarations[i] ≠ none := by
      intro hn
      cases hp.symm.trans (Declaration.property?_eq_none_iff.mpr hn)
    obtain ⟨winner, hw⟩ := (held_winners declarations).held (declarations[i], i)
      (List.mem_zipIdx_iff_getElem?.mpr (List.getElem?_eq_getElem i.isLt)) property hp
    rw [or_iff_right hn, ← (led_winners declarations property winner hw).position_eq_iff_wins hp]
    simp [hw]

theorem zipIdx_eq_map_finRange (declarations : List Text) :
    declarations.zipIdx =
      (List.finRange declarations.length).map fun i => (declarations[i], i.val) := by
  apply List.ext_getElem <;> simp

theorem survivors_eq_winners (declarations : List Text) :
    survivors declarations =
      ((List.finRange declarations.length).filter fun i => Stays declarations i).map
        (declarations[·]) := by
  rw [survivors, zipIdx_eq_map_finRange, List.filter_map, List.map_map]
  congr 1
  apply List.filter_congr
  intro i _
  exact Bool.eq_iff_iff.mpr ((survives_winners_iff declarations i).trans decide_eq_true_iff.symm)

example :
    ((List.finRange 3).filter fun i =>
      Stays ["color:red!important".toList, "Color:blue".toList, "--c:0".toList] i) = [0, 2] := by
  decide

end Cascade

namespace Body

theorem isClosed_prune {body : Text} (h : Cascade.prune body ≠ []) :
    isClosed (Cascade.prune body) = isClosed body := by
  apply (pruned_prune _).isClosed_eq
  intro hs
  exact h (prune_of_survivors_eq_nil hs)

/-- Of its declarations a pruned body has, in their order, the nameless ones and the winners, and
unless empty it ends with a semicolon of its own exactly if the last piece was empty. -/
theorem prune_keeps_winners (body : Text) :
    declarations (Cascade.prune body) =
        ((List.finRange (declarations body).length).filter fun i =>
          Cascade.Stays (declarations body) i).map ((declarations body)[·]) ∧
      ((∃ front, Cascade.prune body = front ++ [';'] ∧ front.getLast? ≠ some '\\') ↔
        Cascade.prune body ≠ [] ∧ (split body).getLast? = some []) := by
  constructor
  · rw [declarations_prune, Cascade.survivors_eq_winners]
  · have hc := @isClosed_iff (Cascade.prune body)
    by_cases h : Cascade.prune body = []
    · simp [h]
    · rw [isClosed_prune h, or_iff_right h, isClosed, beq_iff_eq] at hc
      rw [and_iff_right h, hc]

end Body

end StyleSheet
