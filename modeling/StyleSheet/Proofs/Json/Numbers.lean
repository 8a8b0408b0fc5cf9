import StyleSheet.Proofs.Json.Grammar

namespace StyleSheet.Json

def isDelimiter (c : Char) : Bool :=
  isSpace c || c == ',' || c == ']' || c == '}'

namespace Numeral

variable {n m : Numeral} {c : Char} {t digits rest : Text}

/-- The number after more characters, if all of them belong to it. -/
def run? (n : Numeral) (t : Text) : Option Numeral :=
  t.foldlM (fun n c => match n.step c with | .more m => some m | _ => none) n

theorem run?_cons (h : n.step c = .more m) : run? n (c :: t) = run? m t := by
  simp [run?, h]

theorem run?_append (h : run? n t = some m) : run? n (t ++ rest) = run? m rest := by
  rw [run?] at h
  rw [run?, List.foldlM_append, h]
  rfl

def Phase.behindDigits : Phase → Phase
  | .minus | .zero | .whole => .whole
  | .point | .fraction => .fraction
  | .mark | .markSign | .exponent => .exponent

theorem step_digit (hn : n.phase ≠ .minus) (hz : n.phase ≠ .zero) (hc : c.isDigit = true) :
    ∃ m, n.step c = .more m ∧ m.phase = n.phase.behindDigits := by
  have hsign : ¬(c = '+' ∨ c = '-') := by
    rintro (rfl | rfl) <;> exact absurd hc (by decide)
  cases hp : n.phase with
  | minus => exact absurd hp hn
  | zero => exact absurd hp hz
  | whole =>
    refine ⟨n.pushWhole c, by simp only [step, hp, hc, if_true], ?_⟩
    unfold pushWhole
    split <;> exact hp
  | point | fraction =>
    refine ⟨n.pushPlace c, by simp only [step, hp, hc, if_true], ?_⟩
    unfold pushPlace
    split <;> rfl
  | mark => exact ⟨n.pushExponent c, by simp only [step, hp, hc, if_neg hsign, if_true], rfl⟩
  | markSign | exponent => exact ⟨n.pushExponent c, by simp only [step, hp, hc, if_true], rfl⟩

theorem behindDigits_behindDigits (phase : Phase) :
    phase.behindDigits.behindDigits = phase.behindDigits := by
  cases phase <;> rfl

theorem behindDigits_ne (phase : Phase) :
    phase.behindDigits ≠ .minus ∧ phase.behindDigits ≠ .zero := by
  cases phase <;> decide

theorem run?_more (h : ∀ c ∈ digits, c.isDigit = true) (hp : n.phase = n.phase.behindDigits) :
    ∃ m, run? n digits = some m ∧ m.phase = n.phase := by
  induction digits generalizing n with
  | nil => exact ⟨n, rfl, rfl⟩
  | cons c digits ih =>
    obtain ⟨hc, hs⟩ := List.forall_mem_cons.mp h
    obtain ⟨hminus, hzero⟩ := behindDigits_ne n.phase
    rw [← hp] at hminus hzero
    obtain ⟨m, hstep, hm⟩ := step_digit hminus hzero hc
    rw [← hp] at hm
    obtain ⟨after, hrun, hafter⟩ := ih (n := m) hs (by rw [hm]; exact hp)
    exact ⟨after, by rw [run?_cons hstep, hrun], hafter.trans hm⟩

theorem run?_digits (hd : IsDigits digits) (hn : n.phase ≠ .minus) (hz : n.phase ≠ .zero) :
    ∃ m, run? n digits = some m ∧ m.phase = n.phase.behindDigits := by
  obtain ⟨hne, hall⟩ := hd
  cases digits with
  | nil => exact absurd rfl hne
  | cons c digits =>
    obtain ⟨hc, hs⟩ := List.forall_mem_cons.mp hall
    obtain ⟨m, hstep, hm⟩ := step_digit hn hz hc
    obtain ⟨after, hrun, hafter⟩ := run?_more (n := m) hs (by rw [hm, behindDigits_behindDigits])
    exact ⟨after, by rw [run?_cons hstep, hrun], hafter.trans hm⟩

def Phase.isWhole : Phase → Bool
  | .zero | .whole => true
  | _ => false

theorem isComplete_of_isWhole (h : n.phase.isWhole = true) : n.isComplete = true := by
  cases hp : n.phase <;> simp_all [Phase.isWhole, isComplete]

theorem start?_whole (h : IsWhole t) :
    ∃ c rest n m, t = c :: rest ∧ c ≠ '-' ∧ start? c = some n ∧ run? n rest = some m ∧
      m.phase.isWhole = true := by
  induction h with
  | zero => exact ⟨'0', [], { phase := .zero }, _, rfl, by decide, rfl, rfl, rfl⟩
  | @digits t hd hzero =>
    obtain ⟨hne, hall⟩ := hd
    cases t with
    | nil => exact absurd rfl hne
    | cons c rest =>
      obtain ⟨hc, hs⟩ := List.forall_mem_cons.mp hall
      have hdash : c ≠ '-' := by
        rintro rfl
        exact absurd hc (by decide)
      have h0 : c ≠ '0' := by
        rintro rfl
        exact hzero rfl
      obtain ⟨m, hrun, hm⟩ := run?_more (n := { phase := .whole, significand := digit c }) hs rfl
      refine ⟨c, rest, _, m, rfl, hdash, ?_, hrun, by rw [hm]; rfl⟩
      rw [start?, if_neg hdash, if_neg h0, if_pos hc]

theorem run?_fraction (h : IsFraction t) (hp : n.phase.isWhole = true) :
    ∃ m, run? n t = some m ∧ m.isComplete = true ∧ m.phase ≠ .exponent := by
  induction h with
  | none =>
    refine ⟨n, rfl, isComplete_of_isWhole hp, ?_⟩
    intro he
    rw [he] at hp
    cases hp
  | @digits t hd =>
    have hstep : n.step '.' = .more { n with phase := .point, full := false } := by
      cases hphase : n.phase with
      | zero | whole =>
        simp only [step, hphase, continueWith]
        rfl
      | _ =>
        rw [hphase] at hp
        cases hp
    obtain ⟨m, hrun, hm⟩ := run?_digits (n := { n with phase := .point, full := false }) hd
      (by simp) (by simp)
    have hphase : m.phase = .fraction := hm
    refine ⟨m, by rw [run?_cons hstep, hrun], ?_, ?_⟩
    · rw [isComplete, hphase]
    · rw [hphase]
      decide

theorem step_mark (hc : n.isComplete = true) (hp : n.phase ≠ .exponent) (hm : c = 'e' ∨ c = 'E') :
    n.step c = .more { n with phase := .mark } := by
  have hdigit : c.isDigit = false := by
    rcases hm with rfl | rfl <;> rfl
  have hpoint : c ≠ '.' := by
    rcases hm with rfl | rfl <;> decide
  have hmark : n.continueWith c = .more { n with phase := .mark } := by
    rw [continueWith, if_neg (fun h => hpoint h.1), if_pos hm]
  cases hphase : n.phase with
  | zero | whole | fraction => simp only [step, hphase, hdigit, hmark, Bool.false_eq_true, if_false]
  | exponent => exact absurd hphase hp
  | minus | point | mark | markSign =>
    rw [isComplete, hphase] at hc
    cases hc

theorem step_markSign (hp : n.phase = .mark) (hc : c = '+' ∨ c = '-') :
    n.step c = .more { n with phase := .markSign, shrinking := c = '-' } := by
  simp only [step, hp, if_pos hc]

theorem run?_exponent (h : IsExponent t) (hc : n.isComplete = true) (hp : n.phase ≠ .exponent) :
    ∃ m, run? n t = some m ∧ m.isComplete = true := by
  induction h with
  | none => exact ⟨n, rfl, hc⟩
  | @digits mark sign t hmark hsign hd =>
    have done {m : Numeral} (hm : m.phase = .mark ∨ m.phase = .markSign) :
        ∃ after, run? m t = some after ∧ after.isComplete = true := by
      obtain ⟨after, hrun, hafter⟩ := run?_digits (n := m) hd
        (by rcases hm with hm | hm <;> simp [hm]) (by rcases hm with hm | hm <;> simp [hm])
      refine ⟨after, hrun, ?_⟩
      rw [isComplete, hafter]
      rcases hm with hm | hm <;> rw [hm] <;> rfl
    rw [run?_cons (step_mark hc hp hmark)]
    obtain rfl | rfl | rfl := hsign
    · exact done (.inl rfl)
    · rw [List.singleton_append, run?_cons (step_markSign rfl (.inl rfl))]
      exact done (.inr rfl)
    · rw [List.singleton_append, run?_cons (step_markSign rfl (.inr rfl))]
      exact done (.inr rfl)

/-- A number is started by its first character and complete behind its last one. -/
theorem exists_run?_of_isNumber (h : IsNumber t) :
    ∃ c rest n m, t = c :: rest ∧ start? c = some n ∧ run? n rest = some m ∧
      m.isComplete = true := by
  induction h with
  | @mk sign whole fraction exponent hsign hwhole hfraction hexponent =>
    obtain ⟨c, rest, n, m, rfl, hdash, hstart, hrun, hm⟩ := start?_whole hwhole
    obtain ⟨m', hrun', hm', hne⟩ := run?_fraction hfraction hm
    obtain ⟨m'', hrun'', hm''⟩ := run?_exponent hexponent hm' hne
    have hall : run? n (rest ++ fraction ++ exponent) = some m'' := by
      rw [List.append_assoc, run?_append hrun, run?_append hrun', hrun'']
    obtain rfl | rfl := hsign
    · exact ⟨c, rest ++ fraction ++ exponent, n, m'', by simp, hstart, hall, hm''⟩
    · have hstep : Numeral.step { phase := .minus } c = .more n := by
        simp only [step, hstart, if_neg hdash]
      refine ⟨'-', c :: (rest ++ fraction ++ exponent), { phase := .minus }, m'', by simp, rfl, ?_,
        hm''⟩
      rw [run?_cons hstep, hall]

theorem step_delimiter (hn : n.isComplete = true) (hc : isDelimiter c = true) :
    n.step c = .stop := by
  have hlisted : c ∈ [' ', '\t', '\n', '\r', ',', ']', '}'] := by
    simpa [isDelimiter, isSpace, or_assoc] using hc
  have none : [' ', '\t', '\n', '\r', ',', ']', '}'].all
      (fun c => c.isDigit = false ∧ c ≠ '.' ∧ ¬(c = 'e' ∨ c = 'E')) = true := by
    decide
  obtain ⟨hdigit, hpoint, hmark⟩ := of_decide_eq_true (List.all_eq_true.mp none c hlisted)
  have hstop : n.continueWith c = .stop := by
    rw [continueWith, if_neg (fun h => hpoint h.1), if_neg hmark]
  cases hphase : n.phase with
  | zero | whole | fraction | exponent =>
    simp only [step, hphase, hdigit, hstop, Bool.false_eq_true, if_false]
  | minus | point | mark | markSign =>
    rw [isComplete, hphase] at hn
    cases hn

end Numeral

end StyleSheet.Json
