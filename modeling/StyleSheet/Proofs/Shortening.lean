import StyleSheet.Proofs.Compressing
import StyleSheet.Proofs.Latch

namespace StyleSheet.Session

variable {rewrite : Text → SessionM Text} {session : Session}

/-- Rewriting succeeds, and with the bundled tables at hand its result is rewritten to itself. -/
def Settles (session : Session) (rewrite : Text → SessionM Text) : Prop :=
  ∀ text, ∃ result after, session.perform (rewrite text) = (.ok result, after) ∧
    after.holder.served = .ok Color.Tables.bundled ∧
    ∀ later : Session, later.holder.served = .ok Color.Tables.bundled →
      (later.perform (rewrite result)).1 = .ok result

theorem Computes.settles
    {outcome : Text → Except Color.TableError Color.Tables → Except Color.TableError Text}
    {f : Text → Text} (h : ∀ text, Computes (rewrite text) (outcome text))
    (ho : ∀ text, outcome text (.ok Color.Tables.bundled) = .ok (f text))
    (hf : ∀ text, f (f text) = f text)
    (bundled : session.holder.served = .ok Color.Tables.bundled) : session.Settles rewrite := by
  intro text
  have comes : outcome text session.holder.served = .ok (f text) := by
    rw [bundled, ho]
  obtain ⟨after, hp, hr⟩ := (h text).perform_eq session comes
  refine ⟨f text, after, hp, hr.served bundled, ?_⟩
  intro later hl
  rw [(h (f text)).fst_perform, hl, ho, hf]

/-- With the bundled tables, whatever stages are on, literals and bodies are shortened in one go. -/
theorem shortening_settles (options : Color.ColorOptions) (session : Session)
    (bundled : session.holder.served = .ok Color.Tables.bundled) :
    session.Settles (normalize options) ∧ session.Settles (recolor options) := by
  have hl : options.lookup (.ok Color.Tables.bundled) = .ok options.bundledTables :=
    options.lookup_of_ok _
  have hf := options.settles_normalize
  constructor
  · apply Computes.settles (computes_normalize options) _ hf.fixed bundled
    intro literal
    rw [hl]
    rfl
  · exact Computes.settles (computes_recolor options) (recolored_of_lookup hl)
      (Body.recolor_recolor hf) bundled

theorem shortening_settles_crimson :
    let session : Session := ⟨.orderly .bundled fun _ => "", #[]⟩
    let crimson := "#dc143c".toList
    let body := "color:rgb(255,0,0) !IMPORTANT;border:1px solid White;".toList
    let shorter := "color:red !IMPORTANT;border:1px solid #fff;".toList
    session.holder.served = .ok Color.Tables.bundled ∧
      (∃ after, session.perform (normalize .all "rgb(220,20,60)".toList) = (.ok crimson, after) ∧
        (after.perform (normalize .all crimson)).1 = .ok crimson) ∧
      ∃ after, session.perform (recolor .all body) = (.ok shorter, after) ∧
        (after.perform (recolor .all shorter)).1 = .ok shorter := by
  intro session crimson body shorter
  have hs : session.holder.served = .ok Color.Tables.bundled := Color.Source.load_bundled _ _
  have first : (session.perform (normalize .all "rgb(220,20,60)".toList)).1 = .ok crimson := by
    rw [(computes_normalize .all _).fst_perform, hs, Color.Tables.bundled_eq]
    decide +kernel
  have second : (session.perform (recolor .all body)).1 = .ok shorter := by
    rw [(computes_recolor .all body).fst_perform, hs, Color.Tables.bundled_eq]
    decide +kernel
  obtain ⟨hl, hb⟩ := shortening_settles .all session hs
  obtain ⟨literal, after, hp, ha, hn⟩ := hl "rgb(220,20,60)".toList
  obtain ⟨kept, later, hk, hr, hm⟩ := hb body
  rw [hp] at first
  rw [hk] at second
  cases first
  cases second
  exact ⟨hs, ⟨after, hp, hn after ha⟩, later, hk, hm later hr⟩

end StyleSheet.Session
