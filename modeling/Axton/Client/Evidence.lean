import Axton.Client.Delivery

/-!
# What staging does to evidence

The newest position a record's evidence holds never moves back, and staging a list of changes reaches
the position of each of them: an admitted change installs it, a refused one finds it already passed.

* `EvidenceStep.reached_le`, `Stages.reached_le` — evidence only advances;
* `stageChanges_reached` — every staged position is reached.
-/

namespace Axton

variable {m : String} {changes : List AuthorityChange} {k : RecordKey} {s t : Store}

theorem EvidenceStep.reached_le {e e' : RecordEvidence} (h : EvidenceStep m changes k e e') : e.reached ≤ e'.reached := by
  cases h with
  | release => exact le_refl _
  | install _ h => exact (RecordEvidence.reached_install h).1
  | remove _ h =>
    obtain ⟨hlt, he⟩ := RecordEvidence.reached_remove h
    omega

theorem EvidenceStep.reached_le_of_chain {e e' : RecordEvidence}
    (h : Relation.ReflTransGen (EvidenceStep m changes k) e e') : e.reached ≤ e'.reached := by
  induction h with
  | refl => exact le_refl _
  | tail _ h ih => exact le_trans ih h.reached_le

/-- **Staging never moves a record's evidence back.** -/
theorem Stages.reached_le (h : Stages m changes s t) (k : RecordKey) : (s.evidence k).reached ≤ (t.evidence k).reached :=
  EvidenceStep.reached_le_of_chain (h.evidence k)

theorem Local.reached_eq (h : Local s t) (k : RecordKey) : (t.evidence k).reached = (s.evidence k).reached := by
  rcases h.evidence k with e | e <;> rw [e]
  exact RecordEvidence.release_reached _

namespace Engine

variable {E : Engine}

/-- One staged change is reached. -/
theorem stageChange_reached {c : AuthorityChange} {hc : c ∈ changes} {x : Nat × List RecordKey}
    (h : (E.stageChange c hc : Within (Stages m changes) _).run s = .ok (x, t)) :
    c.cursor ≤ (t.evidence c.key).reached := by
  simp only [stageChange, Within.run_bind_ok, Within.run_lift] at h
  obtain ⟨_, _, ⟨_, rfl⟩, _, _, ⟨_, rfl⟩, h⟩ := h
  cases c with
  | remove key cursor =>
    simp only [Within.run_bind_ok, Within.run_pure, Except.ok.injEq, Prod.mk.injEq] at h
    obtain ⟨n, u, h, -, rfl⟩ := h
    show cursor ≤ (u.evidence key).reached
    simp only [removeEvidence] at h
    cases hr : (s.evidence key).remove cursor with
    | error e => simp [hr] at h
    | ok p =>
      obtain ⟨b, e⟩ := p
      cases b with
      | false =>
        simp only [hr, Except.ok.injEq, Prod.mk.injEq] at h
        rw [← h.2]
        exact RecordEvidence.le_reached_of_remove hr
      | true =>
        simp only [hr, Except.ok.injEq, Prod.mk.injEq] at h
        rw [← h.2]
        have := (RecordEvidence.reached_remove hr).2
        simp [Store.evidence, this]
  | record key cursor state =>
    simp only [Within.run_bind_ok, Within.run_ask] at h
    obtain ⟨a, _, ⟨ha, rfl⟩, h⟩ := h
    show cursor ≤ (t.evidence key).reached
    split at h
    · rename_i hdup
      subst hdup
      simp only [Within.run_pure, Except.ok.injEq, Prod.mk.injEq] at h
      rw [← h.2]
      exact RecordEvidence.le_reached_of_duplicate ha
    · rename_i hne
      simp only [Within.run_bind_ok, Within.run_lift, Within.run_widen, Within.run_pure, Except.ok.injEq,
        Prod.mk.injEq] at h
      obtain ⟨row, _, ⟨_, rfl⟩, _, u₁, hi, held, u₂, h₂, cascade, u₃, h₃, -, rfl⟩ := h
      have later : (u₃.evidence key).reached = (u₁.evidence key).reached := by
        have l₂ := Within.within _ h₂
        have l₃ := Within.within _ h₃
        rw [l₃.reached_eq, l₂.reached_eq]
      rw [later]
      simp only [installEvidence] at hi
      cases hinst : (s.evidence key).install m cursor row.isNone with
      | error e => simp [hinst] at hi
      | ok p =>
        obtain ⟨b, e⟩ := p
        cases b with
        | false =>
          simp only [RecordEvidence.install, ha, bind_ok, Except.ok.injEq, exists_eq_left'] at hinst
          cases a <;> simp_all
        | true =>
          simp only [hinst, Except.ok.injEq, Prod.mk.injEq] at hi
          rw [← hi.2]
          have := (RecordEvidence.reached_install hinst).2
          simpa [Store.evidence] using this

/-- **Staging reaches the position of every change.** -/
theorem stageChanges_reached {x : Staged} (h : (E.stageChanges m changes).run s = .ok (x, t)) :
    ∀ c ∈ changes, c.cursor ≤ (t.evidence c.key).reached := by
  simp only [stageChanges, Within.run_bind_ok, Within.run_widen] at h
  obtain ⟨_, s₁, _, h⟩ := h
  have loop := Within.foldlM_inv
    (fun (rest : List { c // c ∈ changes.insertionSort changeLe }) (_ : Staged) u =>
      ∀ c ∈ (changes.insertionSort changeLe).attach, c ∈ rest ∨ c.1.cursor ≤ (u.evidence c.1.key).reached) _
    (fun c rest acc u acc' u' inv hrun => by
      simp only [Within.run_bind_ok, Within.run_pure, Except.ok.injEq, Prod.mk.injEq] at hrun
      obtain ⟨y, u₁, hrun, -, rfl⟩ := hrun
      have hstage := (E.stageChange c.1 (mem_ordered c.2)).within hrun
      intro d hd
      rcases inv d hd with hin | hle
      · rcases List.mem_cons.1 hin with rfl | hin
        · exact .inr (stageChange_reached hrun)
        · exact .inl hin
      · exact .inr (le_trans hle (hstage.reached_le d.1.key)))
    (changes.insertionSort changeLe).attach (fun c hc => .inl hc) h
  intro c hc
  have hmem : c ∈ changes.insertionSort changeLe := (List.mem_insertionSort changeLe).2 hc
  rcases loop ⟨c, hmem⟩ (List.mem_attach _ _) with hin | hle
  · cases hin
  · exact hle

end Engine

end Axton
