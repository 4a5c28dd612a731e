import Axton.Client.Progress

/-!
# Authority across a step

Which steps of a client touch its evidence, and how. A call that installs no authority can only
release protection (`Call.unmoved`); a delivered unit moves evidence by admitting its own changes
(`UnitApplied.evidence`) and leaves a progress row that says so (`UnitApplied.progress`).
-/

namespace Axton

variable {s t u : Store} {P : Platform} {E : Engine}

/-! ## Calls that install nothing -/

/-- A move that installs no authority and enables no schema. -/
structure Unmoved (s t : Store) : Prop where
  evidence : ∀ k, (s.evidence k).Released (t.evidence k)
  progress : ∀ e ∈ t.progress, e ∈ s.progress
  materialization : t.row.materialization = s.row.materialization
  desired : t.row.desiredMaterialization = s.row.desiredMaterialization

namespace Unmoved

theorem refl (s : Store) : Unmoved s s := ⟨fun _ => .refl _, fun _ h => h, rfl, rfl⟩

theorem trans (h : Unmoved s t) (h' : Unmoved t u) : Unmoved s u where
  evidence k := (h.evidence k).trans (h'.evidence k)
  progress e he := h.progress e (h'.progress e he)
  materialization := h'.materialization.trans h.materialization
  desired := h'.desired.trans h.desired

/-- A write outside authority, progress and the schema columns. -/
theorem ofEq (ha : t.authority = s.authority) (hp : t.progress = s.progress)
    (hm : t.row.materialization = s.row.materialization)
    (hd : t.row.desiredMaterialization = s.row.desiredMaterialization) : Unmoved s t where
  evidence k := by rw [evidence_congr ha]; exact .refl _
  progress e he := hp ▸ he
  materialization := hm
  desired := hd

theorem ofLocal (h : Local s t) : Unmoved s t where
  evidence := h.evidence
  progress e he := h.progress ▸ he
  materialization := by rw [h.row]
  desired := by rw [h.row]

theorem ofSettles (h : Settles s t) : Unmoved s t where
  evidence := h.evidence
  progress e he := h.progress ▸ he
  materialization := by rw [h.row]
  desired := by rw [h.row]

theorem ofRecording {n : Nat} (h : Recording n s t) : Unmoved s t where
  evidence := h.evidence
  progress e he := h.progress ▸ he
  materialization := by rw [h.row]
  desired := by rw [h.row]

theorem ofEnqueues (h : Enqueues s t) : Unmoved s t := by
  obtain ⟨⟨name, version, u, hrec, ht⟩, -⟩ := h
  have hpush : Unmoved s (s.pushed name version) := ofEq rfl rfl rfl rfl
  rw [ht]
  exact (hpush.trans (ofRecording hrec)).trans (ofEq rfl rfl rfl rfl)

theorem ofRefuses {rejected : Table Nat Rejection} (h : Refuses rejected s t) : Unmoved s t :=
  (ofEq rfl rfl rfl rfl : Unmoved s (Engine.rejectRows (Engine.refused s rejected) s)).trans (ofLocal h.rest)

theorem ofAcknowledges {a : BatchAcknowledgement} (h : Acknowledges P a s t) : Unmoved s t := by
  obtain ⟨u, href, ht⟩ := h.refuses
  have haccept : Unmoved s (Engine.acceptRows a s) := ofEq rfl rfl rfl rfl
  rw [ht]
  exact (haccept.trans (ofRefuses href)).trans (ofEq rfl rfl rfl rfl)

theorem ofCancels {id : Nat} (hc : Cancels id s u) (h : t = u ∨ Dismisses id u t) : Unmoved s t := by
  rcases h with rfl | h
  · exact ofRefuses hc.refuses
  · rw [h.eq]
    exact (ofRefuses hc.refuses).trans (ofEq rfl rfl rfl rfl)

theorem expireProgress (now : Nat) (s : Store) : Unmoved s (Engine.expireProgress now s) where
  evidence _ := .refl _
  progress _ he := (List.mem_filter.1 he).1
  materialization := rfl
  desired := rfl

end Unmoved

/-- The calls that install authority or enable a schema in their own body. -/
def Call.installs : Call → Bool
  | .authority _ _ _ => true
  | .enableSchema _ _ => true
  | _ => false

theorem Call.unmoved {x : Call} {o : Output} (hx : x.installs = false) (h : x.body E s = .ok (o, t)) :
    Unmoved s t := by
  cases x <;> simp only [Call.body, labelled, map_ok, Prod.exists, Prod.mk.injEq] at h
  case submit => obtain ⟨id, u, h, -, rfl⟩ := h; exact .ofEnqueues (Engine.enqueue_enqueues h).1
  case companion => obtain ⟨_, u, h, -, rfl⟩ := h; exact .ofLocal (Within.within _ h : Local s u)
  case direct => obtain ⟨_, u, h, -, rfl⟩ := h; exact .ofLocal (Within.within _ h : Local s u)
  case readiness => obtain ⟨⟨⟩, u, h, -, rfl⟩ := h; cases h; exact .ofEq rfl rfl rfl rfl
  case freeze =>
    obtain ⟨r, u, h, -, rfl⟩ := h
    rcases Engine.freeze_cases h with ⟨rfl, -⟩ | ⟨rfl, -⟩ | ⟨q, -, hf⟩
    · exact .refl _
    · exact .refl _
    · rw [hf.eq]; exact .ofEq rfl rfl rfl rfl
  case acknowledge a =>
    obtain ⟨_, u, h, -, rfl⟩ := h
    rcases Engine.acknowledge_acknowledges h with ⟨rfl, -⟩ | ⟨h, -⟩
    · exact .refl _
    · exact .ofAcknowledges h
  case settle => obtain ⟨_, u, h, -, rfl⟩ := h; exact .ofSettles (Within.within _ h : Settles s u)
  case drop id =>
    obtain ⟨_, u, h, -, rfl⟩ := h
    rcases Engine.cancelUnsent_cancels h with ⟨rfl, -⟩ | ⟨v, hc, hd, -⟩
    · exact .refl _
    · exact .ofCancels hc (hd.imp_left And.left)
  case discard id =>
    obtain ⟨_, u, h, -, rfl⟩ := h
    rcases Engine.cancelUnsent_cancels h with ⟨rfl, -⟩ | ⟨v, hc, hd, -⟩
    · exact .refl _
    · exact .ofCancels hc (hd.imp_left And.left)
  case dismiss id =>
    obtain ⟨⟨⟩, u, h, -, rfl⟩ := h
    rcases Engine.dismiss_dismisses h with ⟨rfl, -⟩ | h
    · exact .refl _
    · rw [h.eq]; exact .ofEq rfl rfl rfl rfl
  case authority => cases hx
  case cache => obtain ⟨_, u, h, -, rfl⟩ := h; exact .ofLocal (Within.within _ h : Local s u)
  case cleanup now =>
    obtain ⟨_, u, h, -, rfl⟩ := h
    cases h
    exact .expireProgress now s
  case handshake start =>
    obtain ⟨⟨⟩, u, h, -, rfl⟩ := h
    simp only [Engine.initializeStream, bind_ok, pure_ok, Prod.mk.injEq, true_and] at h
    obtain ⟨_, _, rfl⟩ := h
    split
    · exact .ofEq rfl rfl rfl rfl
    · exact .refl _
  case enableSchema => cases hx
  case deliver => cases h; exact .refl _
  case reopen => cases h; exact .refl _

/-! ## No pending schema -/

/-- Nothing is enabled while the desired materialization is the enabled one. -/
theorem enableSchema_unpending {previous desired : RequestContext}
    (hs : s.row.desiredMaterialization = s.row.materialization) :
    Engine.enableSchema previous desired s = .error "no pending schema transfer" := by
  simp [Engine.enableSchema, Engine.pendingSchema, hs, bind, Except.bind]

theorem switchSchema_unpending {x : Engine.Selected} (hs : s.row.desiredMaterialization = s.row.materialization)
    (h : Engine.switchSchema x s = .ok t) : t = s := by
  unfold Engine.switchSchema at h
  split at h
  · simp [Engine.pendingSchema, hs, bind, Except.bind] at h
  · cases h
    rfl

/-- An owned transfer is staged in the enabled materialization then. -/
theorem admitStaging_unpending {x : Engine.Selected} (hs : s.row.desiredMaterialization = s.row.materialization)
    (h : Engine.admitStaging x s = .ok ()) : x.header.context.materialization = s.row.materialization := by
  unfold Engine.admitStaging at h
  split at h
  · simp only [bind_ok] at h
    obtain ⟨_, _, h⟩ := h
    split at h
    · simp [Engine.pendingSchema, hs, bind, Except.bind] at h
    · rename_i hsame
      exact not_not.1 hsame
  · rw [RequestContext.admitContext_ok h]
    rfl

/-! ## Units -/

theorem recordKeys_progress {id : String} : ∀ {changes : List AuthorityChange} {s t : Store},
    Engine.recordKeys id changes s = .ok t → t.progress = s.progress
  | [], s, t, h => by cases h; rfl
  | c :: cs, s, t, h => by
    simp only [Engine.recordKeys, List.foldlM_cons, bind_ok, pure_ok] at h
    obtain ⟨_, ⟨_, _, _, _, rfl⟩, h⟩ := h
    have := recordKeys_progress h
    exact this

theorem switchSchema_progress {x : Engine.Selected} (h : Engine.switchSchema x s = .ok t) : t.progress = s.progress := by
  unfold Engine.switchSchema at h
  split at h
  · simp only [bind_ok] at h
    obtain ⟨p, _, h⟩ := h
    split at h
    · cases h
    · simp only [bind_ok, pure_ok, Prod.exists, Engine.enableSchema] at h
      obtain ⟨_, _, _, _, ⟨⟩, _, ⟨q, _, h⟩, rfl⟩ := h
      split at h
      · cases h
      · simp only [bind_ok, pure_ok, Prod.mk.injEq, true_and] at h
        obtain ⟨_, _, rfl⟩ := h
        rfl
  · cases h
    rfl

namespace Engine.UnitApplied

variable {now : Nat} {x : Selected} {r : Option ApplyReport × Nat}

/-- Evidence moves by the unit's own changes, in the plan's materialization. -/
theorem evidence (a : E.UnitApplied now x r s t) (k : RecordKey) :
    Relation.ReflTransGen (EvidenceStep x.header.context.materialization x.changes k) (s.evidence k) (t.evidence k) := by
  have hkeyed : a.keyed.evidence k = s.evidence k := evidence_congr (s := s) (recordKeys_row a.keys).2 k
  have hstage := ((E.stageChanges _ _).within a.stage).evidence k
  have hcover : a.switched.evidence k = a.staged.evidence k := by
    rw [evidence_congr (switchSchema_authority a.switch), evidence_congr (cover_cases a.cover).1]
  have hsettle := (E.reconcileReady.within a.settle).evidence k
  have hrebuild := a.rebuild.evidence k
  have hsave : t.evidence k = a.rebuilt.evidence k :=
    evidence_congr ((congrArg Store.authority a.save).trans (saveProgress_row _ _ _).2) k
  -- what follows the staging can only release
  have release : ∀ {e e' : RecordEvidence}, e.Released e' →
      Relation.ReflTransGen (EvidenceStep x.header.context.materialization x.changes k) e e' := by
    intro e e' h
    rcases h with rfl | rfl
    · exact .refl
    · exact .single (.release _)
  rw [hkeyed] at hstage
  rw [hcover] at hsettle
  rw [hsave]
  exact (hstage.trans (release hsettle)).trans (release hrebuild)

theorem staged_row (a : E.UnitApplied now x r s t) : a.keyed.row = s.row := (recordKeys_row a.keys).1

/-- Without a pending schema a unit leaves the materializations as they are. -/
theorem unpending (a : E.UnitApplied now x r s t) (hs : s.row.desiredMaterialization = s.row.materialization) :
    t.row.materialization = s.row.materialization ∧ t.row.desiredMaterialization = s.row.desiredMaterialization := by
  have hstaged : a.staged.row.materialization = s.row.materialization ∧
      a.staged.row.desiredMaterialization = s.row.desiredMaterialization := by
    rw [((E.stageChanges _ _).within a.stage).row, a.staged_row]
    exact ⟨rfl, rfl⟩
  have hcovered : a.covered.row.materialization = a.staged.row.materialization ∧
      a.covered.row.desiredMaterialization = a.staged.row.desiredMaterialization := by
    obtain ⟨-, -, h | ⟨-, -, _, _, -, -, -, -, h⟩ | ⟨-, _, _, _, -, -, -, -, -, h⟩⟩ := cover_cases a.cover
    all_goals rw [h]; exact ⟨rfl, rfl⟩
  have hswitched : a.switched = a.covered := by
    refine switchSchema_unpending ?_ a.switch
    rw [hcovered.1, hcovered.2, hstaged.1, hstaged.2, hs]
  have hrow : t.row = a.rebuilt.row := (congrArg Store.row a.save).trans (saveProgress_row _ _ _).1
  have hlast : t.row.materialization = a.covered.row.materialization ∧
      t.row.desiredMaterialization = a.covered.row.desiredMaterialization := by
    rw [hrow, a.rebuild.row, (E.reconcileReady.within a.settle).row, hswitched]
    exact ⟨rfl, rfl⟩
  exact ⟨by rw [hlast.1, hcovered.1, hstaged.1], by rw [hlast.2, hcovered.2, hstaged.2]⟩

/-- Every progress row was there, or is the unit's own. -/
theorem progress (a : E.UnitApplied now x r s t) : ∀ e ∈ t.progress, e ∈ s.progress ∨
    (x.final = false ∧ e = (x.id, progressRow x ((expireProgress now s).progress.get x.id))) := by
  have hswitch : a.switched.progress = a.covered.progress := switchSchema_progress a.switch
  have hrebuilt : a.rebuilt.progress = (expireProgress now s).progress := by
    rw [a.rebuild.progress, (E.reconcileReady.within a.settle).progress, hswitch, (cover_cases a.cover).2.1,
      ((E.stageChanges _ _).within a.stage).progress, recordKeys_progress a.keys]
  have old : ∀ e ∈ a.rebuilt.progress, e ∈ s.progress := by
    intro e he
    rw [hrebuilt] at he
    exact (List.mem_filter.1 he).1
  have saved : ∀ e ∈ (saveProgress x ((expireProgress now s).progress.get x.id) a.rebuilt).progress,
      e ∈ a.rebuilt.progress ∨
        (x.final = false ∧ e = (x.id, progressRow x ((expireProgress now s).progress.get x.id))) := by
    intro e he
    unfold saveProgress at he
    have first : e ∈ (if x.final then
        { a.rebuilt with
          deliveryKeys := a.rebuilt.deliveryKeys.filter (·.1 ≠ x.id)
          progress := a.rebuilt.progress.erase x.id : Store }
        else { a.rebuilt with
          progress := a.rebuilt.progress.set x.id (progressRow x ((expireProgress now s).progress.get x.id)) }).progress := by
      simp only at he
      split at he
      · exact (List.mem_filter.1 he).1
      · exact he
    split at first
    · exact .inl (List.mem_filter.1 first).1
    · rename_i hfinal
      rcases Table.mem_set first with h | h
      · exact .inr ⟨by simpa using hfinal, h⟩
      · exact .inl h
  intro e he
  rw [congrArg Store.progress a.save] at he
  rcases saved e he with h | h
  · exact .inl (old e h)
  · exact .inr h

end Engine.UnitApplied

end Axton
