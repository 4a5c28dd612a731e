import Axton.Client.Moves
import Axton.Client.Evidence

/-!
# The progress of a store

The three positions of a store: where its stream started, how far its bootstrap reached and how far
its normal prefix did. They move in two calls only. The handshake stamps the start and the prefix
together, once; a delivered unit moves the prefix or the bootstrap position, in the transaction that
stages its changes.

`CursorStep` says what a step can do to the positions; everything else is read off it.
-/

namespace Axton

variable {s t : Store} {P : Platform} {H : Hashes} {E : Engine}

/-- Start, bootstrap and normal position. -/
def StoreRow.cursors (r : StoreRow) : Option Nat × Option Nat × Option Nat :=
  (r.startCursor, r.bootstrapCursor, r.cursor)

/-! ## Calls that leave the positions alone -/

theorem Local.cursors (h : Local s t) : t.row.cursors = s.row.cursors := by rw [h.row]; rfl

theorem Settles.cursors (h : Settles s t) : t.row.cursors = s.row.cursors := by rw [h.row]; rfl

theorem Stages.cursors {m : String} {cs : List AuthorityChange} (h : Stages m cs s t) :
    t.row.cursors = s.row.cursors := by rw [h.row]; rfl

theorem Enqueues.cursors (h : Enqueues s t) : t.row.cursors = s.row.cursors := by
  obtain ⟨⟨name, version, u, hrec, ht⟩, -⟩ := h
  rw [ht]
  show u.row.cursors = _
  rw [hrec.row]
  rfl

theorem Refuses.cursors {rejected : Table Nat Rejection} (h : Refuses rejected s t) :
    t.row.cursors = s.row.cursors := h.rest.cursors

theorem Acknowledges.cursors {a : BatchAcknowledgement} (h : Acknowledges P a s t) : t.row.cursors = s.row.cursors := by
  obtain ⟨u, href, ht⟩ := h.refuses
  rw [ht]
  exact href.cursors

theorem enableSchema_cursors {previous desired : RequestContext}
    (h : Engine.enableSchema previous desired s = .ok ((), t)) : t.row.cursors = s.row.cursors := by
  simp only [Engine.enableSchema, bind_ok] at h
  obtain ⟨p, _, h⟩ := h
  split at h
  · cases h
  · simp only [bind_ok, pure_ok, Prod.mk.injEq, true_and] at h
    obtain ⟨_, _, rfl⟩ := h
    rfl

theorem recordKeys_row {id : String} : ∀ {changes : List AuthorityChange} {s t : Store},
    Engine.recordKeys id changes s = .ok t → t.row = s.row ∧ t.authority = s.authority
  | [], s, t, h => by cases h; exact ⟨rfl, rfl⟩
  | c :: cs, s, t, h => by
    simp only [Engine.recordKeys, List.foldlM_cons, bind_ok, pure_ok] at h
    obtain ⟨_, ⟨_, _, _, _, rfl⟩, h⟩ := h
    obtain ⟨h1, h2⟩ := recordKeys_row h
    exact ⟨h1, h2⟩

theorem switchSchema_cursors {x : Engine.Selected} (h : Engine.switchSchema x s = .ok t) :
    t.row.cursors = s.row.cursors := by
  unfold Engine.switchSchema at h
  split at h
  · simp only [bind_ok] at h
    obtain ⟨p, _, h⟩ := h
    split at h
    · cases h
    · simp only [bind_ok, pure_ok, Prod.exists] at h
      obtain ⟨_, _, _, _, ⟨⟩, _, h, rfl⟩ := h
      exact enableSchema_cursors h
  · cases h; rfl

theorem saveProgress_row (x : Engine.Selected) (saved : Option DeliveryProgressRow) (s : Store) :
    (Engine.saveProgress x saved s).row = s.row ∧ (Engine.saveProgress x saved s).authority = s.authority := by
  unfold Engine.saveProgress
  cases x.header.owner.isNone <;> cases x.final <;> exact ⟨rfl, rfl⟩

/-- The calls of a client that may move positions: the handshake, deliveries, and an authority call
that claims coverage itself. -/
def Call.movesCursors : Call → Bool
  | .handshake _ => true
  | .authority _ _ (some _) => true
  | _ => false

theorem Call.movesCursors_cases {x : Call} (h : x.movesCursors = true) :
    (∃ start, x = .handshake start) ∨ ∃ context changes c, x = .authority context changes (some c) := by
  unfold Call.movesCursors at h
  split at h
  · exact .inl ⟨_, rfl⟩
  · exact .inr ⟨_, _, _, rfl⟩
  · cases h

theorem Call.cursors {x : Call} {o : Output} (hx : x.movesCursors = false) (h : x.body E s = .ok (o, t)) :
    t.row.cursors = s.row.cursors := by
  cases x <;> simp only [Call.body, labelled, map_ok, Prod.exists, Prod.mk.injEq] at h
  case submit => obtain ⟨id, u, h, -, rfl⟩ := h; exact (Engine.enqueue_enqueues h).1.cursors
  case companion => obtain ⟨_, u, h, -, rfl⟩ := h; exact (Within.within _ h : Local s u).cursors
  case direct => obtain ⟨_, u, h, -, rfl⟩ := h; exact (Within.within _ h : Local s u).cursors
  case readiness => obtain ⟨⟨⟩, u, h, -, rfl⟩ := h; cases h; rfl
  case freeze =>
    obtain ⟨r, u, h, -, rfl⟩ := h
    rcases Engine.freeze_cases h with ⟨rfl, -⟩ | ⟨rfl, -⟩ | ⟨q, -, hf⟩
    · rfl
    · rfl
    · rw [hf.eq]; rfl
  case acknowledge a =>
    obtain ⟨_, u, h, -, rfl⟩ := h
    rcases Engine.acknowledge_acknowledges h with ⟨rfl, -⟩ | ⟨h, -⟩
    · rfl
    · exact h.cursors
  case settle => obtain ⟨_, u, h, -, rfl⟩ := h; exact (Within.within _ h : Settles s u).cursors
  case drop id =>
    obtain ⟨_, u, h, -, rfl⟩ := h
    rcases Engine.cancelUnsent_cancels h with ⟨rfl, -⟩ | ⟨v, hc, ⟨rfl, -⟩ | hd, -⟩
    · rfl
    · exact hc.refuses.cursors
    · rw [hd.eq]; exact hc.refuses.cursors
  case discard id =>
    obtain ⟨_, u, h, -, rfl⟩ := h
    rcases Engine.cancelUnsent_cancels h with ⟨rfl, -⟩ | ⟨v, hc, ⟨rfl, -⟩ | hd, -⟩
    · rfl
    · exact hc.refuses.cursors
    · rw [hd.eq]; exact hc.refuses.cursors
  case dismiss id =>
    obtain ⟨⟨⟩, u, h, -, rfl⟩ := h
    rcases Engine.dismiss_dismisses h with ⟨rfl, -⟩ | h
    · rfl
    · rw [h.eq]; rfl
  case authority context changes coverage =>
    obtain ⟨_, u, h, -, rfl⟩ := h
    cases coverage with
    | some c => cases hx
    | none =>
      simp only [Engine.installAuthority, bind_ok, pure_ok, Prod.mk.injEq, Prod.exists] at h
      obtain ⟨_, _, staged, s₁, h₁, ⟨⟩, s₂, h₂, x, s₃, h₃, _, u, h₄, -, rfl⟩ := h
      cases h₂
      rw [(Within.within _ h₄).cursors, (Within.within _ h₃).cursors, (Within.within _ h₁).cursors]
  case cache => obtain ⟨_, u, h, -, rfl⟩ := h; exact (Within.within _ h : Local s u).cursors
  case cleanup now => obtain ⟨_, u, h, -, rfl⟩ := h; cases h; rfl
  case handshake => cases hx
  case enableSchema => obtain ⟨⟨⟩, u, h, -, rfl⟩ := h; exact enableSchema_cursors h
  case deliver => cases h; rfl
  case reopen => cases h; rfl

/-! ## Units -/

theorem Settles.reached_eq (h : Settles s t) (k : RecordKey) : (t.evidence k).reached = (s.evidence k).reached := by
  rcases h.evidence k with e | e <;> rw [e]
  exact RecordEvidence.release_reached _

theorem evidence_congr (h : t.authority = s.authority) (k : RecordKey) : t.evidence k = s.evidence k := by
  simp [Store.evidence, h]

theorem switchSchema_authority {x : Engine.Selected} (h : Engine.switchSchema x s = .ok t) : t.authority = s.authority := by
  unfold Engine.switchSchema at h
  split at h
  · simp only [bind_ok] at h
    obtain ⟨p, _, h⟩ := h
    split at h
    · cases h
    · simp only [bind_ok, pure_ok, Prod.exists, Engine.enableSchema] at h
      obtain ⟨_, _, _, _, ⟨⟩, _, ⟨q, _, h⟩, rfl⟩ := h
      split at h
      · cases h
      · simp only [bind_ok, pure_ok, Prod.mk.injEq, true_and] at h
        obtain ⟨_, _, rfl⟩ := h
        rfl
  · cases h; rfl

/-- What coverage does: nothing, the normal position to the unit's boundary, or the bootstrap position
to it. A position moves only when the plan's range starts at or below it. -/
theorem cover_cases {x : Engine.Selected} (h : Engine.cover x s = .ok t) :
    t.authority = s.authority ∧ t.progress = s.progress ∧
      (t.row = s.row ∨
      (x.header.bootstrap = false ∧ x.header.owner = none ∧ ∃ current p, s.row.cursor = some current ∧
        x.unit.through = some p ∧ current < p ∧ (∀ a, x.header.after = some a → a ≤ current) ∧
        t.row = { s.row with cursor := some p }) ∨
      (x.header.bootstrap = true ∧ ∃ start through p, s.row.startCursor = some start ∧
        x.header.through = some through ∧ through ≤ start ∧ x.unit.through = some p ∧
        (∀ a, x.header.after = some a → a ≤ s.row.bootstrapCursor.getD 0) ∧
        t.row = { s.row with bootstrapCursor := some (max p (s.row.bootstrapCursor.getD 0)) })) := by
  unfold Engine.cover at h
  split at h
  · rename_i hb
    obtain ⟨start, through, hs, ht, hle, hcase⟩ := Engine.coverBootstrap_cases h
    rcases hcase with ⟨rfl, -⟩ | ⟨p, hp, hafter, rfl⟩
    · exact ⟨rfl, rfl, .inl rfl⟩
    · exact ⟨rfl, rfl, .inr (.inr ⟨hb, start, through, p, hs, ht, hle, hp, hafter, rfl⟩)⟩
  · rename_i hb
    split at h
    · rename_i ho
      obtain ⟨current, hc, hafter, hcase⟩ := Engine.coverNormal_cases h
      rcases hcase with ⟨rfl, -⟩ | ⟨p, hp, hlt, rfl⟩
      · exact ⟨rfl, rfl, .inl rfl⟩
      · exact ⟨rfl, rfl, .inr (.inl ⟨by simpa using hb, by simpa using ho, current, p, hc, hp, hlt, hafter, rfl⟩)⟩
    · cases h
      exact ⟨rfl, rfl, .inl rfl⟩

/-- Every change the unit's transaction stages is reached in the store it leaves. -/
theorem Engine.UnitApplied.reached {now : Nat} {x : Selected} {r : Option ApplyReport × Nat}
    (a : E.UnitApplied now x r s t) : ∀ c ∈ x.changes, c.cursor ≤ (t.evidence c.key).reached := by
  intro c hc
  have h₁ := stageChanges_reached a.stage c hc
  have h₂ : (a.switched.evidence c.key) = (a.staged.evidence c.key) := by
    rw [evidence_congr (switchSchema_authority a.switch), evidence_congr (cover_cases a.cover).1]
  have h₃ : (t.evidence c.key) = (a.rebuilt.evidence c.key) :=
    evidence_congr ((congrArg Store.authority a.save).trans (saveProgress_row _ _ _).2) _
  rw [h₃, a.rebuild.reached_eq, (E.reconcileReady.within a.settle).reached_eq, h₂]
  exact h₁

theorem Engine.UnitApplied.cursors {now : Nat} {x : Selected} {r : Option ApplyReport × Nat}
    (a : E.UnitApplied now x r s t) : t.row.cursors = a.covered.row.cursors ∧ a.staged.row.cursors = s.row.cursors := by
  refine ⟨?_, ?_⟩
  · have hrow : t.row = a.rebuilt.row := (congrArg Store.row a.save).trans (saveProgress_row _ _ _).1
    rw [hrow, a.rebuild.cursors, (E.reconcileReady.within a.settle).cursors, switchSchema_cursors a.switch]
  · rw [((E.stageChanges _ _).within a.stage).cursors, (recordKeys_row a.keys).1]
    rfl

/-! ## One step -/

/-- The calls of a run whose progress is kept: deliveries come from admitted queues, and coverage is
claimed by units only. -/
def ProgressCall : Call → Prop
  | .deliver _ q => q.Admitted
  | .authority _ _ (some _) => False
  | _ => True

/-- The step applied a unit: its transaction staged every change of it. -/
def StagedUnit (c : Client) (e : Event) (c' : Client) (x : Engine.Selected) : Prop :=
  ∃ now q, e.call = .deliver now q ∧ Engine.choose now q c.store = .ok (.unit x) ∧
    ∀ ch ∈ x.changes, ch.cursor ≤ (c'.store.evidence ch.key).reached

/-- What a step can do to the positions. -/
inductive CursorStep (c : Client) (e : Event) (c' : Client) : Prop
  | same : c'.store.row.cursors = c.store.row.cursors → CursorStep c e c'
  | stamped {start : Nat} : e.call = .handshake start → c.store.row.startCursor = none →
      c'.store.row.cursors = (some start, c.store.row.bootstrapCursor, some start) → CursorStep c e c'
  | normal {x : Engine.Selected} {current p : Nat} : StagedUnit c e c' x → x.unit.through = some p →
      c.store.row.cursor = some current → current < p →
      c'.store.row.cursors = (c.store.row.startCursor, c.store.row.bootstrapCursor, some p) → CursorStep c e c'
  | bootstrap {x : Engine.Selected} {start p : Nat} : StagedUnit c e c' x → x.unit.through = some p →
      c.store.row.startCursor = some start → p ≤ start →
      c'.store.row.cursors =
        (c.store.row.startCursor, some (max p (c.store.row.bootstrapCursor.getD 0)), c.store.row.cursor) →
      CursorStep c e c'

/-- A boundary of an admitted unit lies in its plan's range. -/
theorem choose_through {now : Nat} {q : DeliveryQueue} {x : Engine.Selected} (hq : q.Admitted)
    (h : Engine.choose now q s = .ok (.unit x)) {p : Nat} (hp : x.unit.through = some p) :
    ∃ e, x.header.through = some e ∧ p ≤ e := by
  obtain ⟨plan, hm, hh, hu, -⟩ := Engine.choose_unit h
  obtain ⟨-, manifest, hman, -, ht, -⟩ := Plan.unit_digest hu
  rw [hh]
  exact DeliveryHeader.validate_through (hq _ hm).valid hman (ht.trans hp)

theorem cursorStep_applied {c : Client} {e : Event} {now : Nat} {q : DeliveryQueue} {x : Engine.Selected}
    {r : Option ApplyReport × Nat} (hcall : e.call = .deliver now q) (hq : q.Admitted)
    (hchoose : Engine.choose now q c.store = .ok (.unit x)) (a : E.UnitApplied now x r c.store t) :
    CursorStep c e (c.published t) := by
  have hstaged : StagedUnit c e (c.published t) x := ⟨now, q, hcall, hchoose, a.reached⟩
  obtain ⟨hafter, hbefore⟩ := a.cursors
  have hpub : (c.published t).store.row.cursors = a.covered.row.cursors := hafter
  simp only [StoreRow.cursors, Prod.mk.injEq] at hbefore
  obtain ⟨hS, hB, hC⟩ := hbefore
  obtain ⟨-, -, hrow | ⟨-, -, current, p, hc, hp, hlt, -, hrow⟩ | ⟨-, start, through, p, hs, ht, hle, hp, -, hrow⟩⟩ :=
    cover_cases a.cover
  · refine .same ?_
    rw [hpub, hrow]
    simp [StoreRow.cursors, hS, hB, hC]
  · refine .normal hstaged hp (hC ▸ hc) hlt ?_
    rw [hpub, hrow]
    simp [StoreRow.cursors, hS, hB]
  · obtain ⟨e', he', hpe⟩ := choose_through hq hchoose hp
    rw [ht] at he'
    cases he'
    refine .bootstrap hstaged hp (hS ▸ hs) (le_trans hpe hle) ?_
    rw [hpub, hrow]
    simp [StoreRow.cursors, hS, hB, hC]

theorem cursorStep_of_step {c c' : Client} {e : Event} (hcall : ProgressCall e.call) (h : Client.Step P H c e c') :
    CursorStep c e c' := by
  cases Client.step_moved P H h with
  | failed _ => exact .same rfl
  | waited _ _ _ => exact .same rfl
  | cleaned _ _ _ _ => exact .same rfl
  | @plain o t hplain hb _ _ =>
    cases hmoves : e.call.movesCursors with
    | false =>
      have hsame : t.row.cursors = c.store.row.cursors := Call.cursors hmoves hb
      exact .same hsame
    | true =>
      rcases Call.movesCursors_cases hmoves with ⟨start, hx⟩ | ⟨_, _, _, hx⟩
      · rw [hx] at hb
        simp only [Call.body, labelled, map_ok, Prod.exists, Prod.mk.injEq, Engine.initializeStream, bind_ok,
          pure_ok] at hb
        obtain ⟨_, _, ⟨_, _, _, rfl⟩, _, rfl⟩ := hb
        by_cases hnone : c.store.row.startCursor = none
        · refine .stamped hx hnone ?_
          simp [Client.published, hnone, StoreRow.cursors]
        · refine .same ?_
          have hsome : c.store.row.startCursor.isNone = false := by
            rw [Option.isNone_eq_false_iff]
            exact Option.ne_none_iff_isSome.1 hnone
          simp [Client.published, hsome, StoreRow.cursors]
      · rw [hx] at hcall
        cases hcall
  | @applied now q x r t hcall' hchoose hb _ _ =>
    rw [hcall'] at hcall
    rcases Engine.applyUnit_cases _ hb with ⟨-, rfl, -⟩ | ⟨⟨a⟩⟩
    · exact .same rfl
    · exact cursorStep_applied hcall' hcall hchoose a
  | reopened _ hb _ =>
    simp only [reopen, bind_ok, pure_ok] at hb
    obtain ⟨_, _, _, _, _, _, _, _, _, _, _, _, _, _, rfl⟩ := hb
    exact .same rfl

/-! ## Every run -/

/-- A bootstrap position lies under the start, the normal position above it, and both are set only
after it. -/
structure ProgressInv (r : StoreRow) : Prop where
  bootstrap : ∀ b, r.bootstrapCursor = some b → ∃ start, r.startCursor = some start ∧ b ≤ start
  cursor : ∀ c, r.cursor = some c → ∃ start, r.startCursor = some start ∧ start ≤ c

theorem ProgressInv.unset {r : StoreRow} (inv : ProgressInv r) (h : r.startCursor = none) :
    r.bootstrapCursor = none ∧ r.cursor = none := by
  refine ⟨?_, ?_⟩
  · by_contra hb
    obtain ⟨b, hb⟩ := Option.ne_none_iff_exists'.1 hb
    obtain ⟨st, hst, -⟩ := inv.bootstrap b hb
    rw [h] at hst
    cases hst
  · by_contra hc
    obtain ⟨v, hv⟩ := Option.ne_none_iff_exists'.1 hc
    obtain ⟨st, hst, -⟩ := inv.cursor v hv
    rw [h] at hst
    cases hst

/-- The start stays, the other positions advance. -/
structure Advances (r r' : StoreRow) : Prop where
  start : ∀ v, r.startCursor = some v → r'.startCursor = some v
  bootstrap : ∀ v, r.bootstrapCursor = some v → ∃ w, r'.bootstrapCursor = some w ∧ v ≤ w
  cursor : ∀ v, r.cursor = some v → ∃ w, r'.cursor = some w ∧ v ≤ w

theorem Advances.refl (r : StoreRow) : Advances r r :=
  ⟨fun _ h => h, fun v h => ⟨v, h, le_refl v⟩, fun v h => ⟨v, h, le_refl v⟩⟩

theorem Advances.trans {a b c : StoreRow} (h : Advances a b) (h' : Advances b c) : Advances a c where
  start v hv := h'.start v (h.start v hv)
  bootstrap v hv := by
    obtain ⟨w, hw, hle⟩ := h.bootstrap v hv
    obtain ⟨x, hx, hle'⟩ := h'.bootstrap w hw
    exact ⟨x, hx, le_trans hle hle'⟩
  cursor v hv := by
    obtain ⟨w, hw, hle⟩ := h.cursor v hv
    obtain ⟨x, hx, hle'⟩ := h'.cursor w hw
    exact ⟨x, hx, le_trans hle hle'⟩

theorem cursors_ext {r : StoreRow} {a b c : Option Nat} (h : r.cursors = (a, b, c)) :
    r.startCursor = a ∧ r.bootstrapCursor = b ∧ r.cursor = c := by
  simp only [StoreRow.cursors, Prod.mk.injEq] at h
  exact h

/-- One step keeps the order of the positions and only advances them. -/
theorem CursorStep.progress {c c' : Client} {e : Event} (h : CursorStep c e c') (inv : ProgressInv c.store.row) :
    ProgressInv c'.store.row ∧ Advances c.store.row c'.store.row := by
  cases h with
  | same h =>
    obtain ⟨hS, hB, hC⟩ := cursors_ext h
    refine ⟨⟨?_, ?_⟩, ⟨?_, ?_, ?_⟩⟩
    · rw [hB, hS]; exact inv.bootstrap
    · rw [hC, hS]; exact inv.cursor
    · rw [hS]; exact fun _ h => h
    · rw [hB]; exact fun v h => ⟨v, h, le_refl v⟩
    · rw [hC]; exact fun v h => ⟨v, h, le_refl v⟩
  | @stamped start _ hnone h =>
    obtain ⟨hS, hB, hC⟩ := cursors_ext h
    obtain ⟨noB, noC⟩ := inv.unset hnone
    refine ⟨⟨?_, ?_⟩, ⟨?_, ?_, ?_⟩⟩
    · simp [hB, noB]
    · simp [hC, hS]
    · simp [hnone]
    · simp [noB]
    · simp [noC]
  | @normal x current p _ _ hcur hlt h =>
    obtain ⟨hS, hB, hC⟩ := cursors_ext h
    refine ⟨⟨?_, ?_⟩, ⟨?_, ?_, ?_⟩⟩
    · rw [hB, hS]; exact inv.bootstrap
    · rw [hC, hS]
      intro v hv
      cases hv
      obtain ⟨st, hst, hle⟩ := inv.cursor current hcur
      exact ⟨st, hst, by omega⟩
    · rw [hS]; exact fun _ h => h
    · rw [hB]; exact fun v h => ⟨v, h, le_refl v⟩
    · rw [hC, hcur]
      intro v hv
      cases hv
      exact ⟨p, rfl, le_of_lt hlt⟩
  | @bootstrap x start p _ _ hst hle h =>
    obtain ⟨hS, hB, hC⟩ := cursors_ext h
    refine ⟨⟨?_, ?_⟩, ⟨?_, ?_, ?_⟩⟩
    · rw [hB, hS]
      intro v hv
      cases hv
      refine ⟨start, hst, Nat.max_le.2 ⟨hle, ?_⟩⟩
      cases hb : c.store.row.bootstrapCursor with
      | none => exact Nat.zero_le _
      | some b =>
        obtain ⟨st, hst', hle'⟩ := inv.bootstrap b hb
        rw [hst] at hst'
        cases hst'
        exact hle'
    · rw [hC, hS]; exact inv.cursor
    · rw [hS]; exact fun _ h => h
    · rw [hB]
      intro v hv
      exact ⟨_, rfl, by simp [hv]⟩
    · rw [hC]; exact fun v h => ⟨v, h, le_refl v⟩

/-- Runs whose calls are progress calls. -/
def ProgressRuns (P : Platform) (H : Hashes) (c₀ : Client) (es : List Event) (c : Client) : Prop :=
  Trace (fun c e c' => Client.Step P H c e c' ∧ ProgressCall e.call) c₀ es c

theorem progressInv_create {id : String} {S : Schema} {stream projection : String} {c : Client}
    (h : create P H id S stream projection = .ok c) : ProgressInv c.store.row := by
  simp only [create, bind_ok, pure_ok] at h
  obtain ⟨_, _, _, _, rfl⟩ := h
  constructor <;> simp [openRow]

/-- A step moved a position: it is the handshake, which stamps the start and the normal position
together on a store that has neither, or it applied the unit that claims the new position, and staged
every change of it in the same transaction. -/
def MovedByUnit (c : Client) (e : Event) (c' : Client) : Prop :=
  (∃ start, e.call = .handshake start ∧ c.store.row.startCursor = none ∧ c.store.row.cursor = none ∧
    c'.store.row.startCursor = some start ∧ c'.store.row.cursor = some start ∧
    c'.store.row.bootstrapCursor = c.store.row.bootstrapCursor) ∨
  ∃ x p, StagedUnit c e c' x ∧ x.unit.through = some p ∧
    (c'.store.row.cursor = some p ∨ c'.store.row.bootstrapCursor = some p)

theorem CursorStep.movedByUnit {c c' : Client} {e : Event} (h : CursorStep c e c') (inv : ProgressInv c.store.row)
    (hmoved : c'.store.row.bootstrapCursor ≠ c.store.row.bootstrapCursor ∨ c'.store.row.cursor ≠ c.store.row.cursor) :
    MovedByUnit c e c' := by
  cases h with
  | same h =>
    obtain ⟨-, hB, hC⟩ := cursors_ext h
    rcases hmoved with hm | hm
    · exact absurd hB hm
    · exact absurd hC hm
  | @stamped start hcall hnone h =>
    obtain ⟨hS, hB, hC⟩ := cursors_ext h
    exact .inl ⟨start, hcall, hnone, (inv.unset hnone).2, hS, hC, hB⟩
  | @normal x current p hst hp _ _ h =>
    obtain ⟨-, -, hC⟩ := cursors_ext h
    exact .inr ⟨x, p, hst, hp, .inl hC⟩
  | @bootstrap x start p hst hp _ _ h =>
    obtain ⟨-, hB, hC⟩ := cursors_ext h
    refine .inr ⟨x, p, hst, hp, .inr ?_⟩
    rcases hmoved with hm | hm
    · -- the position moved, so the boundary is the larger
      rw [hB] at hm ⊢
      cases hb : c.store.row.bootstrapCursor with
      | none => simp
      | some b =>
        rw [hb] at hm
        simp only [Option.getD_some, ne_eq, Option.some.injEq] at hm ⊢
        omega
    · exact absurd hC hm

/-- **Store progress.** In every run of progress calls, and between any two of its states: the start
is written at most once, the bootstrap and the normal position never decrease, the bootstrap position
lies under the start and the normal position above it. Apart from the handshake's stamp, a position
moves only in the transaction that stages every change of the unit claiming it; and a delivery that
selected a unit and failed, other than in its read after the commit, left the client as it was. -/
theorem store_progress {id : String} {S : Schema} {stream projection : String} {c₀ c₁ c₂ : Client}
    {es₁ es₂ : List Event} (hcreate : create P H id S stream projection = .ok c₀) (h₁ : ProgressRuns P H c₀ es₁ c₁)
    (h₂ : ProgressRuns P H c₁ es₂ c₂) :
    Advances c₁.store.row c₂.store.row ∧ ProgressInv c₁.store.row ∧
    ∀ e c', Client.Step P H c₁ e c' → ProgressCall e.call →
      (c'.store.row.bootstrapCursor ≠ c₁.store.row.bootstrapCursor ∨ c'.store.row.cursor ≠ c₁.store.row.cursor →
        MovedByUnit c₁ e c') ∧
      ∀ now q x m, e.call = .deliver now q → Engine.choose now q c₁.store = .ok (.unit x) →
        e.faults.readback = false → e.result = .error m → c' = c₁ := by
  have inv : ProgressInv c₁.store.row :=
    Trace.inv (fun c => ProgressInv c.store.row)
      (fun c e c' hc h => ((cursorStep_of_step h.2 h.1).progress hc).1) h₁ (progressInv_create hcreate)
  refine ⟨?_, inv, fun e c' hstep hcall => ⟨(cursorStep_of_step hcall hstep).movedByUnit inv, ?_⟩⟩
  · have both : ProgressInv c₂.store.row ∧ Advances c₁.store.row c₂.store.row :=
      Trace.inv (fun c => ProgressInv c.store.row ∧ Advances c₁.store.row c.store.row)
        (fun c e c' hc h => by
          obtain ⟨hinv, hadv⟩ := (cursorStep_of_step h.2 h.1).progress hc.1
          exact ⟨hinv, hc.2.trans hadv⟩)
        h₂ ⟨inv, .refl _⟩
    exact both.2
  · intro now q x m hdeliver hchoose hread herr
    cases Client.step_moved P H hstep with
    | failed _ => rfl
    | waited _ hw _ => rfl
    | plain hplain _ _ hr => rw [herr] at hr; cases hr
    | cleaned _ _ _ hr => rw [herr] at hr; cases hr
    | applied _ _ _ _ hr =>
      rcases hr with hr | ⟨hr, -⟩
      · rw [herr] at hr; cases hr
      · rw [hread] at hr; cases hr
    | reopened _ _ hr => rw [herr] at hr; cases hr

namespace Notes

/-- A store after its handshake at position 5. -/
def shaken : Client := (start.call platform hashes {} (.handshake 5)).2

def shaking : Event := ⟨.handshake 5, {}, (start.call platform hashes {} (.handshake 5)).1⟩

def noteKey (id : String) : RecordKey := ⟨"note", .obj [("id", .str id)]⟩

/-- The header of a page `5 < p ≤ 7` of one unit that holds one note. -/
def pageBody : HeaderBody where
  context := start.store.context
  planId := "page"
  bootstrap := false
  owner := none
  after := some 5
  through := some 7
  observedHead := 7
  expiresAt := 100
  units := [unitManifest 1 ⟨0, some 7, [.record (noteKey "a") 7 (.obj [("title", .str "x")])]⟩]

def page : Plan where
  header := { pageBody with digest := ⟨pageBody⟩ }
  parts := [((0, 0), ⟨"page", ⟨pageBody⟩, 0, 0, [.record (noteKey "a") 7 (.obj [("title", .str "x")])]⟩)]
  next := 0
  blocked := false
  owner := none

theorem page_admitted : DeliveryQueue.Admitted [("page", page)] := by
  intro e he
  rw [List.mem_singleton] at he
  subst he
  exact ⟨ok_of_toOption (by decide +kernel), rfl, rfl⟩

def delivery : Event := ⟨.deliver 0 [("page", page)], {}, (shaken.call platform hashes {} (.deliver 0 [("page", page)])).1⟩

def delivered : Client := (shaken.call platform hashes {} (.deliver 0 [("page", page)])).2

end Notes

/-- A page after the handshake moves the normal position from 5 to 7, by its unit. -/
theorem store_progress_note :
    Advances Notes.shaken.store.row Notes.delivered.store.row ∧ Notes.shaken.store.row.cursor = some 5 ∧
      Notes.delivered.store.row.cursor = some 7 ∧ MovedByUnit Notes.shaken Notes.delivery Notes.delivered := by
  have first : ProgressRuns Notes.platform Notes.hashes Notes.start [Notes.shaking] Notes.shaken :=
    .single ⟨rfl, trivial⟩
  have second : ProgressRuns Notes.platform Notes.hashes Notes.shaken [Notes.delivery] Notes.delivered :=
    .single ⟨rfl, Notes.page_admitted⟩
  have before : Notes.shaken.store.row.cursor = some 5 := by decide +kernel
  have after : Notes.delivered.store.row.cursor = some 7 := by decide +kernel
  obtain ⟨advances, -, moved⟩ := store_progress Notes.create_start first second
  exact ⟨advances, before, after,
    (moved Notes.delivery Notes.delivered rfl Notes.page_admitted).1 (.inr (by rw [before, after]; decide))⟩

/-- **The handshake moves the normal position without staging a unit**: it stamps the position every
later page continues from. -/
theorem handshake_moves_cursor :
    Client.Step Notes.platform Notes.hashes Notes.start Notes.shaking Notes.shaken ∧
      Notes.start.store.row.cursor = none ∧ Notes.shaken.store.row.cursor = some 5 ∧
      ¬ ∃ x, StagedUnit Notes.start Notes.shaking Notes.shaken x := by
  refine ⟨rfl, by decide +kernel, by decide +kernel, ?_⟩
  rintro ⟨x, now, q, hcall, -⟩
  cases hcall

end Axton
