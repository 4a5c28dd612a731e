import Axton.Client.Refusal
import Axton.Client.Runtime

/-!
# What a call can do to the queue

Every call of a client moves the queue tables in one of a few ways. Each entry point is unfolded once,
here; the queue invariants are then proved per move.

* `Quiet` — no call enters the queue, is refused or is sent; accepted calls may be completed;
* `Enqueues` — one new call at the end of the queue;
* `Cancels`, `Acknowledges` — a refusal, a receipt;
* `Dismisses` — the records of a refused call are forgotten;
* `Freezes` — the next batch is assigned.

`Call.moves` says that every call but `freeze` is a chain of the first five, `freeze_cases` what
`freeze` does.
-/

namespace Axton

/-! ## Quiet moves -/

/-- One change of readiness: a task is resolved, or all its rows take one error or none. -/
inductive Readied (ps : List Prerequisite) : List Prerequisite → Prop
  | resolved (key : String) : Readied ps (ps.filter (·.key ≠ key))
  | marked (key : String) (error : Option String) :
      Readied ps (ps.map fun p => if p.key = key then { p with error } else p)

/-- A move that neither adds, refuses nor sends a call. -/
structure Quiet (s t : Store) : Prop where
  id : t.row.id = s.row.id
  stream : t.row.stream = s.row.stream
  nextMutationId : t.row.nextMutationId = s.row.nextMutationId
  lastAcknowledged : t.row.lastAcknowledgedBatchId = s.row.lastAcknowledgedBatchId
  descriptors : ∀ c d, s.descriptors.get c = some d → t.descriptors.get c = some d
  queue : List.Forall₂ SettleRow s.queue t.queue
  inputs : ∀ r ∈ t.queue, r.reconciled = false → t.inputs r.id = s.inputs r.id
  dependencies : t.dependencies = s.dependencies
  readied : Relation.ReflTransGen Readied s.prerequisites t.prerequisites

namespace Quiet

variable {s t u : Store}

theorem ofSettles (h : Settles s t) : Quiet s t where
  id := by rw [h.row]
  stream := by rw [h.row]
  nextMutationId := by rw [h.row]
  lastAcknowledged := by rw [h.row]
  descriptors c d hd := by rw [h.descriptors]; exact hd
  queue := h.queue
  inputs := h.inputs
  dependencies := h.dependencies
  readied := by rw [h.prerequisites]

theorem ofLocal (h : Local s t) : Quiet s t := ofSettles (.ofLocal h)

theorem refl (s : Store) : Quiet s s := ofLocal (.refl s)

theorem trans (h : Quiet s t) (h' : Quiet t u) : Quiet s u where
  id := h'.id.trans h.id
  stream := h'.stream.trans h.stream
  nextMutationId := h'.nextMutationId.trans h.nextMutationId
  lastAcknowledged := h'.lastAcknowledged.trans h.lastAcknowledged
  descriptors c d hd := h'.descriptors c d (h.descriptors c d hd)
  queue := forall₂_comp (R := SettleRow) (S := SettleRow) (T := SettleRow) (fun _ _ _ => SettleRow.trans) h.queue h'.queue
  inputs r hr hrec := by
    obtain ⟨q, hq, hqr⟩ := forall₂_mem_right h'.queue hr
    rw [h'.inputs r hr hrec, hqr.id_eq]
    exact h.inputs q hq (Settles.reconciled_mono hqr hrec)
  dependencies := h'.dependencies.trans h.dependencies
  readied := h.readied.trans h'.readied

/-- A write outside the queue: cursors, schema, delivery progress. -/
theorem ofRow (hid : t.row.id = s.row.id) (hst : t.row.stream = s.row.stream)
    (hn : t.row.nextMutationId = s.row.nextMutationId)
    (hl : t.row.lastAcknowledgedBatchId = s.row.lastAcknowledgedBatchId)
    (hd : ∀ c d, s.descriptors.get c = some d → t.descriptors.get c = some d)
    (hq : t.queue = s.queue) (ho : t.operations = s.operations) (hdep : t.dependencies = s.dependencies)
    (hp : Relation.ReflTransGen Readied s.prerequisites t.prerequisites) : Quiet s t where
  id := hid
  stream := hst
  nextMutationId := hn
  lastAcknowledged := hl
  descriptors := hd
  queue := by rw [hq]; exact List.forall₂_same.2 fun r _ => SettleRow.refl r
  inputs r _ _ := by simp [Store.inputs, ho]
  dependencies := hdep
  readied := hp

theorem ofStages {m : String} {cs : List AuthorityChange} (h : Stages m cs s t) : Quiet s t where
  id := by rw [h.row]
  stream := by rw [h.row]
  nextMutationId := by rw [h.row]
  lastAcknowledged := by rw [h.row]
  descriptors c d hd := by rw [h.descriptors]; exact hd
  queue := (forall₂_of_map_eq h.queue).imp fun _ _ e => .inl e
  inputs r _ _ := by
    obtain ⟨x, hx, hn⟩ := h.operations
    have hnone : x.filter (fun o => o.mutationId = r.id && o.inputPath.isSome) = [] :=
      List.filter_eq_nil_iff.2 fun o ho => by simp [hn o ho]
    simp [Store.inputs, hx, hnone]
  dependencies := h.dependencies
  readied := by rw [h.prerequisites]

end Quiet

/-! ## Moves of the queue -/

/-- The store with one more queue row. -/
def Store.pushed (s : Store) (name : String) (version : Nat) : Store :=
  { s with
    row := { s.row with nextMutationId := s.row.nextMutationId + 1 }
    queue := s.queue ++ [Engine.newRow s name version] }

/-- A call entered the queue: its dependencies are calls that were pending, and its prerequisite rows take the error their
task already has. -/
structure Enqueues (s t : Store) : Prop where
  pushed : ∃ name version u, Recording s.row.nextMutationId (s.pushed name version) u ∧
    t = { u with dependencies := t.dependencies, prerequisites := t.prerequisites }
  dependencies : ∃ extra, t.dependencies = s.dependencies ++ extra ∧
    ∀ d ∈ extra, d.ordinal = s.row.nextMutationId ∧ d.dependsOn < s.row.nextMutationId ∧
      ∃ r ∈ s.queue, r.id = d.dependsOn ∧ r.pending = true
  waits : ∃ keys : List String, t.prerequisites = s.prerequisites ++
    keys.map fun key => ⟨s.row.nextMutationId, key, Engine.knownError s key⟩

/-- Calls were refused, with all that hangs on them. -/
structure Refuses (rejected : Table Nat Rejection) (s t : Store) : Prop where
  known : ∀ id, ((Engine.refused s rejected).get id).isSome → (s.mutation id).isSome
  rest : Local (Engine.rejectRows (Engine.refused s rejected) s) t

/-- An unsent call was dropped. -/
structure Cancels (id : Nat) (s t : Store) : Prop where
  unsent : ∃ r, s.mutation id = some r ∧ r.batchId = none ∧ r.reconciled = false
  refuses : Refuses [(id, ("dropped", none))] s t

/-- The receipt of the outstanding batch was recorded. -/
structure Acknowledges (P : Platform) (a : BatchAcknowledgement) (s t : Store) : Prop where
  next : a.batchId = s.row.lastAcknowledgedBatchId + 1
  request : ∃ S q, Engine.reconstructBatch ⟨P, S⟩ s a.batchId = .ok q ∧ validateAcknowledgement P q a = .ok ()
  refuses : ∃ u, Refuses (Engine.rejections a) (Engine.acceptRows a s) u ∧
    t = { u with row := { u.row with lastAcknowledgedBatchId := a.batchId } }

/-- The store without the records of a refused call. -/
def Store.dismissed (id : Nat) (s : Store) : Store :=
  { s with
    queue := s.queue.map fun r => if r.id = id then { r with rejectionAcknowledged := true } else r
    operations := s.operations.filter (·.mutationId ≠ id)
    prerequisites := s.prerequisites.filter (·.ordinal ≠ id)
    dependencies := s.dependencies.filter fun d => d.ordinal ≠ id && d.dependsOn ≠ id }

structure Dismisses (id : Nat) (s t : Store) : Prop where
  refused : ∃ r, s.mutation id = some r ∧ r.rejectionCode.isSome ∧ r.reconciled = true
  eq : t = s.dismissed id

/-- One move of the queue that sends nothing. -/
inductive Move (P : Platform) (s t : Store) : Prop
  | quiet : Quiet s t → Move P s t
  | enqueues : Enqueues s t → Move P s t
  | cancels (id : Nat) : Cancels id s t → Move P s t
  | acknowledges (a : BatchAcknowledgement) : Acknowledges P a s t → Move P s t
  | dismisses (id : Nat) : Dismisses id s t → Move P s t

abbrev Moves (P : Platform) := Relation.ReflTransGen (Move P)

/-- The next batch was assigned. -/
structure Freezes (P : Platform) (q : MutationRequest) (s t : Store) : Prop where
  none : Engine.outstanding s = none
  settled : ∀ r ∈ s.queue, r.batchId.isSome → r.reconciled = true
  ready : ∃ r ∈ s.queue, Engine.ready s r = true
  request : ∃ S, Engine.reconstructBatch ⟨P, S⟩ (Engine.assign s (s.row.lastAcknowledgedBatchId + 1))
    (s.row.lastAcknowledgedBatchId + 1) = .ok q
  eq : t = Engine.sealBatch (Engine.assign s (s.row.lastAcknowledgedBatchId + 1))
    (s.row.lastAcknowledgedBatchId + 1) q.digest

/-! ## One lemma per call -/

namespace Engine

variable {E : Engine} {s t : Store}

theorem queued_ordinals {calls : List QueuedCall} (h : E.queued s = .ok calls) {call : QueuedCall}
    (hc : call ∈ calls) : ∃ r ∈ s.queue, r.id = call.ordinal ∧ r.pending = true := by
  obtain ⟨r, hr, hrc⟩ := forall₂_mem_right (mapM_ok.1 h) hc
  simp only [queuedCall, bind_ok, pure_ok] at hrc
  obtain ⟨_, _, rfl⟩ := hrc
  rw [List.mem_filter] at hr
  exact ⟨r, hr.1, rfl, hr.2⟩

theorem derive_pending {a : ActionDescriptor} {args : Json} {ops : List Operation} {d : Derived}
    (h : E.derive s a args ops = .ok d) {dep : Nat} (hd : dep ∈ d.lifecycle ++ d.sequence) :
    ∃ r ∈ s.queue, r.id = dep ∧ r.pending = true := by
  simp only [derive, bind_ok, pure_ok] at h
  obtain ⟨calls, hq, refs, _, sequence, _, rfl⟩ := h
  have hmem : dep ∈ calls.map (·.ordinal) := by
    rcases List.mem_append.1 hd with hd | hd
    · exact (List.mem_filter.1 hd).1
    · exact (List.mem_filter.1 (List.mem_filter.1 hd).1).1
  obtain ⟨call, hc, rfl⟩ := List.mem_map.1 hmem
  exact queued_ordinals hq hc

theorem enqueue_enqueues {x : Submission} {id : Nat} (h : E.enqueue x s = .ok (id, t)) :
    Enqueues s t ∧ id = s.row.nextMutationId := by
  simp only [enqueue, bind_ok, check_ok, pure_ok, Prod.mk.injEq, Prod.exists, linkCall] at h
  obtain ⟨a, _, _, _, input, _, operations, _, derived, hd, _, _, _, u, hfill, w, ⟨_, hlt, rfl⟩, rfl, rfl⟩ := h
  have hrec := (E.fillCall _ x.freshCompanion a.inputs input operations x.companions).within hfill
  refine ⟨⟨⟨x.name, x.version, u, hrec, rfl⟩, ?_, derived.prerequisites, ?_⟩, rfl⟩
  · refine ⟨_, congrArg (· ++ _) hrec.dependencies, ?_⟩
    intro d hmem
    have hdep : d.ordinal = s.row.nextMutationId ∧ d.dependsOn ∈ derived.lifecycle ++ derived.sequence := by
      rcases List.mem_append.1 hmem with hmem | hmem
      all_goals
        obtain ⟨dep, hdep, rfl⟩ := List.mem_map.1 hmem
        simp [hdep]
    exact ⟨hdep.1, by simpa using List.all_eq_true.1 hlt _ hdep.2, derive_pending hd hdep.2⟩
  · have hp : u.prerequisites = s.prerequisites := hrec.prerequisites
    simp only [hp, knownError]

theorem rejectOwned_refuses {rejected : Table Nat Rejection} {report : ApplyReport}
    (h : E.rejectOwned rejected s = .ok (report, t)) :
    Refuses rejected s t ∧ report.completions =
      (refused s rejected).map fun e => (⟨callId s e.1, .failed e.2.1⟩ : CallCompletion) := by
  simp only [rejectOwned, bind_ok, check_ok, pure_ok, Prod.mk.injEq, Prod.exists] at h
  obtain ⟨_, hall, reports, u, hrun, rfl, rfl⟩ := h
  refine ⟨⟨fun id hid => ?_, (E.rebuildHeld _).within hrun⟩, rfl⟩
  obtain ⟨v, hv⟩ := Option.isSome_iff_exists.1 hid
  exact List.all_eq_true.1 hall _ (Table.mem_of_get hv)

theorem dismiss_dismisses {id : Nat} (h : dismiss id s = .ok ((), t)) :
    (t = s ∧ s.mutation id = none) ∨ Dismisses id s t := by
  unfold dismiss at h
  split at h
  · rename_i hnone; cases h; exact .inl ⟨rfl, hnone⟩
  · rename_i r hr
    simp only [bind_ok, check_ok, Bool.and_eq_true, pure_ok, Prod.mk.injEq, true_and] at h
    obtain ⟨_, ⟨hrej, hrec⟩, rfl⟩ := h
    exact .inr ⟨⟨r, hr, hrej, hrec⟩, rfl⟩

/-- A drop refuses the call; a discard also dismisses it. -/
theorem cancelUnsent_cancels {id : Nat} {acknowledged : Bool} {report : ApplyReport}
    (h : E.cancelUnsent id acknowledged s = .ok (report, t)) :
    (t = s ∧ report = {}) ∨ ∃ u, Cancels id s u ∧
      ((t = u ∧ (acknowledged = true → u.mutation id = none)) ∨ Dismisses id u t) ∧ report.completions =
      (refused s [(id, ("dropped", none))]).map fun e => (⟨callId s e.1, .failed e.2.1⟩ : CallCompletion) := by
  unfold cancelUnsent at h
  split at h
  · cases h
  · rename_i r hr
    simp only [bind_ok, check_ok, Option.isNone_iff_eq_none] at h
    obtain ⟨_, hbatch, h⟩ := h
    split at h
    · cases h; exact .inl ⟨rfl, rfl⟩
    · rename_i hopen
      simp only [bind_ok, Prod.exists] at h
      obtain ⟨rep, u, hrej, h⟩ := h
      obtain ⟨href, hcs⟩ := rejectOwned_refuses hrej
      have hc : Cancels id s u := ⟨⟨r, hr, hbatch, by simpa using hopen⟩, href⟩
      split at h
      · simp only [bind_ok, pure_ok, Prod.mk.injEq, Prod.exists] at h
        obtain ⟨⟨⟩, v, hd, rfl, rfl⟩ := h
        exact .inr ⟨u, hc, (dismiss_dismisses hd).imp_left fun h => ⟨h.1, fun _ => h.2⟩, hcs⟩
      · cases h
        rename_i hack
        exact .inr ⟨_, hc, .inl ⟨rfl, fun h => absurd h hack⟩, hcs⟩

theorem acknowledge_acknowledges {a : BatchAcknowledgement} {report : ApplyReport}
    (h : E.acknowledge a s = .ok (report, t)) :
    (t = s ∧ report = {}) ∨ (Acknowledges E.platform a s t ∧ report.completions =
      (refused s (rejections a)).map fun e => (⟨callId s e.1, .failed e.2.1⟩ : CallCompletion)) := by
  simp only [acknowledge, bind_ok] at h
  obtain ⟨_, _, _, _, h⟩ := h
  split at h
  · simp only [bind_ok, pure_ok, Prod.mk.injEq] at h
    obtain ⟨_, _, rfl, rfl⟩ := h
    exact .inl ⟨rfl, rfl⟩
  · simp only [bind_ok, check_ok, decide_eq_true_eq, pure_ok, Prod.mk.injEq, Prod.exists] at h
    obtain ⟨_, hnext, q, hq, _, hv, _, _, rep, u, hrej, rfl, rfl⟩ := h
    obtain ⟨href, hcs⟩ := rejectOwned_refuses hrej
    exact .inr ⟨⟨hnext, ⟨E.schema, q, hq, hv⟩, u, href, rfl⟩, hcs⟩

/-! ### Quiet calls -/

theorem setReadiness_quiet {key : String} {r : Readiness} (h : setReadiness key r s = .ok ((), t)) : Quiet s t := by
  cases h
  refine .ofRow rfl rfl rfl rfl (fun _ _ h => h) rfl rfl rfl (.single ?_)
  cases r with
  | ready => exact .resolved key
  | failed reason => exact .marked key (some reason)
  | pending => exact .marked key none

theorem initializeStream_quiet {start : Nat} (h : initializeStream start s = .ok ((), t)) : Quiet s t := by
  simp only [initializeStream, bind_ok, pure_ok, Prod.mk.injEq, true_and] at h
  obtain ⟨_, _, rfl⟩ := h
  split
  · exact .ofRow rfl rfl rfl rfl (fun _ _ h => h) rfl rfl rfl .refl
  · exact .refl s

theorem commitSyncCoverage_quiet {after through : Nat} (h : commitSyncCoverage after through s = .ok ((), t)) :
    Quiet s t := by
  simp only [commitSyncCoverage, bind_ok, pure_ok, Prod.mk.injEq, true_and] at h
  obtain ⟨_, _, _, _, _, _, rfl⟩ := h
  exact .ofRow rfl rfl rfl rfl (fun _ _ h => h) rfl rfl rfl .refl

theorem enableSchema_quiet {previous desired : RequestContext} (h : enableSchema previous desired s = .ok ((), t)) :
    Quiet s t := by
  simp only [enableSchema, bind_ok] at h
  obtain ⟨p, _, h⟩ := h
  split at h
  · cases h
  · simp only [bind_ok, pure_ok, Prod.mk.injEq, true_and] at h
    obtain ⟨_, _, rfl⟩ := h
    exact .ofRow rfl rfl rfl rfl (fun _ _ h => h) rfl rfl rfl .refl

theorem expireProgress_quiet (now : Nat) (s : Store) : Quiet s (expireProgress now s) :=
  .ofRow rfl rfl rfl rfl (fun _ _ h => h) rfl rfl rfl .refl

/-- An authority call settles once, between quiet work. -/
theorem installAuthority_reconciles {context : RequestContext} {changes : List AuthorityChange}
    {coverage : Option (Nat × Nat)} {report : ApplyReport}
    (h : E.installAuthority context changes coverage s = .ok (report, t)) :
    ∃ s₁ s₂ x, Quiet s s₁ ∧ E.reconcileReady.run s₁ = .ok (x, s₂) ∧ Quiet s₂ t ∧
      report.completions = x.completions := by
  simp only [installAuthority, bind_ok, pure_ok, Prod.mk.injEq, Prod.exists] at h
  obtain ⟨_, _, staged, s₁, h₁, ⟨⟩, s₂, h₂, x, s₃, h₃, _, u, h₄, rfl, rfl⟩ := h
  have q₁ : Quiet s s₁ := .ofStages ((E.stageChanges _ _).within h₁)
  have q₂ : Quiet s₁ s₂ := by
    cases coverage with
    | some c => exact commitSyncCoverage_quiet h₂
    | none => cases h₂; exact .refl _
  exact ⟨s₂, s₃, x, q₁.trans q₂, h₃, .ofLocal ((E.rebuildHeld _).within h₄), rfl⟩

theorem installAuthority_quiet {context : RequestContext} {changes : List AuthorityChange}
    {coverage : Option (Nat × Nat)} {report : ApplyReport}
    (h : E.installAuthority context changes coverage s = .ok (report, t)) : Quiet s t := by
  obtain ⟨s₁, s₂, x, q₁, hx, q₂, -⟩ := installAuthority_reconciles h
  exact (q₁.trans (.ofSettles (E.reconcileReady.within hx))).trans q₂

theorem recordKeys_quiet {id : String} : ∀ {changes : List AuthorityChange} {s t : Store},
    recordKeys id changes s = .ok t → Quiet s t
  | [], s, t, h => by cases h; exact .refl _
  | c :: cs, s, t, h => by
    simp only [recordKeys, List.foldlM_cons, bind_ok, pure_ok] at h
    obtain ⟨_, ⟨_, _, _, _, rfl⟩, h⟩ := h
    have step : Quiet s { s with deliveryKeys := s.deliveryKeys ++ [(id, c.key)] } :=
      .ofRow rfl rfl rfl rfl (fun _ _ h => h) rfl rfl rfl .refl
    exact step.trans (recordKeys_quiet h)

theorem cover_quiet {x : Selected} (h : cover x s = .ok t) : Quiet s t := by
  have moved : ∀ row : StoreRow, row.id = s.row.id → row.stream = s.row.stream →
      row.nextMutationId = s.row.nextMutationId →
      row.lastAcknowledgedBatchId = s.row.lastAcknowledgedBatchId → Quiet s { s with row } :=
    fun _ h₁ h₂ h₃ h₄ => .ofRow h₁ h₂ h₃ h₄ (fun _ _ h => h) rfl rfl rfl .refl
  unfold cover at h
  split at h
  · obtain ⟨_, _, _, _, _, ⟨rfl, -⟩ | ⟨p, _, _, rfl⟩⟩ := coverBootstrap_cases h
    · exact .refl _
    · exact moved _ rfl rfl rfl rfl
  · split at h
    · obtain ⟨_, _, _, ⟨rfl, -⟩ | ⟨p, _, _, rfl⟩⟩ := coverNormal_cases h
      · exact .refl _
      · exact moved _ rfl rfl rfl rfl
    · cases h; exact .refl _

theorem switchSchema_quiet {x : Selected} (h : switchSchema x s = .ok t) : Quiet s t := by
  unfold switchSchema at h
  split at h
  · simp only [bind_ok] at h
    obtain ⟨p, _, h⟩ := h
    split at h
    · cases h
    · simp only [bind_ok, pure_ok, Prod.exists] at h
      obtain ⟨_, _, _, _, ⟨⟩, _, h, rfl⟩ := h
      exact enableSchema_quiet h
  · cases h; exact .refl _

theorem saveProgress_quiet (x : Selected) (saved : Option DeliveryProgressRow) (s : Store) :
    Quiet s (saveProgress x saved s) := by
  unfold saveProgress
  cases x.header.owner.isNone <;> cases x.final <;>
    exact .ofRow rfl rfl rfl rfl (fun _ _ h => h) rfl rfl rfl .refl

/-- A unit settles once, between quiet work, or durable progress was already past it. -/
theorem applyUnit_reconciles {now : Nat} {x : Selected} {r : Option ApplyReport × Nat}
    (h : E.applyUnit now x s = .ok (r, t)) :
    (r.1 = none ∧ Quiet s t) ∨ ∃ s₁ s₂ y report, Quiet s s₁ ∧ E.reconcileReady.run s₁ = .ok (y, s₂) ∧ Quiet s₂ t ∧
      r.1 = some report ∧ report.completions = y.completions := by
  have q₀ := expireProgress_quiet now s
  rcases applyUnit_cases E h with ⟨hr, rfl, -⟩ | ⟨⟨a⟩⟩
  · exact .inl ⟨hr, q₀⟩
  · have q₁ := q₀.trans (recordKeys_quiet a.keys)
    have q₂ := q₁.trans (.ofStages ((E.stageChanges _ _).within a.stage))
    have q₃ := q₂.trans (cover_quiet a.cover)
    have q₄ := q₃.trans (switchSchema_quiet a.switch)
    have q₅ : Quiet a.settled t :=
      (congrArg (Quiet a.settled) a.save).mpr ((Quiet.ofLocal a.rebuild).trans (saveProgress_quiet _ _ _))
    exact .inr ⟨a.switched, a.settled, a.settlement, a.report, q₄, a.settle, q₅, congrArg Prod.fst a.result, a.completions⟩

theorem applyUnit_quiet {now : Nat} {x : Selected} {r : Option ApplyReport × Nat}
    (h : E.applyUnit now x s = .ok (r, t)) : Quiet s t := by
  rcases applyUnit_reconciles h with ⟨-, q⟩ | ⟨s₁, s₂, y, _, q₁, hy, q₂, -, -⟩
  · exact q
  · exact (q₁.trans (.ofSettles (E.reconcileReady.within hy))).trans q₂

theorem reopen_quiet {P : Platform} {H : Hashes} {S : Schema} {stream projection : String}
    (h : reopen P H S stream projection s = .ok t) : Quiet s t := by
  simp only [reopen, bind_ok, pure_ok] at h
  obtain ⟨_, _, _, _, _, _, _, _, _, _, _, _, _, _, rfl⟩ := h
  refine .ofRow rfl rfl rfl rfl (fun c d hd => ?_) rfl rfl rfl .refl
  simp only [openRow]
  split
  · exact hd
  · rw [Table.get_append_singleton, hd]; rfl

/-! ### Freezing -/

/-- `freeze` returns the outstanding batch, nothing, or the batch it assigns. -/
theorem freeze_cases {r : Option MutationRequest} (h : E.freeze s = .ok (r, t)) :
    (t = s ∧ ∃ b q, outstanding s = some b ∧ E.reconstructBatch s b = .ok q ∧ r = some q) ∨
    (t = s ∧ outstanding s = none ∧ r = none) ∨
    ∃ q, r = some q ∧ Freezes E.platform q s t := by
  unfold freeze at h
  split at h
  · rename_i b hb
    simp only [bind_ok, pure_ok, Prod.mk.injEq] at h
    obtain ⟨q, hq, rfl, rfl⟩ := h
    exact .inl ⟨rfl, b, q, hb, hq, rfl⟩
  · rename_i hnone
    split at h
    · cases h; exact .inr (.inl ⟨rfl, hnone, rfl⟩)
    · rename_i hsettled
      split at h
      · cases h; exact .inr (.inl ⟨rfl, hnone, rfl⟩)
      · rename_i hready
        simp only [bind_ok, pure_ok, Prod.mk.injEq] at h
        obtain ⟨_, _, q, hq, rfl, rfl⟩ := h
        refine .inr (.inr ⟨q, rfl, hnone, fun r hr hb => ?_, by simpa using hready, ⟨E.schema, hq⟩, rfl⟩)
        by_contra hopen
        exact hsettled (List.any_eq_true.2 ⟨r, hr, by simp [hb, hopen]⟩)

end Engine

/-! ## Every step of a client -/

section
variable {P : Platform} {H : Hashes}

theorem Move.single {s t : Store} (h : Move P s t) : Moves P s t := .single h

/-- Every transaction body but `freeze` is a chain of moves. -/
theorem Call.moves {E : Engine} {x : Call} {s t : Store} {o : Output} (hx : x ≠ .freeze)
    (h : x.body E s = .ok (o, t)) : Moves E.platform s t := by
  cases x <;> simp only [Call.body, labelled, map_ok, Prod.exists, Prod.mk.injEq] at h
  case submit x => obtain ⟨id, u, h, -, rfl⟩ := h; exact .single (.enqueues (Engine.enqueue_enqueues h).1)
  case companion => obtain ⟨_, u, h, -, rfl⟩ := h; exact .single (.quiet (.ofLocal (Within.within _ h)))
  case direct => obtain ⟨_, u, h, -, rfl⟩ := h; exact .single (.quiet (.ofLocal (Within.within _ h)))
  case readiness => obtain ⟨⟨⟩, u, h, -, rfl⟩ := h; exact .single (.quiet (Engine.setReadiness_quiet h))
  case freeze => exact absurd rfl hx
  case acknowledge a =>
    obtain ⟨_, u, h, -, rfl⟩ := h
    rcases Engine.acknowledge_acknowledges h with ⟨rfl, -⟩ | ⟨h, -⟩
    · exact .refl
    · exact .single (.acknowledges a h)
  case settle => obtain ⟨_, u, h, -, rfl⟩ := h; exact .single (.quiet (.ofSettles (Within.within _ h)))
  case drop id =>
    obtain ⟨_, u, h, -, rfl⟩ := h
    rcases Engine.cancelUnsent_cancels h with ⟨rfl, -⟩ | ⟨v, hc, hd, -⟩
    · exact .refl
    · rcases hd with ⟨rfl, -⟩ | hd
      · exact .single (.cancels id hc)
      · exact (Relation.ReflTransGen.single (.cancels id hc)).tail (.dismisses id hd)
  case discard id =>
    obtain ⟨_, u, h, -, rfl⟩ := h
    rcases Engine.cancelUnsent_cancels h with ⟨rfl, -⟩ | ⟨v, hc, hd, -⟩
    · exact .refl
    · rcases hd with ⟨rfl, -⟩ | hd
      · exact .single (.cancels id hc)
      · exact (Relation.ReflTransGen.single (.cancels id hc)).tail (.dismisses id hd)
  case dismiss id =>
    obtain ⟨⟨⟩, u, h, -, rfl⟩ := h
    rcases Engine.dismiss_dismisses h with ⟨rfl, -⟩ | h
    · exact .refl
    · exact .single (.dismisses id h)
  case authority => obtain ⟨_, u, h, -, rfl⟩ := h; exact .single (.quiet (Engine.installAuthority_quiet h))
  case cache => obtain ⟨_, u, h, -, rfl⟩ := h; exact .single (.quiet (.ofLocal (Within.within _ h)))
  case cleanup now =>
    obtain ⟨_, u, h, -, rfl⟩ := h
    cases h
    exact .single (.quiet (Engine.expireProgress_quiet now s))
  case handshake => obtain ⟨⟨⟩, u, h, -, rfl⟩ := h; exact .single (.quiet (Engine.initializeStream_quiet h))
  case enableSchema => obtain ⟨⟨⟩, u, h, -, rfl⟩ := h; exact .single (.quiet (Engine.enableSchema_quiet h))
  case deliver => cases h; exact .refl
  case reopen => cases h; exact .refl

theorem published_quiet (c : Client) (t : Store) : Quiet t (c.published t).store :=
  .ofRow rfl rfl rfl rfl (fun _ _ h => h) rfl rfl rfl .refl

/-- **A step is a chain of moves, or it assigned a batch and returned its request.** -/
theorem Client.step_moves {c c' : Client} {e : Event} (h : Client.Step P H c e c') :
    Moves P c.store c'.store ∨
      ∃ q t, e.call = .freeze ∧ e.result = .ok (.request (some q)) ∧ Freezes P q c.store t ∧ Quiet t c'.store := by
  cases Client.step_moved P H h with
  | failed _ => exact .inl .refl
  | waited _ _ _ => exact .inl .refl
  | @plain o t hp hb hg hr =>
    by_cases hx : e.call = .freeze
    · rw [hx] at hb
      simp only [Call.body, labelled, map_ok, Prod.exists, Prod.mk.injEq] at hb
      obtain ⟨r, u, hb, rfl, rfl⟩ := hb
      rcases Engine.freeze_cases hb with ⟨rfl, -⟩ | ⟨rfl, -⟩ | ⟨q, rfl, hf⟩
      · exact .inl (.single (.quiet (published_quiet c c.store)))
      · exact .inl (.single (.quiet (published_quiet c c.store)))
      · exact .inr ⟨q, u, hx, hr, hf, published_quiet c u⟩
    · exact .inl ((Call.moves hx hb).tail (.quiet (published_quiet c t)))
  | cleaned _ _ _ _ => exact .inl (.single (.quiet ((Engine.expireProgress_quiet _ _).trans (published_quiet c _))))
  | applied _ _ hb _ _ => exact .inl (.single (.quiet ((Engine.applyUnit_quiet hb).trans (published_quiet c _))))
  | reopened _ hb _ => exact .inl (.single (.quiet (Engine.reopen_quiet hb)))

end

end Axton
