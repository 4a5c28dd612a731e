import Axton.Client.Moves

/-!
# The queue invariant

What holds of the queue tables in every state a client can reach. A call is unsent, in the one
outstanding batch, or answered; a call that was ever sent had all its predecessors settled, so a
refusal never reaches a sent call except by the server's own word (`refused_unsent`).

* `QueueInv.move`, `QueueInv.freezes` — kept by every move;
* `Client.runs_queueInv` — so it holds along every run.
-/

namespace Axton

/-- One queue row against the last acknowledged batch. -/
structure RowOk (last : Nat) (r : MutationRow) : Prop where
  window : ∀ b, r.batchId = some b → 1 ≤ b ∧ b ≤ last + 1
  sent : r.syncCursor.isSome → ∃ b, r.batchId = some b ∧ b ≤ last
  refused : r.rejectionCode.isSome → r.reconciled = true
  outcome : r.reconciled = true → r.syncCursor.isSome ∨ r.rejectionCode.isSome
  answered : ∀ b, r.batchId = some b → b ≤ last → r.syncCursor.isSome ∨ r.rejectionCode.isSome
  unanswered : ∀ b, r.batchId = some b → last < b → r.reconciled = false
  exclusive : r.syncCursor.isSome → r.rejectionCode = none

structure QueueInv (s : Store) : Prop where
  ids : (s.queue.map (·.id)).Pairwise (· < ·)
  fresh : ∀ r ∈ s.queue, r.id < s.row.nextMutationId
  edges : ∀ d ∈ s.dependencies, d.dependsOn < d.ordinal ∧ d.ordinal < s.row.nextMutationId ∧
    ∃ p ∈ s.queue, p.id = d.dependsOn
  rows : ∀ r ∈ s.queue, RowOk s.row.lastAcknowledgedBatchId r
  /-- the predecessors of a sent call are settled -/
  assigned : ∀ r ∈ s.queue, r.batchId.isSome → ∀ d ∈ s.dependencies, d.ordinal = r.id →
    ∃ p ∈ s.queue, p.id = d.dependsOn ∧ p.reconciled = true ∧ (d.kind = .lifecycle → p.rejectionCode = none)
  /-- a refused call has taken its lifecycle dependents along -/
  cascade : ∀ d ∈ s.dependencies, d.kind = .lifecycle → ∀ p ∈ s.queue, p.id = d.dependsOn →
    p.rejectionCode.isSome → ∀ r ∈ s.queue, r.id = d.ordinal → r.rejectionCode.isSome

variable {s t : Store} {P : Platform}

/-! ## Rows by id -/

theorem eq_of_id {l : List MutationRow} (h : (l.map (·.id)).Pairwise (· < ·)) {r r' : MutationRow}
    (hr : r ∈ l) (hr' : r' ∈ l) (he : r.id = r'.id) : r = r' :=
  List.inj_on_of_nodup_map (h.imp fun h => ne_of_lt h) hr hr' he

theorem mem_of_mutation {id : Nat} {r : MutationRow} (h : s.mutation id = some r) : r ∈ s.queue ∧ r.id = id :=
  ⟨List.mem_of_find?_eq_some h, by simpa using List.find?_some h⟩

theorem QueueInv.mutation_eq (inv : QueueInv s) {r : MutationRow} (hr : r ∈ s.queue) :
    s.mutation r.id = some r := by
  have hsome : (s.mutation r.id).isSome := List.find?_isSome.2 ⟨r, hr, by simp⟩
  obtain ⟨q, hq⟩ := Option.isSome_iff_exists.1 hsome
  obtain ⟨hmem, hid⟩ := mem_of_mutation hq
  rw [hq, eq_of_id inv.ids hmem hr hid]

/-! ## Settling -/

/-- What a row keeps when it is neither sent nor answered. -/
structure KeepsRow (r r' : MutationRow) : Prop where
  id : r'.id = r.id
  batchId : r'.batchId = r.batchId
  syncCursor : r'.syncCursor = r.syncCursor
  code : r'.rejectionCode = r.rejectionCode
  settled : r.reconciled = true → r'.reconciled = true
  accepted : r'.reconciled = true → r.reconciled = true ∨ r.syncCursor.isSome

theorem SettleRow.keeps {r r' : MutationRow} (h : SettleRow r r') : KeepsRow r r' := by
  rcases h with h | ⟨hs, -, h⟩
  · have e := MutationRow.mk.injEq .. ▸ h
    obtain ⟨h1, h2, h3⟩ := core_eq h
    exact ⟨e.1, e.2.2.2.2.1, h1, h2, fun h => h3.trans h, fun h => .inl (h3 ▸ h)⟩
  · have e := MutationRow.mk.injEq .. ▸ h
    exact ⟨e.1, e.2.2.2.2.1, e.2.2.2.2.2.2.2.1, e.2.2.2.2.2.2.2.2.2.2.1,
      fun _ => e.2.2.2.2.2.2.2.2.2.2.2.2.2.1, fun _ => .inr hs⟩

theorem RowOk.keep {last : Nat} {r r' : MutationRow} (h : RowOk last r) (hk : KeepsRow r r') : RowOk last r' where
  window := by rw [hk.batchId]; exact h.window
  sent := by rw [hk.batchId, hk.syncCursor]; exact h.sent
  refused := by rw [hk.code]; exact fun x => hk.settled (h.refused x)
  outcome := by
    rw [hk.syncCursor, hk.code]
    intro x
    rcases hk.accepted x with x | x
    · exact h.outcome x
    · exact .inl x
  answered := by rw [hk.batchId, hk.syncCursor, hk.code]; exact h.answered
  unanswered := by
    rw [hk.batchId]
    intro b hb hlt
    by_contra hrec
    rcases hk.accepted (by simpa using hrec) with x | x
    · rw [h.unanswered b hb hlt] at x
      cases x
    · obtain ⟨b', e, hle⟩ := h.sent x
      rw [hb] at e
      cases e
      omega
  exclusive := by rw [hk.syncCursor, hk.code]; exact h.exclusive

theorem map_map_id {f : MutationRow → MutationRow} (hid : ∀ r, (f r).id = r.id) (l : List MutationRow) :
    (l.map f).map (·.id) = l.map (·.id) := by
  rw [List.map_map]
  exact List.map_congr_left fun r _ => hid r

theorem map_id_eq {R : MutationRow → MutationRow → Prop} (hR : ∀ r r', R r r' → r'.id = r.id)
    {l l' : List MutationRow} (h : List.Forall₂ R l l') : l'.map (·.id) = l.map (·.id) :=
  map_eq_of_forall₂ (h.imp hR)

/-- Rows may settle and dependency rows may go; nothing else of the queue moves. -/
theorem QueueInv.settle (inv : QueueInv s) (hnext : t.row.nextMutationId = s.row.nextMutationId)
    (hlast : t.row.lastAcknowledgedBatchId = s.row.lastAcknowledgedBatchId)
    (hq : List.Forall₂ KeepsRow s.queue t.queue) (hdeps : ∀ d ∈ t.dependencies, d ∈ s.dependencies) : QueueInv t where
  ids := by rw [map_id_eq (fun _ _ h => h.id) hq]; exact inv.ids
  fresh r hr := by
    obtain ⟨q, hmem, hqr⟩ := forall₂_mem_right hq hr
    rw [hqr.id, hnext]
    exact inv.fresh q hmem
  edges d hd := by
    obtain ⟨h1, h2, p, hp, e⟩ := inv.edges d (hdeps d hd)
    obtain ⟨p', hp', hpp⟩ := forall₂_mem_left hq hp
    rw [hnext]
    exact ⟨h1, h2, p', hp', hpp.id.trans e⟩
  rows r hr := by
    obtain ⟨q, hmem, hqr⟩ := forall₂_mem_right hq hr
    rw [hlast]
    exact (inv.rows q hmem).keep hqr
  assigned r hr hb d hd e := by
    obtain ⟨q, hmem, hqr⟩ := forall₂_mem_right hq hr
    obtain ⟨p, hp, hpid, hprec, hlife⟩ := inv.assigned q hmem (hqr.batchId ▸ hb) d (hdeps d hd) (e.trans hqr.id)
    obtain ⟨p', hp', hpp⟩ := forall₂_mem_left hq hp
    exact ⟨p', hp', hpp.id.trans hpid, hpp.settled hprec, fun hk => hpp.code.trans (hlife hk)⟩
  cascade d hd hk p hp hpid hrej r hr hrid := by
    obtain ⟨p₀, hp₀, hpp⟩ := forall₂_mem_right hq hp
    obtain ⟨r₀, hr₀, hrr⟩ := forall₂_mem_right hq hr
    rw [hrr.code]
    rw [hpp.code] at hrej
    exact inv.cascade d (hdeps d hd) hk p₀ hp₀ (hpp.id.symm.trans hpid) hrej r₀ hr₀ (hrr.id.symm.trans hrid)

theorem QueueInv.quiet (inv : QueueInv s) (h : Quiet s t) : QueueInv t :=
  inv.settle h.nextMutationId h.lastAcknowledged (h.queue.imp fun _ _ => SettleRow.keeps)
    fun _ hd => h.dependencies ▸ hd

/-! ## Enqueueing -/

theorem newRow_ok (s : Store) (name : String) (version last : Nat) : RowOk last (Engine.newRow s name version) := by
  constructor <;> simp [Engine.newRow]

theorem mem_pushed {name : String} {version : Nat} {r : MutationRow} :
    r ∈ (s.pushed name version).queue ↔ r ∈ s.queue ∨ r = Engine.newRow s name version := by
  simp [Store.pushed]

/-- The queue with one more row and its dependencies. -/
theorem QueueInv.pushed (inv : QueueInv s) (name : String) (version : Nat) {extra : List Dependency}
    (prerequisites : List Prerequisite)
    (hextra : ∀ d ∈ extra, d.ordinal = s.row.nextMutationId ∧ d.dependsOn < s.row.nextMutationId ∧
      ∃ r ∈ s.queue, r.id = d.dependsOn ∧ r.pending = true) :
    QueueInv { s.pushed name version with dependencies := s.dependencies ++ extra, prerequisites } where
  ids := by
    simp only [Store.pushed, List.map_append, List.map_singleton]
    refine List.pairwise_append.2 ⟨inv.ids, List.pairwise_singleton _ _, ?_⟩
    intro a ha b hb
    obtain ⟨r, hr, rfl⟩ := List.mem_map.1 ha
    rw [List.mem_singleton] at hb
    subst hb
    exact inv.fresh r hr
  fresh r hr := by
    rcases mem_pushed.1 hr with hr | rfl
    · exact Nat.lt_succ_of_lt (inv.fresh r hr)
    · exact Nat.lt_succ_self _
  edges d hd := by
    rcases List.mem_append.1 hd with hd | hd
    · obtain ⟨h1, h2, p, hp, e⟩ := inv.edges d hd
      exact ⟨h1, Nat.lt_succ_of_lt h2, p, mem_pushed.2 (.inl hp), e⟩
    · obtain ⟨h1, h2, p, hp, e, -⟩ := hextra d hd
      exact ⟨h1 ▸ h2, h1 ▸ Nat.lt_succ_self _, p, mem_pushed.2 (.inl hp), e⟩
  rows r hr := by
    rcases mem_pushed.1 hr with hr | rfl
    · exact inv.rows r hr
    · exact newRow_ok s name version _
  assigned r hr hb d hd e := by
    rcases mem_pushed.1 hr with hr | rfl
    · rcases List.mem_append.1 hd with hd | hd
      · obtain ⟨p, hp, h⟩ := inv.assigned r hr hb d hd e
        exact ⟨p, mem_pushed.2 (.inl hp), h⟩
      · have := inv.fresh r hr
        have := (hextra d hd).1
        omega
    · cases hb
  cascade d hd hk p hp hpid hrej r hr hrid := by
    rcases mem_pushed.1 hp with hp | rfl
    · rcases List.mem_append.1 hd with hd | hd
      · rcases mem_pushed.1 hr with hr | rfl
        · exact inv.cascade d hd hk p hp hpid hrej r hr hrid
        · have : s.row.nextMutationId = d.ordinal := hrid
          have := (inv.edges d hd).2.1
          omega
      · -- a dependency of the new call was pending, so it is not refused
        obtain ⟨-, -, q, hq, hqid, hpend⟩ := hextra d hd
        rw [eq_of_id inv.ids hp hq (hpid.trans hqid.symm)] at hrej
        simp only [MutationRow.pending, Bool.and_eq_true, Option.isNone_iff_eq_none] at hpend
        simp [hpend.2] at hrej
    · cases hrej

theorem QueueInv.enqueues (inv : QueueInv s) (h : Enqueues s t) : QueueInv t := by
  obtain ⟨⟨name, version, u, hrec, ht⟩, ⟨extra, hdeps, hextra⟩, -⟩ := h
  have hw := inv.pushed name version t.prerequisites hextra
  refine hw.settle ?_ ?_ ?_ fun d hd => hdeps ▸ hd
  · rw [ht, hrec.row]
  · rw [ht, hrec.row]
  · rw [ht]
    exact (forall₂_of_map_eq hrec.queue).imp fun _ _ e => SettleRow.keeps (.inl e)

/-! ## Refusal -/

section Refusal
variable {rejected : Table Nat Rejection}

/-- A refusal starts from open calls. -/
def OpenCalls (rejected : Table Nat Rejection) (s : Store) : Prop :=
  ∀ r ∈ s.queue, (rejected.get r.id).isSome → r.reconciled = false

/-- No sent call hangs on an open or an unsent one: its predecessors are settled and not refused. -/
theorem sent_of_predecessor (inv : QueueInv s) (hopen : OpenCalls rejected s) {d : Dependency}
    (hd : d ∈ s.dependencies) (hk : d.kind = .lifecycle)
    (hx : (rejected.get d.dependsOn).isSome ∨ ∀ p ∈ s.queue, p.id = d.dependsOn → p.batchId = none)
    {r : MutationRow} (hr : r ∈ s.queue) (hrid : r.id = d.ordinal) : r.batchId = none := by
  by_contra hsent
  obtain ⟨p, hp, hpid, hprec, hlife⟩ := inv.assigned r hr (Option.ne_none_iff_isSome.1 hsent) d hd hrid.symm
  rcases hx with hx | hx
  · rw [hopen p hp (by rw [hpid]; exact hx)] at hprec
    cases hprec
  · rcases (inv.rows p hp).outcome hprec with hs | hj
    · obtain ⟨b, hb, -⟩ := (inv.rows p hp).sent hs
      rw [hx p hp hpid] at hb
      cases hb
    · rw [hlife hk] at hj
      cases hj

/-- **A refusal reaches no sent call but those it names.** -/
theorem refused_unsent (inv : QueueInv s) (hopen : OpenCalls rejected s) {id : Nat}
    (h : ((Engine.refused s rejected).get id).isSome) :
    (rejected.get id).isSome ∨ ∀ r ∈ s.queue, r.id = id → r.batchId = none := by
  obtain ⟨a, ha, path⟩ := Engine.get_refused_isSome.1 h
  clear h
  induction path with
  | refl => exact .inl ha
  | @tail x y _ edge ih =>
    obtain ⟨d, hd, hk, rfl, rfl⟩ := edge
    exact .inr fun r hr hrid => sent_of_predecessor inv hopen hd hk ih hr hrid

/-- A row update that refuses the closed calls keeps the invariant when it keeps each row's. -/
theorem QueueInv.refuse (inv : QueueInv s) (hopen : OpenCalls rejected s) (last : Nat)
    (f : MutationRow → MutationRow) (hid : ∀ r, (f r).id = r.id) (hbatch : ∀ r, (f r).batchId = r.batchId)
    (hmono : ∀ r, r.reconciled = true → (f r).reconciled = true)
    (hcode : ∀ r, (f r).rejectionCode.isSome ↔
      r.rejectionCode.isSome ∨ ((Engine.refused s rejected).get r.id).isSome)
    (hrows : ∀ r ∈ s.queue, RowOk last (f r)) :
    QueueInv { s with queue := s.queue.map f, row := { s.row with lastAcknowledgedBatchId := last } } where
  ids := by
    simp only [map_map_id hid]
    exact inv.ids
  fresh r' hr' := by
    obtain ⟨r, hr, rfl⟩ := List.mem_map.1 hr'
    rw [hid]
    exact inv.fresh r hr
  edges d hd := by
    obtain ⟨h1, h2, p, hp, e⟩ := inv.edges d hd
    exact ⟨h1, h2, f p, List.mem_map_of_mem hp, (hid p).trans e⟩
  rows r' hr' := by
    obtain ⟨r, hr, rfl⟩ := List.mem_map.1 hr'
    exact hrows r hr
  assigned r' hr' hb d hd e := by
    obtain ⟨r, hr, rfl⟩ := List.mem_map.1 hr'
    rw [hbatch] at hb
    rw [hid] at e
    obtain ⟨p, hp, hpid, hprec, hlife⟩ := inv.assigned r hr hb d hd e
    refine ⟨f p, List.mem_map_of_mem hp, (hid p).trans hpid, hmono p hprec, fun hk => ?_⟩
    by_contra hnew
    rcases (hcode p).1 (Option.ne_none_iff_isSome.1 hnew) with h | h
    · rw [hlife hk] at h
      cases h
    · have hsent := sent_of_predecessor inv hopen hd hk (hpid ▸ refused_unsent inv hopen h) hr e.symm
      rw [hsent] at hb
      cases hb
  cascade d hd hk p' hp' hpid hrej r' hr' hrid := by
    obtain ⟨p, hp, rfl⟩ := List.mem_map.1 hp'
    obtain ⟨r, hr, rfl⟩ := List.mem_map.1 hr'
    rw [hid] at hpid hrid
    rcases (hcode p).1 hrej with h | h
    · exact (hcode r).2 (.inl (inv.cascade d hd hk p hp hpid h r hr hrid))
    · refine (hcode r).2 (.inr ?_)
      rw [hrid]
      exact Engine.refused_closed s rejected d hd hk (hpid ▸ h)

end Refusal

@[simp] theorem rejectRow_id (closed : Table Nat Rejection) (r : MutationRow) :
    (Engine.rejectRow closed r).id = r.id := by
  unfold Engine.rejectRow; split <;> rfl

@[simp] theorem rejectRow_batchId (closed : Table Nat Rejection) (r : MutationRow) :
    (Engine.rejectRow closed r).batchId = r.batchId := by
  unfold Engine.rejectRow; split <;> rfl

@[simp] theorem rejectRow_syncCursor (closed : Table Nat Rejection) (r : MutationRow) :
    (Engine.rejectRow closed r).syncCursor = r.syncCursor := by
  unfold Engine.rejectRow; split <;> rfl

theorem rejectRow_reconciled (closed : Table Nat Rejection) (r : MutationRow) :
    (Engine.rejectRow closed r).reconciled = (r.reconciled || (closed.get r.id).isSome) := by
  unfold Engine.rejectRow
  split
  · rename_i h; simp [h]
  · rename_i h; simp [h]

theorem rejectRow_code (closed : Table Nat Rejection) (r : MutationRow) :
    (Engine.rejectRow closed r).rejectionCode.isSome ↔ r.rejectionCode.isSome ∨ (closed.get r.id).isSome := by
  unfold Engine.rejectRow
  split
  · rename_i h; simp [h]
  · rename_i h; simp [h]

/-- An unsent row stays well formed when it is refused. -/
theorem RowOk.reject {last : Nat} {r : MutationRow} {closed : Table Nat Rejection} (h : RowOk last r)
    (hun : (closed.get r.id).isSome → r.batchId = none) : RowOk last (Engine.rejectRow closed r) := by
  unfold Engine.rejectRow
  split
  · rename_i code message hc
    have hb := hun (by simp [hc])
    have hs : r.syncCursor = none := by
      by_contra hs
      obtain ⟨b, e, -⟩ := h.sent (Option.ne_none_iff_isSome.1 hs)
      rw [hb] at e
      cases e
    constructor <;> simp [hb, hs]
  · exact h

theorem openCalls_of_unsent (inv : QueueInv s) {id : Nat} {v : Rejection} {r : MutationRow}
    (hr : s.mutation id = some r) (hrec : r.reconciled = false) : OpenCalls [(id, v)] s := by
  intro q hq h
  have e : id = q.id := by
    by_contra hne
    simp [Table.get, hne] at h
  obtain ⟨hmem, hid⟩ := mem_of_mutation hr
  rwa [eq_of_id inv.ids hq hmem (e.symm.trans hid.symm)]

theorem QueueInv.cancels (inv : QueueInv s) {id : Nat} (h : Cancels id s t) : QueueInv t := by
  obtain ⟨⟨r, hr, hb, hrec⟩, href⟩ := h
  have hopen : OpenCalls [(id, (("dropped", none) : Rejection))] s := openCalls_of_unsent inv hr hrec
  have hun : ∀ q ∈ s.queue, ((Engine.refused s [(id, ("dropped", none))]).get q.id).isSome → q.batchId = none := by
    intro q hq h
    rcases refused_unsent inv hopen h with h | h
    · have e : id = q.id := by
        by_contra hne
        simp [Table.get, hne] at h
      obtain ⟨hmem, hid⟩ := mem_of_mutation hr
      rwa [eq_of_id inv.ids hq hmem (e.symm.trans hid.symm)]
    · exact h q hq rfl
  have step := inv.refuse hopen s.row.lastAcknowledgedBatchId (Engine.rejectRow _) (rejectRow_id _) (rejectRow_batchId _)
    (fun q hq => by simp [rejectRow_reconciled, hq]) (rejectRow_code _)
    fun q hq => (inv.rows q hq).reject (hun q hq)
  exact step.quiet (.ofLocal href.rest)

/-! ## Receipts -/

/-- What a rebuilt request says of its batch. -/
theorem Engine.reconstructBatch_ok {E : Engine} {b : Nat} {q : MutationRequest} (h : E.reconstructBatch s b = .ok q) :
    q.batchId = b ∧ q.digest = ⟨q.toBatchBody⟩ ∧ q.mutations.map (·.id) = (batchRows s b).map (·.id) ∧
      q.context.storeId = s.row.id := by
  simp only [reconstructBatch] at h
  split at h
  · rename_i first hfirst
    split at h
    · rename_i m hm
      simp only [bind_ok, pure_ok, batchDigest] at h
      obtain ⟨ms, hms, d, ⟨_, _, rfl⟩, _, _, _, _, rfl⟩ := h
      refine ⟨rfl, rfl, ?_, rfl⟩
      have ids : List.Forall₂ (fun (r : MutationRow) (m : Mutation) => m.id = r.id) (batchRows s b) ms := by
        refine (mapM_ok.1 hms).imp fun r m hrm => ?_
        simp only [reconstructMember, bind_ok, pure_ok] at hrm
        obtain ⟨_, _, _, _, _, _, _, _, _, _, _, _, _, _, _, _, _, _, rfl⟩ := hrm
        rfl
      exact map_eq_of_forall₂ ids
    · cases h
  · cases h

/-- The results of a receipt are those of the batch's members. -/
theorem Acknowledges.members {a : BatchAcknowledgement} (h : Acknowledges P a s t) :
    (a.results.map (·.mutationId)).Nodup ∧
      (∀ r ∈ s.queue, r.batchId = some a.batchId → (a.result r.id).isSome) ∧
      ∀ x ∈ a.results, ∃ r ∈ s.queue, r.batchId = some a.batchId ∧ r.id = x.mutationId := by
  obtain ⟨-, ⟨S, q, hq, hv⟩, -⟩ := h
  obtain ⟨-, -, hids, -⟩ := Engine.reconstructBatch_ok hq
  simp only [validateAcknowledgement, BatchAcknowledgement.validate, bind_ok, check_ok, Bool.and_eq_true,
    decide_eq_true_eq, List.all_eq_true, List.any_eq_true] at hv
  obtain ⟨_, _, _, ⟨_, _, _, _, _, hnodup, _⟩, _, _, _, ⟨hall, hsub⟩, _⟩ := hv
  refine ⟨hnodup, fun r hr hb => ?_, fun x hx => ?_⟩
  · have hmem : r.id ∈ q.mutations.map (·.id) := by
      rw [hids]
      exact List.mem_map_of_mem (List.mem_filter.2 ⟨hr, by simp [hb]⟩)
    obtain ⟨m, hm, e⟩ := List.mem_map.1 hmem
    rw [← e]
    exact hall m hm
  · obtain ⟨m, hm, e⟩ := hsub x hx
    have hmem : m.id ∈ (Engine.batchRows s a.batchId).map (·.id) := by
      rw [← hids]
      exact List.mem_map_of_mem hm
    obtain ⟨r, hr, hrid⟩ := List.mem_map.1 hmem
    obtain ⟨hr, hb⟩ := List.mem_filter.1 hr
    exact ⟨r, hr, by simpa using hb, hrid.trans e⟩

theorem result_of_mem {a : BatchAcknowledgement} (hn : (a.results.map (·.mutationId)).Nodup) {x : MutationResult}
    (hx : x ∈ a.results) : a.result x.mutationId = some x := by
  have hsome : (a.result x.mutationId).isSome := List.find?_isSome.2 ⟨x, hx, by simp⟩
  obtain ⟨y, hy⟩ := Option.isSome_iff_exists.1 hsome
  have hmem := List.mem_of_find?_eq_some hy
  have hid : y.mutationId = x.mutationId := by simpa using List.find?_some hy
  rw [hy, List.inj_on_of_nodup_map hn hmem hx hid]

theorem mem_of_result {a : BatchAcknowledgement} {id : Nat} {x : MutationResult} (h : a.result id = some x) :
    x ∈ a.results ∧ x.mutationId = id :=
  ⟨List.mem_of_find?_eq_some h, by simpa using List.find?_some h⟩

/-- A receipt refuses a call exactly when its result says so. -/
theorem get_rejections {a : BatchAcknowledgement} (hn : (a.results.map (·.mutationId)).Nodup) {id : Nat}
    {code : String} {message : Option String} :
    (Engine.rejections a).get id = some (code, message) ↔ a.result id = some ⟨id, .rejected code message⟩ := by
  constructor
  · intro h
    obtain ⟨x, hx, hxe⟩ := List.mem_filterMap.1 (Table.mem_of_get h)
    cases ho : x.outcome with
    | accepted c v ts => simp [ho] at hxe
    | rejected c m =>
      simp only [ho, Option.some.injEq, Prod.mk.injEq] at hxe
      obtain ⟨rfl, rfl, rfl⟩ := hxe
      rw [result_of_mem hn hx, ← ho]
  · intro h
    obtain ⟨hx, -⟩ := mem_of_result h
    have hsome : ((Engine.rejections a).get id).isSome :=
      Table.get_isSome_iff.2 (List.mem_map.2 ⟨(id, code, message), List.mem_filterMap.2 ⟨_, hx, rfl⟩, rfl⟩)
    obtain ⟨v, hv⟩ := Option.isSome_iff_exists.1 hsome
    obtain ⟨y, hy, hye⟩ := List.mem_filterMap.1 (Table.mem_of_get hv)
    cases ho : y.outcome with
    | accepted c v ts => simp [ho] at hye
    | rejected c m =>
      simp only [ho, Option.some.injEq, Prod.mk.injEq] at hye
      obtain ⟨hid, rfl⟩ := hye
      have e := result_of_mem hn hy
      rw [hid, h] at e
      cases e
      cases ho
      exact hv

theorem RowOk.advance {last : Nat} {r : MutationRow} (h : RowOk last r) (hle : ∀ b, r.batchId = some b → b ≤ last) :
    RowOk (last + 1) r where
  window b hb := ⟨(h.window b hb).1, by have := (h.window b hb).2; omega⟩
  sent hs := by
    obtain ⟨b, hb, hle⟩ := h.sent hs
    exact ⟨b, hb, by omega⟩
  refused := h.refused
  outcome := h.outcome
  answered b hb _ := h.answered b hb (hle b hb)
  unanswered b hb hlt := by
    have := hle b hb
    omega
  exclusive := h.exclusive

@[simp] theorem acceptRow_id (a : BatchAcknowledgement) (r : MutationRow) : (Engine.acceptRow a r).id = r.id := by
  unfold Engine.acceptRow; split <;> rfl

@[simp] theorem acceptRow_batchId (a : BatchAcknowledgement) (r : MutationRow) :
    (Engine.acceptRow a r).batchId = r.batchId := by
  unfold Engine.acceptRow; split <;> rfl

@[simp] theorem acceptRow_reconciled (a : BatchAcknowledgement) (r : MutationRow) :
    (Engine.acceptRow a r).reconciled = r.reconciled := by
  unfold Engine.acceptRow; split <;> rfl

@[simp] theorem acceptRow_code (a : BatchAcknowledgement) (r : MutationRow) :
    (Engine.acceptRow a r).rejectionCode = r.rejectionCode := by
  unfold Engine.acceptRow; split <;> rfl

theorem acceptRow_of_result_none {a : BatchAcknowledgement} {r : MutationRow} (h : a.result r.id = none) :
    Engine.acceptRow a r = r := by
  simp [Engine.acceptRow, h]

section Receipt
variable {a : BatchAcknowledgement}

/-- Only members of the batch have a result. -/
theorem Acknowledges.member_of_result (inv : QueueInv s) (h : Acknowledges P a s t) {r : MutationRow}
    (hr : r ∈ s.queue) (hres : (a.result r.id).isSome) : r.batchId = some a.batchId := by
  obtain ⟨x, hx⟩ := Option.isSome_iff_exists.1 hres
  obtain ⟨hmem, hid⟩ := mem_of_result hx
  obtain ⟨q, hq, hb, hqid⟩ := h.members.2.2 x hmem
  rwa [eq_of_id inv.ids hr hq (hid.symm.trans hqid.symm)]

/-- The members of the acknowledged batch are open. -/
theorem Acknowledges.open (inv : QueueInv s) (h : Acknowledges P a s t) {r : MutationRow} (hr : r ∈ s.queue)
    (hb : r.batchId = some a.batchId) : r.reconciled = false :=
  (inv.rows r hr).unanswered a.batchId hb (by rw [h.next]; exact Nat.lt_succ_self _)

theorem result_of_get_rejections (hn : (a.results.map (·.mutationId)).Nodup) {id : Nat}
    (h : ((Engine.rejections a).get id).isSome) : (a.result id).isSome := by
  obtain ⟨⟨code, message⟩, hv⟩ := Option.isSome_iff_exists.1 h
  rw [(get_rejections hn).1 hv]
  rfl

theorem Acknowledges.openCalls (inv : QueueInv s) (h : Acknowledges P a s t) :
    OpenCalls (Engine.rejections a) s := fun _ hr hrej =>
  h.open inv hr (h.member_of_result inv hr (result_of_get_rejections h.members.1 hrej))

/-- An accepted member is not refused. -/
theorem Acknowledges.accepted_not_refused (inv : QueueInv s) (h : Acknowledges P a s t) {r : MutationRow}
    (hr : r ∈ s.queue) {c : Nat} {v : Json} {ts : List SettlementTarget} {id : Nat}
    (hres : a.result r.id = some ⟨id, .accepted c v ts⟩) :
    (Engine.refused s (Engine.rejections a)).get r.id = none := by
  by_contra hne
  rcases refused_unsent inv (h.openCalls inv) (Option.ne_none_iff_isSome.1 hne) with hi | hi
  · obtain ⟨⟨code, message⟩, hv⟩ := Option.isSome_iff_exists.1 hi
    rw [(get_rejections h.members.1).1 hv] at hres
    cases hres
  · have hb := h.member_of_result inv hr (by simp [hres])
    rw [hi r hr rfl] at hb
    cases hb

/-- The row of a member after its receipt. -/
theorem Acknowledges.rowOk (inv : QueueInv s) (h : Acknowledges P a s t) {r : MutationRow} (hr : r ∈ s.queue) :
    RowOk (s.row.lastAcknowledgedBatchId + 1)
      (Engine.rejectRow (Engine.refused s (Engine.rejections a)) (Engine.acceptRow a r)) := by
  have ok := inv.rows r hr
  cases hres : a.result r.id with
  | none =>
    -- not a member: refused only when it was never sent
    rw [acceptRow_of_result_none hres]
    have hle : ∀ b, r.batchId = some b → b ≤ s.row.lastAcknowledgedBatchId := by
      intro b hb
      have hw := (ok.window b hb).2
      by_contra hgt
      have hlast : b = a.batchId := by rw [h.next]; omega
      have := h.members.2.1 r hr (hlast ▸ hb)
      rw [hres] at this
      cases this
    refine (ok.advance hle).reject fun href => ?_
    rcases refused_unsent inv (h.openCalls inv) href with hi | hi
    · have := result_of_get_rejections h.members.1 hi
      rw [hres] at this
      cases this
    · exact hi r hr rfl
  | some x =>
    have hb := h.member_of_result inv hr (by simp [hres])
    have hopen := h.open inv hr hb
    have hcode : r.rejectionCode = none := by
      by_contra hne
      rw [ok.refused (Option.ne_none_iff_isSome.1 hne)] at hopen
      cases hopen
    have hcursor : r.syncCursor = none := by
      by_contra hne
      obtain ⟨b, hb', hle⟩ := ok.sent (Option.ne_none_iff_isSome.1 hne)
      rw [hb, h.next] at hb'
      cases hb'
      omega
    obtain ⟨id, outcome⟩ := x
    have hnext := h.next
    cases outcome with
    | accepted c v ts =>
      have hnot := h.accepted_not_refused inv hr hres
      have hrow : Engine.rejectRow (Engine.refused s (Engine.rejections a)) (Engine.acceptRow a r) =
          { r with syncCursor := some c, result := some v, targets := ts } := by
        simp [Engine.rejectRow, Engine.acceptRow, hres, hnot]
      rw [hrow]
      constructor <;> simp [hb, hcode, hopen, hnext]
    | rejected code message =>
      have hid := (mem_of_result hres).2
      simp only at hid
      subst hid
      have hrej := Engine.get_refused_of_get (s := s) ((get_rejections h.members.1).2 hres)
      have hrow : Engine.rejectRow (Engine.refused s (Engine.rejections a)) (Engine.acceptRow a r) =
          { r with rejectionCode := some code, rejectionMessage := message, reconciled := true } := by
        simp [Engine.rejectRow, Engine.acceptRow, hres, hrej]
      rw [hrow]
      constructor <;> simp [hb, hcursor, hnext]

theorem Local.acknowledged (h : Local s t) (b : Nat) :
    Local { s with row := { s.row with lastAcknowledgedBatchId := b } }
      { t with row := { t.row with lastAcknowledgedBatchId := b } } where
  __ := h
  row := by simp only; rw [h.row]

theorem QueueInv.acknowledges (inv : QueueInv s) (h : Acknowledges P a s t) : QueueInv t := by
  obtain ⟨u, href, ht⟩ := h.refuses
  have step := inv.refuse (h.openCalls inv) (s.row.lastAcknowledgedBatchId + 1)
    (fun r => Engine.rejectRow (Engine.refused s (Engine.rejections a)) (Engine.acceptRow a r))
    (fun r => by simp) (fun r => by simp) (fun r hr => by simp [rejectRow_reconciled, hr])
    (fun r => by simp [rejectRow_code]) fun r hr => h.rowOk inv hr
  have moved := href.rest.acknowledged a.batchId
  rw [← ht] at moved
  have same : { Engine.rejectRows (Engine.refused (Engine.acceptRows a s) (Engine.rejections a)) (Engine.acceptRows a s) with
      row := { s.row with lastAcknowledgedBatchId := a.batchId } } =
      { s with
        queue := s.queue.map fun r => Engine.rejectRow (Engine.refused s (Engine.rejections a)) (Engine.acceptRow a r)
        row := { s.row with lastAcknowledgedBatchId := s.row.lastAcknowledgedBatchId + 1 } } := by
    simp only [Engine.rejectRows, Engine.acceptRows, List.map_map, h.next]
    rfl
  rw [← same] at step
  exact step.quiet (.ofLocal moved)

end Receipt

/-! ## Dismissal -/

theorem QueueInv.dismisses (inv : QueueInv s) {id : Nat} (h : Dismisses id s t) : QueueInv t := by
  obtain ⟨-, rfl⟩ := h
  refine inv.settle rfl rfl ?_ fun d hd => (List.mem_filter.1 hd).1
  refine forall₂_map fun r _ => ?_
  split
  · exact ⟨rfl, rfl, rfl, rfl, fun h => h, .inl⟩
  · exact ⟨rfl, rfl, rfl, rfl, fun h => h, .inl⟩

theorem QueueInv.move (inv : QueueInv s) (h : Move P s t) : QueueInv t := by
  cases h with
  | quiet h => exact inv.quiet h
  | enqueues h => exact inv.enqueues h
  | cancels id h => exact inv.cancels h
  | acknowledges a h => exact inv.acknowledges h
  | dismisses id h => exact inv.dismisses h

theorem QueueInv.moves (inv : QueueInv s) (h : Moves P s t) : QueueInv t := by
  induction h with
  | refl => exact inv
  | tail _ h ih => exact ih.move h

/-! ## Freezing -/

theorem Engine.outstanding_none (h : Engine.outstanding s = none) {r : MutationRow} (hr : r ∈ s.queue) {b : Nat}
    (hb : r.batchId = some b) : b ≤ s.row.lastAcknowledgedBatchId := by
  unfold Engine.outstanding at h
  rw [List.min?_eq_none_iff, List.filter_eq_nil_iff] at h
  have := h b (List.mem_filterMap.2 ⟨r, hr, hb⟩)
  simpa using this

/-- What makes a call ready to be sent. -/
theorem Engine.ready_ok {r : MutationRow} (h : Engine.ready s r = true) :
    r.batchId = none ∧ r.reconciled = false ∧ r.rejectionCode = none ∧ (∀ p ∈ s.prerequisites, p.ordinal ≠ r.id) ∧
      ∀ d ∈ s.dependencies, d.ordinal = r.id → ∀ p, s.mutation d.dependsOn = some p →
        p.reconciled = true ∧ (d.kind = .lifecycle → p.rejectionCode = none) := by
  simp only [ready, MutationRow.pending, Bool.and_eq_true, Option.isNone_iff_eq_none, Bool.not_eq_true',
    List.all_eq_true, decide_eq_true_eq, Bool.or_eq_true] at h
  obtain ⟨⟨⟨hb, hrec, hcode⟩, hpre⟩, hdeps⟩ := h
  refine ⟨hb, hrec, hcode, hpre, fun d hd hid p hp => ?_⟩
  have hblock := (hdeps d hd).resolve_left (by simp [hid])
  simp only [blocks, hp, Option.any_some, Bool.or_eq_false_iff, Bool.not_eq_false', Bool.and_eq_false_iff,
    decide_eq_false_iff_not, Option.isSome_eq_false_iff, Option.isNone_iff_eq_none] at hblock
  exact ⟨hblock.1, fun hk => hblock.2.resolve_left (by simp [hk])⟩

/-- The row a freeze leaves. -/
def frozenRow (s : Store) (b : Nat) (digest : Digest BatchBody) (r : MutationRow) : MutationRow :=
  if Engine.ready s r then
    { r with batchId := some b, batchMaterialization := some s.row.materialization, batchDigest := some digest }
  else r

/-- With no batch outstanding, exactly the ready rows are assigned and sealed. -/
theorem Freezes.queue {q : MutationRequest} (h : Freezes P q s t) :
    t.queue = s.queue.map (frozenRow s (s.row.lastAcknowledgedBatchId + 1) q.digest) := by
  rw [h.eq]
  simp only [Engine.sealBatch, Engine.assign, List.map_map]
  refine List.map_congr_left fun r hr => ?_
  simp only [Function.comp, frozenRow]
  by_cases hready : Engine.ready s r = true
  · simp [hready]
  · have hne : r.batchId ≠ some (s.row.lastAcknowledgedBatchId + 1) := by
      intro hb
      have := Engine.outstanding_none h.none hr hb
      omega
    simp [hready, hne]

theorem frozenRow_keeps (b : Nat) (digest : Digest BatchBody) (r : MutationRow) :
    (frozenRow s b digest r).id = r.id ∧ (frozenRow s b digest r).reconciled = r.reconciled ∧
      (frozenRow s b digest r).rejectionCode = r.rejectionCode := by
  unfold frozenRow; split <;> exact ⟨rfl, rfl, rfl⟩

theorem QueueInv.freezes (inv : QueueInv s) {q : MutationRequest} (h : Freezes P q s t) : QueueInv t := by
  have hq := h.queue
  have hrest : t.row = s.row ∧ t.dependencies = s.dependencies := by rw [h.eq]; exact ⟨rfl, rfl⟩
  obtain ⟨hrow, hdeps⟩ := hrest
  have row : ∀ r' ∈ t.queue, ∃ r ∈ s.queue, r' = frozenRow s (s.row.lastAcknowledgedBatchId + 1) q.digest r := by
    intro r' hr'
    rw [hq] at hr'
    obtain ⟨r, hr, e⟩ := List.mem_map.1 hr'
    exact ⟨r, hr, e.symm⟩
  have mem : ∀ r ∈ s.queue, frozenRow s (s.row.lastAcknowledgedBatchId + 1) q.digest r ∈ t.queue := by
    intro r hr
    rw [hq]
    exact List.mem_map_of_mem hr
  refine ⟨?_, ?_, ?_, ?_, ?_, ?_⟩
  · rw [hq, map_map_id fun r => (frozenRow_keeps _ _ r).1]
    exact inv.ids
  · intro r' hr'
    obtain ⟨r, hr, rfl⟩ := row r' hr'
    rw [(frozenRow_keeps _ _ r).1, hrow]
    exact inv.fresh r hr
  · intro d hd
    rw [hdeps] at hd
    obtain ⟨h1, h2, p, hp, e⟩ := inv.edges d hd
    rw [hrow]
    exact ⟨h1, h2, _, mem p hp, (frozenRow_keeps _ _ p).1.trans e⟩
  · intro r' hr'
    obtain ⟨r, hr, rfl⟩ := row r' hr'
    have ok := inv.rows r hr
    rw [hrow]
    unfold frozenRow
    split
    · rename_i hready
      obtain ⟨hb, hrec, hcode, -, -⟩ := Engine.ready_ok hready
      have hcursor : r.syncCursor = none := by
        by_contra hne
        obtain ⟨b, e, -⟩ := ok.sent (Option.ne_none_iff_isSome.1 hne)
        rw [hb] at e
        cases e
      constructor <;> simp [hrec, hcode, hcursor]
    · exact ok
  · intro r' hr' hb d hd e
    obtain ⟨r, hr, rfl⟩ := row r' hr'
    rw [hdeps] at hd
    rw [(frozenRow_keeps _ _ r).1] at e
    have target : ∃ p ∈ s.queue, p.id = d.dependsOn ∧ p.reconciled = true ∧
        (d.kind = .lifecycle → p.rejectionCode = none) := by
      by_cases hready : Engine.ready s r = true
      · obtain ⟨-, -, p, hp, hpid⟩ := inv.edges d hd
        have hpm := inv.mutation_eq hp
        rw [hpid] at hpm
        exact ⟨p, hp, hpid, (Engine.ready_ok hready).2.2.2.2 d hd e p hpm⟩
      · exact inv.assigned r hr (by simpa [frozenRow, hready] using hb) d hd e
    obtain ⟨p, hp, hpid, hprec, hlife⟩ := target
    obtain ⟨k1, k2, k3⟩ := frozenRow_keeps (s := s) (s.row.lastAcknowledgedBatchId + 1) q.digest p
    exact ⟨_, mem p hp, k1.trans hpid, k2.trans hprec, fun hk => k3.trans (hlife hk)⟩
  · intro d hd hk p' hp' hpid hrej r' hr' hrid
    obtain ⟨p, hp, rfl⟩ := row p' hp'
    obtain ⟨r, hr, rfl⟩ := row r' hr'
    rw [hdeps] at hd
    rw [(frozenRow_keeps _ _ p).1] at hpid
    rw [(frozenRow_keeps _ _ p).2.2] at hrej
    rw [(frozenRow_keeps _ _ r).1] at hrid
    rw [(frozenRow_keeps _ _ r).2.2]
    exact inv.cascade d hd hk p hp hpid hrej r hr hrid

/-! ## Every run -/

section
variable {H : Hashes}

theorem queueInv_step {c c' : Client} {e : Event} (inv : QueueInv c.store) (h : Client.Step P H c e c') :
    QueueInv c'.store := by
  rcases Client.step_moves h with h | ⟨q, t, -, -, hf, hq⟩
  · exact inv.moves h
  · exact (inv.freezes hf).quiet hq

theorem queueInv_create {id : String} {S : Schema} {stream projection : String} {c : Client}
    (h : create P H id S stream projection = .ok c) : QueueInv c.store := by
  simp only [create, bind_ok, pure_ok] at h
  obtain ⟨_, _, _, _, rfl⟩ := h
  constructor <;> simp [openRow]

/-- **The queue invariant holds in every reachable state.** -/
theorem Client.runs_queueInv {c₀ c : Client} {es : List Event} (h₀ : QueueInv c₀.store)
    (h : Client.Runs P H c₀ es c) : QueueInv c.store :=
  Trace.inv (fun c => QueueInv c.store) (fun _ _ _ => queueInv_step) h h₀

end

end Axton
