import Axton.Client.Queue

/-!
# Frozen batches and the outgoing window

A frozen batch is rebuilt from rows that other calls also touch. Here: no call touches what the rebuild
of an unacknowledged batch reads (`Move.sameBatch`), so every freeze until its receipt returns the same
request; and a batch is only assigned to calls whose predecessors are settled, when no sent call is
open.
-/

namespace Axton

variable {s t u : Store} {P : Platform} {H : Hashes}

/-! ## What a move keeps of every call -/

/-- The part of a row that a request is rebuilt from never changes, and outcomes only appear. -/
structure RowGrows (r r' : MutationRow) : Prop where
  id : r'.id = r.id
  name : r'.name = r.name
  version : r'.version = r.version
  descriptor : r'.descriptor = r.descriptor
  batchId : r'.batchId = r.batchId
  batchMaterialization : r'.batchMaterialization = r.batchMaterialization
  batchDigest : r'.batchDigest = r.batchDigest
  settled : r.reconciled = true → r'.reconciled = true
  refused : r.rejectionCode.isSome → r'.rejectionCode.isSome

theorem RowGrows.refl (r : MutationRow) : RowGrows r r :=
  ⟨rfl, rfl, rfl, rfl, rfl, rfl, rfl, fun h => h, fun h => h⟩

theorem RowGrows.trans {a b c : MutationRow} (h : RowGrows a b) (h' : RowGrows b c) : RowGrows a c where
  id := h'.id.trans h.id
  name := h'.name.trans h.name
  version := h'.version.trans h.version
  descriptor := h'.descriptor.trans h.descriptor
  batchId := h'.batchId.trans h.batchId
  batchMaterialization := h'.batchMaterialization.trans h.batchMaterialization
  batchDigest := h'.batchDigest.trans h.batchDigest
  settled x := h'.settled (h.settled x)
  refused x := h'.refused (h.refused x)

theorem SettleRow.grows {r r' : MutationRow} (h : SettleRow r r') : RowGrows r r' := by
  have k := h.keeps
  rcases h with h | ⟨-, -, h⟩
  all_goals
    have e := MutationRow.mk.injEq .. ▸ h
    exact ⟨k.id, e.2.1, e.2.2.1, e.2.2.2.1, k.batchId, e.2.2.2.2.2.1, e.2.2.2.2.2.2.1, k.settled, fun x => k.code ▸ x⟩

theorem rejectRow_grows (closed : Table Nat Rejection) (r : MutationRow) : RowGrows r (Engine.rejectRow closed r) := by
  unfold Engine.rejectRow
  split
  · exact ⟨rfl, rfl, rfl, rfl, rfl, rfl, rfl, fun _ => rfl, fun _ => rfl⟩
  · exact .refl r

theorem acceptRow_grows (a : BatchAcknowledgement) (r : MutationRow) : RowGrows r (Engine.acceptRow a r) := by
  unfold Engine.acceptRow
  split
  · exact ⟨rfl, rfl, rfl, rfl, rfl, rfl, rfl, fun h => h, fun h => h⟩
  · exact .refl r

/-- A store in which every call is still there, and new calls come after. -/
structure Grows (s t : Store) : Prop where
  queue : ∃ rows extra, t.queue = rows ++ extra ∧ List.Forall₂ RowGrows s.queue rows ∧
    ∀ r ∈ extra, r.id = s.row.nextMutationId ∧ r.batchId = none
  nextMutationId : s.row.nextMutationId ≤ t.row.nextMutationId
  lastAcknowledged : s.row.lastAcknowledgedBatchId ≤ t.row.lastAcknowledgedBatchId
  id : t.row.id = s.row.id
  stream : t.row.stream = s.row.stream
  descriptors : ∀ c d, s.descriptors.get c = some d → t.descriptors.get c = some d

/-- No call was added. -/
theorem Grows.ofRows (hq : List.Forall₂ RowGrows s.queue t.queue) (hn : t.row.nextMutationId = s.row.nextMutationId)
    (hl : s.row.lastAcknowledgedBatchId ≤ t.row.lastAcknowledgedBatchId) (hid : t.row.id = s.row.id)
    (hst : t.row.stream = s.row.stream)
    (hd : ∀ c d, s.descriptors.get c = some d → t.descriptors.get c = some d) : Grows s t :=
  ⟨⟨t.queue, [], by simp, hq, by simp⟩, le_of_eq hn.symm, hl, hid, hst, hd⟩

theorem Quiet.grows (h : Quiet s t) : Grows s t :=
  .ofRows (h.queue.imp fun _ _ => SettleRow.grows) h.nextMutationId (le_of_eq h.lastAcknowledged.symm) h.id h.stream
    h.descriptors

/-- A row update followed by the row layer. -/
theorem Local.forall₂_grows {f : MutationRow → MutationRow} (hf : ∀ r, RowGrows r (f r))
    (h : Local { s with queue := s.queue.map f } t) : List.Forall₂ RowGrows s.queue t.queue := by
  have first : List.Forall₂ RowGrows s.queue (s.queue.map f) := forall₂_map fun r _ => hf r
  have second : List.Forall₂ RowGrows (s.queue.map f) t.queue := h.rows.imp fun _ _ e => SettleRow.grows (.inl e)
  exact forall₂_comp (R := RowGrows) (S := RowGrows) (T := RowGrows) (fun _ _ _ => RowGrows.trans) first second

theorem Refuses.grows {rejected : Table Nat Rejection} (h : Refuses rejected s t) :
    List.Forall₂ RowGrows s.queue t.queue := h.rest.forall₂_grows (rejectRow_grows _)

theorem Enqueues.grows (h : Enqueues s t) : Grows s t := by
  obtain ⟨⟨name, version, u, hrec, ht⟩, -⟩ := h
  have hcore : t.queue.map MutationRow.core =
      s.queue.map MutationRow.core ++ [(Engine.newRow s name version).core] := by
    rw [ht]
    simpa [Store.pushed] using hrec.queue
  obtain ⟨rows, extra, hsplit, hr, he⟩ := List.map_eq_append_iff.1 hcore
  have hrow : t.row = { (s.pushed name version).row with nextLocalSequence := u.row.nextLocalSequence } := by
    rw [ht, hrec.row]
  refine ⟨⟨rows, extra, hsplit, (forall₂_of_map_eq hr).imp fun _ _ e => SettleRow.grows (.inl e), fun r hr => ?_⟩,
    ?_, ?_, ?_, ?_, ?_⟩
  · have hmem : r.core ∈ [(Engine.newRow s name version).core] := he ▸ List.mem_map_of_mem hr
    have g : RowGrows (Engine.newRow s name version) r := SettleRow.grows (.inl (List.mem_singleton.1 hmem))
    exact ⟨g.id, g.batchId⟩
  · rw [hrow]; exact Nat.le_succ _
  · rw [hrow]; exact le_refl _
  · rw [hrow]; rfl
  · rw [hrow]; rfl
  · intro c d hd
    rw [ht]
    show u.descriptors.get c = some d
    rw [hrec.descriptors]
    exact hd

/-- **No move loses or rewrites a call.** -/
theorem Move.grows (h : Move P s t) : Grows s t := by
  cases h with
  | quiet h => exact h.grows
  | enqueues h => exact h.grows
  | cancels id h =>
    have hl := h.refuses.rest
    refine .ofRows h.refuses.grows ?_ ?_ ?_ ?_ fun c d hd => by rw [hl.descriptors]; exact hd
    all_goals rw [hl.row]; rfl
  | acknowledges a h =>
    obtain ⟨v, href, ht⟩ := h.refuses
    have hl := href.rest
    have hq : List.Forall₂ RowGrows s.queue t.queue := by
      rw [ht]
      have first : List.Forall₂ RowGrows s.queue (Engine.acceptRows a s).queue :=
        forall₂_map fun r _ => acceptRow_grows a r
      exact forall₂_comp (R := RowGrows) (S := RowGrows) (T := RowGrows) (fun _ _ _ => RowGrows.trans) first href.grows
    refine .ofRows hq ?_ ?_ ?_ ?_ fun c d hd => ?_
    · rw [ht, hl.row]; rfl
    · rw [ht, h.next]; exact Nat.le_succ _
    · rw [ht, hl.row]; rfl
    · rw [ht, hl.row]; rfl
    · rw [ht]
      show v.descriptors.get c = some d
      rw [hl.descriptors]
      exact hd
  | dismisses id h =>
    obtain ⟨-, rfl⟩ := h
    refine .ofRows (forall₂_map fun r _ => ?_) rfl (le_refl _) rfl rfl fun _ _ h => h
    split
    · exact ⟨rfl, rfl, rfl, rfl, rfl, rfl, rfl, fun h => h, fun h => h⟩
    · exact .refl r

/-! ## The saved input of a sent call -/

theorem mem_of_grows (h : Grows s t) {r' : MutationRow} (hr' : r' ∈ t.queue)
    (hold : r'.id ≠ s.row.nextMutationId ∨ r'.batchId.isSome) : ∃ r ∈ s.queue, RowGrows r r' := by
  obtain ⟨rows, extra, hq, hrows, hextra⟩ := h.queue
  rw [hq] at hr'
  rcases List.mem_append.1 hr' with hr' | hr'
  · exact forall₂_mem_right hrows hr'
  · obtain ⟨hid, hb⟩ := hextra r' hr'
    rcases hold with hold | hold
    · exact absurd hid hold
    · rw [hb] at hold
      cases hold

/-- **A move does not touch the saved input of an unacknowledged sent call.** -/
theorem Move.inputs (invs : QueueInv s) (invt : QueueInv t) (h : Move P s t) {r : MutationRow} (hr : r ∈ t.queue)
    {b : Nat} (hb : r.batchId = some b) (hlast : t.row.lastAcknowledgedBatchId < b) :
    t.inputs r.id = s.inputs r.id := by
  have hopen := (invt.rows r hr).unanswered b hb hlast
  have hgrows := h.grows
  cases h with
  | quiet h => exact h.inputs r hr hopen
  | enqueues h =>
    obtain ⟨⟨name, version, u, hrec, ht⟩, -⟩ := h
    obtain ⟨q, hq, g⟩ := mem_of_grows hgrows hr (.inr (by simp [hb]))
    have hid : r.id ≠ s.row.nextMutationId := by
      rw [g.id]
      exact ne_of_lt (invs.fresh q hq)
    obtain ⟨x, hx, hxn⟩ := hrec.operations
    have hops : t.operations = s.operations ++ x := by rw [ht]; exact hx
    have hnone : x.filter (fun o => o.mutationId = r.id && o.inputPath.isSome) = [] := by
      refine List.filter_eq_nil_iff.2 fun o ho => ?_
      rcases hxn o ho with h | h
      · simp [h]
      · simp [h, Ne.symm hid]
    simp [Store.inputs, hops, hnone]
  | cancels id h => exact h.refuses.rest.inputs r.id
  | acknowledges a h =>
    obtain ⟨v, href, ht⟩ := h.refuses
    rw [ht]
    exact href.rest.inputs r.id
  | dismisses id h =>
    obtain ⟨⟨p, hp, -, hprec⟩, rfl⟩ := h
    obtain ⟨q, hq, rfl⟩ := List.mem_map.1 hr
    -- a dismissed call is settled, an unacknowledged one is not
    have hid : q.id ≠ id := by
      intro e
      obtain ⟨hpm, hpid⟩ := mem_of_mutation hp
      rw [eq_of_id invs.ids hpm hq (hpid.trans e.symm)] at hprec
      simp [e, hprec] at hopen
    simp only [Store.inputs, Store.dismissed, hid, if_false, List.filter_filter]
    refine List.filter_congr fun o _ => ?_
    by_cases ho : o.mutationId = q.id
    · simp [ho, hid]
    · simp [ho]

/-! ## Rebuilding a request -/

theorem wireOps_congr {id : Nat} (h : t.inputs id = s.inputs id) : t.wireOps P id = s.wireOps P id := by
  show ((t.inputs id).insertionSort _).map _ = ((s.inputs id).insertionSort _).map _
  rw [h]

theorem retainedSchema_of_get (hd : ∀ c d, s.descriptors.get c = some d → t.descriptors.get c = some d)
    {context : String} {S : Schema} (h : s.retainedSchema context = .ok S) : t.retainedSchema context = .ok S := by
  unfold Store.retainedSchema at h ⊢
  split at h
  · rename_i d hget
    rw [hd _ _ hget]
    exact h
  · cases h

/-- The part of a row that its member of a request is rebuilt from. -/
structure SameMember (r r' : MutationRow) : Prop where
  id : r'.id = r.id
  name : r'.name = r.name
  version : r'.version = r.version
  descriptor : r'.descriptor = r.descriptor
  batchMaterialization : r'.batchMaterialization = r.batchMaterialization

theorem RowGrows.same {r r' : MutationRow} (g : RowGrows r r') : SameMember r r' :=
  ⟨g.id, g.name, g.version, g.descriptor, g.batchMaterialization⟩

theorem reconstructMember_of_same {S S' : Schema} {r r' : MutationRow} {m : Mutation} (g : SameMember r r')
    (hin : t.inputs r.id = s.inputs r.id) (hd : ∀ c d, s.descriptors.get c = some d → t.descriptors.get c = some d)
    (h : Engine.reconstructMember ⟨P, S⟩ s r = .ok m) : Engine.reconstructMember ⟨P, S'⟩ t r' = .ok m := by
  simp only [Engine.reconstructMember, bind_ok] at h ⊢
  obtain ⟨schema, hs, rest⟩ := h
  refine ⟨schema, by rw [g.descriptor]; exact retainedSchema_of_get hd hs, ?_⟩
  rw [g.id, g.name, g.version, wireOps_congr hin]
  exact rest

theorem reconstructMembers_of_same {S S' : Schema} {l l' : List MutationRow} {ms : List Mutation}
    (hl : List.Forall₂ SameMember l l') (hin : ∀ r ∈ l, t.inputs r.id = s.inputs r.id)
    (hd : ∀ c d, s.descriptors.get c = some d → t.descriptors.get c = some d)
    (h : l.mapM (Engine.reconstructMember ⟨P, S⟩ s) = .ok ms) :
    l'.mapM (Engine.reconstructMember ⟨P, S'⟩ t) = .ok ms := by
  rw [mapM_ok] at h ⊢
  induction hl generalizing ms with
  | nil => cases h; exact .nil
  | cons g _ ih =>
    cases h with
    | cons hm hms =>
      exact .cons (reconstructMember_of_same g (hin _ (by simp)) hd hm) (ih (fun r hr => hin r (by simp [hr])) hms)

/-- A batch whose rows, inputs and descriptors are kept is rebuilt to the same request. -/
theorem reconstructBatch_of_same {S S' : Schema} {b : Nat} {q : MutationRequest}
    (h : Engine.reconstructBatch ⟨P, S⟩ s b = .ok q)
    (hrows : List.Forall₂ SameMember (Engine.batchRows s b) (Engine.batchRows t b))
    (hdig : ∀ r ∈ Engine.batchRows t b, r.batchDigest.all (· = q.digest) = true)
    (hin : ∀ r ∈ Engine.batchRows s b, t.inputs r.id = s.inputs r.id) (hid : t.row.id = s.row.id)
    (hst : t.row.stream = s.row.stream) (hd : ∀ c d, s.descriptors.get c = some d → t.descriptors.get c = some d) :
    Engine.reconstructBatch ⟨P, S'⟩ t b = .ok q := by
  simp only [Engine.reconstructBatch] at h ⊢
  generalize Engine.batchRows s b = ls at *
  generalize Engine.batchRows t b = lt at *
  cases hrows with
  | nil => cases h
  | @cons r r' ls lt g gs =>
    simp only [List.head?_cons, g.batchMaterialization] at h ⊢
    split at h
    · rename_i m hm
      simp only [bind_ok, check_ok, pure_ok] at h ⊢
      obtain ⟨ms, hms, d, hbody, _, hval, _, -, rfl⟩ := h
      have hctx : t.context = { s.context with materialization := t.row.materialization } := by
        simp [Store.context, hid, hst]
      refine ⟨ms, reconstructMembers_of_same (.cons g gs) hin hd hms, d, ?_, (), ?_, (), List.all_eq_true.2 hdig, ?_⟩
      · rw [hctx]; exact hbody
      · rw [hctx]; exact hval
      · rw [hctx]
    · cases h

/-- The rows of a rebuilt batch agree with its digest. -/
theorem reconstructBatch_digests {E : Engine} {b : Nat} {q : MutationRequest} (h : E.reconstructBatch s b = .ok q)
    {r : MutationRow} (hr : r ∈ Engine.batchRows s b) : r.batchDigest.all (· = q.digest) = true := by
  simp only [Engine.reconstructBatch] at h
  split at h
  · split at h
    · simp only [bind_ok, check_ok, pure_ok] at h
      obtain ⟨ms, -, d, -, _, -, _, hall, rfl⟩ := h
      exact List.all_eq_true.1 hall r hr
    · cases h
  · cases h

theorem batchRows_grows (h : Grows s t) (b : Nat) :
    List.Forall₂ RowGrows (Engine.batchRows s b) (Engine.batchRows t b) := by
  obtain ⟨rows, extra, hq, hrows, hextra⟩ := h.queue
  have hnone : extra.filter (fun r => decide (r.batchId = some b)) = [] :=
    List.filter_eq_nil_iff.2 fun r hr => by simp [(hextra r hr).2]
  simp only [Engine.batchRows, hq, List.filter_append, hnone, List.append_nil]
  exact forall₂_filter (fun _ _ g => by rw [g.batchId]) hrows

/-- **Until its receipt, no move changes what a frozen batch is rebuilt to.** -/
theorem Move.sameRequest (invs : QueueInv s) (h : Move P s t) {b : Nat} {q : MutationRequest} {S : Schema} (S' : Schema)
    (hq : Engine.reconstructBatch ⟨P, S⟩ s b = .ok q) (hlast : t.row.lastAcknowledgedBatchId < b) :
    Engine.reconstructBatch ⟨P, S'⟩ t b = .ok q := by
  have hg := h.grows
  have hrows := batchRows_grows hg b
  refine reconstructBatch_of_same hq (hrows.imp fun _ _ g => g.same) (fun r' hr' => ?_) (fun r hr => ?_)
    hg.id hg.stream hg.descriptors
  · obtain ⟨r, hr, g⟩ := forall₂_mem_right hrows hr'
    rw [g.batchDigest]
    exact reconstructBatch_digests hq hr
  · obtain ⟨r', hr', g⟩ := forall₂_mem_left hrows hr
    obtain ⟨hmem, hb⟩ := List.mem_filter.1 hr'
    rw [← g.id]
    exact h.inputs invs (invs.move h) hmem (by simpa using hb) hlast

theorem Moves.lastAcknowledged (h : Moves P s t) : s.row.lastAcknowledgedBatchId ≤ t.row.lastAcknowledgedBatchId := by
  induction h with
  | refl => exact le_refl _
  | tail _ h ih => exact le_trans ih h.grows.lastAcknowledged

theorem Moves.id (h : Moves P s t) : t.row.id = s.row.id := by
  induction h with
  | refl => rfl
  | tail _ h ih => exact h.grows.id.trans ih

theorem Moves.sameRequest (invs : QueueInv s) (h : Moves P s t) {b : Nat} {q : MutationRequest} {S : Schema}
    (hq : Engine.reconstructBatch ⟨P, S⟩ s b = .ok q) (hlast : t.row.lastAcknowledgedBatchId < b) :
    Engine.reconstructBatch ⟨P, S⟩ t b = .ok q := by
  induction h with
  | refl => exact hq
  | tail hm h ih =>
    have hmid := h.grows.lastAcknowledged
    exact h.sameRequest (invs.moves hm) S (ih (by omega)) hlast

/-- The batch a freeze assigns is rebuilt to the request it returned. -/
theorem Freezes.sameRequest {q : MutationRequest} (h : Freezes P q s t) (S' : Schema) :
    Engine.reconstructBatch ⟨P, S'⟩ t (s.row.lastAcknowledgedBatchId + 1) = .ok q := by
  obtain ⟨S, hq⟩ := h.request
  have hrows : Engine.batchRows t (s.row.lastAcknowledgedBatchId + 1) =
      (Engine.batchRows (Engine.assign s (s.row.lastAcknowledgedBatchId + 1)) (s.row.lastAcknowledgedBatchId + 1)).map
        fun r => { r with batchDigest := some q.digest } := by
    rw [h.eq]
    simp only [Engine.batchRows, Engine.sealBatch, List.filter_map]
    have hp : ((fun r : MutationRow => decide (r.batchId = some (s.row.lastAcknowledgedBatchId + 1))) ∘ fun r =>
        if r.batchId = some (s.row.lastAcknowledgedBatchId + 1) then { r with batchDigest := some q.digest } else r) =
        fun r => decide (r.batchId = some (s.row.lastAcknowledgedBatchId + 1)) := by
      funext r
      by_cases hb : r.batchId = some (s.row.lastAcknowledgedBatchId + 1) <;> simp [hb]
    rw [hp]
    refine List.map_congr_left fun r hr => ?_
    have hb := (List.mem_filter.1 hr).2
    simp only [decide_eq_true_eq] at hb
    simp [hb]
  refine reconstructBatch_of_same hq ?_ ?_ ?_ ?_ ?_ ?_
  · rw [hrows]
    exact forall₂_map fun r _ => ⟨rfl, rfl, rfl, rfl, rfl⟩
  · rw [hrows]
    intro r hr
    obtain ⟨r₀, -, rfl⟩ := List.mem_map.1 hr
    simp
  · intro r _
    rw [h.eq]
    rfl
  · rw [h.eq]; rfl
  · rw [h.eq]; rfl
  · rw [h.eq]; exact fun _ _ h => h

/-! ## The outstanding batch -/

theorem outstanding_eq (inv : QueueInv s) {r : MutationRow} (hr : r ∈ s.queue) {b : Nat} (hb : r.batchId = some b)
    (hlast : s.row.lastAcknowledgedBatchId < b) : Engine.outstanding s = some b := by
  have hmem : b ∈ (s.queue.filterMap (·.batchId)).filter (s.row.lastAcknowledgedBatchId < ·) :=
    List.mem_filter.2 ⟨List.mem_filterMap.2 ⟨r, hr, hb⟩, by simpa using hlast⟩
  cases ho : Engine.outstanding s with
  | none =>
    have := Engine.outstanding_none ho hr hb
    omega
  | some a =>
    -- every batch above the last acknowledged one is the next one
    obtain ⟨hin, hgt⟩ := List.mem_filter.1 (List.min?_mem ho)
    obtain ⟨p, hp, hpa⟩ := List.mem_filterMap.1 hin
    have h1 := ((inv.rows p hp).window a hpa).2
    have h2 := ((inv.rows r hr).window b hb).2
    simp only [decide_eq_true_eq] at hgt
    congr 1
    omega

theorem exists_batchRow {E : Engine} {b : Nat} {q : MutationRequest} (h : E.reconstructBatch s b = .ok q) :
    ∃ r ∈ s.queue, r.batchId = some b := by
  simp only [Engine.reconstructBatch] at h
  split at h
  · rename_i r hr
    obtain ⟨hmem, hb⟩ := List.mem_filter.1 (List.mem_of_mem_head? hr)
    exact ⟨r, hmem, by simpa using hb⟩
  · cases h

/-- A frozen unacknowledged batch is what `freeze` returns. -/
theorem freeze_eq (inv : QueueInv s) {S : Schema} {b : Nat} {q : MutationRequest}
    (h : Engine.reconstructBatch ⟨P, S⟩ s b = .ok q) (hlast : s.row.lastAcknowledgedBatchId < b) (S' : Schema) :
    Engine.freeze ⟨P, S'⟩ s = .ok (some q, s) := by
  obtain ⟨r, hr, hb⟩ := exists_batchRow h
  have same : Engine.reconstructBatch ⟨P, S'⟩ s b = .ok q :=
    (Move.quiet (.refl s)).sameRequest inv S' h hlast
  simp [Engine.freeze, outstanding_eq inv hr hb hlast, same]

/-- The client still rebuilds `q`, until its receipt. -/
def Holds (P : Platform) (q : MutationRequest) (c : Client) : Prop :=
  c.store.row.lastAcknowledgedBatchId < q.batchId →
    ∃ S, Engine.reconstructBatch ⟨P, S⟩ c.store q.batchId = .ok q

theorem holds_step {q : MutationRequest} {c c' : Client} {e : Event} (inv : QueueInv c.store)
    (hq : Holds P q c) (h : Client.Step P H c e c') : Holds P q c' := by
  intro hlast
  rcases Client.step_moves h with h | ⟨q', t, -, -, hf, hquiet⟩
  · obtain ⟨S, hS⟩ := hq (lt_of_le_of_lt h.lastAcknowledged hlast)
    exact ⟨S, h.sameRequest inv hS hlast⟩
  · -- a new batch is only assigned with none outstanding
    have hl : t.row.lastAcknowledgedBatchId = c.store.row.lastAcknowledgedBatchId := by rw [hf.eq]; rfl
    rw [hquiet.lastAcknowledged, hl] at hlast
    obtain ⟨S, hS⟩ := hq hlast
    obtain ⟨r, hr, hb⟩ := exists_batchRow hS
    have := Engine.outstanding_none hf.none hr hb
    omega

/-- A returned request is held. -/
theorem holds_of_freeze {q : MutationRequest} {c c' : Client} {f : Faults} (inv : QueueInv c.store)
    (h : Client.Step P H c ⟨.freeze, f, .ok (.request (some q))⟩ c') : Holds P q c' := by
  intro hlast
  cases Client.step_moved P H h with
  | failed e => cases e
  | waited e _ _ => cases e
  | cleaned e _ _ _ => cases e
  | applied e _ _ _ _ => cases e
  | reopened e _ _ => cases e
  | @plain o t _ hb _ hr =>
    cases hr
    simp only [Call.body, labelled, map_ok, Prod.exists, Prod.mk.injEq, Output.request.injEq] at hb
    obtain ⟨r, u, hb, rfl, rfl⟩ := hb
    rcases Engine.freeze_cases hb with ⟨rfl, b, q', _, hq, e⟩ | ⟨_, _, e⟩ | ⟨q', e, hf⟩
    · cases e
      have hid := (Engine.reconstructBatch_ok hq).1
      rw [hid] at hlast ⊢
      exact ⟨c.schema, (Move.quiet (published_quiet c c.store)).sameRequest inv _ hq hlast⟩
    · cases e
    · cases e
      have hrebuilt := hf.sameRequest c.schema
      have hid := (Engine.reconstructBatch_ok hrebuilt).1
      rw [hid] at hlast ⊢
      exact ⟨c.schema, (Move.quiet (published_quiet c u)).sameRequest (inv.freezes hf) _ hrebuilt hlast⟩

theorem freeze_of_holds {q : MutationRequest} {c c' : Client} {f : Faults} {r : Except String Output}
    (inv : QueueInv c.store) (hfence : c.Fenced) (hq : Holds P q c)
    (hlast : c.store.row.lastAcknowledgedBatchId < q.batchId) (hf : f.commit = false)
    (h : Client.Step P H c ⟨.freeze, f, r⟩ c') : r = .ok (.request (some q)) := by
  obtain ⟨S, hS⟩ := hq hlast
  have hbody : Engine.freeze ⟨P, c.schema⟩ c.store = .ok (some q, c.store) := freeze_eq inv hS hlast c.schema
  have hwrite : c.call P H f .freeze = (.ok (.request (some q)), c.published c.store) := by
    simp only [Client.call, Client.write, Call.body, Client.engine, labelled, hbody, Except.map, hf]
    rw [if_neg fun hne => hne hfence]
    rfl
  have := h.symm.trans hwrite
  exact congrArg Prod.fst this

/-! ## Assignment -/

/-- A dependency that was recorded once: still recorded, or its call is refused, or it was a sequence
dependency on a call that is settled by now. -/
def Recorded (d : Dependency) (s : Store) : Prop :=
  d.ordinal < s.row.nextMutationId ∧ (d ∈ s.dependencies ∨
    (∀ r ∈ s.queue, r.id = d.ordinal → r.rejectionCode.isSome) ∨
    (d.kind = .sequence ∧ ∃ p ∈ s.queue, p.id = d.dependsOn ∧ p.reconciled = true))

theorem Grows.refused (h : Grows s t) {id : Nat} (hid : id < s.row.nextMutationId)
    (hs : ∀ r ∈ s.queue, r.id = id → r.rejectionCode.isSome) : ∀ r ∈ t.queue, r.id = id → r.rejectionCode.isSome := by
  intro r' hr' e
  obtain ⟨r, hr, g⟩ := mem_of_grows h hr' (.inl (by omega))
  exact g.refused (hs r hr (g.id.symm.trans e))

theorem Grows.settled (h : Grows s t) {id : Nat} (hs : ∃ p ∈ s.queue, p.id = id ∧ p.reconciled = true) :
    ∃ p ∈ t.queue, p.id = id ∧ p.reconciled = true := by
  obtain ⟨p, hp, hid, hrec⟩ := hs
  obtain ⟨rows, extra, hq, hrows, -⟩ := h.queue
  obtain ⟨p', hp', g⟩ := forall₂_mem_left hrows hp
  exact ⟨p', hq ▸ List.mem_append_left _ hp', g.id.trans hid, g.settled hrec⟩

theorem recorded_move {d : Dependency} (inv : QueueInv s) (hd : Recorded d s) (h : Move P s t) : Recorded d t := by
  have hg := h.grows
  obtain ⟨hlt, hd⟩ := hd
  refine ⟨lt_of_lt_of_le hlt hg.nextMutationId, ?_⟩
  rcases hd with hd | hd | ⟨hk, hd⟩
  · have keep : t.dependencies = s.dependencies → d ∈ t.dependencies := fun e => e ▸ hd
    cases h with
    | quiet h => exact .inl (keep h.dependencies)
    | enqueues h =>
      obtain ⟨extra, hdeps, -⟩ := h.dependencies
      exact .inl (hdeps ▸ List.mem_append_left _ hd)
    | cancels id h => exact .inl (keep h.refuses.rest.dependencies)
    | acknowledges a h =>
      obtain ⟨v, href, ht⟩ := h.refuses
      exact .inl (keep (by rw [ht]; exact href.rest.dependencies))
    | dismisses id h =>
      obtain ⟨⟨p, hp, hrej, hrec⟩, rfl⟩ := h
      obtain ⟨hpm, hpid⟩ := mem_of_mutation hp
      by_cases ho : d.ordinal = id
      · refine .inr (.inl (hg.refused hlt fun r hr e => ?_))
        rw [eq_of_id inv.ids hr hpm (e.trans (ho.trans hpid.symm))]
        exact hrej
      · by_cases hon : d.dependsOn = id
        · cases hk : d.kind with
          | lifecycle =>
            exact .inr (.inl (hg.refused hlt fun r hr e =>
              inv.cascade d hd hk p hpm (hpid.trans hon.symm) hrej r hr e))
          | sequence => exact .inr (.inr ⟨rfl, hg.settled ⟨p, hpm, hpid.trans hon.symm, hrec⟩⟩)
        · exact .inl (List.mem_filter.2 ⟨hd, by simp [ho, hon]⟩)
  · exact .inr (.inl (hg.refused hlt hd))
  · exact .inr (.inr ⟨hk, hg.settled hd⟩)

theorem recorded_moves {d : Dependency} (inv : QueueInv s) (hd : Recorded d s) (h : Moves P s t) : Recorded d t := by
  induction h with
  | refl => exact hd
  | tail hm h ih => exact recorded_move (inv.moves hm) ih h

theorem recorded_freezes {d : Dependency} {q : MutationRequest} (hd : Recorded d s) (h : Freezes P q s t) :
    Recorded d t := by
  have hrest : t.row = s.row ∧ t.dependencies = s.dependencies := by rw [h.eq]; exact ⟨rfl, rfl⟩
  obtain ⟨hlt, hd⟩ := hd
  refine ⟨by rw [hrest.1]; exact hlt, ?_⟩
  rw [hrest.2, h.queue]
  rcases hd with hd | hd | ⟨hk, p, hp, hpid, hprec⟩
  · exact .inl hd
  · refine .inr (.inl fun r' hr' e => ?_)
    obtain ⟨r, hr, rfl⟩ := List.mem_map.1 hr'
    obtain ⟨h1, -, h3⟩ := frozenRow_keeps (s := s) (s.row.lastAcknowledgedBatchId + 1) q.digest r
    rw [h3]
    exact hd r hr (h1.symm.trans e)
  · obtain ⟨h1, h2, -⟩ := frozenRow_keeps (s := s) (s.row.lastAcknowledgedBatchId + 1) q.digest p
    exact .inr (.inr ⟨hk, _, List.mem_map_of_mem hp, h1.trans hpid, h2.trans hprec⟩)

theorem recorded_step {d : Dependency} {c c' : Client} {e : Event} (inv : QueueInv c.store) (hd : Recorded d c.store)
    (h : Client.Step P H c e c') : Recorded d c'.store := by
  rcases Client.step_moves h with h | ⟨q, t, -, -, hf, hq⟩
  · exact recorded_moves inv hd h
  · exact recorded_move (inv.freezes hf) (recorded_freezes hd hf) (.quiet hq : Move P t c'.store)

/-- A recorded dependency of a ready call is on a settled call, and not on a refused one when it is a
lifecycle dependency. -/
theorem recorded_ready {d : Dependency} (inv : QueueInv s) (hd : Recorded d s) {r : MutationRow} (hr : r ∈ s.queue)
    (hready : Engine.ready s r = true) (hid : d.ordinal = r.id) :
    ∃ p ∈ s.queue, p.id = d.dependsOn ∧ p.reconciled = true ∧ (d.kind = .lifecycle → p.rejectionCode = none) := by
  obtain ⟨-, -, hcode, -, hdeps⟩ := Engine.ready_ok hready
  rcases hd.2 with hd | hd | ⟨hk, p, hp, hpid, hprec⟩
  · obtain ⟨-, -, p, hp, hpid⟩ := inv.edges d hd
    have hpm := inv.mutation_eq hp
    rw [hpid] at hpm
    exact ⟨p, hp, hpid, hdeps d hd hid p hpm⟩
  · have := hd r hr hid.symm
    rw [hcode] at this
    cases this
  · exact ⟨p, hp, hpid, hprec, fun h => by rw [hk] at h; cases h⟩

/-- Only `freeze` assigns a batch: to the ready calls, the next id, with every sent call settled. -/
theorem assigned_step {c c' : Client} {e : Event} (inv : QueueInv c.store) (h : Client.Step P H c e c')
    {r r' : MutationRow} (hr : r ∈ c.store.queue) (hr' : r' ∈ c'.store.queue) (hid : r'.id = r.id)
    (hnone : r.batchId = none) {b : Nat} (hb : r'.batchId = some b) :
    b = c.store.row.lastAcknowledgedBatchId + 1 ∧ Engine.ready c.store r = true ∧
      ∀ p ∈ c.store.queue, p.batchId.isSome → p.reconciled = true := by
  have unmoved : ∀ {s t : Store}, QueueInv s → Moves P s t → r ∈ s.queue → ∀ {x : MutationRow}, x ∈ t.queue →
      x.id = r.id → x.batchId = none := by
    intro s t invs hm hr
    induction hm with
    | refl =>
      intro x hx e
      rwa [eq_of_id invs.ids hx hr e]
    | @tail mid t hm hmove ih =>
      intro x hx e
      by_contra hsome
      obtain ⟨y, hy, g⟩ := mem_of_grows hmove.grows hx (.inr (Option.ne_none_iff_isSome.1 hsome))
      rw [g.batchId] at hsome
      exact hsome (ih hy (g.id.symm.trans e))
  rcases Client.step_moves h with h | ⟨q, t, -, -, hf, hquiet⟩
  · rw [unmoved inv h hr hr' hid] at hb
    cases hb
  · obtain ⟨x, hx, k⟩ := forall₂_mem_right hquiet.queue hr'
    rw [hf.queue] at hx
    obtain ⟨y, hy, rfl⟩ := List.mem_map.1 hx
    have hyid : y.id = r.id := (frozenRow_keeps _ _ y).1.symm.trans (k.id_eq.symm.trans hid)
    obtain rfl := eq_of_id inv.ids hy hr hyid
    rw [k.keeps.batchId] at hb
    by_cases hready : Engine.ready c.store y = true
    · simp only [frozenRow, hready, if_true, Option.some.injEq] at hb
      exact ⟨hb.symm, hready, hf.settled⟩
    · simp [frozenRow, hready, hnone] at hb

/-- **Frozen batches are immutable and there is a single outgoing window.** In every reachable state
the only batch above the last acknowledged one is the next one; from a freeze that returned a request
until its receipt every freeze returns that request; and whenever a call is assigned a batch, every call
sent before is settled, it waits for no prerequisite, and every call it was ever recorded to depend on
is settled, and not refused where the dependency is a lifecycle one. -/
theorem frozen_batch_immutable {id : String} {S : Schema} {stream projection : String} {c₀ c : Client}
    {es : List Event} (hcreate : create P H id S stream projection = .ok c₀) (hrun : Client.Runs P H c₀ es c) :
    (∀ r ∈ c.store.queue, ∀ b, r.batchId = some b → c.store.row.lastAcknowledgedBatchId < b →
      b = c.store.row.lastAcknowledgedBatchId + 1) ∧
    (∀ f q c₁ es' c₂ f' r c₃, Client.Step P H c ⟨.freeze, f, .ok (.request (some q))⟩ c₁ →
      Client.Runs P H c₁ es' c₂ → c₂.store.row.lastAcknowledgedBatchId < q.batchId →
      Client.Step P H c₂ ⟨.freeze, f', r⟩ c₃ → f'.commit = false → r = .ok (.request (some q))) ∧
    (∀ es' c₁ e c₂, Client.Runs P H c es' c₁ → Client.Step P H c₁ e c₂ →
      ∀ r ∈ c₁.store.queue, r.batchId = none → ∀ r' ∈ c₂.store.queue, r'.id = r.id → ∀ b, r'.batchId = some b →
        (∀ p ∈ c₁.store.queue, p.batchId.isSome → p.reconciled = true) ∧
        (∀ p ∈ c₁.store.prerequisites, p.ordinal ≠ r.id) ∧
        ∀ d ∈ c.store.dependencies, d.ordinal = r.id → ∃ p ∈ c₁.store.queue, p.id = d.dependsOn ∧
          p.reconciled = true ∧ (d.kind = .lifecycle → p.rejectionCode = none)) := by
  have inv := Client.runs_queueInv (queueInv_create hcreate) hrun
  have fenced : c.Fenced := by
    refine Trace.inv Client.Fenced (fun _ _ _ => Client.step_fenced P H) hrun ?_
    simp only [create, bind_ok, pure_ok] at hcreate
    obtain ⟨_, _, _, _, rfl⟩ := hcreate
    rfl
  refine ⟨fun r hr b hb hlast => ?_, ?_, ?_⟩
  · have := ((inv.rows r hr).window b hb).2
    omega
  · intro f q c₁ es' c₂ f' r c₃ hfreeze hrun' hlast hagain hfault
    have start : QueueInv c₁.store ∧ c₁.Fenced ∧ Holds P q c₁ :=
      ⟨queueInv_step inv hfreeze, Client.step_fenced P H fenced hfreeze, holds_of_freeze inv hfreeze⟩
    have kept := Trace.inv (fun c : Client => QueueInv c.store ∧ c.Fenced ∧ Holds P q c)
      (fun x e y hx hstep => ⟨queueInv_step hx.1 hstep, Client.step_fenced P H hx.2.1 hstep, holds_step hx.1 hx.2.2 hstep⟩)
      hrun' start
    exact freeze_of_holds kept.1 kept.2.1 kept.2.2 hlast hfault hagain
  · intro es' c₁ e c₂ hrun' hstep r hr hnone r' hr' hid b hb
    have inv₁ := Client.runs_queueInv inv hrun'
    obtain ⟨-, hready, hsettled⟩ := assigned_step inv₁ hstep hr hr' hid hnone hb
    refine ⟨hsettled, (Engine.ready_ok hready).2.2.2.1, fun d hd hdid => ?_⟩
    have kept := Trace.inv (fun c : Client => QueueInv c.store ∧ Recorded d c.store)
      (fun x e y hx hstep => ⟨queueInv_step hx.1 hstep, recorded_step hx.1 hx.2 hstep⟩)
      hrun' ⟨inv, (inv.edges d hd).2.1, .inl hd⟩
    exact recorded_ready inv₁ kept.2 hr hready hdid

namespace Notes

/-- One note added, its call not sent yet. -/
def added : Client := (start.execute platform hashes [(submit "addNote" "a" "x", {})]).2

/-- The call frozen, and a second one waiting. -/
def waiting : Client :=
  ((added.call platform hashes {} .freeze).2.execute platform hashes [(submit "renameNote" "a" "y", {})]).2

end Notes

/-- A note is added and frozen; a second call then waits, and freezing again returns the first batch. -/
theorem frozen_batch_immutable_note : ∃ q : MutationRequest, q.batchId = 1 ∧
    (Notes.added.call Notes.platform Notes.hashes {} .freeze).1 = .ok (.request (some q)) ∧
    (Notes.waiting.call Notes.platform Notes.hashes {} .freeze).1 = .ok (.request (some q)) := by
  have returned : ((Notes.added.call Notes.platform Notes.hashes {} .freeze).1.toOption.bind Output.frozen).any
      (·.batchId = 1) = true := by decide +kernel
  obtain ⟨q, hq, hid⟩ := (Option.any_eq_true _ _).1 returned
  obtain ⟨o, ho, hoq⟩ := Option.bind_eq_some_iff.1 hq
  have hrequest : o = .request (some q) := by
    cases o <;> simp_all [Output.frozen]
  rw [hrequest] at ho
  have hid : q.batchId = 1 := by simpa using hid
  have run := Notes.start.execute_runs Notes.platform Notes.hashes [(Notes.submit "addNote" "a" "x", {})]
  have run' := (Notes.added.call Notes.platform Notes.hashes {} .freeze).2.execute_runs Notes.platform Notes.hashes
    [(Notes.submit "renameNote" "a" "y", {})]
  have unacknowledged : Notes.waiting.store.row.lastAcknowledgedBatchId < 1 := by decide +kernel
  exact ⟨q, hid, ok_of_toOption ho, (frozen_batch_immutable Notes.create_start run).2.1 {} q _ _ Notes.waiting {} _ _
    (Client.step_of_result _ _ ho) run' (hid ▸ unacknowledged) rfl rfl⟩

end Axton
