import Axton.Client.Outcomes
import Axton.Client.Coverage

/-!
# Replayed acknowledgements

A receipt that is lost on its way is sent again, so `acknowledge05` compares a receipt of an already
acknowledged batch with what is recorded. Later work touches the same rows: settlement, refusals,
dismissals and the next batches. None of them changes what the comparison reads (`Move.receipted`).

The comparison reads the recorded outcome from its text. An accepted result and its targets are kept as
canonical JSON, and a number in them may read as another one: a double as its neighbour, `1.0` as the integer
`1`, which `serde_json` holds for different. `BatchAcknowledgement.Stable` says that no outcome of a receipt
changes on its way through the text. A first receipt is then answered again as the first time, else it is
refused as tampered with; a receipt that was itself taken as a replay has repeated the recorded outcomes
already (`acknowledgement_replay`).
-/

namespace Axton

variable {s t u : Store} {P : Platform} {H : Hashes} {a : BatchAcknowledgement} {first : Bool}

/-! ## Saved outcomes -/

/-- An outcome after its saved text is parsed again. -/
def MutationOutcome.reread (P : Platform) : MutationOutcome → MutationOutcome
  | .accepted syncCursor result targets => .accepted syncCursor (P.reread result) (targets.map P.rereadTarget)
  | .rejected code message => .rejected code message

/-- No outcome of the receipt changes when it is saved as canonical JSON and read back. -/
def BatchAcknowledgement.Stable (P : Platform) (a : BatchAcknowledgement) : Prop :=
  ∀ x ∈ a.results, x.outcome.reread P = x.outcome

/-! ## What the comparison reads -/

/-- What the text of an accepted receipt gives back: a first receipt was written, a replay repeated what is read. -/
def recordedAs (P : Platform) (first : Bool) (o : MutationOutcome) : MutationOutcome := if first then o.reread P else o

/-- A row of the batch against its result. -/
structure RowReceipted (P : Platform) (first : Bool) (a : BatchAcknowledgement) (r : MutationRow) : Prop where
  digest : r.batchDigest = some a.digest
  materialization : r.batchMaterialization = some a.context.materialization
  outcome : ∃ x, a.result r.id = some x ∧ r.outcome P = some (recordedAs P first x.outcome)

/-- The receipt is recorded: every row of its batch has its outcome there. -/
structure Receipted (P : Platform) (first : Bool) (a : BatchAcknowledgement) (s : Store) : Prop where
  past : a.batchId ≤ s.row.lastAcknowledgedBatchId
  storeId : a.context.storeId = s.row.id
  stream : a.context.stream = s.row.stream
  count : (Engine.batchRows s a.batchId).length = a.results.length
  nonempty : Engine.batchRows s a.batchId ≠ []
  rows : ∀ r ∈ Engine.batchRows s a.batchId, RowReceipted P first a r

/-- The recorded outcomes are those of the receipt. -/
def BatchAcknowledgement.Recorded (P : Platform) (first : Bool) (a : BatchAcknowledgement) : Prop :=
  ∀ x ∈ a.results, recordedAs P first x.outcome = x.outcome

theorem BatchAcknowledgement.recorded_iff {first : Bool} : a.Recorded P first ↔ (first = true → a.Stable P) := by
  cases first <;> simp [Recorded, Stable, recordedAs]

/-- The outcomes of answered calls stay as recorded. -/
def AnsweredKept (P : Platform) (s t : Store) : Prop :=
  ∀ r ∈ s.queue, ∀ b, r.batchId = some b → b ≤ s.row.lastAcknowledgedBatchId →
    ∀ r' ∈ t.queue, r'.id = r.id → r'.outcome P = r.outcome P

theorem Receipted.grows (h : Receipted P first a s) (g : Grows s t) (hout : AnsweredKept P s t) : Receipted P first a t := by
  have hrows := batchRows_grows g a.batchId
  refine ⟨le_trans h.past g.lastAcknowledged, h.storeId.trans g.id.symm, h.stream.trans g.stream.symm,
    hrows.length_eq ▸ h.count, fun e => ?_, fun r' hr' => ?_⟩
  · rw [e] at hrows
    exact h.nonempty (List.forall₂_nil_right_iff.1 hrows)
  · obtain ⟨r, hr, k⟩ := forall₂_mem_right hrows hr'
    obtain ⟨hd, hm, x, hx, ho⟩ := h.rows r hr
    have hmem := List.mem_filter.1 hr
    refine ⟨k.batchDigest.trans hd, k.batchMaterialization.trans hm, x, by rw [k.id]; exact hx, ?_⟩
    rw [hout r hmem.1 a.batchId (by simpa using hmem.2) h.past r' (List.mem_filter.1 hr').1 k.id, ho]

/-! ## No move touches an answered call -/

/-- A row update followed by the row layer, on a row it leaves alone. -/
theorem outcome_map {f : MutationRow → MutationRow} (inv : QueueInv s) (hid : ∀ r, (f r).id = r.id)
    (h : List.Forall₂ SettleRow (s.queue.map f) t.queue) {r r' : MutationRow} (hr : r ∈ s.queue) (hr' : r' ∈ t.queue)
    (he : r'.id = r.id) : r'.outcome P = (f r).outcome P := by
  obtain ⟨x, hx, k⟩ := forall₂_mem_right h hr'
  obtain ⟨q, hq, rfl⟩ := List.mem_map.1 hx
  have hqr : q.id = r.id := (hid q).symm.trans (k.id_eq.symm.trans he)
  obtain rfl := eq_of_id inv.ids hq hr hqr
  exact k.outcome

theorem Quiet.answeredKept (inv : QueueInv s) (h : Quiet s t) : AnsweredKept P s t := by
  intro r hr b _ _ r' hr' he
  exact outcome_map inv (fun _ => rfl) (by simpa using h.queue) hr hr' he

theorem Enqueues.answeredKept (inv : QueueInv s) (h : Enqueues s t) : AnsweredKept P s t := by
  intro r hr b _ _ r' hr' he
  obtain ⟨⟨name, version, u, hrec, ht⟩, -⟩ := h
  have hmem : r' ∈ u.queue := by rw [ht] at hr'; exact hr'
  obtain ⟨q, hq, k⟩ := forall₂_mem_right (forall₂_of_map_eq hrec.queue) hmem
  have settle : SettleRow q r' := .inl k
  rcases mem_pushed.1 hq with hq | rfl
  · obtain rfl := eq_of_id inv.ids hq hr (settle.id_eq.symm.trans he)
    exact settle.outcome
  · have hnew : s.row.nextMutationId = r.id := settle.id_eq.symm.trans he
    have := inv.fresh r hr
    omega

/-- A row that is not refused keeps its outcome. -/
theorem rejectRow_of_get_none {closed : Table Nat Rejection} {r : MutationRow} (h : closed.get r.id = none) :
    Engine.rejectRow closed r = r := by
  simp [Engine.rejectRow, h]

theorem Cancels.answeredKept {id : Nat} (inv : QueueInv s) (h : Cancels id s t) : AnsweredKept P s t := by
  intro r hr b hb _ r' hr' he
  obtain ⟨⟨q, hq, hun, hrec⟩, href⟩ := h
  obtain ⟨hqm, hqid⟩ := mem_of_mutation hq
  have hnone : (Engine.refused s [(id, ("dropped", none))]).get r.id = none := by
    by_contra hne
    rcases refused_unsent inv (openCalls_of_unsent inv hq hrec) (Option.ne_none_iff_isSome.1 hne) with h | h
    · have e : id = r.id := by
        by_contra hne
        simp [Table.get, hne] at h
      rw [eq_of_id inv.ids hqm hr (hqid.trans e), hb] at hun
      cases hun
    · rw [h r hr rfl] at hb
      cases hb
  have hrows : List.Forall₂ SettleRow (s.queue.map (Engine.rejectRow (Engine.refused s [(id, ("dropped", none))]))) t.queue :=
    href.rest.rows.imp fun _ _ e => .inl e
  rw [outcome_map inv (rejectRow_id _) hrows hr hr' he, rejectRow_of_get_none hnone]

/-- The rows after a receipt: accepted or refused as it says, then the row layer. -/
theorem Acknowledges.rows (h : Acknowledges P a s t) :
    List.Forall₂ SettleRow (s.queue.map fun r =>
      Engine.rejectRow (Engine.refused s (Engine.rejections a)) (Engine.acceptRow a r)) t.queue := by
  obtain ⟨v, href, ht⟩ := h.refuses
  have hrows : List.Forall₂ SettleRow _ v.queue := href.rest.rows.imp fun _ _ e => .inl e
  rw [ht]
  simpa [Engine.rejectRows, Engine.acceptRows, List.map_map, Function.comp_def, Engine.refused] using hrows

theorem Acknowledges.answeredKept (inv : QueueInv s) (h : Acknowledges P a s t) : AnsweredKept P s t := by
  intro r hr b hb hle r' hr' he
  have hres : a.result r.id = none := by
    by_contra hne
    have hmem := h.member_of_result inv hr (Option.ne_none_iff_isSome.1 hne)
    rw [hb, h.next] at hmem
    cases hmem
    omega
  have hnone : (Engine.refused s (Engine.rejections a)).get r.id = none := by
    by_contra hne
    rcases refused_unsent inv (h.openCalls inv) (Option.ne_none_iff_isSome.1 hne) with h' | h'
    · have := result_of_get_rejections h.members.1 h'
      rw [hres] at this
      cases this
    · rw [h' r hr rfl] at hb
      cases hb
  rw [outcome_map inv (fun r => by simp) h.rows hr hr' he, acceptRow_of_result_none hres, rejectRow_of_get_none hnone]

theorem Dismisses.answeredKept {id : Nat} (inv : QueueInv s) (h : Dismisses id s t) : AnsweredKept P s t := by
  intro r hr b _ _ r' hr' he
  rw [h.eq] at hr'
  obtain ⟨q, hq, rfl⟩ := List.mem_map.1 hr'
  have hid : (if q.id = id then { q with rejectionAcknowledged := true } else q).id = q.id := by split <;> rfl
  obtain rfl := eq_of_id inv.ids hq hr (hid.symm.trans he)
  split <;> rfl

theorem Move.answeredKept (inv : QueueInv s) (h : Move P s t) : AnsweredKept P s t := by
  cases h with
  | quiet h => exact h.answeredKept inv
  | enqueues h => exact h.answeredKept inv
  | cancels id h => exact h.answeredKept inv
  | acknowledges a h => exact h.answeredKept inv
  | dismisses id h => exact h.answeredKept inv

/-- **No move touches a recorded receipt.** -/
theorem Move.receipted (inv : QueueInv s) (h : Move P s t) (ha : Receipted P first a s) : Receipted P first a t :=
  ha.grows h.grows (h.answeredKept inv)

theorem Moves.receipted (inv : QueueInv s) (h : Moves P s t) (ha : Receipted P first a s) : Receipted P first a t := by
  induction h with
  | refl => exact ha
  | tail hm h ih => exact h.receipted (inv.moves hm) ih

/-- A freeze leaves the rows of every earlier batch. -/
theorem Freezes.batchRows {q : MutationRequest} (h : Freezes P q s t) {b : Nat}
    (hb : b ≤ s.row.lastAcknowledgedBatchId) : Engine.batchRows t b = Engine.batchRows s b := by
  have unready : ∀ r : MutationRow, r.batchId = some b → frozenRow s (s.row.lastAcknowledgedBatchId + 1) q.digest r = r := by
    intro r hr
    have hnot : Engine.ready s r ≠ true := fun hready => by
      rw [(Engine.ready_ok hready).1] at hr
      cases hr
    simp [frozenRow, hnot]
  have same : ∀ r ∈ s.queue, (decide ((frozenRow s (s.row.lastAcknowledgedBatchId + 1) q.digest r).batchId = some b)) =
      decide (r.batchId = some b) := by
    intro r _
    by_cases hready : Engine.ready s r = true
    · have hnone := (Engine.ready_ok hready).1
      have : s.row.lastAcknowledgedBatchId + 1 ≠ b := by omega
      simp [frozenRow, hready, hnone, this]
    · simp [frozenRow, hready]
  simp only [Engine.batchRows, h.queue, List.filter_map, Function.comp_def]
  rw [List.filter_congr same]
  refine (List.map_congr_left fun r hr => unready r ?_).trans (List.map_id _)
  simpa using (List.mem_filter.1 hr).2

theorem Freezes.receipted {q : MutationRequest} (h : Freezes P q s t) (ha : Receipted P first a s) : Receipted P first a t := by
  have hrow : t.row = s.row := by rw [h.eq]; rfl
  have hrows := h.batchRows ha.past
  exact ⟨hrow ▸ ha.past, hrow ▸ ha.storeId, hrow ▸ ha.stream, hrows ▸ ha.count, hrows ▸ ha.nonempty, hrows ▸ ha.rows⟩

theorem receipted_step {c c' : Client} {e : Event} (inv : QueueInv c.store) (ha : Receipted P first a c.store)
    (h : Client.Step P H c e c') : Receipted P first a c'.store := by
  rcases Client.step_moves h with h | ⟨q, t, -, -, hf, hquiet⟩
  · exact Moves.receipted inv h ha
  · exact (Move.quiet hquiet : Move P t c'.store).receipted (inv.freezes hf) (hf.receipted ha)

/-! ## Sealed batches -/

/-- The rows of a batch carry one materialization and a digest. -/
structure SealedRows (s : Store) : Prop where
  digest : ∀ r ∈ s.queue, r.batchId.isSome → r.batchDigest.isSome
  materialization : ∀ r ∈ s.queue, ∀ r' ∈ s.queue, r.batchId.isSome → r'.batchId = r.batchId →
    r'.batchMaterialization = r.batchMaterialization

theorem SealedRows.grows (h : SealedRows s) (g : Grows s t) : SealedRows t where
  digest r' hr' hb := by
    obtain ⟨r, hr, k⟩ := mem_of_grows g hr' (.inr hb)
    rw [k.batchDigest]
    exact h.digest r hr (k.batchId ▸ hb)
  materialization r' hr' q' hq' hb he := by
    obtain ⟨r, hr, k⟩ := mem_of_grows g hr' (.inr hb)
    obtain ⟨q, hq, k'⟩ := mem_of_grows g hq' (.inr (he ▸ hb))
    rw [k.batchMaterialization, k'.batchMaterialization]
    exact h.materialization r hr q hq (k.batchId ▸ hb) (by rw [← k.batchId, ← k'.batchId, he])

theorem SealedRows.moves (h : SealedRows s) (hm : Moves P s t) : SealedRows t := by
  induction hm with
  | refl => exact h
  | tail _ hm ih => exact ih.grows hm.grows

theorem SealedRows.freezes {q : MutationRequest} (h : SealedRows s) (hf : Freezes P q s t) : SealedRows t := by
  -- a row is of the new batch exactly when it was ready
  have row : ∀ r' ∈ t.queue, r'.batchId.isSome →
      (r'.batchId = some (s.row.lastAcknowledgedBatchId + 1) ∧ r'.batchDigest.isSome ∧
        r'.batchMaterialization = some s.row.materialization) ∨
      (r' ∈ s.queue ∧ r'.batchId ≠ some (s.row.lastAcknowledgedBatchId + 1)) := by
    intro r' hr' hb
    rw [hf.queue] at hr'
    obtain ⟨r, hr, rfl⟩ := List.mem_map.1 hr'
    by_cases hready : Engine.ready s r = true
    · exact .inl (by simp [frozenRow, hready])
    · have hsame : frozenRow s (s.row.lastAcknowledgedBatchId + 1) q.digest r = r := by simp [frozenRow, hready]
      rw [hsame] at hb ⊢
      refine .inr ⟨hr, fun e => ?_⟩
      have := Engine.outstanding_none hf.none hr e
      omega
  refine ⟨fun r hr hb => ?_, fun r hr r' hr' hb he => ?_⟩
  · rcases row r hr hb with ⟨-, hd, -⟩ | ⟨hmem, -⟩
    · exact hd
    · exact h.digest r hmem hb
  · rcases row r hr hb with ⟨hnew, -, hm⟩ | ⟨hmem, hold⟩
    · rcases row r' hr' (he ▸ hb) with ⟨-, -, hm'⟩ | ⟨-, hold⟩
      · rw [hm, hm']
      · exact absurd (he.trans hnew) hold
    · rcases row r' hr' (he ▸ hb) with ⟨hnew, -, -⟩ | ⟨hmem', -⟩
      · exact absurd (he ▸ hnew) hold
      · exact h.materialization r hmem r' hmem' hb he

theorem sealedRows_step {c c' : Client} {e : Event} (hs : SealedRows c.store) (h : Client.Step P H c e c') :
    SealedRows c'.store := by
  rcases Client.step_moves h with h | ⟨q, t, -, -, hf, hquiet⟩
  · exact hs.moves h
  · exact (hs.freezes hf).grows hquiet.grows

/-! ## Recording a receipt -/

/-- The results of a receipt are those of its rows, when they are as many. -/
theorem perm_results {l : List MutationRow} (hl : (l.map (·.id)).Nodup)
    (hcount : l.length = a.results.length) (hres : ∀ r ∈ l, (a.result r.id).isSome) :
    (l.map (·.id)).Perm (a.results.map (·.mutationId)) := by
  refine (hl.subperm fun id hid => ?_).perm_of_length_le (by simp [hcount])
  obtain ⟨r, hr, rfl⟩ := List.mem_map.1 hid
  obtain ⟨x, hx⟩ := Option.isSome_iff_exists.1 (hres r hr)
  obtain ⟨hmem, hxid⟩ := mem_of_result hx
  exact List.mem_map.2 ⟨x, hmem, hxid⟩

theorem QueueInv.batchRows_nodup (inv : QueueInv s) (b : Nat) : ((Engine.batchRows s b).map (·.id)).Nodup :=
  (List.filter_sublist.map _).nodup (inv.ids.imp fun h => ne_of_lt h)

/-- The outcome a receipt records for a member. -/
theorem Acknowledges.recorded (inv : QueueInv s) (h : Acknowledges P a s t) {r r' : MutationRow} (hr : r ∈ s.queue)
    (hb : r.batchId = some a.batchId) (hr' : r' ∈ t.queue) (he : r'.id = r.id) :
    ∃ x, a.result r.id = some x ∧ r'.outcome P = some (x.outcome.reread P) := by
  obtain ⟨x, hx⟩ := Option.isSome_iff_exists.1 (h.members.2.1 r hr hb)
  refine ⟨x, hx, ?_⟩
  have hcode : r.rejectionCode = none := by
    by_contra hne
    have hrec := (inv.rows r hr).refused (Option.ne_none_iff_isSome.1 hne)
    rw [h.open inv hr hb] at hrec
    cases hrec
  rw [outcome_map inv (fun r => by simp) h.rows hr hr' he]
  obtain ⟨id, outcome⟩ := x
  cases outcome with
  | accepted c v ts =>
    have hnot := h.accepted_not_refused inv hr hx
    simp [Engine.rejectRow, Engine.acceptRow, hx, hnot, MutationRow.outcome, MutationOutcome.reread, hcode]
  | rejected code message =>
    obtain rfl : id = r.id := (mem_of_result hx).2
    have hrej := Engine.get_refused_of_get (s := s) ((get_rejections h.members.1).2 hx)
    simp [Engine.rejectRow, Engine.acceptRow, hx, hrej, MutationRow.outcome, MutationOutcome.reread]

/-- What the rebuilt request says of the rows of a receipt. -/
theorem Acknowledges.sealed (hs : SealedRows s) (h : Acknowledges P a s t) {r : MutationRow}
    (hr : r ∈ Engine.batchRows s a.batchId) :
    r.batchDigest = some a.digest ∧ r.batchMaterialization = some a.context.materialization := by
  obtain ⟨S, q, hq, hv⟩ := h.request
  simp only [validateAcknowledgement, bind_ok, check_ok, Bool.and_eq_true, decide_eq_true_eq] at hv
  obtain ⟨_, _, _, _, _, ⟨⟨hctx, -⟩, hdig⟩, _⟩ := hv
  obtain ⟨hmem, hb⟩ := List.mem_filter.1 hr
  have hb : r.batchId = some a.batchId := by simpa using hb
  constructor
  · obtain ⟨d, hd⟩ := Option.isSome_iff_exists.1 (hs.digest r hmem (by simp [hb]))
    have := reconstructBatch_digests hq hr
    rw [hd] at this ⊢
    rw [hdig]
    simpa using this
  · simp only [Engine.reconstructBatch] at hq
    split at hq
    · rename_i first hfirst
      obtain ⟨hfmem, hfb⟩ := List.mem_filter.1 (List.mem_of_mem_head? hfirst)
      split at hq
      · rename_i m hm
        simp only [bind_ok, pure_ok] at hq
        obtain ⟨ms, -, d, -, _, -, _, -, rfl⟩ := hq
        have hfb : first.batchId = r.batchId := by rw [hb]; simpa using hfb
        rw [← hs.materialization r hmem first hfmem (by simp [hb]) hfb, hm, hctx]
      · cases hq
    · cases hq

/-- **A first receipt is recorded.** -/
theorem Acknowledges.receipted (inv : QueueInv s) (hs : SealedRows s) (h : Acknowledges P a s t)
    (hid : a.context.storeId = s.row.id) (hst : a.context.stream = s.row.stream) : Receipted P true a t := by
  have g : Grows s t := (Move.acknowledges a h).grows
  have hrows := batchRows_grows g a.batchId
  have perm : ((Engine.batchRows s a.batchId).map (·.id)).Perm (a.results.map (·.mutationId)) := by
    refine (List.perm_ext_iff_of_nodup (inv.batchRows_nodup _) h.members.1).2 fun id => ?_
    constructor
    · intro hid
      obtain ⟨r, hr, rfl⟩ := List.mem_map.1 hid
      obtain ⟨hr, hb⟩ := List.mem_filter.1 hr
      obtain ⟨x, hx⟩ := Option.isSome_iff_exists.1 (h.members.2.1 r hr (by simpa using hb))
      obtain ⟨hmem, hxid⟩ := mem_of_result hx
      exact List.mem_map.2 ⟨x, hmem, hxid⟩
    · intro hid
      obtain ⟨x, hx, rfl⟩ := List.mem_map.1 hid
      obtain ⟨r, hr, hb, hrid⟩ := h.members.2.2 x hx
      exact List.mem_map.2 ⟨r, List.mem_filter.2 ⟨hr, by simp [hb]⟩, hrid⟩
  refine ⟨?_, hid.trans g.id.symm, hst.trans g.stream.symm, ?_, fun e => ?_, fun r' hr' => ?_⟩
  · obtain ⟨v, -, ht⟩ := h.refuses
    rw [ht]
  · rw [← hrows.length_eq]
    simpa using perm.length_eq
  · obtain ⟨S, q, hq, -⟩ := h.request
    obtain ⟨r, hr, hb⟩ := exists_batchRow hq
    rw [e] at hrows
    have hnil := List.forall₂_nil_right_iff.1 hrows
    have hmem : r ∈ Engine.batchRows s a.batchId := List.mem_filter.2 ⟨hr, by simp [hb]⟩
    rw [hnil] at hmem
    cases hmem
  · obtain ⟨r, hr, k⟩ := forall₂_mem_right hrows hr'
    obtain ⟨hd, hm⟩ := h.sealed hs hr
    obtain ⟨hmem, hb⟩ := List.mem_filter.1 hr
    obtain ⟨x, hx, ho⟩ := h.recorded inv hmem (by simpa using hb) (List.mem_filter.1 hr').1 k.id
    exact ⟨k.batchDigest.trans hd, k.batchMaterialization.trans hm, x, by rw [k.id]; exact hx, ho⟩

/-! ## The comparison -/

/-- What a replay compares. -/
theorem Engine.replayAcknowledgement_ok {E : Engine} : E.replayAcknowledgement a s = .ok () ↔
    (batchRows s a.batchId).length = a.results.length ∧ batchRows s a.batchId ≠ [] ∧
      ∀ r ∈ batchRows s a.batchId, ∃ x, a.result r.id = some x ∧ r.batchDigest = some a.digest ∧
        r.batchMaterialization = some a.context.materialization ∧ r.outcome E.platform = some x.outcome := by
  simp only [replayAcknowledgement, bind_ok, check_ok, Bool.and_eq_true, decide_eq_true_eq, Bool.not_eq_true',
    List.isEmpty_eq_false_iff, exists_const, and_assoc]
  refine and_congr_right fun _ => and_congr_right fun _ => ?_
  refine forM_ok.trans (forall₂_congr fun r _ => ?_)
  cases hx : a.result r.id with
  | none => simp
  | some x => simp [check_ok, and_assoc]

/-- An accepted replay repeats what is recorded. -/
theorem Receipted.ofReplay {E : Engine} (hE : E.platform = P) (hpast : a.batchId ≤ s.row.lastAcknowledgedBatchId)
    (hid : a.context.storeId = s.row.id) (hst : a.context.stream = s.row.stream)
    (h : E.replayAcknowledgement a s = .ok ()) : Receipted P false a s := by
  obtain ⟨hcount, hne, hrows⟩ := Engine.replayAcknowledgement_ok.1 h
  refine ⟨hpast, hid, hst, hcount, hne, fun r hr => ?_⟩
  obtain ⟨x, hx, hd, hm, ho⟩ := hrows r hr
  rw [hE] at ho
  exact ⟨hd, hm, x, hx, ho⟩

/-- Every result of a recorded receipt has its row. -/
theorem Receipted.row (ha : Receipted P first a s) (inv : QueueInv s) (hn : (a.results.map (·.mutationId)).Nodup)
    {x : MutationResult} (hx : x ∈ a.results) :
    ∃ r ∈ Engine.batchRows s a.batchId, a.result r.id = some x ∧ r.outcome P = some (recordedAs P first x.outcome) := by
  have perm := perm_results (inv.batchRows_nodup a.batchId) ha.count fun r hr => by
    obtain ⟨-, -, y, hy, -⟩ := ha.rows r hr
    simp [hy]
  obtain ⟨r, hr, hrid⟩ := List.mem_map.1 (perm.symm.subset (List.mem_map_of_mem hx))
  have hres : a.result r.id = some x := by rw [hrid]; exact result_of_mem hn hx
  obtain ⟨-, -, y, hy, ho⟩ := ha.rows r hr
  rw [hres] at hy
  cases hy
  exact ⟨r, hr, hres, ho⟩

/-- A recorded receipt passes the comparison exactly when its outcomes are the recorded ones. -/
theorem Receipted.replay_iff {E : Engine} (hE : E.platform = P) (ha : Receipted P first a s) (inv : QueueInv s)
    (hn : (a.results.map (·.mutationId)).Nodup) : E.replayAcknowledgement a s = .ok () ↔ a.Recorded P first := by
  rw [Engine.replayAcknowledgement_ok, hE]
  constructor
  · rintro ⟨-, -, hrows⟩ x hx
    obtain ⟨r, hr, hres, ho⟩ := ha.row inv hn hx
    obtain ⟨y, hy, -, -, ho'⟩ := hrows r hr
    rw [hres] at hy
    cases hy
    rw [ho] at ho'
    exact Option.some.inj ho'
  · intro hsame
    refine ⟨ha.count, ha.nonempty, fun r hr => ?_⟩
    obtain ⟨hd, hm, x, hx, ho⟩ := ha.rows r hr
    exact ⟨x, hx, hd, hm, by rw [ho, hsame x (mem_of_result hx).1]⟩

/-- Two receipts of a batch say the same: digest, materialization, members and their outcomes. -/
structure SameReceipt (a a' : BatchAcknowledgement) : Prop where
  digest : a'.digest = a.digest
  materialization : a'.context.materialization = a.context.materialization
  results : a'.results.Perm a.results

/-- Whatever passes the comparison with the outcomes of a receipt says the same. -/
theorem Receipted.same {E : Engine} (hE : E.platform = P) (ha : Receipted P first a s) (inv : QueueInv s)
    (hn : (a.results.map (·.mutationId)).Nodup) (hsame : a.Recorded P first) {a' : BatchAcknowledgement}
    (hid : a'.batchId = a.batchId) (h : E.replayAcknowledgement a' s = .ok ()) : SameReceipt a a' := by
  rw [Engine.replayAcknowledgement_ok, hid, hE] at h
  obtain ⟨hcount, -, hrows⟩ := h
  obtain ⟨r, hr⟩ := List.exists_mem_of_ne_nil _ ha.nonempty
  obtain ⟨-, -, hd', hm', -⟩ := hrows r hr
  obtain ⟨hd, hm, -⟩ := ha.rows r hr
  refine ⟨?_, ?_, ?_⟩
  · rw [hd] at hd'
    exact (Option.some.inj hd').symm
  · rw [hm] at hm'
    exact (Option.some.inj hm').symm
  · -- every result of `a` stands in `a'`, and they are equally many
    have hsub : a.results ⊆ a'.results := by
      intro x hx
      obtain ⟨r, hr, hres, ho⟩ := ha.row inv hn hx
      obtain ⟨y, hy, -, -, ho'⟩ := hrows r hr
      rw [ho, hsame x hx] at ho'
      obtain ⟨hymem, hyid⟩ := mem_of_result hy
      have : y = x := by
        have hxid := (mem_of_result hres).2
        cases x
        cases y
        simp_all
      exact this ▸ hymem
    have hlen : a'.results.length = a.results.length := hcount.symm.trans ha.count
    exact (((List.Nodup.of_map _ hn).subperm hsub).perm_of_length_le (le_of_eq hlen)).symm

/-! ## Schema columns -/

/-- Digest texts are not blank. -/
def Hashes.Named (H : Hashes) : Prop := ∀ S projection, nonblank (H.materializationId S projection) = true

/-- The store names its materializations. -/
def Store.Named (s : Store) : Prop :=
  nonblank s.row.materialization = true ∧ nonblank s.row.desiredMaterialization = true

/-- A schema may be enabled, no other materialization comes up. -/
def Enables (s t : Store) : Prop :=
  (t.row.materialization = s.row.materialization ∨ t.row.materialization = s.row.desiredMaterialization) ∧
    t.row.desiredMaterialization = s.row.desiredMaterialization

theorem Enables.refl (s : Store) : Enables s s := ⟨.inl rfl, rfl⟩

theorem Enables.trans (h : Enables s t) (h' : Enables t u) : Enables s u := by
  obtain ⟨hm, hd⟩ := h
  obtain ⟨hm', hd'⟩ := h'
  refine ⟨?_, hd'.trans hd⟩
  rcases hm' with e | e
  · rw [e]
    exact hm
  · exact .inr (e.trans hd)

theorem Store.Named.enables (hs : s.Named) (h : Enables s t) : t.Named := by
  obtain ⟨hm, hd⟩ := h
  refine ⟨?_, hd ▸ hs.2⟩
  rcases hm with e | e
  · exact e ▸ hs.1
  · exact e ▸ hs.2

theorem Unmoved.enables (h : Unmoved s t) : Enables s t := ⟨.inl h.materialization, h.desired⟩

theorem enableSchema_enables {previous desired : RequestContext}
    (h : Engine.enableSchema previous desired s = .ok ((), t)) : Enables s t := by
  simp only [Engine.enableSchema, bind_ok] at h
  obtain ⟨p, _, h⟩ := h
  split at h
  · cases h
  · simp only [bind_ok, pure_ok, Prod.mk.injEq, true_and] at h
    obtain ⟨_, _, rfl⟩ := h
    exact ⟨.inr rfl, rfl⟩

theorem switchSchema_enables {x : Engine.Selected} (h : Engine.switchSchema x s = .ok t) : Enables s t := by
  unfold Engine.switchSchema at h
  split at h
  · simp only [bind_ok] at h
    obtain ⟨p, _, h⟩ := h
    split at h
    · cases h
    · simp only [bind_ok, pure_ok, Prod.exists] at h
      obtain ⟨_, _, _, _, ⟨⟩, _, h, rfl⟩ := h
      exact enableSchema_enables h
  · cases h; exact .refl _

theorem installAuthority_enables {E : Engine} {context : RequestContext} {changes : List AuthorityChange}
    {coverage : Option (Nat × Nat)} {report : ApplyReport}
    (h : E.installAuthority context changes coverage s = .ok (report, t)) : Enables s t := by
  simp only [Engine.installAuthority, bind_ok, pure_ok, Prod.mk.injEq, Prod.exists] at h
  obtain ⟨_, _, staged, s₁, h₁, ⟨⟩, s₂, h₂, x, s₃, h₃, _, u, h₄, rfl, rfl⟩ := h
  have staging : Enables s s₁ := by
    have := ((E.stageChanges _ _).within h₁).row
    exact ⟨.inl (by rw [this]), by rw [this]⟩
  have covering : Enables s₁ s₂ := by
    cases coverage with
    | some c =>
      have h : Engine.commitSyncCoverage c.1 c.2 s₁ = .ok ((), s₂) := h₂
      simp only [Engine.commitSyncCoverage, bind_ok, pure_ok, Prod.mk.injEq, true_and] at h
      obtain ⟨_, _, _, _, _, _, rfl⟩ := h
      exact ⟨.inl rfl, rfl⟩
    | none => cases h₂; exact .refl _
  have settling := (Unmoved.ofSettles (E.reconcileReady.within h₃)).enables
  have rebuilding := (Unmoved.ofLocal ((E.rebuildHeld _).within h₄)).enables
  exact ((staging.trans covering).trans settling).trans rebuilding

theorem applyUnit_enables {E : Engine} {now : Nat} {x : Engine.Selected} {r : Option ApplyReport × Nat}
    (h : E.applyUnit now x s = .ok (r, t)) : Enables s t := by
  rcases Engine.applyUnit_cases E h with ⟨-, rfl, -⟩ | ⟨⟨a⟩⟩
  · exact (Unmoved.expireProgress now s).enables
  · have staging : Enables s a.staged := by
      have := ((E.stageChanges _ _).within a.stage).row
      rw [a.staged_row] at this
      exact ⟨.inl (by rw [this]), by rw [this]⟩
    have covering : Enables a.staged a.covered := by
      obtain ⟨-, -, h | ⟨-, -, _, _, -, -, -, -, h⟩ | ⟨-, _, _, _, -, -, -, -, -, h⟩⟩ := cover_cases a.cover
      all_goals exact ⟨.inl (by rw [h]), by rw [h]⟩
    have settling := (Unmoved.ofSettles (E.reconcileReady.within a.settle)).enables
    have rebuilding := (Unmoved.ofLocal a.rebuild).enables
    have saving : Enables a.rebuilt t := by
      have hrow : t.row = a.rebuilt.row := (congrArg Store.row a.save).trans (saveProgress_row _ _ _).1
      exact ⟨.inl (by rw [hrow]), by rw [hrow]⟩
    exact ((((staging.trans covering).trans (switchSchema_enables a.switch)).trans settling).trans rebuilding).trans saving

theorem Call.enables {E : Engine} {x : Call} {o : Output} (h : x.body E s = .ok (o, t)) : Enables s t := by
  by_cases hx : x.installs = false
  · exact (Call.unmoved hx h).enables
  · cases x <;> simp only [Call.installs, not_true_eq_false] at hx
    all_goals simp only [Call.body, labelled, map_ok, Prod.exists, Prod.mk.injEq] at h
    case authority => obtain ⟨_, u, h, -, rfl⟩ := h; exact installAuthority_enables h
    case enableSchema => obtain ⟨⟨⟩, u, h, -, rfl⟩ := h; exact enableSchema_enables h

theorem named_step {c c' : Client} {e : Event} (hH : H.Named) (hc : c.store.Named) (h : Client.Step P H c e c') :
    c'.store.Named := by
  cases Client.step_moved P H h with
  | failed _ => exact hc
  | waited _ _ _ => exact hc
  | plain _ hb _ _ =>
    have : Store.Named _ := hc.enables (Call.enables hb)
    exact this
  | cleaned _ _ _ _ => exact hc
  | applied _ _ hb _ _ =>
    have : Store.Named _ := hc.enables (applyUnit_enables hb)
    exact this
  | reopened _ hb _ =>
    simp only [reopen, bind_ok, pure_ok] at hb
    obtain ⟨_, _, _, _, _, _, _, _, _, _, _, _, _, _, rfl⟩ := hb
    exact ⟨hc.1, hH _ _⟩

/-! ## Acknowledged batches -/

/-- A receipt of batch `b` was accepted. -/
def Acknowledged (es : List Event) (b : Nat) : Prop :=
  ∃ e ∈ es, ∃ a o, e.call = .acknowledge a ∧ a.batchId = b ∧ e.result = .ok o

theorem Cancels.lastAcknowledged {id : Nat} (hc : Cancels id s u) (h : t = u ∨ Dismisses id u t) :
    t.row.lastAcknowledgedBatchId = s.row.lastAcknowledgedBatchId := by
  have hu : u.row.lastAcknowledgedBatchId = s.row.lastAcknowledgedBatchId := by
    rw [hc.refuses.rest.row]
    rfl
  rcases h with rfl | h
  · exact hu
  · rw [h.eq]
    exact hu

/-- Only a first receipt moves the last acknowledged batch, to the next one. -/
theorem Call.lastAcknowledged {E : Engine} {x : Call} {o : Output} (h : x.body E s = .ok (o, t)) :
    t.row.lastAcknowledgedBatchId = s.row.lastAcknowledgedBatchId ∨
      ∃ a, x = .acknowledge a ∧ a.batchId = s.row.lastAcknowledgedBatchId + 1 ∧
        t.row.lastAcknowledgedBatchId = a.batchId := by
  cases x <;> simp only [Call.body, labelled, map_ok, Prod.exists, Prod.mk.injEq] at h
  case acknowledge a =>
    obtain ⟨_, u, h, -, rfl⟩ := h
    rcases Engine.acknowledge_acknowledges h with ⟨rfl, -⟩ | ⟨h, -⟩
    · exact .inl rfl
    · obtain ⟨v, -, ht⟩ := h.refuses
      exact .inr ⟨a, rfl, h.next, by rw [ht]⟩
  case submit =>
    obtain ⟨id, u, h, -, rfl⟩ := h
    obtain ⟨⟨name, version, v, hrec, ht⟩, -⟩ := (Engine.enqueue_enqueues h).1
    exact .inl (by rw [ht, hrec.row]; rfl)
  case companion => obtain ⟨_, u, h, -, rfl⟩ := h; exact .inl (Quiet.ofLocal (Within.within _ h)).lastAcknowledged
  case direct => obtain ⟨_, u, h, -, rfl⟩ := h; exact .inl (Quiet.ofLocal (Within.within _ h)).lastAcknowledged
  case readiness => obtain ⟨⟨⟩, u, h, -, rfl⟩ := h; exact .inl (Engine.setReadiness_quiet h).lastAcknowledged
  case freeze =>
    obtain ⟨r, u, h, -, rfl⟩ := h
    rcases Engine.freeze_cases h with ⟨rfl, -⟩ | ⟨rfl, -⟩ | ⟨q, -, hf⟩
    · exact .inl rfl
    · exact .inl rfl
    · exact .inl (by rw [hf.eq]; rfl)
  case settle => obtain ⟨_, u, h, -, rfl⟩ := h; exact .inl (Quiet.ofSettles (Within.within _ h)).lastAcknowledged
  case drop id =>
    obtain ⟨_, u, h, -, rfl⟩ := h
    rcases Engine.cancelUnsent_cancels h with ⟨rfl, -⟩ | ⟨v, hc, hd, -⟩
    · exact .inl rfl
    · exact .inl (hc.lastAcknowledged (hd.imp_left And.left))
  case discard id =>
    obtain ⟨_, u, h, -, rfl⟩ := h
    rcases Engine.cancelUnsent_cancels h with ⟨rfl, -⟩ | ⟨v, hc, hd, -⟩
    · exact .inl rfl
    · exact .inl (hc.lastAcknowledged (hd.imp_left And.left))
  case dismiss id =>
    obtain ⟨⟨⟩, u, h, -, rfl⟩ := h
    rcases Engine.dismiss_dismisses h with ⟨rfl, -⟩ | h
    · exact .inl rfl
    · exact .inl (by rw [h.eq]; rfl)
  case authority => obtain ⟨_, u, h, -, rfl⟩ := h; exact .inl (Engine.installAuthority_quiet h).lastAcknowledged
  case cache => obtain ⟨_, u, h, -, rfl⟩ := h; exact .inl (Quiet.ofLocal (Within.within _ h)).lastAcknowledged
  case cleanup => obtain ⟨_, u, h, -, rfl⟩ := h; cases h; exact .inl rfl
  case handshake => obtain ⟨⟨⟩, u, h, -, rfl⟩ := h; exact .inl (Engine.initializeStream_quiet h).lastAcknowledged
  case enableSchema => obtain ⟨⟨⟩, u, h, -, rfl⟩ := h; exact .inl (Engine.enableSchema_quiet h).lastAcknowledged
  case deliver => cases h; exact .inl rfl
  case reopen => cases h; exact .inl rfl

/-- Every batch up to the last acknowledged one was acknowledged. -/
def AcknowledgedUpTo (es : List Event) (c : Client) : Prop :=
  ∀ b, 1 ≤ b → b ≤ c.store.row.lastAcknowledgedBatchId → Acknowledged es b

theorem AcknowledgedUpTo.same {es : List Event} {e : Event} {c c' : Client} (h : AcknowledgedUpTo es c)
    (he : c'.store.row.lastAcknowledgedBatchId = c.store.row.lastAcknowledgedBatchId) :
    AcknowledgedUpTo (es ++ [e]) c' := by
  intro b hpos hle
  obtain ⟨x, hx, rest⟩ := h b hpos (he ▸ hle)
  exact ⟨x, List.mem_append_left _ hx, rest⟩

theorem acknowledgedUpTo_step {es : List Event} {c c' : Client} {e : Event} (hc : AcknowledgedUpTo es c)
    (h : Client.Step P H c e c') : AcknowledgedUpTo (es ++ [e]) c' := by
  cases Client.step_moved P H h with
  | failed _ => exact hc.same rfl
  | waited _ _ _ => exact hc.same rfl
  | @plain o t _ hb _ hr =>
    rcases Call.lastAcknowledged hb with hl | ⟨a, hx, hnext, hl⟩
    · exact hc.same hl
    · intro b hpos hle
      by_cases hb : b = a.batchId
      · exact ⟨e, by simp, a, o, hx, hb.symm, hr⟩
      · have hle : b ≤ t.row.lastAcknowledgedBatchId := hle
        obtain ⟨x, hxe, rest⟩ := hc b hpos (by omega)
        exact ⟨x, List.mem_append_left _ hxe, rest⟩
  | cleaned _ _ _ _ => exact hc.same rfl
  | applied _ _ hb _ _ =>
    have hl := (Engine.applyUnit_quiet hb).lastAcknowledged
    exact hc.same hl
  | reopened _ hb _ => exact hc.same (Engine.reopen_quiet hb).lastAcknowledged

/-! ## Every run -/

/-- What a replay must find in a state: the receipt again is answered and changes nothing but the write
generation, one that says anything else is refused, and so is one of a batch that is neither the next nor
acknowledged. -/
structure ReplaySafe (P : Platform) (H : Hashes) (acknowledged : Nat → Prop) (a : BatchAcknowledgement) (c : Client) :
    Prop where
  again : ∀ f : Faults, f.commit = false →
    c.call P H f (.acknowledge a) = (.ok (.report {}), c.published c.store)
  tampered : ∀ (f : Faults) (a' : BatchAcknowledgement), a'.batchId = a.batchId → ¬ SameReceipt a a' →
    ∃ e, c.call P H f (.acknowledge a') = (.error e, c)
  skipped : ∀ (f : Faults) (a' : BatchAcknowledgement), a'.batchId ≠ c.store.row.lastAcknowledgedBatchId + 1 →
    ¬ acknowledged a'.batchId → ∃ e, c.call P H f (.acknowledge a') = (.error e, c)

theorem Client.call_error {c : Client} {f : Faults} {x : Call} {e : String} (hx : x.isPlain = true)
    (h : x.body (c.engine P) c.store = .error e) : c.call P H f x = (.error e, c) := by
  cases x <;> simp_all [Client.call, Client.write, Call.isPlain]

/-- A refused receipt changes nothing. -/
theorem acknowledge_error {c : Client} {f : Faults} {a : BatchAcknowledgement}
    (h : ∀ r t, (c.engine P).acknowledge a c.store ≠ .ok (r, t)) : ∃ e, c.call P H f (.acknowledge a) = (.error e, c) := by
  cases hb : (c.engine P).acknowledge a c.store with
  | error e => exact ⟨e, Client.call_error rfl (by simp [Call.body, labelled, hb, Except.map])⟩
  | ok x => exact absurd hb (h x.1 x.2)

/-- A recorded receipt is admitted again. -/
theorem Receipted.admitStore (ha : Receipted P first a s) (hs : s.Named) (hv : a.validate P = .ok ()) :
    a.context.admitStore s.context = .ok () := by
  simp only [BatchAcknowledgement.validate, bind_ok] at hv
  obtain ⟨_, hctx, -⟩ := hv
  have hv := hctx
  simp only [RequestContext.validate, bind_ok, check_ok, decide_eq_true_eq] at hv
  obtain ⟨_, -, _, hid, _, hst, -⟩ := hv
  simp only [RequestContext.admitStore, bind_ok, check_ok, Bool.and_eq_true, decide_eq_true_eq]
  refine ⟨(), hctx, (), ?_, ha.storeId, ha.stream⟩
  simp only [RequestContext.validate, bind_ok, check_ok, decide_eq_true_eq]
  have hid : nonblank s.row.id = true := ha.storeId ▸ hid
  have hst : nonblank s.row.stream = true := ha.stream ▸ hst
  exact ⟨(), rfl, (), hid, (), hst, hs.1⟩

theorem Receipted.replaySafe_iff {c : Client} {acknowledged : Nat → Prop} (ha : Receipted P first a c.store)
    (inv : QueueInv c.store) (hs : c.store.Named) (hfence : c.Fenced) (hv : a.validate P = .ok ())
    (hup : ∀ b, 1 ≤ b → b ≤ c.store.row.lastAcknowledgedBatchId → acknowledged b) :
    ReplaySafe P H acknowledged a c ↔ a.Recorded P first := by
  have hn : (a.results.map (·.mutationId)).Nodup := by
    simp only [BatchAcknowledgement.validate, bind_ok, check_ok, decide_eq_true_eq] at hv
    obtain ⟨_, _, _, _, _, hn, _⟩ := hv
    exact hn
  have hE : (c.engine P).platform = P := rfl
  have hallow := ha.admitStore hs hv
  -- the receipt again is decided by the comparison alone
  have body : (c.engine P).acknowledge a c.store =
      ((c.engine P).replayAcknowledgement a c.store).map fun _ => (({} : ApplyReport), c.store) := by
    simp only [Engine.acknowledge, hE, hv, hallow, ha.past, if_true]
    cases (c.engine P).replayAcknowledgement a c.store <;> rfl
  constructor
  · intro h
    have again := h.again {} rfl
    rw [← ha.replay_iff hE inv hn]
    cases hr : (c.engine P).replayAcknowledgement a c.store with
    | ok u => rfl
    | error e =>
      have := Client.call_error (P := P) (H := H) (f := {}) (x := .acknowledge a) (c := c) (e := e) rfl
        (by simp [Call.body, labelled, body, hr, Except.map])
      rw [this] at again
      cases congrArg Prod.fst again
  · intro hsame
    refine ⟨fun f hf => ?_, fun f a' hid hdiff => ?_, fun f a' hnext hold => ?_⟩
    · have hr := (ha.replay_iff hE inv hn).2 hsame
      simp only [Client.call, Client.write, Call.body, labelled, body, hr, Except.map, hf]
      rw [if_neg fun hne => hne hfence]
      rfl
    · refine acknowledge_error fun r t h => hdiff ?_
      simp only [Engine.acknowledge, bind_ok, hid, ha.past, if_true, pure_ok] at h
      obtain ⟨_, _, _, _, _, hreplay, _⟩ := h
      exact ha.same hE inv hn hsame hid hreplay
    · refine acknowledge_error fun r t h => ?_
      simp only [Engine.acknowledge, bind_ok, BatchAcknowledgement.validate, check_ok] at h
      obtain ⟨_, ⟨_, _, _, hpos, _⟩, _, _, h⟩ := h
      have hpos : 1 ≤ a'.batchId := by
        simp only [positive, Bool.and_eq_true, bne_iff_ne, ne_eq] at hpos
        omega
      split at h
      · rename_i hle
        exact hold (hup _ hpos hle)
      · simp only [bind_ok, check_ok, decide_eq_true_eq] at h
        obtain ⟨_, hnext', _⟩ := h
        exact hnext hnext'

/-- The receipt is of a batch that is not acknowledged yet. -/
def Client.Awaits (c : Client) (a : BatchAcknowledgement) : Prop := c.store.row.lastAcknowledgedBatchId < a.batchId

instance (c : Client) (a : BatchAcknowledgement) : Decidable (c.Awaits a) := inferInstanceAs (Decidable (_ < _))

/-- An accepted receipt is recorded, as a first one or as a replay. -/
theorem receipted_of_step {c c' : Client} {f : Faults} {o : Output} (inv : QueueInv c.store) (hs : SealedRows c.store)
    (h : Client.Step P H c ⟨.acknowledge a, f, .ok o⟩ c') :
    Receipted P (decide (c.Awaits a)) a c'.store ∧ a.validate P = .ok () := by
  cases Client.step_moved P H h with
  | failed e => cases e
  | waited e _ _ => cases e
  | cleaned e _ _ _ => cases e
  | applied e _ _ _ _ => cases e
  | reopened e _ _ => cases e
  | @plain o' t _ hb _ _ =>
    simp only [Call.body, labelled, map_ok, Prod.exists, Prod.mk.injEq] at hb
    obtain ⟨r, u, hb, -, rfl⟩ := hb
    have hack := Engine.acknowledge_acknowledges hb
    simp only [Engine.acknowledge, bind_ok] at hb
    obtain ⟨_, hv, _, hallow, hb⟩ := hb
    obtain ⟨-, -, hid, hst⟩ := RequestContext.admitStore_ok hallow
    refine ⟨(Move.quiet (published_quiet c u) : Move P u _).receipted ?_ ?_, hv⟩
    · rcases hack with ⟨rfl, -⟩ | ⟨hack, -⟩
      · exact inv
      · exact inv.acknowledges hack
    · split at hb
      · rename_i hle
        simp only [bind_ok, pure_ok, Prod.mk.injEq] at hb
        obtain ⟨_, hreplay, -, rfl⟩ := hb
        rw [decide_eq_false (show ¬ c.Awaits a from Nat.not_lt.2 hle)]
        exact .ofReplay rfl hle hid hst hreplay
      · rename_i hlt
        rw [decide_eq_true (show c.Awaits a from Nat.not_le.1 hlt)]
        rcases hack with ⟨rfl, -⟩ | ⟨hack, -⟩
        · simp only [bind_ok, check_ok, decide_eq_true_eq, pure_ok, Prod.mk.injEq, Prod.exists] at hb
          obtain ⟨_, hnext, _, _, _, _, _, _, _, v, _, -, hsame⟩ := hb
          have := congrArg (fun s : Store => s.row.lastAcknowledgedBatchId) hsame
          simp only at this
          omega
        · exact hack.receipted inv hs hid hst

/-- What a client keeps along every run, as far as replays need it. -/
structure ReplayInv (c : Client) : Prop where
  queue : QueueInv c.store
  sealed : SealedRows c.store
  named : c.store.Named
  fenced : c.Fenced

theorem replayInv_create {id : String} {S : Schema} {stream projection : String} {c : Client} (hH : H.Named)
    (h : create P H id S stream projection = .ok c) : ReplayInv c := by
  have inv := queueInv_create h
  simp only [create, bind_ok, pure_ok] at h
  obtain ⟨_, _, _, _, rfl⟩ := h
  exact ⟨inv, ⟨by simp [openRow], by simp [openRow]⟩, ⟨hH _ _, hH _ _⟩, rfl⟩

theorem replayInv_step {c c' : Client} {e : Event} (hH : H.Named) (inv : ReplayInv c) (h : Client.Step P H c e c') :
    ReplayInv c' :=
  ⟨queueInv_step inv.queue h, sealedRows_step inv.sealed h, named_step hH inv.named h, Client.step_fenced P H inv.fenced h⟩

theorem acknowledgedUpTo_create {id : String} {S : Schema} {stream projection : String} {c : Client}
    (h : create P H id S stream projection = .ok c) : AcknowledgedUpTo [] c := by
  simp only [create, bind_ok, pure_ok] at h
  obtain ⟨_, _, _, _, rfl⟩ := h
  intro b hpos hle
  simp only [openRow] at hle
  omega

/-- **When a replayed acknowledgement is idempotent and tamper-evident.** After any run that accepted `a`, and
any run after it: `a` again is answered with no completion and nothing changes, a receipt of the batch that
differs in digest, materialization, members or an outcome is refused, and so is one of a batch that is neither
the next nor acknowledged, if and only if `a` was itself accepted as a replay or no accepted result or target of
`a` changes when it is saved as canonical JSON and read back. -/
theorem acknowledgement_replay {id : String} {S : Schema} {stream projection : String} {c₀ c₁ c₂ c₃ : Client}
    {es es' : List Event} {f : Faults} {o : Output} (hH : H.Named)
    (hcreate : create P H id S stream projection = .ok c₀) (hrun : Client.Runs P H c₀ es c₁)
    (hack : Client.Step P H c₁ ⟨.acknowledge a, f, .ok o⟩ c₂) (hrun' : Client.Runs P H c₂ es' c₃) :
    ReplaySafe P H (Acknowledged (es ++ ⟨.acknowledge a, f, .ok o⟩ :: es')) a c₃ ↔ (c₁.Awaits a → a.Stable P) := by
  have inv₁ := Trace.inv ReplayInv (fun _ _ _ => replayInv_step hH) hrun (replayInv_create hH hcreate)
  obtain ⟨hrec, hv⟩ := receipted_of_step inv₁.queue inv₁.sealed hack
  obtain ⟨inv, recorded⟩ := Trace.inv (fun c => ReplayInv c ∧ Receipted P (decide (c₁.Awaits a)) a c.store)
    (fun c e c' hc h => ⟨replayInv_step hH hc.1 h, receipted_step hc.1.queue hc.2 h⟩) hrun'
    ⟨replayInv_step hH inv₁ hack, hrec⟩
  have whole : Client.Runs P H c₀ (es ++ ⟨.acknowledge a, f, .ok o⟩ :: es') c₃ := by
    have := (hrun.snoc hack).append hrun'
    rwa [List.append_assoc] at this
  have up := Trace.inv_labels AcknowledgedUpTo (fun _ _ _ _ => acknowledgedUpTo_step) whole (acknowledgedUpTo_create hcreate)
  rw [recorded.replaySafe_iff inv.queue inv.named inv.fenced hv up, BatchAcknowledgement.recorded_iff, decide_eq_true_eq]

namespace Notes

/-- Notes that are scored as they are added. -/
def scoring : Schema := { schema with
  actions := [{
    name := "addNote", version := 1, inputs := [.model "note" "note" .create .single none []]
    outputs := [{ name := "score", kind := .value, source := .handlerValue, valueType := some (.scalar .float) }] }] }

/-- A fresh store of scored notes. -/
def unscored : Client where
  schema := scoring
  generation := 1
  store := openRow hashes scoring "notes" { row := {
    id := "store", stream := "user", materialization := "m-notes", desiredMaterialization := "m-notes"
    schemaDescriptor := "d-notes", enabledDescriptor := "d-notes" } }

theorem create_unscored : create platform hashes "store" scoring "user" "notes" = .ok unscored := by
  simp only [create, bind_ok, check_ok, pure_ok]
  exact ⟨(), by decide +kernel, (), by decide, rfl⟩

/-- A note is added and its batch frozen. -/
def sending : List (Call × Faults) := [(submit "addNote" "a" "x", {}), (.freeze, {})]

def sent : Client := (unscored.execute platform hashes sending).2

/-- The frozen request. -/
def outgoing : Option MutationRequest := (sent.call platform hashes {} .freeze).1.toOption.bind Output.frozen

/-- The server accepts the call with a score. -/
def accepts (q : MutationRequest) (score : Rat) : BatchAcknowledgement where
  context := q.context
  batchId := q.batchId
  digest := q.digest
  results := [⟨1, .accepted 0 (.obj [("score", .num (.float score))])
    [.privately ⟨⟨"note", .obj [("id", .str "a")]⟩, .obj [("title", .str "x")]⟩]⟩]

/-- The client after the receipt. -/
def receipted (q : MutationRequest) (score : Rat) : Client := (sent.call platform hashes {} (.acknowledge (accepts q score))).2

theorem hashes_named : hashes.Named := by
  intro S projection
  simp [hashes, nonblank, isWhiteSpace]

/-- The double that is printed `5.939708399609784e-8`, which `serde_json` reads as its neighbour. -/
def drifting : Rat := 4487916778293847 / 75557863725914323419136

example : shortest drifting = some (5939708399609784, -23) := by decide +kernel

end Notes

/-- A receipt whose score reads as itself, recorded and replayed. -/
theorem acknowledgement_replay_note : ∃ q o, Notes.outgoing = some q ∧
    Client.Step Notes.platform Notes.hashes Notes.sent ⟨.acknowledge (Notes.accepts q (5 / 2)), {}, .ok o⟩
      (Notes.receipted q (5 / 2)) ∧
    ReplaySafe Notes.platform Notes.hashes
      (Acknowledged ((Notes.unscored.execute Notes.platform Notes.hashes Notes.sending).1 ++
        ⟨.acknowledge (Notes.accepts q (5 / 2)), {}, .ok o⟩ :: [])) (Notes.accepts q (5 / 2)) (Notes.receipted q (5 / 2)) := by
  have accepted : Notes.outgoing.any (fun q => (Notes.sent.call Notes.platform
      Notes.hashes {} (.acknowledge (Notes.accepts q (5 / 2)))).1.toOption.isSome) = true := by decide +kernel
  obtain ⟨q, hq, ho⟩ := (Option.any_eq_true _ _).1 accepted
  obtain ⟨o, ho⟩ := Option.isSome_iff_exists.1 ho
  have step := Client.step_of_result _ _ ho
  have kept : (Num.float (5 / 2)).reread = .float (5 / 2) := by decide +kernel
  have stable : (Notes.accepts q (5 / 2)).Stable Notes.platform := by
    intro x hx
    simp only [Notes.accepts, List.mem_singleton] at hx
    subst hx
    show MutationOutcome.accepted 0 (.obj [("score", .num (Num.float (5 / 2)).reread)]) _ = _
    rw [kept]
    rfl
  exact ⟨q, o, hq, step, (acknowledgement_replay Notes.hashes_named Notes.create_unscored
    (Notes.unscored.execute_runs Notes.platform Notes.hashes Notes.sending) step .nil).2 fun _ => stable⟩

/-- **An accepted receipt can be refused as tampered with.** The server answers a score that its saved text does
not read as, and the same receipt again differs from what is read back. -/
theorem acknowledgement_replay_refused : ∃ q o, Notes.outgoing = some q ∧
    Client.Runs Notes.platform Notes.hashes Notes.unscored
      (Notes.unscored.execute Notes.platform Notes.hashes Notes.sending).1 Notes.sent ∧
    Client.Step Notes.platform Notes.hashes Notes.sent ⟨.acknowledge (Notes.accepts q Notes.drifting), {}, .ok o⟩
      (Notes.receipted q Notes.drifting) ∧
    ((Notes.receipted q Notes.drifting).call Notes.platform Notes.hashes {}
      (.acknowledge (Notes.accepts q Notes.drifting))).1 = .error "acknowledgement replay differs" := by
  have refused : Notes.outgoing.any (fun q =>
      (Notes.sent.call Notes.platform Notes.hashes {} (.acknowledge (Notes.accepts q Notes.drifting))).1.toOption.isSome &&
      decide (((Notes.receipted q Notes.drifting).call Notes.platform Notes.hashes {}
        (.acknowledge (Notes.accepts q Notes.drifting))).1 = .error "acknowledgement replay differs")) = true := by
    decide +kernel
  obtain ⟨q, hq, hboth⟩ := (Option.any_eq_true _ _).1 refused
  simp only [Bool.and_eq_true, decide_eq_true_eq] at hboth
  obtain ⟨o, ho⟩ := Option.isSome_iff_exists.1 hboth.1
  exact ⟨q, o, hq, Notes.unscored.execute_runs _ _ _, Client.step_of_result _ _ ho, hboth.2⟩

end Axton
