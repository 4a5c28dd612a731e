import Axton.System.Uplink

/-!
# What the client and the server agree on

`uplink_executes_once`: the journal of the server's tables lists the members it executed, oldest first. Seen from the
client's queue these are the calls of the batches up to the last processed one, each batch whole and in the order of its
calls, and then the first calls of the batch in progress. No call is lost, executed twice, overtaken or made up.

`uplink_agrees`: the two counters are never more than one apart, what the client would send is never out of order or in
conflict, the client records the outcomes that the server saved, up to the readings of their text, and the server holds
them for as long as the client needs them.

| here | there |
| --- | --- |
| `Store.members`              | the rows of a batch in `axton_mutation_queue`, by `id` |
| `Server.Tables.executed`     | the rows ever inserted in `axton_mutation_result` |
| `Server.Tables.readResults`  | `V05_RESULTS_READ` (sql.mts:50) |
-/

namespace Axton

/-- The members of batch `b` whose calls have these ids. -/
def membersOf (b : Nat) (ids : List Nat) : List (Server.Member × Nat) := ids.zipIdx.map fun e => ((b, e.2), e.1)

/-- The members of a batch as the client's queue has them. -/
def Store.members (s : Store) (b : Nat) : List (Server.Member × Nat) := membersOf b ((Engine.batchRows s b).map (·.id))

theorem membersOf_ids (b : Nat) (ids : List Nat) : (membersOf b ids).map (·.2) = ids := by
  simp [membersOf, Function.comp_def]

namespace Server

/-- The members that are executed, with the ids of their calls. -/
def Tables.executed (t : Tables) : List (Member × Nat) := t.journal.map fun e => (e.1, e.2.mutationId)

/-- How far the batch in progress has come. -/
def Tables.progress (t : Tables) : Nat := (t.store.map (·.progress)).getD 0

/-- The saved results of a batch, by ordinal. -/
def Tables.readResults (t : Tables) (b : Nat) : List MutationResult := (t.results.filter (·.1.1 = b)).map (·.2)

/-- The tables have executed the processed batches and the first members of the next one. -/
def InOrder (members : Nat → List (Member × Nat)) (t : Tables) : Prop :=
  t.executed = (List.range' 1 t.processed).flatMap members ++ (members (t.processed + 1)).take t.progress

variable {q : MutationRequest}

/-- The results of a suffix are those of its calls. -/
theorem suffix_executed {p : Nat} {results : List MutationResult}
    (hids : ∀ i r, results[i]? = some r → (q.mutations[p + i]?).map (·.id) = some r.mutationId) :
    (Tables.suffix q.batchId p results).map (fun e => (e.1, e.2.mutationId)) =
      ((membersOf q.batchId (q.mutations.map (·.id))).drop p).take results.length := by
  refine List.ext_getElem? fun i => ?_
  cases hr : results[i]? with
  | none =>
    have hlen := List.getElem?_eq_none_iff.1 hr
    rw [List.getElem?_eq_none_iff.2 (by simpa [Tables.suffix] using hlen),
      List.getElem?_eq_none_iff.2 (le_trans (List.length_take_le _ _) hlen)]
  | some r =>
    have hlt := (List.getElem?_eq_some_iff.1 hr).1
    obtain ⟨m, hm, hid⟩ := Option.map_eq_some_iff.1 (hids i r hr)
    rw [List.getElem?_take_of_lt hlt]
    simp [Tables.suffix, membersOf, hr, hm, hid]

/-- **A committed suffix continues the order.** -/
theorem Commits.inOrder {s : Store} {results : List MutationResult} {t t' : Tables} {members : Nat → List (Member × Nat)}
    (hc : Commits s q results t t') (hq : members q.batchId = membersOf q.batchId (q.mutations.map (·.id)))
    (h : InOrder members t) : InOrder members t' := by
  have hprocessed : t.processed = s.lastProcessedBatchId := by simp [Tables.processed, hc.store]
  have hprogress : t.progress = s.progress := by simp [Tables.progress, hc.store]
  have hbatch : q.batchId = t.processed + 1 := by rw [hprocessed]; exact hc.next.batch
  have hexecuted : t'.executed = (List.range' 1 t.processed).flatMap members ++
      (members (t.processed + 1)).take (s.progress + results.length) := by
    have hjournal : t'.executed = t.executed ++
        (Tables.suffix q.batchId s.progress results).map fun e => (e.1, e.2.mutationId) := by
      simp [Tables.executed, hc.eq]
    unfold InOrder at h
    rw [hjournal, suffix_executed hc.ids, h, hprogress, ← hbatch, ← hq, List.append_assoc, List.take_add]
  have hstore : t'.store = some ((s.begun q).advance q.batchId (s.progress + results.length) q.mutations.length) := by
    rw [hc.eq]
  unfold InOrder
  by_cases hfull : s.progress + results.length = q.mutations.length
  · -- the batch is complete
    have hprocessed' : t'.processed = t.processed + 1 := by
      simp [Tables.processed, hstore, Store.advance, hfull, hbatch]
    have hprogress' : t'.progress = 0 := by simp [Tables.progress, hstore, Store.advance, hfull]
    have hall : (members (t.processed + 1)).take q.mutations.length = members (t.processed + 1) := by
      rw [← hbatch, hq]
      exact List.take_of_length_le (by simp [membersOf])
    rw [hexecuted, hprocessed', hprogress', hfull, hall, List.range'_concat]
    simp [Nat.add_comm]
  · have hprocessed' : t'.processed = t.processed := by
      rw [hprocessed]
      simp [Tables.processed, hstore, Store.advance, hfull, begun_last]
    have hprogress' : t'.progress = s.progress + results.length := by
      simp [Tables.progress, hstore, Store.advance, hfull]
    rw [hexecuted, hprocessed', hprogress']

theorem InOrder.claimed {members : Nat → List (Member × Nat)} {t : Tables} (h : InOrder members t)
    (principal stream : String) : InOrder members (t.claimed principal stream) := by
  have hprocessed : (t.claimed principal stream).processed = t.processed := by
    unfold Tables.claimed Tables.processed
    cases t.store <;> rfl
  have hprogress : (t.claimed principal stream).progress = t.progress := by
    unfold Tables.claimed Tables.progress
    cases t.store <;> rfl
  unfold InOrder
  rw [hprocessed, hprogress]
  exact h

end Server

variable {P : Platform} {H : Hashes}

/-! ## The client's rows -/

theorem Moves.batchIds {s t : Store} (h : Moves P s t) (b : Nat) :
    (Engine.batchRows t b).map (·.id) = (Engine.batchRows s b).map (·.id) := by
  induction h with
  | refl => rfl
  | tail _ h ih => exact (map_id_eq (fun _ _ g => g.id) (batchRows_grows h.grows b)).trans ih

/-- An acknowledged batch keeps its calls. -/
theorem batchIds_step {c c' : Client} {e : Event} (h : Client.Step P H c e c') {b : Nat}
    (hb : b ≤ c'.store.row.lastAcknowledgedBatchId) :
    (Engine.batchRows c'.store b).map (·.id) = (Engine.batchRows c.store b).map (·.id) := by
  rcases Client.step_moves h with h | ⟨q, t, -, -, hf, hquiet⟩
  · exact h.batchIds b
  · have hlast : t.row.lastAcknowledgedBatchId = c.store.row.lastAcknowledgedBatchId := by
      rw [hf.eq]
      rfl
    rw [hquiet.lastAcknowledged, hlast] at hb
    rw [← hf.batchRows hb]
    exact map_id_eq (fun _ _ g => g.id) (batchRows_grows hquiet.grows b)

/-- The calls of different batches are different. -/
theorem QueueInv.batchIds_nodup {s : Store} (inv : QueueInv s) {bs : List Nat} (hbs : bs.Nodup) :
    (bs.flatMap fun b => (Engine.batchRows s b).map (·.id)).Nodup := by
  refine List.nodup_flatMap.2 ⟨fun b _ => inv.batchRows_nodup b, hbs.imp fun {a b} hab => ?_⟩
  intro id ha hb
  obtain ⟨r, hr, rfl⟩ := List.mem_map.1 ha
  obtain ⟨r', hr', hid⟩ := List.mem_map.1 hb
  obtain ⟨hmem, hra⟩ := List.mem_filter.1 hr
  obtain ⟨hmem', hrb⟩ := List.mem_filter.1 hr'
  cases eq_of_id inv.ids hmem' hmem hid
  exact hab (Option.some.inj ((of_decide_eq_true hra).symm.trans (of_decide_eq_true hrb)))

namespace Uplink

variable {s : State}

/-! ## The invariant -/

/-- The server follows the client's queue. -/
structure Follows (s : State) : Prop where
  -- a request is made of its batch's rows
  members : ∀ q ∈ s.sent, q.mutations.map (·.id) = (Engine.batchRows s.client.store q.batchId).map (·.id)
  reached : ∀ b, 1 ≤ b → b ≤ s.server.committed.tables.processed → ∃ q ∈ s.sent, q.batchId = b
  inOrder : Server.InOrder s.client.store.members s.server.committed.tables

/-- A batch in progress was sent. -/
theorem Inv.inProgress (inv : Inv P H s) (h : s.server.committed.tables.progress ≠ 0) :
    ∃ q ∈ s.sent, q.batchId = s.server.committed.tables.processed + 1 := by
  cases hst : s.server.committed.tables.store with
  | none => simp [Server.Tables.progress, hst] at h
  | some row =>
    have hshape := inv.sourced.shape hst
    cases hcur : row.currentDigest with
    | none =>
      have := hshape.idle hcur
      simp [Server.Tables.progress, hst, this] at h
    | some d =>
      obtain ⟨q, hq, rfl⟩ := inv.sourced.current row d hst hcur
      have hid := hshape.current.2 _ hcur
      rw [(Server.MutationRequest.validate_digest (inv.sent q hq).1).1] at hid
      exact ⟨q, hq, by simpa [Server.Tables.processed, hst] using hid⟩

/-- The order is about the sent batches alone. -/
theorem Follows.congr (inv : Inv P H s) (h : Follows s) {members : Nat → List (Server.Member × Nat)}
    (hm : ∀ q ∈ s.sent, members q.batchId = s.client.store.members q.batchId) :
    Server.InOrder members s.server.committed.tables := by
  have horder := h.inOrder
  unfold Server.InOrder at horder ⊢
  rw [horder]
  congr 1
  · refine List.flatMap_congr fun b hb => ?_
    obtain ⟨hpos, hlt⟩ := List.mem_range'_1.1 hb
    obtain ⟨q, hq, rfl⟩ := h.reached b hpos (by omega)
    exact (hm q hq).symm
  · by_cases hp : s.server.committed.tables.progress = 0
    · simp [hp]
    · obtain ⟨q, hq, hid⟩ := inv.inProgress hp
      rw [← hid, hm q hq]

/-! ## Steps -/

theorem Follows.server (h : Follows s) (inv : Inv P H s) {o : Option Answer}
    {v : Transactions Server.Op Server.Ans Server.Database Server.Call (List MutationResult)}
    (hstep : Transactions.Step Server.Host.Answers (Server.Call.body P H) s.server o v) :
    Follows { s with server := v, answers := o.toList ++ s.answers } ∧
      s.server.committed.tables.journal <+: v.committed.tables.journal := by
  obtain ⟨-, hcommit⟩ := transactions_step inv.resumes hstep
  rcases hcommit with ⟨rfl, hsame⟩ | ⟨e, rfl, hserial⟩
  · rw [hsame]
    exact ⟨⟨h.members, hsame ▸ h.reached, hsame ▸ h.inOrder⟩, List.prefix_rfl⟩
  · obtain ⟨w, p, hholder⟩ := committed_holder hstep
    have hmem := inv.holder _ _ _ hholder
    obtain ⟨-, hjournal, -, hcounter⟩ := inv.sourced.serial hserial hmem
    refine ⟨⟨h.members, fun b hpos hle => ?_, ?_⟩, hjournal⟩
    · have hle : b ≤ v.committed.tables.processed := hle
      by_cases hold : b ≤ s.server.committed.tables.processed
      · exact h.reached b hpos hold
      · rcases hcounter with hc | ⟨hc, hb⟩
        · omega
        · exact ⟨e.1.request, hmem, by omega⟩
    · obtain ⟨hcommitted, -⟩ := Server.Call.committed hserial
      cases hcommitted with
      | nothing principal stream heq =>
        show Server.InOrder _ v.committed.tables
        rw [heq]
        exact h.inOrder.claimed principal stream
      | @suffix principal stream row results hc =>
        refine hc.inOrder ?_ (h.inOrder.claimed principal stream)
        show Store.members _ _ = _
        rw [Store.members, ← h.members _ hmem]

theorem Follows.client (h : Follows s) (inv : Inv P H s) {e : Event} {c : Client}
    (hstep : Client.Step P H s.client e c) (hreceipt : ∀ a, e.call = .acknowledge a → ∃ b ∈ s.receipts, a = b.reread P) :
    Follows { s with client := c, sent := (Uplink.frozen e).toList ++ s.sent } := by
  have inv' := inv.client hstep hreceipt
  have hmembers : ∀ q ∈ (Uplink.frozen e).toList ++ s.sent,
      q.mutations.map (·.id) = (Engine.batchRows c.store q.batchId).map (·.id) := by
    intro q hq
    by_cases hlast : c.store.row.lastAcknowledgedBatchId < q.batchId
    · -- the batch is still rebuilt to the request
      obtain ⟨S, hS⟩ := inv'.holds q hq hlast
      exact (Engine.reconstructBatch_ok hS).2.2.1
    · have hle : q.batchId ≤ c.store.row.lastAcknowledgedBatchId := Nat.not_lt.1 hlast
      have hold : q ∈ s.sent := by
        refine (List.mem_append.1 hq).elim (fun hnew => ?_) id
        have hnew : Uplink.frozen e = some q := by simpa using hnew
        refine (inv.frozen hstep hnew).elim id fun ⟨_, hb, _⟩ => ?_
        have := frozen_last hstep hnew
        omega
      rw [h.members q hold]
      exact (batchIds_step hstep hle).symm
  refine ⟨hmembers, fun b hpos hle => ?_, ?_⟩
  · obtain ⟨q, hq, hb⟩ := h.reached b hpos hle
    exact ⟨q, List.mem_append_right _ hq, hb⟩
  · refine h.congr inv fun q hq => ?_
    show Store.members c.store _ = _
    rw [Store.members, Store.members, ← hmembers q (List.mem_append_right _ hq), h.members q hq]

theorem Follows.step {t : State} (h : Follows s) (inv : Inv P H s) (hstep : Step P H s t) :
    Follows t ∧ s.server.committed.tables.journal <+: t.server.committed.tables.journal := by
  cases hstep with
  | client hstep hreceipt => exact ⟨h.client inv hstep hreceipt, List.prefix_rfl⟩
  | server hstep _ => exact h.server inv hstep
  | receipt _ _ _ => exact ⟨⟨h.members, h.reached, h.inOrder⟩, List.prefix_rfl⟩

theorem Follows.runs {t : State} (h : Follows s) (inv : Inv P H s) (hruns : Runs P H s t) :
    Follows t ∧ s.server.committed.tables.journal <+: t.server.committed.tables.journal := by
  induction hruns with
  | refl => exact ⟨h, List.prefix_rfl⟩
  | tail hruns hstep ih =>
    obtain ⟨hf, hpre⟩ := ih.1.step (inv.runs hruns) hstep
    exact ⟨hf, ih.2.trans hpre⟩

theorem follows_start (c : Client) : Follows ⟨c, ⟨{}, none⟩, [], [], []⟩ where
  members := by simp
  reached b hpos hle := by
    have hle : b ≤ 0 := hle
    omega
  inOrder := by
    show ([] : List (Server.Member × Nat)) = _
    simp [Server.Tables.processed, Server.Tables.progress]

/-- No two executed members are one call. -/
theorem Follows.nodup (h : Follows s) (inv : Inv P H s) : (s.server.committed.tables.executed.map (·.2)).Nodup := by
  have hsub : (s.server.committed.tables.executed.map (·.2)).Sublist
      ((List.range' 1 (s.server.committed.tables.processed + 1)).flatMap fun b =>
        (Engine.batchRows s.client.store b).map (·.id)) := by
    have horder := h.inOrder
    unfold Server.InOrder at horder
    rw [horder, List.map_append, List.map_flatMap, List.map_take, List.range'_concat, List.flatMap_append]
    simp only [Store.members, membersOf_ids, List.flatMap_singleton, Nat.one_mul, Nat.add_comm 1]
    exact (List.Sublist.refl _).append (List.take_sublist _ _)
  exact (inv.queue.batchIds_nodup (List.nodup_range' _)).sublist hsub

/-- A call's saved result is found by its id. -/
theorem Follows.found (h : Follows s) (inv : Inv P H s) {b o : Nat} {x : MutationResult}
    (hx : ((b, o), x) ∈ s.server.committed.tables.results) :
    (s.server.committed.tables.readResults b).find? (·.mutationId = x.mutationId) = some x := by
  have hmem : x ∈ s.server.committed.tables.readResults b :=
    List.mem_map.2 ⟨_, List.mem_filter.2 ⟨hx, by simp⟩, rfl⟩
  obtain ⟨y, hy⟩ := Option.isSome_iff_exists.1
    (List.find?_isSome (p := fun y : MutationResult => decide (y.mutationId = x.mutationId)).2 ⟨x, hmem, by simp⟩)
  rw [hy]
  have hid : y.mutationId = x.mutationId := by simpa using List.find?_some hy
  obtain ⟨⟨k, y'⟩, hy', rfl⟩ := List.mem_map.1 (List.mem_of_find?_eq_some hy)
  have hjournal := inv.sourced.consistent.results_journal (List.mem_of_mem_filter hy')
  -- two entries with one id are one entry
  have hnodup := h.nodup inv
  simp only [Server.Tables.executed, List.map_map, Function.comp_def] at hnodup
  have hsame := List.inj_on_of_nodup_map hnodup hjournal (inv.sourced.consistent.results_journal hx) hid
  rw [Prod.mk.injEq] at hsame
  rw [hsame.2]

end Uplink

/-- **The server executes each of the client's calls once, and in order.** In every state that a new client and an empty
server reach, the server has executed the client's calls of the processed batches, batch after batch and each in the order
of its calls, and the first calls of the next one. The acknowledged batches are among the processed ones, no two of the
executed members are one call, the business effects are those of the accepted ones, in that order, and whatever follows
only adds to them. -/
theorem uplink_executes_once {id : String} {S : Schema} {stream projection : String} {c₀ : Client} {s : Uplink.State}
    (hcreate : create P H id S stream projection = .ok c₀) (hrun : Uplink.Runs P H ⟨c₀, ⟨{}, none⟩, [], [], []⟩ s) :
    Server.InOrder s.client.store.members s.server.committed.tables ∧
      s.client.store.row.lastAcknowledgedBatchId ≤ s.server.committed.tables.processed ∧
      (s.server.committed.tables.executed.map (·.2)).Nodup ∧
      s.server.committed.tables.effects = s.server.committed.tables.journal.flatMap Server.effectsOf ∧
      ∀ t, Uplink.Runs P H s t → s.server.committed.tables.journal <+: t.server.committed.tables.journal := by
  have inv := (Uplink.inv_create hcreate).runs hrun
  obtain ⟨follows, -⟩ := (Uplink.follows_start c₀).runs (Uplink.inv_create hcreate) hrun
  exact ⟨follows.inOrder, inv.behind, follows.nodup inv, inv.sourced.consistent.executed.effects,
    fun t ht => (follows.runs inv ht).2⟩

/-- **The client and the server agree on every batch.** In every state that a new client and an empty server reach: the
server has processed the batches the client holds acknowledged, or one more; a request whose receipt is outstanding is what
the client sends again, and the server neither finds it out of order nor in conflict; for every call of an acknowledged
batch the client records the outcome that the server saved, after the three or four readings of its text; and while the
call is not settled the server still has the results of its whole batch and finds this one by the call's id. -/
theorem uplink_agrees {id : String} {S : Schema} {stream projection : String} {c₀ : Client} {s : Uplink.State}
    (hcreate : create P H id S stream projection = .ok c₀) (hrun : Uplink.Runs P H ⟨c₀, ⟨{}, none⟩, [], [], []⟩ s) :
    (s.server.committed.tables.processed = s.client.store.row.lastAcknowledgedBatchId ∨
      s.server.committed.tables.processed = s.client.store.row.lastAcknowledgedBatchId + 1) ∧
    (∀ q ∈ s.sent, s.client.store.row.lastAcknowledgedBatchId < q.batchId →
      Engine.freeze (s.client.engine P) s.client.store = .ok (some q, s.client.store) ∧
      ∀ owner stream row, (s.server.committed.tables.claimed owner stream).store = some row → Uplink.Admits row q) ∧
    ∀ r ∈ s.client.store.queue, ∀ b, r.batchId = some b → b ≤ s.client.store.row.lastAcknowledgedBatchId →
      ∃ o x, ((b, o), x) ∈ s.server.committed.tables.journal ∧ x.mutationId = r.id ∧
        (∃ n, 3 ≤ n ∧ n ≤ 4 ∧ r.outcome P = some (x.outcome.readings P n)) ∧
        (r.reconciled = false →
          (∀ o' x', ((b, o'), x') ∈ s.server.committed.tables.journal → ((b, o'), x') ∈ s.server.committed.tables.results) ∧
          (s.server.committed.tables.readResults b).find? (·.mutationId = r.id) = some x) := by
  have inv := (Uplink.inv_create hcreate).runs hrun
  obtain ⟨follows, -⟩ := (Uplink.follows_start c₀).runs (Uplink.inv_create hcreate) hrun
  refine ⟨?_, fun q hq hlast => ⟨?_, fun owner stream row hrow => inv.admits hq hlast hrow⟩, fun r hr b hb hle => ?_⟩
  · have hbehind := inv.behind
    have hahead := inv.ahead
    omega
  · obtain ⟨S', hS'⟩ := inv.holds q hq hlast
    exact freeze_eq inv.queue hS' hlast s.client.schema
  · obtain ⟨a, ha, hid, hrec⟩ := inv.recorded b ((inv.queue.rows r hr).window b hb).1 hle
    have hmem : r ∈ Engine.batchRows s.client.store a.batchId := List.mem_filter.2 ⟨hr, by simp [hb, hid]⟩
    obtain ⟨-, -, x, hx, hout⟩ := hrec.rows r hmem
    obtain ⟨hxmem, hxid⟩ := mem_of_result hx
    obtain ⟨z, hz, rfl⟩ := List.mem_map.1 hxmem
    obtain ⟨o, y, hy, hread⟩ := (inv.receipts a ha).2 z hz
    obtain ⟨n, hpos, hle, hn⟩ := hread.outcome
    rw [hid] at hy
    have hyid : y.mutationId = r.id := hread.id.symm.trans hxid
    refine ⟨o, y, hy, hyid, ⟨n + 2, by omega, by omega, ?_⟩, fun hopen => ⟨fun o' x' hx' => inv.kept hr hb hopen hx', ?_⟩⟩
    · -- the client's decoding and `outcome05` read it once more each
      have twice : y.outcome.readings P (n + 2) = (z.outcome.reread P).reread P := by
        rw [hn, MutationOutcome.readings, MutationOutcome.readings, Function.iterate_succ_apply', Function.iterate_succ_apply']
      rw [hout, twice]
      rfl
    · rw [← hyid]
      exact follows.found inv (inv.kept hr hb hopen hy)

namespace Notes

open Server

/-- Scored notes, as the server reads them. -/
def scoringConfig : Server.Config where
  schema := scoring
  projectionGeneration := "notes"
  contract _ _ := some scoring

/-- The double that the handler's `2.7908442882624163e-8` is read as; it is printed `2.7908442882624166e-8`, read back
as `2.790844288262417e-8` and that as `2.7908442882624173e-8`, which reads as itself. -/
def score : Rat := roundF64 (27908442882624166 * scale 10 (-24))

def scoringAnswers : List Ans :=
  [.store { principal := "user", stream := "user" }, .allowed true, .acknowledged, .acknowledged, .handled .settled,
    .settled (.accepted 3 (.obj [("score", .num (.float score))]) [none]
      [some (.obj [("id", .str "a"), ("title", .str "x")])]), .acknowledged, .acknowledged]

/-- What the server answers to the first batch. -/
def answered (q : MutationRequest) : Option (List MutationResult × Database) :=
  match ((Call.member scoringConfig "user" q 0).body platform hashes).replay Host.answer scoringAnswers {} with
  | some (.ok results, d) => some (results, d)
  | _ => none

theorem answered_runs {q : MutationRequest} {results : List MutationResult} {d : Database}
    (h : answered q = some (results, d)) :
    ((Call.member scoringConfig "user" q 0).body platform hashes).Runs Host.Answers {} (.ok results) d := by
  unfold answered at h
  split at h
  · rename_i hreplay
    cases h
    exact Prog.runs_of_replay hreplay
  · cases h

/-- The row of the call records another outcome than the one that was saved. -/
def recordsOther (t : Tables) (c : Client) : Bool :=
  c.store.queue.any fun r => r.batchId = some 1 && t.journal.any fun e =>
    e.1.1 = 1 && e.2.mutationId = r.id && r.outcome platform ≠ some e.2.outcome

/-- A note is added, its batch executed, and the receipt acknowledged. -/
theorem exchanged : ∃ s, Uplink.Runs platform hashes ⟨unscored, ⟨{}, none⟩, [], [], []⟩ s ∧
    s.client.store.row.lastAcknowledgedBatchId = 1 ∧ s.server.committed.tables.executed = [((1, 0), 1)] ∧
    recordsOther s.server.committed.tables s.client = true := by
  have settles : ((sent.call platform hashes {} .freeze).1.toOption.bind Output.frozen).any (fun q => (answered q).any fun e => e.1.length = q.mutations.length &&
      e.2.tables.executed = [((1, 0), 1)] && (encodeBatchAcknowledgement platform q e.1).toOption.any fun a =>
        let c := (sent.call platform hashes {} .freeze).2
        let r := c.call platform hashes {} (.acknowledge (a.reread platform))
        r.1.toOption.isSome && r.2.store.row.lastAcknowledgedBatchId = 1 && recordsOther e.2.tables r.2) = true := by
    decide +kernel
  obtain ⟨q, hq, he⟩ := (Option.any_eq_true _ _).1 settles
  obtain ⟨⟨results, d⟩, hanswer, he⟩ := (Option.any_eq_true _ _).1 he
  simp only [Bool.and_eq_true, decide_eq_true_eq] at he
  obtain ⟨⟨hlength, hexecuted⟩, ha⟩ := he
  obtain ⟨a, ha, hlast⟩ := (Option.any_eq_true _ _).1 ha
  simp only [Bool.and_eq_true, decide_eq_true_eq] at hlast
  obtain ⟨⟨ho', hlast⟩, hother⟩ := hlast
  obtain ⟨o', ho'⟩ := Option.isSome_iff_exists.1 ho'
  obtain ⟨o, ho, hoq⟩ := Option.bind_eq_some_iff.1 hq
  have plain : ∀ e ∈ (unscored.execute platform hashes sending).1, ∀ a, e.call ≠ .acknowledge a := by
    intro e he a
    simp only [sending, Client.execute, List.mem_cons, List.not_mem_nil, or_false] at he
    rcases he with rfl | rfl <;> simp [submit]
  have submitted : Client.Runs platform hashes unscored (unscored.execute platform hashes sending).1 sent :=
    unscored.execute_runs platform hashes sending
  obtain ⟨requests, -, hclient⟩ := Uplink.runs_client (s := ⟨unscored, ⟨{}, none⟩, [], [], []⟩) submitted plain
  have frozen : Client.Step platform hashes sent ⟨.freeze, {}, .ok o⟩ (sent.call platform hashes {} .freeze).2 :=
    Client.step_of_result _ _ ho
  obtain ⟨s, hexchange, hclient', hserver⟩ := Uplink.runs_exchange requests [] [] frozen hoq ⟨rfl, rfl⟩
    (answered_runs hanswer) hlength (ok_of_toOption (Option.mem_def.1 ha)) (Client.step_of_result _ _ ho')
  refine ⟨s, hclient.trans hexchange, ?_, ?_, ?_⟩
  · rw [hclient', hlast]
  · rw [hserver, hexecuted]
  · simpa only [hserver, hclient'] using hother

end Notes

/-- One call is executed, and its id is found at its place. -/
theorem uplink_executes_once_note : ∃ s, Uplink.Runs Notes.platform Notes.hashes ⟨Notes.unscored, ⟨{}, none⟩, [], [], []⟩ s ∧
    s.server.committed.tables.executed = [((1, 0), 1)] ∧
    Server.InOrder s.client.store.members s.server.committed.tables := by
  obtain ⟨s, hruns, -, hexecuted, -⟩ := Notes.exchanged
  exact ⟨s, hruns, hexecuted, (uplink_executes_once Notes.create_unscored hruns).1⟩

/-- **What the client records need not be what the server saved.** The score of a note is saved as one double and recorded
as another, since each reading of its text takes it for the next one. -/
theorem recorded_outcome_drifts : ¬ ∀ s, Uplink.Runs Notes.platform Notes.hashes ⟨Notes.unscored, ⟨{}, none⟩, [], [], []⟩ s →
    ∀ r ∈ s.client.store.queue, ∀ b, r.batchId = some b → b ≤ s.client.store.row.lastAcknowledgedBatchId →
      ∀ o x, ((b, o), x) ∈ s.server.committed.tables.journal → x.mutationId = r.id → r.outcome Notes.platform = some x.outcome := by
  intro h
  obtain ⟨s, hruns, hlast, -, hother⟩ := Notes.exchanged
  simp only [Notes.recordsOther, List.any_eq_true, Bool.and_eq_true, decide_eq_true_eq] at hother
  obtain ⟨r, hr, hb, ⟨⟨b, o⟩, x⟩, hx, ⟨hbatch, hid⟩, hne⟩ := hother
  cases hbatch
  exact hne (h s hruns r hr 1 hb (le_of_eq hlast.symm) o x hx hid)

/-- The call of the acknowledged batch has a saved result. -/
theorem uplink_agrees_note : ∃ s, Uplink.Runs Notes.platform Notes.hashes ⟨Notes.unscored, ⟨{}, none⟩, [], [], []⟩ s ∧
    s.client.store.row.lastAcknowledgedBatchId = 1 ∧
    (s.server.committed.tables.processed = 1 ∨ s.server.committed.tables.processed = 2) ∧
    ∃ r ∈ s.client.store.queue, ∃ o x, ((1, o), x) ∈ s.server.committed.tables.journal ∧ x.mutationId = r.id := by
  obtain ⟨s, hruns, hlast, -, hother⟩ := Notes.exchanged
  obtain ⟨hcounters, -, hrecorded⟩ := uplink_agrees Notes.create_unscored hruns
  rw [hlast] at hcounters
  simp only [Notes.recordsOther, List.any_eq_true, Bool.and_eq_true, decide_eq_true_eq] at hother
  obtain ⟨r, hr, hb, -⟩ := hother
  obtain ⟨o, x, hx, hid, -⟩ := hrecorded r hr 1 hb (le_of_eq hlast.symm)
  exact ⟨s, hruns, hlast, hcounters, r, hr, o, x, hx, hid⟩

end Axton
