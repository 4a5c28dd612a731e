import Axton.Client.Replay
import Axton.Server.ExactlyOnce

/-!
# The uplink

One client store and the server's tables for it. Requests and receipts may be lost, delayed, duplicated and reordered: a
request that the client ever froze can reach the server at any time, and a receipt that the server ever made can reach the
client at any time. Server calls run in transactions that may abort, and the client makes its other calls, loses
transactions and reopens.

`Inv` is what the two sides keep between them: the two counters are never more than one apart, a batch is one request,
every receipt is of saved results, and the first receipt of a batch is the one that is recorded.

Results travel as text, and a number may read as another one, so what the client records is the saved outcome after its
readings: a result that the host handed back has been read before, `encode_batch_acknowledgement` reads the texts of the
results, the client decodes the receipt, and `outcome05` reads the columns. The tables of the model hold results as
values, so the host's reading stands where the results are put together.

| here | there |
| --- | --- |
| `encodeBatchAcknowledgement`   | `encode_batch_acknowledgement` (protocol_v05.rs:213) |
| `Assembled`                    | the loop of `push` (backend.mts:662) over members or groups |
| `BatchAcknowledgement.reread`  | `decode` of the receipt's text |
-/

namespace Axton

/-- A result as its canonical text is read. -/
def MutationResult.reread (P : Platform) (r : MutationResult) : MutationResult :=
  { r with outcome := r.outcome.reread P }

/-- A receipt as its canonical text is read. -/
def BatchAcknowledgement.reread (P : Platform) (a : BatchAcknowledgement) : BatchAcknowledgement :=
  { a with results := a.results.map (·.reread P) }

/-- An outcome whose text was read `n` times. -/
def MutationOutcome.readings (P : Platform) (n : Nat) (o : MutationOutcome) : MutationOutcome := (MutationOutcome.reread P)^[n] o

namespace Server

/-- `encode_batch_acknowledgement` (protocol_v05.rs:213): the results come as the texts the member
calls returned. -/
def encodeBatchAcknowledgement (P : Platform) (q : MutationRequest) (results : List MutationResult) :
    Except String BatchAcknowledgement := do
  let a : BatchAcknowledgement := ⟨q.context, q.batchId, q.digest, results.map (·.reread P)⟩
  validateAcknowledgement P q a
  return a

/-- The last batch the tables have processed. -/
def Tables.processed (t : Tables) : Nat := (t.store.map (·.lastProcessedBatchId)).getD 0

end Server

namespace Uplink

abbrev Answer := Server.Call × List MutationResult

/-- The client, the server, and everything that was ever sent: requests, the results of committed
calls, receipts. -/
structure State where
  client : Client
  server : Transactions Server.Op Server.Ans Server.Database Server.Call (List MutationResult)
  sent : List MutationRequest := []
  answers : List Answer := []
  receipts : List BatchAcknowledgement := []

/-- One result for each member of the request, each returned by a call that committed: as it was made, or as the host's
text of a saved result is read. -/
structure Assembled (P : Platform) (answers : List Answer) (q : MutationRequest) (results : List MutationResult) :
    Prop where
  length : results.length = q.mutations.length
  returned : ∀ i r, results[i]? = some r → ∃ e ∈ answers, ∃ j x, e.1.request = q ∧ e.1.start + j = i ∧
    e.2[j]? = some x ∧ (r = x ∨ r = x.reread P)

section
variable (P : Platform) (H : Hashes)

/-- One step of the system. -/
inductive Step : State → State → Prop
  | client (s : State) {e : Event} {c : Client} : Client.Step P H s.client e c →
      (∀ a, e.call = .acknowledge a → ∃ b ∈ s.receipts, a = b.reread P) →
      Step s { s with client := c, sent := (e.result.toOption.bind Output.frozen).toList ++ s.sent }
  | server (s : State) {o : Option Answer}
      {v : Transactions Server.Op Server.Ans Server.Database Server.Call (List MutationResult)} :
      Transactions.Step Server.Host.Answers (Server.Call.body P H) s.server o v →
      (∀ c w p, v.holder = some (c, w, p) → c.request ∈ s.sent) →
      Step s { s with server := v, answers := o.toList ++ s.answers }
  | receipt (s : State) {q : MutationRequest} {results : List MutationResult}
    {a : BatchAcknowledgement} : q ∈ s.sent →
      Assembled P s.answers q results → Server.encodeBatchAcknowledgement P q results = .ok a →
      Step s { s with receipts := a :: s.receipts }

/-- A run of the system. -/
def Runs : State → State → Prop := Relation.ReflTransGen (Step P H)

end

variable {P : Platform} {H : Hashes}

/-! ## The server's tables -/

/-- Consistent tables whose batches are requests that were sent. -/
structure Sourced (sent : List MutationRequest) (t : Server.Tables) : Prop where
  consistent : Server.Consistent t
  current : ∀ s d, t.store = some s → s.currentDigest = some d → ∃ q ∈ sent, q.digest = d
  last : ∀ s d, t.store = some s → s.lastDigest = some d → ∃ q ∈ sent, q.digest = d

theorem Sourced.mono {sent sent' : List MutationRequest} {t : Server.Tables} (h : Sourced sent t)
    (hs : sent ⊆ sent') :
    Sourced sent' t where
  consistent := h.consistent
  current s d hst hd := by
    obtain ⟨q, hq, hdig⟩ := h.current s d hst hd
    exact ⟨q, hs hq, hdig⟩
  last s d hst hd := by
    obtain ⟨q, hq, hdig⟩ := h.last s d hst hd
    exact ⟨q, hs hq, hdig⟩

theorem Sourced.shape {sent : List MutationRequest} {t : Server.Tables} (h : Sourced sent t) {s : Server.Store}
    (hs : t.store = some s) : Server.Shape s t := by
  have hconsistent := h.consistent
  unfold Server.Consistent at hconsistent
  rwa [hs] at hconsistent

theorem Sourced.claimed {sent : List MutationRequest} {t : Server.Tables} (h : Sourced sent t)
    (principal stream : String) :
    Sourced sent (t.claimed principal stream) ∧ (t.claimed principal stream).processed = t.processed := by
  obtain ⟨s, hs, hshape⟩ := h.consistent.claimed principal stream
  refine ⟨⟨hshape.consistent hs, ?_, ?_⟩, ?_⟩
  · rintro s d hst hd
    cases hst
    cases hst : t.store with
    | none => simp [hst] at hd
    | some s => exact h.current s d hst (by simpa [hst] using hd)
  · rintro s d hst hd
    cases hst
    cases hst : t.store with
    | none => simp [hst] at hd
    | some s => exact h.last s d hst (by simpa [hst] using hd)
  · unfold Server.Tables.claimed Server.Tables.processed
    cases t.store <;> rfl

/-- A committed suffix moves the counter to its own batch, which was the next one, or not at all. -/
theorem Sourced.commits {sent : List MutationRequest} {s : Server.Store} {q : MutationRequest}
    {results : List MutationResult} {t t' : Server.Tables} (h : Sourced sent t)
    (hc : Server.Commits s q results t t')
    (hq : q ∈ sent) : Sourced sent t' ∧ (t'.processed = t.processed ∨
      t'.processed = q.batchId ∧ q.batchId = t.processed + 1) := by
  have hprocessed : t.processed = s.lastProcessedBatchId := by simp [Server.Tables.processed, hc.store]
  obtain ⟨s', hs', hshape⟩ := hc.shape (h.shape hc.store)
  have hrow : s' = (s.begun q).advance q.batchId (s.progress + results.length) q.mutations.length := by
    rw [hc.eq] at hs'
    exact (Option.some.inj hs').symm
  have hprocessed' : t'.processed = s'.lastProcessedBatchId := by simp [Server.Tables.processed, hs']
  obtain ⟨hcurrent, -⟩ := hc.next.begun_digest
  have hlast : (s.begun q).lastDigest = s.lastDigest := by
    unfold Server.Store.begun
    split <;> rfl
  refine ⟨⟨hshape.consistent hs', ?_, ?_⟩, ?_⟩
  · rintro s₁ d hs₁ hd
    cases hs₁.symm.trans hs'
    rw [hrow, Server.Store.advance] at hd
    split at hd
    · cases hd
    · exact ⟨q, hq, Option.some.inj (hcurrent.symm.trans hd)⟩
  · rintro s₁ d hs₁ hd
    cases hs₁.symm.trans hs'
    rw [hrow, Server.Store.advance] at hd
    split at hd
    · exact ⟨q, hq, Option.some.inj (hcurrent.symm.trans hd)⟩
    · exact h.last s d hc.store (hlast ▸ hd)
  · rw [hprocessed, hprocessed', hrow, Server.Store.advance]
    split
    · exact .inr ⟨rfl, hc.next.batch⟩
    · exact .inl (Server.begun_last s)

/-- What a committed call does to the tables. -/
structure Committed (sent : List MutationRequest) (e : Answer) (t t' : Server.Tables) : Prop where
  sourced : Sourced sent t'
  journal : t.journal <+: t'.journal
  answered : Server.Answered t'.journal e
  counter : t'.processed = t.processed ∨ t'.processed = e.1.request.batchId ∧
    e.1.request.batchId = t.processed + 1

theorem Sourced.serial {sent : List MutationRequest} {d d' : Server.Database} {e : Answer}
    (h : Sourced sent d.tables)
    (hs : Transactions.Serial Server.Host.Answers (Server.Call.body P H) d e d') (hq : e.1.request ∈ sent) :
    Committed sent e d.tables d'.tables := by
  obtain ⟨-, hjournal, hanswered⟩ := Server.serial_consistent hs h.consistent
  obtain ⟨hcommitted, -⟩ := Server.Call.committed hs
  cases hcommitted with
  | nothing principal stream heq =>
    obtain ⟨hclaimed, hsame⟩ := h.claimed principal stream
    exact ⟨heq ▸ hclaimed, hjournal, hanswered, .inl (heq ▸ hsame)⟩
  | @suffix principal stream s results hc =>
    obtain ⟨hclaimed, hsame⟩ := h.claimed principal stream
    obtain ⟨hsourced, hcounter⟩ := hclaimed.commits hc hq
    exact ⟨hsourced, hjournal, hanswered, hsame ▸ hcounter⟩

/-- One step of the transactions: nothing is committed, or one call as a whole. -/
theorem transactions_step {Op Ans σ κ α : Type} {host : Op → σ → Ans → σ → Prop} {body : κ → Prog Op Ans α}
    {u v : Transactions Op Ans σ κ α} {o : Option (κ × α)} (hu : Transactions.Resumes host body u)
    (h : Transactions.Step host body u o v) : Transactions.Resumes host body v ∧
      (o = none ∧ v.committed = u.committed ∨ ∃ e, o = some e ∧
      Transactions.Serial host body u.committed e v.committed) := by
  obtain ⟨hserial, hv⟩ := Transactions.serial hu (Trace.single h)
  refine ⟨hv, ?_⟩
  cases o with
  | none => exact .inl ⟨rfl, hserial.of_nil⟩
  | some e => exact .inr ⟨e, rfl, hserial.of_single⟩

theorem committed_holder {Op Ans σ κ α : Type} {host : Op → σ → Ans → σ → Prop} {body : κ → Prog Op Ans α}
    {u v : Transactions Op Ans σ κ α} {e : κ × α} (h : Transactions.Step host body u (some e) v) :
    ∃ w p, u.holder = some (e.1, w, p) := by
  cases h with
  | commit s w c a => exact ⟨w, _, rfl⟩

/-! ## The client's queue -/

/-- A sent row was there before, as far as it was sent. -/
theorem moves_row {a b : Store} (h : Moves P a b) {r' : MutationRow} (hr' : r' ∈ b.queue)
    (hb : r'.batchId.isSome) :
    ∃ r ∈ a.queue, RowGrows r r' := by
  induction h generalizing r' with
  | refl => exact ⟨r', hr', .refl r'⟩
  | tail _ hm ih =>
    obtain ⟨r, hr, g⟩ := mem_of_grows hm.grows hr' (.inr hb)
    obtain ⟨r₀, hr₀, g₀⟩ := ih hr (g.batchId ▸ hb)
    exact ⟨r₀, hr₀, g₀.trans g⟩

theorem reconstructBatch_valid {E : Engine} {a : Store} {b : Nat} {q : MutationRequest}
    (h : E.reconstructBatch a b = .ok q) :
    q.validate = .ok () := by
  simp only [Engine.reconstructBatch] at h
  split at h
  · split at h
    · simp only [bind_ok, pure_ok] at h
      obtain ⟨_, -, _, -, _, hvalid, _, -, rfl⟩ := h
      exact hvalid
    · cases h
  · cases h

/-- Only a first receipt moves the client's counter, to the next batch. -/
theorem step_last {c c' : Client} {e : Event} (h : Client.Step P H c e c') :
    c'.store.row.lastAcknowledgedBatchId = c.store.row.lastAcknowledgedBatchId ∨
      ∃ a o, e.call = .acknowledge a ∧ e.result = .ok o ∧ a.batchId = c.store.row.lastAcknowledgedBatchId + 1 ∧
        c'.store.row.lastAcknowledgedBatchId = a.batchId := by
  cases Client.step_moved P H h with
  | failed _ => exact .inl rfl
  | waited _ _ _ => exact .inl rfl
  | @plain o t _ hb _ hr =>
    rcases Call.lastAcknowledged hb with hl | ⟨a, hx, hnext, hl⟩
    · exact .inl hl
    · exact .inr ⟨a, o, hx, hr, hnext, hl⟩
  | cleaned _ _ _ _ => exact .inl rfl
  | applied _ _ hb _ _ =>
    have hl := (Engine.applyUnit_quiet hb).lastAcknowledged
    exact .inl hl
  | reopened _ hb _ => exact .inl (Engine.reopen_quiet hb).lastAcknowledged

/-- The request an event hands to the network. -/
def frozen (e : Event) : Option MutationRequest := e.result.toOption.bind Output.frozen

/-- What a step that returned a request did: the batch was outstanding, or it was assigned. -/
theorem step_frozen {c c' : Client} {e : Event} (h : Client.Step P H c e c') {q : MutationRequest}
    (hq : frozen e = some q) :
    e.call = .freeze ∧ e.result = .ok (.request (some q)) ∧
      ((∃ b S, Engine.outstanding c.store = some b ∧ Engine.reconstructBatch ⟨P, S⟩ c.store b = .ok q) ∨
        ∃ t, Freezes P q c.store t ∧ Quiet t c'.store) := by
  obtain ⟨o, ho, hoq⟩ := Option.bind_eq_some_iff.1 hq
  have hresult : e.result = .ok o := ok_of_toOption ho
  have hrequest : o = .request (some q) := by
    cases o <;> simp_all [Output.frozen]
  subst hrequest
  cases Client.step_moved P H h with
  | failed hr => rw [hr] at hresult; cases hresult
  | waited _ _ hr => rw [hr] at hresult; cases hresult
  | cleaned _ _ _ hr => rw [hr] at hresult; cases hresult
  | applied _ _ _ _ hr => rcases hr with hr | ⟨-, _, hr⟩ <;> rw [hr] at hresult <;> cases hresult
  | reopened _ _ hr => rw [hr] at hresult; cases hresult
  | @plain o t _ hb _ hr =>
    cases hresult.symm.trans hr
    cases hcall : e.call with
    | freeze =>
      rw [hcall] at hb
      simp only [Call.body, labelled, map_ok, Prod.exists, Prod.mk.injEq, Output.request.injEq] at hb
      obtain ⟨r, u, hb, rfl, rfl⟩ := hb
      refine ⟨rfl, hr, ?_⟩
      rcases Engine.freeze_cases hb with ⟨rfl, b, q', hout, hq', e⟩ | ⟨-, -, e⟩ | ⟨q', e, hf⟩
      · cases e
        exact .inl ⟨b, c.schema, hout, hq'⟩
      · cases e
      · cases e
        exact .inr ⟨u, hf, published_quiet c u⟩
    | _ => rw [hcall] at hb; simp [Call.body, labelled, map_ok] at hb

/-- A request is returned with the counter as it was. -/
theorem frozen_last {c c' : Client} {e : Event} (h : Client.Step P H c e c') {q : MutationRequest}
    (hq : frozen e = some q) : c'.store.row.lastAcknowledgedBatchId = c.store.row.lastAcknowledgedBatchId := by
  rcases step_last h with hl | ⟨a, _, hcall, -⟩
  · exact hl
  · rw [(step_frozen h hq).1] at hcall
    cases hcall

/-! ## The invariant -/

/-- A result of a receipt is a saved one, read once or, when the host handed it back, twice. -/
structure Read (P : Platform) (saved x : MutationResult) : Prop where
  id : x.mutationId = saved.mutationId
  outcome : ∃ n, 1 ≤ n ∧ n ≤ 2 ∧ x.outcome = saved.outcome.readings P n

theorem read_of_text {saved x : MutationResult} (h : x = saved ∨ x = saved.reread P) : Read P saved (x.reread P) := by
  rcases h with rfl | rfl
  · exact ⟨rfl, 1, le_rfl, by decide, rfl⟩
  · exact ⟨rfl, 2, by decide, le_rfl, rfl⟩

structure Inv (P : Platform) (H : Hashes) (s : State) : Prop where
  queue : QueueInv s.client.store
  sealed : SealedRows s.client.store
  resumes : Transactions.Resumes Server.Host.Answers (Server.Call.body P H) s.server
  holder : ∀ c w p, s.server.holder = some (c, w, p) → c.request ∈ s.sent
  sourced : Sourced s.sent s.server.committed.tables
  sent : ∀ q ∈ s.sent, q.validate = .ok () ∧ q.batchId ≤ s.client.store.row.lastAcknowledgedBatchId + 1
  -- a batch is one request
  one : ∀ q ∈ s.sent, ∀ q' ∈ s.sent, q'.batchId = q.batchId → q' = q
  holds : ∀ q ∈ s.sent, Holds P q s.client
  assigned : ∀ r ∈ s.client.store.queue, ∀ b, r.batchId = some b →
    s.client.store.row.lastAcknowledgedBatchId < b →
    ∃ q ∈ s.sent, q.batchId = b
  -- the next batch goes out when the last one is settled
  settled : ∀ q ∈ s.sent, ∀ r ∈ s.client.store.queue, ∀ b, r.batchId = some b → b < q.batchId →
    r.reconciled = true
  behind : s.client.store.row.lastAcknowledgedBatchId ≤ s.server.committed.tables.processed
  ahead : s.server.committed.tables.processed ≤ s.client.store.row.lastAcknowledgedBatchId + 1
  answers : ∀ e ∈ s.answers, Server.Answered s.server.committed.tables.journal e
  receipts : ∀ a ∈ s.receipts, a.batchId ≤ s.server.committed.tables.processed ∧
    ∀ x ∈ a.results, ∃ o y, ((a.batchId, o), y) ∈ s.server.committed.tables.journal ∧ Read P y x
  -- the first receipt of a batch is the one that is recorded
  recorded : ∀ b, 1 ≤ b → b ≤ s.client.store.row.lastAcknowledgedBatchId →
    ∃ a ∈ s.receipts, a.batchId = b ∧ Receipted P true (a.reread P) s.client.store

/-! ## The server's steps -/

variable {s : State}

theorem Inv.server (inv : Inv P H s) {o : Option Answer}
    {v : Transactions Server.Op Server.Ans Server.Database Server.Call (List MutationResult)}
    (h : Transactions.Step Server.Host.Answers (Server.Call.body P H) s.server o v)
    (hsent : ∀ c w p, v.holder = some (c, w, p) → c.request ∈ s.sent) :
    Inv P H { s with server := v, answers := o.toList ++ s.answers } := by
  obtain ⟨hresumes, hcommit⟩ := transactions_step inv.resumes h
  rcases hcommit with ⟨rfl, hsame⟩ | ⟨e, rfl, hserial⟩
  · exact {
      inv with
      resumes := hresumes
      holder := hsent
      sourced := hsame ▸ inv.sourced
      behind := hsame ▸ inv.behind
      ahead := hsame ▸ inv.ahead
      answers := hsame ▸ inv.answers
      receipts := hsame ▸ inv.receipts }
  · obtain ⟨w, p, hholder⟩ := committed_holder h
    have hmem := inv.holder _ _ _ hholder
    obtain ⟨hsourced, hjournal, hanswered, hcounter⟩ := inv.sourced.serial hserial hmem
    obtain ⟨-, hnext⟩ := inv.sent _ hmem
    have hle : s.server.committed.tables.processed ≤ v.committed.tables.processed := by
      rcases hcounter with h | ⟨h, hb⟩ <;> omega
    have hold : ∀ x ∈ s.answers, Server.Answered v.committed.tables.journal x :=
      fun x hx j r hr => hjournal.subset (inv.answers x hx j r hr)
    exact {
      inv with
      resumes := hresumes
      holder := hsent
      sourced := hsourced
      behind := le_trans inv.behind hle
      ahead := by
        show v.committed.tables.processed ≤ _
        have hahead := inv.ahead
        rcases hcounter with h | ⟨h, -⟩
        · rw [h]
          exact hahead
        · rw [h]
          exact hnext
      answers := by
        intro x hx
        rcases List.mem_append.1 hx with hx | hx
        · cases List.mem_singleton.1 hx
          exact hanswered
        · exact hold x hx
      receipts := by
        intro a ha
        obtain ⟨hp, hresults⟩ := inv.receipts a ha
        refine ⟨le_trans hp hle, fun x hx => ?_⟩
        obtain ⟨o, y, hy, hxy⟩ := hresults x hx
        exact ⟨o, y, hjournal.subset hy, hxy⟩ }

/-- A batch with a result for its last member is processed. -/
theorem Inv.completed (inv : Inv P H s) {q : MutationRequest} (hq : q ∈ s.sent) {o : Nat} {r : MutationResult}
    (ho : o + 1 = q.mutations.length) (hr : ((q.batchId, o), r) ∈ s.server.committed.tables.journal) :
    q.batchId ≤ s.server.committed.tables.processed := by
  cases hst : s.server.committed.tables.store with
  | none =>
    have hnothing := inv.sourced.consistent
    unfold Server.Consistent at hnothing
    rw [hst] at hnothing
    rw [hnothing] at hr
    cases hr
  | some row =>
    have hshape := inv.sourced.shape hst
    have hprocessed : s.server.committed.tables.processed = row.lastProcessedBatchId := by
      simp [Server.Tables.processed, hst]
    rw [hprocessed]
    rcases hshape.bound _ hr with ⟨-, hle⟩ | ⟨hbatch, hlt⟩
    · exact hle
    · -- the batch in progress has not come to its last member
      exfalso
      have hbatch : q.batchId = row.lastProcessedBatchId + 1 := hbatch
      have hlt : o < row.progress := hlt
      cases hcur : row.currentDigest with
      | none =>
        have := hshape.idle hcur
        omega
      | some d =>
        obtain ⟨q', hq', rfl⟩ := inv.sourced.current row d hst hcur
        obtain ⟨hdigest, -⟩ := Server.MutationRequest.validate_digest (inv.sent q' hq').1
        have hid := hshape.current.2 _ hcur
        rw [hdigest] at hid
        have hid : q'.batchId = row.lastProcessedBatchId + 1 := hid
        have hsame : q' = q := inv.one q hq q' hq' (by omega)
        have hdue := hshape.due _ hcur
        rw [hdigest, hsame] at hdue
        have hdue : row.progress < q.mutations.length := hdue
        omega

theorem Inv.receipt (inv : Inv P H s) {q : MutationRequest} {results : List MutationResult}
    {a : BatchAcknowledgement}
    (hq : q ∈ s.sent) (hall : Assembled P s.answers q results)
    (ha : Server.encodeBatchAcknowledgement P q results = .ok a) :
    Inv P H { s with receipts := a :: s.receipts } := by
  have hreturned : ∀ i r, results[i]? = some r →
      ∃ x, ((q.batchId, i), x) ∈ s.server.committed.tables.journal ∧ (r = x ∨ r = x.reread P) := by
    intro i r hr
    obtain ⟨e, he, j, x, hreq, rfl, hj, hx⟩ := hall.returned i r hr
    have hanswer := inv.answers e he j x hj
    rw [hreq] at hanswer
    exact ⟨x, hanswer, hx⟩
  simp only [Server.encodeBatchAcknowledgement, bind_ok, pure_ok] at ha
  obtain ⟨_, -, rfl⟩ := ha
  refine { inv with receipts := ?_, recorded := ?_ }
  · intro a ha
    rcases List.mem_cons.1 ha with rfl | ha
    · refine ⟨?_, fun x hx => ?_⟩
      · have hne : 0 < q.mutations.length := by
          have hvalid := (inv.sent q hq).1
          simp only [MutationRequest.validate, batchDigest, bind_ok, pure_ok, BatchBody.validate,
            check_ok] at hvalid
          obtain ⟨_, ⟨_, ⟨_, _, _, _, _, hne, _⟩, _⟩, _⟩ := hvalid
          exact List.length_pos_iff.2 (by simpa using hne)
        have hlast : q.mutations.length - 1 < results.length := by
          rw [hall.length]
          omega
        obtain ⟨r, hr⟩ : ∃ r, results[q.mutations.length - 1]? = some r := ⟨_, List.getElem?_eq_getElem hlast⟩
        obtain ⟨x, hx, -⟩ := hreturned _ r hr
        exact inv.completed hq (by omega) hx
      · obtain ⟨r, hr, rfl⟩ := List.mem_map.1 hx
        obtain ⟨i, hi⟩ := List.mem_iff_getElem?.1 hr
        obtain ⟨y, hy, hread⟩ := hreturned i r hi
        exact ⟨i, y, hy, read_of_text hread⟩
    · exact inv.receipts a ha
  · intro b hpos hle
    obtain ⟨a, ha, rest⟩ := inv.recorded b hpos hle
    exact ⟨a, List.mem_cons_of_mem _ ha, rest⟩

/-! ## The client's steps -/

/-- A sent row after a step was sent before, or its batch was assigned in the step, with every sent
row settled. -/
theorem step_rows {c c' : Client} {e : Event} (h : Client.Step P H c e c') {r' : MutationRow}
    (hr' : r' ∈ c'.store.queue)
    {b : Nat} (hb : r'.batchId = some b) :
    (∃ r ∈ c.store.queue, r.batchId = some b ∧ (r.reconciled = true → r'.reconciled = true)) ∨
      (b = c.store.row.lastAcknowledgedBatchId + 1 ∧ ∃ q, frozen e = some q ∧ q.batchId = b) := by
  rcases Client.step_moves h with h | ⟨q, t, -, hresult, hf, hquiet⟩
  · obtain ⟨r, hr, g⟩ := moves_row h hr' (by simp [hb])
    exact .inl ⟨r, hr, g.batchId ▸ hb, g.settled⟩
  · obtain ⟨x, hx, g⟩ := mem_of_grows hquiet.grows hr' (.inr (by simp [hb]))
    have hqueue := hf.queue
    rw [hqueue] at hx
    obtain ⟨r, hr, rfl⟩ := List.mem_map.1 hx
    have hrow : frozenRow c.store (c.store.row.lastAcknowledgedBatchId + 1) q.digest r =
        if Engine.ready c.store r then frozenRow c.store
        (c.store.row.lastAcknowledgedBatchId + 1) q.digest r else r := by
      split
      · rfl
      · rename_i hnot
        simp [frozenRow, hnot]
    by_cases hready : Engine.ready c.store r = true
    · right
      have hassigned : (frozenRow c.store (c.store.row.lastAcknowledgedBatchId + 1) q.digest r).batchId =
          some (c.store.row.lastAcknowledgedBatchId + 1) := by
        simp [frozenRow, hready]
      rw [← g.batchId, hb] at hassigned
      have hbatch : b = c.store.row.lastAcknowledgedBatchId + 1 := Option.some.inj hassigned
      have hid := (Engine.reconstructBatch_ok hf.request.choose_spec).1
      exact ⟨hbatch, q, by simp [frozen, hresult, Output.frozen, Except.toOption], by rw [hid, hbatch]⟩
    · rw [hrow, if_neg hready] at g
      exact .inl ⟨r, hr, g.batchId ▸ hb, g.settled⟩

/-- A request that is returned is the one that was returned for its batch before, or the next one, sent with every earlier
row settled. -/
theorem Inv.frozen (inv : Inv P H s) {c : Client} {e : Event} (h : Client.Step P H s.client e c)
    {q : MutationRequest}
    (hq : Uplink.frozen e = some q) : q ∈ s.sent ∨
      (q.validate = .ok () ∧ q.batchId = s.client.store.row.lastAcknowledgedBatchId + 1 ∧ Holds P q c ∧
        (∀ q' ∈ s.sent, q'.batchId ≠ q.batchId) ∧ ∀ r ∈ s.client.store.queue, r.batchId.isSome →
        r.reconciled = true) := by
  obtain ⟨hcall, hresult, hcase⟩ := step_frozen h hq
  rcases hcase with ⟨b, S, hout, hrebuilt⟩ | ⟨t, hf, hquiet⟩
  · left
    obtain ⟨r, hr, hb⟩ := exists_batchRow hrebuilt
    have hlast : s.client.store.row.lastAcknowledgedBatchId < b := by
      have hmem := List.min?_mem hout
      have hlt := (List.mem_filter.1 hmem).2
      simpa using hlt
    obtain ⟨q', hq', hid⟩ := inv.assigned r hr b hb hlast
    obtain ⟨S', hS'⟩ := inv.holds q' hq' (hid ▸ hlast)
    have hfreeze := freeze_eq inv.queue hS' (hid ▸ hlast) S
    have hfreeze' := freeze_eq inv.queue hrebuilt hlast S
    rw [hfreeze] at hfreeze'
    cases hfreeze'
    exact hq'
  · right
    obtain ⟨S, hS⟩ := hf.request
    have hid := (Engine.reconstructBatch_ok hS).1
    refine ⟨reconstructBatch_valid hS, hid, ?_, fun q' hq' he => ?_, hf.settled⟩
    · obtain ⟨call, f, r⟩ := e
      cases hcall
      cases hresult
      exact holds_of_freeze inv.queue h
    · obtain ⟨S', hS'⟩ := inv.holds q' hq' (by omega)
      obtain ⟨r, hr, hb⟩ := exists_batchRow hS'
      have := Engine.outstanding_none hf.none hr hb
      omega

theorem Inv.client (inv : Inv P H s) {e : Event} {c : Client} (h : Client.Step P H s.client e c)
    (hreceipt : ∀ a, e.call = .acknowledge a → ∃ b ∈ s.receipts, a = b.reread P) :
    Inv P H { s with client := c, sent := (Uplink.frozen e).toList ++ s.sent } := by
  have hlast := step_last h
  have hle : s.client.store.row.lastAcknowledgedBatchId ≤ c.store.row.lastAcknowledgedBatchId := by
    rcases hlast with h | ⟨_, _, -, -, hnext, h⟩ <;> omega
  have hsub : s.sent ⊆ (Uplink.frozen e).toList ++ s.sent := fun q hq => List.mem_append_right _ hq
  have hmem : ∀ q ∈ (Uplink.frozen e).toList ++ s.sent, q ∈ s.sent ∨
    (Uplink.frozen e = some q ∧ q ∉ s.sent) := by
    intro q hq
    by_cases hold : q ∈ s.sent
    · exact .inl hold
    · rcases List.mem_append.1 hq with hq | hq
      · exact .inr ⟨by simpa using hq, hold⟩
      · exact .inl hq
  refine {
    queue := queueInv_step inv.queue h
    sealed := sealedRows_step inv.sealed h
    resumes := inv.resumes
    holder := fun c w p hc => hsub (inv.holder c w p hc)
    sourced := inv.sourced.mono hsub
    answers := inv.answers
    receipts := inv.receipts
    sent := ?sent
    one := ?one
    holds := ?holds
    assigned := ?assigned
    settled := ?settled
    behind := ?behind
    ahead := ?ahead
    recorded := ?recorded }
  case sent =>
    intro q hq
    rcases hmem q hq with hq | ⟨hq, hno⟩
    · obtain ⟨hvalid, hb⟩ := inv.sent q hq
      exact ⟨hvalid, le_trans hb (Nat.succ_le_succ hle)⟩
    · obtain ⟨hvalid, hb, -⟩ := (inv.frozen h hq).resolve_left hno
      exact ⟨hvalid, by show q.batchId ≤ c.store.row.lastAcknowledgedBatchId + 1; rw [frozen_last h hq, hb]⟩
  case one =>
    intro q hq q' hq' he
    rcases hmem q hq with hq | ⟨hq, hno⟩ <;> rcases hmem q' hq' with hq' | ⟨hq', hno'⟩
    · exact inv.one q hq q' hq' he
    · obtain ⟨-, -, -, hfresh, -⟩ := (inv.frozen h hq').resolve_left hno'
      exact absurd he.symm (hfresh q hq)
    · obtain ⟨-, -, -, hfresh, -⟩ := (inv.frozen h hq).resolve_left hno
      exact absurd he (hfresh q' hq')
    · exact Option.some.inj (hq'.symm.trans hq)
  case holds =>
    intro q hq
    rcases hmem q hq with hq | ⟨hq, hno⟩
    · exact holds_step inv.queue (inv.holds q hq) h
    · obtain ⟨-, -, hholds, -⟩ := (inv.frozen h hq).resolve_left hno
      exact hholds
  case assigned =>
    intro r' hr' b hb hlt
    rcases step_rows h hr' hb with ⟨r, hr, hrb, -⟩ | ⟨-, q, hq, hqb⟩
    · obtain ⟨q, hq, hid⟩ := inv.assigned r hr b hrb (lt_of_le_of_lt hle hlt)
      exact ⟨q, hsub hq, hid⟩
    · exact ⟨q, List.mem_append_left _ (by simpa using hq), hqb⟩
  case settled =>
    intro q hq r' hr' b hb hlt
    rcases step_rows h hr' hb with ⟨r, hr, hrb, hkeep⟩ | ⟨hbatch, -⟩
    · refine hkeep ?_
      rcases hmem q hq with hq | ⟨hq, hno⟩
      · exact inv.settled q hq r hr b hrb hlt
      · obtain ⟨-, -, -, -, hall⟩ := (inv.frozen h hq).resolve_left hno
        exact hall r hr (by simp [hrb])
    · -- no request is beyond the batch just assigned
      exfalso
      rcases hmem q hq with hq | ⟨hq, hno⟩
      · have := (inv.sent q hq).2
        omega
      · obtain ⟨-, hqb, -⟩ := (inv.frozen h hq).resolve_left hno
        omega
  case behind =>
    show c.store.row.lastAcknowledgedBatchId ≤ _
    rcases hlast with h' | ⟨a, _, hcall, -, -, h'⟩
    · rw [h']
      exact inv.behind
    · obtain ⟨a, ha, rfl⟩ := hreceipt a hcall
      rw [h']
      exact (inv.receipts a ha).1
  case ahead => exact le_trans inv.ahead (Nat.succ_le_succ hle)
  case recorded =>
    intro b hpos hb
    by_cases hold : b ≤ s.client.store.row.lastAcknowledgedBatchId
    · obtain ⟨a, ha, hid, hrec⟩ := inv.recorded b hpos hold
      exact ⟨a, ha, hid, receipted_step inv.queue hrec h⟩
    · rcases hlast with h' | ⟨a, o, hcall, hresult, hnext, h'⟩
      · have hb : b ≤ c.store.row.lastAcknowledgedBatchId := hb
        omega
      · have hb : b ≤ c.store.row.lastAcknowledgedBatchId := hb
        obtain ⟨a, ha, rfl⟩ := hreceipt a hcall
        have hid : a.batchId = s.client.store.row.lastAcknowledgedBatchId + 1 := hnext
        have hlast : c.store.row.lastAcknowledgedBatchId = a.batchId := h'
        refine ⟨a, ha, by omega, ?_⟩
        obtain ⟨call, f, r⟩ := e
        cases hcall
        cases hresult
        have awaits : s.client.Awaits (a.reread P) := by
          show s.client.store.row.lastAcknowledgedBatchId < a.batchId
          omega
        have hrec := (receipted_of_step inv.queue inv.sealed h).1
        rwa [decide_eq_true awaits] at hrec

theorem Inv.step {t : State} (inv : Inv P H s) (h : Step P H s t) : Inv P H t := by
  cases h with
  | client h hreceipt => exact inv.client h hreceipt
  | server h hsent => exact inv.server h hsent
  | receipt hq hall ha => exact inv.receipt hq hall ha

theorem Inv.runs {t : State} (inv : Inv P H s) (h : Runs P H s t) : Inv P H t := by
  induction h with
  | refl => exact inv
  | tail _ h ih => exact ih.step h

theorem inv_create {id : String} {S : Schema} {stream projection : String} {c : Client}
    (h : create P H id S stream projection = .ok c) : Inv P H ⟨c, ⟨{}, none⟩, [], [], []⟩ := by
  have queue := queueInv_create h
  simp only [create, bind_ok, pure_ok] at h
  obtain ⟨_, _, _, _, rfl⟩ := h
  exact {
    queue := queue
    sealed := ⟨by simp [openRow], by simp [openRow]⟩
    resumes := Transactions.resumes_free _
    holder := by simp
    sourced := ⟨Server.consistent_empty, by simp, by simp⟩
    sent := by simp
    one := by simp
    holds := by simp
    assigned := by simp [openRow]
    settled := by simp
    behind := Nat.le_refl _
    ahead := Nat.zero_le _
    answers := by simp
    receipts := by simp
    recorded := by
      intro b hpos hle
      simp only [openRow] at hle
      omega }

/-! ## What the two sides agree on -/

/-- The server takes the request as its last batch or its next one, also on the copy of the row
that a group has advanced. -/
structure Admits (row : Server.Store) (q : MutationRequest) : Prop where
  kept : ∃ completed, row.admitBatch q = .ok completed
  advanced : row.lastProcessedBatchId ≠ q.batchId → ∀ upto, ∃ completed,
    ((row.begun q).advance q.batchId upto q.mutations.length).admitBatch q = .ok completed

theorem admits_next {row : Server.Store} {q : MutationRequest} (h : Server.Next row q) : Admits row q := by
  obtain ⟨hbatch, hdigest⟩ := h
  obtain ⟨hcurrent, hcount⟩ := Server.Next.begun_digest ⟨hbatch, hdigest⟩
  have hlast := Server.begun_last (q := q) row
  refine ⟨⟨false, ?_⟩, fun _ upto => ?_⟩
  · simp only [Server.Store.admitBatch, bind_ok, check_ok, pure_ok]
    cases hd : row.currentDigest with
    | none => simp [hbatch]
    | some d =>
      obtain ⟨rfl, hn⟩ := hdigest d hd
      simp [hbatch, hn]
  · unfold Server.Store.advance
    split
    · exact ⟨true, by simp [Server.Store.admitBatch, check, hcurrent, hcount, bind, Except.bind, pure,
        Except.pure]⟩
    · exact ⟨false, by
        simp [Server.Store.admitBatch, check, hcurrent, hcount, hlast, hbatch, bind, Except.bind,
          pure, Except.pure]⟩

/-- **What the client may still send is in order and in no conflict.** -/
theorem Inv.admits (inv : Inv P H s) {q : MutationRequest} (hq : q ∈ s.sent)
    (hlast : s.client.store.row.lastAcknowledgedBatchId < q.batchId) {owner stream : String}
    {row : Server.Store}
    (hrow : (s.server.committed.tables.claimed owner stream).store = some row) : Admits row q := by
  obtain ⟨hsourced, hprocessed⟩ := inv.sourced.claimed owner stream
  have hshape := hsourced.shape hrow
  have hcounter : s.server.committed.tables.processed = row.lastProcessedBatchId := by
    rw [← hprocessed]
    simp [Server.Tables.processed, hrow]
  obtain ⟨hvalid, hnext⟩ := inv.sent q hq
  have hbehind := inv.behind
  have hahead := inv.ahead
  -- a batch that the row names is the request itself
  have hsame : ∀ d b, (∃ q' ∈ s.sent, q'.digest = d) → d.of.batchId = b → b = q.batchId → d = q.digest := by
    rintro _ b ⟨q', hq', rfl⟩ hid hb
    rw [(Server.MutationRequest.validate_digest (inv.sent q' hq').1).1] at hid
    have hid : q'.batchId = b := hid
    rw [inv.one q hq q' hq' (hid.trans hb)]
  have hcount : q.digest.of.mutations.length = q.mutations.length := by
    rw [(Server.MutationRequest.validate_digest hvalid).1]
  by_cases hdone : row.lastProcessedBatchId = q.batchId
  · refine ⟨⟨true, ?_⟩, fun h => absurd hdone h⟩
    have hd : row.lastDigest = some q.digest := by
      cases hd : row.lastDigest with
      | none =>
        have := hshape.started hd
        omega
      | some d => rw [hsame d _ (hsourced.last row d hrow hd) (hshape.last.2 d hd) hdone]
    have hn : row.lastCount = some q.mutations.length := by
      rw [hshape.last.1, hd, Option.map_some, hcount]
    simp [Server.Store.admitBatch, check, hdone, hd, hn, bind, Except.bind, pure, Except.pure]
  · have hbatch : q.batchId = row.lastProcessedBatchId + 1 := by omega
    refine admits_next ⟨hbatch, fun d hd => ?_⟩
    have hdig := hsame d _ (hsourced.current row d hrow hd) (hshape.current.2 d hd) (by omega)
    refine ⟨hdig, ?_⟩
    rw [hshape.current.1, hd, hdig, Option.map_some, hcount]

/-- The results of an acknowledged batch stay while one of its calls is not settled. -/
theorem Inv.kept (inv : Inv P H s) {r : MutationRow} (hr : r ∈ s.client.store.queue) {b : Nat}
    (hb : r.batchId = some b)
    (hopen : r.reconciled = false) {o : Nat} {x : MutationResult}
    (hx : ((b, o), x) ∈ s.server.committed.tables.journal) :
    ((b, o), x) ∈ s.server.committed.tables.results := by
  cases hst : s.server.committed.tables.store with
  | none =>
    have hnothing := inv.sourced.consistent
    unfold Server.Consistent at hnothing
    rw [hst] at hnothing
    rw [hnothing] at hx
    cases hx
  | some row =>
    have hshape := inv.sourced.shape hst
    -- every request that was sent is of this batch or an earlier one
    have hnone : ∀ d c, (∃ q ∈ s.sent, q.digest = d) → d.of.batchId = c → c ≤ b := by
      rintro _ c ⟨q, hq, rfl⟩ hid
      rw [(Server.MutationRequest.validate_digest (inv.sent q hq).1).1] at hid
      have hid : q.batchId = c := hid
      by_contra hlt
      have hsettled := inv.settled q hq r hr b hb (by omega)
      rw [hopen] at hsettled
      cases hsettled
    rw [hshape.results, List.mem_filter]
    refine ⟨hx, decide_eq_true ?_⟩
    show row.keptFrom ≤ b
    unfold Server.Store.keptFrom
    cases hcur : row.currentDigest with
    | some d => exact hnone d _ (inv.sourced.current row d hst hcur) (hshape.current.2 d hcur)
    | none =>
      cases hlast : row.lastDigest with
      | some d => exact hnone d _ (inv.sourced.last row d hst hlast) (hshape.last.2 d hlast)
      | none =>
        have := hshape.started hlast
        simp [this]

/-- A run of the client without receipts, as steps of the system. -/
theorem runs_client {c : Client} {es : List Event} (h : Client.Runs P H s.client es c)
    (hplain : ∀ e ∈ es, ∀ a, e.call ≠ .acknowledge a) :
    ∃ sent, s.sent ⊆ sent ∧ Runs P H s { s with client := c, sent := sent } := by
  induction h with
  | nil => exact ⟨s.sent, List.Subset.refl _, .refl⟩
  | @snoc es c e c' _ hstep ih =>
    obtain ⟨sent, hsub, hruns⟩ := ih fun e he => hplain e (List.mem_append_left _ he)
    have hlast := hplain e (List.mem_append_right _ (List.mem_singleton.2 rfl))
    exact ⟨_, fun q hq => List.mem_append_right _ (hsub hq),
      hruns.tail (.client { s with client := c, sent := sent } hstep fun a ha => absurd ha (hlast a))⟩

/-- A call that runs alone, as steps of the system. -/
theorem runs_call {d w : Server.Database} {c : Server.Call}
    {p : Prog Server.Op Server.Ans (List MutationResult)}
    {results : List MutationResult} {t : Server.Database} (h : p.Runs Server.Host.Answers w (.ok results) t)
    (hsent : c.request ∈ s.sent) : Runs P H { s with server := ⟨d, some (c, w, p)⟩ }
      { s with server := ⟨t, none⟩, answers := (c, results) :: s.answers } := by
  have holds : ∀ (w' : Server.Database) (p' : Prog Server.Op Server.Ans (List MutationResult))
    (c' : Server.Call)
      (x : Server.Database) (y : Prog Server.Op Server.Ans (List MutationResult)),
      some (c, w', p') = some (c', x, y) → c'.request ∈ s.sent := by
    rintro w' p' c' x y he
    cases he
    exact hsent
  generalize hr : (Except.ok results : Except String (List MutationResult)) = r at h
  induction h with
  | done =>
    subst hr
    rename_i w
    exact .single (.server { s with server := ⟨d, some (c, w, .done (.ok results))⟩ } (.commit d w c results)
      fun _ _ _ h => by cases h)
  | @call op next w w' _ x _ hx _ ih =>
    exact .head (.server { s with server := ⟨d, some (c, w, .call op next)⟩ } (.call hx)
      (holds w' (next x))) (ih hr)

/-- One whole exchange: a request, the call that executes it, the receipt. -/
theorem runs_exchange {client c c' : Client} {d d' : Server.Database} (sent : List MutationRequest)
    (answers : List Answer) (receipts : List BatchAcknowledgement) {f f' : Faults} {o o' : Output}
    {q : MutationRequest} {x : Server.Call} {results : List MutationResult} {a : BatchAcknowledgement}
    (hfreeze : Client.Step P H client ⟨.freeze, f, .ok o⟩ c) (ho : o.frozen = some q)
    (hx : x.request = q ∧ x.start = 0)
    (hcall : (x.body P H).Runs Server.Host.Answers d (.ok results) d')
    (hlength : results.length = q.mutations.length)
    (ha : Server.encodeBatchAcknowledgement P q results = .ok a)
    (hack : Client.Step P H c ⟨.acknowledge (a.reread P), f', .ok o'⟩ c') :
    ∃ s', Runs P H ⟨client, ⟨d, none⟩, sent, answers, receipts⟩ s' ∧ s'.client = c' ∧ s'.server = ⟨d', none⟩ := by
  obtain ⟨hrequest, hstart⟩ := hx
  have frozen : Step P H ⟨client, ⟨d, none⟩, sent, answers, receipts⟩
    ⟨c, ⟨d, none⟩, q :: sent, answers, receipts⟩ := by
    have h := Step.client (s := ⟨client, ⟨d, none⟩, sent, answers, receipts⟩) hfreeze (by simp)
    simpa [Except.toOption, ho] using h
  have claimed : Step P H ⟨c, ⟨d, none⟩, q :: sent, answers, receipts⟩
      ⟨c, ⟨d, some (x, d, x.body P H)⟩, q :: sent, answers, receipts⟩ :=
    .server ⟨c, ⟨d, none⟩, q :: sent, answers, receipts⟩ (.claim d x) fun _ _ _ h => by
      cases h
      simp [hrequest]
  have executed := runs_call (P := P) (H := H) (s := ⟨c, ⟨d, none⟩, q :: sent, answers, receipts⟩)
    (d := d) (c := x) hcall
    (by simp [hrequest])
  have assembled : Assembled P ((x, results) :: answers) q results :=
    ⟨hlength, fun i r hr => ⟨(x, results), List.mem_cons_self, i, r, hrequest, by simp [hstart], hr, .inl rfl⟩⟩
  have received : Step P H ⟨c, ⟨d', none⟩, q :: sent, (x, results) :: answers, receipts⟩
      ⟨c, ⟨d', none⟩, q :: sent, (x, results) :: answers, a :: receipts⟩ :=
    .receipt ⟨c, ⟨d', none⟩, q :: sent, (x, results) :: answers, receipts⟩ List.mem_cons_self assembled ha
  have acknowledged := Step.client (H := H) ⟨c, ⟨d', none⟩, q :: sent, (x, results) :: answers,
    a :: receipts⟩ hack fun a' h => by
    cases h
    exact ⟨a, List.mem_cons_self, rfl⟩
  exact ⟨_, (((Relation.ReflTransGen.single frozen).tail claimed).trans executed).trans
    ((Relation.ReflTransGen.single received).tail acknowledged), rfl, rfl⟩

end Uplink

end Axton
