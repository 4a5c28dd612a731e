import Mathlib
import Axton.Client.Window

/-!
# Terminal outcomes

A call ends by the server's refusal, by a local drop, by the lifecycle cascade of either, or by
settlement. The cascade of `reject_owned05` follows every lifecycle row, also to calls that ended
before: such a call is refused again and completed again. `RefusesOpen` says that a step does not
reach one; in a run of such steps every call has one outcome and completes once.
-/

namespace Axton

variable {s t u : Store} {P : Platform} {H : Hashes}

/-- Every call that ended is still there with the outcome it ended with. -/
def OutcomesKept (P : Platform) (s t : Store) : Prop :=
  ∀ r ∈ s.queue, r.reconciled = true →
    ∃ r' ∈ t.queue, r'.id = r.id ∧ r'.reconciled = true ∧ r'.outcome P = r.outcome P

namespace OutcomesKept

theorem refl (s : Store) : OutcomesKept P s s := fun r hr hrec => ⟨r, hr, rfl, hrec, rfl⟩

theorem trans (h : OutcomesKept P s t) (h' : OutcomesKept P t u) : OutcomesKept P s u := by
  intro r hr hrec
  obtain ⟨r₁, hr₁, hid₁, hrec₁, ho₁⟩ := h r hr hrec
  obtain ⟨r₂, hr₂, hid₂, hrec₂, ho₂⟩ := h' r₁ hr₁ hrec₁
  exact ⟨r₂, hr₂, hid₂.trans hid₁, hrec₂, ho₂.trans ho₁⟩

instance : IsPreorder Store (OutcomesKept P) where
  refl := refl
  trans _ _ _ := trans

/-- A row update that leaves ended calls alone. -/
theorem ofMap {f : MutationRow → MutationRow} (hq : t.queue = s.queue.map f)
    (hf : ∀ r ∈ s.queue, r.reconciled = true → (f r).id = r.id ∧ (f r).reconciled = true ∧
      (f r).outcome P = r.outcome P) : OutcomesKept P s t := by
  intro r hr hrec
  exact ⟨f r, hq ▸ List.mem_map_of_mem hr, hf r hr hrec⟩

end OutcomesKept

theorem outcome_core (r : MutationRow) : r.core.outcome P = r.outcome P := rfl

theorem SettleRow.outcome {r r' : MutationRow} (h : SettleRow r r') : r'.outcome P = r.outcome P := by
  rcases h with h | ⟨-, -, h⟩
  · rw [← outcome_core r', h, outcome_core]
  · rw [← outcome_core r', h]
    rfl

theorem Quiet.outcomesKept (h : Quiet s t) : OutcomesKept P s t := by
  intro r hr hrec
  obtain ⟨r', hr', k⟩ := forall₂_mem_left h.queue hr
  exact ⟨r', hr', k.id_eq, k.keeps.settled hrec, k.outcome⟩

theorem Enqueues.outcomesKept (h : Enqueues s t) : OutcomesKept P s t := by
  obtain ⟨⟨name, version, u, hrec, ht⟩, -⟩ := h
  intro r hr hrecd
  have hmem : r ∈ (s.pushed name version).queue := mem_pushed.2 (.inl hr)
  obtain ⟨r', hr', k⟩ := forall₂_mem_left (forall₂_of_map_eq hrec.queue) hmem
  have settle : SettleRow r r' := .inl k
  exact ⟨r', by rw [ht]; exact hr', settle.id_eq, settle.keeps.settled hrecd, settle.outcome⟩

theorem Dismisses.outcomesKept {id : Nat} (h : Dismisses id s t) : OutcomesKept P s t := by
  refine OutcomesKept.ofMap (by rw [h.eq]; rfl) fun r _ hrec => ?_
  split
  · exact ⟨rfl, hrec, rfl⟩
  · exact ⟨rfl, hrec, rfl⟩

theorem Freezes.outcomesKept {q : MutationRequest} (h : Freezes P q s t) : OutcomesKept P s t := by
  refine OutcomesKept.ofMap h.queue fun r _ hrec => ?_
  have hnot : Engine.ready s r = false := by
    by_contra hready
    rw [(Engine.ready_ok (by simpa using hready)).2.1] at hrec
    cases hrec
  simp [frozenRow, hnot, hrec]

/-! ## Refusals that reach no ended call -/

/-- No ended call hangs on the refused ones. -/
def OpenClosure (rejected : Nat → Prop) (s : Store) : Prop :=
  ∀ a, rejected a → ∀ r ∈ s.queue, r.reconciled = true → ¬ Relation.ReflTransGen (Engine.LifecycleEdge s.dependencies) a r.id

/-- The refusals a call may start, in the state it meets: those of an open unsent call, and those of a
receipt that is not a replay. -/
def RefusesOpen (s : Store) : Call → Prop
  | .drop id => (∃ r ∈ s.queue, r.id = id ∧ r.batchId = none ∧ r.reconciled = false) → OpenClosure (· = id) s
  | .discard id => (∃ r ∈ s.queue, r.id = id ∧ r.batchId = none ∧ r.reconciled = false) → OpenClosure (· = id) s
  | .acknowledge a => s.row.lastAcknowledgedBatchId < a.batchId →
      OpenClosure (fun id => ∃ code message, (⟨id, .rejected code message⟩ : MutationResult) ∈ a.results) s
  | _ => True

/-- The step reaches no ended call; a step that fails refuses none. -/
def Client.RefusesOpen (c : Client) (e : Event) : Prop := (∃ o, e.result = .ok o) → Axton.RefusesOpen c.store e.call

/-- What a refusal of `rejected` leaves alone. -/
theorem OpenClosure.refused_open {rejected : Table Nat Rejection} {p : Nat → Prop} (h : OpenClosure p s)
    (hp : ∀ id, (rejected.get id).isSome → p id) {r : MutationRow} (hr : r ∈ s.queue)
    (href : ((Engine.refused s rejected).get r.id).isSome) : r.reconciled = false := by
  obtain ⟨a, ha, path⟩ := Engine.get_refused_isSome.1 href
  by_contra hrec
  exact h a (hp a ha) r hr (by simpa using hrec) path

/-! ## Completions -/

/-- The completions of a step: distinct calls, open before and ended after. -/
def Completes (s t : Store) (cs : List CallCompletion) : Prop :=
  ∃ ids : List Nat, cs.map (·.callId) = ids.map (callId s) ∧ ids.Nodup ∧
    ∀ id ∈ ids, (∃ r ∈ s.queue, r.id = id ∧ r.reconciled = false) ∧ ∃ r ∈ t.queue, r.id = id ∧ r.reconciled = true

theorem Completes.none (s t : Store) : Completes s t [] := ⟨[], by simp, by simp, by simp⟩

/-- Quiet work before and after does not change what a step completes. -/
theorem Completes.within {s₁ t₁ : Store} {cs : List CallCompletion} (hs : Quiet s s₁) (h : Completes s₁ t₁ cs)
    (ht : Quiet t₁ t) : Completes s t cs := by
  obtain ⟨ids, hcs, hn, hids⟩ := h
  refine ⟨ids, ?_, hn, fun id hid => ?_⟩
  · rw [hcs]
    refine List.map_congr_left fun id _ => ?_
    simp [callId, hs.id]
  · obtain ⟨⟨r₁, hr₁, e₁, hopen⟩, r₂, hr₂, e₂, hrec⟩ := hids id hid
    obtain ⟨r, hr, k⟩ := forall₂_mem_right hs.queue hr₁
    obtain ⟨r', hr', k'⟩ := forall₂_mem_left ht.queue hr₂
    exact ⟨⟨r, hr, k.id_eq.symm.trans e₁, Settles.reconciled_mono k hopen⟩,
      r', hr', k'.id_eq.trans e₂, k'.keeps.settled hrec⟩

theorem Refuses.completes {rejected : Table Nat Rejection} (h : Refuses rejected s t)
    (hn : (rejected.map (·.1)).Nodup)
    (hopen : ∀ r ∈ s.queue, ((Engine.refused s rejected).get r.id).isSome → r.reconciled = false) :
    Completes s t ((Engine.refused s rejected).map fun e => ⟨callId s e.1, .failed e.2.1⟩) := by
  refine ⟨(Engine.refused s rejected).map (·.1), by simp [Function.comp_def], Engine.nodup_refused hn, fun id hid => ?_⟩
  have hget := Table.get_isSome_iff.2 hid
  obtain ⟨r, hr⟩ := Option.isSome_iff_exists.1 (h.known id hget)
  obtain ⟨hmem, hrid⟩ := mem_of_mutation hr
  obtain ⟨r', hr', k⟩ := forall₂_mem_left h.rest.rows (List.mem_map_of_mem (f := Engine.rejectRow _) hmem)
  have settle : SettleRow _ r' := .inl k
  refine ⟨⟨r, hmem, hrid, hopen r hmem (hrid ▸ hget)⟩, r', hr', ?_, settle.keeps.settled ?_⟩
  · rw [settle.id_eq, rejectRow_id, hrid]
  · rw [rejectRow_reconciled, hrid, hget, Bool.or_true]

/-! ### Settlement -/

namespace Engine

variable {E : Engine}

/-- One pending settlement completes its call or does nothing. -/
theorem settleCall_completes {id : Nat} {x : Settlement} (h : (E.settleCall id).run s = .ok (x, t)) :
    x.completions = [] ∨ ((∃ o, x.completions = [⟨callId s id, o⟩]) ∧
      ∀ r ∈ t.queue, r.id = id → r.reconciled = true) := by
  simp only [settleCall, Within.run_bind_ok, Within.run_read] at h
  obtain ⟨_, _, ⟨rfl, rfl⟩, h⟩ := h
  split at h
  · simp only [Within.run_bind_ok, Within.run_lift] at h
    obtain ⟨ready, _, ⟨_, rfl⟩, h⟩ := h
    split at h
    · simp only [Within.run_pure, Except.ok.injEq, Prod.mk.injEq] at h
      obtain ⟨rfl, rfl⟩ := h
      exact .inl rfl
    · simp only [Within.run_bind_ok, Within.run_pure, Except.ok.injEq, Prod.mk.injEq] at h
      obtain ⟨_, s₁, _, _, s₂, _, _, s₃, hc, rfl, rfl⟩ := h
      refine .inr ⟨⟨_, rfl⟩, fun r hr hid => ?_⟩
      simp only [complete] at hc
      split at hc
      · cases hc
        obtain ⟨q, -, rfl⟩ := List.mem_map.1 hr
        by_cases hq : q.id = id
        · simp [hq]
        · simp [hq] at hid
      · cases hc
  · simp only [Within.run_pure, Except.ok.injEq, Prod.mk.injEq] at h
    obtain ⟨rfl, rfl⟩ := h
    exact .inl rfl

/-- What the settlement loop has completed so far, out of the pending calls `l`. -/
def SettledSoFar (s₀ : Store) (l rest : List Nat) (acc : Settlement) (t : Store) : Prop :=
  Settles s₀ t ∧ ∃ ids : List Nat, acc.completions.map (·.callId) = ids.map (callId s₀) ∧ (ids ++ rest).Sublist l ∧
    ∀ id ∈ ids, ∀ r ∈ t.queue, r.id = id → r.reconciled = true

theorem settledSoFar_step {s₀ : Store} {l rest : List Nat} {id : Nat} {acc : Settlement} {x : Settlement}
    (hinv : SettledSoFar s₀ l (id :: rest) acc s) (h : (E.settleCall id).run s = .ok (x, t)) :
    SettledSoFar s₀ l rest { held := acc.held ++ x.held, completions := acc.completions ++ x.completions } t := by
  obtain ⟨hset, ids, hcs, hsub, hids⟩ := hinv
  have step := (E.settleCall id).within h
  have kept : ∀ i ∈ ids, ∀ r ∈ t.queue, r.id = i → r.reconciled = true := by
    intro i hi r hr hrid
    obtain ⟨q, hq, k⟩ := forall₂_mem_right step.queue hr
    exact k.keeps.settled (hids i hi q hq (k.id_eq.symm.trans hrid))
  refine ⟨hset.trans step, ?_⟩
  rcases settleCall_completes h with hnone | ⟨⟨o, hone⟩, hrec⟩
  · have hless : (ids ++ rest).Sublist (ids ++ id :: rest) := (List.sublist_cons_self id rest).append_left ids
    exact ⟨ids, by simp [hnone, hcs], hless.trans hsub, kept⟩
  · have hid : callId s id = callId s₀ id := by unfold callId; rw [hset.row]
    refine ⟨ids ++ [id], by simp [hone, hcs, hid], by simpa using hsub, fun i hi => ?_⟩
    rcases List.mem_append.1 hi with hi | hi
    · exact kept i hi
    · rw [List.mem_singleton] at hi
      subst hi
      exact hrec

theorem reconcileReady_completes (inv : QueueInv s) {x : Settlement} (h : E.reconcileReady.run s = .ok (x, t)) :
    Completes s t x.completions := by
  simp only [reconcileReady, Within.run_bind_ok, Within.run_ask] at h
  obtain ⟨ids, _, ⟨hpend, rfl⟩, h⟩ := h
  have start : SettledSoFar s ids ids {} s := ⟨.refl s, [], rfl, by simp, by simp⟩
  have final := Within.foldlM_inv (SettledSoFar s ids) _ (fun i rest acc u acc' u' hinv hrun => by
    simp only [Within.run_bind_ok, Within.run_pure, Except.ok.injEq, Prod.mk.injEq] at hrun
    obtain ⟨x, _, hrun, rfl, rfl⟩ := hrun
    exact settledSoFar_step hinv hrun) ids start h
  obtain ⟨hset, done, hcs, hsub, hrec⟩ := final
  rw [List.append_nil] at hsub
  simp only [pendingSettlement, bind_ok, pure_ok] at hpend
  obtain ⟨_, _, rfl⟩ := hpend
  have hnodup : (s.queue.map (·.id)).Nodup := inv.ids.imp fun h => ne_of_lt h
  refine ⟨done, hcs, (hsub.trans (List.filter_sublist.map _)).nodup hnodup, fun id hid => ?_⟩
  obtain ⟨r, hr, rfl⟩ := List.mem_map.1 (hsub.subset hid)
  obtain ⟨hmem, hp⟩ := List.mem_filter.1 hr
  simp only [Bool.and_eq_true, Bool.not_eq_true'] at hp
  obtain ⟨r', hr', k⟩ := forall₂_mem_left hset.queue hmem
  exact ⟨⟨r, hmem, rfl, hp.2⟩, r', hr', k.id_eq, hrec r.id hid r' hr' k.id_eq⟩

end Engine

/-! ## One step -/

theorem refusesOpen_cancel {id : Nat}
    (hopen : (∃ r ∈ s.queue, r.id = id ∧ r.batchId = none ∧ r.reconciled = false) → OpenClosure (· = id) s) (h : Cancels id s t) :
    ∀ r ∈ s.queue, ((Engine.refused s [(id, ("dropped", none))]).get r.id).isSome → r.reconciled = false := by
  obtain ⟨⟨q, hq, hunsent, hrec⟩, -⟩ := h
  obtain ⟨hmem, hid⟩ := mem_of_mutation hq
  intro r hr href
  refine (hopen ⟨q, hmem, hid, hunsent, hrec⟩).refused_open (fun a ha => ?_) hr href
  by_contra hne
  simp [Table.get, Ne.symm hne] at ha

/-- A refusal that reaches no ended call changes no outcome. -/
theorem Refuses.outcomesKept {rejected : Table Nat Rejection} (h : Refuses rejected s t)
    (hopen : ∀ r ∈ s.queue, ((Engine.refused s rejected).get r.id).isSome → r.reconciled = false) :
    OutcomesKept P s t := by
  have first : OutcomesKept P s (Engine.rejectRows (Engine.refused s rejected) s) := by
    refine OutcomesKept.ofMap rfl fun r hr hrec => ?_
    have hnone : (Engine.refused s rejected).get r.id = none := by
      by_contra hne
      rw [hopen r hr (Option.ne_none_iff_isSome.1 hne)] at hrec
      cases hrec
    simp [Engine.rejectRow, hnone, hrec]
  exact first.trans (Quiet.ofLocal h.rest).outcomesKept

theorem Acknowledges.outcomesKept {a : BatchAcknowledgement} (inv : QueueInv s) (h : Acknowledges P a s t)
    (hopen : ∀ r ∈ s.queue, ((Engine.refused s (Engine.rejections a)).get r.id).isSome → r.reconciled = false) :
    OutcomesKept P s t := by
  obtain ⟨u, href, ht⟩ := h.refuses
  have first : OutcomesKept P s (Engine.acceptRows a s) := by
    refine OutcomesKept.ofMap rfl fun r hr hrec => ?_
    have hnone : a.result r.id = none := by
      by_contra hne
      have hb := h.member_of_result inv hr (Option.ne_none_iff_isSome.1 hne)
      rw [h.open inv hr hb] at hrec
      cases hrec
    simp [acceptRow_of_result_none hnone, hrec]
  have second : OutcomesKept P (Engine.acceptRows a s) u := by
    refine href.outcomesKept fun r hr hget => ?_
    obtain ⟨q, hq, rfl⟩ := List.mem_map.1 hr
    rw [acceptRow_id] at hget
    rw [acceptRow_reconciled]
    exact hopen q hq hget
  have last : OutcomesKept P u t := fun r hr hrec => ⟨r, by rw [ht]; exact hr, rfl, hrec, rfl⟩
  exact (first.trans second).trans last

theorem rejections_sublist (a : BatchAcknowledgement) :
    ((Engine.rejections a).map (·.1)).Sublist (a.results.map (·.mutationId)) := by
  unfold Engine.rejections
  generalize a.results = l
  induction l with
  | nil => simp
  | cons x l ih =>
    cases hx : x.outcome with
    | accepted c v ts => simpa [List.filterMap_cons, hx] using ih.cons x.mutationId
    | rejected code message => simpa [List.filterMap_cons, hx] using ih.cons_cons x.mutationId

theorem Acknowledges.completes {a : BatchAcknowledgement} (h : Acknowledges P a s t)
    (hopen : ∀ r ∈ s.queue, ((Engine.refused s (Engine.rejections a)).get r.id).isSome → r.reconciled = false) :
    Completes s t ((Engine.refused s (Engine.rejections a)).map fun e => ⟨callId s e.1, .failed e.2.1⟩) := by
  obtain ⟨u, href, ht⟩ := h.refuses
  have done := href.completes ((rejections_sublist a).nodup h.members.1) fun r hr hget => by
    obtain ⟨q, hq, rfl⟩ := List.mem_map.1 hr
    rw [acceptRow_id] at hget
    rw [acceptRow_reconciled]
    exact hopen q hq hget
  obtain ⟨ids, hcs, hids, hall⟩ := done
  refine ⟨ids, hcs, hids, fun id hid => ?_⟩
  obtain ⟨⟨r, hr, e, hrec⟩, r', hr', h'⟩ := hall id hid
  obtain ⟨q, hq, rfl⟩ := List.mem_map.1 hr
  rw [acceptRow_id] at e
  rw [acceptRow_reconciled] at hrec
  exact ⟨⟨q, hq, e, hrec⟩, r', by rw [ht]; exact hr', h'⟩

theorem refusesOpen_acknowledge {a : BatchAcknowledgement} (hopen : RefusesOpen s (.acknowledge a))
    (h : Acknowledges P a s t) :
    ∀ r ∈ s.queue, ((Engine.refused s (Engine.rejections a)).get r.id).isSome → r.reconciled = false := by
  intro r hr href
  refine (hopen (by rw [h.next]; exact Nat.lt_succ_self _)).refused_open (fun id hid => ?_) hr href
  obtain ⟨⟨code, message⟩, hv⟩ := Option.isSome_iff_exists.1 hid
  exact ⟨code, message, (mem_of_result ((get_rejections h.members.1).1 hv)).1⟩

/-- What a step that refuses only open calls does to outcomes. -/
def EndsOnce (P : Platform) (s t : Store) (cs : List CallCompletion) : Prop :=
  OutcomesKept P s t ∧ Completes s t cs

theorem Quiet.endsOnce (h : Quiet s t) : EndsOnce P s t [] := ⟨h.outcomesKept, .none s t⟩

theorem cancelUnsent_endsOnce {E : Engine} {id : Nat} {acknowledged : Bool} {report : ApplyReport}
    (hopen : (∃ r ∈ s.queue, r.id = id ∧ r.batchId = none ∧ r.reconciled = false) → OpenClosure (· = id) s)
    (h : E.cancelUnsent id acknowledged s = .ok (report, t)) : EndsOnce P s t report.completions := by
  rcases Engine.cancelUnsent_cancels h with ⟨rfl, rfl⟩ | ⟨u, hc, hd, hcs⟩
  · exact (Quiet.refl t).endsOnce
  · have hrefused := refusesOpen_cancel hopen hc
    have kept : OutcomesKept P s u := hc.refuses.outcomesKept hrefused
    have completed := hc.refuses.completes (by simp) hrefused
    rw [hcs]
    rcases hd with ⟨rfl, -⟩ | hd
    · exact ⟨kept, completed⟩
    · refine ⟨kept.trans hd.outcomesKept, ?_⟩
      obtain ⟨ids, hids, hn, hall⟩ := completed
      refine ⟨ids, hids, hn, fun i hi => ⟨(hall i hi).1, ?_⟩⟩
      obtain ⟨r, hr, e, hrec⟩ := (hall i hi).2
      obtain ⟨r', hr', e', hrec', -⟩ := (hd.outcomesKept (P := P)) r hr hrec
      exact ⟨r', hr', e'.trans e, hrec'⟩

theorem installAuthority_endsOnce {E : Engine} (inv : QueueInv s) {context : RequestContext}
    {changes : List AuthorityChange} {coverage : Option (Nat × Nat)} {report : ApplyReport}
    (h : E.installAuthority context changes coverage s = .ok (report, t)) : EndsOnce P s t report.completions := by
  refine ⟨(Engine.installAuthority_quiet h).outcomesKept, ?_⟩
  obtain ⟨s₂, s₃, x, q₁, hx, q₂, e⟩ := Engine.installAuthority_reconciles h
  rw [e]
  exact (Engine.reconcileReady_completes (inv.quiet q₁) hx).within q₁ q₂

theorem settleReady_endsOnce {E : Engine} (inv : QueueInv s) {report : ApplyReport}
    (h : E.settleReady.run s = .ok (report, t)) : EndsOnce P s t report.completions := by
  refine ⟨(Quiet.ofSettles (E.settleReady.within h)).outcomesKept, ?_⟩
  simp only [Engine.settleReady, Within.run_bind_ok, Within.run_widen, Within.run_pure, Except.ok.injEq,
    Prod.mk.injEq] at h
  obtain ⟨x, s₁, hx, reports, s₂, hr, rfl, rfl⟩ := h
  exact (Engine.reconcileReady_completes inv hx).within (.refl s) (.ofLocal ((E.rebuildHeld _).within hr))

theorem installCache_completions {E : Engine} {records : List ReadRecord} {store : Bool} {report : ApplyReport}
    (h : (E.installCache records store).run s = .ok (report, t)) : report.completions = [] := by
  simp only [Engine.installCache, Within.run_bind_ok, Within.run_pure, Except.ok.injEq, Prod.mk.injEq] at h
  obtain ⟨x, s₁, hx, reports, s₂, hr, rfl, rfl⟩ := h
  rfl

theorem Call.endsOnce {E : Engine} {x : Call} {o : Output} (inv : QueueInv s) (hopen : RefusesOpen s x)
    (h : x.body E s = .ok (o, t)) : EndsOnce E.platform s t o.completions := by
  cases x <;> simp only [Call.body, labelled, map_ok, Prod.exists, Prod.mk.injEq] at h
  case submit x =>
    obtain ⟨id, u, h, rfl, rfl⟩ := h
    exact ⟨(Engine.enqueue_enqueues h).1.outcomesKept, .none _ _⟩
  case companion => obtain ⟨_, u, h, rfl, rfl⟩ := h; exact (Quiet.ofLocal (Within.within _ h)).endsOnce
  case direct => obtain ⟨_, u, h, rfl, rfl⟩ := h; exact (Quiet.ofLocal (Within.within _ h)).endsOnce
  case readiness => obtain ⟨⟨⟩, u, h, rfl, rfl⟩ := h; exact (Engine.setReadiness_quiet h).endsOnce
  case freeze =>
    obtain ⟨r, u, h, rfl, rfl⟩ := h
    rcases Engine.freeze_cases h with ⟨rfl, -⟩ | ⟨rfl, -⟩ | ⟨q, -, hf⟩
    · exact (Quiet.refl u).endsOnce
    · exact (Quiet.refl u).endsOnce
    · exact ⟨hf.outcomesKept, .none _ _⟩
  case acknowledge a =>
    obtain ⟨r, u, h, rfl, rfl⟩ := h
    rcases Engine.acknowledge_acknowledges h with ⟨rfl, rfl⟩ | ⟨h, hcs⟩
    · exact (Quiet.refl u).endsOnce
    · have hrefused := refusesOpen_acknowledge hopen h
      refine ⟨h.outcomesKept inv hrefused, ?_⟩
      show Completes s u r.completions
      rw [hcs]
      exact h.completes hrefused
  case settle => obtain ⟨r, u, h, rfl, rfl⟩ := h; exact settleReady_endsOnce inv h
  case drop id => obtain ⟨r, u, h, rfl, rfl⟩ := h; exact cancelUnsent_endsOnce hopen h
  case discard id => obtain ⟨r, u, h, rfl, rfl⟩ := h; exact cancelUnsent_endsOnce hopen h
  case dismiss id =>
    obtain ⟨⟨⟩, u, h, rfl, rfl⟩ := h
    rcases Engine.dismiss_dismisses h with ⟨rfl, -⟩ | h
    · exact (Quiet.refl u).endsOnce
    · exact ⟨h.outcomesKept, .none _ _⟩
  case authority => obtain ⟨r, u, h, rfl, rfl⟩ := h; exact installAuthority_endsOnce inv h
  case cache =>
    obtain ⟨r, u, h, rfl, rfl⟩ := h
    refine ⟨(Quiet.ofLocal (Within.within _ h)).outcomesKept, ?_⟩
    show Completes s u r.completions
    rw [installCache_completions h]
    exact .none s u
  case cleanup now =>
    obtain ⟨_, u, h, rfl, rfl⟩ := h
    cases h
    exact (Engine.expireProgress_quiet now s).endsOnce
  case handshake => obtain ⟨⟨⟩, u, h, rfl, rfl⟩ := h; exact (Engine.initializeStream_quiet h).endsOnce
  case enableSchema => obtain ⟨⟨⟩, u, h, rfl, rfl⟩ := h; exact (Engine.enableSchema_quiet h).endsOnce
  case deliver => cases h; exact (Quiet.refl s).endsOnce
  case reopen => cases h; exact (Quiet.refl s).endsOnce

/-- The completions a call returned. -/
def Event.completions (e : Event) : List CallCompletion :=
  match e.result with
  | .ok o => o.completions
  | .error _ => []

theorem EndsOnce.published {c : Client} {cs : List CallCompletion} (h : EndsOnce P s t cs) :
    EndsOnce P s (c.published t).store cs :=
  ⟨h.1.trans (published_quiet c t).outcomesKept, h.2.within (.refl s) (published_quiet c t)⟩

theorem endsOnce_step {c c' : Client} {e : Event} (inv : QueueInv c.store) (hopen : c.RefusesOpen e)
    (h : Client.Step P H c e c') : EndsOnce P c.store c'.store e.completions := by
  have none : (∀ o, e.result = .ok o → o.completions = []) → e.completions = [] := by
    intro h
    unfold Event.completions
    split
    · rename_i o ho; exact h o ho
    · rfl
  cases Client.step_moved P H h with
  | failed hr => rw [none (by simp [hr])]; exact (Quiet.refl _).endsOnce
  | waited _ _ hr => rw [none (by simp [hr, Output.completions])]; exact (Quiet.refl _).endsOnce
  | @plain o t _ hb _ hr =>
    have : e.completions = o.completions := by simp [Event.completions, hr]
    rw [this]
    exact (Call.endsOnce inv (hopen ⟨o, hr⟩) hb).published
  | cleaned _ _ _ hr =>
    rw [none (by simp [hr, Output.completions])]
    exact (Engine.expireProgress_quiet _ _).endsOnce.published
  | @applied now q x r t _ _ hb _ hr =>
    have kept : OutcomesKept P c.store t := (Engine.applyUnit_quiet hb).outcomesKept
    rcases hr with hr | ⟨-, m, hr⟩
    · have : e.completions = (Output.delivered r.1).completions := by simp [Event.completions, hr]
      rw [this]
      refine EndsOnce.published ⟨kept, ?_⟩
      rcases Engine.applyUnit_reconciles hb with ⟨hnone, -⟩ | ⟨s₁, s₂, y, report, q₁, hy, q₂, hsome, hcs⟩
      · rw [hnone]
        exact .none _ _
      · rw [hsome]
        show Completes c.store t report.completions
        rw [hcs]
        exact (Engine.reconcileReady_completes (inv.quiet q₁) hy).within q₁ q₂
    · rw [none (by simp [hr])]
      exact EndsOnce.published ⟨kept, .none _ _⟩
  | reopened _ hb hr =>
    rw [none (by simp [hr, Output.completions])]
    exact (Engine.reopen_quiet hb).endsOnce

/-! ## Every run -/

/-- The runs in which no refusal reaches a call that ended before. -/
def OpenRuns (P : Platform) (H : Hashes) (c₀ : Client) (es : List Event) (c : Client) : Prop :=
  Trace (fun c e c' => Client.Step P H c e c' ∧ c.RefusesOpen e) c₀ es c

theorem callId_inj {a b : Nat} (h : callId s a = callId s b) : a = b := by
  unfold callId at h
  exact Nat.repr_inj.1 ((String.append_right_inj _).1 h)

/-- The calls completed so far are distinct, and have ended. -/
def CompletedOnce (es : List Event) (c : Client) : Prop :=
  (es.flatMap fun e => e.completions.map (·.callId)).Nodup ∧
    ∀ name ∈ es.flatMap fun e => e.completions.map (·.callId),
      ∃ r ∈ c.store.queue, r.reconciled = true ∧ callId c.store r.id = name

theorem completedOnce_step {es : List Event} {c c' : Client} {e : Event} (inv : QueueInv c.store)
    (hopen : c.RefusesOpen e) (h : Client.Step P H c e c') (hes : CompletedOnce es c) :
    CompletedOnce (es ++ [e]) c' := by
  obtain ⟨hkept, ids, hcs, hn, hids⟩ := endsOnce_step inv hopen h
  have same : ∀ id, callId c'.store id = callId c.store id := by
    have hid : c'.store.row.id = c.store.row.id := by
      rcases Client.step_moves h with h | ⟨q, t, -, -, hf, hq⟩
      · exact h.id
      · rw [hq.id, hf.eq]; rfl
    intro id
    simp [callId, hid]
  rw [CompletedOnce, List.flatMap_append]
  simp only [List.flatMap_cons, List.flatMap_nil, List.append_nil, hcs]
  refine ⟨List.nodup_append.2 ⟨hes.1, hn.map fun a b => callId_inj, ?_⟩, fun name hname => ?_⟩
  · -- a call completed now was open, one completed before had ended
    rintro a ha b hb rfl
    obtain ⟨id, hid, rfl⟩ := List.mem_map.1 hb
    obtain ⟨r, hr, hrec, hname⟩ := hes.2 _ ha
    obtain ⟨⟨q, hq, e, hopen⟩, -⟩ := hids id hid
    have : r = q := eq_of_id inv.ids hr hq ((callId_inj hname).trans e.symm)
    rw [this, hopen] at hrec
    cases hrec
  · rcases List.mem_append.1 hname with hname | hname
    · obtain ⟨r, hr, hrec, rfl⟩ := hes.2 _ hname
      obtain ⟨r', hr', e', hrec', -⟩ := hkept r hr hrec
      exact ⟨r', hr', hrec', by rw [same, e']⟩
    · obtain ⟨id, hid, rfl⟩ := List.mem_map.1 hname
      obtain ⟨-, r, hr, e, hrec⟩ := hids id hid
      exact ⟨r, hr, hrec, by rw [same, e]⟩

/-- **A mutation reaches one terminal outcome, in every run whose refusals reach no ended call.** Once
a call ended, its recorded outcome is the same in every later state, and over the whole run it
completes at most once. -/
theorem mutation_ends_once {id : String} {S : Schema} {stream projection : String} {c₀ c₁ c₂ : Client}
    {es₁ es₂ : List Event} (hcreate : create P H id S stream projection = .ok c₀) (h₁ : OpenRuns P H c₀ es₁ c₁)
    (h₂ : OpenRuns P H c₁ es₂ c₂) :
    OutcomesKept P c₁.store c₂.store ∧
      ((es₁ ++ es₂).flatMap fun e => e.completions.map (·.callId)).Nodup := by
  have inv₁ : QueueInv c₁.store :=
    Trace.inv (fun c => QueueInv c.store) (fun _ _ _ inv h => queueInv_step inv h.1) h₁ (queueInv_create hcreate)
  refine ⟨?_, ?_⟩
  · have both : QueueInv c₂.store ∧ OutcomesKept P c₁.store c₂.store :=
      Trace.inv (fun c => QueueInv c.store ∧ OutcomesKept P c₁.store c.store)
        (fun c e c' hc h => ⟨queueInv_step hc.1 h.1, hc.2.trans (endsOnce_step hc.1 h.2 h.1).1⟩)
        h₂ ⟨inv₁, .refl _⟩
    exact both.2
  · have run : OpenRuns P H c₀ (es₁ ++ es₂) c₂ := h₁.append h₂
    have both := Trace.inv_labels (fun es c => QueueInv c.store ∧ CompletedOnce es c)
      (fun es c e c' hc h => ⟨queueInv_step hc.1 h.1, completedOnce_step hc.1 h.2 h.1 hc.2⟩)
      run ⟨queueInv_create hcreate, by simp [CompletedOnce]⟩
    exact both.2.1

namespace Notes

/-- A note is added and renamed before either call is sent: the second depends on the first. -/
def renamed : Client := (added.call platform hashes {} (submit "renameNote" "a" "y")).2

/-- The second call dropped. -/
def dropped : Client := (renamed.call platform hashes {} (.drop 2)).2

/-- The events of adding and twoCalls a note. -/
def twoCalls : List Event :=
  [⟨submit "addNote" "a" "x", {}, (start.call platform hashes {} (submit "addNote" "a" "x")).1⟩,
    ⟨submit "renameNote" "a" "y", {}, (added.call platform hashes {} (submit "renameNote" "a" "y")).1⟩]

theorem twoCalls_open : OpenRuns platform hashes start twoCalls renamed := by
  have first : OpenRuns platform hashes start [twoCalls[0]] added := .single ⟨rfl, fun _ => trivial⟩
  exact first.snoc ⟨rfl, fun _ => trivial⟩

/-- The event of a drop. -/
def drop (c : Client) (id : Nat) : Event := ⟨.drop id, {}, (c.call platform hashes {} (.drop id)).1⟩

end Notes

/-- Dropping the first call refuses both, each once. -/
theorem mutation_ends_once_note :
    OutcomesKept Notes.platform Notes.renamed.store (Notes.renamed.call Notes.platform Notes.hashes {} (.drop 1)).2.store ∧
      ((Notes.twoCalls ++ [Notes.drop Notes.renamed 1]).flatMap fun e => e.completions.map (·.callId)).Nodup := by
  have unsettled : ∀ r ∈ Notes.renamed.store.queue, r.reconciled = false := by decide +kernel
  have refused : RefusesOpen Notes.renamed.store (.drop 1) := by
    intro _ a _ r hr hrec
    rw [unsettled r hr] at hrec
    cases hrec
  exact mutation_ends_once Notes.create_start Notes.twoCalls_open (.single ⟨rfl, fun _ => refused⟩)

/-- **A call can end twice.** The second call is dropped, then the first: the cascade of the first drop
reaches the second call again, rewrites its outcome and completes it once more. -/
theorem mutation_ends_twice :
    Client.Runs Notes.platform Notes.hashes Notes.start (Notes.twoCalls ++ [Notes.drop Notes.renamed 2]) Notes.dropped ∧
    Client.Runs Notes.platform Notes.hashes Notes.dropped [Notes.drop Notes.dropped 1]
      (Notes.dropped.call Notes.platform Notes.hashes {} (.drop 1)).2 ∧
    ¬ OutcomesKept Notes.platform Notes.dropped.store (Notes.dropped.call Notes.platform Notes.hashes {} (.drop 1)).2.store ∧
    ¬ ((Notes.twoCalls ++ [Notes.drop Notes.renamed 2] ++ [Notes.drop Notes.dropped 1]).flatMap
      fun e => e.completions.map (·.callId)).Nodup := by
  refine ⟨(Notes.twoCalls_open.mono fun _ _ _ h => h.1).snoc rfl, .single rfl, ?_, ?_⟩
  · unfold OutcomesKept
    decide +kernel
  · decide +kernel

end Axton
