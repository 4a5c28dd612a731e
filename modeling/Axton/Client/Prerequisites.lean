import Axton.Client.Window

/-!
# Prerequisite tasks and the calls that wait on them

A task has one row for each call that waits on it, and the rows mean shared state: all rows of a key carry one error, and a
resolved key has none. A refusal leaves the rows of the refused calls in place until the refusal is acknowledged
(settlement05.rs:749), so a dropped call, or one refused with the call it hangs on, keeps its task in `pending_tasks` and
hands its error to the next call that needs it. Where no step refuses a waiting call, the tasks are those of the unsent
calls, as prerequisites.md says.

* `SameError` — one error a key, in every run;
* `resolved_free` — a call whose tasks were resolved waits on none;
* `Call.Clears` — what a step must not refuse;
* `prerequisites_mirror` — runs whose steps do not.
-/

namespace Axton

/-- `prerequisite_keys` (queue.rs:350), the rows of `pending_tasks`. -/
def Engine.prerequisiteKeys (s : Store) : List (String × Option String) :=
  ((s.prerequisites.map (·.key)).dedup.insertionSort (· ≤ ·)).map fun key => (key, Engine.knownError s key)

theorem mem_prerequisiteKeys {s : Store} {key : String} :
    key ∈ (Engine.prerequisiteKeys s).map (·.1) ↔ ∃ p ∈ s.prerequisites, p.key = key := by
  simp [Engine.prerequisiteKeys, List.mem_insertionSort]

/-! ## One error a key -/

/-- All rows of a key carry one error. -/
def SameError (ps : List Prerequisite) : Prop := ∀ p ∈ ps, ∀ q ∈ ps, p.key = q.key → p.error = q.error

variable {s t : Store} {P : Platform} {H : Hashes}

theorem SameError.readied {ps qs : List Prerequisite} (h : SameError ps) (hr : Readied ps qs) : SameError qs := by
  cases hr with
  | resolved key =>
    intro p hp q hq hk
    exact h p (List.mem_filter.1 hp).1 q (List.mem_filter.1 hq).1 hk
  | marked key error =>
    intro p hp q hq hk
    obtain ⟨p₀, hp₀, rfl⟩ := List.mem_map.1 hp
    obtain ⟨q₀, hq₀, rfl⟩ := List.mem_map.1 hq
    by_cases hpk : p₀.key = key
    · by_cases hqk : q₀.key = key
      · simp [hpk, hqk]
      · simp [hpk, Ne.symm hqk, hqk] at hk
    · by_cases hqk : q₀.key = key
      · simp [hpk, hqk] at hk
      · simp only [hpk, hqk, if_false] at hk ⊢
        exact h p₀ hp₀ q₀ hq₀ hk

/-- The error a new row takes is that of its task. -/
theorem knownError_eq (h : SameError s.prerequisites) {p : Prerequisite} (hp : p ∈ s.prerequisites) :
    Engine.knownError s p.key = p.error := by
  have hall : ∀ e ∈ (s.prerequisites.filter (·.key = p.key)).filterMap (·.error), p.error = some e := by
    intro e he
    obtain ⟨q, hq, hqe⟩ := List.mem_filterMap.1 he
    obtain ⟨hq, hk⟩ := List.mem_filter.1 hq
    rw [← hqe]
    exact h p hp q hq (of_decide_eq_true hk).symm
  unfold Engine.knownError
  cases hmax : ((s.prerequisites.filter (·.key = p.key)).filterMap (·.error)).max? with
  | some e => exact (hall e (List.max?_mem hmax)).symm
  | none =>
    rw [List.max?_eq_none_iff, List.filterMap_eq_nil_iff] at hmax
    exact (hmax p (List.mem_filter.2 ⟨hp, by simp⟩)).symm

theorem knownError_none {key : String} (h : ∀ p ∈ s.prerequisites, p.key ≠ key) : Engine.knownError s key = none := by
  have hnil : s.prerequisites.filter (·.key = key) = [] := by
    rw [List.filter_eq_nil_iff]
    intro p hp
    simpa using h p hp
  simp [Engine.knownError, hnil]

theorem SameError.enqueues (h : SameError s.prerequisites) (he : Enqueues s t) : SameError t.prerequisites := by
  obtain ⟨keys, hkeys⟩ := he.waits
  rw [hkeys]
  -- every row, old or new, carries the error its task had
  have hknown : ∀ p ∈ s.prerequisites ++ keys.map (fun key => ⟨s.row.nextMutationId, key, Engine.knownError s key⟩),
      p.error = Engine.knownError s p.key := by
    intro p hp
    rcases List.mem_append.1 hp with hp | hp
    · exact (knownError_eq h hp).symm
    · obtain ⟨key, -, rfl⟩ := List.mem_map.1 hp
      rfl
  intro p hp q hq hk
  rw [hknown p hp, hknown q hq, hk]

theorem SameError.quiet (h : SameError s.prerequisites) (hq : Quiet s t) : SameError t.prerequisites := by
  suffices run : ∀ qs, Relation.ReflTransGen Readied s.prerequisites qs → SameError qs from run _ hq.readied
  intro qs hqs
  induction hqs with
  | refl => exact h
  | tail _ hr ih => exact ih.readied hr

theorem SameError.move (h : SameError s.prerequisites) (hm : Move P s t) : SameError t.prerequisites := by
  cases hm with
  | quiet hq => exact h.quiet hq
  | enqueues he => exact h.enqueues he
  | cancels id hc =>
    rw [hc.refuses.rest.prerequisites]
    exact h
  | acknowledges a ha =>
    obtain ⟨u, hu, rfl⟩ := ha.refuses
    show SameError u.prerequisites
    rw [hu.rest.prerequisites]
    exact h
  | dismisses id hd =>
    rw [hd.eq]
    intro p hp q hq hk
    exact h p (List.mem_filter.1 hp).1 q (List.mem_filter.1 hq).1 hk

theorem SameError.moves (h : SameError s.prerequisites) (hm : Moves P s t) : SameError t.prerequisites := by
  induction hm with
  | refl => exact h
  | tail _ hm ih => exact ih.move hm

theorem SameError.step {c c' : Client} {e : Event} (h : SameError c.store.prerequisites) (hs : Client.Step P H c e c') :
    SameError c'.store.prerequisites := by
  rcases Client.step_moves hs with hm | ⟨q, t, -, -, hf, hq⟩
  · exact h.moves hm
  · have ht : SameError t.prerequisites := by
      rw [hf.eq]
      exact h
    exact ht.quiet hq

/-! ## Resolved keys -/

/-- Call `n`, already numbered, does not wait on the key. -/
def Absent (n : Nat) (key : String) (s : Store) : Prop :=
  n < s.row.nextMutationId ∧ ∀ p ∈ s.prerequisites, p.key = key → p.ordinal ≠ n

section Absent
variable {n : Nat} {key : String}

theorem Absent.quiet (h : Absent n key s) (hq : Quiet s t) : Absent n key t := by
  suffices run : ∀ qs, Relation.ReflTransGen Readied s.prerequisites qs → ∀ p ∈ qs, p.key = key → p.ordinal ≠ n from
    ⟨hq.nextMutationId ▸ h.1, run _ hq.readied⟩
  intro qs hqs
  induction hqs with
  | refl => exact h.2
  | tail _ hr ih =>
    cases hr with
    | resolved k => exact fun p hp => ih p (List.mem_filter.1 hp).1
    | marked k error =>
      intro p hp hk
      obtain ⟨p₀, hp₀, rfl⟩ := List.mem_map.1 hp
      have hsame : ∀ q : Prerequisite, q = (if p₀.key = k then { p₀ with error } else p₀) →
          q.key = p₀.key ∧ q.ordinal = p₀.ordinal := by
        rintro q rfl
        split <;> exact ⟨rfl, rfl⟩
      obtain ⟨hkey, hord⟩ := hsame _ rfl
      rw [hord]
      exact ih p₀ hp₀ (hkey.symm.trans hk)

/-- A new row is of a new call. -/
theorem Absent.move (h : Absent n key s) (hm : Move P s t) : Absent n key t := by
  have hnext := lt_of_lt_of_le h.1 hm.grows.nextMutationId
  cases hm with
  | quiet hq => exact h.quiet hq
  | enqueues he =>
    refine ⟨hnext, fun p hp hk => ?_⟩
    obtain ⟨keys, hkeys⟩ := he.waits
    rw [hkeys] at hp
    rcases List.mem_append.1 hp with hp | hp
    · exact h.2 p hp hk
    · obtain ⟨k, -, rfl⟩ := List.mem_map.1 hp
      exact ne_of_gt h.1
  | cancels id hc =>
    refine ⟨hnext, ?_⟩
    rw [hc.refuses.rest.prerequisites]
    exact h.2
  | acknowledges a ha =>
    refine ⟨hnext, ?_⟩
    obtain ⟨u, hu, rfl⟩ := ha.refuses
    show ∀ p ∈ u.prerequisites, p.key = key → p.ordinal ≠ n
    rw [hu.rest.prerequisites]
    exact h.2
  | dismisses id hd =>
    refine ⟨hnext, ?_⟩
    rw [hd.eq]
    exact fun p hp => h.2 p (List.mem_filter.1 hp).1

theorem Absent.moves (h : Absent n key s) (hm : Moves P s t) : Absent n key t := by
  induction hm with
  | refl => exact h
  | tail _ hm ih => exact ih.move hm

theorem Absent.step {c c' : Client} {e : Event} (h : Absent n key c.store) (hs : Client.Step P H c e c') :
    Absent n key c'.store := by
  rcases Client.step_moves hs with hm | ⟨q, t, -, -, hf, hq⟩
  · exact h.moves hm
  · have ht : Absent n key t := by
      rw [hf.eq]
      exact h
    exact ht.quiet hq

end Absent

theorem nextMutationId_step {c c' : Client} {e : Event} (hs : Client.Step P H c e c') :
    c.store.row.nextMutationId ≤ c'.store.row.nextMutationId := by
  have run : ∀ {s t : Store}, Moves P s t → s.row.nextMutationId ≤ t.row.nextMutationId := by
    intro s t hm
    induction hm with
    | refl => exact le_refl _
    | tail _ hm ih => exact le_trans ih hm.grows.nextMutationId
  rcases Client.step_moves hs with hm | ⟨q, t, -, -, hf, hq⟩
  · exact run hm
  · rw [hq.nextMutationId, hf.eq]
    exact le_refl _

/-- The task was resolved. -/
def Event.Resolves (key : String) (e : Event) : Prop := e.call = .readiness key .ready ∧ e.result = .ok .none

theorem resolves_absent {n : Nat} {key : String} {c c' : Client} {e : Event} (hn : n < c.store.row.nextMutationId)
    (hs : Client.Step P H c e c') (he : e.Resolves key) : Absent n key c'.store := by
  obtain ⟨hcall, hok⟩ := he
  cases Client.step_moved P H hs with
  | failed h => rw [hok] at h; cases h
  | waited h _ _ => rw [hcall] at h; cases h
  | cleaned h _ _ _ => rw [hcall] at h; cases h
  | applied h _ _ _ _ => rw [hcall] at h; cases h
  | reopened h _ _ => rw [hcall] at h; cases h
  | plain _ hb _ _ =>
    rw [hcall] at hb
    simp only [Call.body, labelled, setReadiness, Except.map, Except.ok.injEq, Prod.mk.injEq] at hb
    obtain ⟨-, rfl⟩ := hb
    refine ⟨hn, fun p hp hk => ?_⟩
    have hne := (List.mem_filter.1 hp).2
    simp [hk] at hne

/-- A call all of whose tasks were resolved has no row left. -/
theorem resolved_free {n : Nat} {c c' : Client} {es : List Event} (hn : n < c.store.row.nextMutationId)
    (run : Client.Runs P H c es c')
    (hresolved : ∀ p ∈ c.store.prerequisites, p.ordinal = n → ∃ e ∈ es, e.Resolves p.key) :
    ∀ p ∈ c'.store.prerequisites, p.ordinal ≠ n := by
  -- the keys the call never waited on, and those resolved so far, are absent
  have inv : n < c'.store.row.nextMutationId ∧ ∀ key, (∀ p ∈ c.store.prerequisites, p.key = key → p.ordinal ≠ n) ∨
      (∃ e ∈ es, e.Resolves key) → Absent n key c'.store := by
    refine run.inv_labels (fun es c' => n < c'.store.row.nextMutationId ∧
      ∀ key, (∀ p ∈ c.store.prerequisites, p.key = key → p.ordinal ≠ n) ∨ (∃ e ∈ es, e.Resolves key) →
        Absent n key c'.store) ?_ ⟨hn, fun key h => ?_⟩
    · rintro es c₁ e c₂ ⟨hlt, hall⟩ hs
      refine ⟨lt_of_lt_of_le hlt (nextMutationId_step hs), fun key h => ?_⟩
      rcases h with h | ⟨e', he', hres⟩
      · exact (hall key (.inl h)).step hs
      · rcases List.mem_append.1 he' with he' | he'
        · exact (hall key (.inr ⟨e', he', hres⟩)).step hs
        · rw [List.mem_singleton.1 he'] at hres
          exact resolves_absent hlt hs hres
    · rcases h with h | ⟨e, he, -⟩
      · exact ⟨hn, h⟩
      · cases he
  intro p hp hord
  by_cases hkey : ∃ q ∈ c.store.prerequisites, q.key = p.key ∧ q.ordinal = n
  · obtain ⟨q, hq, hqk, hqn⟩ := hkey
    obtain ⟨e, he, hres⟩ := hresolved q hq hqn
    exact (inv.2 p.key (.inr ⟨e, he, hqk ▸ hres⟩)).2 p hp rfl hord
  · exact (inv.2 p.key (.inl fun q hq hqk hqn => hkey ⟨q, hq, hqk, hqn⟩)).2 p hp rfl hord

/-! ## Waiting calls -/

/-- The call is unsent and open. -/
def MutationRow.Unsent (r : MutationRow) : Prop := r.batchId = none ∧ r.reconciled = false ∧ r.rejectionCode = none

/-- Every row is of an unsent call. -/
def Mirrors (s : Store) : Prop := ∀ p ∈ s.prerequisites, ∃ r ∈ s.queue, r.id = p.ordinal ∧ r.Unsent

/-- The call has a prerequisite row. -/
def Waits (s : Store) (id : Nat) : Prop := ∃ p ∈ s.prerequisites, p.ordinal = id

theorem mem_of_readied {ps qs : List Prerequisite} (h : Relation.ReflTransGen Readied ps qs) :
    ∀ q ∈ qs, ∃ p ∈ ps, p.ordinal = q.ordinal := by
  induction h with
  | refl => exact fun q hq => ⟨q, hq, rfl⟩
  | tail _ hr ih =>
    intro q hq
    cases hr with
    | resolved key => exact ih q (List.mem_filter.1 hq).1
    | marked key error =>
      obtain ⟨q₀, hq₀, rfl⟩ := List.mem_map.1 hq
      obtain ⟨p, hp, hord⟩ := ih q₀ hq₀
      refine ⟨p, hp, ?_⟩
      split <;> exact hord

/-- An unsent call settles nothing. -/
theorem unsent_settle {last : Nat} {r r' : MutationRow} (hok : RowOk last r) (h : SettleRow r r') (hu : r.Unsent) : r'.Unsent := by
  have hk := h.keeps
  refine ⟨hk.batchId.trans hu.1, ?_, hk.code.trans hu.2.2⟩
  by_contra hrec
  rcases hk.accepted (by simpa using hrec) with h | h
  · rw [hu.2.1] at h
    cases h
  · obtain ⟨b, hb, -⟩ := hok.sent h
    rw [hu.1] at hb
    cases hb

theorem Mirrors.quiet (inv : QueueInv s) (h : Mirrors s) (hq : Quiet s t) : Mirrors t := by
  intro p hp
  obtain ⟨q, hqs, hord⟩ := mem_of_readied hq.readied p hp
  obtain ⟨r, hr, hid, hu⟩ := h q hqs
  obtain ⟨r', hr', hrr⟩ := forall₂_mem_left hq.queue hr
  exact ⟨r', hr', hrr.id_eq.trans (hid.trans hord), unsent_settle (inv.rows r hr) hrr hu⟩

theorem unsent_core {r r' : MutationRow} (h : r'.core = r.core) (hu : r.Unsent) : r'.id = r.id ∧ r'.Unsent := by
  have hk := SettleRow.keeps (.inl h)
  obtain ⟨-, -, hrec⟩ := core_eq h
  exact ⟨hk.id, hk.batchId.trans hu.1, hrec.trans hu.2.1, hk.code.trans hu.2.2⟩

theorem Mirrors.enqueues (h : Mirrors s) (he : Enqueues s t) : Mirrors t := by
  obtain ⟨name, version, u, hrec, ht⟩ := he.pushed
  obtain ⟨keys, hkeys⟩ := he.waits
  -- the rows of the queue before, and the new one, are still there
  have hrows : ∀ r ∈ (s.pushed name version).queue, r.Unsent → ∃ r' ∈ t.queue, r'.id = r.id ∧ r'.Unsent := by
    intro r hr hu
    obtain ⟨r', hr', hcore⟩ := forall₂_mem_left (forall₂_of_map_eq hrec.queue) hr
    rw [ht]
    exact ⟨r', hr', unsent_core hcore hu⟩
  intro p hp
  rw [hkeys] at hp
  rcases List.mem_append.1 hp with hp | hp
  · obtain ⟨r, hr, hid, hu⟩ := h p hp
    obtain ⟨r', hr', hid', hu'⟩ := hrows r (mem_pushed.2 (.inl hr)) hu
    exact ⟨r', hr', hid'.trans hid, hu'⟩
  · obtain ⟨key, -, rfl⟩ := List.mem_map.1 hp
    obtain ⟨r', hr', hid', hu'⟩ := hrows _ (mem_pushed.2 (.inr rfl)) ⟨rfl, rfl, rfl⟩
    exact ⟨r', hr', hid', hu'⟩

/-- A refusal leaves the rows of the calls it does not reach. -/
theorem Refuses.mirrors {rejected : Table Nat Rejection} (h : Mirrors s) (hr : Refuses rejected s t) :
    t.prerequisites = s.prerequisites ∧ ∀ p ∈ t.prerequisites, ((Engine.refused s rejected).get p.ordinal).isSome ∨
      ∃ r ∈ t.queue, r.id = p.ordinal ∧ r.Unsent := by
  have hp := hr.rest.prerequisites
  refine ⟨hp, fun p hpt => ?_⟩
  rw [hp] at hpt
  obtain ⟨r, hmem, hid, hu⟩ := h p hpt
  cases hget : (Engine.refused s rejected).get p.ordinal with
  | some v => exact .inl rfl
  | none =>
    right
    have hkept : Engine.rejectRow (Engine.refused s rejected) r = r := by
      unfold Engine.rejectRow
      rw [hid, hget]
    have hmem' : r ∈ (Engine.rejectRows (Engine.refused s rejected) s).queue := by
      rw [← hkept]
      exact List.mem_map_of_mem hmem
    obtain ⟨r', hr', hcore⟩ := forall₂_mem_left hr.rest.rows hmem'
    obtain ⟨hid', hu'⟩ := unsent_core hcore hu
    exact ⟨r', hr', hid'.trans hid, hu'⟩

theorem Mirrors.dismisses {id : Nat} (h : ∀ p ∈ s.prerequisites, p.ordinal ≠ id → ∃ r ∈ s.queue, r.id = p.ordinal ∧ r.Unsent)
    (hd : Dismisses id s t) : Mirrors t := by
  rw [hd.eq]
  intro p hp
  obtain ⟨hp, hne⟩ := List.mem_filter.1 hp
  obtain ⟨r, hr, hid, hu⟩ := h p hp (by simpa using hne)
  refine ⟨r, ?_, hid, hu⟩
  have hother : (if r.id = id then { r with rejectionAcknowledged := true } else r) = r :=
    if_neg (by rw [hid]; simpa using hne)
  exact hother ▸ List.mem_map_of_mem hr

theorem Mirrors.freezes {q : MutationRequest} (h : Mirrors s) (hf : Freezes P q s t) : Mirrors t := by
  intro p hp
  have hpre : t.prerequisites = s.prerequisites := by rw [hf.eq]; rfl
  rw [hpre] at hp
  obtain ⟨r, hr, hid, hu⟩ := h p hp
  have hnot : Engine.ready s r ≠ true := fun hready => (Engine.ready_ok hready).2.2.2.1 p hp hid.symm
  refine ⟨r, ?_, hid, hu⟩
  have hsame : frozenRow s (s.row.lastAcknowledgedBatchId + 1) q.digest r = r := if_neg hnot
  rw [hf.queue]
  exact hsame ▸ List.mem_map_of_mem hr

/-! ## Steps that refuse no waiting call -/

/-- The call refuses no call whose rows it leaves behind: a drop neither the call itself nor, like every refusal, one that
hangs on it. -/
def Call.Clears (s : Store) : Call → Prop
  | .drop id => ∀ r, s.mutation id = some r → r.batchId = none → r.reconciled = false →
      ∀ j, Relation.ReflTransGen (Engine.LifecycleEdge s.dependencies) id j → ¬ Waits s j
  | .discard id => ∀ r, s.mutation id = some r → r.batchId = none → r.reconciled = false →
      ∀ j, Relation.TransGen (Engine.LifecycleEdge s.dependencies) id j → ¬ Waits s j
  | .acknowledge a => a.batchId = s.row.lastAcknowledgedBatchId + 1 → ∀ id, ((Engine.rejections a).get id).isSome →
      ∀ j, Relation.TransGen (Engine.LifecycleEdge s.dependencies) id j → ¬ Waits s j
  | _ => True

/-- The step refuses no waiting call; a step that fails refuses none. -/
def Client.Clears (c : Client) (e : Event) : Prop := (∃ o, e.result = .ok o) → e.call.Clears c.store

theorem dropped_get {id j : Nat} {v : Rejection} (h : (Table.get [(id, v)] j).isSome) : j = id := by
  by_contra hne
  simp [Table.get, Ne.symm hne] at h

/-- A discard that ran dismissed the call it refused. -/
theorem Engine.discard_cases {E : Engine} {id : Nat} {report : ApplyReport} (inv : QueueInv s)
    (h : E.cancelUnsent id true s = .ok (report, t)) : t = s ∨ ∃ u, Cancels id s u ∧ Dismisses id u t := by
  rcases cancelUnsent_cancels h with ⟨rfl, -⟩ | ⟨u, hc, ⟨-, hnone⟩ | hd, -⟩
  · exact .inl rfl
  · -- a refusal keeps the row
    obtain ⟨r, hr, -⟩ := hc.unsent
    obtain ⟨hmem, hid⟩ := mem_of_mutation hr
    obtain ⟨r', hr', g⟩ := forall₂_mem_left hc.refuses.grows hmem
    have hsome := (inv.cancels hc).mutation_eq hr'
    rw [g.id, hid, hnone rfl] at hsome
    cases hsome
  · exact .inr ⟨u, hc, hd⟩

theorem Mirrors.cancels {id : Nat} (h : Mirrors s) (hc : Cancels id s t) : ∀ p ∈ t.prerequisites,
    Relation.ReflTransGen (Engine.LifecycleEdge s.dependencies) id p.ordinal ∨ ∃ r ∈ t.queue, r.id = p.ordinal ∧ r.Unsent := by
  intro p hp
  rcases (Refuses.mirrors h hc.refuses).2 p hp with href | hr
  · obtain ⟨a, ha, path⟩ := Engine.get_refused_isSome.1 href
    rw [dropped_get ha] at path
    exact .inl path
  · exact .inr hr

theorem Mirrors.acknowledges {a : BatchAcknowledgement} (inv : QueueInv s) (h : Mirrors s) (ha : Acknowledges P a s t)
    (hclear : (Call.acknowledge a).Clears s) : Mirrors t := by
  obtain ⟨u, hu, rfl⟩ := ha.refuses
  have haccept : Mirrors (Engine.acceptRows a s) := by
    intro p hp
    obtain ⟨r, hr, hid, hu⟩ := h p hp
    have hsame : (Engine.acceptRow a r).id = r.id ∧ (Engine.acceptRow a r).Unsent := by
      unfold Engine.acceptRow
      split <;> exact ⟨rfl, hu⟩
    exact ⟨_, List.mem_map_of_mem hr, hsame.1.trans hid, hsame.2⟩
  obtain ⟨hpre, hrows⟩ := Refuses.mirrors haccept hu
  intro p hp
  rcases hrows p hp with href | hr
  · have hps : p ∈ s.prerequisites := by
      have hp' : p ∈ u.prerequisites := hp
      rw [hpre] at hp'
      exact hp'
    obtain ⟨x, hx, path⟩ := Engine.get_refused_isSome.1 href
    rcases Relation.reflTransGen_iff_eq_or_transGen.1 path with heq | path
    · -- a member of the batch waits on nothing
      obtain ⟨v, hv⟩ := Option.isSome_iff_exists.1 hx
      obtain ⟨y, hy, hym⟩ := List.mem_filterMap.1 (Table.mem_of_get hv)
      have hyid : y.mutationId = x := by
        split at hym
        · cases hym; rfl
        · cases hym
      obtain ⟨r, hr, hb, hrid⟩ := ha.members.2.2 y hy
      obtain ⟨r', hr', hid', hu'⟩ := h p hps
      have : r = r' := eq_of_id inv.ids hr hr' (by rw [hrid, hyid, hid', heq])
      rw [this, hu'.1] at hb
      cases hb
    · exact absurd ⟨p, hps, rfl⟩ (hclear ha.next x hx _ path)
  · exact hr

theorem Call.mirrors {E : Engine} {x : Call} {o : Output} (inv : QueueInv s) (h : Mirrors s) (hc : x.Clears s)
    (hb : x.body E s = .ok (o, t)) : Mirrors t := by
  cases x <;> simp only [Call.body, labelled, map_ok, Prod.exists, Prod.mk.injEq] at hb
  case submit => obtain ⟨id, u, hb, -, rfl⟩ := hb; exact h.enqueues (Engine.enqueue_enqueues hb).1
  case companion => obtain ⟨_, u, hb, -, rfl⟩ := hb; exact h.quiet inv (.ofLocal (Within.within _ hb))
  case direct => obtain ⟨_, u, hb, -, rfl⟩ := hb; exact h.quiet inv (.ofLocal (Within.within _ hb))
  case readiness => obtain ⟨⟨⟩, u, hb, -, rfl⟩ := hb; exact h.quiet inv (Engine.setReadiness_quiet hb)
  case freeze =>
    obtain ⟨r, u, hb, -, rfl⟩ := hb
    rcases Engine.freeze_cases hb with ⟨rfl, -⟩ | ⟨rfl, -⟩ | ⟨q, -, hf⟩
    · exact h
    · exact h
    · exact h.freezes hf
  case acknowledge a =>
    obtain ⟨_, u, hb, -, rfl⟩ := hb
    rcases Engine.acknowledge_acknowledges hb with ⟨rfl, -⟩ | ⟨ha, -⟩
    · exact h
    · exact h.acknowledges inv ha hc
  case settle => obtain ⟨_, u, hb, -, rfl⟩ := hb; exact h.quiet inv (.ofSettles (Within.within _ hb))
  case drop id =>
    obtain ⟨_, u, hb, -, rfl⟩ := hb
    rcases Engine.cancelUnsent_cancels hb with ⟨rfl, -⟩ | ⟨v, hcancel, hd, -⟩
    · exact h
    · obtain ⟨r, hr, hbatch, hrec⟩ := hcancel.unsent
      have hv : Mirrors v := by
        intro p hp
        have hps : p ∈ s.prerequisites := by
          rw [hcancel.refuses.rest.prerequisites] at hp
          exact hp
        rcases h.cancels hcancel p hp with path | hr
        · exact absurd ⟨p, hps, rfl⟩ (hc r hr hbatch hrec _ path)
        · exact hr
      rcases hd with ⟨rfl, -⟩ | hd
      · exact hv
      · exact .dismisses (fun p hp _ => hv p hp) hd
  case discard id =>
    obtain ⟨_, u, hb, -, rfl⟩ := hb
    rcases Engine.discard_cases inv hb with rfl | ⟨v, hcancel, hd⟩
    · exact h
    · obtain ⟨r, hr, hbatch, hrec⟩ := hcancel.unsent
      refine .dismisses (fun p hp hne => ?_) hd
      have hps : p ∈ s.prerequisites := by
        rw [hcancel.refuses.rest.prerequisites] at hp
        exact hp
      rcases h.cancels hcancel p hp with path | hr
      · rcases Relation.reflTransGen_iff_eq_or_transGen.1 path with heq | path
        · exact absurd heq hne
        · exact absurd ⟨p, hps, rfl⟩ (hc r ‹_› hbatch hrec _ path)
      · exact hr
  case dismiss id =>
    obtain ⟨⟨⟩, u, hb, -, rfl⟩ := hb
    rcases Engine.dismiss_dismisses hb with ⟨rfl, -⟩ | hd
    · exact h
    · exact .dismisses (fun p hp _ => h p hp) hd
  case authority => obtain ⟨_, u, hb, -, rfl⟩ := hb; exact h.quiet inv (Engine.installAuthority_quiet hb)
  case cache => obtain ⟨_, u, hb, -, rfl⟩ := hb; exact h.quiet inv (.ofLocal (Within.within _ hb))
  case cleanup now =>
    obtain ⟨_, u, hb, -, rfl⟩ := hb
    cases hb
    exact h.quiet inv (Engine.expireProgress_quiet now s)
  case handshake => obtain ⟨⟨⟩, u, hb, -, rfl⟩ := hb; exact h.quiet inv (Engine.initializeStream_quiet hb)
  case enableSchema => obtain ⟨⟨⟩, u, hb, -, rfl⟩ := hb; exact h.quiet inv (Engine.enableSchema_quiet hb)
  case deliver => cases hb; exact h
  case reopen => cases hb; exact h

theorem Mirrors.step {c c' : Client} {e : Event} (inv : QueueInv c.store) (h : Mirrors c.store)
    (hs : Client.Step P H c e c') (hc : c.Clears e) : Mirrors c'.store := by
  cases Client.step_moved P H hs with
  | failed _ => exact h
  | waited _ _ _ => exact h
  | @plain o t _ hb _ hr =>
    have ht : Mirrors t := Call.mirrors inv h (hc ⟨o, hr⟩) hb
    exact ht
  | cleaned _ _ _ _ => exact h.quiet inv ((Engine.expireProgress_quiet _ _).trans (published_quiet c _))
  | applied _ _ hb _ _ => exact h.quiet inv ((Engine.applyUnit_quiet hb).trans (published_quiet c _))
  | reopened _ hb _ => exact h.quiet inv (Engine.reopen_quiet hb)

/-! ## Runs -/

section
variable (P H)

/-- A run none of whose steps refuses a waiting call. -/
def Client.ClearRuns (c₀ : Client) (es : List Event) (c : Client) : Prop :=
  Trace (fun c e c' => Client.Step P H c e c' ∧ c.Clears e) c₀ es c

end

/-- What a submission adds: rows of the new call, each with the error of its task. -/
theorem submitted_rows {c c' : Client} {e : Event} {x : Engine.Submission} {n : Nat} (hs : Client.Step P H c e c')
    (hcall : e.call = .submit x) (hok : e.result = .ok (.submitted n)) :
    n = c.store.row.nextMutationId ∧ n < c'.store.row.nextMutationId ∧ ∃ keys : List String,
      c'.store.prerequisites = c.store.prerequisites ++ keys.map fun key => ⟨n, key, Engine.knownError c.store key⟩ := by
  cases Client.step_moved P H hs with
  | failed h => rw [hok] at h; cases h
  | waited h _ _ => rw [hcall] at h; cases h
  | cleaned h _ _ _ => rw [hcall] at h; cases h
  | applied h _ _ _ _ => rw [hcall] at h; cases h
  | reopened h _ _ => rw [hcall] at h; cases h
  | plain _ hb _ hr =>
    rw [hcall] at hb
    simp only [Call.body, labelled, map_ok, Prod.exists, Prod.mk.injEq] at hb
    obtain ⟨id, u, hb, rfl, rfl⟩ := hb
    rw [hok] at hr
    cases hr
    obtain ⟨he, rfl⟩ := Engine.enqueue_enqueues hb
    obtain ⟨keys, hkeys⟩ := he.waits
    obtain ⟨name, version, w, hrec, ht⟩ := he.pushed
    refine ⟨rfl, ?_, keys, hkeys⟩
    show c.store.row.nextMutationId < u.row.nextMutationId
    rw [ht, hrec.row]
    exact Nat.lt_succ_self _

/-- A reset makes the task pending for every call that waits on it. -/
theorem reset_rows {c c' : Client} {e : Event} {key : String} (hs : Client.Step P H c e c')
    (hcall : e.call = .readiness key .pending) (hok : e.result = .ok .none) :
    ∀ p ∈ c'.store.prerequisites, p.key = key → p.error = none := by
  cases Client.step_moved P H hs with
  | failed h => rw [hok] at h; cases h
  | waited h _ _ => rw [hcall] at h; cases h
  | cleaned h _ _ _ => rw [hcall] at h; cases h
  | applied h _ _ _ _ => rw [hcall] at h; cases h
  | reopened h _ _ => rw [hcall] at h; cases h
  | plain _ hb _ _ =>
    rw [hcall] at hb
    simp only [Call.body, labelled, setReadiness, Except.map, Except.ok.injEq, Prod.mk.injEq] at hb
    obtain ⟨-, rfl⟩ := hb
    intro p hp hk
    obtain ⟨p₀, -, rfl⟩ := List.mem_map.1 hp
    by_cases hp₀ : p₀.key = key
    · simp [hp₀]
    · simp [hp₀] at hk

/-- **Prerequisite tasks mirror the calls that wait on them**, in every run whose steps refuse no waiting call. -/
theorem prerequisites_mirror {id : String} {S : Schema} {stream projection : String} {c₀ c : Client} {es : List Event}
    (h₀ : create P H id S stream projection = .ok c₀) (run : Client.ClearRuns P H c₀ es c) :
    (∀ key, key ∈ (Engine.prerequisiteKeys c.store).map (·.1) ↔
      ∃ r ∈ c.store.queue, r.Unsent ∧ ∃ p ∈ c.store.prerequisites, p.ordinal = r.id ∧ p.key = key) ∧
    SameError c.store.prerequisites ∧
    (∀ e c' key, Client.Step P H c e c' → e.call = .readiness key .pending → e.result = .ok .none →
      ∀ p ∈ c'.store.prerequisites, p.key = key → p.error = none) ∧
    ∀ e c' x n, Client.Step P H c e c' → e.call = .submit x → e.result = .ok (.submitted n) →
      (∀ p ∈ c'.store.prerequisites, p.ordinal = n →
        (∀ q ∈ c.store.prerequisites, q.key = p.key → p.error = q.error) ∧
        ((∀ r ∈ c.store.queue, r.Unsent → ∀ q ∈ c.store.prerequisites, q.ordinal = r.id → q.key ≠ p.key) → p.error = none)) ∧
      ∀ es' c'', Client.Runs P H c' es' c'' →
        (∀ p ∈ c'.store.prerequisites, p.ordinal = n → ∃ e ∈ es', e.Resolves p.key) →
        ∀ p ∈ c''.store.prerequisites, p.ordinal ≠ n := by
  have start : c₀.store.prerequisites = [] := by
    simp only [create, bind_ok, pure_ok] at h₀
    obtain ⟨_, _, _, _, rfl⟩ := h₀
    rfl
  have inv : QueueInv c.store ∧ SameError c.store.prerequisites ∧ Mirrors c.store := by
    refine run.inv (fun c => QueueInv c.store ∧ SameError c.store.prerequisites ∧ Mirrors c.store) ?_
      ⟨queueInv_create h₀, by simp [SameError, start], by simp [Mirrors, start]⟩
    rintro c e c' ⟨hq, hsame, hm⟩ ⟨hs, hc⟩
    exact ⟨queueInv_step hq hs, hsame.step hs, hm.step hq hs hc⟩
  obtain ⟨hq, hsame, hm⟩ := inv
  refine ⟨fun key => ?_, hsame, fun e c' key hs => reset_rows hs, fun e c' x n hs hcall hok => ?_⟩
  · rw [mem_prerequisiteKeys]
    constructor
    · rintro ⟨p, hp, hk⟩
      obtain ⟨r, hr, hid, hu⟩ := hm p hp
      exact ⟨r, hr, hu, p, hp, hid.symm, hk⟩
    · rintro ⟨r, -, -, p, hp, -, hk⟩
      exact ⟨p, hp, hk⟩
  · obtain ⟨hn, hlt, keys, hkeys⟩ := submitted_rows hs hcall hok
    refine ⟨fun p hp hord => ?_, fun es' c'' hrun hres => resolved_free hlt hrun hres⟩
    have hp' : p.error = Engine.knownError c.store p.key := by
      rw [hkeys] at hp
      rcases List.mem_append.1 hp with hp | hp
      · exact (knownError_eq hsame hp).symm
      · obtain ⟨key, -, rfl⟩ := List.mem_map.1 hp
        rfl
    refine ⟨fun q hq hk => ?_, fun hfree => ?_⟩
    · rw [hp', ← hk, knownError_eq hsame hq]
    · rw [hp', knownError_none]
      intro q hq hk
      obtain ⟨r, hr, hid, hu⟩ := hm q hq
      exact hfree r hr hu q hq hid.symm hk

namespace Notes

/-- A file waits for the upload of its key. -/
def files : Schema where
  models := [{
    name := "file", identity := ["id"]
    fields := [{ name := "id", valueType := .scalar .string, nullable := false },
      { name := "key", valueType := .scalar .string, nullable := false }] }]
  actions := [{ name := "addFile", version := 1, inputs := [.model "file" "file" .create .single none []] }]
  requirements := [⟨"file", "key", "Uploaded", ["key"]⟩]
  prerequisites := ["Uploaded"]

def filing : Client where
  schema := files
  generation := 1
  store := openRow hashes files "files" { row := {
    id := "store", stream := "user", materialization := "m-files", desiredMaterialization := "m-files"
    schemaDescriptor := "d-files", enabledDescriptor := "d-files" } }

def addFile (id : String) : Call :=
  .submit { name := "addFile", version := 1, input := .obj [("file", .obj [("id", .str id), ("key", .str "k")])] }

/-- The task of key `k`. -/
def upload : String := text (.obj [("arguments", .obj [("key", .str "k")]), ("name", .str "Uploaded")])

/-- The upload of the first file fails, the call is dropped or discarded, and a second file needs the same upload. -/
def refiling (cancel : Call) : List (Call × Faults) :=
  [(addFile "a", {}), (.readiness upload (.failed "gone"), {}), (cancel, {}), (addFile "b", {})]

end Notes

open Notes

/-- A dropped call keeps its failed task in `pending_tasks`, though no call waits on it, and the next call that needs the
task starts failed. -/
theorem prerequisites_outlive_drop :
    create platform hashes "store" files "user" "files" = .ok filing ∧
    (¬ ∀ es c, Client.Runs platform hashes filing es c → ∀ key, key ∈ (Engine.prerequisiteKeys c.store).map (·.1) ↔
      ∃ r ∈ c.store.queue, r.Unsent ∧ ∃ p ∈ c.store.prerequisites, p.ordinal = r.id ∧ p.key = key) ∧
    ∃ es c, Client.Runs platform hashes filing es c ∧ ⟨2, upload, some "gone"⟩ ∈ c.store.prerequisites := by
  refine ⟨rfl, fun h => ?_, ?_⟩
  · have hiff := h _ _ (Client.execute_runs platform hashes filing ((refiling (.drop 1)).take 3)) upload
    have htask : upload ∈ (Engine.prerequisiteKeys
        (filing.execute platform hashes ((refiling (.drop 1)).take 3)).2.store).map (·.1) := by decide +kernel
    have hrows : (filing.execute platform hashes ((refiling (.drop 1)).take 3)).2.store.queue.all
        (·.rejectionCode.isSome) = true := by decide +kernel
    obtain ⟨r, hr, hu, -⟩ := hiff.1 htask
    have := List.all_eq_true.1 hrows r hr
    rw [hu.2.2] at this
    cases this
  · exact ⟨_, _, Client.execute_runs platform hashes filing (refiling (.drop 1)), by decide +kernel⟩

/-- With a discard the second file starts the task afresh. -/
theorem prerequisites_mirror_discard :
    ∃ es c, Client.ClearRuns platform hashes filing es c ∧
      (∀ key, key ∈ (Engine.prerequisiteKeys c.store).map (·.1) ↔
        ∃ r ∈ c.store.queue, r.Unsent ∧ ∃ p ∈ c.store.prerequisites, p.ordinal = r.id ∧ p.key = key) ∧
      c.store.prerequisites = [⟨2, upload, none⟩] := by
  have step : ∀ (c : Client) (x : Call), x.Clears c.store →
      Client.ClearRuns platform hashes c [⟨x, {}, (c.call platform hashes {} x).1⟩] (c.call platform hashes {} x).2 :=
    fun c x h => .single ⟨rfl, fun _ => h⟩
  let c₁ := (filing.call platform hashes {} (addFile "a")).2
  let c₂ := (c₁.call platform hashes {} (.readiness upload (.failed "gone"))).2
  let c₃ := (c₂.call platform hashes {} (.discard 1)).2
  let c₄ := (c₃.call platform hashes {} (addFile "b")).2
  have clears : (Call.discard 1).Clears c₂.store := by
    have hnil : c₂.store.dependencies = [] := by decide +kernel
    rintro _ - - - j path
    obtain ⟨_, ⟨d, hd, -⟩, -⟩ := Relation.TransGen.head'_iff.1 path
    rw [hnil] at hd
    cases hd
  have run : Client.ClearRuns platform hashes filing _ c₄ :=
    (((step filing (addFile "a") trivial).append (step c₁ (.readiness upload (.failed "gone")) trivial)).append
      (step c₂ (.discard 1) clears)).append (step c₃ (addFile "b") trivial)
  have created : create platform hashes "store" files "user" "files" = .ok filing := rfl
  exact ⟨_, c₄, run, (prerequisites_mirror created run).1, by decide +kernel⟩

end Axton
