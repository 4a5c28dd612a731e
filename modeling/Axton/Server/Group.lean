import Axton.Server.ExactlyOnce

/-!
# A commit group is its members, one by one

`executeGroup` runs a range of members in one transaction on a copy of the row and saves their results at
its end; `executeMember` runs one member and saves it. On a host whose application is deterministic the
two agree: same results, same row, same saved results, same business effects, and the group commits
exactly when every member would.

The proof is a simulation. Until the first member that is due, both only read. From then on the tables of
the member path are those of the group with the pending results inserted and the copy as the row
(`Ahead`).
-/

namespace Axton

namespace Server

/-! ## Deterministic applications -/

/-- An application whose answers are functions of the call and of the business effects so far. -/
structure App where
  admission : String → RequestContext → List Member → Bool
  handle : Member → Mutation → Json → List Member → Handled
  settle : Member → Mutation → Json → List Member → Settled

namespace App

/-- The one answer to a call. -/
def answer (app : App) (t : Tables) : Op → Ans
  | .claimStore principal stream => .store (t.store.getD { principal, stream })
  | .admission owner context => .allowed (app.admission owner context t.effects)
  | .readResult batchId ordinal => .result (t.results.get (batchId, ordinal))
  | .handleAction batchId ordinal m args => .handled (app.handle (batchId, ordinal) m args t.effects)
  | .settleChanges batchId ordinal m args => .settled (app.settle (batchId, ordinal) m args t.effects)
  | _ => .acknowledged

def host (app : App) (op : Op) (d : Database) : Option (Ans × Database) :=
  (Host.answer op d (app.answer d.tables op)).map fun d' => (app.answer d.tables op, d')

end App

section
variable (P : Platform) (H : Hashes) (config : Config) (app : App)

/-- `execute` for ordinals `start, …, start + count - 1`, each in its own committed transaction. -/
def executeMembers (owner : String) (q : MutationRequest) : Nat → Nat → Database → Option (List MutationResult × Database)
  | _, 0, d => some ([], d)
  | ordinal, count + 1, d =>
    ((executeMember P H config owner q ordinal).eval app.host d).bind fun e =>
      (executeMembers owner q (ordinal + 1) count e.2).map fun rest => (e.1 ++ rest.1, rest.2)

/-! ## One member on a deterministic host -/

/-- The outcome a handler's answer leads to. -/
def App.settled (q : MutationRequest) (ordinal : Nat) (m : Mutation) (args : Json) (effects : List Member) :
    Option MutationOutcome :=
  ((Ans.settled (app.settle (q.batchId, ordinal) m args effects)).settled?).bind fun
    | .accepted syncCursor result positions rows =>
      (acceptMember P H config q m args syncCursor result positions rows).toOption
    | .refused code => some (.rejected code none)
    | .failed _ => none

/-- The outcome of a member, from the effects it finds. -/
def App.outcome (q : MutationRequest) (ordinal : Nat) (m : Mutation) (effects : List Member) :
    Option Json → Option MutationOutcome
  | none => some (.rejected "mutation_version_unsupported" none)
  | some args => ((Ans.handled (app.handle (q.batchId, ordinal) m args effects)).handled?).bind fun
    | .rejected code => some (.rejected code none)
    | .failed _ => none
    | .settled => app.settled P H config q ordinal m args (effects ++ [(q.batchId, ordinal)])

variable {P H config app}
variable {q : MutationRequest} {owner : String}

theorem eval_refuseMember {ordinal : Nat} {code : String} {t u : Tables} {savepoints : Table Nat Tables}
    (h : savepoints.get (ordinal + 1) = some u) :
    (refuseMember ordinal code).eval app.host ⟨t, savepoints⟩ = some (.rejected code none, ⟨u, savepoints⟩) := by
  simp [refuseMember, App.host, App.answer, Host.answer, Database.with, h, Ans.acknowledged?]

theorem acceptMember_ok {m : Mutation} {args result : Json} {syncCursor : Nat}
    {positions : List (Option MemberPosition)} {rows : List (Option Json)} {o : MutationOutcome}
    (h : acceptMember P H config q m args syncCursor result positions rows = .ok o) :
    ∃ checked targets, o = .accepted syncCursor checked targets := by
  simp only [acceptMember, bind_ok, pure_ok] at h
  obtain ⟨_, _, _, _, _, _, targets, _, checked, _, rfl⟩ := h
  exact ⟨checked, targets, rfl⟩

/-- **A member's outcome depends only on the effects it finds**, and it leaves its own. -/
theorem eval_memberOutcome (ordinal : Nat) (m : Mutation) (args : Option Json) (t : Tables)
    (savepoints : Table Nat Tables) : ∃ savepoints',
      (memberOutcome P H config q ordinal m args).eval app.host ⟨t, savepoints⟩ =
        (app.outcome P H config q ordinal m t.effects args).map fun o =>
          (o, ⟨t.affected (effectsOf ((q.batchId, ordinal), ⟨m.id, o⟩)), savepoints'⟩) := by
  cases args with
  | none => exact ⟨savepoints, by simp [memberOutcome, App.outcome, effectsOf, Tables.affected]⟩
  | some args =>
    refine ⟨(savepoints.set (ordinal + 1) t).erase (ordinal + 1), ?_⟩
    have hget : (savepoints.set (ordinal + 1) t).get (ordinal + 1) = some t := Table.get_set_self _ _ _
    simp only [memberOutcome, handleMember, App.outcome, Prog.eval_bind, Prog.eval_expect, App.host, App.answer,
      Host.answer, Option.map_some, Option.bind_some, Ans.acknowledged?]
    cases hh : (Ans.handled (app.handle (q.batchId, ordinal) m args t.effects)).handled? with
    | none => rfl
    | some handled =>
      cases handled with
      | rejected code =>
        simp [settleMember, eval_refuseMember hget, effectsOf, Tables.affected]
      | failed e => simp [settleMember]
      | settled =>
        simp only [settleMember, App.settled, Prog.eval_bind, Prog.eval_expect, App.host, App.answer, Host.answer,
          Option.map_some, Option.bind_some]
        cases hs : (Ans.settled (app.settle (q.batchId, ordinal) m args (t.effects ++ [(q.batchId, ordinal)]))).settled? with
        | none => rfl
        | some settled =>
          cases settled with
          | accepted syncCursor result positions rows =>
            cases hacc : acceptMember P H config q m args syncCursor result positions rows with
            | error e => simp [hacc, Except.toOption]
            | ok o =>
              obtain ⟨checked, targets, rfl⟩ := acceptMember_ok hacc
              simp [hacc, Except.toOption, effectsOf, Tables.affected]
          | refused code => simp [eval_refuseMember hget, effectsOf, Tables.affected]
          | failed e => simp

theorem eval_claim (t : Tables) (savepoints : Table Nat Tables) :
    (claim owner q).eval app.host ⟨t, savepoints⟩ =
      if nonblank owner then
        some (t.store.getD { principal := owner, stream := q.context.stream },
          ⟨t.claimed owner q.context.stream, savepoints⟩)
      else none := by
  unfold claim
  split
  · simp [App.host, App.answer, Host.answer, Ans.store?, Tables.claimed]
  · rfl

/-- The checks of `execute_claimed` before the member is looked at. -/
def App.gate (H : Hashes) (config : Config) (app : App) (owner : String) (q : MutationRequest)
    (s : Store) (effects : List Member) : Option Bool :=
  if s.principal = owner && s.stream = q.context.stream then
    (models H config q.context.materialization).toOption.bind fun _ =>
      if app.admission owner q.context effects then (s.admitBatch q).toOption else none
  else none

theorem eval_executeClaimed {ordinal : Nat} {m : Mutation} (hm : q.mutations[ordinal]? = some m) (persist : Bool)
    (s : Store) (t : Tables) (savepoints : Table Nat Tables) :
    (executeClaimed P H config owner q ordinal persist s).eval app.host ⟨t, savepoints⟩ =
      (app.gate H config owner q s t.effects).bind fun completed =>
        if completed || decide (ordinal < s.progress) then
          (t.results.get (q.batchId, ordinal)).bind fun r =>
            if r.mutationId = m.id then some ((r, s), ⟨t, savepoints⟩) else none
        else if ordinal = s.progress then
          (runMember P H config q ordinal m persist s).eval app.host ⟨t, savepoints⟩
        else none := by
  simp only [executeClaimed, hm, Prog.eval_bind, Prog.eval_lift, Prog.eval_expect, App.host, App.answer, Host.answer,
    Option.map_some, Option.bind_some, Ans.allowed?, App.gate, check]
  by_cases hbind : (decide (s.principal = owner) && decide (s.stream = q.context.stream)) = true
  · simp only [hbind, if_true, Except.toOption, Option.map_some, Option.bind_some]
    cases models H config q.context.materialization with
    | error e => rfl
    | ok versions =>
      simp only [Option.map_some, Option.bind_some]
      by_cases hallowed : app.admission owner q.context t.effects = true
      · simp only [hallowed, if_true, Option.map_some, Option.bind_some]
        cases s.admitBatch q with
        | error e => rfl
        | ok completed =>
          simp only [Option.map_some, Option.bind_some]
          by_cases hsaved : (completed || decide (ordinal < s.progress)) = true
          · simp only [hsaved, if_true, replayMember, Prog.eval_bind, Prog.eval_expect, App.host, App.answer, Host.answer,
              Option.map_some, Option.bind_some, Ans.result?]
            cases t.results.get (q.batchId, ordinal) with
            | none => rfl
            | some r => by_cases hid : r.mutationId = m.id <;> simp [hid, check, Except.toOption]
          · rw [if_neg hsaved, if_neg hsaved, Prog.eval_bind, Prog.eval_lift]
            by_cases hdue : ordinal = s.progress <;> simp [hdue, Except.toOption]
      · simp [hallowed]
  · simp [hbind, Except.toOption]

/-- The tables once the member's batch has begun, when it may begin. -/
def Tables.startBatch (t : Tables) (q : MutationRequest) (s : Store) : Option Tables :=
  if s.currentDigest.isNone then t.beginBatch q.batchId q.digest q.mutations.length else some t

theorem eval_beginIfNew (s : Store) (t : Tables) (savepoints : Table Nat Tables) :
    (beginIfNew q s).eval app.host ⟨t, savepoints⟩ = (t.startBatch q s).map fun t' => (s.begun q, ⟨t', savepoints⟩) := by
  unfold beginIfNew Tables.startBatch Store.begun
  split
  · simp only [Prog.eval_bind, Prog.eval_expect, App.host, App.answer, Host.answer, Database.with]
    cases t.beginBatch q.batchId q.digest q.mutations.length <;> simp [Ans.acknowledged?]
  · rfl

/-- The result of a member that is due. -/
def App.result (P : Platform) (H : Hashes) (config : Config) (app : App) (q : MutationRequest) (ordinal : Nat)
    (m : Mutation) (effects : List Member) : Option MutationResult :=
  (validateMember P config m).toOption.bind fun args =>
    (app.outcome P H config q ordinal m effects args).map fun o => ⟨m.id, o⟩

/-- The result of a member that is due, and the tables with its effects. -/
def App.due (P : Platform) (H : Hashes) (config : Config) (app : App) (q : MutationRequest) (ordinal : Nat)
    (m : Mutation) (s : Store) (t : Tables) : Option (MutationResult × Tables) :=
  (t.startBatch q s).bind fun t' =>
    (app.result P H config q ordinal m t.effects).map fun r =>
      (r, t'.affected (effectsOf ((q.batchId, ordinal), r)))

theorem startBatch_effects {s : Store} {t t' : Tables} (h : t.startBatch q s = some t') : t'.effects = t.effects := by
  unfold Tables.startBatch Tables.beginBatch at h
  split at h
  · split at h
    · cases h
    · split at h
      · cases h
        rfl
      · cases h
  · cases h
    rfl

/-- Executing a member that is due, with and without saving it. -/
theorem eval_runMember (ordinal : Nat) (m : Mutation) (persist : Bool) (s : Store) (t : Tables)
    (savepoints : Table Nat Tables) : ∃ savepoints',
      (runMember P H config q ordinal m persist s).eval app.host ⟨t, savepoints⟩ =
        (app.due P H config q ordinal m s t).bind fun e =>
          (if persist then e.2.saveResult q.batchId ordinal q.mutations.length e.1 else some e.2).map fun t' =>
            ((e.1, (s.begun q).advance q.batchId (ordinal + 1) q.mutations.length), ⟨t', savepoints'⟩) := by
  simp only [runMember, Prog.eval_bind, eval_beginIfNew, App.due, App.result]
  cases hstart : t.startBatch q s with
  | none => exact ⟨savepoints, rfl⟩
  | some t' =>
    simp only [Option.map_some, Option.bind_some, Prog.eval_lift]
    cases hargs : validateMember P config m with
    | error e => exact ⟨savepoints, rfl⟩
    | ok args =>
      obtain ⟨savepoints', houtcome⟩ := @eval_memberOutcome P H config app q ordinal m args t' savepoints
      refine ⟨savepoints', ?_⟩
      simp only [Except.toOption, Option.map_some, Option.bind_some, houtcome, startBatch_effects hstart]
      cases hout : app.outcome P H config q ordinal m t.effects args with
      | none => rfl
      | some o =>
        cases persist with
        | false => simp [saveMember]
        | true =>
          simp only [saveMember, Option.map_some, Option.bind_some, if_true, Prog.eval_bind, Prog.eval_expect, App.host,
            App.answer, Host.answer, Database.with]
          cases (t'.affected (effectsOf ((q.batchId, ordinal), ⟨m.id, o⟩))).saveResult q.batchId ordinal
            q.mutations.length ⟨m.id, o⟩ <;> simp [Ans.acknowledged?]

/-! ## Inserting results -/

/-- An insertion looks at the results only. -/
theorem insertResult_frame (t : Tables) (x : Option Store) (effects : List Member) (e : Member × MutationResult) :
    ({ t with store := x, effects := effects } : Tables).insertResult e =
      (t.insertResult e).map fun t' => { t' with store := x, effects := effects } := by
  unfold Tables.insertResult
  simp only
  split <;> rfl

theorem insertAll_frame (rows : Table Member MutationResult) (t : Tables) (x : Option Store) (effects : List Member) :
    rows.foldlM Tables.insertResult ({ t with store := x, effects := effects } : Tables) =
      (rows.foldlM Tables.insertResult t).map fun t' => { t' with store := x, effects := effects } := by
  induction rows generalizing t with
  | nil => rfl
  | cons e rows ih =>
    simp only [List.foldlM_cons, Option.bind_eq_bind, insertResult_frame]
    cases t.insertResult e with
    | none => rfl
    | some t' => exact ih t'

/-- The pending results of a group, inserted. -/
def Tables.inserted (t : Tables) (q : MutationRequest) (first : Nat) (pending : List MutationResult) : Option Tables :=
  (Tables.suffix q.batchId first pending).foldlM Tables.insertResult t

theorem inserted_append (t : Tables) (first : Nat) (pending : List MutationResult) (r : MutationResult) :
    t.inserted q first (pending ++ [r]) =
      (t.inserted q first pending).bind fun t' => t'.insertResult ((q.batchId, first + pending.length), r) := by
  unfold Tables.inserted
  rw [suffix_append, List.foldlM_append]
  simp

theorem inserted_frame (t : Tables) (x : Option Store) (effects : List Member) (first : Nat) (pending : List MutationResult) :
    ({ t with store := x, effects := effects } : Tables).inserted q first pending =
      (t.inserted q first pending).map fun t' => { t' with store := x, effects := effects } :=
  insertAll_frame _ t x effects

theorem inserted_effects {t t' : Tables} {first : Nat} {pending : List MutationResult}
    (h : t.inserted q first pending = some t') : t'.effects = t.effects := by
  rw [insertResults_eq h]

theorem inserted_store (t : Tables) (x : Option Store) (first : Nat) (pending : List MutationResult) :
    ({ t with store := x } : Tables).inserted q first pending =
      (t.inserted q first pending).map fun t' => { t' with store := x } := by
  have hframe : ({ t with store := x } : Tables).inserted q first pending =
      (t.inserted q first pending).map fun t' => { t' with store := x, effects := t.effects } :=
    inserted_frame t x t.effects first pending
  rw [hframe]
  cases hins : t.inserted q first pending with
  | none => rfl
  | some t' =>
    rw [← inserted_effects hins]
    rfl

/-! ## The simulation -/

/-- The end of `process_batch_group` (protocol_v05.rs:190-195). -/
def finishGroup (q : MutationRequest) (g : Group) : Program (List MutationResult) :=
  match g.first with
  | none => return g.results
  | some ordinal => do
    Prog.expect (.saveResults q.batchId ordinal q.mutations.length q.digest g.pending) Ans.acknowledged?
    return g.results

/-- The loop state after a member. -/
def Group.push (g : Group) (ordinal : Nat) (fresh : Bool) (e : MutationResult × Store) : Group :=
  if fresh then
    { store := e.2, results := g.results ++ [e.1], pending := g.pending ++ [e.1], first := g.first.orElse fun _ => some ordinal }
  else { g with store := e.2, results := g.results ++ [e.1] }

theorem eval_groupMember (g : Group) (ordinal : Nat) (d : Database) :
    (groupMember P H config owner q g ordinal).eval app.host d =
      ((executeClaimed P H config owner q ordinal false g.store).eval app.host d).map fun e =>
        (g.push ordinal (!g.store.saved q ordinal) e.1, e.2) := by
  simp only [groupMember, Prog.eval_bind]
  cases (executeClaimed P H config owner q ordinal false g.store).eval app.host d <;> rfl

/-- The request and its sender pass the checks both paths begin with. -/
structure Pushed (P : Platform) (config : Config) (owner : String) (q : MutationRequest) : Prop where
  valid : q.validate = .ok ()
  members : (q.mutations.forM fun m => do let _ ← validateMember P config m) = .ok ()
  owner : nonblank owner = true

theorem claimed_of_row {t : Tables} {s : Store} (h : t.store = some s) (principal stream : String) :
    t.claimed principal stream = t := by
  unfold Tables.claimed
  rw [h, Option.getD_some, ← h]

/-- A member call on tables with a row. -/
theorem eval_executeMember {ordinal : Nat} {t : Tables} {s : Store} (hp : Pushed P config owner q)
    (hlt : ordinal < q.mutations.length) (hs : t.store = some s) (savepoints : Table Nat Tables) :
    (executeMember P H config owner q ordinal).eval app.host ⟨t, savepoints⟩ =
      ((executeClaimed P H config owner q ordinal true s).eval app.host ⟨t, savepoints⟩).map fun e => ([e.1.1], e.2) := by
  simp only [executeMember, Prog.eval_bind, Prog.eval_lift, hp.valid, hp.members, eval_claim, hp.owner, hs,
    claimed_of_row hs, check, hlt, decide_true, if_true, Except.toOption, Option.map_some, Option.bind_some,
    Option.getD_some]
  cases (executeClaimed P H config owner q ordinal true s).eval app.host ⟨t, savepoints⟩ <;> rfl

/-- A group that runs the suffix from the row's progress, before ordinal `i`. -/
structure Running (q : MutationRequest) (s₀ : Store) (i : Nat) (g : Group) (u : Tables) : Prop where
  first : g.first = some s₀.progress
  next : Next s₀ q
  position : s₀.progress + g.pending.length = i
  nonempty : g.pending ≠ []
  copy : g.store = (s₀.begun q).advance q.batchId i q.mutations.length
  row : u.store = some (s₀.begun q)

namespace Running

variable {s₀ : Store} {i : Nat} {g : Group} {u : Tables}

/-- While members are left, the copy stands at the next one. -/
theorem copy_eq (h : Running q s₀ i g u) (hi : i < q.mutations.length) : g.store = { s₀.begun q with progress := i } := by
  rw [h.copy]
  unfold Store.advance
  rw [if_neg (by omega)]

theorem digest (h : Running q s₀ i g u) (hi : i < q.mutations.length) : g.store.currentDigest = some q.digest := by
  rw [h.copy_eq hi]
  exact h.next.begun_digest.1

theorem not_saved (h : Running q s₀ i g u) (hi : i < q.mutations.length) : g.store.saved q i = false := by
  have := h.next.batch
  unfold Store.saved
  rw [h.copy_eq hi]
  simp only [begun_last, lt_irrefl, decide_false, Bool.or_false, decide_eq_false_iff_not]
  omega

/-- The next member is due. -/
theorem not_completed (h : Running q s₀ i g u) (hi : i < q.mutations.length) {effects : List Member} {completed : Bool}
    (hgate : app.gate H config owner q g.store effects = some completed) : completed = false := by
  have := h.next.batch
  unfold App.gate at hgate
  split at hgate
  · simp only [Option.bind_eq_some_iff] at hgate
    obtain ⟨_, _, hgate⟩ := hgate
    split at hgate
    · cases hallow : g.store.admitBatch q with
      | error e => simp [hallow, Except.toOption] at hgate
      | ok c =>
        simp only [hallow, Except.toOption, Option.some.injEq] at hgate
        subst hgate
        rcases admitBatch_cases hallow with ⟨-, hb, -⟩ | ⟨hc, -⟩
        · rw [h.copy_eq hi] at hb
          simp only [begun_last] at hb
          omega
        · exact hc
    · cases hgate
  · cases hgate

end Running

/-- A saved member: its result is inserted behind the row's progress. -/
theorem saveResult_eq {t : Tables} {s : Store} {ordinal : Nat} {r : MutationResult} (hs : t.store = some s)
    (hbatch : s.lastProcessedBatchId + 1 = q.batchId) (hprogress : s.progress = ordinal)
    (hcount : s.currentCount = some q.mutations.length) :
    t.saveResult q.batchId ordinal q.mutations.length r =
      (t.insertResult ((q.batchId, ordinal), r)).map fun t' =>
        { t' with store := some (s.advance q.batchId (ordinal + 1) q.mutations.length) } := by
  unfold Tables.saveResult
  rw [hs]
  simp only
  rw [if_pos ⟨hbatch, hprogress, hcount⟩]
  unfold Tables.insertResults Tables.suffix Tables.insertResult
  simp only [List.zipIdx_cons, List.zipIdx_nil, List.map_cons, List.map_nil, List.foldlM_cons, List.foldlM_nil,
    Nat.add_zero, List.length_singleton]
  split <;> rfl

/-- The result of the next member of a running group. -/
def App.step (P : Platform) (H : Hashes) (config : Config) (app : App) (owner : String) (q : MutationRequest)
    (ordinal : Nat) (m : Mutation) (s : Store) (effects : List Member) : Option MutationResult :=
  (app.gate H config owner q s effects).bind fun _ => app.result P H config q ordinal m effects

namespace Running

variable {s₀ : Store} {i : Nat} {g : Group} {u : Tables} {m : Mutation}

/-- Executing the next member, with and without saving it. -/
theorem eval_executeClaimed (hr : Running q s₀ i g u) (hm : q.mutations[i]? = some m) (persist : Bool) (t : Tables)
    (savepoints : Table Nat Tables) : ∃ savepoints',
      (executeClaimed P H config owner q i persist g.store).eval app.host ⟨t, savepoints⟩ =
        (app.step P H config owner q i m g.store t.effects).bind fun r =>
          (if persist then (t.affected (effectsOf ((q.batchId, i), r))).saveResult q.batchId i q.mutations.length r
            else some (t.affected (effectsOf ((q.batchId, i), r)))).map fun t' =>
            ((r, g.store.advance q.batchId (i + 1) q.mutations.length), ⟨t', savepoints'⟩) := by
  have hi : i < q.mutations.length := (List.getElem?_eq_some_iff.1 hm).1
  have hbegun : g.store.begun q = g.store := by
    unfold Store.begun
    rw [hr.digest hi]
    rfl
  have hprogress : g.store.progress = i := by rw [hr.copy_eq hi]
  obtain ⟨savepoints', hrun⟩ := @eval_runMember P H config app q i m persist g.store t savepoints
  refine ⟨savepoints', ?_⟩
  rw [Server.eval_executeClaimed hm, App.step]
  cases hgate : app.gate H config owner q g.store t.effects with
  | none => rfl
  | some completed =>
    rw [hr.not_completed hi hgate, hbegun] at *
    simp only [Option.bind_some, hprogress, Bool.false_or, lt_irrefl, decide_false, Bool.false_eq_true, if_false, if_true,
      hrun, App.due, Tables.startBatch, hr.digest hi, Option.isNone_some]
    cases app.result P H config q i m t.effects <;> rfl

end Running

/-- **From the first member that is due** the group runs ahead of the saved results: inserting what is
pending gives the tables of the member path. -/
theorem running_agrees (hp : Pushed P config owner q) {s₀ : Store} : ∀ (n : Nat) {i : Nat} {g : Group} {u : Tables}
    (savepoints savepoints' : Table Nat Tables), Running q s₀ i g u → i + n ≤ q.mutations.length →
    g.pending.length + n ≤ 32 →
    (((List.range' i n).foldlM (groupMember P H config owner q) g >>= finishGroup q).eval app.host ⟨u, savepoints⟩).map
        (fun e => (e.1, e.2.tables)) =
      (u.inserted q s₀.progress g.pending).bind fun t =>
        (executeMembers P H config app owner q i n ⟨{ t with store := some g.store }, savepoints'⟩).map
          fun e => (g.results ++ e.1, e.2.tables)
  | 0, i, g, u, savepoints, savepoints', hr, hlen, hcap => by
    -- the suffix is saved
    have hposition := hr.position
    have hne : 0 < g.pending.length := List.length_pos_iff.2 hr.nonempty
    have hdigest := hr.next.begun_digest
    have hguard : g.pending ≠ [] ∧ g.pending.length ≤ 32 ∧ s₀.progress + g.pending.length ≤ q.mutations.length ∧
        (s₀.begun q).lastProcessedBatchId + 1 = q.batchId ∧ (s₀.begun q).progress = s₀.progress ∧
        (s₀.begun q).currentCount = some q.mutations.length ∧ (s₀.begun q).currentDigest = some q.digest := by
      refine ⟨hr.nonempty, by omega, by omega, ?_, begun_progress s₀, hdigest.2, hdigest.1⟩
      rw [begun_last, hr.next.batch]
    have hsave : u.saveResults q.batchId s₀.progress q.mutations.length q.digest g.pending =
        (u.inserted q s₀.progress g.pending).map fun t => { t with store := some g.store } := by
      unfold Tables.saveResults
      rw [hr.row]
      simp only
      rw [if_pos hguard, hr.copy, ← hposition]
      exact inserted_store u _ _ _
    simp only [List.range'_zero, List.foldlM_nil, Prog.eval_bind, Prog.eval_pure, Option.bind_some, finishGroup, hr.first,
      Prog.eval_expect, App.host, App.answer, Host.answer, Database.with, hsave, executeMembers]
    cases u.inserted q s₀.progress g.pending <;> simp [Ans.acknowledged?]
  | n + 1, i, g, u, savepoints, savepoints', hr, hlen, hcap => by
    have hi : i < q.mutations.length := by omega
    obtain ⟨m, hm⟩ : ∃ m, q.mutations[i]? = some m := ⟨_, List.getElem?_eq_getElem hi⟩
    have hposition := hr.position
    have hadvance : g.store.advance q.batchId (i + 1) q.mutations.length =
        (s₀.begun q).advance q.batchId (i + 1) q.mutations.length := by
      rw [hr.copy_eq hi, advance_progress]
    obtain ⟨after, hgroup⟩ := @Running.eval_executeClaimed P H config app q owner s₀ i g u m hr hm false u savepoints
    -- a member call on the tables with the pending results inserted
    have hmember : ∀ {t : Tables}, u.inserted q s₀.progress g.pending = some t → ∃ after',
        (executeMember P H config owner q i).eval app.host ⟨{ t with store := some g.store }, savepoints'⟩ =
          (app.step P H config owner q i m g.store u.effects).bind fun r =>
            (t.insertResult ((q.batchId, i), r)).map fun t' => ([r],
              ⟨{ t' with
                store := some (g.store.advance q.batchId (i + 1) q.mutations.length)
                effects := u.effects ++ effectsOf ((q.batchId, i), r) }, after'⟩) := by
      intro t ht
      obtain ⟨after', hclaimed⟩ := @Running.eval_executeClaimed P H config app q owner s₀ i g u m hr hm true
        { t with store := some g.store } savepoints'
      refine ⟨after', ?_⟩
      have heffects : t.effects = u.effects := inserted_effects ht
      rw [eval_executeMember hp hi rfl, hclaimed]
      simp only [heffects]
      cases app.step P H config owner q i m g.store u.effects with
      | none => rfl
      | some r =>
        have hcopy := hr.copy_eq hi
        have hsave := @saveResult_eq q (({ t with store := some g.store } : Tables).affected
          (effectsOf ((q.batchId, i), r))) g.store i r rfl
          (by rw [hcopy]; simp only [begun_last]; exact hr.next.batch.symm) (by rw [hcopy])
          (by rw [hcopy]; exact hr.next.begun_digest.2)
        have hframe : (({ t with store := some g.store } : Tables).affected (effectsOf ((q.batchId, i), r))).insertResult
            ((q.batchId, i), r) = (t.insertResult ((q.batchId, i), r)).map fun t' => { t' with
              store := some g.store
              effects := t.effects ++ effectsOf ((q.batchId, i), r) } := insertResult_frame t _ _ _
        simp only [heffects] at hsave hframe
        simp only [Option.bind_some, if_true, hsave, hframe]
        cases t.insertResult ((q.batchId, i), r) <;> rfl
    simp only [List.range'_succ, List.foldlM_cons, executeMembers, Prog.eval_bind, eval_groupMember, hgroup,
      hr.not_saved hi, Bool.not_false]
    cases hstep : app.step P H config owner q i m g.store u.effects with
    | none =>
      cases hins : u.inserted q s₀.progress g.pending with
      | none => rfl
      | some t =>
        obtain ⟨after', hexec⟩ := hmember hins
        rw [hstep] at hexec
        simp only [Option.bind_some, hexec]
        rfl
    | some r =>
      have hr' : Running q s₀ (i + 1) (g.push i true (r, g.store.advance q.batchId (i + 1) q.mutations.length))
          (u.affected (effectsOf ((q.batchId, i), r))) := by
        refine ⟨?_, hr.next, ?_, ?_, hadvance, hr.row⟩
        · simp [Group.push, hr.first]
        · simp only [Group.push, if_true, List.length_append, List.length_singleton]
          omega
        · simp [Group.push]
      have hpending : (g.push i true (r, g.store.advance q.batchId (i + 1) q.mutations.length)).pending =
          g.pending ++ [r] := rfl
      have hframe : (u.affected (effectsOf ((q.batchId, i), r))).inserted q s₀.progress g.pending =
          (u.inserted q s₀.progress g.pending).map fun t => { t with
            store := u.store
            effects := u.effects ++ effectsOf ((q.batchId, i), r) } := inserted_frame u _ _ _ _
      cases hins : u.inserted q s₀.progress g.pending with
      | none =>
        have ih := running_agrees hp n after [] hr' (by omega) (by rw [hpending]; simp; omega)
        rw [hpending, inserted_append, hframe, hins] at ih
        simpa [Prog.eval_bind] using ih
      | some t =>
        obtain ⟨after', hexec⟩ := hmember hins
        have ih := running_agrees hp n after after' hr' (by omega) (by rw [hpending]; simp; omega)
        rw [hpending, inserted_append, hframe, hins] at ih
        rw [hstep] at hexec
        simp only [Option.bind_some, Option.map_some, Prog.eval_bind, hexec, Bool.false_eq_true, if_false] at ih ⊢
        rw [ih, hposition, insertResult_frame]
        cases t.insertResult ((q.batchId, i), r) with
        | none => rfl
        | some t' =>
          simp only [Option.map_some, Option.bind_some, Group.push, if_true, Option.map_map]
          congr 1
          funext e
          simp

theorem gate_admits {s : Store} {effects : List Member} {completed : Bool}
    (h : app.gate H config owner q s effects = some completed) : s.admitBatch q = .ok completed := by
  unfold App.gate at h
  split at h
  · simp only [Option.bind_eq_some_iff] at h
    obtain ⟨_, _, h⟩ := h
    split at h
    · cases hallow : s.admitBatch q with
      | error e => simp [hallow, Except.toOption] at h
      | ok c =>
        simp only [hallow, Except.toOption, Option.some.injEq] at h
        rw [h]
    · cases h
  · cases h

theorem startBatch_store {s : Store} {t t' : Tables} (hs : t.store = some s) (h : t.startBatch q s = some t') :
    t'.store = some (s.begun q) := by
  unfold Tables.startBatch at h
  unfold Store.begun
  split at h
  · rename_i hnone
    simp only [Tables.beginBatch, hs] at h
    split at h
    · cases h
      simp [hnone]
    · cases h
  · rename_i hsome
    cases h
    simp [hsome, hs]

theorem inserted_single (t : Tables) (first : Nat) (r : MutationResult) :
    t.inserted q first [r] = t.insertResult ((q.batchId, first), r) := by
  simp [Tables.inserted, Tables.suffix]

/-- **Until the first member that is due** both paths read the same results. -/
theorem reading_agrees (hp : Pushed P config owner q) {t : Tables} : ∀ (n : Nat) {i : Nat} {g : Group}
    (savepoints savepoints' : Table Nat Tables), t.store = some g.store → g.pending = [] → g.first = none →
    i + n ≤ q.mutations.length → n ≤ 32 →
    (((List.range' i n).foldlM (groupMember P H config owner q) g >>= finishGroup q).eval app.host ⟨t, savepoints⟩).map
        (fun e => (e.1, e.2.tables)) =
      (executeMembers P H config app owner q i n ⟨t, savepoints'⟩).map fun e => (g.results ++ e.1, e.2.tables)
  | 0, i, g, savepoints, savepoints', hs, hpending, hfirst, hlen, hcap => by
    simp [executeMembers, finishGroup, hfirst]
  | n + 1, i, g, savepoints, savepoints', hs, hpending, hfirst, hlen, hcap => by
    have hi : i < q.mutations.length := by omega
    obtain ⟨m, hm⟩ : ∃ m, q.mutations[i]? = some m := ⟨_, List.getElem?_eq_getElem hi⟩
    obtain ⟨after, hgroup⟩ := @eval_runMember P H config app q i m false g.store t savepoints
    obtain ⟨after', hmember⟩ := @eval_runMember P H config app q i m true g.store t savepoints'
    simp only [List.range'_succ, List.foldlM_cons, executeMembers, Prog.eval_bind, eval_groupMember,
      eval_executeMember hp hi hs, eval_executeClaimed hm]
    cases hgate : app.gate H config owner q g.store t.effects with
    | none => rfl
    | some completed =>
      have hallow := gate_admits hgate
      have hsaved : (completed || decide (i < g.store.progress)) = g.store.saved q i := by
        unfold Store.saved
        rcases admitBatch_cases hallow with ⟨rfl, hb, -⟩ | ⟨rfl, hb, -⟩ <;> simp [hb]
      simp only [Option.bind_some, hsaved]
      cases hcase : g.store.saved q i with
      | true =>
        simp only [if_true]
        cases hread : t.results.get (q.batchId, i) with
        | none => rfl
        | some r =>
          by_cases hid : r.mutationId = m.id
          · have ih := @reading_agrees hp t n (i + 1) (g.push i false (r, g.store)) savepoints savepoints' hs hpending
              hfirst (by omega) (by omega)
            simp only [Prog.eval_bind] at ih
            simp only [hid, if_true, Option.bind_some, Option.map_some, Bool.not_true]
            rw [ih]
            simp only [Group.push, Bool.false_eq_true, if_false, Option.map_map]
            congr 1
            funext e
            simp
          · simp [hid]
      | false =>
        simp only [Bool.false_eq_true, if_false, Bool.not_false]
        by_cases hdue : i = g.store.progress
        · simp only [← hdue, if_true, hgroup, hmember, App.due]
          cases hstart : t.startBatch q g.store with
          | none => rfl
          | some t' =>
            cases hresult : app.result P H config q i m t.effects with
            | none => rfl
            | some r =>
              obtain ⟨-, hb, -⟩ | ⟨-, -, hnext⟩ := admitBatch_cases hallow
              · simp [Store.saved, hb] at hcase
              have hrow : t'.store = some (g.store.begun q) := startBatch_store hs hstart
              have hr : Running q g.store (i + 1) (g.push i true
                  (r, (g.store.begun q).advance q.batchId (i + 1) q.mutations.length))
                  (t'.affected (effectsOf ((q.batchId, i), r))) := by
                refine ⟨?_, hnext, ?_, ?_, rfl, hrow⟩
                · simp [Group.push, hfirst, hdue]
                · simp [Group.push, hpending, hdue]
                · simp [Group.push]
              have hpush : (g.push i true (r, (g.store.begun q).advance q.batchId (i + 1) q.mutations.length)).pending =
                  [r] := by simp [Group.push, hpending]
              have ih := @running_agrees P H config app q owner hp g.store n _ _ _ after after' hr (by omega)
                (by rw [hpush]; simp; omega)
              have hsave := @saveResult_eq q (t'.affected (effectsOf ((q.batchId, i), r))) (g.store.begun q) i r hrow
                (by rw [begun_last]; exact hnext.batch.symm) (by rw [begun_progress, hdue]) hnext.begun_digest.2
              rw [hpush, inserted_single, ← hdue] at ih
              simp only [Prog.eval_bind] at ih
              simp only [Option.map_some, Option.bind_some, Bool.false_eq_true, if_false, hsave, ih]
              cases (t'.affected (effectsOf ((q.batchId, i), r))).insertResult ((q.batchId, i), r) with
              | none => rfl
              | some t'' =>
                simp only [Option.map_some, Option.bind_some, Group.push, if_true, Option.map_map]
                congr 1
                funext e
                simp
        · simp [hdue]

/-- Claiming the row first changes nothing for a member call. -/
theorem eval_executeMember_claimed (ordinal : Nat) (t : Tables) (savepoints : Table Nat Tables) :
    (executeMember P H config owner q ordinal).eval app.host ⟨t.claimed owner q.context.stream, savepoints⟩ =
      (executeMember P H config owner q ordinal).eval app.host ⟨t, savepoints⟩ := by
  simp only [executeMember, Prog.eval_bind, Prog.eval_lift, Option.bind_map, Function.comp_def, eval_claim]
  rfl

theorem eval_executeGroup {start count : Nat} (hrange : count ≠ 0 ∧ count ≤ 32 ∧ start + count ≤ q.mutations.length)
    (hp : Pushed P config owner q) (t : Tables) (savepoints : Table Nat Tables) :
    (executeGroup P H config owner q start count).eval app.host ⟨t, savepoints⟩ =
      ((List.range' start count).foldlM (groupMember P H config owner q)
        { store := t.store.getD { principal := owner, stream := q.context.stream } } >>= finishGroup q).eval app.host
        ⟨t.claimed owner q.context.stream, savepoints⟩ := by
  have hcheck : (decide (count ≠ 0) && decide (count ≤ 32) && decide (start + count ≤ q.mutations.length)) = true := by
    simp [hrange]
  simp only [executeGroup, Prog.eval_bind, Prog.eval_lift, hp.valid, hp.members, eval_claim, hp.owner, check, hcheck,
    if_true, Except.toOption, Option.map_some, Option.bind_some]
  rfl

/-- Without the checks both paths begin with, nothing is executed. -/
theorem eval_unpushed {start count : Nat} (hp : ¬ Pushed P config owner q) (d : Database) :
    (executeGroup P H config owner q start count).eval app.host d = none ∧
      ∀ ordinal, (executeMember P H config owner q ordinal).eval app.host d = none := by
  obtain ⟨t, savepoints⟩ := d
  cases hvalid : q.validate with
  | error e => simp [executeGroup, executeMember, hvalid, Except.toOption]
  | ok u =>
    cases hmembers : (q.mutations.forM fun m => do let _ ← validateMember P config m) with
    | error e =>
      simp only [executeGroup, executeMember, Prog.eval_bind, Prog.eval_lift, hmembers, Except.toOption, Option.map_none,
        Option.bind_none]
      simp
    | ok u' =>
      have howner : nonblank owner = false := by
        by_contra hne
        exact hp ⟨hvalid, hmembers, by simpa using hne⟩
      refine ⟨?_, fun ordinal => ?_⟩
      · simp [executeGroup, eval_claim, howner]
      · simp [executeMember, eval_claim, howner]

/-- **The two paths agree**, in what they return and in the tables they leave. -/
theorem executeGroup_eq_members {start count : Nat}
    (hrange : count ≠ 0 ∧ count ≤ 32 ∧ start + count ≤ q.mutations.length) (d : Database) :
    ((executeGroup P H config owner q start count).eval app.host d).map (fun e => (e.1, e.2.tables)) =
      (executeMembers P H config app owner q start count d).map fun e => (e.1, e.2.tables) := by
  obtain ⟨t, savepoints⟩ := d
  obtain ⟨n, rfl⟩ : ∃ n, count = n + 1 := ⟨count - 1, by omega⟩
  by_cases hp : Pushed P config owner q
  · have hread := @reading_agrees P H config app q owner hp (t.claimed owner q.context.stream) (n + 1) start
      { store := t.store.getD { principal := owner, stream := q.context.stream } } savepoints savepoints rfl rfl rfl
      hrange.2.2 hrange.2.1
    rw [eval_executeGroup hrange hp, hread]
    simp only [executeMembers, eval_executeMember_claimed, List.nil_append]
  · obtain ⟨hgroup, hmember⟩ := @eval_unpushed P H config app q owner start (n + 1) hp ⟨t, savepoints⟩
    simp [hgroup, executeMembers, hmember]

/-- The tables the member path leaves are those of the group. -/
theorem members_of_group {start count : Nat} {d d' : Database} {results : List MutationResult}
    (hrange : count ≠ 0 ∧ count ≤ 32 ∧ start + count ≤ q.mutations.length)
    (h : (executeGroup P H config owner q start count).eval app.host d = some (results, d')) :
    ∃ d'', executeMembers P H config app owner q start count d = some (results, d'') ∧ d''.tables = d'.tables := by
  have heq := @executeGroup_eq_members P H config app q owner start count hrange d
  rw [h, Option.map_some, eq_comm, Option.map_eq_some_iff] at heq
  obtain ⟨⟨results', d''⟩, hmembers, hpair⟩ := heq
  simp only [Prod.mk.injEq] at hpair
  obtain ⟨rfl, htables⟩ := hpair
  exact ⟨d'', hmembers, htables⟩

/-- The host of a deterministic application, as a relation. -/
def App.Answers (app : App) (op : Op) (d : Database) (x : Ans) (d' : Database) : Prop := app.host op d = some (x, d')

/-- **A commit group refines its members.** On a host with a deterministic application, a group within its
limits returns and leaves what its members would, called one by one and committed each; a run of the group
that commits leaves these tables, and a run in which nothing commits leaves the database it found. -/
theorem group_refines_members (app : App) {start count : Nat}
    (hrange : count ≠ 0 ∧ count ≤ 32 ∧ start + count ≤ q.mutations.length) (d : Database) :
    ((executeGroup P H config owner q start count).eval app.host d).map (fun e => (e.1, e.2.tables)) =
        (executeMembers P H config app owner q start count d).map (fun e => (e.1, e.2.tables)) ∧
      ∀ os u, Trace (Transactions.Step app.Answers (Call.body P H)) ⟨d, none⟩ os u →
        ((∀ o ∈ os, o = none) → u.committed = d) ∧
          ∀ results, os.filterMap id = [(.group config owner q start count, results)] →
            ∃ d', executeMembers P H config app owner q start count d = some (results, d') ∧
              d'.tables = u.committed.tables := by
  refine ⟨executeGroup_eq_members hrange d, fun os u hrun => ⟨Transactions.committed_of_silent hrun, ?_⟩⟩
  intro results hos
  obtain ⟨hserial, -⟩ := Transactions.serial (Transactions.resumes_free d) hrun
  rw [hos] at hserial
  have hcommit : (executeGroup P H config owner q start count).Runs app.Answers d (.ok results) u.committed :=
    hserial.of_single
  exact members_of_group hrange (Prog.eval_of_runs hcommit)

end

end Server

namespace Notes

open Server

/-- Adds are accepted, renames are rejected. -/
def app : App where
  admission _ _ _ := true
  handle _ m _ _ := if m.name = "addNote" then .settled else .rejected "no"
  settle _ _ _ _ := .accepted 3 .null [none] [some (.obj [("id", .str "a"), ("title", .str "x")])]

end Notes

/-- A group over an accepted and a rejected member leaves what the two member calls leave. -/
theorem group_refines_members_note :
    ((Server.executeMembers Notes.platform Notes.hashes Notes.config Notes.app "user" Notes.push 0 2 {}).map
        fun e => (e.1, e.2.tables)) = some ([Notes.firstResult, ⟨2, .rejected "no" none⟩], Notes.twice.tables) := by
  rw [← (Server.group_refines_members Notes.app (by decide) {}).1]
  decide +kernel

end Axton
