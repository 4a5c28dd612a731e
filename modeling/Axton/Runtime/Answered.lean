import Axton.Runtime.Requests

/-!
# Every request is answered once: the units

The accounting of `Requests` through the direct calls, the open transaction and the task table, and over whole
runs of a host: inputs, steps, Store worker commands and collected events in any order.
-/

namespace Axton

open Bridge

namespace ClientRuntime

variable {C : Type}

/-! ## Effects and direct calls -/

section
variable (r : ClientRuntime C)

theorem issueEffect_moves (kind : EffectKind) (operation : Bridge.Operation) :
    Moves 0 r (r.issueEffect kind operation).2 := by
  unfold issueEffect
  have h := r.issue_moves
  split
  · rename_i id s hx
    rw [hx] at h
    exact h.trans_left (Moves.trans_left (s := { s with effects := s.effects.set (toString id) kind })
      (.same rfl rfl rfl rfl) (push_moves _ rfl))
  · rename_i hx
    rw [hx] at h
    exact h.trans_left (error_moves ..)

theorem moves_of_issueEffect {kind : EffectKind} {operation : Bridge.Operation} {o : Option String}
    {s : ClientRuntime C} (h : r.issueEffect kind operation = (o, s)) : Moves 0 r s := by
  have := r.issueEffect_moves kind operation
  rwa [h] at this

theorem cancelEffect_moves (effectId : String) : Moves 0 r (r.cancelEffect effectId) := by
  unfold cancelEffect
  split
  · exact .refl r
  · exact Moves.trans_left (s := { r with effects := r.effects.remove effectId }) (.same rfl rfl rfl rfl)
      (push_moves _ rfl)

theorem cancelEffects_moves (ids : List String) : Moves 0 r (ids.foldl cancelEffect r) :=
  .foldl_keeps (fun r id => cancelEffect_moves r id) _ _

variable {r}

theorem setDirect_moves {id : String} {call : DirectCall} (h : r.directs.get id = some call) (call' : DirectCall) :
    Moves 0 r { r with directs := r.directs.set id call' } := by
  refine .same ?_ rfl rfl rfl
  have ht := add_right_cancel (Table.total_set (fun e : String × DirectCall => ({e.1} : Multiset String)) h call')
  simp only [held, ht]

/-- A call that leaves the table hands its request on. -/
theorem held_removeDirect {id : String} {call : DirectCall} (h : r.directs.get id = some call) :
    r.held = {id} + { r with directs := r.directs.remove id }.held := by
  have ht := Table.total_remove (fun e : String × DirectCall => ({e.1} : Multiset String)) h
  simp only [held, ht]; abel

variable (r)

theorem failDirect_moves (id e : String) (d : Json) : Moves 0 r (r.failDirect id e d) := by
  unfold failDirect
  split
  · exact .refl r
  · rename_i call h
    refine .of_taken (held_removeDirect h) rfl rfl rfl ?_
    refine .trans_left ?_ (fail_moves ..)
    exact (cancelEffects_moves _ (call.http.toList ++ call.timer.toList)).trans_left (.same rfl rfl rfl rfl)

theorem failCall_moves (id : String) (failure : Failure) : Moves 0 r (r.failCall id failure) := by
  unfold failCall
  split
  · exact .refl r
  · exact failDirect_moves ..

theorem failDirectsInFlight_moves (failure : Failure) : Moves 0 r (r.failDirectsInFlight failure) :=
  .foldl_keeps (fun r id => failCall_moves r id failure) _ _

theorem failDirects_moves (failure : Failure) : Moves 0 r (r.failDirects failure) :=
  .foldl_keeps (fun r id => failCall_moves r id failure) _ _

theorem joinRefresh_moves (id : String) : Moves 0 r (r.joinRefresh id) := by
  unfold joinRefresh
  split
  · exact .refl r
  · rename_i c _
    refine Moves.trans_left (s := { r with connection := some { c with waiters := c.waiters ++ [id] } })
      (.same rfl rfl rfl rfl) ?_
    simp only
    split
    · exact .refl _
    · exact (issueEffect_moves _ .refreshAuth .refreshAuth).trans_left (.same rfl rfl rfl rfl)

theorem directResult_moves (id : String) (outcome : Bridge.EffectOutcome) : Moves 0 r (r.directResult id outcome) := by
  unfold directResult
  split
  · exact .refl r
  · rename_i call h
    split
    · have hc := (setDirect_moves h { call with http := none, applying := true, timer := none }).trans_left
        (cancelEffects_moves _ call.timer.toList)
      exact hc.trans_left (.same rfl rfl rfl rfl)
    · simp only
      split
      · exact (setDirect_moves h _).trans_left (joinRefresh_moves ..)
      · exact (setDirect_moves h _).trans_left (failCall_moves ..)

theorem issueEffect_directs (kind : EffectKind) (operation : Bridge.Operation) :
    (r.issueEffect kind operation).2.directs = r.directs := by
  simp only [issueEffect, issue]
  split <;> rename_i hi <;> split at hi <;> cases hi <;> rfl

theorem resendDirect_moves (id : String) : Moves 0 r (r.resendDirect id) := by
  unfold resendDirect
  split
  · exact .refl r
  · rename_i call h
    split
    · rename_i http s hx
      have hd : s.directs = r.directs := by
        have := r.issueEffect_directs (.directHttp id) (.http (route call.fetch) call.body)
        rwa [hx] at this
      exact (r.moves_of_issueEffect hx).trans_left (setDirect_moves (hd ▸ h) _)
    · rename_i hx; exact (r.moves_of_issueEffect hx).trans_left (failCall_moves ..)

theorem directTimeout_moves (id : String) : Moves 0 r (r.directTimeout id) := by
  unfold directTimeout
  split
  · exact .refl r
  · rename_i call h; exact (setDirect_moves h _).trans_left (failCall_moves ..)

/-! ## The connection and the reads held back -/

theorem connect_moves (timeout : Option Nat) (refresh : Bool) : Moves 0 r (r.connect timeout refresh).2 := by
  unfold connect
  split
  · exact .refl r
  · simp only
    split
    · exact .refl r
    · exact .same rfl rfl rfl rfl

theorem stopLanes_moves : Moves 0 r r.stopLanes :=
  ((cancelEffects_moves r _).trans_left (failDirectsInFlight_moves ..)).trans_left (.same rfl rfl rfl rfl)

theorem releaseInitialReads_moves (initialized : Bool) : Moves 0 r (r.releaseInitialReads initialized) := by
  unfold releaseInitialReads
  split
  · refine .same ?_ rfl rfl rfl
    simp only [held, List.map_append, ← Multiset.coe_add, List.map_nil, Multiset.coe_nil]
    abel
  · refine .of_taken (s := { r with tasks := { r.tasks with initialReads := [] } })
      (m := (r.tasks.initialReads.map (·.requestId) : List String)) ?_ rfl rfl rfl
      (Moves.foldl_answers (g := Queued.requestId) ?_ _ _)
    · simp only [held, List.map_nil, Multiset.coe_nil]; abel
    · intro r task
      split
      · exact fail_moves ..
      · exact complete_moves ..

theorem control_moves (event : ConnectionEvent) : Moves 0 r (r.control event).2 := by
  unfold control
  split
  · exact .refl r
  · simp only
    split
    · exact (releaseInitialReads_moves r false).trans_left (stopLanes_moves _)
    all_goals exact .same rfl rfl rfl rfl

theorem reportRefused_moves (decode : String → Option Json) (e : Bridge.EffectError) :
    Moves 0 r (reportRefused decode r e) := by
  unfold reportRefused
  split
  · exact .refl r
  · split
    · exact (push_moves _ rfl).trans_left (stopLanes_moves _)
    · exact .refl r

theorem refused_moves (decode : String → Option Json) (effectId : String) (e : Bridge.EffectError) :
    Moves 0 r (refused decode r effectId e) := by
  unfold refused
  have he : Moves 0 r { r with effects := r.effects.remove effectId } := .same rfl rfl rfl rfl
  split
  · exact .refl r
  · exact he.trans_left ((failCall_moves ..).trans_left (reportRefused_moves ..))
  · exact he.trans_left (reportRefused_moves ..)

theorem refreshSettled_moves (effectId : String) (outcome : Bridge.EffectOutcome) :
    Moves 0 r (r.refreshSettled effectId outcome) := by
  unfold refreshSettled
  split
  · exact .refl r
  · rename_i c _
    split
    · exact .refl r
    · refine Moves.trans_left (s := { r with connection := some { c with refreshing := none, waiters := [] } })
        (.same rfl rfl rfl rfl) ?_
      simp only
      split
      · exact .foldl_keeps (fun r id => resendDirect_moves r id) _ _
      · exact (push_moves _ rfl).trans_left (.foldl_keeps (fun r id => failCall_moves r id _) _ _)

/-! ## Prerequisites -/

theorem prerequisiteResult_moves (key : String) (outcome : Bridge.EffectOutcome) (now entropy : Nat) :
    Moves 0 r (r.prerequisiteResult key outcome now entropy) := by
  unfold prerequisiteResult
  simp only
  split
  · exact .same rfl rfl rfl rfl
  · split <;> exact .same rfl rfl rfl rfl

theorem prerequisiteTimerFired_moves (effectId : String) : Moves 0 r (r.prerequisiteTimerFired effectId) := by
  unfold prerequisiteTimerFired
  split
  · exact .refl r
  · split
    · exact .refl r
    · exact .same rfl rfl rfl rfl

theorem armPrerequisiteTimer_moves (now : Nat) : Moves 0 r (r.armPrerequisiteTimer now) := by
  unfold armPrerequisiteTimer
  simp only
  split
  · exact .refl r
  · have hc := Moves.trans_left (r := r) (s := { r with prerequisites := { r.prerequisites with timer := none } })
      (.same rfl rfl rfl rfl) (cancelEffects_moves _ (r.prerequisites.timer.map (·.1)).toList)
    refine hc.trans_left ?_
    split
    · exact .refl _
    · split
      · rename_i hx; exact (moves_of_issueEffect _ hx).trans_left (.same rfl rfl rfl rfl)
      · rename_i hx; exact moves_of_issueEffect _ hx

theorem rebuiltPrerequisites_moves : Moves 0 r r.rebuiltPrerequisites := by
  unfold rebuiltPrerequisites
  refine Moves.trans_left ?_ (cancelEffects_moves _ _)
  exact .same rfl rfl rfl rfl

theorem effectResult_moves (decode : String → Option Json) (effectId : String) (outcome : Bridge.EffectOutcome)
    (now entropy : Nat) : Moves 0 r (effectResult decode r effectId outcome now entropy) := by
  unfold effectResult
  split
  · exact refused_moves ..
  · exact .refl r
  · exact .refl r
  · refine Moves.trans_left (s := { r with effects := r.effects.remove effectId }) (.same rfl rfl rfl rfl) ?_
    simp only
    split
    · exact refreshSettled_moves ..
    · exact directResult_moves ..
    · exact directTimeout_moves ..
    · exact prerequisiteResult_moves ..
    · exact prerequisiteTimerFired_moves ..
    · exact .refl _

/-! ## Reads -/

/-- A step that holds the request when it succeeds. -/
def Sends {α : Type} (id : String) (r : ClientRuntime C) (x : Attempt C α) : Prop :=
  Moves (match x.1 with | .ok _ => {id} | .error _ => 0) r x.2

theorem directs_get_none {id : String} (h : id ∉ r.held) : r.directs.get id = none := by
  by_contra hne
  obtain ⟨call, hc⟩ := Option.ne_none_iff_exists'.1 hne
  rw [held_removeDirect hc] at h
  simp at h

theorem sendDirect_sends {requestId : String} (fresh : requestId ∉ r.held) (callId body : String) (fetch : Bool) :
    Sends requestId r (r.sendDirect requestId callId body fetch) := by
  unfold sendDirect
  split
  · exact Moves.refl r
  · rename_i connection _
    split
    · rename_i hx; exact r.moves_of_issueEffect hx
    · rename_i http s hx
      have hs : s.directs = r.directs := by
        have := r.issueEffect_directs (.directHttp requestId) (.http (route fetch) body)
        rwa [hx] at this
      have ht := s.issueEffect_directs (.directTimer requestId) (.timer connection.timeout)
      refine (r.moves_of_issueEffect hx).trans_left ((issueEffect_moves s _ _).trans_left (.placed ?_ rfl rfl rfl))
      have hn : (s.issueEffect (.directTimer requestId) (.timer connection.timeout)).2.directs.get requestId = none := by
        rw [ht, hs]; exact r.directs_get_none fresh
      have hd := Table.total_set_new (fun e : String × DirectCall => ({e.1} : Multiset String)) hn
      simp only [held, hd]
      abel

theorem Sends.andThen {α β : Type} {id : String} {x : Attempt C α} {f : α → ClientRuntime C → Attempt C β}
    {r : ClientRuntime C} (hx : Moves 0 r x.2) (hf : ∀ a, Sends id x.2 (f a x.2)) : Sends id r (x.andThen f) := by
  obtain ⟨_ | a, s⟩ := x
  · exact hx
  · exact hx.trans_left (hf a)

variable (api : ClientApi C) (P : Platform)

theorem beginRead_sends {requestId : String} (fresh : requestId ∉ r.held) (invocation : ReadInvocation)
    (store : Option Json) : Sends requestId r (beginRead api P r requestId invocation store) := by
  refine .andThen (r.ask_moves _) fun pending => ?_
  split
  · exact Moves.refl _
  · simp only
    split
    · exact Moves.refl _
    · exact Moves.refl _
    · split
      · exact Moves.refl _
      · refine .andThen (ask_moves _ _) fun context => ?_
        split
        · exact Moves.refl _
        · rename_i body _
          have hf : requestId ∉ ((r.ask api.pendingSchema).2.ask api.requestContext).2.held := fresh
          exact sendDirect_sends _ hf _ _ _

theorem fetch_moves {requestId : String} (fresh : requestId ∉ r.held) (model : String) (version : Nat) (identity : Json)
    (store : Option Json) : Moves {requestId} r (fetch api P r requestId model version identity store) := by
  have h := r.beginRead_sends api P fresh (.fetch ⟨model, identity⟩ version) store
  unfold fetch
  split
  · rename_i hx; rw [hx] at h; exact h
  · rename_i hx
    rw [hx] at h
    exact Moves.trans_left h (fail_moves ..)

theorem invoke_parks {requestId : String} (fresh : requestId ∉ r.held) (name : String) (version : Nat) (args : Json)
    (store : Option Json) : Parks requestId r (invoke api P r requestId name version args store) := by
  have h := r.beginRead_sends api P fresh (.query name version args) store
  unfold invoke Parks
  split
  · rename_i hx; rw [hx] at h; exact h
  · rename_i hx; rw [hx] at h; exact h

theorem installRead_moves (admitted : AdmittedRead) : Moves 0 r (installRead api r admitted).2 := by
  unfold installRead
  split
  · exact ask_moves ..
  · exact .refl r

theorem answerRead_moves (call : DirectCall) (requestId : String) (outcome : Json) :
    Moves {requestId} r (answerRead r call requestId outcome) := by
  unfold answerRead
  refine Moves.trans_left ?_ (complete_moves ..)
  split
  · exact .refl r
  · exact push_moves _ rfl

theorem applyRead_moves (requestId response : String) : Moves 0 r (applyRead api r requestId response) := by
  unfold applyRead
  split
  · exact .refl r
  · rename_i call h
    refine .of_taken (held_removeDirect h) rfl rfl rfl ?_
    refine Moves.trans_left (s := { { r with directs := r.directs.remove requestId } with
      client := (api.admitRead call.body response r.client).2 }) (.same rfl rfl rfl rfl) ?_
    simp only
    split
    · exact fail_moves ..
    · rename_i admitted _
      have hi := installRead_moves { { r with directs := r.directs.remove requestId } with
        client := (api.admitRead call.body response r.client).2 } api admitted
      split
      · rename_i hx; rw [hx] at hi; exact hi.trans_left (fail_moves ..)
      · rename_i s hx
        rw [hx] at hi
        exact hi.trans_left ((committedSince_moves ..).trans_left (answerRead_moves ..))

theorem wakeSince_moves (generation : Nat) : Moves 0 r (wakeSince api r generation) := by
  unfold wakeSince
  split
  · exact .refl r
  · exact .same rfl rfl rfl rfl

theorem runPrerequisite_moves (task : Json) : Moves 0 r (runPrerequisite r task) := by
  unfold runPrerequisite
  simp only
  split
  · rename_i hx; exact (r.moves_of_issueEffect hx).trans_left (.same rfl rfl rfl rfl)
  · rename_i hx; exact r.moves_of_issueEffect hx

theorem prerequisiteTurn_moves (now : Nat) : Moves 0 r (prerequisiteTurn api r now) := by
  unfold prerequisiteTurn
  refine Moves.trans_left (s := { r with prerequisites := { r.prerequisites with dirty := false } })
    (.same rfl rfl rfl rfl) ?_
  split
  · rename_i hx; exact (moves_of_ask _ hx).trans_left (error_moves ..)
  · rename_i tasks s hx
    have hf : Moves 0 s (forgetBackoff s tasks) := .same rfl rfl rfl rfl
    refine (moves_of_ask _ hx).trans_left (hf.trans_left (Moves.trans_left ?_ (armPrerequisiteTimer_moves ..)))
    split
    · exact .refl _
    · exact runPrerequisite_moves ..

theorem prerequisiteOutcome_moves (key : String) (error : Option String) :
    Moves 0 r (prerequisiteOutcome api r key error) := by
  unfold prerequisiteOutcome
  refine Moves.trans_left (s := r.prerequisiteReadiness key) (.same rfl rfl rfl rfl) ?_
  simp only
  refine Moves.trans_left ?_ (committedSince_moves ..)
  split
  · rename_i hx; exact moves_of_ask _ hx
  · rename_i hx; exact (moves_of_ask _ hx).trans_left (error_moves ..)

end

/-! ## The open transaction -/

section
variable (r : ClientRuntime C)

/-- Changes of the open transaction that leave its requests alone. -/
theorem onTransaction_moves {f : Transaction → Transaction} (h : ∀ t, (f t).held = t.held) :
    Moves 0 r (r.onTransaction f) := by
  refine .same ?_ rfl rfl rfl
  cases ht : r.transaction with
  | none => simp [held, onTransaction, ht]
  | some t => simp [held, onTransaction, ht, transactionHeld, h]

@[simp] theorem Transaction.held_poisonLocal (t : Transaction) (e : String) : (t.poisonLocal e).held = t.held := by
  cases h : t.localCallback <;> simp [Transaction.held, Transaction.poisonLocal, h]

@[simp] theorem Transaction.held_collect (t : Transaction) (os : List Axton.Operation) : (t.collect os).held = t.held := by
  cases h : t.localCallback <;> simp [Transaction.held, Transaction.collect, h]

theorem accountFailure_held (own : Bool) (e : String) (t : Transaction) : (accountFailure own e t).held = t.held := by
  cases own with
  | false => rfl
  | true =>
    simp only [accountFailure, if_true, Transaction.held_poisonLocal]
    split <;> rfl

theorem callTransitions_moves (calls : List String) (state : CallTransition) :
    Moves 0 r (r.callTransitions calls state) := .foldl_keeps (fun _ _ => push_moves _ rfl) _ _

theorem closeCommands_moves (commands : List Continuation) (e : String) :
    Moves (commands.map (·.requestId) : List String) r (r.closeCommands commands e) :=
  .foldl_answers (fun r c => complete_moves r c.requestId _) _ _

theorem continueTransaction_moves (command : Continuation) : Moves {command.requestId} r (r.continueTransaction command) := by
  unfold continueTransaction
  split
  · rename_i t ht
    split
    · refine .placed ?_ rfl rfl rfl
      simp only [held, ht, transactionHeld, Option.elim, Transaction.held, List.map_append, List.map_cons, List.map_nil,
        ← Multiset.coe_add, Multiset.coe_singleton]
      abel
    · exact complete_moves ..
  · exact complete_moves ..

theorem callbackResult_moves (effectId transactionId : String) (companionId : Option String) (ok : Bool)
    (error : Option String) (input : Option Json) :
    Moves 0 r (r.callbackResult effectId transactionId companionId ok error input) := by
  refine onTransaction_moves _ fun t => ?_
  split
  · rfl
  · split
    · split <;> rfl
    · cases h : t.localCallback with
      | none => simp [Transaction.held, h]
      | some l => simp only [Transaction.held, h, Option.map_some]; split <;> rfl

theorem announceResolved_moves (resolved : List Resolved) : Moves 0 r (r.announceResolved resolved) := by
  refine .foldl_keeps (fun r resolution => ?_) _ _
  split
  · exact push_moves _ rfl
  · exact .same rfl rfl rfl rfl

variable (api : ClientApi C)

theorem issue_transaction : r.issue.2.transaction = r.transaction := by
  unfold issue
  split <;> rfl

theorem transaction_of_ask {α : Type} {call : Answer C α} {o : Except String α} {s : ClientRuntime C}
    (h : r.ask call = (o, s)) : s.transaction = r.transaction := by
  have : (r.ask call).2.transaction = r.transaction := rfl
  rwa [h] at this

theorem issueTransaction_moves : Moves 0 r (issueTransaction r).2 :=
  .andThen r.issue_moves fun _ r => .andThen r.issue_moves fun _ r => .refl r

theorem issueTransaction_transaction : (issueTransaction r).2.transaction = r.transaction := by
  unfold issueTransaction
  have h := r.issue_transaction
  rcases hx : r.issue with ⟨_ | n, s⟩
  · rwa [hx] at h
  · rw [hx] at h
    have k := s.issue_transaction
    rcases hy : s.issue with ⟨_ | m, u⟩ <;> rw [hy] at k <;> simp only [Attempt.andThen, hy] <;> exact k.trans h

theorem openTransaction_moves (h : r.transaction = none) (requestId : String) :
    Moves {requestId} r (openTransaction api r requestId) := by
  unfold openTransaction
  have hm := r.issueTransaction_moves
  have ht := r.issueTransaction_transaction
  split
  · rename_i hx
    rw [hx] at hm
    exact hm.trans_left (complete_moves ..)
  · rename_i transactionId effectId s hx
    rw [hx] at hm ht
    refine hm.trans_left ?_
    split
    · rename_i hy; exact (moves_of_ask _ hy).trans_left (complete_moves ..)
    · rename_i u hy
      have hu : u.transaction = none := (s.transaction_of_ask hy).trans (ht.trans h)
      have hp : Moves {requestId} u { u with
          effects := u.effects.set effectId .callback
          transaction := some { owner := requestId, transactionId, effectId } } := by
        refine .placed ?_ rfl rfl rfl
        simp only [held, hu, transactionHeld, Option.elim, Transaction.held, List.map_nil, Multiset.coe_nil,
          Option.map_none, Option.toList_none]
        abel
      exact (moves_of_ask _ hy).trans_left (hp.trans_right (push_moves _ rfl))

theorem savepoint_moves : Moves 0 r (savepoint api r).2 :=
  .andThen r.issue_moves fun _ r => .andThen (r.ask_moves _) fun _ r => r.onTransaction_moves fun _ => rfl

theorem rollbackScope_moves : Moves 0 r (rollbackScope api r).2 := by
  unfold rollbackScope
  split
  · exact .refl r
  · have hp : Moves 0 r (popScope r) := r.onTransaction_moves fun _ => rfl
    refine .andThen (hp.trans_left (ask_moves ..)) fun _ r => ?_
    refine Moves.trans_left ?_ (callTransitions_moves ..)
    exact onTransaction_moves r fun _ => rfl

/-- A command that is answered later holds its request. -/
def Waits (id : String) (r : ClientRuntime C) (x : Attempt C (Option Json)) : Prop :=
  Moves (match x.1 with | .ok none => {id} | _ => 0) r x.2

theorem Waits.andThen {α : Type} {id : String} {x : Attempt C α} {f : α → ClientRuntime C → Attempt C (Option Json)}
    {r : ClientRuntime C} (hx : Moves 0 r x.2) (hf : ∀ a, Waits id x.2 (f a x.2)) : Waits id r (x.andThen f) := by
  obtain ⟨_ | a, s⟩ := x
  · exact hx
  · exact hx.trans_left (hf a)

/-- A command that answers at once holds nothing. -/
theorem Waits.some {α : Type} {id : String} {x : Attempt C α} (g : α → Json) {r : ClientRuntime C} (hx : Moves 0 r x.2) :
    Waits id r (x.andThen fun v r => (.ok (some (g v)), r)) := by
  obtain ⟨_ | a, s⟩ := x <;> exact hx

/-- The local callback of a submission holds the submission's request. -/
theorem startLocal_moves {t : Transaction} (ht : r.transaction = some t) (hl : t.localCallback = none) (l : LocalCallback)
    (effects : Table String EffectKind) :
    Moves {l.requestId} r { r with transaction := some { t with localCallback := some l }, effects } := by
  refine .placed ?_ rfl rfl rfl
  simp only [held, ht, transactionHeld, Option.elim, Transaction.held, hl, Option.map_none, Option.toList_none,
    Option.map_some, Option.toList_some, Multiset.coe_nil, Multiset.coe_singleton]
  abel

theorem submitMutation_waits {t : Transaction} (ht : r.transaction = some t) (hl : t.localCallback = none)
    (requestId name : String) (version : Nat) (args : Json) (store localFlag : Option Json) :
    Waits requestId r (submitMutation api r requestId name version args store localFlag) := by
  unfold submitMutation
  simp only
  split
  · exact Moves.refl r
  · split
    · exact Moves.refl r
    · split
      · exact .andThen (r.ask_moves _) fun call => onTransaction_moves _ fun _ => rfl
      · split
        · exact Moves.refl r
        · split
          · exact Moves.refl r
          · refine .andThen (r.ask_moves _) fun _ => ?_
            refine .andThen (issue_moves _) fun companion => ?_
            have h1 := (r.ask api.sessionSavepoint).2.issue_transaction
            refine .andThen (issue_moves _) fun effect => ?_
            have h2 := ((r.ask api.sessionSavepoint).2.issue).2.issue_transaction
            split
            · exact Moves.refl _
            · rename_i u hu
              have hut : u = t := by
                have := hu.symm.trans (h2.trans (h1.trans ht))
                exact Option.some.inj this
              subst hut
              refine Moves.trans_right ?_ (push_moves _ (by rfl))
              exact startLocal_moves _ hu hl
                { companionId := _, effectId := _, requestId, call := _, deferred := _ } _

theorem resolveInTransaction_waits (id : String) (command : TransactionCommand) :
    Waits id r (resolveInTransaction api r command) := by
  refine .andThen ?_ fun resolved => onTransaction_moves _ fun _ => rfl
  split
  · exact .andThen (r.ask_moves _) fun _ r => .refl r
  · exact .andThen (r.ask_moves _) fun _ r => .refl r
  · exact .andThen (r.ask_moves _) fun _ r => .refl r
  · exact .refl r

theorem executeInSession_moves (command : TransactionCommand) : Moves 0 r (executeInSession api r command).2 := by
  unfold executeInSession
  split
  · exact r.ask_moves _
  · exact .andThen (r.ask_moves _) fun _ r => .refl r
  · exact .refl r
  · exact .refl r

theorem localWrite_waits (id : String) (l : LocalCallback) (operation : Axton.Operation) :
    Waits id r (localWrite api r l operation) := by
  unfold localWrite
  split
  · exact .andThen (r.ask_moves _) fun os => onTransaction_moves _ fun t => t.held_collect os
  · exact .andThen (r.ask_moves _) fun _ => Moves.refl _

/-- A command admitted outside a local callback finds none running. -/
theorem capability_false {t : Transaction} {command : Continuation} (h : t.capability command = some false) :
    t.localCallback = none := by
  unfold Transaction.capability at h
  split at h
  · assumption
  · split at h <;> cases h
  · cases h

theorem execute_waits {t : Transaction} (ht : r.transaction = some t) {own : Bool} {command : Continuation}
    (hc : t.capability command = some own) (ho : ¬ (own && !localCommand command.command)) :
    Waits command.requestId r (execute api r t own command) := by
  unfold execute
  split
  · exact .some id (savepoint_moves ..)
  · have hp : Moves 0 r (popScope r) := r.onTransaction_moves fun _ => rfl
    exact .some (fun _ => .null) (hp.trans_left (ask_moves ..))
  · have h := rollbackScope_moves r api
    unfold Waits
    split
    · rename_i hx
      exfalso
      revert hx
      unfold rollbackScope
      split
      · exact nofun
      · rcases (popScope r).ask api.sessionRollbackSavepoint with ⟨_ | _, s⟩ <;> exact nofun
    · exact h
  · rename_i hcmd
    have hown : own = false := by
      cases own with
      | false => rfl
      | true => simp [hcmd, localCommand] at ho
    exact submitMutation_waits r api ht (capability_false (hown ▸ hc)) ..
  · exact resolveInTransaction_waits ..
  · exact resolveInTransaction_waits ..
  · exact resolveInTransaction_waits ..
  · split
    · exact localWrite_waits ..
    · exact Moves.refl r
    · exact .some id (executeInSession_moves ..)
  · exact .some id (executeInSession_moves ..)

theorem runCommand_parks (command : Continuation) : Parks command.requestId r (runCommand api r command) := by
  unfold runCommand
  split
  · exact Moves.refl r
  · rename_i t ht
    split
    · exact onTransaction_moves r fun _ => rfl
    · rename_i own hc
      split
      · exact onTransaction_moves r fun t => Transaction.held_poisonLocal _ _
      · rename_i ho
        split
        · refine onTransaction_moves r fun t => ?_
          split
          · exact Transaction.held_poisonLocal _ _
          · rfl
        · have h := r.execute_waits api ht hc ho
          split
          · rename_i value s hx
            rw [hx] at h
            cases value <;> exact h
          · rename_i hx
            rw [hx] at h
            exact Moves.trans_left h (onTransaction_moves _ fun t => accountFailure_held _ _ t)

theorem submitDeferred_moves (d : DeferredMutation) (refusal : Option String) (input : Option Json) :
    Moves 0 r (submitDeferred api r d refusal input).2 := by
  unfold submitDeferred
  refine (r.ask_moves api.sessionRollbackSavepoint).trans_left ?_
  simp only
  split
  · exact .refl _
  · split
    · exact .refl _
    · exact ask_moves ..

theorem submitLocal_moves (l : LocalCallback) (refusal : Option String) (input : Option Json) :
    Moves 0 r (submitLocal api r l refusal input).2 := by
  unfold submitLocal
  split
  · exact submitDeferred_moves ..
  · split
    · exact onTransaction_moves r fun _ => rfl
    · exact .refl r

theorem addCall_moves (outcome : Except String SubmittedCall) : Moves 0 r (addCall r outcome) := by
  unfold addCall
  split
  · exact onTransaction_moves r fun _ => rfl
  · exact .refl r

theorem answerLocal_moves (l : LocalCallback) (late : List Continuation) (outcome : Except String SubmittedCall) :
    Moves ((late.map (·.requestId) : List String) + {l.requestId}) r (answerLocal r l late outcome) := by
  refine (addCall_moves r outcome).trans_left ?_
  refine Moves.trans_left ?_ ((closeCommands_moves ..).trans (complete_moves ..))
  exact .same rfl rfl rfl rfl

theorem finishLocal_moves (ok : Bool) (error : Option String) (input : Option Json) :
    Moves 0 r (finishLocal api r ok error input) := by
  unfold finishLocal
  split
  · exact .refl r
  · rename_i t ht
    split
    · exact .refl r
    · rename_i l hl
      have hs := ids_split Continuation.requestId t.lane fun c => decide (c.companionId = some l.companionId)
      -- the submission and the late commands of its callback leave the transaction and are answered
      refine .of_taken (s := { r with transaction := some { t with
          localCallback := none, lane := t.lane.filter fun c => !decide (c.companionId = some l.companionId) } })
        (m := ((t.lane.filter fun c => decide (c.companionId = some l.companionId)).map (·.requestId) : List String)
          + {l.requestId}) ?_ rfl rfl rfl ?_
      · simp only [held, ht, transactionHeld, Option.elim, Transaction.held, hl, hs, Option.map_some, Option.map_none,
          Option.toList_some, Option.toList_none, Multiset.coe_nil, Multiset.coe_singleton]
        abel
      · exact (submitLocal_moves ..).trans_left (answerLocal_moves ..)

theorem closeLocal_moves (l : Option LocalCallback) :
    Moves (l.map (·.requestId)).toList r (closeLocal r l) := by
  cases l with
  | none => exact .refl r
  | some l =>
    have h := (cancelEffect_moves r l.effectId).trans_left (complete_moves _ l.requestId (.error transactionClosed))
    exact h

theorem rollBack_moves (t : Transaction) (refusal : String) : Moves {t.owner} r (rollBack api r t refusal) := by
  unfold rollBack
  refine Moves.trans_left ?_ ((callTransitions_moves ..).trans_left (complete_moves ..))
  split
  · rename_i hx; exact moves_of_ask _ hx
  · rename_i hx; exact (moves_of_ask _ hx).trans_left (error_moves ..)

theorem announceCommit_moves (t : Transaction) (committed : Except String Unit) :
    Moves 0 r (announceCommit r t committed) := by
  unfold announceCommit
  split
  · exact (callTransitions_moves ..).trans_left (announceResolved_moves ..)
  · exact callTransitions_moves ..

theorem commit_moves (t : Transaction) : Moves {t.owner} r (commit api r t) := by
  unfold commit
  refine (r.ask_moves api.commitSession).trans_left ?_
  refine (announceCommit_moves _ t (r.ask api.commitSession).1).trans_left ?_
  exact (committedSince_moves _ api (api.generation r.client)).trans_left
    ((wakeSince_moves ..).trans_left (complete_moves ..))

theorem finishTransaction_moves (ok : Bool) (error : Option String) :
    Moves 0 r (finishTransaction api r ok error) := by
  unfold finishTransaction
  split
  · exact .refl r
  · rename_i t ht
    refine .of_taken (s := { r with transaction := none, effects := r.effects.remove t.effectId })
      (m := (t.localCallback.map (·.requestId)).toList + ((t.lane.map (·.requestId) : List String) + {t.owner}))
      ?_ rfl rfl rfl ?_
    · simp only [held, ht, transactionHeld, Option.elim, Transaction.held]
      abel
    · refine (closeLocal_moves ..).trans ((closeCommands_moves _ t.lane transactionClosed).trans ?_)
      split
      · exact rollBack_moves ..
      · exact commit_moves ..

theorem stepTransaction_moves : Moves 0 r (stepTransaction api r).2 := by
  unfold stepTransaction
  split
  · exact .refl r
  · rename_i t ht
    split
    · have hf : Moves 0 r { r with transaction := some { t with finishing := none } } :=
        .same (by simp only [held, ht, transactionHeld, Option.elim, Transaction.held]) rfl rfl rfl
      exact hf.trans_left (finishTransaction_moves ..)
    · split
      · refine Moves.trans_left ?_ (finishLocal_moves ..)
        refine onTransaction_moves r fun t => ?_
        cases h : t.localCallback <;> simp [Transaction.held, h]
      · split
        · exact .refl r
        · rename_i command lane hlane
          have hp := runCommand_parks { r with transaction := some { t with lane } } api command
          refine .of_taken (s := { r with transaction := some { t with lane } }) (m := {command.requestId}) ?_ rfl rfl
            rfl ?_
          · simp only [held, ht, transactionHeld, Option.elim, Transaction.held, hlane, List.map_cons,
              ← Multiset.cons_coe, ← Multiset.singleton_add]
            abel
          · rcases hx : runCommand api { r with transaction := some { t with lane } } command with ⟨_ | o, s⟩
            · rw [hx] at hp; exact hp
            · rw [hx] at hp; exact Moves.trans_left hp (complete_moves ..)

/-! ## Tasks -/

variable (P : Platform)

theorem executeTask_moves (command : Command) : Moves 0 r (executeTask api r command).2 := by
  unfold executeTask
  split
  · exact r.ask_moves _
  · exact r.ask_moves _
  · exact .andThen (r.ask_moves _) fun _ r => .refl r
  · split
    · exact .refl r
    · exact .andThen (r.ask_moves _) fun _ r => .refl r
  · exact .andThen (r.ask_moves _) fun _ r => .refl r
  · exact r.ask_moves _
  · exact .andThen (r.ask_moves _) fun _ r => .refl r
  · exact .andThen (r.ask_moves _) fun _ r => .refl r
  · exact r.ask_moves _
  · exact .refl r
  · exact .refl r

theorem resetStore_moves (discardPending : Bool) : Moves 0 r (resetStore api r discardPending).2 := by
  refine .andThen (r.ask_moves _) fun reset r => ?_
  have h1 := (failDirects_moves r .replaced).trans_left (rebuiltPrerequisites_moves _)
  have h2 : Moves 0 (r.failDirects .replaced).rebuiltPrerequisites
      { (r.failDirects .replaced).rebuiltPrerequisites with stale := true } := .same rfl rfl rfl rfl
  have h3 := (rebuiltObservers_moves { (r.failDirects .replaced).rebuiltPrerequisites with stale := true }).trans_left
    (releaseInitialReads_moves _ false)
  refine (h1.trans_left (h2.trans_left h3)).trans_left ?_
  refine Moves.trans_left ?_ (.foldl_keeps (fun r _ => push_moves r rfl) _ _)
  exact .same rfl rfl rfl rfl

theorem seamCompletions_moves (value : Json) : Moves 0 r (seamCompletions r value) :=
  .foldl_keeps (fun r _ => push_moves r rfl) _ _

theorem prerequisiteReadiness_moves (key : String) : Moves 0 r (r.prerequisiteReadiness key) := .same rfl rfl rfl rfl

theorem taskOutcome_moves (command : Command) : Moves 0 r (taskOutcome api r command).2 := by
  unfold taskOutcome
  split
  · exact connect_moves ..
  · exact control_moves ..
  · exact (prerequisiteReadiness_moves ..).trans_left (executeTask_moves ..)
  · exact .andThen (executeTask_moves ..) fun _ _ => .foldl_keeps (fun r key => r.prerequisiteReadiness_moves key) _ _
  · exact unsentWatch_moves ..
  · exact resetStore_moves ..
  · exact subscribeStream_moves ..
  · exact watch_moves ..
  · exact watchSnapshot_moves ..
  · exact watchSql_moves ..
  · exact (unwatchUnsent_moves ..).trans_left (unwatch_moves ..)
  · exact executeTask_moves ..

theorem runTask_parks {requestId : String} (fresh : requestId ∉ r.held) (command : Command) :
    Parks requestId r (runTask api P r requestId command) := by
  unfold runTask
  split
  · exact invoke_parks r api P fresh ..
  · exact fetch_moves r api P fresh ..
  · exact bootstrapStream_parks ..
  · exact taskOutcome_moves ..

/-- Waiting for the initial content only asks the client. -/
theorem mustWait_eq (command : Command) : ∃ c, (mustWait api r command).2 = { r with client := c } := by
  unfold mustWait
  simp only
  split
  · split
    · exact ⟨_, rfl⟩
    · exact ⟨_, rfl⟩
  · exact ⟨_, rfl⟩

theorem announceSeam_moves (command : Command) (outcome : Option (Except String Json)) :
    Moves 0 r (announceSeam r command outcome) := by
  unfold announceSeam
  split
  · split
    · exact seamCompletions_moves ..
    · exact .refl r
  · exact .refl r

theorem afterTask_moves (generation : Nat) (requestId : String) (command : Command)
    (outcome : Option (Except String Json)) :
    Moves (if outcome.isNone then 0 else {requestId}) r (afterTask api r generation requestId command outcome) := by
  have h := (committedSince_moves r api generation).trans_left
    ((announceSeam_moves _ command outcome).trans_left (wakeSince_moves _ api generation))
  cases outcome with
  | none => exact h
  | some o => exact h.trans_left (complete_moves ..)

theorem dispatchTask_moves (ht : r.transaction = none) {task : Queued} (fresh : task.requestId ∉ r.held) :
    Moves {task.requestId} r (dispatchTask api P r task) := by
  unfold dispatchTask
  split
  · exact openTransaction_moves _ api ht _
  · have hp := r.runTask_parks api P fresh task.command
    rcases hx : runTask api P r task.requestId task.command with ⟨_ | o, u⟩
    · rw [hx] at hp
      exact Moves.trans_right hp (afterTask_moves u api _ _ _ none)
    · rw [hx] at hp
      exact Moves.trans_left hp (afterTask_moves u api _ _ _ (some o))

theorem ordinaryUnit_moves (ht : r.transaction = none) (hn : (r.held + r.answered).Nodup) :
    Moves 0 r (ordinaryUnit api P r) := by
  unfold ordinaryUnit
  split
  · exact .refl r
  · rename_i task queue hq
    have hh : r.held = {task.requestId} + { r with tasks := { r.tasks with queue } }.held := by
      simp only [held, hq, List.map_cons, ← Multiset.cons_coe, ← Multiset.singleton_add]
      abel
    have fresh : task.requestId ∉ { r with tasks := { r.tasks with queue } }.held := by
      have := Multiset.nodup_of_le (Multiset.le_add_right r.held r.answered) hn
      rw [hh, Multiset.singleton_add] at this
      exact (Multiset.nodup_cons.1 this).1
    refine .of_taken hh rfl rfl rfl ?_
    obtain ⟨c, hc⟩ := mustWait_eq { r with tasks := { r.tasks with queue } } api task.command
    rcases hw : mustWait api { r with tasks := { r.tasks with queue } } task.command with ⟨waits, s⟩
    rw [hw] at hc
    change s = _ at hc
    have hs : Moves 0 { r with tasks := { r.tasks with queue } } s := by rw [hc]; exact .same rfl rfl rfl rfl
    have hst : s.transaction = none := by rw [hc]; exact ht
    have hsf : task.requestId ∉ s.held := by rw [hc]; exact fresh
    refine hs.trans_left ?_
    simp only
    split
    · refine .placed ?_ rfl rfl rfl
      simp only [held, List.map_append, List.map_cons, List.map_nil, ← Multiset.coe_add, Multiset.coe_singleton]
      abel
    · exact dispatchTask_moves s api P hst hsf

theorem laneUnit_moves (now : Nat) : Moves 0 r (laneUnit api r now) := by
  unfold laneUnit
  split
  · rename_i ready rest _
    have hr : Moves 0 r { r with ready := rest } := .same rfl rfl rfl rfl
    have hu : Moves 0 { r with ready := rest } (runReady api { r with ready := rest } ready) := by
      cases ready with
      | applyDirect requestId response => exact applyRead_moves ..
      | prerequisiteOutcome key error => exact prerequisiteOutcome_moves ..
    exact hr.trans_left (hu.trans_left (wakeSince_moves ..))
  · split
    · exact prerequisiteTurn_moves ..
    · exact .refl r

theorem unit_moves (now : Nat) (hn : (r.held + r.answered).Nodup) : Moves 0 r (unit api P r now).2 := by
  unfold unit
  split
  · exact stepTransaction_moves ..
  · rename_i ht
    have ht : r.transaction = none := by simpa using ht
    have hl : ∀ since, Moves 0 r { r with laneSince := since } := fun _ => .same rfl rfl rfl rfl
    have hor : ∀ since, Moves 0 r (ordinaryUnit api P { r with laneSince := since }) := fun since =>
      (hl since).trans_left (ordinaryUnit_moves { r with laneSince := since } api P ht hn)
    have hla : ∀ since, Moves 0 r (laneUnit api { { r with laneSince := since } with laneSince := none } now) :=
      fun since => (hl none).trans_left (laneUnit_moves ..)
    simp only
    split
    · exact hl _
    · exact hor _
    · split
      · exact hor _
      · exact hla _
    · exact hla _

end

/-! ## Close -/

/-- The containers a request can be in. -/
def places (r : ClientRuntime C) :=
  (r.tasks.queue, r.tasks.initialReads, r.transaction, r.directs, r.registrations)

theorem held_eq_zero {r : ClientRuntime C} (h : r.places = ([], [], none, [], [])) : r.held = 0 := by
  simp only [places, Prod.mk.injEq] at h
  obtain ⟨hq, hi, ht, hd, hr⟩ := h
  simp [held, hq, hi, ht, hd, hr, transactionHeld, Table.total]

theorem places_foldl {α : Type} {f : ClientRuntime C → α → ClientRuntime C} (h : ∀ r a, (f r a).places = r.places)
    (l : List α) (r : ClientRuntime C) : (l.foldl f r).places = r.places := by
  induction l generalizing r with
  | nil => rfl
  | cons a l ih => rw [List.foldl_cons, ih, h]

section
variable (r : ClientRuntime C)

theorem places_push (e : Bridge.Event) : (r.push e).places = r.places := rfl

theorem places_fail (id e : String) (d : Json) : (r.fail id e d).places = r.places := rfl

theorem places_complete (id : String) (o : Except String Json) : (r.complete id o).places = r.places := by
  cases o <;> rfl

theorem places_cancelEffect (id : String) : (r.cancelEffect id).places = r.places := by
  unfold cancelEffect
  split <;> rfl

theorem remove_of_get_none {V : Type} {t : Table String V} {k : String} (h : t.get k = none) : t.remove k = t := by
  apply List.eraseP_of_forall_not
  intro e he hk
  have hs := Table.get_isSome_iff.2 (List.mem_map.2 ⟨e, he, of_decide_eq_true hk⟩)
  simp [h] at hs

theorem failDirect_places (id e : String) (d : Json) :
    (r.failDirect id e d).places = (r.tasks.queue, r.tasks.initialReads, r.transaction, r.directs.remove id, r.registrations) := by
  unfold failDirect
  split
  · rename_i h; rw [remove_of_get_none h]; rfl
  · rename_i call _
    have := places_foldl places_cancelEffect (call.http.toList ++ call.timer.toList)
      { r with directs := r.directs.remove id }
    exact this

theorem failCall_places (id : String) (failure : Failure) :
    (r.failCall id failure).places =
      (r.tasks.queue, r.tasks.initialReads, r.transaction, r.directs.remove id, r.registrations) := by
  unfold failCall
  split
  · rename_i h; rw [remove_of_get_none h]; rfl
  · exact failDirect_places ..

theorem total_keys {V : Type} (t : Table String V) :
    t.total (fun e => ({e.1} : Multiset String)) = (t.map (·.1) : List String) := by
  induction t with
  | nil => rfl
  | cons e t ih => simp only [Table.total, List.map_cons, List.sum_cons] at ih ⊢; simp [ih]

/-- Removing every key of a table empties it. -/
theorem foldl_remove_nil {V : Type} (ids : List String) (t : Table String V)
    (h : t.total (fun e => ({e.1} : Multiset String)) = (ids : Multiset String)) : ids.foldl Table.remove t = [] := by
  induction ids generalizing t with
  | nil =>
    cases t with
    | nil => rfl
    | cons e t => simp [Table.total] at h
  | cons k ids ih =>
    cases hg : t.get k with
    | none =>
      have hk : k ∈ t.total (fun e => ({e.1} : Multiset String)) := by rw [h]; simp
      rw [total_keys, Multiset.mem_coe] at hk
      have hs := Table.get_isSome_iff.2 hk
      simp [hg] at hs
    | some v =>
      apply ih
      have ht := Table.total_remove (fun e : String × V => ({e.1} : Multiset String)) hg
      rw [h, ← Multiset.cons_coe, ← Multiset.singleton_add] at ht
      exact (add_left_cancel ht).symm

theorem failDirects_places (failure : Failure) :
    (r.failDirects failure).places = (r.tasks.queue, r.tasks.initialReads, r.transaction, [], r.registrations) := by
  have hfold : ∀ (ids : List String) (r : ClientRuntime C), (ids.foldl (fun r id => r.failCall id failure) r).places =
      (r.tasks.queue, r.tasks.initialReads, r.transaction, ids.foldl Table.remove r.directs, r.registrations) := by
    intro ids
    induction ids with
    | nil => intro r; rfl
    | cons id ids ih =>
      intro r
      have h := r.failCall_places id failure
      simp only [places, Prod.mk.injEq] at h
      obtain ⟨h1, h2, h3, h4, h5⟩ := h
      rw [List.foldl_cons, ih, List.foldl_cons, h1, h2, h3, h4, h5]
  rw [failDirects, hfold, foldl_remove_nil]
  rw [total_keys]
  exact Quotient.sound ((Table.sorted_perm r.directs).map (·.1)).symm

variable (api : ClientApi C)

theorem cancelAll_moves : Moves 0 r (cancelAll r) :=
  Moves.trans_left (s := { r with effects := [] }) (.same rfl rfl rfl rfl) (.foldl_keeps (fun r _ => push_moves r rfl) _ _)

theorem cancelAll_places : (cancelAll r).places = r.places := places_foldl (fun r _ => places_push r _) _ _

theorem closeSession_moves : Moves 0 r (closeSession api r) := by
  unfold closeSession
  split
  · rename_i hx; exact moves_of_ask _ hx
  · rename_i hx; exact (moves_of_ask _ hx).trans_left (error_moves ..)

theorem closeSession_places : (closeSession api r).places = r.places := by
  unfold closeSession ask
  cases (api.rollbackSession r.client).1 <;> rfl

theorem closeTransaction_moves : Moves 0 r (closeTransaction api r) := by
  unfold closeTransaction
  split
  · exact cancelAll_moves r
  · rename_i t ht
    refine .of_taken (s := { r with transaction := none })
      (m := {t.owner} + ((t.localCallback.toList.map (·.requestId) : List String) + (t.lane.map (·.requestId) : List String)))
      ?_ rfl rfl rfl ?_
    · have hl : (t.localCallback.map (·.requestId)).toList = t.localCallback.toList.map (·.requestId) := by
        cases t.localCallback <;> rfl
      simp only [held, ht, transactionHeld, Option.elim, Transaction.held, hl]
      abel
    · have h0 := (closeSession_moves { r with transaction := none } api).trans_left ((cancelAll_moves _).trans_left
        (callTransitions_moves _ t.calls .rolledBack))
      have h1 := h0.trans_left (complete_moves _ t.owner (.error clientClosed))
      exact h1.trans ((Moves.foldl_answers (fun r l => complete_moves r (LocalCallback.requestId l) _) _ _).trans
        (closeCommands_moves ..))

theorem closeTransaction_places : (closeTransaction api r).places =
    (r.tasks.queue, r.tasks.initialReads, none, r.directs, r.registrations) := by
  unfold closeTransaction
  split
  · rename_i ht
    rw [cancelAll_places, places, ht]
  · rename_i t ht
    have hc : ∀ s : ClientRuntime C, (s.closeCommands t.lane clientClosed).places = s.places := fun s =>
      places_foldl (fun r c => places_complete r _ _) _ _
    have hl : ∀ s : ClientRuntime C, (t.localCallback.toList.foldl
        (fun r l => r.complete l.requestId (.error clientClosed)) s).places = s.places := fun s =>
      places_foldl (fun r c => places_complete r _ _) _ _
    have hs : ∀ s : ClientRuntime C, (s.callTransitions t.calls .rolledBack).places = s.places := fun s =>
      places_foldl (fun r _ => places_push r _) _ _
    simp only [hc, hl, places_complete, hs, cancelAll_places, closeSession_places]
    rfl

theorem closeTasks_moves : Moves 0 r (closeTasks r) := by
  refine .of_taken (s := { r with tasks := { r.tasks with queue := [], initialReads := [] } })
    (m := ((r.tasks.queue ++ r.tasks.initialReads).map (·.requestId) : List String)) ?_ rfl rfl rfl
    (.foldl_answers (fun r task => complete_moves r (Queued.requestId task) _) _ _)
  simp only [held, List.map_append, ← Multiset.coe_add, List.map_nil, Multiset.coe_nil]
  abel

theorem closeTasks_places : (closeTasks r).places = ([], [], r.transaction, r.directs, r.registrations) :=
  places_foldl (fun r _ => places_complete r _ _) _ _

theorem closeRegistered_moves (e : Nat × Registration) : Moves e.2.held r (closeRegistered r e) := by
  have h : Moves e.2.held r (e.2.waiters.foldl
      (fun r w => r.fail w.requestId clientClosed (.ofEntries [("code", .str clientClosed)])) r) :=
    Moves.foldl_answers (fun r w => fail_moves r (RunWaiter.requestId w) _ _) _ _
  unfold closeRegistered
  simp only
  split
  · exact h.trans_right (push_moves _ rfl)
  · exact h

theorem closeRegistered_places (e : Nat × Registration) : (closeRegistered r e).places = r.places := by
  have h : (e.2.waiters.foldl (fun r w => r.fail w.requestId clientClosed (.ofEntries [("code", .str clientClosed)])) r).places
      = r.places := places_foldl (fun r w => places_fail r _ _ _) _ _
  unfold closeRegistered
  simp only
  split
  · exact h
  · exact h

theorem closeSqlWatch_moves (e : Nat × SqlWatch) : Moves 0 r (closeSqlWatch api r e) := by
  unfold closeSqlWatch
  refine Moves.trans_left ?_ (push_moves _ rfl)
  exact .same rfl rfl rfl rfl

theorem closeObservers_moves : Moves 0 r (closeObservers api r) := by
  refine .of_taken (s := { r with registrations := [] }) (m := r.registrations.total fun e => e.2.held) ?_ rfl rfl rfl ?_
  · simp [held, Table.total]; abel
  · have hr : Moves (r.registrations.total fun e => e.2.held) { r with registrations := [] }
        (r.registrations.sorted.foldl closeRegistered { r with registrations := [] }) := by
      have := Moves.foldl (fun r e => closeRegistered_moves r e) r.registrations.sorted { r with registrations := [] }
      rwa [((Table.sorted_perm r.registrations).map _).sum_eq] at this
    have hw : ∀ s : ClientRuntime C, Moves 0 s (s.watches.sorted.foldl
        (fun r e => r.push (.observerChanged (toString e.1) e.2.closedSnapshot)) { s with watches := [] }) := fun s =>
      Moves.trans_left (s := { s with watches := [] }) (.same rfl rfl rfl rfl) (.foldl_keeps (fun r _ => push_moves r rfl) _ _)
    have hs : ∀ s : ClientRuntime C, Moves 0 s (s.sqlWatches.sorted.foldl (closeSqlWatch api) { s with sqlWatches := [] }) :=
      fun s => Moves.trans_left (s := { s with sqlWatches := [] }) (.same rfl rfl rfl rfl)
        (.foldl_keeps (fun r e => closeSqlWatch_moves r api e) _ _)
    exact hr.trans_right ((hw _).trans_left (hs _))

theorem closeObservers_places : (closeObservers api r).places =
    (r.tasks.queue, r.tasks.initialReads, r.transaction, r.directs, []) := by
  have hs : ∀ (s : ClientRuntime C) (e : Nat × SqlWatch), (closeSqlWatch api s e).places = s.places := fun _ _ => rfl
  have h1 := places_foldl (fun r e => closeRegistered_places r e) r.registrations.sorted { r with registrations := [] }
  exact (places_foldl hs _ _).trans ((places_foldl (fun r _ => places_push r _) _ _).trans h1)

theorem closeUnsent_moves : Moves 0 r (closeUnsent r) :=
  Moves.trans_left (s := { r with unsent := [] }) (.same rfl rfl rfl rfl) (.foldl_keeps (fun r _ => push_moves r rfl) _ _)

theorem closeUnsent_places : (closeUnsent r).places = r.places := places_foldl (fun r _ => places_push r _) _ _

/-- Close answers every request that was held, and holds nothing after it. -/
theorem close_answers : ∃ s : ClientRuntime C, Moves 0 r s ∧ s.held = 0 ∧
    close api r = { s with lifecycle := .closed }.push .runtimeClosed := by
  refine ⟨closeUnsent (closeObservers api (closeLanes ((closeTasks (closeTransaction api r)).failDirects .unavailable))),
    ?_, ?_, rfl⟩
  · have h1 := (closeTransaction_moves r api).trans_left (closeTasks_moves _)
    have h2 := h1.trans_left (failDirects_moves _ .unavailable)
    have h3 : Moves 0 ((closeTasks (closeTransaction api r)).failDirects .unavailable)
        (closeLanes ((closeTasks (closeTransaction api r)).failDirects .unavailable)) := .same rfl rfl rfl rfl
    exact (h2.trans_left h3).trans_left ((closeObservers_moves ..).trans_left (closeUnsent_moves _))
  · have hp := closeTransaction_places r api
    have hk := closeTasks_places (closeTransaction api r)
    have hd := failDirects_places (closeTasks (closeTransaction api r)) .unavailable
    have ho := closeObservers_places (closeLanes ((closeTasks (closeTransaction api r)).failDirects .unavailable)) api
    apply held_eq_zero
    rw [closeUnsent_places, ho]
    simp only [places, Prod.mk.injEq] at hp hk hd
    obtain ⟨-, -, h3, -, -⟩ := hp
    obtain ⟨k1, k2, k3, -, -⟩ := hk
    obtain ⟨d1, d2, d3, d4, -⟩ := hd
    simp only [closeLanes, closePrerequisites, d1, d2, d3, d4, k1, k2, k3, h3]

end

/-! ## Inputs and the Store worker -/

section
variable (r : ClientRuntime C) (api : ClientApi C) (P : Platform)

theorem settled_moves (report : Announced) : Moves 0 r (settled r report) := by
  refine Moves.trans_left ?_ (.foldl_keeps (fun r _ => push_moves r rfl) _ _)
  split
  · exact .refl r
  · exact push_moves r rfl

theorem storeWork_moves (command : StoreCommand) : Moves 0 r (storeWork api r command).2 := by
  unfold storeWork
  split
  · refine Moves.trans_left ?_ (ask_moves ..)
    refine Moves.trans_left ?_ (publishStatuses_moves _)
    exact .same rfl rfl rfl rfl
  · exact .andThen (r.ask_moves _) fun _ r => (releaseInitialReads_moves ..).trans_left (ask_moves ..)
  · refine .andThen (r.ask_moves _) fun report r => (settled_moves r report).trans_left (.andThen ?_ fun _ r =>
      .andThen (r.ask_moves _) fun _ r => r.ask_moves _)
    split
    · exact .refl _
    · exact ask_moves ..
  · exact r.ask_moves _
  · exact r.ask_moves _
  · exact r.ask_moves _
  · exact .andThen (r.ask_moves _) fun report r => (settled_moves r report).trans_left (ask_moves ..)
  · refine .andThen (r.ask_moves _) fun report r => (settled_moves r report).trans_left
      (.andThen (ask_moves ..) fun pending r => ?_)
    refine Moves.trans_left ?_ (.andThen (ask_moves ..) fun _ r => r.ask_moves _)
    split
    · exact .refl r
    · exact releaseInitialReads_moves ..

theorem storeWorker_moves (command : StoreCommand) : Moves 0 r (storeWorker api r command).2 := by
  unfold storeWorker
  have h := r.storeWork_moves api command
  split
  · exact .refl r
  · simp only
    split
    · exact h
    · rename_i hx; rw [hx] at h; exact h
    · rename_i hx
      rw [hx] at h
      exact h.trans_left ((committedSince_moves ..).trans_left (publish_moves ..))

theorem storeWorkerGuarded_moves (current : Bool) (context : RequestContext) (command : StoreCommand) :
    Moves 0 r (storeWorkerGuarded api r current context command).2 := by
  unfold storeWorkerGuarded
  split
  · exact .refl r
  · refine .andThen (r.ask_moves _) fun active r => ?_
    split
    · exact .refl r
    · exact storeWorker_moves ..

theorem receive_accepts {input : Input} {now entropy : Nat} (ho : r.lifecycle = .opened) :
    (receive api r input now entropy).1 = true := by
  unfold receive
  rw [if_neg (by simp [ho])]
  split
  · split <;> rfl
  · split <;> rfl
  · rfl
  · rfl
  · rfl

/-- An input while the runtime is open and its id, if it has one, is not routed: the request is taken in. -/
theorem receive_moves {input : Input} {now entropy : Nat} {s : ClientRuntime C} (ho : r.lifecycle = .opened)
    (hf : ∀ id ∈ input.requestId, id ∉ r.tasks.routed) (hs : (receive api r input now entropy).2 = s) :
    s.held + s.answered = (input.requestId.toList : List String) + (r.held + r.answered) ∧
      s.tasks.routed ⊆ r.tasks.routed ++ input.requestId.toList ∧ s.lifecycle ≠ .closed := by
  unfold receive at hs
  rw [if_neg (by simp [ho])] at hs
  have none_case : ∀ u : ClientRuntime C, input.requestId = none → Moves 0 r u → u = s →
      s.held + s.answered = (input.requestId.toList : List String) + (r.held + r.answered) ∧
        s.tasks.routed ⊆ r.tasks.routed ++ input.requestId.toList ∧ s.lifecycle ≠ .closed := by
    rintro u hn hm rfl
    refine ⟨by rw [hm.tally, hn]; rfl, fun _ h => by simpa [hn] using hm.routed h, ?_⟩
    rw [hm.lifecycle, ho]; simp
  cases input with
  | task requestId command =>
    have hr : requestId ∉ r.tasks.routed := hf requestId rfl
    simp only [admitRequest, List.contains_eq_mem, hr, decide_false, Bool.false_eq_true, if_false] at hs
    subst hs
    refine ⟨?_, fun _ h => h, by rw [ho]; simp⟩
    simp only [held, answered, Input.requestId, Option.toList_some, List.map_append, List.map_cons, List.map_nil,
      ← Multiset.coe_add]
    abel
  | transactionCommand requestId transactionId scope companionId command =>
    have hr : requestId ∉ r.tasks.routed := hf requestId rfl
    simp only [admitRequest, List.contains_eq_mem, hr, decide_false, Bool.false_eq_true, if_false] at hs
    have hm := continueTransaction_moves { r with tasks := { r.tasks with routed := r.tasks.routed ++ [requestId] } }
      ⟨requestId, transactionId, scope, companionId, command⟩
    subst hs
    exact ⟨hm.tally, hm.routed, by rw [hm.lifecycle]; simp [ho]⟩
  | callbackResult effectId transactionId companionId ok error input =>
    exact none_case _ rfl (r.callbackResult_moves ..) hs
  | effectResult effectId outcome =>
    refine none_case _ rfl ?_ hs
    refine Moves.trans_left ?_ (publishStatuses_moves _)
    refine (r.effectResult_moves api.parseJson effectId outcome now entropy).trans_left ?_
    split
    · exact .same rfl rfl rfl rfl
    · exact .refl _
  | close =>
    subst hs
    exact ⟨by simp [Input.requestId]; rfl, fun _ h => by simpa [Input.requestId] using h, by simp⟩

end

end ClientRuntime

end Axton
