import Axton.Runtime.Tasks
import Mathlib.Algebra.Order.Group.Multiset
import Mathlib.Algebra.BigOperators.Group.List.Basic
import Mathlib.Tactic.Abel

/-!
# Every request is answered once

A request that was admitted is in exactly one place until its completion is queued: the FIFO, the reads held
back for the initial content, the open transaction (its owner, its lane or its local callback), the direct
calls, or the waiters of a Bootstrap run. `held` counts those places and `answered` the completions queued;
every method of the runtime leaves their sum alone (`Moves 0`) or adds the request it was handed
(`Moves {id}`), and close leaves nothing held.
-/

namespace Axton

open Bridge

namespace ClientRuntime

variable {C : Type}

/-! ## Where a request is -/

def Registration.held (g : Registration) : Multiset String := (g.waiters.map (·.requestId) : List String)

def Transaction.held (t : Transaction) : Multiset String :=
  {t.owner} + (t.lane.map (·.requestId) : List String) + (t.localCallback.map (·.requestId)).toList

def transactionHeld (t : Option Transaction) : Multiset String := t.elim 0 Transaction.held

def held (r : ClientRuntime C) : Multiset String :=
  (r.tasks.queue.map (·.requestId) : List String) + (r.tasks.initialReads.map (·.requestId) : List String)
    + transactionHeld r.transaction + r.directs.total (fun e => {e.1}) + r.registrations.total fun e => e.2.held

def answered (r : ClientRuntime C) : Multiset String := (r.events.filterMap Bridge.Event.completes : List String)

/-- `m` came to the runtime between `r` and `r'`; nothing else was lost, doubled or taken back. -/
structure Moves (m : Multiset String) (r r' : ClientRuntime C) : Prop where
  tally : r'.held + r'.answered = m + (r.held + r.answered)
  answered : r.answered ≤ r'.answered
  routed : r'.tasks.routed ⊆ r.tasks.routed
  lifecycle : r'.lifecycle = r.lifecycle

namespace Moves

variable {r s t : ClientRuntime C} {m n : Multiset String}

theorem refl (r : ClientRuntime C) : Moves 0 r r := ⟨by simp, le_rfl, fun _ h => h, rfl⟩

theorem trans (h : Moves m r s) (k : Moves n s t) : Moves (m + n) r t where
  tally := by rw [k.tally, h.tally]; abel
  answered := h.answered.trans k.answered
  routed := fun _ i => h.routed (k.routed i)
  lifecycle := k.lifecycle.trans h.lifecycle

theorem trans_left (h : Moves 0 r s) (k : Moves m s t) : Moves m r t := by simpa using h.trans k

theorem trans_right (h : Moves m r s) (k : Moves 0 s t) : Moves m r t := by simpa using h.trans k

/-- A step that touches no place of a request and queues no event. -/
theorem same (hh : s.held = r.held) (he : s.events = r.events) (hr : s.tasks.routed = r.tasks.routed)
    (hl : s.lifecycle = r.lifecycle) : Moves 0 r s where
  tally := by rw [hh, ClientRuntime.answered, he]; simp [ClientRuntime.answered]
  answered := by rw [ClientRuntime.answered, ClientRuntime.answered, he]
  routed := by rw [hr]; exact fun _ h => h
  lifecycle := hl

/-- A step that hands requests from their place to what follows. -/
theorem of_taken (hh : r.held = m + s.held) (he : s.events = r.events) (hr : s.tasks.routed = r.tasks.routed)
    (hl : s.lifecycle = r.lifecycle) (h : Moves m s t) : Moves 0 r t where
  tally := by
    have ha : s.answered = r.answered := by rw [ClientRuntime.answered, he, ClientRuntime.answered]
    rw [h.tally, hh, ha]; abel
  answered := by
    have ha : s.answered = r.answered := by rw [ClientRuntime.answered, he, ClientRuntime.answered]
    rw [← ha]; exact h.answered
  routed := by rw [← hr]; exact h.routed
  lifecycle := h.lifecycle.trans hl

/-- A step that puts requests in a place. -/
theorem placed (hh : s.held = m + r.held) (he : s.events = r.events) (hr : s.tasks.routed = r.tasks.routed)
    (hl : s.lifecycle = r.lifecycle) : Moves m r s where
  tally := by rw [hh, ClientRuntime.answered, he]; simp only [ClientRuntime.answered]; abel
  answered := by rw [ClientRuntime.answered, ClientRuntime.answered, he]
  routed := by rw [hr]; exact fun _ h => h
  lifecycle := hl

theorem foldl {α : Type} {f : ClientRuntime C → α → ClientRuntime C} {g : α → Multiset String}
    (h : ∀ r a, Moves (g a) r (f r a)) (l : List α) (r : ClientRuntime C) : Moves (l.map g).sum r (l.foldl f r) := by
  induction l generalizing r with
  | nil => simpa using refl r
  | cons a l ih =>
    simp only [List.map_cons, List.sum_cons, List.foldl_cons]
    exact (h r a).trans (ih _)

theorem foldl_keeps {α : Type} {f : ClientRuntime C → α → ClientRuntime C} (h : ∀ r a, Moves 0 r (f r a)) (l : List α)
    (r : ClientRuntime C) : Moves 0 r (l.foldl f r) := by
  have := foldl h l r
  rwa [show (l.map fun _ => (0 : Multiset String)).sum = 0 by simp] at this

/-- A fold that answers one request for each entry. -/
theorem foldl_answers {α : Type} {f : ClientRuntime C → α → ClientRuntime C} {g : α → String}
    (h : ∀ r a, Moves {g a} r (f r a)) (l : List α) (r : ClientRuntime C) :
    Moves (l.map g : List String) r (l.foldl f r) := by
  have hm : (l.map fun a => ({g a} : Multiset String)).sum = (l.map g : List String) := by
    induction l with
    | nil => rfl
    | cons a l ih => simp [ih]
  have := foldl (g := fun a => {g a}) h l r
  rwa [hm] at this

theorem andThen {α β : Type} {x : Attempt C α} {f : α → ClientRuntime C → Attempt C β} (hx : Moves 0 r x.2)
    (hf : ∀ a s, Moves 0 s (f a s).2) : Moves 0 r (x.andThen f).2 := by
  obtain ⟨_ | a, s⟩ := x
  · exact hx
  · exact hx.trans_left (hf a s)

end Moves

/-! ## Events and outcomes -/

section
variable (r : ClientRuntime C)

theorem answered_push (e : Bridge.Event) : (r.push e).answered = r.answered + (e.completes.toList : List String) := by
  cases h : e.completes <;> simp [push, answered, h, ← Multiset.coe_add]

theorem push_moves {e : Bridge.Event} (h : e.completes = none) : Moves 0 r (r.push e) where
  tally := by rw [answered_push, h]; simp [push, held]
  answered := by rw [answered_push]; exact Multiset.le_add_right _ _
  routed := fun _ m => m
  lifecycle := rfl

theorem settle_answered (id : String) (o : Except String Json) (d : Option Json) :
    (r.settle id o d).answered = r.answered + {id} := by
  cases o <;> exact answered_push _ _

theorem settle_moves (id : String) (o : Except String Json) (d : Option Json) : Moves {id} r (r.settle id o d) where
  tally := by
    have hh : (r.settle id o d).held = r.held := rfl
    rw [settle_answered, hh]; abel
  answered := by rw [settle_answered]; exact Multiset.le_add_right _ _
  routed := fun _ m => (List.mem_filter.1 m).1
  lifecycle := rfl

theorem complete_moves (id : String) (o : Except String Json) : Moves {id} r (r.complete id o) := by
  cases o with
  | ok v => exact r.settle_moves id (.ok v) none
  | error e => exact r.settle_moves id (.error e) _

theorem fail_moves (id e : String) (d : Json) : Moves {id} r (r.fail id e d) := r.settle_moves id _ _

theorem error_moves (e : String) : Moves 0 r (r.error e) := r.push_moves rfl

theorem ask_moves {α : Type} (call : Answer C α) : Moves 0 r (r.ask call).2 := .same rfl rfl rfl rfl

theorem moves_of_ask {α : Type} {call : Answer C α} {o : Except String α} {s : ClientRuntime C}
    (h : r.ask call = (o, s)) : Moves 0 r s := by
  have := r.ask_moves call
  rwa [h] at this

theorem issue_moves : Moves 0 r r.issue.2 := by
  unfold issue
  split
  · exact .same rfl rfl rfl rfl
  · exact .refl r

end

/-! ## Registrations -/

section
variable {r : ClientRuntime C}

/-- The waiters that leave a registration are what it held more before. -/
theorem held_setRegistration {id : Nat} {g : Registration} (g' : Registration) {m : Multiset String}
    (hg : r.registrations.get id = some g) (h : g.held = m + g'.held) :
    r.held = m + { r with registrations := r.registrations.set id g' }.held := by
  have hs := Table.total_set (fun e : Nat × Registration => e.2.held) hg g'
  simp only [h] at hs
  have ht : r.registrations.total (fun e => e.2.held)
      = m + (r.registrations.set id g').total fun e => e.2.held := by
    apply add_right_cancel (b := g'.held)
    rw [← hs]; abel
  simp only [held, ht]; abel

theorem setRegistration_moves {id : Nat} {g g' : Registration} (hg : r.registrations.get id = some g)
    (h : g'.held = g.held) : Moves 0 r { r with registrations := r.registrations.set id g' } := by
  refine .same ?_ rfl rfl rfl
  rw [held_setRegistration (m := 0) g' hg (by rw [h, zero_add]), zero_add]

theorem ids_split {α : Type} (g : α → String) (xs : List α) (p : α → Bool) :
    ((xs.map g : List String) : Multiset String) =
      ((xs.filter p).map g : List String) + ((xs.filter fun x => !p x).map g : List String) := by
  induction xs with
  | nil => rfl
  | cons x xs ih =>
    by_cases h : p x = true
    · simp only [List.map_cons, List.filter_cons, h, if_true, Bool.not_true, Bool.false_eq_true, if_false,
        ← Multiset.cons_coe, ih, Multiset.cons_add]
    · simp only [List.map_cons, List.filter_cons, h, Bool.false_eq_true, if_false, Bool.not_false, if_true,
        ← Multiset.cons_coe, ih, Multiset.add_cons]

variable (r)

theorem observeRun_moves (state : BootstrapState) : Moves 0 r (r.observeRun state) := by
  unfold observeRun
  split
  · exact .refl r
  · rename_i g hg
    split
    · exact .refl r
    · -- the waiters of older runs and of this run, when it ended, leave the registration and are answered
      have hs := ids_split RunWaiter.requestId g.waiters fun w => decide (w.run < state.run)
      have hl := ids_split RunWaiter.requestId (g.waiters.filter fun w => !decide (w.run < state.run))
        (RunWaiter.settles state)
      refine .of_taken (held_setRegistration _ hg ?_) rfl rfl rfl
        ((Moves.foldl_answers (g := RunWaiter.requestId) ?_ _ _).trans
          (Moves.foldl_answers (g := RunWaiter.requestId) ?_ _ _))
      · simp only [Registration.held, hs, hl]; abel
      · intro r w
        split
        · exact fail_moves ..
        · exact complete_moves ..
      · exact fun r w => fail_moves ..

theorem closeRegistration_moves (id : Nat) (code : String) : Moves 0 r (r.closeRegistration id code) := by
  unfold closeRegistration
  split
  · exact .refl r
  · rename_i g hg
    have ht := Table.total_remove (fun e : Nat × Registration => e.2.held) hg
    have answers : ∀ s : ClientRuntime C, Moves g.held s
        (g.waiters.foldl (fun r w => r.fail w.requestId code (.ofEntries [("code", .str code)])) s) :=
      fun s => Moves.foldl_answers (fun r w => fail_moves ..) _ _
    refine .of_taken (s := { r with registrations := r.registrations.remove id }) (m := g.held) ?_ rfl rfl rfl ?_
    · simp only [held, ht]; abel
    · split
      · exact (answers _).trans_right (push_moves _ rfl)
      · exact answers _

theorem rebuiltObservers_moves : Moves 0 r r.rebuiltObservers :=
  .foldl_keeps (fun r _ => r.closeRegistration_moves ..) _ _

theorem publishStatus_moves (status : String) (id : Nat) : Moves 0 r (publishStatus status r id) := by
  unfold publishStatus
  split
  · exact .refl r
  · rename_i g hg
    split
    · exact .refl r
    · split
      · exact .refl r
      · have h : Moves 0 r { r with registrations := r.registrations.set id { g with published := some (g.status status) } } :=
          setRegistration_moves hg rfl
        exact h.trans_left (push_moves _ rfl)

theorem publishStatuses_moves : Moves 0 r r.publishStatuses := .foldl_keeps (fun r id => r.publishStatus_moves _ id) _ _

theorem markReady_moves (id : Nat) (ready : Bool) : Moves 0 r (markReady r id ready) := by
  unfold markReady
  split
  · exact .refl r
  · rename_i g hg; exact setRegistration_moves hg rfl

variable (api : ClientApi C)

theorem observeStored_moves (stream : String) (id : Nat) : Moves 0 r (observeStored api r stream id) := by
  unfold observeStored
  split
  · rename_i hx; exact (r.moves_of_ask hx).trans_left (observeRun_moves ..)
  · rename_i hx; exact (r.moves_of_ask hx).trans_left (error_moves ..)

theorem reconcileRegistration_moves (id : Nat) (stream : String) : Moves 0 r (reconcileRegistration api r id stream) := by
  unfold reconcileRegistration
  split
  · rename_i hx; exact (r.moves_of_ask hx).trans_left (error_moves ..)
  · rename_i hx; exact (r.moves_of_ask hx).trans_left (closeRegistration_moves ..)
  · rename_i state s hx
    refine (r.moves_of_ask hx).trans_left ?_
    split
    · exact closeRegistration_moves ..
    · refine (markReady_moves s id state.startingCursor.isSome).trans_left ?_
      split
      · rename_i hy; exact (moves_of_ask _ hy).trans_left (observeRun_moves ..)
      · rename_i hy; exact moves_of_ask _ hy

theorem reconcileRegistrations_moves : Moves 0 r (reconcileRegistrations api r) :=
  .foldl_keeps (fun r _ => reconcileRegistration_moves r api ..) _ _

theorem committedSince_moves (generation : Nat) : Moves 0 r (committedSince api r generation) := by
  unfold committedSince
  split
  · exact .refl r
  · exact Moves.trans_left (s := { r with stale := true }) (.same rfl rfl rfl rfl) (reconcileRegistrations_moves _ _)

theorem ensureRegistration_moves (id : Nat) (stream : String) : Moves 0 r (ensureRegistration r id stream) := by
  unfold ensureRegistration
  split
  · exact .refl r
  · rename_i hg
    have hn : r.registrations.get id = none := by simpa using hg
    refine .same ?_ rfl rfl rfl
    have ht := Table.total_set_new (fun e : Nat × Registration => e.2.held) hn { stream }
    have hz : Registration.held { stream } = 0 := rfl
    simp only [held, ht, hz, add_zero]

theorem nameObserver_moves (id : Nat) (observer : String) (ready : Bool) :
    Moves 0 r (nameObserver r id observer ready) := by
  unfold nameObserver
  split
  · exact .refl r
  · rename_i g hg; exact setRegistration_moves hg rfl

theorem subscribeStream_moves (stream : String) : Moves 0 r (subscribeStream api r stream).2 := by
  refine .andThen (r.ask_moves _) fun found r => ?_
  split
  · exact .refl r
  · rename_i state
    refine .andThen ?_ fun observer r => ?_
    · split
      · exact .refl r
      · exact .andThen r.issue_moves fun n r => .refl r
    · have hn := (ensureRegistration_moves r state.subscriptionId state.stream).trans_left
        (nameObserver_moves _ state.subscriptionId observer state.startingCursor.isSome)
      refine hn.trans_left ?_
      simp only
      split
      · exact .refl _
      · exact observeStored_moves ..

/-- A task either answers at once or is held until something answers it. -/
def Parks {α : Type} (id : String) (r : ClientRuntime C) (x : Option α × ClientRuntime C) : Prop :=
  Moves (if x.1.isNone then {id} else 0) r x.2

theorem parkWaiter_moves {id : Nat} (h : (r.registrations.get id).isSome) (run : Nat) (requestId : String) :
    Moves {requestId} r (parkWaiter r id run requestId) := by
  unfold parkWaiter
  split
  · rename_i hg; simp [hg] at h
  · rename_i g hg
    have ht := Table.total_set (fun e : Nat × Registration => e.2.held) hg
      { g with waiters := g.waiters ++ [⟨run, requestId⟩] }
    have hw : Registration.held { g with waiters := g.waiters ++ [⟨run, requestId⟩] } = {requestId} + g.held := by
      simp [Registration.held, ← Multiset.coe_add, ← Multiset.cons_coe, add_comm]
    simp only [hw] at ht
    refine .placed ?_ rfl rfl rfl
    have hs : (r.registrations.set id { g with waiters := g.waiters ++ [⟨run, requestId⟩] }).total (fun e => e.2.held)
        = {requestId} + r.registrations.total fun e => e.2.held := by
      apply add_right_cancel (b := g.held)
      rw [ht]; abel
    simp only [held, hs]; abel

theorem ensureRegistration_isSome (id : Nat) (stream : String) :
    ((ensureRegistration r id stream).registrations.get id).isSome := by
  unfold ensureRegistration
  split
  · assumption
  · simp

theorem bootstrapStream_parks (requestId stream : String) (subscriptionId : Nat) :
    Parks requestId r (bootstrapStream api r requestId stream subscriptionId) := by
  have h := (r.ask_moves (api.bootstrapState stream subscriptionId)).trans_left
    (committedSince_moves _ api (api.generation r.client))
  unfold bootstrapStream Parks
  simp only
  split
  · exact h
  · rename_i state _
    refine h.trans_left ((ensureRegistration_moves _ state.subscriptionId state.stream).trans_left ?_)
    split
    · exact observeRun_moves ..
    · exact (parkWaiter_moves _ (ensureRegistration_isSome ..) _ _).trans_right
        ((observeRun_moves ..).trans_left (observeStored_moves ..))

/-! ## Watches -/

theorem watch_moves (model : String) (spec : Option WatchSpec) : Moves 0 r (watch api r model spec).2 := by
  unfold watch
  simp only
  split
  · exact .refl r
  · exact .andThen (r.ask_moves _) fun rows r => .andThen r.issue_moves fun id r => .same rfl rfl rfl rfl

theorem watchSnapshot_moves (observerId : String) : Moves 0 r (watchSnapshot r observerId).2 := by
  unfold watchSnapshot
  split
  · exact .refl r
  · exact .same rfl rfl rfl rfl

theorem unwatch_moves (observerId : String) : Moves 0 r (unwatch api r observerId).2 := by
  unfold unwatch unwatchSql
  simp only
  split
  · exact .refl r
  · split
    · exact .same rfl rfl rfl rfl
    · split
      · exact .refl r
      · exact .same rfl rfl rfl rfl

theorem refreshFailed_moves (id : Nat) (w : Watch) (e : String) : Moves 0 r (refreshFailed r id w e) :=
  Moves.trans_left (s := { r with watches := r.watches.set id { w with retryFull := true } })
    (.same rfl rfl rfl rfl) (error_moves ..)

theorem refreshWatch_moves (changes : Table String ModelChange) (committed : Bool) (id : Nat) :
    Moves 0 r (refreshWatch api changes committed r id) := by
  unfold refreshWatch
  split
  · exact .refl r
  · split
    · exact .refl r
    · split
      · exact .refl r
      · split
        · exact .refl r
        · split
          · simp only
            split
            · rename_i hx; exact (r.moves_of_ask hx).trans_left (refreshFailed_moves ..)
            · rename_i hx
              refine (r.moves_of_ask hx).trans_left ?_
              split
              · exact refreshFailed_moves ..
              · exact .same rfl rfl rfl rfl
          · split
            · rename_i hx; exact (r.moves_of_ask hx).trans_left (refreshFailed_moves ..)
            · rename_i hx; exact (r.moves_of_ask hx).trans_left (.same rfl rfl rfl rfl)

theorem refreshWatches_moves : Moves 0 r (refreshWatches api r) := by
  refine Moves.trans_left (s := { r with client := (api.takeModelChanges r.client).2, stale := false })
    (.same rfl rfl rfl rfl) ?_
  exact .foldl_keeps (fun r id => refreshWatch_moves r api _ _ id) _ _

theorem publishWatch_moves (id : Nat) : Moves 0 r (publishWatch r id) := by
  unfold publishWatch
  split
  · exact .refl r
  · rename_i w _
    split
    · exact .refl r
    · exact Moves.trans_left (s := { r with watches := r.watches.set id w.publication.2 }) (.same rfl rfl rfl rfl)
        (push_moves _ rfl)

theorem watchSql_moves (sql : String) (parameters : List Json) : Moves 0 r (watchSql api r sql parameters).2 :=
  .andThen (r.ask_moves _) fun _ r => .andThen (r.ask_moves _) fun _ r => .andThen r.issue_moves fun _ _ =>
    .same rfl rfl rfl rfl

theorem rerunSqlWatch_moves (id : Nat) : Moves 0 r (rerunSqlWatch api r id) := by
  unfold rerunSqlWatch
  split
  · exact .refl r
  · split
    · exact .refl r
    · rename_i watcher _
      refine Moves.trans_left (s := { r with client := (api.drain watcher r.client).2 }) (.same rfl rfl rfl rfl) ?_
      simp only
      split
      · exact .refl _
      · split
        · rename_i hx; exact (moves_of_ask _ hx).trans_left (error_moves ..)
        · rename_i hx
          refine (moves_of_ask _ hx).trans_left ?_
          split
          · exact .refl _
          · exact .same rfl rfl rfl rfl

theorem rerunSqlWatches_moves : Moves 0 r (rerunSqlWatches api r) := by
  unfold rerunSqlWatches
  split
  · exact .refl r
  · exact .foldl_keeps (fun r id => rerunSqlWatch_moves r api id) _ _

theorem publishSqlWatch_moves (id : Nat) : Moves 0 r (publishSqlWatch r id) := by
  unfold publishSqlWatch
  split
  · exact .refl r
  · rename_i w _
    split
    · exact .refl r
    · exact Moves.trans_left (s := { r with sqlWatches := r.sqlWatches.set id { w with published := true } })
        (.same rfl rfl rfl rfl) (push_moves _ rfl)

theorem unsentWatch_moves (view : UnsentView) : Moves 0 r (unsentWatch api r view).2 :=
  .andThen (r.ask_moves _) fun _ r => .andThen r.issue_moves fun _ _ => .same rfl rfl rfl rfl

theorem unwatchUnsent_moves (observerId : String) : Moves 0 r (unwatchUnsent r observerId) := by
  unfold unwatchUnsent
  split
  · exact .refl r
  · exact .same rfl rfl rfl rfl

theorem rerunUnsent_moves (id : Nat) : Moves 0 r (rerunUnsent api r id) := by
  unfold rerunUnsent
  split
  · exact .refl r
  · split
    · rename_i hx; exact (r.moves_of_ask hx).trans_left (error_moves ..)
    · rename_i hx
      refine (r.moves_of_ask hx).trans_left ?_
      split
      · exact .refl _
      · exact .same rfl rfl rfl rfl

theorem publishUnsentOne_moves (id : Nat) : Moves 0 r (publishUnsentOne r id) := by
  unfold publishUnsentOne
  split
  · exact .refl r
  · rename_i o _
    split
    · exact .refl r
    · exact Moves.trans_left (s := { r with unsent := r.unsent.set id { o with published := true } })
        (.same rfl rfl rfl rfl) (push_moves _ rfl)

theorem publishUnsent_moves : Moves 0 r (publishUnsent api r) := by
  unfold publishUnsent
  refine Moves.trans_left ?_ (.foldl_keeps (fun r id => publishUnsentOne_moves r id) _ _)
  split
  · exact .foldl_keeps (fun r id => rerunUnsent_moves r api id) _ _
  · exact .refl r

theorem publish_moves : Moves 0 r (publish api r) := by
  have hw : Moves 0 (publishUnsent api r) (if (publishUnsent api r).transaction.isNone
      then refreshWatches api (publishUnsent api r) else publishUnsent api r) := by
    split
    · exact refreshWatches_moves ..
    · exact .refl _
  exact ((((publishUnsent_moves r api).trans_left hw).trans_left (rerunSqlWatches_moves _ api)).trans_left
    (publishStatuses_moves _)).trans_left ((Moves.foldl_keeps (fun r id => publishWatch_moves r id) _ _).trans_left
      (.foldl_keeps (fun r id => publishSqlWatch_moves r id) _ _))

end

end ClientRuntime

end Axton
