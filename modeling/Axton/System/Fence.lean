import Axton.System.Session

/-!
# Stale work is fenced

A command is drained under an epoch and a context, and an effect under a number of its own. Epochs only grow and
numbers are never used again, so once Control stopped, paused, shook hands or saw another store, nothing that
was under way before reaches it: the commands are obsolete when they start, their reports do not pass the fence
and the cancelled effects have no flight to answer.

One path leaves the fence: the worker reads the store's context before it wraps the command's result, and a
failure of that read comes back bare. The actor then calls `failed` whatever happened in between.
-/

namespace Axton

namespace Control

/-! ## Neither an epoch nor an effect comes back -/

theorem push_onward (c : Control) (j : StoreCommand) : Onward c (c.push j) := .of_eq rfl rfl rfl (Nat.le_refl _)

theorem tell_onward (c : Control) (d : Diagnostic) : Onward c (c.tell d) :=
  .of_sub (List.Sublist.refl _) rfl (fun id h => by simpa [tell] using h) (Nat.le_refl _)

theorem retireBootstrapPrefetch_onward (c : Control) : Onward c c.retireBootstrapPrefetch :=
  (cancelFlights_onward c _).trans (.of_eq rfl rfl rfl (Nat.le_refl _))

theorem newEpoch_onward (c : Control) : Onward c c.newEpoch := .of_eq rfl rfl rfl (Nat.le_succ _)

theorem handshake_onward (c : Control) : Onward c c.handshake :=
  (((retireBootstrapPrefetch_onward c).trans (newEpoch_onward _)).trans (cancelFlights_onward _ _)).trans
    (effect_onward _ _ _)

theorem connect_onward (c : Control) : Onward c c.connect :=
  Onward.trans (b := { c with connected := true, paused := false }) (.of_eq rfl rfl rfl (Nat.le_refl _))
    (handshake_onward _)

theorem stop_onward (c : Control) : Onward c c.stop :=
  ((newEpoch_onward c).cancelFlights fun _ => true).update rfl rfl rfl (Nat.le_refl _)

theorem pause_onward (c : Control) : Onward c c.pause :=
  (stop_onward c).trans (.of_eq rfl rfl rfl (Nat.le_refl _))

theorem wake_onward (c : Control) : Onward c c.wake := by
  unfold wake
  split
  · exact .of_eq rfl rfl rfl (Nat.le_refl _)
  · exact .refl c

theorem resend_onward (c : Control) (f : Flight) : Onward c (c.resend f) := by
  cases f with
  | handshake r => exact effect_onward c _ _
  | delta r => exact effect_onward c _ _
  | owned r => exact effect_onward c _ _
  | push r => exact effect_onward c _ _
  | socket => exact handshake_onward c
  | expire => exact .refl c
  | retry => exact .refl c
  | refresh => exact .refl c

theorem retryStatus_onward (c : Control) (m : String) (status : Option Nat) : Onward c (c.retryStatus m status) := by
  unfold retryStatus
  simp only
  split
  · refine Onward.effect ?_ _ _
    exact (tell_onward c _).update rfl rfl rfl (Nat.le_refl _)
  · exact tell_onward c _

theorem blockPlan_onward (c : Control) : Onward c c.blockPlan := by
  unfold blockPlan
  split
  · exact .refl c
  · split
    · exact .of_eq rfl rfl rfl (Nat.le_refl _)
    · split
      · exact .of_eq rfl rfl rfl (Nat.le_refl _)
      · exact .of_eq rfl rfl rfl (Nat.le_refl _)

theorem failed_onward (c : Control) (m : String) : Onward c (c.failed m) := by
  have blocked := (retireBootstrapPrefetch_onward c).trans (blockPlan_onward _)
  refine Onward.trans ?_ (retryStatus_onward _ _ _)
  exact blocked.update rfl rfl rfl (Nat.le_refl _)

theorem owned_onward (c : Control) (r : MaterializationRequest) : Onward c (c.owned r) := by
  unfold owned
  split
  · exact .refl c
  · split
    · exact .refl c
    · exact effect_onward c _ _

theorem foldl_onward {α : Type} (f : Control → α → Control) (h : ∀ c a, Onward c (f c a)) :
    ∀ (l : List α) (c : Control), Onward c (l.foldl f c)
  | [], c => .refl c
  | a :: l, c => (h c a).trans (foldl_onward f h l _)

theorem absorbSnapshot_onward (c : Control) (status : StoreStatus) : Onward c (c.absorbSnapshot status) := by
  have changed : Onward c (c.changeStore status) := by
    unfold changeStore
    simp only
    have stopped : Onward c { c.stop with
        queue := [], deliveryHead := status.cursor.getD 0, context := status.context } :=
      (stop_onward c).trans (.of_eq rfl rfl rfl (Nat.le_refl _))
    split
    · exact stopped.trans (connect_onward _)
    · exact stopped
  unfold absorbSnapshot
  simp only
  split
  · exact changed.trans (.of_eq rfl rfl rfl (Nat.le_refl _))
  · exact .of_eq rfl rfl rfl (Nat.le_refl _)

theorem absorbNeeds_onward (c : Control) (status : Option StoreStatus) (schema : Option Engine.PendingSchema)
    (settlements : List PendingSettlement) : Onward c (c.absorbNeeds status schema settlements) := by
  have retired : ∀ (c : Control) pending, Onward c (c.retireOwners pending) := fun c pending =>
    (cancelFlights_onward c _).trans (.of_eq rfl rfl rfl (Nat.le_refl _))
  have asked : ∀ c : Control, Onward c (c.askSchema schema) := by
    intro c
    unfold askSchema
    split
    · exact .refl c
    · exact owned_onward c _
  have noted : ∀ c : Control, Onward c (c.noteProgress status) := by
    intro c
    cases status with
    | none => exact .refl c
    | some status => exact .of_eq rfl rfl rfl (Nat.le_refl _)
  have settled : ∀ (c : Control) s, Onward c (c.askSettlement s) := by
    intro c s
    unfold askSettlement
    split
    · exact .refl c
    · exact owned_onward c _
  have released : ∀ c : Control, Onward c c.releasePush := by
    intro c
    have woken : ∀ d : Control, Onward c d → Onward c (if c.wakeAfterNeeds then d.wake else d) := by
      intro d hd
      split
      · exact hd.trans (wake_onward d)
      · exact hd
    refine woken _ ?_
    split
    · exact .of_eq rfl rfl rfl (Nat.le_refl _)
    · exact Onward.trans (b := { c with wakeAfterNeeds := false, waitingPush := none })
        (.of_eq rfl rfl rfl (Nat.le_refl _)) (effect_onward _ _ _)
  exact ((((retired c _).trans (asked _)).trans (noted _)).trans (foldl_onward _ settled _ _)).trans (released _)

theorem absorb_onward (c : Control) (r : StoreReport) : Onward c (c.absorb r) := by
  cases r with
  | activePlans active => exact .of_eq rfl rfl rfl (Nat.le_refl _)
  | snapshot status => exact absorbSnapshot_onward c status
  | needs status schema settlements => exact absorbNeeds_onward c status schema settlements
  | frozen request =>
    unfold absorb absorbFrozen
    simp only
    split
    · exact .of_eq rfl rfl rfl (Nat.le_refl _)
    · split
      · exact .of_eq rfl rfl rfl (Nat.le_refl _)
      · exact Onward.trans (b := { c with freezing := false }) (.of_eq rfl rfl rfl (Nat.le_refl _)) (effect_onward _ _ _)
  | committed status plan active =>
    have followed : Onward c (c.followContext status.context) := by
      unfold followContext
      split
      · exact .refl c
      · exact Onward.trans (b := { c with queue := c.queue.filter fun e => e.2.header.context = status.context })
          (.of_eq rfl rfl rfl (Nat.le_refl _)) (cancelFlights_onward _ _)
    unfold absorb absorbCommitted advancePlan
    simp only
    refine followed.trans ?_
    cases active <;> cases plan <;> exact .of_eq rfl rfl rfl (Nat.le_refl _)

theorem Reported.onward {c c' : Control} {message : Except String WorkerReport} (h : Reported c message c') :
    Onward c c' := by
  cases h with
  | ignored _ => exact .refl c
  | failed _ => exact failed_onward c _
  | @absorbed r _ now _ hs =>
    have scheduled := (schedule_scheduled (c.absorb r) now).onward
    rw [hs] at scheduled
    exact (absorb_onward c r).trans scheduled
  | broken _ hs => exact ((absorb_onward c _).trans hs.onward).trans (failed_onward _ _)

theorem erase_onward (c : Control) (id : Nat) : Onward c { c with flights := c.flights.erase id } :=
  .of_sub List.filter_sublist rfl (fun _ h => h) (Nat.le_refl _)

theorem taken_onward (c : Control) (id : Nat) (f : Flight) : Onward c (c.taken id f) := by
  unfold taken
  split
  · exact .refl c
  · exact erase_onward c id

theorem waitForToken_onward (c : Control) (id : Nat) (f : Flight) (e : EffectError) :
    Onward c (c.waitForToken id f e) := by
  have waits : Onward c { c.tell (.error e.message e.status) with
      flights := c.flights.erase id, refreshWaiters := c.refreshWaiters ++ [f] } :=
    (tell_onward c _).trans (.of_sub List.filter_sublist rfl (fun _ h => h) (Nat.le_refl _))
  unfold waitForToken
  simp only
  split
  · exact waits
  · refine Onward.effect ?_ _ _
    exact waits.update rfl rfl rfl (Nat.le_refl _)

theorem loseFlight_onward (c : Control) (id : Nat) (f : Flight) (error : Option EffectError) :
    Onward c (c.loseFlight id f error) := by
  unfold loseFlight
  refine Onward.trans (Onward.trans ?_ (erase_onward _ id)) (retryStatus_onward _ _ _)
  split
  · exact .of_eq rfl rfl rfl (Nat.le_refl _)
  · exact .refl c

theorem Attends.onward {c₁ c' : Control} (h : Attends c₁ c') : Onward c₁ c' := by
  cases h with
  | @scheduled _ now hs =>
    have scheduled := (schedule_scheduled c₁ now).onward
    rw [hs] at scheduled
    exact scheduled
  | retried hs => exact hs.onward.trans (retryStatus_onward _ _ _)

theorem Staged.onward {c c₁ : Control} {id : Nat} (h : Staged c c₁ id) : Onward c c₁ := by
  have hf : c₁.flights.Sublist c.flights := by
    rcases h.flights with ⟨hf, _⟩ | hf
    · rw [hf]
    · rw [hf]
      exact List.filter_sublist
  refine .of_sub hf ?_ ?_ ?_
  · rw [h.frame]
  · intro k hk
    rw [h.frame] at hk
    exact hk
  · rw [h.frame]

theorem Received.onward {c c' : Control} {id : Nat} {outcome : EffectOutcome} (h : Received c id outcome c') :
    Onward c c' := by
  cases h with
  | ignored _ => exact .refl c
  | refused _ _ => exact ((taken_onward c id _).trans (stop_onward _)).trans (tell_onward _ _)
  | waits _ _ _ _ => exact (taken_onward c id _).trans (waitForToken_onward _ _ _ _)
  | lost _ => exact (taken_onward c id _).trans (loseFlight_onward _ _ _ _)
  | refreshed _ =>
    refine Onward.trans ?_ (foldl_onward _ resend_onward _ _)
    exact (erase_onward c id).update rfl rfl rfl (Nat.le_refl _)
  | retried _ _ =>
    refine Onward.trans ?_ (handshake_onward _)
    exact (erase_onward c id).update rfl rfl rfl (Nat.le_refl _)
  | greeted _ =>
    refine Onward.effect ?_ _ _
    exact (erase_onward c id).update rfl rfl rfl (Nat.le_refl _)
  | acknowledged _ => exact (erase_onward c id).trans (push_onward _ _)
  | staged _ _ _ hs ha _ => exact hs.onward.trans ha.onward

end Control

namespace Session

/-- Everything drained whose message Control has not taken yet. -/
def tickets (s : Session) : List Ticket := s.work ++ s.replies.filterMap (·.ticket)

/-- Steps in which Control stops, pauses, shakes hands or sees another store. -/
def retires (s : Session) : Act → Bool
  | .stop | .pause | .connect => true
  | .receive id outcome _ => match s.control.flights.get id with
    | none => false
    | some f =>
      if outcome.ok then f = .retry || (f = .refresh && s.control.refreshWaiters.contains .socket)
      else outcome.error.any fun e => e.status.isSome && e.refusal.isSome
  | .deliver _ => match s.replies with
    | [] => false
    | r :: _ => match s.control.effective r.message with
      | some (.ok (.snapshot status)) => status.context.storeId ≠ s.control.context.storeId
      | _ => false
  | _ => false

/-- The worker can read the store's context when a command of the current epoch starts. -/
def Readable (s : Session) : Act → Prop
  | .execute f _ => ∀ t rest, s.work = t :: rest → t.fence.epoch = s.control.epoch → f.context = false
  | _ => True

section
variable {P : Platform} {H : Hashes} {W : Wire} {z : Sizes}

/-! ## Steps -/

theorem step_onward (s : Session) (a : Act) : s.control.Onward (s.step P H W z a).control := by
  cases a with
  | setRefreshAuth enabled => exact .of_eq rfl rfl rfl (Nat.le_refl _)
  | connect => exact Control.connect_onward _
  | stop => exact Control.stop_onward _
  | pause => exact Control.pause_onward _
  | wake => exact Control.wake_onward _
  | receive id outcome now => exact (Control.onEffect_received W z P s.control id outcome now).onward
  | publish => exact .of_sub (List.Sublist.refl _) rfl (fun _ h => absurd h (List.not_mem_nil)) (Nat.le_refl _)
  | drain => exact .of_eq rfl rfl rfl (Nat.le_refl _)
  | execute f now =>
    simp only [step, execute]
    split
    · exact .refl _
    · exact .refl _
  | serve x busy fault => exact .refl _
  | deliver now =>
    simp only [step, deliver]
    split
    · exact .refl _
    · exact (Control.onReport_reported s.control _ now).onward

/-- Only draining makes tickets: the next numbers, under the fence of that moment. -/
theorem step_tickets {s : Session} {a : Act} {t : Ticket} (h : t ∈ (s.step P H W z a).tickets) :
    t ∈ s.tickets ∨ (a = .drain ∧ t.fence = fence s.control ∧ s.drained ≤ t.number ∧
      t.number < (s.step P H W z a).drained) := by
  have old : ∀ {w : List Ticket} {r : List Reply}, (∀ t ∈ w, t ∈ s.work) → (∀ x ∈ r, x ∈ s.replies) →
      t ∈ w ++ r.filterMap (·.ticket) → t ∈ s.tickets := by
    intro w r hw hr ht
    rcases List.mem_append.1 ht with ht | ht
    · exact List.mem_append_left _ (hw t ht)
    · obtain ⟨x, hx, hxt⟩ := List.mem_filterMap.1 ht
      exact List.mem_append_right _ (List.mem_filterMap.2 ⟨x, hr x hx, hxt⟩)
  cases a with
  | drain =>
    rcases List.mem_append.1 h with h | h
    · rcases List.mem_append.1 h with h | h
      · exact .inl (List.mem_append_left _ h)
      · obtain ⟨⟨j, i⟩, hj, rfl⟩ := List.mem_map.1 h
        have hi : i < s.control.jobs.length := by simpa using (List.mem_zipIdx hj).2.1
        exact .inr ⟨rfl, rfl, Nat.le_add_right _ _, Nat.add_lt_add_left hi _⟩
    · exact .inl (List.mem_append_right _ h)
  | execute f now =>
    simp only [step, execute] at h
    split at h
    · exact .inl h
    · rename_i t' rest hwork
      simp only [tickets, List.filterMap_append, List.filterMap_cons, List.filterMap_nil, List.mem_append,
        List.mem_singleton] at h
      rcases h with h | h | rfl
      · exact .inl (List.mem_append_left _ (hwork ▸ List.mem_cons_of_mem _ h))
      · exact .inl (List.mem_append_right _ h)
      · exact .inl (List.mem_append_left _ (hwork ▸ List.mem_cons_self))
  | serve x busy fault =>
    simp only [step, serve, tickets, List.filterMap_append, List.mem_append] at h
    rcases h with h | h | h
    · exact .inl (List.mem_append_left _ h)
    · exact .inl (List.mem_append_right _ h)
    · obtain ⟨r, hr, ht⟩ := List.mem_filterMap.1 h
      unfold snapshot at hr
      split at hr
      · cases hr
      · split at hr
        · simp only [List.mem_singleton] at hr
          subst hr
          cases ht
        · simp only [List.mem_singleton] at hr
          subst hr
          cases ht
  | deliver now =>
    simp only [step, deliver] at h
    split at h
    · exact .inl h
    · rename_i r rest hreplies
      exact .inl (old (fun _ h => h) (fun x hx => hreplies ▸ List.mem_cons_of_mem _ hx) h)
  | setRefreshAuth enabled => exact .inl h
  | connect => exact .inl h
  | stop => exact .inl h
  | pause => exact .inl h
  | wake => exact .inl h
  | receive id outcome now => exact .inl h
  | publish => exact .inl h

theorem step_drained (s : Session) (a : Act) : s.drained ≤ (s.step P H W z a).drained := by
  cases a with
  | drain => exact Nat.le_add_right _ _
  | execute f now =>
    simp only [step, execute]
    split
    · exact Nat.le_refl _
    · exact Nat.le_refl _
  | deliver now =>
    simp only [step, deliver]
    split
    · exact Nat.le_refl _
    · exact Nat.le_refl _
  | setRefreshAuth enabled => exact Nat.le_refl _
  | connect => exact Nat.le_refl _
  | stop => exact Nat.le_refl _
  | pause => exact Nat.le_refl _
  | wake => exact Nat.le_refl _
  | receive id outcome now => exact Nat.le_refl _
  | publish => exact Nat.le_refl _
  | serve x busy fault => exact Nat.le_refl _

/-! ## The fence -/

/-- A message that answers a ticket is fenced by it. -/
def Reply.Answers (r : Reply) : Prop :=
  ∀ t, r.ticket = some t → r.message = .ok .obsolete ∨ ∃ x, r.message = .ok (.guarded t.fence x)

structure Fenced (s : Session) : Prop where
  numbered : s.control.Numbered
  epochs : ∀ t ∈ s.tickets, t.fence.epoch ≤ s.control.epoch
  numbers : ∀ t ∈ s.tickets, t.number < s.drained
  answers : ∀ r ∈ s.replies, Reply.Answers r

theorem opened_fenced (client : Client) (prefetch : Bool) : Fenced (opened client prefetch) where
  numbered := ⟨by simp [opened, Control.withBootstrapPrefetch], by simp [opened, Control.withBootstrapPrefetch],
    by simp [opened, Control.withBootstrapPrefetch]⟩
  epochs := by simp [opened, tickets]
  numbers := by simp [opened, tickets]
  answers := by simp [opened]

/-- What the worker sends back for a ticket. -/
theorem guardedWorker_answers {c : Client} {f : WorkerFaults} {current now : Nat} {t : Ticket}
    (hf : t.fence.epoch = current → f.context = false) :
    Reply.Answers ⟨some t, (c.guardedWorker P H f current now t.fence t.command).1⟩ := by
  intro u hu
  cases hu
  unfold Client.guardedWorker
  split
  · exact .inl rfl
  · rename_i hepoch
    rw [hf (not_not.1 hepoch)]
    simp only [Bool.false_eq_true, if_false]
    split
    · exact .inl rfl
    · exact .inr ⟨_, rfl⟩

theorem step_answers {s : Session} {a : Act} (ha : Readable s a) (h : ∀ r ∈ s.replies, Reply.Answers r) :
    ∀ r ∈ (s.step P H W z a).replies, Reply.Answers r := by
  cases a with
  | execute f now =>
    simp only [step, execute]
    split
    · exact h
    · rename_i t rest hwork
      intro r hr
      rcases List.mem_append.1 hr with hr | hr
      · exact h r hr
      · simp only [List.mem_singleton] at hr
        subst hr
        exact guardedWorker_answers (ha t rest hwork)
  | serve x busy fault =>
    intro r hr
    rcases List.mem_append.1 hr with hr | hr
    · exact h r hr
    · unfold snapshot at hr
      split at hr
      · cases hr
      · split at hr
        · simp only [List.mem_singleton] at hr
          subst hr
          exact nofun
        · simp only [List.mem_singleton] at hr
          subst hr
          exact nofun
  | deliver now =>
    simp only [step, deliver]
    split
    · exact h
    · rename_i r rest hreplies
      exact fun x hx => h x (hreplies ▸ List.mem_cons_of_mem _ hx)
  | setRefreshAuth enabled => exact h
  | connect => exact h
  | stop => exact h
  | pause => exact h
  | wake => exact h
  | receive id outcome now => exact h
  | publish => exact h
  | drain => exact h

theorem step_fenced {s : Session} {a : Act} (ha : Readable s a) (h : Fenced s) : Fenced (s.step P H W z a) where
  numbered := (step_onward s a).numbered h.numbered
  epochs := by
    intro t ht
    rcases step_tickets ht with ht | ⟨rfl, hf, _, _⟩
    · exact (h.epochs t ht).trans (step_onward s a).epoch
    · rw [hf]
      exact Nat.le_refl _
  numbers := by
    intro t ht
    rcases step_tickets ht with ht | ⟨_, _, _, hn⟩
    · exact Nat.lt_of_lt_of_le (h.numbers t ht) (step_drained s a)
    · exact hn
  answers := step_answers ha h.answers

theorem runs_fenced {s t : Session} {acts : List Act} (h : Runs P H W z Readable s acts t) (hs : Fenced s) :
    Fenced t := by
  refine Trace.inv Fenced ?_ h hs
  rintro s a _ hs ⟨ha, rfl⟩
  exact step_fenced ha hs

/-! ## What stays behind -/

theorem handshake_epoch (c : Control) : c.handshake.epoch = c.epoch + 1 := rfl

theorem stop_epoch (c : Control) : c.stop.epoch = c.epoch + 1 := rfl

theorem foldl_resend_epoch {waiters : List Flight} (c : Control) (h : .socket ∈ waiters) :
    c.epoch < (waiters.foldl Control.resend c).epoch := by
  induction waiters generalizing c with
  | nil => cases h
  | cons f rest ih =>
    rw [List.foldl_cons]
    rcases List.mem_cons.1 h with rfl | h
    · have later := (Control.foldl_onward _ Control.resend_onward rest (c.resend .socket)).epoch
      exact Nat.lt_of_lt_of_le (Nat.lt_succ_self _) later
    · exact Nat.lt_of_le_of_lt (Control.resend_onward c f).epoch (ih _ h)

/-- A stop, a handshake or a store change starts an epoch of its own. -/
theorem retires_epoch {s : Session} {a : Act} (h : s.retires a = true) :
    s.control.epoch < (s.step P H W z a).control.epoch := by
  cases a with
  | stop => exact Nat.lt_succ_self _
  | pause => exact Nat.lt_succ_self _
  | connect => exact Nat.lt_succ_self _
  | receive id outcome now =>
    cases hf : s.control.flights.get id with
    | none => simp [retires, hf] at h
    | some f =>
      simp only [retires, hf] at h
      simp only [step, Control.onEffect, Control.receive, hf]
      by_cases hok : outcome.ok = true
      · simp only [hok, if_true, Bool.or_eq_true, decide_eq_true_eq, Bool.and_eq_true, List.contains_iff_mem] at h
        rcases h with rfl | ⟨rfl, hw⟩
        · simp [hok, Control.receiveSuccess, handshake_epoch]
        · simp only [hok, Bool.not_true, Bool.false_eq_true, if_false, reduceCtorEq, Control.receiveSuccess]
          exact foldl_resend_epoch
            { s.control with flights := s.control.flights.erase id, refreshing := false, refreshWaiters := [] } hw
      · simp only [hok, Bool.false_eq_true, if_false, Option.any_eq_true, Bool.and_eq_true] at h
        obtain ⟨e, he, hs, hr⟩ := h
        obtain ⟨status, hs⟩ := Option.isSome_iff_exists.1 hs
        obtain ⟨body, hr⟩ := Option.isSome_iff_exists.1 hr
        simp only [hok, Bool.not_false, if_true, he, Control.receiveFailure, hs, hr]
        by_cases hsock : f = .socket
        · simp [hsock, Control.tell, stop_epoch]
        · simp [hsock, Control.tell, stop_epoch]
  | deliver now =>
    simp only [retires] at h
    split at h
    · cases h
    · rename_i r rest hreplies
      split at h
      · rename_i status heff
        simp only [decide_eq_true_eq] at h
        have changed : s.control.epoch < (s.control.absorb (.snapshot status)).epoch := by
          simp only [Control.absorb, Control.absorbSnapshot, h, ne_eq, not_false_eq_true, if_true, Control.push,
            Control.changeStore]
          split
          · show s.control.epoch < s.control.epoch + 1 + 1
            omega
          · exact Nat.lt_succ_self _
        simp only [step, deliver, hreplies]
        have hr := Control.onReport_reported s.control r.message now
        generalize s.control.onReport r.message now = c' at hr ⊢
        cases hr with
        | ignored he => rw [heff] at he; cases he
        | failed he => rw [heff] at he; cases he
        | @absorbed r' _ now' he hs =>
          rw [heff] at he
          cases he
          have later := (Control.schedule_scheduled (s.control.absorb (.snapshot status)) now').onward.epoch
          rw [hs] at later
          exact Nat.lt_of_lt_of_le changed later
        | @broken r' c₂ e he hs =>
          rw [heff] at he
          cases he
          exact Nat.lt_of_lt_of_le changed (hs.onward.epoch.trans (Control.failed_onward c₂ e).epoch)
      · cases h
  | setRefreshAuth enabled => cases h
  | wake => cases h
  | publish => cases h
  | drain => cases h
  | execute f now => cases h
  | serve x busy fault => cases h

/-- What a run keeps of a state it passed: its tickets are still the only ones of their numbers, its epoch was not
lowered and its lost effects stay lost. -/
structure Later (s u : Session) : Prop where
  tickets : ∀ t ∈ u.tickets, t.number < s.drained → t ∈ s.tickets
  drained : s.drained ≤ u.drained
  epoch : s.control.epoch ≤ u.control.epoch
  gone : ∀ id, s.control.Gone id → u.control.Gone id

instance : IsPreorder Session Later where
  refl _ := ⟨fun _ h _ => h, Nat.le_refl _, Nat.le_refl _, fun _ h => h⟩
  trans _ _ _ h h' := {
    tickets := fun t ht hn => h.tickets t (h'.tickets t ht (Nat.lt_of_lt_of_le hn h.drained)) hn
    drained := h.drained.trans h'.drained
    epoch := h.epoch.trans h'.epoch
    gone := fun id hg => h'.gone id (h.gone id hg) }

theorem step_later (s : Session) (a : Act) : Later s (s.step P H W z a) where
  tickets := by
    intro t ht hn
    rcases step_tickets ht with ht | ⟨_, _, hle, _⟩
    · exact ht
    · omega
  drained := step_drained s a
  epoch := (step_onward s a).epoch
  gone := (step_onward s a).gone

theorem runs_later {s u : Session} {acts : List Act} {allowed : Session → Act → Prop}
    (h : Runs P H W z allowed s acts u) : Later s u := by
  refine Trace.rel (fun _ => True) Later (fun _ _ _ _ _ => trivial) ?_ h trivial
  rintro s a _ - ⟨_, rfl⟩
  exact step_later s a

/-- A command changes the store only when it starts inside its fence. -/
theorem execute_client {s : Session} {t : Ticket} {rest : List Ticket} {f : WorkerFaults} {now : Nat}
    (hwork : s.work = t :: rest) (h : (s.step P H W z (.execute f now)).client ≠ s.client) :
    t.fence.epoch = s.control.epoch ∧ s.client.store.context = t.fence.context := by
  simp only [step, execute, hwork, Client.guardedWorker] at h
  split at h
  · exact absurd rfl h
  · rename_i hepoch
    split at h
    · exact absurd rfl h
    · split at h
      · exact absurd rfl h
      · rename_i hctx
        exact ⟨not_not.1 hepoch, not_not.1 hctx⟩

/-- A message of an earlier epoch does nothing. -/
theorem deliver_stale {s : Session} {r : Reply} {rest : List Reply} {t : Ticket} (hreplies : s.replies = r :: rest)
    (ht : r.ticket = some t) (hr : Reply.Answers r) (hepoch : t.fence.epoch < s.control.epoch) (now : Nat) :
    (s.step P H W z (.deliver now)).control = s.control := by
  simp only [step, deliver, hreplies]
  rcases hr t ht with hm | ⟨x, hm⟩
  · rw [hm]
    rfl
  · have hp : s.control.passes t.fence = false := by
      simp [Control.passes, Nat.ne_of_lt hepoch]
    simp [hm, Control.onReport, Control.report, hp]

/-- An outcome of an effect that is not in flight does nothing. -/
theorem receive_gone {s : Session} {id : Nat} (h : s.control.Gone id) (outcome : EffectOutcome) (now : Nat) :
    (s.step P H W z (.receive id outcome now)).control = s.control := by
  have hnone : s.control.flights.get id = none := by
    cases hg : s.control.flights.get id with
    | none => rfl
    | some f => exact absurd rfl (h.2 _ (Table.mem_of_get hg))
  simp [step, Control.onEffect, Control.receive, hnone]

/-- **Stale work is fenced.** In every run in which the worker can read the store's context when a command
starts: a command drained under an epoch and a context changes the store only while both still hold, and once
Control stopped, paused, shook hands or saw another store, neither a report of a command drained before nor an
outcome of a cancelled effect changes it. -/
theorem stale_work_fenced {client : Client} {prefetch : Bool} {acts : List Act} {s : Session}
    (h : Runs P H W z Readable (opened client prefetch) acts s) :
    (∀ acts' u, Runs P H W z Readable (s.step P H W z .drain) acts' u → ∀ t rest, u.work = t :: rest →
      s.drained ≤ t.number → t.number < (s.step P H W z .drain).drained → ∀ f now,
      (u.step P H W z (.execute f now)).client ≠ u.client →
        u.control.epoch = s.control.epoch ∧ u.client.store.context = s.control.context) ∧
    ∀ a, s.retires a = true → ∀ acts' u, Runs P H W z Readable (s.step P H W z a) acts' u →
      (∀ r rest, u.replies = r :: rest → ∀ t, r.ticket = some t → t.number < s.drained → ∀ now,
        (u.step P H W z (.deliver now)).control = u.control) ∧
      ∀ id, .cancelEffect id ∈ (s.step P H W z a).control.events → ∀ outcome now,
        (u.step P H W z (.receive id outcome now)).control = u.control := by
  have fenced := runs_fenced h (opened_fenced client prefetch)
  constructor
  · intro acts' u hu t rest hwork hlow hhigh f now hmoved
    have mine : t ∈ (s.step P H W z .drain).tickets :=
      (runs_later hu).tickets t (by simp [tickets, hwork]) hhigh
    have hfence : t.fence = fence s.control := by
      rcases step_tickets mine with ht | ⟨_, hf, _, _⟩
      · have hlt := fenced.numbers t ht
        omega
      · exact hf
    obtain ⟨hepoch, hctx⟩ := execute_client hwork hmoved
    rw [hfence] at hepoch hctx
    exact ⟨hepoch.symm, hctx⟩
  · intro a ha acts' u hu
    have readable : Readable s a := by
      cases a with
      | execute f now => cases ha
      | _ => trivial
    have after := step_fenced (P := P) (H := H) (W := W) (z := z) readable fenced
    have later := runs_later hu
    constructor
    · intro r rest hreplies t ht hn now
      have mem : t ∈ u.tickets := by
        refine List.mem_append_right _ (List.mem_filterMap.2 ⟨r, ?_, ht⟩)
        rw [hreplies]
        exact List.mem_cons_self
      have before : t ∈ s.tickets :=
        (step_later s a).tickets t (later.tickets t mem (Nat.lt_of_lt_of_le hn (step_drained s a))) hn
      refine deliver_stale hreplies ht ((runs_fenced hu after).answers r ?_) ?_ now
      · rw [hreplies]
        exact List.mem_cons_self
      · calc t.fence.epoch ≤ s.control.epoch := fenced.epochs t before
          _ < (s.step P H W z a).control.epoch := retires_epoch ha
          _ ≤ u.control.epoch := later.epoch
    · intro id hid outcome now
      exact receive_gone (later.gone id (after.numbered.cancelled id hid)) outcome now

end

end Session

namespace Notes

open Session

/-- A Freeze drained before Control reconnects. -/
def fenceActs : List Act := [.connect, .wake, .drain]

def fenceStart : Session := opened start true

/-- A Freeze drained before a stop stays without effect after the next connect. -/
theorem stale_freeze_fenced :
    (fenceStart.run platform hashes wire sizes fenceActs).drained = 1 ∧
      ∀ acts' u, Runs platform hashes wire sizes Readable
        ((fenceStart.run platform hashes wire sizes fenceActs).step platform hashes wire sizes .stop) acts' u →
        ∀ r rest, u.replies = r :: rest → ∀ t, r.ticket = some t → t.number < 1 → ∀ now,
          (u.step platform hashes wire sizes (.deliver now)).control = u.control := by
  have run : Runs platform hashes wire sizes Readable (opened start true) fenceActs
      (fenceStart.run platform hashes wire sizes fenceActs) :=
    runs_of_along platform hashes wire sizes ⟨trivial, trivial, trivial, trivial⟩
  exact ⟨rfl, fun acts' u hu => ((stale_work_fenced run).2 .stop rfl acts' u hu).1⟩

/-- The Freeze that could not read the store's context. -/
def bareActs : List Act := fenceActs ++ [.execute { context := true } 0]

def bareSession : Session := fenceStart.run platform hashes wire sizes bareActs

/-- A failure to read the context reaches Control through a stop and a reconnect: it starts a retry timer. -/
theorem bare_failure_unfenced :
    ∃ u r rest t, Runs platform hashes wire sizes (fun _ _ => True) fenceStart bareActs bareSession ∧
      bareSession.retires .stop = true ∧
      Runs platform hashes wire sizes (fun _ _ => True) (bareSession.step platform hashes wire sizes .stop) [.connect] u ∧
      u.replies = r :: rest ∧ r.ticket = some t ∧ t.number < bareSession.drained ∧
      (u.step platform hashes wire sizes (.deliver 0)).control.flights ≠ u.control.flights :=
  ⟨(bareSession.step platform hashes wire sizes .stop).run platform hashes wire sizes [.connect], _, _, _,
    runs_of_along platform hashes wire sizes (along_true platform hashes wire sizes), rfl,
    runs_of_along platform hashes wire sizes (along_true platform hashes wire sizes), rfl, rfl, by decide,
    by decide +kernel⟩

end Notes

end Axton
