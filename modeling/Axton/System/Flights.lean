import Axton.System.Fence

/-!
# Single flight

Requests are counted wherever they are: in flight, or in the list that waits for a refreshed token. Of each kind
Control means to have at most one at a time, and one for each owner of a transfer. A Freeze counts with the Push
it leads to, from the job to the report that brings the request.

`schedule` looks at both places before it asks for a page. The other guards look at flights only, so a request
that waits for a token is invisible to them: to a connect or a retry that shakes hands again, to a wake that
freezes again, and to a Needs report that asks for an owner again. `Alone` excludes exactly these steps.
-/

namespace Axton

namespace Flight

def isSocket : Flight → Bool
  | .socket => true
  | _ => false

/-- What holds the connection: a handshake, or the socket it leads to. -/
def isLink (f : Flight) : Bool := f.isHandshake || f.isSocket

/-- A kind of request: timers and the token refresh are none. -/
structure IsRequest (p : Flight → Bool) : Prop where
  expire : p .expire = false
  retry : p .retry = false
  refresh : p .refresh = false

theorem isLink_request : IsRequest isLink := ⟨rfl, rfl, rfl⟩

theorem isDelta_request : IsRequest isDelta := ⟨rfl, rfl, rfl⟩

theorem isPush_request : IsRequest isPush := ⟨rfl, rfl, rfl⟩

theorem isOwned_request (o : MaterializationOwner) : IsRequest (isOwned o) := ⟨rfl, rfl, rfl⟩

end Flight

namespace Control

open Flight

/-- One Push at a time, counted from the queued Freeze on. -/
def pushes (c : Control) : Nat :=
  c.jobs.countP StoreCommand.isFreeze + c.waitingPush.toList.length + c.count isPush

theorem waiting_le {a b : Option MutationRequest} (h : a.isSome = true → b.isSome = true) :
    a.toList.length ≤ b.toList.length := by
  cases a <;> cases b <;> simp_all

/-- At most one request of each kind, and a Push that waits for Needs has been announced. -/
structure Quota (c : Control) : Prop where
  link : c.count isLink ≤ 1
  delta : c.count isDelta ≤ 1
  owned : ∀ o, c.count (isOwned o) ≤ 1
  waits : c.waitingPush.isSome = true → c.wakeAfterNeeds = true

/-- A change that starts no request. -/
structure Calm (c c' : Control) : Prop where
  count : ∀ p, IsRequest p → c'.count p ≤ c.count p
  freezes : c'.jobs.countP StoreCommand.isFreeze ≤ c.jobs.countP StoreCommand.isFreeze
  waiting : c'.waitingPush.isSome = true → c.waitingPush.isSome = true
  announced : c'.waitingPush.isSome = true → c.wakeAfterNeeds = true → c'.wakeAfterNeeds = true

/-- A change that keeps the quota and brings no Push nearer. -/
structure Kept (c c' : Control) : Prop where
  quota : c.Quota → c'.Quota
  pushes : c'.pushes ≤ c.pushes

theorem Calm.refl (c : Control) : Calm c c := ⟨fun _ _ => Nat.le_refl _, Nat.le_refl _, id, fun _ h => h⟩

theorem Calm.trans {a b c : Control} (h : Calm a b) (h' : Calm b c) : Calm a c where
  count := fun p hp => (h'.count p hp).trans (h.count p hp)
  freezes := h'.freezes.trans h.freezes
  waiting := fun hw => h.waiting (h'.waiting hw)
  announced := fun hw ha => h'.announced hw (h.announced (h'.waiting hw) ha)

theorem Calm.kept {c c' : Control} (h : Calm c c') : Kept c c' where
  quota := fun q => {
    link := (h.count _ isLink_request).trans q.link
    delta := (h.count _ isDelta_request).trans q.delta
    owned := fun o => (h.count _ (isOwned_request o)).trans (q.owned o)
    waits := fun hw => h.announced hw (q.waits (h.waiting hw)) }
  pushes := by
    have hc := h.count _ isPush_request
    have hf := h.freezes
    have hw := waiting_le h.waiting
    unfold Control.pushes
    omega

theorem Kept.refl (c : Control) : Kept c c := (Calm.refl c).kept

theorem Kept.trans {a b c : Control} (h : Kept a b) (h' : Kept b c) : Kept a c :=
  ⟨fun q => h'.quota (h.quota q), h'.pushes.trans h.pushes⟩

/-! ## Calm changes -/

theorem count_mono {c c' : Control} {p : Flight → Bool} (hf : c'.flights.Sublist c.flights)
    (hw : c'.refreshWaiters.Sublist c.refreshWaiters) : c'.count p ≤ c.count p :=
  Nat.add_le_add hf.countP_le hw.countP_le

/-- Fewer flights and waiters, the same jobs and flags. -/
theorem Calm.of_sub {c c' : Control} (hf : c'.flights.Sublist c.flights)
    (hw : c'.refreshWaiters.Sublist c.refreshWaiters)
    (hj : c'.jobs.countP StoreCommand.isFreeze ≤ c.jobs.countP StoreCommand.isFreeze)
    (hp : c'.waitingPush.isSome = true → c.waitingPush.isSome = true)
    (ha : c'.waitingPush.isSome = true → c.wakeAfterNeeds = true → c'.wakeAfterNeeds = true) : Calm c c' :=
  ⟨fun _ _ => count_mono hf hw, hj, hp, ha⟩

theorem Calm.update {a c c' : Control} (h : Calm a c) (hf : c'.flights = c.flights)
    (hw : c'.refreshWaiters = c.refreshWaiters) (hj : c'.jobs = c.jobs) (hp : c'.waitingPush = c.waitingPush)
    (ha : c.wakeAfterNeeds = true → c'.wakeAfterNeeds = true) : Calm a c' :=
  h.trans (.of_sub (hf ▸ List.Sublist.refl _) (hw ▸ List.Sublist.refl _) (by rw [hj])
    (fun h => hp ▸ h) fun _ h => ha h)

/-- A timer or a token refresh is no request. -/
theorem Calm.timer {a c : Control} (h : Calm a c) {f : Flight} (hf : ∀ p, IsRequest p → p f = false)
    (o : NetOperation) : Calm a (c.effect f o) where
  count := fun p hp => by
    rw [count_effect, hf p hp]
    exact h.count p hp
  freezes := h.freezes
  waiting := h.waiting
  announced := h.announced

theorem push_calm (c : Control) (j : StoreCommand) (hj : j.isFreeze = false) : Calm c (c.push j) :=
  .of_sub (List.Sublist.refl _) (List.Sublist.refl _) (by simp [push, hj]) id fun _ h => h

theorem cancelFlights_calm (c : Control) (p : Flight → Bool) : Calm c (c.cancelFlights p) :=
  .of_sub List.filter_sublist (List.Sublist.refl _) (Nat.le_refl _) id fun _ h => h

theorem retireBootstrapPrefetch_calm (c : Control) : Calm c c.retireBootstrapPrefetch :=
  .of_sub List.filter_sublist List.filter_sublist (Nat.le_refl _) id fun _ h => h

theorem retryStatus_calm (c : Control) (m : String) (status : Option Nat) : Calm c (c.retryStatus m status) := by
  unfold retryStatus
  simp only
  split
  · refine Calm.timer ?_ (fun p hp => hp.retry) _
    exact (Calm.refl c).update rfl rfl rfl rfl id
  · exact (Calm.refl c).update rfl rfl rfl rfl id

theorem blockPlan_calm (c : Control) : Calm c c.blockPlan := by
  unfold blockPlan
  split
  · exact .refl c
  · split
    · exact (Calm.refl c).update rfl rfl rfl rfl id
    · split
      · refine Calm.trans ?_ (push_calm _ _ rfl)
        exact (Calm.refl c).update rfl rfl rfl rfl id
      · exact (Calm.refl c).update rfl rfl rfl rfl id

theorem failed_calm (c : Control) (m : String) : Calm c (c.failed m) := by
  have blocked := (retireBootstrapPrefetch_calm c).trans (blockPlan_calm _)
  refine Calm.trans ?_ (retryStatus_calm _ _ _)
  exact blocked.update rfl rfl rfl rfl id

theorem stop_calm (c : Control) : Calm c c.stop :=
  .of_sub List.filter_sublist (List.nil_sublist _) (Nat.zero_le _) (fun h => nomatch h) fun h => nomatch h

/-! ## Handshakes -/

/-- What a handshake leaves of a kind that is none: what was there at most. -/
theorem handshake_count {c : Control} {p : Flight → Bool} (hp : ∀ r, p (.handshake r) = false) :
    c.handshake.count p ≤ c.count p := by
  simp only [handshake, count_http, hp, Bool.false_eq_true, if_false, Nat.add_zero]
  exact count_mono (List.filter_sublist.trans List.filter_sublist) List.filter_sublist

/-- After a handshake the connection is the new one and what waits for a token. -/
theorem handshake_link (c : Control) : c.handshake.count isLink ≤ c.refreshWaiters.countP isLink + 1 := by
  have cancelled : (c.retireBootstrapPrefetch.newEpoch.cancelFlights isConnection).count isLink ≤
      c.refreshWaiters.countP isLink := by
    have none : (c.retireBootstrapPrefetch.newEpoch.cancelFlights isConnection).flights.countP (fun e => isLink e.2) = 0 := by
      rw [List.countP_eq_zero]
      intro e he
      obtain ⟨_, hc⟩ := List.mem_filter.1 he
      cases hf : e.2 <;> simp_all [isConnection, isLink, isHandshake, isSocket]
    unfold count
    rw [none, Nat.zero_add]
    exact List.filter_sublist.countP_le
  simp only [handshake, count_http]
  split <;> omega

theorem handshake_kept {c : Control} (h : c.refreshWaiters.any isLink = false) : Kept c c.handshake where
  quota := fun q => {
    link := by
      have hl := handshake_link c
      have hz : c.refreshWaiters.countP isLink = 0 := by simpa [List.countP_eq_zero] using h
      omega
    delta := (handshake_count fun _ => rfl).trans q.delta
    owned := fun o => (handshake_count fun _ => rfl).trans (q.owned o)
    waits := fun hw => nomatch hw }
  pushes := by
    have hp : c.handshake.count isPush ≤ c.count isPush := handshake_count fun _ => rfl
    have hj : c.handshake.jobs = c.jobs := rfl
    have hw : c.handshake.waitingPush = none := rfl
    simp only [pushes, hj, hw, Option.toList_none, List.length_nil]
    omega

theorem connect_kept {c : Control} (h : c.refreshWaiters.any isLink = false) : Kept c c.connect := by
  have asked : Calm c { c with connected := true, paused := false } := (Calm.refl c).update rfl rfl rfl rfl id
  exact asked.kept.trans (handshake_kept h)

/-! ## Scheduling -/

theorem Scheduled.kept {c c' : Control} (h : Scheduled c c') : Kept c c' := by
  have others : ∀ p : Flight → Bool, IsRequest p → (∀ r, p (.delta r) = false) → c'.count p = c.count p :=
    fun p hp hd => h.others p hp.expire hd
  have hw : c'.waitingPush = c.waitingPush := by rw [h.frame]
  have ha : c'.wakeAfterNeeds = c.wakeAfterNeeds := by rw [h.frame]
  refine ⟨fun q => ⟨?_, ?_, fun o => ?_, ?_⟩, ?_⟩
  · rw [others _ isLink_request fun _ => rfl]
    exact q.link
  · have hd := h.delta
    have hle := q.delta
    omega
  · rw [others _ (isOwned_request o) fun _ => rfl]
    exact q.owned o
  · rw [hw, ha]
    exact q.waits
  · unfold pushes
    rw [h.freezes, hw, others _ isPush_request fun _ => rfl]

/-! ## Outcomes -/

/-- An answered flight is counted no more. -/
theorem count_erase {c : Control} {id : Nat} {f : Flight} (h : c.flights.get id = some f) (p : Flight → Bool) :
    ({ c with flights := c.flights.erase id } : Control).count p + (if p f then 1 else 0) ≤ c.count p := by
  have split : c.flights.countP (fun e => p e.2) =
      (c.flights.filter fun e => !decide (e.1 = id)).countP (fun e => p e.2) +
        (c.flights.filter fun e => !!decide (e.1 = id)).countP (fun e => p e.2) := by
    rw [List.countP_eq_countP_filter_add (q := fun e : Nat × Flight => !decide (e.1 = id))]
  have found : (if p f then 1 else 0) ≤ (c.flights.filter fun e => !!decide (e.1 = id)).countP (fun e => p e.2) := by
    by_cases hp : p f = true
    · rw [if_pos hp]
      refine List.countP_pos_iff.2 ⟨(id, f), ?_, hp⟩
      exact List.mem_filter.2 ⟨Table.mem_of_get h, by simp⟩
    · simp [hp]
  unfold count Table.erase
  simp only
  omega

theorem erase_calm (c : Control) (id : Nat) : Calm c { c with flights := c.flights.erase id } :=
  .of_sub List.filter_sublist (List.Sublist.refl _) (Nat.le_refl _) (fun h => h) fun _ h => h

theorem taken_calm (c : Control) (id : Nat) (f : Flight) : Calm c (c.taken id f) := by
  unfold taken
  split
  · exact .refl c
  · exact erase_calm c id

/-- A request that waits for a token is counted where it waits. -/
theorem waitForToken_calm {c : Control} {id : Nat} {f : Flight} (h : c.flights.get id = some f) (e : EffectError) :
    Calm c ((c.taken id f).waitForToken id f e) := by
  have moved : Calm c { (c.taken id f).tell (.error e.message e.status) with
      flights := (c.taken id f).flights.erase id, refreshWaiters := (c.taken id f).refreshWaiters ++ [f] } := by
    have hf : ((c.taken id f).flights.erase id).Sublist (c.flights.erase id) := by
      unfold taken
      split
      · exact List.Sublist.refl _
      · exact List.filter_sublist
    have hw : (c.taken id f).refreshWaiters = c.refreshWaiters := by
      unfold taken
      split <;> rfl
    have hrest : (c.taken id f).jobs = c.jobs ∧ (c.taken id f).waitingPush = c.waitingPush ∧
        (c.taken id f).wakeAfterNeeds = c.wakeAfterNeeds := by
      unfold taken
      split <;> exact ⟨rfl, rfl, rfl⟩
    refine ⟨fun p _ => ?_, le_of_eq ?_, fun h => ?_, fun _ h => ?_⟩
    · have hc := count_erase h p
      have hle := hf.countP_le (p := fun e => p e.2)
      simp only [count, hw, List.countP_append, List.countP_cons, List.countP_nil] at hc ⊢
      omega
    · exact congrArg _ hrest.1
    · exact hrest.2.1 ▸ h
    · exact hrest.2.2.symm ▸ h
  unfold waitForToken
  simp only
  split
  · exact moved
  · refine Calm.timer ?_ (fun p hp => hp.refresh) _
    exact moved.update rfl rfl rfl rfl fun h => h

theorem loseFlight_calm (c : Control) (id : Nat) (f : Flight) (error : Option EffectError) :
    Calm c (c.loseFlight id f error) := by
  unfold loseFlight
  refine Calm.trans (Calm.trans ?_ (erase_calm _ id)) (retryStatus_calm _ _ _)
  split
  · exact .of_sub (List.Sublist.refl _) (List.nil_sublist _) (Nat.le_refl _) (fun h => h) fun _ h => h
  · exact .refl c

/-- Sending a request again adds that request; a socket is replaced by a handshake. -/
theorem resend_count (c : Control) (f : Flight) :
    (∀ p, IsRequest p → (∀ r, p (.handshake r) = false) → p .socket = false →
      (c.resend f).count p ≤ c.count p + if p f then 1 else 0) ∧
    (c.resend f).count isLink ≤ c.count isLink + (if isLink f then 1 else 0) ∧
    (c.resend f).jobs = c.jobs ∧ ((c.resend f).waitingPush.isSome = true → c.waitingPush.isSome = true) ∧
    ((c.resend f).waitingPush.isSome = true → (c.resend f).wakeAfterNeeds = c.wakeAfterNeeds) := by
  have sent : ∀ route, (∀ p, IsRequest p → (∀ r, p (.handshake r) = false) → p .socket = false →
      (c.http f route).count p ≤ c.count p + if p f then 1 else 0) ∧
      (c.http f route).count isLink ≤ c.count isLink + (if isLink f then 1 else 0) ∧
      (c.http f route).jobs = c.jobs ∧ ((c.http f route).waitingPush.isSome = true → c.waitingPush.isSome = true) ∧
      ((c.http f route).waitingPush.isSome = true → (c.http f route).wakeAfterNeeds = c.wakeAfterNeeds) :=
    fun route => ⟨fun p _ _ _ => le_of_eq (count_http c p f route), le_of_eq (count_http c _ f route), rfl, id,
      fun _ => rfl⟩
  have kept : (∀ p, IsRequest p → (∀ r, p (.handshake r) = false) → p .socket = false →
      c.count p ≤ c.count p + if p f then 1 else 0) ∧ c.count isLink ≤ c.count isLink + (if isLink f then 1 else 0) ∧
      c.jobs = c.jobs ∧ (c.waitingPush.isSome = true → c.waitingPush.isSome = true) ∧
      (c.waitingPush.isSome = true → c.wakeAfterNeeds = c.wakeAfterNeeds) :=
    ⟨fun _ _ _ _ => Nat.le_add_right _ _, Nat.le_add_right _ _, rfl, id, fun _ => rfl⟩
  cases f with
  | handshake r => exact sent .handshake
  | delta r => exact sent .pull
  | owned r => exact sent .materialize
  | push r => exact sent .push
  | socket =>
    refine ⟨fun p _ hp _ => Nat.le_add_right_of_le (handshake_count hp), ?_, rfl, nofun, nofun⟩
    have hl := handshake_link c
    have hw : c.refreshWaiters.countP isLink ≤ c.count isLink := Nat.le_add_left _ _
    show c.handshake.count isLink ≤ c.count isLink + 1
    omega
  | expire => exact kept
  | retry => exact kept
  | refresh => exact kept

/-- Sending all waiters again brings back no more than waited. -/
theorem foldl_resend_count (waiters : List Flight) (c : Control) :
    (∀ p, IsRequest p → (∀ r, p (.handshake r) = false) → p .socket = false →
      (waiters.foldl resend c).count p ≤ c.count p + waiters.countP p) ∧
    (waiters.foldl resend c).count isLink ≤ c.count isLink + waiters.countP isLink ∧
    (waiters.foldl resend c).jobs = c.jobs ∧
    ((waiters.foldl resend c).waitingPush.isSome = true → c.waitingPush.isSome = true) ∧
    ((waiters.foldl resend c).waitingPush.isSome = true → (waiters.foldl resend c).wakeAfterNeeds = c.wakeAfterNeeds) := by
  induction waiters generalizing c with
  | nil => exact ⟨fun _ _ _ _ => Nat.le_refl _, Nat.le_refl _, rfl, id, fun _ => rfl⟩
  | cons f rest ih =>
    obtain ⟨hp, hl, hj, hw, ha⟩ := resend_count c f
    obtain ⟨ihp, ihl, ihj, ihw, iha⟩ := ih (c.resend f)
    rw [List.foldl_cons]
    refine ⟨fun p hr hh hs => ?_, ?_, ihj.trans hj, fun h => hw (ihw h), fun h => (iha h).trans (ha (ihw h))⟩
    · have h₁ := ihp p hr hh hs
      have h₂ := hp p hr hh hs
      rw [List.countP_cons]
      omega
    · rw [List.countP_cons]
      omega

/-- A refreshed token sends what waited for it. -/
theorem refreshed_kept {c : Control} {id : Nat} (h : c.flights.get id = some .refresh) :
    Kept c (c.refreshWaiters.foldl resend
      { c with flights := c.flights.erase id, refreshing := false, refreshWaiters := [] }) := by
  obtain ⟨hp, hl, hj, hw, ha⟩ := foldl_resend_count c.refreshWaiters
    { c with flights := c.flights.erase id, refreshing := false, refreshWaiters := [] }
  have base : ∀ p, ({ c with flights := c.flights.erase id, refreshing := false, refreshWaiters := [] } : Control).count p +
      c.refreshWaiters.countP p ≤ c.count p := by
    intro p
    have hc := count_erase h p
    simp only [count, List.countP_nil, Nat.add_zero] at hc ⊢
    omega
  refine ⟨fun q => ⟨?_, ?_, fun o => ?_, fun h => ?_⟩, ?_⟩
  · exact (hl.trans (base _)).trans q.link
  · exact ((hp _ isDelta_request (fun _ => rfl) rfl).trans (base _)).trans q.delta
  · exact ((hp _ (isOwned_request o) (fun _ => rfl) rfl).trans (base _)).trans (q.owned o)
  · exact (ha h).trans (q.waits (hw h))
  · have push := (hp _ isPush_request (fun _ => rfl) rfl).trans (base _)
    unfold pushes
    rw [hj]
    have hle := waiting_le hw
    simp only at hle ⊢
    omega

theorem Attends.kept {c₁ c' : Control} (h : Attends c₁ c') : Kept c₁ c' := by
  cases h with
  | @scheduled _ now hs =>
    have scheduled := (schedule_scheduled c₁ now).kept
    rw [hs] at scheduled
    exact scheduled
  | retried hs => exact hs.kept.trans (retryStatus_calm _ _ _).kept

theorem Staged.calm {c c₁ : Control} {id : Nat} (h : Staged c c₁ id) : Calm c c₁ := by
  have hf : c₁.flights.Sublist c.flights := by
    rcases h.flights with ⟨hf, _⟩ | hf
    · rw [hf]
    · rw [hf]
      exact List.filter_sublist
  have hj : c₁.jobs.countP StoreCommand.isFreeze ≤ c.jobs.countP StoreCommand.isFreeze := by
    rcases h.jobs with hj | ⟨now, hj⟩
    · rw [hj]
    · simp [hj, StoreCommand.isFreeze]
  refine .of_sub hf ?_ hj (fun hw => ?_) fun _ ha => ?_
  · rw [h.frame]
  · rw [h.frame] at hw
    exact hw
  · rw [h.frame]
    exact ha

/-- **Outcomes keep the quota**, unless the retry timer shakes hands while the connection waits for a token. -/
theorem Received.kept {c c' : Control} {id : Nat} {outcome : EffectOutcome} (h : Received c id outcome c')
    (halone : c.flights.get id = some .retry → outcome.ok = true → c.refreshWaiters.any isLink = false) : Kept c c' := by
  cases h with
  | ignored _ => exact .refl c
  | @refused f d _ _ =>
    have stopped : Calm c ((c.taken id f).stop.tell d) :=
      ((taken_calm c id f).trans (stop_calm _)).update rfl rfl rfl rfl fun h => h
    exact stopped.kept
  | waits hf _ _ _ => exact (waitForToken_calm hf _).kept
  | lost _ => exact ((taken_calm c id _).trans (loseFlight_calm _ _ _ _)).kept
  | refreshed hf => exact refreshed_kept hf
  | retried hf hok =>
    have erased : Calm c { c with flights := c.flights.erase id, queue := c.queue.retryBlocked } :=
      (erase_calm c id).update rfl rfl rfl rfl fun h => h
    exact erased.kept.trans (handshake_kept (halone hf hok))
  | @greeted r head hf =>
    -- The socket takes the handshake's place.
    have hc := count_erase hf isLink
    have others : ∀ p, p .socket = false → (({ c with
        flights := c.flights.erase id, deliveryHead := max c.deliveryHead head, failures := 0 }.push
          (.initializeStream head)).effect .socket (.socket r)).count p ≤ c.count p := by
      intro p hp
      rw [count_effect, hp]
      exact count_mono List.filter_sublist (List.Sublist.refl _)
    refine ⟨fun q => ⟨?_, (others _ rfl).trans q.delta, fun o => (others _ rfl).trans (q.owned o), q.waits⟩, ?_⟩
    · rw [count_effect]
      exact hc.trans q.link
    · have hp := others isPush rfl
      have freezes := (push_calm c (.initializeStream head) rfl).freezes
      unfold pushes
      exact Nat.add_le_add (Nat.add_le_add freezes (Nat.le_refl _)) hp
  | acknowledged _ => exact ((erase_calm c id).trans (push_calm _ _ rfl)).kept
  | staged _ _ _ hs ha _ => exact hs.calm.kept.trans ha.kept

/-! ## Reports -/

theorem absorbSnapshot_kept (c : Control) (status : StoreStatus) : Kept c (c.absorbSnapshot status) := by
  have noted : ∀ c : Control, Kept c ({ c with context := status.context, status, wakeAfterNeeds := true }.push .needs) := by
    intro c
    have told : Calm c { c with context := status.context, status, wakeAfterNeeds := true } :=
      (Calm.refl c).update rfl rfl rfl rfl fun _ => rfl
    exact (told.trans (push_calm _ _ rfl)).kept
  have changed : Kept c (c.changeStore status) := by
    have stopped : Calm c { c.stop with
        queue := [], deliveryHead := status.cursor.getD 0, context := status.context } :=
      (stop_calm c).update rfl rfl rfl rfl fun h => h
    unfold changeStore
    simp only
    split
    · exact stopped.kept.trans (connect_kept rfl)
    · exact stopped.kept
  unfold absorbSnapshot
  simp only
  split
  · exact changed.trans (noted _)
  · exact noted c

theorem absorbCommitted_kept (c : Control) (status : StoreStatus) (plan : Option (String × Nat))
    (active : Option (List String)) : Kept c (c.absorbCommitted status plan active) := by
  have followed : Calm c (c.followContext status.context) := by
    unfold followContext
    split
    · exact .refl c
    · refine Calm.trans ?_ (cancelFlights_calm _ _)
      exact (Calm.refl c).update rfl rfl rfl rfl fun h => h
  have kept : ∀ c : Control, Calm c (active.elim c c.keepActive) := by
    intro c
    cases active with
    | none => exact .refl c
    | some ids => exact (Calm.refl c).update rfl rfl rfl rfl fun h => h
  have noted : ∀ c : Control, Calm c ({ c with context := status.context, status, wakeAfterNeeds := true }.push .needs) := by
    intro c
    have told : Calm c { c with context := status.context, status, wakeAfterNeeds := true } :=
      (Calm.refl c).update rfl rfl rfl rfl fun _ => rfl
    exact told.trans (push_calm _ _ rfl)
  have advanced : ∀ c : Control, Calm c (c.advancePlan plan) := by
    intro c
    unfold advancePlan
    split
    · exact .refl c
    · exact (Calm.refl c).update rfl rfl rfl rfl fun h => h
  have cleared := ((followed.trans (kept _)).trans (noted _)).trans (advanced _)
  cases active with
  | none => exact cleared.kept
  | some ids => exact cleared.kept

/-- The request a Freeze brought is sent, or waits for Needs. -/
theorem absorbFrozen_pushes (c : Control) (r : MutationRequest) (q : c.Quota) (h : c.pushes = 0) :
    (c.absorbFrozen (some r)).Quota ∧ (c.absorbFrozen (some r)).pushes ≤ 1 := by
  have hzero : c.jobs.countP StoreCommand.isFreeze = 0 ∧ c.waitingPush.toList.length = 0 ∧ c.count isPush = 0 := by
    simp only [pushes] at h
    omega
  unfold absorbFrozen
  simp only
  split
  · rename_i hwake
    refine ⟨⟨q.link, q.delta, q.owned, fun _ => hwake⟩, ?_⟩
    simp only [pushes, Option.toList_some, List.length_singleton, count] at hzero ⊢
    omega
  · refine ⟨⟨?_, ?_, fun o => ?_, fun hw => ?_⟩, ?_⟩
    · rw [count_http]
      exact q.link
    · rw [count_http]
      exact q.delta
    · rw [count_http]
      exact q.owned o
    · exact q.waits hw
    · have hcount : ({ c with freezing := false } : Control).count isPush = 0 := hzero.2.2
      have hjobs : (({ c with freezing := false } : Control).http (.push r) .push).jobs = c.jobs := rfl
      have hwait : (({ c with freezing := false } : Control).http (.push r) .push).waitingPush = c.waitingPush := rfl
      rw [pushes, count_http, hcount, hjobs, hwait, hzero.1, hzero.2.1]
      simp [isPush]

/-- What asking for owned transfers leaves alone: the uplink and whatever waits for a token. -/
structure Asks (c c' : Control) : Prop where
  kept : Kept c c'
  waiters : c'.refreshWaiters.Sublist c.refreshWaiters
  connected : c'.connected = c.connected
  freezing : c'.freezing = c.freezing
  waitingPush : c'.waitingPush = c.waitingPush
  flying : c'.anyFlight isPush = c.anyFlight isPush
  wake : c'.wakeAfterNeeds = c.wakeAfterNeeds

theorem Asks.refl (c : Control) : Asks c c := ⟨.refl c, List.Sublist.refl _, rfl, rfl, rfl, rfl, rfl⟩

theorem Asks.trans {a b c : Control} (h : Asks a b) (h' : Asks b c) : Asks a c :=
  ⟨h.kept.trans h'.kept, h'.waiters.trans h.waiters, h'.connected.trans h.connected, h'.freezing.trans h.freezing,
    h'.waitingPush.trans h.waitingPush, h'.flying.trans h.flying, h'.wake.trans h.wake⟩

theorem anyFlight_http (c : Control) (p : Flight → Bool) (f : Flight) (route : HttpRoute) :
    (c.http f route).anyFlight p = (c.anyFlight p || p f) := by
  simp [anyFlight, http, effect]

/-- An owner is asked for when it is in flight nowhere; that nothing of it waits is not checked. -/
theorem owned_asks {c : Control} {r : MaterializationRequest}
    (h : c.refreshWaiters.any (isOwned r.owner) = false) : Asks c (c.owned r) := by
  unfold owned
  split
  · exact .refl c
  · split
    · exact .refl c
    · rename_i hnone
      simp only [Bool.or_eq_true, not_or, Bool.not_eq_true] at hnone
      have hzero : c.count (isOwned r.owner) = 0 := count_eq_zero_iff.2 ⟨hnone.1, h⟩
      refine ⟨⟨fun q => ⟨?_, ?_, fun o => ?_, q.waits⟩, ?_⟩, List.Sublist.refl _, rfl, rfl, rfl, ?_, rfl⟩
      · rw [count_http]
        exact q.link
      · rw [count_http]
        exact q.delta
      · rw [count_http]
        by_cases ho : r.owner = o
        · subst ho
          rw [hzero]
          split <;> simp
        · have hother : isOwned o (.owned r) = false := by simp [isOwned, ho]
          simp only [hother, Bool.false_eq_true, if_false, Nat.add_zero]
          exact q.owned o
      · unfold pushes
        rw [count_http]
        exact Nat.le_refl _
      · simp [anyFlight_http, isPush]

theorem retireOwners_asks (c : Control) (pending : RequestContext → MaterializationOwner → Bool) :
    Asks c (c.retireOwners pending) := by
  have calm : Calm c (c.retireOwners pending) :=
    .of_sub List.filter_sublist List.filter_sublist List.filter_sublist.countP_le (fun h => h) fun _ h => h
  refine ⟨calm.kept, List.filter_sublist, rfl, rfl, rfl, ?_, rfl⟩
  simp only [anyFlight, retireOwners, cancelFlights, List.any_filter]
  congr 1
  funext e
  cases e.2 <;> simp [isPush, unowned]

/-- The owners a Needs report asks for. -/
def asked (schema : Option Engine.PendingSchema) (settlements : List PendingSettlement) : List MaterializationOwner :=
  (schema.toList.map fun s => .schema s.previousContext.materialization) ++
    (settlements.filter fun s => !s.missingKeys.isEmpty).map fun s => .settlement s.batchId s.mutationId

theorem askSettlements_asks {settlements : List PendingSettlement} {c : Control}
    (h : ∀ s ∈ settlements, s.missingKeys.isEmpty = false →
      c.refreshWaiters.any (isOwned (.settlement s.batchId s.mutationId)) = false) :
    Asks c (settlements.foldl askSettlement c) := by
  induction settlements generalizing c with
  | nil => exact .refl c
  | cons s rest ih =>
    have first : Asks c (c.askSettlement s) := by
      unfold askSettlement
      split
      · exact .refl c
      · rename_i hmissing
        exact owned_asks (h s List.mem_cons_self (by simpa using hmissing))
    rw [List.foldl_cons]
    refine first.trans (ih fun s' hs' hm => ?_)
    have hw := h s' (List.mem_cons_of_mem _ hs') hm
    rw [List.any_eq_false] at hw ⊢
    exact fun f hf => hw f (first.waiters.subset hf)

/-- The guard of the wake that ends a Needs report, before the report. -/
def wakesAfter (c : Control) (status : Option StoreStatus) : Bool :=
  c.connected && (c.wakeAfterNeeds || status.isSome) && !c.freezing && c.waitingPush.isNone && !c.anyFlight isPush

/-- After Needs the waiting Push is sent, or a new Freeze begins. -/
theorem releasePush_pushes (c : Control) : (c.Quota → c.releasePush.Quota) ∧
    (c.releasePush.pushes ≤ c.pushes ∨ (c.wakeAfterNeeds = true ∧ c.connected = true ∧ c.freezing = false ∧
      c.waitingPush = none ∧ c.anyFlight isPush = false ∧ c.releasePush.pushes ≤ c.pushes + 1)) := by
  have woken : ∀ c : Control, c.waitingPush = none → (c.Quota → c.wake.Quota) ∧
      c.wake.pushes ≤ c.pushes + if c.wakes then 1 else 0 := by
    intro c hnone
    unfold wake
    split
    · rename_i hw
      refine ⟨fun q => ⟨q.link, q.delta, q.owned, q.waits⟩, ?_⟩
      have hf : ({ c with freezing := true }.push .freeze).jobs.countP StoreCommand.isFreeze =
          c.jobs.countP StoreCommand.isFreeze + 1 := by simp [push, StoreCommand.isFreeze]
      have hc : ({ c with freezing := true }.push .freeze).count isPush = c.count isPush := rfl
      have hp : ({ c with freezing := true }.push .freeze).waitingPush = c.waitingPush := rfl
      simp only [pushes, hf, hc, hp]
      omega
    · exact ⟨id, Nat.le_refl _⟩
  cases hwait : c.waitingPush with
  | none =>
    have hrelease : c.releasePush = if c.wakeAfterNeeds then ({ c with wakeAfterNeeds := false } : Control).wake
        else { c with wakeAfterNeeds := false } := by
      simp [releasePush, hwait]
    have hquota : c.Quota → ({ c with wakeAfterNeeds := false } : Control).Quota :=
      fun q => ⟨q.link, q.delta, q.owned, fun h => by simp [hwait] at h⟩
    have hpushes : ({ c with wakeAfterNeeds := false } : Control).pushes = c.pushes := rfl
    obtain ⟨hwq, hwp⟩ := woken { c with wakeAfterNeeds := false } hwait
    rw [hrelease]
    split
    · rename_i hwake
      refine ⟨fun q => hwq (hquota q), ?_⟩
      by_cases hw : ({ c with wakeAfterNeeds := false } : Control).wakes = true
      · have hguard := hw
        simp only [wakes, Bool.and_eq_true, Bool.not_eq_true'] at hguard
        rw [if_pos hw, hpushes] at hwp
        exact .inr ⟨hwake, hguard.1.1.1, hguard.1.2, rfl, hguard.2, hwp⟩
      · rw [if_neg hw, hpushes] at hwp
        exact .inl hwp
    · exact ⟨hquota, .inl (Nat.le_of_eq hpushes)⟩
  | some r =>
    -- The Push is in flight now, so the wake does nothing.
    have hblocked : ({ c with wakeAfterNeeds := false, waitingPush := none }.http (.push r) .push).wakes = false := by
      simp [wakes, anyFlight_http, isPush]
    have hrelease : c.releasePush = { c with wakeAfterNeeds := false, waitingPush := none }.http (.push r) .push := by
      have hw : ({ c with wakeAfterNeeds := false, waitingPush := none }.http (.push r) .push).wake =
          { c with wakeAfterNeeds := false, waitingPush := none }.http (.push r) .push := by
        simp [wake, hblocked]
      simp only [releasePush, hwait, hw, ite_self]
    rw [hrelease]
    refine ⟨fun q => ⟨?_, ?_, fun o => ?_, fun h => by cases h⟩, .inl ?_⟩
    · rw [count_http]
      exact q.link
    · rw [count_http]
      exact q.delta
    · rw [count_http]
      exact q.owned o
    · have hcount : ({ c with wakeAfterNeeds := false, waitingPush := none } : Control).count isPush = c.count isPush := rfl
      have hjobs : ({ c with wakeAfterNeeds := false, waitingPush := none }.http (.push r) .push).jobs = c.jobs := rfl
      have hnone : ({ c with wakeAfterNeeds := false, waitingPush := none }.http (.push r) .push).waitingPush = none := rfl
      simp only [pushes, count_http, hcount, hjobs, hnone, hwait, isPush, Option.toList_none, Option.toList_some,
        List.length_nil, List.length_singleton, if_true]
      omega

/-- **A Needs report keeps the quota** when nothing of the owners it asks for waits for a token, and brings a Push
nearer only by a wake. -/
theorem absorbNeeds_pushes {c : Control} {status : Option StoreStatus} {schema : Option Engine.PendingSchema}
    {settlements : List PendingSettlement}
    (h : ∀ o ∈ asked schema settlements, c.refreshWaiters.any (isOwned o) = false) :
    (c.Quota → (c.absorbNeeds status schema settlements).Quota) ∧
      ((c.absorbNeeds status schema settlements).pushes ≤ c.pushes ∨
        (c.wakesAfter status = true ∧ (c.absorbNeeds status schema settlements).pushes ≤ c.pushes + 1)) := by
  have waits : ∀ {c' : Control} (o), c'.refreshWaiters.Sublist c.refreshWaiters → o ∈ asked schema settlements →
      c'.refreshWaiters.any (isOwned o) = false := by
    intro c' o hs ho
    have hw := h o ho
    rw [List.any_eq_false] at hw ⊢
    exact fun f hf => hw f (hs.subset hf)
  have retired := retireOwners_asks c (pendingOwner c.context schema settlements)
  have schemaAsks : Asks c ((c.retireOwners (pendingOwner c.context schema settlements)).askSchema schema) := by
    refine retired.trans ?_
    unfold askSchema
    split
    · exact .refl _
    · rename_i s
      exact owned_asks (waits _ retired.waiters (by simp [asked]))
  have noted : Kept ((c.retireOwners (pendingOwner c.context schema settlements)).askSchema schema)
      (((c.retireOwners (pendingOwner c.context schema settlements)).askSchema schema).noteProgress status) := by
    cases status with
    | none => exact .refl _
    | some status =>
      refine Calm.kept ?_
      exact (Calm.refl _).update rfl rfl rfl rfl fun _ => rfl
  have settled : Asks (((c.retireOwners (pendingOwner c.context schema settlements)).askSchema schema).noteProgress status)
      (settlements.foldl askSettlement
        (((c.retireOwners (pendingOwner c.context schema settlements)).askSchema schema).noteProgress status)) := by
    refine askSettlements_asks fun s hs hm => waits _ ?_ ?_
    · cases status with
      | none => exact schemaAsks.waiters
      | some status => exact schemaAsks.waiters
    · refine List.mem_append_right _ (List.mem_map.2 ⟨s, List.mem_filter.2 ⟨hs, ?_⟩, rfl⟩)
      simp [hm]
  have before := (schemaAsks.kept.trans noted).trans settled.kept
  obtain ⟨hquota, hpushes⟩ := releasePush_pushes (settlements.foldl askSettlement
    (((c.retireOwners (pendingOwner c.context schema settlements)).askSchema schema).noteProgress status))
  refine ⟨fun q => hquota (before.quota q), ?_⟩
  rcases hpushes with hle | ⟨hwake, hconn, hfreeze, hwait, hfly, hle⟩
  · exact .inl (hle.trans before.pushes)
  · refine .inr ⟨?_, hle.trans (Nat.add_le_add_right before.pushes 1)⟩
    rw [settled.wake] at hwake
    rw [settled.connected] at hconn
    rw [settled.freezing] at hfreeze
    rw [settled.waitingPush] at hwait
    rw [settled.flying] at hfly
    cases status with
    | none =>
      simp only [noteProgress] at hwake hconn hfreeze hwait hfly
      simp [wakesAfter, ← schemaAsks.connected, ← schemaAsks.freezing, ← schemaAsks.waitingPush, ← schemaAsks.flying,
        ← schemaAsks.wake, hwake, hconn, hfreeze, hwait, hfly]
    | some st =>
      have hfly' : ((c.retireOwners (pendingOwner c.context schema settlements)).askSchema schema).anyFlight isPush = false := hfly
      simp only [noteProgress] at hconn hfreeze hwait
      simp [wakesAfter, ← schemaAsks.connected, ← schemaAsks.freezing, ← schemaAsks.waitingPush, ← schemaAsks.flying,
        hconn, hfreeze, hwait, hfly']

end Control

namespace Session

open Flight

/-- A message that brings a request to push. -/
def brings (epoch : Nat) (r : Reply) : Bool :=
  match r.message with
  | .ok (.guarded f (.ok (.frozen (some _)))) => f.epoch = epoch
  | .ok (.plain (.frozen (some _))) => true
  | _ => false

/-- Freezes with the worker, and reports of them, that will pass the fence. -/
def underway (s : Session) (epoch : Nat) : Nat :=
  s.work.countP (fun t => t.fence.epoch = epoch && t.command.isFreeze) + s.replies.countP (brings epoch)

/-- Freezes of the current epoch, queued or under way. -/
def freezes (s : Session) : Nat := s.control.jobs.countP StoreCommand.isFreeze + s.underway s.control.epoch

/-- A step that starts a request finds none of its kind waiting for a token, and a wake finds no earlier Freeze. -/
def Alone (s : Session) : Act → Prop
  | .connect => s.control.refreshWaiters.any isLink = false
  | .receive id outcome _ => s.control.flights.get id = some .retry → outcome.ok = true →
      s.control.refreshWaiters.any isLink = false
  | .wake => s.control.wakes = true → s.freezes = 0 ∧ s.control.refreshWaiters.any isPush = false
  | .deliver _ => ∀ r rest, s.replies = r :: rest → ∀ status schema settlements,
      s.control.effective r.message = some (.ok (.needs status schema settlements)) →
      (∀ o ∈ Control.asked schema settlements, s.control.refreshWaiters.any (isOwned o) = false) ∧
      (s.control.wakesAfter status = true → s.freezes = 0 ∧ s.control.refreshWaiters.any isPush = false)
  | _ => True

/-- At most one request of each kind, and one Push counted from its Freeze on. -/
structure Single (s : Session) : Prop where
  quota : s.control.Quota
  push : s.control.pushes + s.underway s.control.epoch ≤ 1
  work : ∀ t ∈ s.work, t.fence.epoch ≤ s.control.epoch
  replies : ∀ r ∈ s.replies, ∀ f x, r.message = .ok (.guarded f x) → f.epoch ≤ s.control.epoch

/-- Later epochs pass less. -/
theorem underway_le {s : Session} (h : Single s) {e : Nat} (he : s.control.epoch ≤ e) :
    s.underway e ≤ s.underway s.control.epoch := by
  rcases Nat.eq_or_lt_of_le he with rfl | hlt
  · exact Nat.le_refl _
  · refine Nat.add_le_add (List.countP_mono_left fun t ht hp => ?_) (List.countP_mono_left fun r hr hp => ?_)
    · simp only [Bool.and_eq_true, decide_eq_true_eq] at hp
      have hle := h.work t ht
      omega
    · unfold brings at hp ⊢
      split at hp
      · rename_i f x hm
        have hle := h.replies r hr _ _ hm
        simp only [decide_eq_true_eq] at hp
        omega
      · rfl
      · cases hp

/-- A change of Control alone that keeps the quota. -/
theorem Single.control {s : Session} (h : Single s) {c : Control} (hk : s.control.Kept c) (he : s.control.epoch ≤ c.epoch) :
    Single { s with control := c } where
  quota := hk.quota h.quota
  push := by
    have hu := underway_le h he
    have hp := hk.pushes
    have hle := h.push
    show c.pushes + s.underway c.epoch ≤ 1
    omega
  work := fun t ht => (h.work t ht).trans he
  replies := fun r hr f x hm => (h.replies r hr f x hm).trans he

/-- Nothing of the uplink is anywhere. -/
theorem idle {s : Session} (h : s.freezes = 0) (hw : s.control.refreshWaiters.any isPush = false)
    (hf : s.control.anyFlight isPush = false) (hp : s.control.waitingPush = none) :
    s.control.pushes = 0 ∧ s.underway s.control.epoch = 0 := by
  have hc : s.control.count isPush = 0 := Control.count_eq_zero_iff.2 ⟨hf, hw⟩
  simp only [freezes] at h
  simp only [Control.pushes, hc, hp, Option.toList_none, List.length_nil]
  omega

theorem wake_single {s : Session} (h : Single s) (ha : Alone s .wake) : Single { s with control := s.control.wake } := by
  by_cases hw : s.control.wakes = true
  · obtain ⟨hfree, hwait⟩ := ha hw
    have hguard := hw
    simp only [Control.wakes, Bool.and_eq_true, Bool.not_eq_true'] at hguard
    have hnone : s.control.waitingPush = none := by
      by_contra hsome
      have hawake := h.quota.waits (Option.isSome_iff_ne_none.2 hsome)
      simp [hguard.1.1.2] at hawake
    obtain ⟨hp, hu⟩ := idle hfree hwait hguard.2 hnone
    have hwake : s.control.wake = { s.control with freezing := true }.push .freeze := by simp [Control.wake, hw]
    rw [hwake]
    refine ⟨⟨h.quota.link, h.quota.delta, h.quota.owned, h.quota.waits⟩, ?_, h.work, h.replies⟩
    have hpush : ({ s.control with freezing := true }.push .freeze).pushes = s.control.pushes + 1 := by
      simp only [Control.pushes, Control.push, List.countP_append, List.countP_cons, List.countP_nil, StoreCommand.isFreeze,
        Control.count, if_true]
      omega
    show ({ s.control with freezing := true }.push .freeze).pushes + s.underway s.control.epoch ≤ 1
    omega
  · have hwake : s.control.wake = s.control := by simp [Control.wake, hw]
    rw [hwake]
    exact h

theorem drain_single {s : Session} (h : Single s) : Single s.drain where
  quota := ⟨h.quota.link, h.quota.delta, h.quota.owned, h.quota.waits⟩
  push := by
    have hle := h.push
    have sent : (s.control.jobs.zipIdx.map fun e => (⟨s.drained + e.2, fence s.control, e.1⟩ : Ticket)).countP
        (fun t => t.fence.epoch = s.control.epoch && t.command.isFreeze) = s.control.jobs.countP StoreCommand.isFreeze := by
      rw [List.countP_map]
      have hz : s.control.jobs = s.control.jobs.zipIdx.map Prod.fst := by simp
      conv_rhs => rw [hz, List.countP_map]
      refine List.countP_congr fun e _ => ?_
      simp [fence]
    have total : s.drain.underway s.control.epoch = s.underway s.control.epoch + s.control.jobs.countP StoreCommand.isFreeze := by
      simp only [underway, drain, List.countP_append]
      rw [sent]
      omega
    have moved : s.drain.control.pushes + s.control.jobs.countP StoreCommand.isFreeze = s.control.pushes := by
      simp only [Control.pushes, drain, List.countP_nil, Control.count]
      omega
    show s.drain.control.pushes + s.drain.underway s.control.epoch ≤ 1
    omega
  work := by
    intro t ht
    rcases List.mem_append.1 ht with ht | ht
    · exact h.work t ht
    · obtain ⟨e, _, rfl⟩ := List.mem_map.1 ht
      exact Nat.le_refl _
  replies := h.replies

section
variable {P : Platform} {H : Hashes} {W : Wire} {z : Sizes}

/-- Only a Freeze inside its fence brings a request. -/
theorem guardedWorker_brings {c : Client} {f : WorkerFaults} {current now : Nat} {t : Ticket}
    (h : brings current ⟨some t, (c.guardedWorker P H f current now t.fence t.command).1⟩ = true) :
    t.fence.epoch = current ∧ t.command.isFreeze = true := by
  unfold Client.guardedWorker at h
  split at h
  · cases h
  · rename_i hepoch
    split at h
    · cases h
    · split at h
      · cases h
      · cases hw : c.storeWorker P H f now t.command with
        | mk r c' =>
          rw [hw] at h
          refine ⟨not_not.1 hepoch, ?_⟩
          cases r with
          | error e => cases h
          | ok r =>
            have hans := Client.storeWorker_answered P H hw
            cases r with
            | frozen x =>
              cases hcmd : t.command <;> simp_all [StoreCommand.answeredBy, StoreCommand.isFreeze]
            | _ => cases h

theorem execute_single {s : Session} (h : Single s) (f : WorkerFaults) (now : Nat) : Single (s.execute P H f now) := by
  unfold execute
  split
  · exact h
  · rename_i t rest hwork
    have hle := h.push
    refine ⟨h.quota, ?_, fun t' ht => h.work t' (hwork ▸ List.mem_cons_of_mem _ ht), ?_⟩
    · have answered : (if brings s.control.epoch
          ⟨some t, (s.client.guardedWorker P H f s.control.epoch now t.fence t.command).1⟩ then 1 else 0) ≤
          if t.fence.epoch = s.control.epoch && t.command.isFreeze then 1 else 0 := by
        split
        · rename_i hb
          obtain ⟨he, hc⟩ := guardedWorker_brings hb
          simp [he, hc]
        · exact Nat.zero_le _
      simp only [underway, hwork, List.countP_cons, List.countP_append, List.countP_nil] at hle ⊢
      omega
    · intro r hr f' x hm
      rcases List.mem_append.1 hr with hr | hr
      · exact h.replies r hr f' x hm
      · simp only [List.mem_singleton] at hr
        subst hr
        have hfence : f' = t.fence := by
          simp only [Client.guardedWorker] at hm
          split at hm
          · cases hm
          · split at hm
            · cases hm
            · split at hm
              · cases hm
              · cases hm
                rfl
        rw [hfence]
        exact h.work t (hwork ▸ List.mem_cons_self)

theorem serve_single {s : Session} (h : Single s) (x : Client.LocalInput) (busy fault : Bool) :
    Single (s.serve P H x busy fault) := by
  have plain : ∀ (s : Session) moved, (∀ e, (s.snapshot moved busy fault).countP (brings e) = 0) ∧
      ∀ r ∈ s.snapshot moved busy fault, ∀ f y, r.message ≠ .ok (.guarded f y) := by
    intro s moved
    unfold snapshot
    split
    · simp
    · split
      · simp [brings]
      · simp [brings]
  have hle := h.push
  refine ⟨h.quota, ?_, h.work, ?_⟩
  · simp only [serve, underway, List.countP_append, (plain _ _).1, Nat.add_zero] at hle ⊢
    exact hle
  · intro r hr f y hm
    rcases List.mem_append.1 hr with hr | hr
    · exact h.replies r hr f y hm
    · exact absurd hm ((plain _ _).2 r hr f y)

/-! ## Reports -/

/-- What a report is absorbed into, counted without the message that brought it. -/
theorem absorb_single {s : Session} {r : Reply} {rest : List Reply} {x : StoreReport} (h : Single s)
    (hreplies : s.replies = r :: rest) (heff : s.control.effective r.message = some (.ok x)) {now : Nat}
    (ha : Alone s (.deliver now)) :
    (s.control.absorb x).Quota ∧
      (s.control.absorb x).pushes + ({ s with replies := rest } : Session).underway s.control.epoch ≤ 1 := by
  have hle := h.push
  have total : s.underway s.control.epoch =
      ({ s with replies := rest } : Session).underway s.control.epoch + if brings s.control.epoch r then 1 else 0 := by
    simp only [underway, hreplies, List.countP_cons]
    omega
  have kept : ∀ {c : Control}, s.control.Kept c →
      c.Quota ∧ c.pushes + ({ s with replies := rest } : Session).underway s.control.epoch ≤ 1 := by
    intro c hk
    refine ⟨hk.quota h.quota, ?_⟩
    have hp := hk.pushes
    omega
  cases x with
  | activePlans active =>
    refine kept (Control.Calm.kept ?_)
    exact (Control.Calm.refl _).update rfl rfl rfl rfl fun h => h
  | snapshot status => exact kept (Control.absorbSnapshot_kept _ status)
  | committed status plan active => exact kept (Control.absorbCommitted_kept _ status plan active)
  | needs status schema settlements =>
    obtain ⟨howners, hwakes⟩ := ha r rest hreplies status schema settlements heff
    obtain ⟨hquota, hpushes⟩ := @Control.absorbNeeds_pushes s.control status schema settlements howners
    refine ⟨hquota h.quota, ?_⟩
    show (s.control.absorbNeeds status schema settlements).pushes + _ ≤ 1
    rcases hpushes with hp | ⟨hw, hp⟩
    · omega
    · obtain ⟨hfree, hwait⟩ := hwakes hw
      simp only [Control.wakesAfter, Bool.and_eq_true, Bool.not_eq_true', Option.isNone_iff_eq_none] at hw
      obtain ⟨hzero, hu⟩ := idle hfree hwait hw.2 hw.1.2
      omega
  | frozen request =>
    cases request with
    | none =>
      refine kept (Control.Calm.kept ?_)
      exact (Control.Calm.refl _).update rfl rfl rfl rfl fun h => h
    | some request =>
      -- The message was counted, so nothing else of the uplink is anywhere.
      have hbrings : brings s.control.epoch r = true := by
        unfold brings
        cases hm : r.message with
        | error e => rw [hm] at heff; cases heff
        | ok w =>
          rw [hm] at heff
          cases w with
          | obsolete => cases heff
          | plain x => cases heff; rfl
          | guarded f x =>
            simp only [Control.effective] at heff
            split at heff
            · rename_i hp
              cases heff
              simp only [Control.passes, Bool.and_eq_true, decide_eq_true_eq] at hp
              simpa using hp.1
            · cases heff
      rw [hbrings, if_pos rfl] at total
      have hzero : s.control.pushes = 0 := by omega
      obtain ⟨hquota, hp⟩ := Control.absorbFrozen_pushes s.control request h.quota hzero
      refine ⟨hquota, ?_⟩
      show (s.control.absorbFrozen (some request)).pushes + _ ≤ 1
      omega

theorem deliver_single {s : Session} {now : Nat} (h : Single s) (ha : Alone s (.deliver now)) : Single (s.deliver now) := by
  unfold deliver
  split
  · exact h
  · rename_i r rest hreplies
    have hle := h.push
    have hrest : ∀ e, ({ s with replies := rest } : Session).underway e ≤ s.underway e := by
      intro e
      simp only [underway, hreplies, List.countP_cons]
      omega
    -- Control took the message, and one message fewer is under way.
    have popped : Single { s with replies := rest } := by
      refine ⟨h.quota, ?_, h.work, fun r' hr => h.replies r' (hreplies ▸ List.mem_cons_of_mem _ hr)⟩
      have hu := hrest s.control.epoch
      show s.control.pushes + ({ s with replies := rest } : Session).underway s.control.epoch ≤ 1
      omega
    have absorbed : ∀ {x : StoreReport}, s.control.effective r.message = some (.ok x) →
        Single { s with control := s.control.absorb x, replies := rest } := by
      intro x heff
      obtain ⟨hquota, hpush⟩ := absorb_single h hreplies heff ha
      have he := (Control.absorb_onward s.control x).epoch
      have hu := underway_le popped he
      refine ⟨hquota, ?_, fun t ht => (popped.work t ht).trans he, fun r' hr f y hm => (popped.replies r' hr f y hm).trans he⟩
      show (s.control.absorb x).pushes + ({ s with replies := rest } : Session).underway (s.control.absorb x).epoch ≤ 1
      exact (Nat.add_le_add_left hu _).trans hpush
    have hr := Control.onReport_reported s.control r.message now
    generalize s.control.onReport r.message now = c' at hr
    cases hr with
    | ignored _ => exact popped
    | @failed e _ => exact popped.control (Control.failed_calm _ e).kept (Control.failed_onward _ e).epoch
    | @absorbed x _ now' heff hs =>
      have scheduled := Control.schedule_scheduled (s.control.absorb x) now'
      rw [hs] at scheduled
      exact (absorbed heff).control scheduled.kept scheduled.onward.epoch
    | @broken x c₂ e heff hs =>
      exact ((absorbed heff).control hs.kept hs.onward.epoch).control (Control.failed_calm c₂ e).kept
        (Control.failed_onward c₂ e).epoch

theorem step_single {s : Session} {a : Act} (ha : Alone s a) (h : Single s) : Single (s.step P H W z a) := by
  cases a with
  | setRefreshAuth enabled =>
    refine h.control (Control.Calm.kept ?_) (Nat.le_refl _)
    exact (Control.Calm.refl _).update rfl rfl rfl rfl fun h => h
  | connect => exact h.control (Control.connect_kept ha) (Control.connect_onward _).epoch
  | stop => exact h.control (Control.stop_calm _).kept (Control.stop_onward _).epoch
  | pause =>
    refine h.control (Control.Calm.kept ?_) (Control.pause_onward _).epoch
    exact (Control.stop_calm _).update rfl rfl rfl rfl fun h => h
  | wake => exact wake_single h ha
  | receive id outcome now =>
    have hr := Control.onEffect_received W z P s.control id outcome now
    exact h.control (hr.kept ha) hr.onward.epoch
  | publish =>
    refine h.control (Control.Calm.kept ?_) (Nat.le_refl _)
    exact (Control.Calm.refl _).update rfl rfl rfl rfl fun h => h
  | drain => exact drain_single h
  | execute f now => exact execute_single h f now
  | serve x busy fault => exact serve_single h x busy fault
  | deliver now => exact deliver_single h ha

theorem opened_single (client : Client) (prefetch : Bool) : Single (opened client prefetch) where
  quota := ⟨by simp [opened, Control.withBootstrapPrefetch, Control.count],
    by simp [opened, Control.withBootstrapPrefetch, Control.count],
    by simp [opened, Control.withBootstrapPrefetch, Control.count],
    by simp [opened, Control.withBootstrapPrefetch]⟩
  push := by simp [opened, Control.withBootstrapPrefetch, Control.pushes, Control.count, underway]
  work := by simp [opened]
  replies := by simp [opened]

/-- A connection is one socket or one handshake. -/
theorem count_link (c : Control) : c.count isHandshake + c.count isSocket = c.count isLink := by
  have split : ∀ l : List Flight, l.countP isHandshake + l.countP isSocket = l.countP isLink := by
    intro l
    induction l with
    | nil => rfl
    | cons f rest ih =>
      rw [List.countP_cons, List.countP_cons, List.countP_cons, ← ih]
      cases f <;> simp [isHandshake, isSocket, isLink] <;> omega
  have hf := split (c.flights.map (·.2))
  have hw := split c.refreshWaiters
  simp only [List.countP_map] at hf
  simp only [Control.count]
  have comp : ∀ p : Flight → Bool, c.flights.countP (p ∘ fun e => e.2) = c.flights.countP fun e => p e.2 := fun _ => rfl
  rw [comp, comp, comp] at hf
  omega

/-- **Single flight.** In every run whose steps start a request only while nothing of its kind waits for a token, and
a Freeze only while none is outstanding, there is at most one socket, one handshake, one page request and one Push,
and one transfer request for each owner, counting flights and waiting requests together. -/
theorem single_flight {client : Client} {prefetch : Bool} {acts : List Act} {s : Session}
    (h : Runs P H W z Alone (opened client prefetch) acts s) :
    s.control.count isSocket ≤ 1 ∧ s.control.count isHandshake ≤ 1 ∧ s.control.count isDelta ≤ 1 ∧
      s.control.count isPush ≤ 1 ∧ ∀ o, s.control.count (isOwned o) ≤ 1 := by
  have single : Single s := by
    refine Trace.inv Single ?_ h (opened_single client prefetch)
    rintro s a _ hs ⟨ha, rfl⟩
    exact step_single ha hs
  have link := single.quota.link
  rw [← count_link] at link
  have push := single.push
  simp only [Control.pushes] at push
  exact ⟨by omega, by omega, single.quota.delta, by omega, single.quota.owned⟩

end

end Session

namespace Notes

open Session

/-- A handshake refused for its token. -/
def unauthorized : EffectOutcome := { ok := false, error := some { message := "HTTP 401", status := some 401 } }

def greeted : EffectOutcome := { ok := true, value := some (.str greeting) }

/-- A connection whose handshake is answered, then a wake. -/
def greetActs : List Act := [.setRefreshAuth true, .connect, .receive 1 greeted 0, .wake, .drain]

theorem greeted_single_flight :
    (fenceStart.run platform hashes wire sizes greetActs).control.count Flight.isSocket = 1 ∧
      ∀ o, (fenceStart.run platform hashes wire sizes greetActs).control.count (Flight.isOwned o) ≤ 1 := by
  have run : Runs platform hashes wire sizes Alone (opened start true) greetActs
      (fenceStart.run platform hashes wire sizes greetActs) := by
    refine runs_of_along platform hashes wire sizes ⟨trivial, rfl, ?_, ?_, trivial, trivial⟩
    · exact fun _ _ => rfl
    · exact fun _ => ⟨rfl, rfl⟩
  exact ⟨by decide +kernel, (single_flight run).2.2.2.2⟩

/-- A second connect while the handshake waits for a token. -/
def reconnectActs : List Act := [.setRefreshAuth true, .connect, .receive 1 unauthorized 0, .connect]

/-- The handshake that waits is not seen: two handshakes at once. -/
theorem reconnect_two_handshakes :
    ∃ s, Runs platform hashes wire sizes (fun _ _ => True) (opened start true) reconnectActs s ∧
      s.control.count Flight.isHandshake = 2 :=
  ⟨fenceStart.run platform hashes wire sizes reconnectActs,
    runs_of_along platform hashes wire sizes (along_true platform hashes wire sizes), by decide +kernel⟩

end Notes

end Axton
