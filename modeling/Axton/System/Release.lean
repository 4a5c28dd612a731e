import Axton.System.Flights

/-!
# Store-work flags are released

`freezing`, `applying` and the wait for Needs each stand for a command that is outstanding: queued, with the worker,
or answered by a message Control has yet to take. The message then releases the flag.

A command can also end without a message: the worker drops it as obsolete. Under an old epoch that is harmless,
the epoch's change reset the flags. Dropped for the store's context it is not: Control goes on waiting for a
report that never comes. `InContext` excludes these drops, on either side of the channel, and a retry timer that is
answered with 401; `Attended` excludes a failure that ends a Needs while disconnected.
-/

namespace Axton

namespace Control

open Flight

/-- The retry timer is running. -/
def retrying (c : Control) : Bool := c.anyFlight (· = .retry)

/-- A change that sets no flag without its command and drops no queued command. -/
structure Steady (c c' : Control) : Prop where
  epoch : c'.epoch = c.epoch
  jobs : ∀ j ∈ c.jobs, j ∈ c'.jobs
  freezing : c'.freezing = true → c.freezing = true
  applying : c'.applying = true → c.applying = true ∨ ∃ j ∈ c'.jobs, j.isApply = true
  wake : c'.wakeAfterNeeds = true → c.wakeAfterNeeds = true
  waiting : c'.waitingPush.isSome = true → c.waitingPush.isSome = true
  retrying : c.retrying = true → c'.retrying = true
  connected : c'.connected = c.connected
  timer : (c.retrying = true → c.connected = true) → c'.retrying = true → c'.connected = true

/-- A new epoch: no flag is set. -/
structure Clear (c : Control) : Prop where
  freezing : c.freezing = false
  applying : c.applying = false
  wake : c.wakeAfterNeeds = false
  waiting : c.waitingPush = none
  connected : c.retrying = true → c.connected = true

theorem Steady.refl (c : Control) : Steady c c :=
  ⟨rfl, fun _ h => h, id, .inl, id, id, id, rfl, id⟩

theorem Steady.trans {a b c : Control} (h : Steady a b) (h' : Steady b c) : Steady a c where
  epoch := h'.epoch.trans h.epoch
  jobs := fun j hj => h'.jobs j (h.jobs j hj)
  freezing := fun hf => h.freezing (h'.freezing hf)
  applying := by
    intro ha
    rcases h'.applying ha with hb | hj
    · rcases h.applying hb with ha | ⟨j, hj, hap⟩
      · exact .inl ha
      · exact .inr ⟨j, h'.jobs j hj, hap⟩
    · exact .inr hj
  wake := fun hw => h.wake (h'.wake hw)
  waiting := fun hw => h.waiting (h'.waiting hw)
  retrying := fun hr => h'.retrying (h.retrying hr)
  connected := h'.connected.trans h.connected
  timer := fun hc => h'.timer (h.timer hc)

theorem Scheduled.steady {c c' : Control} (h : Scheduled c c') : Steady c c' := by
  have hretry : c'.retrying = true ↔ c.retrying = true := by
    simp only [Control.retrying, anyFlight_iff, decide_eq_true_eq]
    constructor
    · rintro ⟨e, he, hr⟩
      rcases h.started e he with he | hx | hd
      · exact ⟨e, he, hr⟩
      · rw [hr] at hx
        cases hx
      · rw [hr] at hd
        cases hd
    · rintro ⟨e, he, hr⟩
      exact ⟨e, h.flights.subset he, hr⟩
  have hconn : c'.connected = c.connected := by rw [h.frame]
  refine ⟨by rw [h.frame], fun j hj => h.jobs.subset hj, fun hf => ?_, h.applying, fun hw => ?_, fun hw => ?_, hretry.2,
    hconn, fun hc hr => hconn ▸ hc (hretry.1 hr)⟩
  · rw [h.frame] at hf
    exact hf
  · rw [h.frame] at hw
    exact hw
  · rw [h.frame] at hw
    exact hw

/-- The same flags, more jobs, and flights that differ only in others than the retry timer. -/
theorem Steady.of_eq {c c' : Control} (he : c'.epoch = c.epoch) (hj : ∀ j ∈ c.jobs, j ∈ c'.jobs)
    (hf : c'.freezing = true → c.freezing = true) (ha : c'.applying = true → c.applying = true)
    (hw : c'.wakeAfterNeeds = c.wakeAfterNeeds) (hp : c'.waitingPush = c.waitingPush)
    (hr : c'.retrying = c.retrying) (hc : c'.connected = c.connected) : Steady c c' :=
  ⟨he, hj, hf, fun h => .inl (ha h), fun h => hw ▸ h, fun h => hp ▸ h, fun h => hr ▸ h, hc,
    fun h h' => hc ▸ h (hr ▸ h')⟩

theorem push_steady (c : Control) (j : StoreCommand) : Steady c (c.push j) :=
  .of_eq rfl (fun _ h => List.mem_append_left _ h) id id rfl rfl rfl rfl

theorem effect_steady (c : Control) {f : Flight} (o : NetOperation) (hf : f ≠ .retry) : Steady c (c.effect f o) :=
  .of_eq rfl (fun _ h => h) id id rfl rfl (by simp [retrying, anyFlight, effect, hf]) rfl

theorem cancelFlights_retrying (c : Control) {p : Flight → Bool} (hp : p .retry = false) :
    (c.cancelFlights p).retrying = c.retrying := by
  simp only [retrying, anyFlight, cancelFlights, List.any_filter]
  congr 1
  funext e
  by_cases h : e.2 = .retry
  · simp [h, hp]
  · simp [h]

theorem cancelFlights_steady (c : Control) {p : Flight → Bool} (hp : p .retry = false) : Steady c (c.cancelFlights p) :=
  .of_eq rfl (fun _ h => h) id id rfl rfl (cancelFlights_retrying c hp) rfl

theorem retireBootstrapPrefetch_steady (c : Control) : Steady c c.retireBootstrapPrefetch :=
  (cancelFlights_steady c rfl).trans (.of_eq rfl (fun _ h => h) id id rfl rfl rfl rfl)

/-- A retry is armed while connected. -/
theorem retryStatus_steady (c : Control) (m : String) (status : Option Nat) : Steady c (c.retryStatus m status) := by
  have told : Steady c (c.tell (.error m status)) := .of_eq rfl (fun _ h => h) id id rfl rfl rfl rfl
  unfold retryStatus
  simp only
  split
  · rename_i hc
    simp only [Bool.and_eq_true] at hc
    refine ⟨rfl, fun _ h => h, id, .inl, id, id, fun h => ?_, rfl, fun _ _ => hc.1⟩
    simp only [retrying, anyFlight, effect, List.any_append, Bool.or_eq_true] at h ⊢
    exact .inl h
  · exact told

theorem retryStatus_retrying {c : Control} (m : String) (status : Option Nat) (hc : c.connected = true) :
    (c.retryStatus m status).retrying = true := by
  unfold retryStatus
  simp only
  split
  · simp [retrying, anyFlight, effect]
  · rename_i h
    have hany : (c.tell (.error m status)).anyFlight (· = .retry) = true := by
      simpa [tell, hc] using h
    exact hany

theorem blockPlan_steady (c : Control) : Steady c c.blockPlan := by
  unfold blockPlan
  split
  · exact .refl c
  · split
    · exact .of_eq rfl (fun _ h => h) id id rfl rfl rfl rfl
    · split
      · exact .of_eq rfl (fun _ h => List.mem_append_left _ h) id id rfl rfl rfl rfl
      · exact .of_eq rfl (fun _ h => h) id id rfl rfl rfl rfl

theorem failed_steady (c : Control) (m : String) : Steady c (c.failed m) := by
  refine Steady.trans ((retireBootstrapPrefetch_steady c).trans (blockPlan_steady _)) ?_
  refine Steady.trans ?_ (retryStatus_steady _ _ _)
  exact .of_eq rfl (fun _ h => h) nofun nofun rfl rfl rfl rfl

/-- A failure releases the Freeze and the Apply. -/
theorem retryStatus_flags (c : Control) (m : String) (status : Option Nat) :
    (c.retryStatus m status).freezing = c.freezing ∧ (c.retryStatus m status).applying = c.applying := by
  unfold retryStatus
  simp only
  split
  · exact ⟨rfl, rfl⟩
  · exact ⟨rfl, rfl⟩

theorem failed_freezing (c : Control) (m : String) : (c.failed m).freezing = false := (retryStatus_flags _ _ _).1

theorem failed_applying (c : Control) (m : String) : (c.failed m).applying = false := (retryStatus_flags _ _ _).2

theorem blockPlan_connected (c : Control) : c.blockPlan.connected = c.connected := by
  unfold blockPlan
  split
  · rfl
  · split
    · rfl
    · split <;> rfl

theorem failed_retrying {c : Control} (m : String) (hc : c.connected = true) : (c.failed m).retrying = true := by
  refine retryStatus_retrying m none ?_
  show c.retireBootstrapPrefetch.blockPlan.connected = true
  rw [blockPlan_connected]
  exact hc

theorem handshake_clear {c : Control} (hc : c.retrying = true → c.connected = true) : c.handshake.Clear := by
  refine ⟨rfl, rfl, rfl, rfl, fun hr => ?_⟩
  have hcancel : (c.retireBootstrapPrefetch.newEpoch.cancelFlights isConnection).retrying = true := by
    simpa [handshake, http, effect, retrying, anyFlight] using hr
  rw [cancelFlights_retrying _ rfl] at hcancel
  have hretire : c.retireBootstrapPrefetch.retrying = true := hcancel
  have hbefore : (c.cancelFlights (prefetches (c.status.bootstrapCursor.getD 0))).retrying = true := hretire
  rw [cancelFlights_retrying _ rfl] at hbefore
  exact hc hbefore

theorem connect_clear (c : Control) : c.connect.Clear := handshake_clear fun _ => rfl

theorem stop_clear (c : Control) : c.stop.Clear :=
  ⟨rfl, rfl, rfl, rfl, by simp [retrying, anyFlight, stop, cancelFlights]⟩

end Control

namespace Session

open Flight

/-- A message Control has yet to take, of a command of a kind under the current epoch. -/
def Reply.Pending (epoch : Nat) (k : StoreCommand → Bool) (r : Reply) : Prop :=
  ∃ t, r.ticket = some t ∧ t.fence.epoch = epoch ∧ k t.command = true ∧ r.message ≠ .ok .obsolete

/-- A command of a kind is queued, with the worker, or answered by a message under way. -/
def Outstanding (s : Session) (k : StoreCommand → Bool) : Prop :=
  (∃ j ∈ s.control.jobs, k j = true) ∨ (∃ t ∈ s.work, t.fence.epoch = s.control.epoch ∧ k t.command = true) ∨
    ∃ r ∈ s.replies, Reply.Pending s.control.epoch k r

/-- A message answers its ticket: obsolete, a bare failure, or its kind of report under its fence. -/
def Reply.Matched (r : Reply) : Prop :=
  ∀ t, r.ticket = some t → r.message = .ok .obsolete ∨ (∃ e, r.message = .error e) ∨
    ∃ x, r.message = .ok (.guarded t.fence x) ∧ ∀ y, x = .ok y → t.command.answeredBy y = true

/-- A Freeze or an Apply that is marked is outstanding. -/
structure Working (s : Session) : Prop where
  freezing : s.control.freezing = true → s.Outstanding StoreCommand.isFreeze
  applying : s.control.applying = true → s.Outstanding StoreCommand.isApply
  connected : s.control.retrying = true → s.control.connected = true
  matched : ∀ r ∈ s.replies, Reply.Matched r
  numbered : s.control.Numbered

/-- Every flag has its outstanding command; a wait for Needs may instead wait for the retry. Unless `strict`, this
says nothing of a wait while disconnected: the next connect drops it. -/
structure Released (strict : Prop) (s : Session) : Prop extends Working s where
  needs : strict ∨ s.control.connected = true →
    s.control.wakeAfterNeeds = true ∨ s.control.waitingPush.isSome = true →
    s.Outstanding StoreCommand.isNeeds ∨ s.control.retrying = true

/-- No command and no message of the current epoch is dropped for its context, and the retry timer is not answered
with 401. -/
def InContext (s : Session) : Act → Prop
  | .execute f _ => ∀ t rest, s.work = t :: rest → t.fence.epoch = s.control.epoch → f.context = false →
      s.client.store.context = t.fence.context
  | .deliver _ => ∀ r rest, s.replies = r :: rest → ∀ f x, r.message = .ok (.guarded f x) →
      f.epoch = s.control.epoch → f.context = s.control.context
  | .receive id outcome _ => s.control.flights.get id = some .retry →
      outcome.error.any (·.status = some 401) = false
  | _ => True

/-- A failure reaches Control only while it is connected or does not wait for Needs. -/
def Attended (s : Session) : Act → Prop
  | .deliver _ => ∀ r rest, s.replies = r :: rest → (∃ e, s.control.effective r.message = some (.error e)) →
      s.control.connected = true ∨ (s.control.wakeAfterNeeds = false ∧ s.control.waitingPush = none)
  | _ => True

/-- Both. -/
def Unbroken (s : Session) (a : Act) : Prop := InContext s a ∧ Attended s a

/-! ## Changes of Control alone -/

variable {strict : Prop}

theorem Outstanding.control {s : Session} {k : StoreCommand → Bool} {c : Control} (h : s.Outstanding k)
    (he : c.epoch = s.control.epoch) (hj : ∀ j ∈ s.control.jobs, k j = true → j ∈ c.jobs) :
    ({ s with control := c } : Session).Outstanding k := by
  rcases h with ⟨j, hjm, hk⟩ | ⟨t, ht, hte, hk⟩ | ⟨r, hr, t, ht, hte, hk⟩
  · exact .inl ⟨j, hj j hjm hk, hk⟩
  · exact .inr (.inl ⟨t, ht, hte.trans he.symm, hk⟩)
  · exact .inr (.inr ⟨r, hr, t, ht, hte.trans he.symm, hk⟩)

theorem Working.steady {s : Session} {c : Control} (h : Working s) (hs : s.control.Steady c)
    (hn : c.Numbered) : Working { s with control := c } where
  freezing := fun hf => (h.freezing (hs.freezing hf)).control hs.epoch fun j hj _ => hs.jobs j hj
  applying := by
    intro ha
    rcases hs.applying ha with ha | ⟨j, hj, hk⟩
    · exact (h.applying ha).control hs.epoch fun j hj _ => hs.jobs j hj
    · exact .inl ⟨j, hj, hk⟩
  connected := hs.timer h.connected
  matched := h.matched
  numbered := hn

theorem Released.steady {s : Session} {c : Control} (h : Released strict s) (hs : s.control.Steady c)
    (hn : c.Numbered) : Released strict { s with control := c } where
  toWorking := h.toWorking.steady hs hn
  needs := by
    intro hst hw
    rcases h.needs (hst.imp_right fun hc => hs.connected ▸ hc) (hw.imp hs.wake hs.waiting) with ho | hr
    · exact .inl (ho.control hs.epoch fun j hj _ => hs.jobs j hj)
    · exact .inr (hs.retrying hr)

theorem Released.clear {s : Session} {c : Control} (h : Released strict s) (hc : c.Clear) (hn : c.Numbered) :
    Released strict { s with control := c } where
  freezing := fun hf => by rw [hc.freezing] at hf; cases hf
  applying := fun ha => by rw [hc.applying] at ha; cases ha
  needs := by
    intro _ hw
    rw [hc.wake, hc.waiting] at hw
    rcases hw with hw | hw
    · cases hw
    · cases hw
  connected := hc.connected
  matched := h.matched
  numbered := hn

/-! ## Outcomes -/

/-- Another flight than the retry timer is answered. -/
theorem erase_retrying {c : Control} {id : Nat} (hn : c.Numbered) (hid : c.flights.get id ≠ some .retry) :
    ({ c with flights := c.flights.erase id } : Control).retrying = c.retrying := by
  refine Bool.eq_iff_iff.2 ?_
  simp only [Control.retrying, Control.anyFlight_iff, decide_eq_true_eq]
  constructor
  · rintro ⟨e, he, hr⟩
    exact ⟨e, List.mem_of_mem_filter he, hr⟩
  · rintro ⟨e, he, hr⟩
    refine ⟨e, List.mem_filter.2 ⟨he, ?_⟩, hr⟩
    have hne : e.1 ≠ id := by
      rintro rfl
      refine hid ?_
      rw [← hr]
      exact Table.get_of_mem hn.nodup he
    simpa using hne

theorem erase_steady {c : Control} {id : Nat} (hn : c.Numbered) (hid : c.flights.get id ≠ some .retry) :
    c.Steady { c with flights := c.flights.erase id } :=
  .of_eq rfl (fun _ h => h) (fun h => h) (fun h => h) rfl rfl (erase_retrying hn hid) rfl

theorem taken_steady {c : Control} {id : Nat} {f : Flight} (hn : c.Numbered) (hf : c.flights.get id = some f)
    (hr : f ≠ .retry) : c.Steady (c.taken id f) := by
  unfold Control.taken
  split
  · exact .refl c
  · refine erase_steady hn ?_
    rw [hf]
    simpa using hr

theorem erase_erase (t : Table Nat Flight) (id : Nat) : Table.erase (Table.erase t id) id = Table.erase t id := by
  simp [Table.erase, List.filter_filter]

/-- Whether a flight was taken already or not, its answer removes it once. -/
theorem taken_erase (c : Control) (id : Nat) (f : Flight) :
    ({ c.taken id f with flights := (c.taken id f).flights.erase id } : Control) =
      { c with flights := c.flights.erase id } := by
  unfold Control.taken
  split
  · rfl
  · simp only [erase_erase]

theorem waitForToken_steady {c : Control} {id : Nat} {f : Flight} (hn : c.Numbered) (hf : c.flights.get id = some f)
    (hr : f ≠ .retry) (e : EffectError) : c.Steady ((c.taken id f).waitForToken id f e) := by
  have taken := taken_steady hn hf hr
  have hnt := (Control.taken_onward c id f).numbered hn
  have erased : (c.taken id f).Steady { c.taken id f with flights := (c.taken id f).flights.erase id } := by
    rw [taken_erase]
    have both : c.Steady { c with flights := c.flights.erase id } := erase_steady hn (by rw [hf]; simpa using hr)
    unfold Control.taken
    split
    · exact both
    · exact .refl _
  have moved : c.Steady { (c.taken id f).tell (.error e.message e.status) with
      flights := (c.taken id f).flights.erase id, refreshWaiters := (c.taken id f).refreshWaiters ++ [f] } :=
    (taken.trans erased).trans (.of_eq rfl (fun _ h => h) (fun h => h) (fun h => h) rfl rfl rfl rfl)
  unfold Control.waitForToken
  simp only
  split
  · exact moved
  · refine Control.Steady.trans ?_ (Control.effect_steady _ _ nofun)
    exact moved.trans (.of_eq rfl (fun _ h => h) (fun h => h) (fun h => h) rfl rfl rfl rfl)

/-- A lost request arms the retry, and so does a lost retry. -/
theorem loseFlight_steady {c : Control} {id : Nat} {f : Flight} (hn : c.Numbered) (hf : c.flights.get id = some f)
    (hc : c.retrying = true → c.connected = true) (error : Option EffectError) :
    c.Steady ((c.taken id f).loseFlight id f error) := by
  have hlost : (c.taken id f).loseFlight id f error =
      (if f = .refresh then { c with flights := c.flights.erase id, refreshing := false, refreshWaiters := [] }
        else { c with flights := c.flights.erase id } : Control).retryStatus
          (Control.failureOf error).1 (Control.failureOf error).2 := by
    unfold Control.loseFlight Control.taken
    by_cases hs : f = .socket
    · subst hs
      rfl
    · by_cases hx : f = .refresh
      · simp [hx, erase_erase]
      · simp [hs, hx, erase_erase]
  by_cases hr : f = .retry
  · -- The connection is up, so another timer replaces the lost one.
    subst hr
    have hconn : c.connected = true := by
      refine hc ?_
      simp only [Control.retrying, Control.anyFlight_iff]
      exact ⟨(id, .retry), Table.mem_of_get hf, rfl⟩
    rw [hlost]
    have retried := Control.retryStatus_steady { c with flights := c.flights.erase id }
      (Control.failureOf error).1 (Control.failureOf error).2
    simp only [reduceCtorEq, if_false]
    have armed : (({ c with flights := c.flights.erase id } : Control).retryStatus
        (Control.failureOf error).1 (Control.failureOf error).2).retrying = true :=
      Control.retryStatus_retrying _ _ hconn
    exact ⟨retried.epoch, retried.jobs, retried.freezing, retried.applying, retried.wake, retried.waiting,
      fun _ => armed, retried.connected, fun _ => retried.timer fun _ => hconn⟩
  · rw [hlost]
    refine Control.Steady.trans ?_ (Control.retryStatus_steady _ _ _)
    have erased : c.Steady { c with flights := c.flights.erase id } := erase_steady hn (by rw [hf]; simpa using hr)
    split
    · exact erased.trans (.of_eq rfl (fun _ h => h) (fun h => h) (fun h => h) rfl rfl rfl rfl)
    · exact erased

theorem resend_released {s : Session} (h : Released strict s) (f : Flight) :
    Released strict { s with control := s.control.resend f } := by
  have hn := (Control.resend_onward s.control f).numbered h.numbered
  cases f with
  | handshake r => exact h.steady (Control.effect_steady _ _ nofun) hn
  | delta r => exact h.steady (Control.effect_steady _ _ nofun) hn
  | owned r => exact h.steady (Control.effect_steady _ _ nofun) hn
  | push r => exact h.steady (Control.effect_steady _ _ nofun) hn
  | socket => exact h.clear (Control.handshake_clear h.connected) hn
  | expire => exact h
  | retry => exact h
  | refresh => exact h

theorem resent_released : ∀ (l : List Flight) {s : Session}, Released strict s →
    Released strict { s with control := l.foldl Control.resend s.control }
  | [], _, h => h
  | f :: l, _, h => resent_released l (resend_released h f)

theorem attends_steady {c c' : Control} (h : c.Attends c') : c.Steady c' := by
  cases h with
  | @scheduled _ now hs =>
    have scheduled := Control.schedule_scheduled c now
    rw [hs] at scheduled
    exact scheduled.steady
  | retried hs => exact hs.steady.trans (Control.retryStatus_steady _ _ _)

theorem staged_steady {c c₁ : Control} {id : Nat} {f : Flight} (hn : c.Numbered) (hf : c.flights.get id = some f)
    (hr : f ≠ .retry) (h : c.Staged c₁ id) : c.Steady c₁ := by
  have hflights : c₁.retrying = c.retrying := by
    rcases h.flights with ⟨hsame, _⟩ | herase
    · simp only [Control.retrying, Control.anyFlight, hsame]
    · have hretry : c₁.retrying = ({ c with flights := c.flights.erase id } : Control).retrying := by
        simp only [Control.retrying, Control.anyFlight, herase]
      rw [hretry]
      exact erase_retrying hn (by rw [hf]; simpa using hr)
  refine .of_eq (by rw [h.frame]) (fun j hj => ?_) (fun hx => ?_) (fun hx => ?_) (by rw [h.frame]) (by rw [h.frame]) hflights
    (by rw [h.frame])
  · rcases h.jobs with hjobs | ⟨now, hjobs⟩
    · exact hjobs ▸ hj
    · rw [hjobs]
      exact List.mem_append_left _ hj
  · rw [h.frame] at hx
    exact hx
  · rw [h.frame] at hx
    exact hx

/-- Outcomes keep every flag's command. -/
theorem received_released {s : Session} {id now : Nat} {outcome : EffectOutcome} {c' : Control} (h : Released strict s)
    (ha : InContext s (.receive id outcome now)) (hr : s.control.Received id outcome c') :
    Released strict { s with control := c' } := by
  have hn := hr.onward.numbered h.numbered
  cases hr with
  | ignored _ => exact h
  | @refused f _ hf _ =>
    have stopped := Control.stop_clear (s.control.taken id f)
    exact h.clear ⟨stopped.freezing, stopped.applying, stopped.wake, stopped.waiting, stopped.connected⟩ hn
  | @waits f e hf _ he hstatus =>
    have hne : f ≠ .retry := by
      rintro rfl
      have h401 := ha hf
      rw [he] at h401
      simp [hstatus] at h401
    exact h.steady (waitForToken_steady h.numbered hf hne e) hn
  | lost hf => exact h.steady (loseFlight_steady h.numbered hf h.connected _) hn
  | refreshed hf =>
    have erased : s.control.Steady { s.control with
        flights := s.control.flights.erase id, refreshing := false, refreshWaiters := [] } :=
      (erase_steady h.numbered (by rw [hf]; nofun)).trans
        (.of_eq rfl (fun _ h => h) (fun h => h) (fun h => h) rfl rfl rfl rfl)
    have hne : ({ s.control with
        flights := s.control.flights.erase id, refreshing := false, refreshWaiters := [] } : Control).Numbered := by
      refine Control.Onward.numbered (Control.Onward.update (Control.erase_onward s.control id) ?_ ?_ ?_ ?_) h.numbered
      all_goals rfl
    exact resent_released _ (h.steady erased hne)
  | retried hf _ =>
    refine h.clear (Control.handshake_clear fun _ => ?_) hn
    show s.control.connected = true
    refine h.connected ?_
    simp only [Control.retrying, Control.anyFlight_iff]
    exact ⟨(id, .retry), Table.mem_of_get hf, rfl⟩
  | @greeted r head hf =>
    refine h.steady ?_ hn
    refine Control.Steady.trans ?_ (Control.effect_steady _ _ nofun)
    refine Control.Steady.trans ?_ (Control.push_steady _ _)
    exact (erase_steady h.numbered (by rw [hf]; nofun)).trans
      (.of_eq rfl (fun _ h => h) (fun h => h) (fun h => h) rfl rfl rfl rfl)
  | acknowledged hf =>
    exact h.steady ((erase_steady h.numbered (by rw [hf]; nofun)).trans (Control.push_steady _ _)) hn
  | staged hf hretry _ hs hattends _ =>
    exact h.steady ((staged_steady h.numbered hf hretry hs).trans (attends_steady hattends)) hn

/-! ## The worker -/

theorem wake_released {s : Session} (h : Released strict s) : Released strict { s with control := s.control.wake } := by
  have hn := (Control.wake_onward s.control).numbered h.numbered
  unfold Control.wake at hn ⊢
  split at hn
  · rename_i hw
    rw [if_pos hw]
    have more : ∀ k, s.Outstanding k →
        ({ s with control := { s.control with freezing := true }.push .freeze } : Session).Outstanding k :=
      fun k ho => ho.control rfl fun j hj _ => List.mem_append_left _ hj
    exact {
      freezing := fun _ => .inl ⟨.freeze, List.mem_append_right _ (List.mem_singleton.2 rfl), rfl⟩
      applying := fun ha => more _ (h.applying ha)
      connected := h.connected
      matched := h.matched
      numbered := hn
      needs := fun hst hx => (h.needs hst hx).imp_left (more _) }
  · rename_i hw
    rw [if_neg hw]
    exact h

/-- What was queued is with the worker. -/
theorem Outstanding.drain {s : Session} {k : StoreCommand → Bool} (h : s.Outstanding k) : s.drain.Outstanding k := by
  rcases h with ⟨j, hj, hk⟩ | ⟨t, ht, he, hk⟩ | hr
  · obtain ⟨i, hi⟩ := List.mem_iff_getElem?.1 hj
    refine .inr (.inl ⟨⟨s.drained + i, fence s.control, j⟩, ?_, rfl, hk⟩)
    refine List.mem_append_right _ (List.mem_map.2 ⟨(j, i), ?_, rfl⟩)
    exact List.mk_mem_zipIdx_iff_getElem?.2 hi
  · exact .inr (.inl ⟨t, List.mem_append_left _ ht, he, hk⟩)
  · exact .inr (.inr hr)

theorem drain_released {s : Session} (h : Released strict s) : Released strict s.drain where
  freezing := fun hf => (h.freezing hf).drain
  applying := fun ha => (h.applying ha).drain
  connected := h.connected
  matched := h.matched
  numbered := ⟨h.numbered.nodup, h.numbered.bound, h.numbered.cancelled⟩
  needs := fun hst hx => (h.needs hst hx).imp_left Outstanding.drain

section
variable (P : Platform) (H : Hashes) (W : Wire) (z : Sizes)

/-- A command in context leaves a message. -/
theorem Outstanding.execute {s : Session} {k : StoreCommand → Bool} {f : WorkerFaults} {now : Nat}
    (ha : InContext s (.execute f now)) (h : s.Outstanding k) : (s.execute P H f now).Outstanding k := by
  unfold Session.execute
  split
  · exact h
  · rename_i t rest hw
    rcases h with hj | ⟨t', ht, he, hk⟩ | ⟨r, hr, hp⟩
    · exact .inl hj
    · rw [hw] at ht
      rcases List.mem_cons.1 ht with rfl | ht
      · refine .inr (.inr ⟨_, List.mem_append_right _ (List.mem_singleton.2 rfl), t', rfl, he, hk, ?_⟩)
        have hcontext := ha t' rest hw he
        unfold Client.guardedWorker
        rw [if_neg (not_not.2 he)]
        by_cases hf : f.context = true
        · rw [if_pos hf]
          nofun
        · rw [if_neg hf, if_neg (not_not.2 (hcontext (by simpa using hf)))]
          nofun
      · exact .inr (.inl ⟨t', ht, he, hk⟩)
    · exact .inr (.inr ⟨r, List.mem_append_left _ hr, hp⟩)

theorem guardedWorker_matched (c : Client) (f : WorkerFaults) (current now : Nat) (t : Ticket) :
    Reply.Matched ⟨some t, (c.guardedWorker P H f current now t.fence t.command).1⟩ := by
  intro t' ht
  cases ht
  unfold Client.guardedWorker
  split
  · exact .inl rfl
  · split
    · exact .inr (.inl ⟨_, rfl⟩)
    · split
      · exact .inl rfl
      · refine .inr (.inr ⟨_, rfl, fun y hy => ?_⟩)
        exact Client.storeWorker_answered P H (Prod.ext hy rfl)

theorem execute_released {s : Session} {f : WorkerFaults} {now : Nat} (ha : InContext s (.execute f now))
    (h : Released strict s) : Released strict (s.execute P H f now) := by
  have hc : (s.execute P H f now).control = s.control := by
    unfold Session.execute
    split <;> rfl
  have hm : ∀ r ∈ (s.execute P H f now).replies, Reply.Matched r := by
    unfold Session.execute
    split
    · exact h.matched
    · rename_i t rest hw
      intro r hr
      rcases List.mem_append.1 hr with hr | hr
      · exact h.matched r hr
      · rw [List.mem_singleton.1 hr]
        exact guardedWorker_matched P H _ _ _ _ _
  exact {
    freezing := fun hf => (h.freezing (hc ▸ hf)).execute P H ha
    applying := fun hf => (h.applying (hc ▸ hf)).execute P H ha
    connected := by rw [hc]; exact h.connected
    matched := hm
    numbered := by rw [hc]; exact h.numbered
    needs := by
      rw [hc]
      exact fun hst hx => (h.needs hst hx).imp_left (Outstanding.execute P H ha) }

theorem Outstanding.serve {s : Session} {k : StoreCommand → Bool} (x : Client.LocalInput) (busy fault : Bool)
    (h : s.Outstanding k) : (s.serve P H x busy fault).Outstanding k := by
  rcases h with hj | ht | ⟨r, hr, hp⟩
  · exact .inl hj
  · exact .inr (.inl ht)
  · exact .inr (.inr ⟨r, List.mem_append_left _ hr, hp⟩)

theorem serve_released {s : Session} (x : Client.LocalInput) (busy fault : Bool) (h : Released strict s) :
    Released strict (s.serve P H x busy fault) := by
  have plain : ∀ (s : Session) (moved : Bool), ∀ r ∈ s.snapshot moved busy fault, r.ticket = none := by
    intro s moved r hr
    unfold snapshot at hr
    split at hr
    · cases hr
    · split at hr
      · rw [List.mem_singleton.1 hr]
      · rw [List.mem_singleton.1 hr]
  exact {
    freezing := fun hf => (h.freezing hf).serve P H x busy fault
    applying := fun hf => (h.applying hf).serve P H x busy fault
    connected := h.connected
    matched := by
      intro r hr
      rcases List.mem_append.1 hr with hr | hr
      · exact h.matched r hr
      · intro t ht
        rw [plain _ _ r hr] at ht
        cases ht
    numbered := h.numbered
    needs := fun hst hx => (h.needs hst hx).imp_left (Outstanding.serve P H x busy fault) }

end

/-! ## Messages -/

theorem answered_freeze {j : StoreCommand} {x : StoreReport} (hj : j.isFreeze = true) (hx : j.answeredBy x = true) :
    ∃ request, x = .frozen request := by
  cases j <;> cases hj
  cases x <;> cases hx
  exact ⟨_, rfl⟩

theorem answered_apply {j : StoreCommand} {x : StoreReport} (hj : j.isApply = true) (hx : j.answeredBy x = true) :
    ∃ status plan active, x = .committed status (some plan) active := by
  cases j <;> cases hj
  cases x with
  | committed status plan active =>
    cases plan with
    | none => cases hx
    | some plan => exact ⟨_, _, _, rfl⟩
  | activePlans _ => cases hx
  | snapshot _ => cases hx
  | needs _ _ _ => cases hx
  | frozen _ => cases hx

theorem answered_needs {j : StoreCommand} {x : StoreReport} (hj : j.isNeeds = true) (hx : j.answeredBy x = true) :
    ∃ status schema settlements, x = .needs status schema settlements := by
  cases j <;> cases hj
  cases x <;> cases hx
  exact ⟨_, _, _, rfl⟩

theorem Outstanding.popped {s : Session} {k : StoreCommand → Bool} {r : Reply} {rest : List Reply}
    (hr : s.replies = r :: rest) (h : s.Outstanding k) :
    ({ s with replies := rest } : Session).Outstanding k ∨ Reply.Pending s.control.epoch k r := by
  rcases h with hj | ht | ⟨r', hr', hp⟩
  · exact .inl (.inl hj)
  · exact .inl (.inr (.inl ht))
  · rw [hr] at hr'
    rcases List.mem_cons.1 hr' with rfl | hr'
    · exact .inr hp
    · exact .inl (.inr (.inr ⟨r', hr', hp⟩))

/-- A message under way reaches Control: as a failure, or as the report its command is answered with. -/
theorem Reply.Pending.effective {c : Control} {r : Reply} {k : StoreCommand → Bool} (h : Reply.Pending c.epoch k r)
    (hm : Reply.Matched r)
    (hc : ∀ f x, r.message = .ok (.guarded f x) → f.epoch = c.epoch → f.context = c.context) :
    (∃ e, c.effective r.message = some (.error e)) ∨
      ∃ x j, c.effective r.message = some (.ok x) ∧ k j = true ∧ j.answeredBy x = true := by
  obtain ⟨t, ht, hepoch, hk, hne⟩ := h
  rcases hm t ht with ho | ⟨e, he⟩ | ⟨x, hx, hans⟩
  · exact absurd ho hne
  · exact .inl ⟨e, by rw [he]; rfl⟩
  · have hpass : c.passes t.fence = true := by simp [Control.passes, hepoch, hc _ _ hx hepoch]
    have heff : c.effective r.message = some x := by
      rw [hx]
      simp [Control.effective, hpass]
    cases x with
    | error e => exact .inl ⟨e, heff⟩
    | ok y => exact .inr ⟨y, t.command, heff, hk, hans y rfl⟩

/-- A message that is ignored answers nothing that is waited for. -/
theorem Outstanding.ignored {s : Session} {r : Reply} {rest : List Reply} {k : StoreCommand → Bool}
    (h : s.Outstanding k) (hm : Reply.Matched r) (hr : s.replies = r :: rest)
    (hc : ∀ f x, r.message = .ok (.guarded f x) → f.epoch = s.control.epoch → f.context = s.control.context)
    (hnone : s.control.effective r.message = none) : ({ s with replies := rest } : Session).Outstanding k := by
  rcases h.popped hr with ho | hp
  · exact ho
  · rcases hp.effective hm hc with ⟨e, herr⟩ | ⟨y, j, hy, _⟩
    · rw [hnone] at herr
      cases herr
    · rw [hnone] at hy
      cases hy

section
variable {s : Session} {c : Control}

/-- A Needs is queued with the progress it waits for. -/
theorem Released.progressed (h : Released strict s) (context : RequestContext) (status : StoreStatus) :
    Released strict { s with control := { s.control with context, status, wakeAfterNeeds := true }.push .needs } := by
  have more : ∀ k, s.Outstanding k → ({ s with
      control := { s.control with context, status, wakeAfterNeeds := true }.push .needs } : Session).Outstanding k :=
    fun k ho => ho.control rfl fun j hj _ => List.mem_append_left _ hj
  exact {
    freezing := fun hf => more _ (h.freezing hf)
    applying := fun ha => more _ (h.applying ha)
    connected := h.connected
    matched := h.matched
    numbered := ⟨h.numbered.nodup, h.numbered.bound, h.numbered.cancelled⟩
    needs := fun _ _ => .inl (.inl ⟨.needs, List.mem_append_right _ (List.mem_singleton.2 rfl), rfl⟩) }

theorem snapshot_released (h : Released strict s) (status : StoreStatus) :
    Released strict { s with control := s.control.absorbSnapshot status } := by
  unfold Control.absorbSnapshot
  refine Released.progressed (s := { s with control :=
    if status.context.storeId ≠ s.control.context.storeId then s.control.changeStore status else s.control }) ?_ _ _
  split
  · unfold Control.changeStore
    simp only
    have stopped := Control.stop_clear s.control
    have hn := (Control.stop_onward s.control).numbered h.numbered
    split
    · refine h.clear (Control.connect_clear _) ((Control.connect_onward _).numbered ?_)
      exact ⟨hn.nodup, hn.bound, hn.cancelled⟩
    · refine h.clear ⟨stopped.freezing, stopped.applying, stopped.wake, stopped.waiting, stopped.connected⟩ ?_
      exact ⟨hn.nodup, hn.bound, hn.cancelled⟩
  · exact h

theorem frozen_released (h : Released strict { s with control := { s.control with freezing := false } })
    (request : Option MutationRequest) : Released strict { s with control := s.control.absorbFrozen request } := by
  unfold Control.absorbFrozen
  simp only
  split
  · exact h
  · rename_i r
    split
    · rename_i hw
      exact {
        freezing := nofun
        applying := h.applying
        connected := h.connected
        matched := h.matched
        numbered := ⟨h.numbered.nodup, h.numbered.bound, h.numbered.cancelled⟩
        needs := fun hst _ => h.needs hst (.inl hw) }
    · exact h.steady (Control.effect_steady _ _ nofun) ((Control.effect_onward _ _ _).numbered h.numbered)

theorem followContext_steady (c : Control) (context : RequestContext) : c.Steady (c.followContext context) := by
  unfold Control.followContext
  split
  · exact .refl _
  · refine Control.Steady.trans ?_ (Control.cancelFlights_steady _ rfl)
    exact .of_eq rfl (fun _ h => h) (fun h => h) (fun h => h) rfl rfl rfl rfl

/-- A commit queues a Needs; the Apply it answers is released before. -/
theorem committed_released (status : StoreStatus) (plan : Option (String × Nat)) (active : Option (List String))
    (h : Released strict { s with control := { s.control with
      applying := if plan.isSome then false else s.control.applying } }) :
    Released strict { s with control := s.control.absorbCommitted status plan active } := by
  have followed : ∀ {s : Session}, Released strict s →
      Released strict { s with control := s.control.followContext status.context } := by
    intro s h
    refine h.steady (followContext_steady _ _) ?_
    unfold Control.followContext
    split
    · exact h.numbered
    · refine (Control.cancelFlights_onward _ _).numbered ?_
      exact ⟨h.numbered.nodup, h.numbered.bound, h.numbered.cancelled⟩
  have kept : ∀ {s : Session} ids, Released strict s → Released strict { s with control := s.control.keepActive ids } := by
    intro s ids h
    refine h.steady (.of_eq rfl (fun _ h => h) (fun h => h) (fun h => h) rfl rfl rfl rfl) ?_
    exact ⟨h.numbered.nodup, h.numbered.bound, h.numbered.cancelled⟩
  -- The flag is cleared by the report itself, wherever that happens in it.
  have hflag : ∀ c : Control, ({ c with applying := false } : Control).followContext status.context =
      { c.followContext status.context with applying := false } := by
    intro c
    unfold Control.followContext
    split <;> rfl
  cases active with
  | none =>
    have committed := (followed h).progressed status.context status
    cases plan with
    | none => exact committed
    | some p =>
      simp only [Option.isSome_some, if_true, hflag] at committed
      have hn := committed.numbered
      have released := committed.steady (c := s.control.absorbCommitted status (some p) none)
        (.of_eq rfl (fun _ h => h) (fun h => h) (fun h => by cases h) rfl rfl rfl rfl) ⟨hn.nodup, hn.bound, hn.cancelled⟩
      exact released
  | some ids =>
    have committed := (kept ids (followed h)).progressed status.context status
    cases plan with
    | none => exact committed
    | some p =>
      simp only [Option.isSome_some, if_true, hflag] at committed
      have hn := committed.numbered
      have released := committed.steady (c := s.control.absorbCommitted status (some p) (some ids))
        (.of_eq rfl (fun _ h => h) (fun h => h) (fun h => by cases h) rfl rfl rfl rfl) ⟨hn.nodup, hn.bound, hn.cancelled⟩
      exact released

/-- Owners are retired with the Apply jobs of their plans. -/
theorem retireOwners_working (h : Working s) (pending : RequestContext → MaterializationOwner → Bool) :
    Working { s with control := s.control.retireOwners pending } := by
  have others : ∀ {k : StoreCommand → Bool}, (∀ j, k j = true → j.isApply = false) → s.Outstanding k →
      ({ s with control := s.control.retireOwners pending } : Session).Outstanding k := by
    intro k hk ho
    refine ho.control rfl fun j hj hkj => List.mem_filter.2 ⟨hj, ?_⟩
    have hja := hk j hkj
    cases j <;> first | rfl | cases hja
  have hretry : (s.control.retireOwners pending).retrying = s.control.retrying :=
    Control.cancelFlights_retrying s.control rfl
  exact {
    freezing := by
      intro hf
      refine others (fun j hj => ?_) (h.freezing hf)
      cases j <;> first | rfl | cases hj
    applying := by
      intro ha
      unfold Control.retireOwners at ha
      simp only at ha
      split at ha
      · cases ha
      · rename_i hnone
        refine (h.applying ha).control rfl fun j hj _ => List.mem_filter.2 ⟨hj, ?_⟩
        simp only [List.any_eq_true, not_exists, not_and, Bool.not_eq_true] at hnone
        simp only [Control.cancelFlights] at hnone ⊢
        rw [hnone j hj]
        rfl
    connected := by
      rw [hretry]
      exact h.connected
    matched := h.matched
    numbered := by
      have hn := (Control.cancelFlights_onward s.control (Control.unowned pending)).numbered h.numbered
      exact ⟨hn.nodup, hn.bound, hn.cancelled⟩ }

theorem owned_working (h : Working s) (request : MaterializationRequest) :
    Working { s with control := s.control.owned request } := by
  have hn := (Control.owned_onward s.control request).numbered h.numbered
  refine h.steady ?_ hn
  unfold Control.owned
  split
  · exact .refl _
  · split
    · exact .refl _
    · exact Control.effect_steady _ _ nofun

theorem askSettlements_working : ∀ (l : List PendingSettlement) {s : Session}, Working s →
    Working { s with control := l.foldl Control.askSettlement s.control }
  | [], _, h => h
  | x :: l, s, h => by
    refine askSettlements_working l (s := { s with control := s.control.askSettlement x }) ?_
    unfold Control.askSettlement
    split
    · exact h
    · exact owned_working h _

/-- Needs releases the Push and the wake that waited for it. -/
theorem releasePush_released (h : Working s) : Released strict { s with control := s.control.releasePush } := by
  have cleared : ∀ p, p = none → Released strict { s with control := { s.control with
      wakeAfterNeeds := false, waitingPush := p } } := by
    rintro p rfl
    exact {
      freezing := h.freezing
      applying := h.applying
      connected := h.connected
      matched := h.matched
      numbered := ⟨h.numbered.nodup, h.numbered.bound, h.numbered.cancelled⟩
      needs := by
        rintro - (hw | hw)
        · cases hw
        · cases hw }
  have woken : ∀ c : Control, Released strict { s with control := c } →
      Released strict { s with control := if s.control.wakeAfterNeeds then c.wake else c } := by
    intro c hc
    split
    · exact wake_released hc
    · exact hc
  refine woken _ ?_
  split
  · rename_i hp
    exact cleared s.control.waitingPush hp
  · have hrel := cleared none rfl
    exact hrel.steady (Control.effect_steady _ _ (fun h => by cases h)) ((Control.effect_onward _ _ _).numbered hrel.numbered)

theorem needs_released (h : Working s) (status : Option StoreStatus) (schema : Option Engine.PendingSchema)
    (settlements : List PendingSettlement) :
    Released strict { s with control := s.control.absorbNeeds status schema settlements } := by
  have retired := retireOwners_working h (Control.pendingOwner s.control.context schema settlements)
  have asked : ∀ {s : Session}, Working s → Working { s with control := s.control.askSchema schema } := by
    intro s h
    cases schema with
    | none => exact h
    | some x => exact owned_working h _
  have noted : ∀ {s : Session}, Working s → Working { s with control := s.control.noteProgress status } := by
    intro s h
    cases status with
    | none => exact h
    | some status =>
      exact {
        freezing := h.freezing
        applying := h.applying
        connected := h.connected
        matched := h.matched
        numbered := ⟨h.numbered.nodup, h.numbered.bound, h.numbered.cancelled⟩ }
  exact releasePush_released (askSettlements_working settlements (noted (asked retired)))

end

section
variable {s : Session} {r : Reply} {rest : List Reply}

/-- A report releases the flag of the command it answers, and no other command went with it. -/
theorem absorb_released {x : StoreReport} (h : Released strict s) (hr : s.replies = r :: rest)
    (hc : ∀ f x, r.message = .ok (.guarded f x) → f.epoch = s.control.epoch → f.context = s.control.context)
    (he : s.control.effective r.message = some (.ok x)) :
    Released strict { s with control := s.control.absorb x, replies := rest } := by
  have hm : ∀ r' ∈ rest, Reply.Matched r' := fun r' h' => h.matched r' (hr ▸ List.mem_cons_of_mem _ h')
  have left : ∀ {k : StoreCommand → Bool}, (∀ j, k j = true → ¬ j.answeredBy x = true) → s.Outstanding k →
      ({ s with replies := rest } : Session).Outstanding k := by
    intro k hk ho
    rcases ho.popped hr with ho | hp
    · exact ho
    · rcases hp.effective (h.matched r (hr ▸ List.mem_cons_self)) hc with ⟨e, herr⟩ | ⟨y, j, hy, hkj, hans⟩
      · rw [he] at herr
        cases herr
      · rw [he] at hy
        cases hy
        exact absurd hans (hk j hkj)
  have freezing : (∀ q, x ≠ .frozen q) → s.control.freezing = true →
      ({ s with replies := rest } : Session).Outstanding StoreCommand.isFreeze := by
    intro hx hf
    refine left (fun j hj hans => ?_) (h.freezing hf)
    obtain ⟨q, rfl⟩ := answered_freeze hj hans
    exact hx q rfl
  have applying : (∀ a p b, x ≠ .committed a (some p) b) → s.control.applying = true →
      ({ s with replies := rest } : Session).Outstanding StoreCommand.isApply := by
    intro hx ha
    refine left (fun j hj hans => ?_) (h.applying ha)
    obtain ⟨a, p, b, rfl⟩ := answered_apply hj hans
    exact hx a p b rfl
  have needs : (∀ a b d, x ≠ .needs a b d) → strict ∨ s.control.connected = true →
      s.control.wakeAfterNeeds = true ∨ s.control.waitingPush.isSome = true →
      ({ s with replies := rest } : Session).Outstanding StoreCommand.isNeeds ∨ s.control.retrying = true := by
    intro hx hst hw
    refine (h.needs hst hw).imp_left (left fun j hj hans => ?_)
    obtain ⟨a, b, d, rfl⟩ := answered_needs hj hans
    exact hx a b d rfl
  cases x with
  | activePlans active =>
    have kept : Released strict { s with replies := rest } :=
      ⟨⟨freezing nofun, applying nofun, h.connected, hm, h.numbered⟩, needs nofun⟩
    refine kept.steady (c := s.control.keepActive active) (.of_eq rfl (fun _ h => h) (fun h => h) (fun h => h) rfl rfl rfl rfl) ?_
    exact ⟨h.numbered.nodup, h.numbered.bound, h.numbered.cancelled⟩
  | snapshot status =>
    have kept : Released strict { s with replies := rest } :=
      ⟨⟨freezing nofun, applying nofun, h.connected, hm, h.numbered⟩, needs nofun⟩
    exact snapshot_released kept status
  | needs status schema settlements =>
    have kept : Working { s with replies := rest } :=
      ⟨freezing nofun, applying nofun, h.connected, hm, h.numbered⟩
    exact needs_released kept status schema settlements
  | frozen request =>
    have kept : Released strict { s with replies := rest, control := { s.control with freezing := false } } :=
      ⟨⟨nofun, applying nofun, h.connected, hm, ⟨h.numbered.nodup, h.numbered.bound, h.numbered.cancelled⟩⟩, needs nofun⟩
    exact frozen_released (s := { s with replies := rest }) kept request
  | committed status plan active =>
    have kept : Released strict { s with replies := rest, control := { s.control with
        applying := if plan.isSome then false else s.control.applying } } := by
      refine ⟨⟨freezing nofun, fun ha => ?_, h.connected, hm, ⟨h.numbered.nodup, h.numbered.bound, h.numbered.cancelled⟩⟩,
        needs nofun⟩
      cases plan with
      | none => exact applying nofun ha
      | some p => cases ha
    exact committed_released (s := { s with replies := rest }) status plan active kept

theorem deliver_released {now : Nat} (h : Released strict s) (ha : InContext s (.deliver now))
    (hfail : strict → Attended s (.deliver now)) : Released strict (s.deliver now) := by
  unfold Session.deliver
  split
  · exact h
  · rename_i r rest hr
    have hc := ha r rest hr
    have hm : ∀ r' ∈ rest, Reply.Matched r' := fun r' h' => h.matched r' (hr ▸ List.mem_cons_of_mem _ h')
    have hreported := Control.onReport_reported s.control r.message now
    have hn := hreported.onward.numbered h.numbered
    generalize s.control.onReport r.message now = c' at hreported hn
    cases hreported with
    | ignored hnone =>
      have left : ∀ {k : StoreCommand → Bool}, s.Outstanding k → ({ s with replies := rest } : Session).Outstanding k :=
        fun ho => ho.ignored (h.matched r (hr ▸ List.mem_cons_self)) hr hc hnone
      exact ⟨⟨fun hf => left (h.freezing hf), fun hf => left (h.applying hf), h.connected, hm, h.numbered⟩,
        fun hst hx => (h.needs hst hx).imp_left left⟩
    | @failed e herr =>
      have failed := Control.failed_steady s.control e
      refine ⟨⟨fun hf => ?_, fun hf => ?_, failed.timer h.connected, hm, hn⟩, fun hst hx => ?_⟩
      · rw [Control.failed_freezing] at hf
        cases hf
      · rw [Control.failed_applying] at hf
        cases hf
      · by_cases hconn : s.control.connected = true
        · exact .inr (Control.failed_retrying e hconn)
        · have strictly : strict := by
            rcases hst with hst | hst
            · exact hst
            · rw [failed.connected] at hst
              exact absurd hst hconn
          obtain ⟨hw, hp⟩ := (hfail strictly r rest hr ⟨e, herr⟩).resolve_left hconn
          rcases hx with hx | hx
          · have hwake := failed.wake hx
            rw [hw] at hwake
            cases hwake
          · have hwait := failed.waiting hx
            rw [hp] at hwait
            cases hwait
    | @absorbed x _ now' he hs =>
      have scheduled := Control.schedule_scheduled (s.control.absorb x) now'
      rw [hs] at scheduled
      have released := (absorb_released h hr hc he).steady scheduled.steady hn
      exact released
    | @broken x c₂ e he hs =>
      have released := (absorb_released h hr hc he).steady (hs.steady.trans (Control.failed_steady c₂ e)) hn
      exact released

end

/-! ## Runs -/

section
variable {s : Session} {r : Reply} {rest : List Reply} {now : Nat}

/-- A message under way, once taken, is a failure or its command's report. -/
theorem deliver_reported {k : StoreCommand → Bool} (h : Released strict s) (ha : InContext s (.deliver now))
    (hr : s.replies = r :: rest) (hp : Reply.Pending s.control.epoch k r) :
    (∃ c e, (s.deliver now).control = Control.failed c e) ∨
      ∃ x j, k j = true ∧ j.answeredBy x = true ∧ (s.control.absorb x).Scheduled (s.deliver now).control := by
  have hc := ha r rest hr
  have hd : (s.deliver now).control = s.control.onReport r.message now := by
    unfold Session.deliver
    rw [hr]
  rw [hd]
  have hreported := Control.onReport_reported s.control r.message now
  generalize s.control.onReport r.message now = c' at hreported
  rcases hp.effective (h.matched r (hr ▸ List.mem_cons_self)) hc with ⟨e, herr⟩ | ⟨x, j, hx, hj, hans⟩
  · cases hreported with
    | ignored he => rw [he] at herr; cases herr
    | failed _ => exact .inl ⟨_, _, rfl⟩
    | absorbed he _ => rw [he] at herr; cases herr
    | broken _ _ => exact .inl ⟨_, _, rfl⟩
  · cases hreported with
    | ignored he => rw [he] at hx; cases hx
    | failed _ => exact .inl ⟨_, _, rfl⟩
    | @absorbed y _ now' he hs =>
      have hxy : y = x := by simpa [he] using hx
      subst hxy
      have scheduled := Control.schedule_scheduled (s.control.absorb y) now'
      rw [hs] at scheduled
      exact .inr ⟨y, j, hj, hans, scheduled⟩
    | broken _ _ => exact .inl ⟨_, _, rfl⟩

/-- A Freeze's message releases the Freeze. -/
theorem deliver_freezing (h : Released strict s) (ha : InContext s (.deliver now)) (hr : s.replies = r :: rest)
    (hp : Reply.Pending s.control.epoch StoreCommand.isFreeze r) : (s.deliver now).control.freezing = false := by
  rcases deliver_reported h ha hr hp with ⟨c, e, hf⟩ | ⟨x, j, hj, hans, scheduled⟩
  · rw [hf]
    exact Control.failed_freezing c e
  · obtain ⟨q, rfl⟩ := answered_freeze hj hans
    rw [scheduled.frame]
    show (s.control.absorbFrozen q).freezing = false
    unfold Control.absorbFrozen
    simp only
    split
    · rfl
    · split <;> rfl

/-- An Apply's message releases the Apply, unless the next one is already queued. -/
theorem deliver_applying (h : Released strict s) (ha : InContext s (.deliver now)) (hr : s.replies = r :: rest)
    (hp : Reply.Pending s.control.epoch StoreCommand.isApply r) : (s.deliver now).control.applying = false ∨
      ∃ j ∈ (s.deliver now).control.jobs, j.isApply = true := by
  rcases deliver_reported h ha hr hp with ⟨c, e, hf⟩ | ⟨x, j, hj, hans, scheduled⟩
  · left
    rw [hf]
    exact Control.failed_applying c e
  · obtain ⟨status, p, active, rfl⟩ := answered_apply hj hans
    by_cases happ : (s.deliver now).control.applying = true
    · rcases scheduled.applying happ with hbefore | hjob
      · cases hbefore
      · exact .inr hjob
    · exact .inl (by simpa using happ)

/-- After a wake while connected, a Freeze is outstanding, a Push is in flight, or Needs or the retry is waited
for. -/
theorem wake_outstanding (h : Released strict s) (hc : s.control.connected = true) :
    ({ s with control := s.control.wake } : Session).Outstanding StoreCommand.isFreeze ∨
      s.control.anyFlight isPush = true ∨ s.Outstanding StoreCommand.isNeeds ∨ s.control.retrying = true := by
  by_cases hw : s.control.wakes = true
  · left
    unfold Control.wake
    rw [if_pos hw]
    exact .inl ⟨.freeze, List.mem_append_right _ (List.mem_singleton.2 rfl), rfl⟩
  · have hsame : s.control.wake = s.control := if_neg hw
    rw [hsame]
    simp only [Control.wakes, hc, Bool.true_and, Bool.and_eq_true, Bool.not_eq_true', not_and, Bool.not_eq_false] at hw
    by_cases hn : s.control.wakeAfterNeeds = true
    · exact .inr (.inr (h.needs (.inr hc) (.inl hn)))
    · by_cases hf : s.control.freezing = true
      · exact .inl (h.freezing hf)
      · exact .inr (.inl (hw ⟨by simpa using hn, by simpa using hf⟩))

end

section
variable {P : Platform} {H : Hashes} {W : Wire} {z : Sizes}

/-- One step. -/
theorem step_released {s : Session} {a : Act} (h : Released strict s) (ha : InContext s a)
    (hfail : strict → Attended s a) : Released strict (s.step P H W z a) := by
  have hn := (step_onward (P := P) (H := H) (W := W) (z := z) s a).numbered h.numbered
  cases a with
  | setRefreshAuth enabled =>
    exact h.steady (.of_eq rfl (fun _ h => h) (fun h => h) (fun h => h) rfl rfl rfl rfl) hn
  | connect => exact h.clear (Control.connect_clear _) hn
  | stop => exact h.clear (Control.stop_clear _) hn
  | pause =>
    have stopped := Control.stop_clear s.control
    exact h.clear ⟨stopped.freezing, stopped.applying, stopped.wake, stopped.waiting, stopped.connected⟩ hn
  | wake => exact wake_released h
  | receive id outcome now => exact received_released h ha (Control.onEffect_received W z P s.control id outcome now)
  | publish => exact h.steady (.of_eq rfl (fun _ h => h) (fun h => h) (fun h => h) rfl rfl rfl rfl) hn
  | drain => exact drain_released h
  | execute f now => exact execute_released P H ha h
  | serve x busy fault => exact serve_released P H x busy fault h
  | deliver now => exact deliver_released h ha hfail

theorem opened_released (client : Client) (prefetch : Bool) : Released strict (opened client prefetch) where
  freezing := fun h => by simp [opened, Control.withBootstrapPrefetch] at h
  applying := fun h => by simp [opened, Control.withBootstrapPrefetch] at h
  connected := fun h => by simp [opened, Control.withBootstrapPrefetch, Control.retrying, Control.anyFlight] at h
  matched := by simp [opened]
  numbered := (opened_fenced client prefetch).numbered
  needs := fun _ h => by simp [opened, Control.withBootstrapPrefetch] at h

/-- **Flags are released.** In every run all of whose steps are `Unbroken`: a Freeze or an Apply that is marked
is queued, executing or answered, and its message releases the flag; a wait for Needs has a Needs outstanding or
the retry timer running; and a mutation that wakes Control while connected has a Freeze, a Push, a Needs or the
retry timer to wait for. -/
theorem flags_released {client : Client} {prefetch : Bool} {acts : List Act} {s : Session}
    (h : Runs P H W z Unbroken (opened client prefetch) acts s) :
    (s.control.freezing = true → s.Outstanding StoreCommand.isFreeze) ∧
    (s.control.applying = true → s.Outstanding StoreCommand.isApply) ∧
    (s.control.wakeAfterNeeds = true ∨ s.control.waitingPush.isSome = true →
      s.Outstanding StoreCommand.isNeeds ∨ s.control.retrying = true) ∧
    (∀ now, Unbroken s (.deliver now) → ∀ r rest, s.replies = r :: rest →
      (Reply.Pending s.control.epoch StoreCommand.isFreeze r →
        (s.step P H W z (.deliver now)).control.freezing = false) ∧
      (Reply.Pending s.control.epoch StoreCommand.isApply r →
        (s.step P H W z (.deliver now)).control.applying = false ∨
          ∃ j ∈ (s.step P H W z (.deliver now)).control.jobs, j.isApply = true)) ∧
    (s.control.connected = true → (s.step P H W z .wake).Outstanding StoreCommand.isFreeze ∨
      s.control.anyFlight isPush = true ∨ s.Outstanding StoreCommand.isNeeds ∨ s.control.retrying = true) := by
  have released : Released True s := by
    refine Trace.inv (Released True) ?_ h (opened_released client prefetch)
    rintro s a _ hs ⟨⟨ha, hfail⟩, rfl⟩
    exact step_released hs ha fun _ => hfail
  refine ⟨released.freezing, released.applying, released.needs (.inl trivial), fun now ha r rest hr => ⟨?_, ?_⟩, wake_outstanding released⟩
  · exact deliver_freezing released ha.1 hr
  · exact deliver_applying released ha.1 hr

end

end Session

namespace Notes

open Session

/-- A Freeze with the worker holds the flag, and its message releases it. -/
theorem drained_freeze_released :
    (fenceStart.run platform hashes wire sizes fenceActs).control.freezing = true ∧
      (fenceStart.run platform hashes wire sizes fenceActs).Outstanding StoreCommand.isFreeze := by
  have run : Runs platform hashes wire sizes Unbroken (opened start true) fenceActs
      (fenceStart.run platform hashes wire sizes fenceActs) :=
    runs_of_along platform hashes wire sizes ⟨⟨trivial, trivial⟩, ⟨trivial, trivial⟩, ⟨trivial, trivial⟩, trivial⟩
  exact ⟨rfl, (flags_released run).1 rfl⟩

/-- The store reopened under another projection: a schema transfer is pending. -/
def upgraded : Client := (start.call platform hashes {} (.reopen schema "user" "boards")).2

def transferBody : HeaderBody where
  context := { start.store.context with materialization := "m-boards" }
  planId := "transfer"
  bootstrap := false
  owner := some (.schema "m-notes")
  after := none
  through := none
  observedHead := 5
  expiresAt := 100
  units := [unitManifest 1 ⟨0, none, []⟩]

/-- The transfer, which holds no record. -/
def transfer : MaterializationResponse where
  requestId := "schema:4"
  delivery := {
    header := { transferBody with digest := ⟨transferBody⟩ }
    parts := (unitChunks 1 ⟨0, none, []⟩).zipIdx.map fun e => ⟨"transfer", ⟨transferBody⟩, 0, e.2, e.1⟩ }

/-- A wire on which the transfer decodes too. -/
def transferWire : Wire :=
  { wire with materialization := fun t => if t = "transfer" then .ok transfer else .error "expected value" }

def transferred : EffectOutcome := { ok := true, value := some (.str "transfer") }

/-- A connection settles, the transfer arrives, and a mutation wakes Control before its Apply executes: the Apply
switches the store, the Freeze behind it finds another context. -/
def switchActs : List Act :=
  [.connect, .receive 1 greeted 0, .drain, .execute {} 0, .deliver 0, .drain, .execute {} 0, .deliver 0,
    .drain, .execute {} 0, .execute {} 0, .deliver 0, .deliver 0, .drain, .execute {} 0, .deliver 0,
    .drain, .execute {} 0, .deliver 0, .receive 4 transferred 0, .wake, .drain, .execute {} 0, .execute {} 0,
    .deliver 0, .deliver 0, .drain, .execute {} 0, .deliver 0, .drain, .execute {} 0, .deliver 0]

def switched : Session := (opened upgraded true).run platform hashes transferWire sizes switchActs

/-- **A Freeze behind a schema switch is lost for good**: everything was drained, executed and delivered, the flag
stays, no handshake or retry will reset it, and another mutation's wake starts nothing. -/
theorem switched_freeze_lost :
    Runs platform hashes transferWire sizes (fun _ _ => True) (opened upgraded true) switchActs switched ∧
      switched.control.connected = true ∧ switched.control.freezing = true ∧
      ¬ switched.Outstanding StoreCommand.isFreeze ∧
      switched.control.anyFlight Flight.isHandshake = false ∧ switched.control.retrying = false ∧
      ¬ (switched.step platform hashes transferWire sizes .wake).Outstanding StoreCommand.isFreeze ∧
      (switched.step platform hashes transferWire sizes .wake).control.anyFlight Flight.isPush = false ∧
      ¬ switched.Outstanding StoreCommand.isNeeds := by
  have hjobs : switched.control.jobs.isEmpty = true := by decide +kernel
  have hwoken : (switched.step platform hashes transferWire sizes .wake).control.jobs.isEmpty = true := by decide +kernel
  have hwork : switched.work.isEmpty = true := by decide +kernel
  have hreplies : switched.replies.isEmpty = true := by decide +kernel
  have hwork' : (switched.step platform hashes transferWire sizes .wake).work.isEmpty = true := hwork
  have hreplies' : (switched.step platform hashes transferWire sizes .wake).replies.isEmpty = true := hreplies
  have idle : ∀ {s : Session} {k : StoreCommand → Bool}, s.control.jobs.isEmpty = true → s.work.isEmpty = true →
      s.replies.isEmpty = true → ¬ s.Outstanding k := by
    intro s k hj hw hr ho
    rw [List.isEmpty_iff] at hj hw hr
    simp [Outstanding, hj, hw, hr] at ho
  exact ⟨runs_of_along platform hashes transferWire sizes (along_true platform hashes transferWire sizes),
    by decide +kernel, by decide +kernel, idle hjobs hwork hreplies, by decide +kernel, by decide +kernel,
    idle hwoken hwork' hreplies', by decide +kernel, idle hjobs hwork hreplies⟩

end Notes

end Axton
