import Axton.Client.Control

/-!
# What a control step does

`schedule` only adds: jobs, an expiry timer and at most one page request. `Scheduled` says so once, with every
field it leaves alone; `Received` is the inversion of `receive` in the same terms. Results over whole runs are
derived from these two and from the reports' own definitions.
-/

namespace Axton

namespace StoreCommand

def isFreeze : StoreCommand → Bool
  | .freeze => true
  | _ => false

def isApply : StoreCommand → Bool
  | .apply _ _ _ => true
  | _ => false

def isNeeds : StoreCommand → Bool
  | .needs => true
  | _ => false

def isInitialize : StoreCommand → Bool
  | .initializeStream _ => true
  | _ => false

end StoreCommand

namespace Control

/-! ## Counting requests -/

/-- Requests of a kind, in flight or waiting for a token. -/
def count (c : Control) (p : Flight → Bool) : Nat := c.flights.countP (fun e => p e.2) + c.refreshWaiters.countP p

theorem count_effect (c : Control) (p : Flight → Bool) (f : Flight) (o : NetOperation) :
    (c.effect f o).count p = c.count p + if p f then 1 else 0 := by
  simp only [count, effect, List.countP_append, List.countP_cons, List.countP_nil]
  omega

theorem count_http (c : Control) (p : Flight → Bool) (f : Flight) (route : HttpRoute) :
    (c.http f route).count p = c.count p + if p f then 1 else 0 := count_effect c p f _

theorem anyFlight_iff {c : Control} {p : Flight → Bool} : c.anyFlight p = true ↔ ∃ e ∈ c.flights, p e.2 = true := by
  simp [anyFlight]

/-- No request of a kind exactly when none is in flight and none waits. -/
theorem count_eq_zero_iff {c : Control} {p : Flight → Bool} :
    c.count p = 0 ↔ c.anyFlight p = false ∧ c.refreshWaiters.any p = false := by
  simp [count, anyFlight, List.countP_eq_zero]

/-! ## Numbering -/

/-- Flights have their own numbers, none beyond the last issued, and a cancelled number is not in flight. -/
structure Numbered (c : Control) : Prop where
  nodup : (c.flights.map (·.1)).Nodup
  bound : ∀ e ∈ c.flights, e.1 ≤ c.issued
  cancelled : ∀ id, .cancelEffect id ∈ c.events → id ≤ c.issued ∧ ∀ e ∈ c.flights, e.1 ≠ id

/-- An effect that was issued and is not in flight any more. -/
def Gone (c : Control) (id : Nat) : Prop := id ≤ c.issued ∧ ∀ e ∈ c.flights, e.1 ≠ id

/-- What every change of Control keeps: numbering, and that neither an epoch nor an effect comes back. -/
structure Onward (c c' : Control) : Prop where
  numbered : c.Numbered → c'.Numbered
  epoch : c.epoch ≤ c'.epoch
  gone : ∀ id, c.Gone id → c'.Gone id

namespace Onward

theorem refl (c : Control) : Onward c c := ⟨id, Nat.le_refl _, fun _ h => h⟩

theorem trans {a b c : Control} (h : Onward a b) (h' : Onward b c) : Onward a c :=
  ⟨fun hn => h'.numbered (h.numbered hn), h.epoch.trans h'.epoch, fun id hg => h'.gone id (h.gone id hg)⟩

/-- Fewer flights, and no new cancellation. -/
theorem of_sub {c c' : Control} (hf : c'.flights.Sublist c.flights) (hi : c'.issued = c.issued)
    (he : ∀ id, .cancelEffect id ∈ c'.events → .cancelEffect id ∈ c.events) (hepoch : c.epoch ≤ c'.epoch) :
    Onward c c' where
  numbered := fun h => {
    nodup := (hf.map _).nodup h.nodup
    bound := fun e hm => hi ▸ h.bound e (hf.subset hm)
    cancelled := fun id hid => ⟨hi ▸ (h.cancelled id (he id hid)).1,
      fun e hm => (h.cancelled id (he id hid)).2 e (hf.subset hm)⟩ }
  epoch := hepoch
  gone := fun _ h => ⟨hi ▸ h.1, fun e hm => h.2 e (hf.subset hm)⟩

/-- Only what numbering does not read changed. -/
theorem of_eq {c c' : Control} (hf : c'.flights = c.flights) (hi : c'.issued = c.issued) (he : c'.events = c.events)
    (hepoch : c.epoch ≤ c'.epoch) : Onward c c' :=
  of_sub (hf ▸ List.Sublist.refl _) hi (fun _ h => he ▸ h) hepoch

end Onward

theorem effect_onward (c : Control) (f : Flight) (o : NetOperation) : Onward c (c.effect f o) := by
  have gone : ∀ id, c.Gone id → (c.effect f o).Gone id := by
    rintro id ⟨hle, hne⟩
    refine ⟨Nat.le_succ_of_le hle, fun e he => ?_⟩
    rcases List.mem_append.1 he with he | he
    · exact hne e he
    · simp only [List.mem_singleton] at he
      subst he
      show c.issued + 1 ≠ id
      omega
  refine ⟨fun h => ⟨?_, ?_, ?_⟩, Nat.le_refl _, gone⟩
  · simp only [Control.effect, List.map_append, List.map_cons, List.map_nil]
    refine List.nodup_append.2 ⟨h.nodup, by simp, ?_⟩
    rintro k hk _ hid rfl
    obtain ⟨e, he, rfl⟩ := List.mem_map.1 hk
    have hle := h.bound e he
    simp only [List.mem_singleton] at hid
    omega
  · intro e he
    rcases List.mem_append.1 he with he | he
    · exact Nat.le_succ_of_le (h.bound e he)
    · simp only [List.mem_singleton] at he
      subst he
      exact Nat.le_refl _
  · intro id hid
    have hid : .cancelEffect id ∈ c.events := by simpa [Control.effect] using hid
    exact gone id (h.cancelled id hid)

theorem Onward.effect {a c : Control} (h : Onward a c) (f : Flight) (o : NetOperation) : Onward a (c.effect f o) :=
  h.trans (effect_onward c f o)

theorem cancelFlights_onward (c : Control) (p : Flight → Bool) : Onward c (c.cancelFlights p) where
  numbered := fun h => {
    nodup := (List.filter_sublist.map _).nodup h.nodup
    bound := fun e he => h.bound e (List.mem_of_mem_filter he)
    cancelled := by
      intro id hid
      rcases List.mem_append.1 hid with hid | hid
      · obtain ⟨hle, hne⟩ := h.cancelled id hid
        exact ⟨hle, fun e he => hne e (List.mem_of_mem_filter he)⟩
      · obtain ⟨e, he, hid⟩ := List.mem_map.1 hid
        cases hid
        have hm := (List.mem_filter.1 he).1
        refine ⟨h.bound e hm, fun e' he' hid => ?_⟩
        obtain ⟨hm', hp'⟩ := List.mem_filter.1 he'
        -- Two flights of one number are one flight, which was removed.
        have same : e' = e := List.inj_on_of_nodup_map h.nodup hm' hm hid
        rw [same, (List.mem_filter.1 he).2] at hp'
        cases hp' }
  epoch := Nat.le_refl _
  gone := fun _ h => ⟨h.1, fun e he => h.2 e (List.mem_of_mem_filter he)⟩

theorem Onward.cancelFlights {a c : Control} (h : Onward a c) (p : Flight → Bool) : Onward a (c.cancelFlights p) :=
  h.trans (cancelFlights_onward c p)

/-- After a change of other fields. -/
theorem Onward.update {a c c' : Control} (h : Onward a c) (hf : c'.flights = c.flights) (hi : c'.issued = c.issued)
    (he : c'.events = c.events) (hepoch : c.epoch ≤ c'.epoch) : Onward a c' :=
  h.trans (.of_eq hf hi he hepoch)

/-! ## Scheduling -/

/-- What `schedule` may change, however far it got. -/
structure Scheduled (c c' : Control) : Prop where
  frame : c' = { c with
    queue := c'.queue, flights := c'.flights, issued := c'.issued, events := c'.events, jobs := c'.jobs
    networkState := c'.networkState, applying := c'.applying, applyingPlan := c'.applyingPlan }
  queue : c'.queue.Sublist c.queue
  flights : c.flights <+: c'.flights
  started : ∀ e ∈ c'.flights, e ∈ c.flights ∨ e.2 = .expire ∨ e.2.isDelta = true
  delta : c'.count Flight.isDelta ≤ max (c.count Flight.isDelta) 1
  others : ∀ p : Flight → Bool, p .expire = false → (∀ r, p (.delta r) = false) → c'.count p = c.count p
  jobs : c.jobs <+: c'.jobs
  freezes : c'.jobs.countP StoreCommand.isFreeze = c.jobs.countP StoreCommand.isFreeze
  applying : c'.applying = true → c.applying = true ∨ ∃ j ∈ c'.jobs, j.isApply = true
  keeps : c.applying = true → c'.applying = true ∧ c'.applyingPlan = c.applyingPlan
  onward : Onward c c'

namespace Scheduled

theorem refl (c : Control) : Scheduled c c where
  frame := rfl
  queue := List.Sublist.refl _
  flights := List.prefix_rfl
  started := fun _ he => .inl he
  delta := le_max_left _ _
  others := fun _ _ _ => rfl
  jobs := List.prefix_rfl
  freezes := rfl
  applying := .inl
  keeps := fun h => ⟨h, rfl⟩
  onward := .refl c

theorem trans {a b c : Control} (h : Scheduled a b) (h' : Scheduled b c) : Scheduled a c where
  frame := by
    have hb := h.frame
    have hc := h'.frame
    rw [hb] at hc
    exact hc
  queue := h'.queue.trans h.queue
  flights := h.flights.trans h'.flights
  started := by
    intro e he
    rcases h'.started e he with he | he
    · exact h.started e he
    · exact .inr he
  delta := by
    have hb := h.delta
    have hc := h'.delta
    omega
  others := fun p hx hd => (h'.others p hx hd).trans (h.others p hx hd)
  jobs := h.jobs.trans h'.jobs
  freezes := h'.freezes.trans h.freezes
  applying := by
    intro ha
    rcases h'.applying ha with hb | hj
    · rcases h.applying hb with ha | ⟨j, hj, hap⟩
      · exact .inl ha
      · exact .inr ⟨j, h'.jobs.subset hj, hap⟩
    · exact .inr hj
  keeps := by
    intro ha
    obtain ⟨hb, hp⟩ := h.keeps ha
    obtain ⟨hc, hp'⟩ := h'.keeps hb
    exact ⟨hc, hp'.trans hp⟩
  onward := h.onward.trans h'.onward

end Scheduled

theorem push_scheduled (c : Control) (j : StoreCommand) (hj : j.isFreeze = false) : Scheduled c (c.push j) :=
  { Scheduled.refl c with
    frame := rfl
    jobs := List.prefix_append _ _
    freezes := by simp [push, hj]
    applying := .inl
    onward := .of_eq rfl rfl rfl (Nat.le_refl _) }

theorem expirePlans_scheduled (c : Control) (now : Nat) : Scheduled c (c.expirePlans now) := by
  have hq : Scheduled c { c with queue := c.queue.expire now } :=
    { Scheduled.refl c with
      frame := rfl
      queue := List.filter_sublist
      onward := .of_eq rfl rfl rfl (Nat.le_refl _) }
  unfold expirePlans
  simp only
  split
  · exact hq.trans (push_scheduled _ _ rfl)
  · exact hq

theorem armExpiry_scheduled (c : Control) (now : Nat) : Scheduled c (c.armExpiry now) := by
  unfold armExpiry
  split
  · exact .refl c
  · split
    · exact .refl c
    · exact { Scheduled.refl c with
        frame := rfl
        flights := List.prefix_append _ _
        started := by
          intro e he
          rcases List.mem_append.1 he with he | he
          · exact .inl he
          · simp only [List.mem_singleton] at he
            exact .inr (.inl (by rw [he]))
        delta := by rw [count_effect]; simp [Flight.isDelta]
        others := fun p hx _ => by rw [count_effect, hx]; rfl
        applying := .inl
        onward := effect_onward c _ _ }

theorem noteNetwork_scheduled (c : Control) : Scheduled c c.noteNetwork := by
  unfold noteNetwork
  simp only
  split
  · exact .refl c
  · refine Scheduled.trans (b := { c with networkState := some (c.live, c.status.cursor.all (· < c.deliveryHead)) }) ?_
      (push_scheduled _ _ rfl)
    exact { Scheduled.refl c with frame := rfl, onward := .of_eq rfl rfl rfl (Nat.le_refl _) }

theorem startApply_scheduled (c : Control) (now : Nat) : Scheduled c (c.startApply now).1 := by
  unfold startApply
  split
  · exact .refl c
  · rename_i hidle
    split
    · exact .refl c
    · exact .refl c
    · exact { Scheduled.refl c with
        frame := rfl
        jobs := List.prefix_append _ _
        freezes := by simp [push, StoreCommand.isFreeze]
        applying := fun _ => .inr ⟨_, List.mem_append_right _ (List.mem_singleton_self _), rfl⟩
        keeps := fun h => absurd h hidle
        onward := .of_eq rfl rfl rfl (Nat.le_refl _) }

theorem requestPage_scheduled (c : Control) (after : Nat) (bootstrap : Bool) (h : c.count Flight.isDelta = 0) :
    Scheduled c (c.requestPage after bootstrap) :=
  { Scheduled.refl c with
    frame := rfl
    flights := List.prefix_append _ _
    started := by
      intro e he
      rcases List.mem_append.1 he with he | he
      · exact .inl he
      · simp only [List.mem_singleton] at he
        exact .inr (.inr (by rw [he]; rfl))
    delta := by
      rw [requestPage, count_http, h]
      simp [Flight.isDelta]
    others := fun p _ hd => by rw [requestPage, count_http, hd]; rfl
    applying := .inl
    onward := effect_onward c _ _ }

theorem pull_scheduled (c : Control) : Scheduled c c.pull := by
  unfold pull
  split
  · exact .refl c
  · rename_i hnone
    have hzero : c.count Flight.isDelta = 0 := by
      rw [count_eq_zero_iff]
      simpa using hnone
    split
    · exact .refl c
    · split
      · split
        · exact requestPage_scheduled c _ _ hzero
        · exact .refl c
      · split
        · exact requestPage_scheduled c _ _ hzero
        · exact .refl c

/-- **Scheduling only adds** jobs, an expiry timer and at most one page request, and drops expired plans. -/
theorem schedule_scheduled (c : Control) (now : Nat) : Scheduled c (c.schedule now).1 := by
  unfold schedule
  split
  · exact .refl c
  · have h := ((expirePlans_scheduled c now).trans (armExpiry_scheduled _ now)).trans (noteNetwork_scheduled _)
    have ha := h.trans (startApply_scheduled _ now)
    unfold Attempt.andThen
    split
    · rename_i c' hc
      rw [hc] at ha
      exact ha.trans (pull_scheduled c')
    · rename_i c' e hc
      rw [hc] at ha
      exact ha

/-! ## Outcomes -/

/-- Control without an answered flight; a socket stays. -/
def taken (c : Control) (id : Nat) (f : Flight) : Control :=
  if f = .socket then c else { c with flights := c.flights.erase id }

/-- What an outcome brought in before `schedule` runs. -/
structure Staged (c c₁ : Control) (id : Nat) : Prop where
  frame : c₁ = { c with
    flights := c₁.flights, queue := c₁.queue, live := c₁.live, deliveryHead := c₁.deliveryHead
    bootstrapPrefetch := c₁.bootstrapPrefetch, jobs := c₁.jobs }
  flights : (c₁.flights = c.flights ∧ c.flights.get id = some .socket) ∨ c₁.flights = c.flights.erase id
  queue : DeliveryQueue.Grows c.queue c₁.queue
  jobs : c₁.jobs = c.jobs ∨ ∃ now, c₁.jobs = c.jobs ++ [.cleanup now]

/-- After staging, either everything was scheduled or the connection will be retried. -/
inductive Attends (c₁ : Control) : Control → Prop
  | scheduled {c' : Control} {now : Nat} : c₁.schedule now = (c', none) → Attends c₁ c'
  | retried {c₂ : Control} {message : String} : Scheduled c₁ c₂ → Attends c₁ (c₂.retryStatus message none)

/-- The connection survives an outcome, or it will be retried. -/
def Relinks (c c₁ c' : Control) (f : Flight) : Prop :=
  f = .socket ∨ f.isHandshake = true → c₁.flights = c.flights ∨
    ∃ c₂ message, Scheduled c₁ c₂ ∧ c' = c₂.retryStatus message none

/-- An admission refusal: a failure with a status and a refusal body. -/
def Refused (outcome : EffectOutcome) : Prop :=
  outcome.ok = false ∧ ∃ e, outcome.error = some e ∧ e.status.isSome ∧ e.refusal.isSome

/-- What an outcome of effect `id` does. -/
inductive Received (c : Control) (id : Nat) (outcome : EffectOutcome) : Control → Prop
  | ignored : c.flights.get id = none → Received c id outcome c
  | refused {f : Flight} {d : Diagnostic} : c.flights.get id = some f → Refused outcome →
      Received c id outcome ((c.taken id f).stop.tell d)
  | waits {f : Flight} {e : EffectError} : c.flights.get id = some f → f ≠ .refresh → outcome.error = some e →
      e.status = some 401 → Received c id outcome ((c.taken id f).waitForToken id f e)
  | lost {f : Flight} {error : Option EffectError} : c.flights.get id = some f →
      Received c id outcome ((c.taken id f).loseFlight id f error)
  | refreshed : c.flights.get id = some .refresh →
      Received c id outcome (c.refreshWaiters.foldl resend
        { c with flights := c.flights.erase id, refreshing := false, refreshWaiters := [] })
  | retried : c.flights.get id = some .retry → outcome.ok = true →
      Received c id outcome { c with flights := c.flights.erase id, queue := c.queue.retryBlocked }.handshake
  | greeted {r : HandshakeRequest} {head : Nat} : c.flights.get id = some (.handshake r) →
      Received c id outcome (({ c with
        flights := c.flights.erase id, deliveryHead := max c.deliveryHead head, failures := 0 }.push
          (.initializeStream head)).effect .socket (.socket r))
  | acknowledged {r : MutationRequest} {a : BatchAcknowledgement} : c.flights.get id = some (.push r) →
      Received c id outcome ({ c with flights := c.flights.erase id }.push (.acknowledge a))
  | staged {f : Flight} {c₁ c' : Control} : c.flights.get id = some f → f ≠ .retry → f ≠ .refresh →
      Staged c c₁ id → Attends c₁ c' → Relinks c c₁ c' f → Received c id outcome c'

section
variable {c c₁ : Control} {id now : Nat}

/-- The answer of an attempt, as the actor takes it. -/
def settle (a : Attempt) : Control :=
  match a with
  | (c, none) => c
  | (c, some e) => c.networkError e

theorem attends_schedule (c₁ : Control) (now : Nat) : Attends c₁ (settle (c₁.schedule now)) := by
  cases h : c₁.schedule now with
  | mk c' r => cases r with
    | none => exact .scheduled h
    | some e =>
      have hs := schedule_scheduled c₁ now
      rw [h] at hs
      exact .retried hs

theorem attends_error (c₁ : Control) (e : String) : Attends c₁ (settle (c₁, some e)) := .retried (.refl c₁)

/-- An attempt that fails with `c₁` staged, or schedules what it staged; it leaves the flights `fs`. -/
def Attempts (c : Control) (id : Nat) (fs : Table Nat Flight) (a : Attempt) : Prop :=
  ∃ c₁, Staged c c₁ id ∧ c₁.flights = fs ∧ Attends c₁ (settle a)

theorem Attempts.error (h : Staged c c₁ id) (e : String) : Attempts c id c₁.flights (c₁, some e) :=
  ⟨c₁, h, rfl, attends_error c₁ e⟩

theorem Attempts.schedule (h : Staged c c₁ id) (now : Nat) : Attempts c id c₁.flights (c₁.schedule now) :=
  ⟨c₁, h, rfl, attends_schedule c₁ now⟩

theorem Staged.learnHead (h : Staged c c₁ id) (head now : Nat) : Attempts c id c₁.flights (c₁.learnHead head now) := by
  have headed : Staged c { c₁ with deliveryHead := max c₁.deliveryHead head } id := { h with frame := by rw [h.frame] }
  exact .schedule headed now

theorem Staged.stage (h : Staged c c₁ id) {q : DeliveryQueue} (hq : DeliveryQueue.Grows c₁.queue q) :
    Staged c { c₁ with queue := q } id :=
  { h with
    frame := by rw [h.frame]
    queue := h.queue.trans hq }

variable (W : Wire) (z : Sizes)

theorem Staged.receiveOffer (h : Staged c c₁ id) (d : DeliveryResponse) (now : Nat) :
    Attempts c id c₁.flights (c₁.receiveOffer z d now) := by
  unfold Control.receiveOffer
  simp only
  split
  · split
    · exact .error h _
    · exact h.learnHead _ now
  · have hg := DeliveryQueue.receiveBounded_grows z c₁.queue d.header d.parts c₁.context now false
    split
    · rename_i hq
      rw [hq] at hg
      exact .error (h.stage hg) _
    · rename_i hq
      rw [hq] at hg
      exact (h.stage hg).learnHead _ now

theorem Staged.receiveFrame (h : Staged c c₁ id) (d : DeliveryResponse) (now : Nat) :
    Attempts c id c₁.flights (c₁.receiveFrame z d now) := by
  unfold Control.receiveFrame
  split
  · exact .error h _
  · split
    · exact .error h _
    · split
      · split
        · exact .error h _
        · exact h.learnHead _ now
      · exact h.receiveOffer z d now

theorem Staged.receiveMessage (h : Staged c c₁ id) (body : String) (now : Nat) :
    Attempts c id c₁.flights (c₁.receiveMessage W z body now) := by
  unfold Control.receiveMessage
  split
  · exact .error h _
  · split
    · unfold receiveHead
      split
      · exact .error h _
      · split
        · exact .error h _
        · exact h.learnHead _ now
    · split
      · exact .error h _
      · exact h.receiveFrame z _ now

/-- A socket that reports something stages nothing by itself. -/
theorem staged_socket (hf : c.flights.get id = some .socket) : Staged c c id where
  frame := rfl
  flights := .inl ⟨rfl, hf⟩
  queue := .refl _
  jobs := .inl rfl

theorem staged_taken (c : Control) (id : Nat) : Staged c { c with flights := c.flights.erase id } id where
  frame := rfl
  flights := .inr rfl
  queue := .refl _
  jobs := .inl rfl

/-- A closed socket is retried. -/
def Closes (c : Control) (id : Nat) (c' : Control) : Prop :=
  ∃ c₁ c₂ message, Staged c c₁ id ∧ Scheduled c₁ c₂ ∧ c' = c₂.retryStatus message none

theorem closeSocket_closes (c : Control) (id now : Nat) :
    Closes c id (settle (Attempt.andThen ((c.closeSocket id).schedule now) fun c =>
      (c.retryStatus "socket closed or overflow" none, none))) := by
  have staged : Staged c (c.closeSocket id) id := {
    frame := rfl
    flights := .inr rfl
    queue := .of_subset fun _ he => List.mem_of_mem_filter he
    jobs := .inl rfl }
  have hs := schedule_scheduled (c.closeSocket id) now
  cases ha : (c.closeSocket id).schedule now with
  | mk c' r =>
    rw [ha] at hs
    cases r with
    | none => exact ⟨_, c', _, staged, hs, rfl⟩
    | some e => exact ⟨_, c', _, staged, hs, rfl⟩

theorem receiveSocket_attempts (hf : c.flights.get id = some .socket) (value : Option Json) (now : Nat) :
    Attempts c id c.flights (c.receiveSocket W z id value now) ∨
      Closes c id (settle (c.receiveSocket W z id value now)) := by
  unfold receiveSocket
  split
  · exact .inl (.error (staged_socket hf) _)
  · have opened : Staged c { c with live := true } id := { staged_socket hf with frame := rfl }
    exact .inl (.schedule opened now)
  · exact .inl ((staged_socket hf).receiveMessage W z _ now)
  · exact .inr (closeSocket_closes c id now)
  · exact .inr (closeSocket_closes c id now)

theorem receiveDelta_attempts (request : DeltaRequest) (body : String) (now : Nat) :
    Attempts c id (c.flights.erase id) ({ c with flights := c.flights.erase id }.receiveDelta W z request body now) := by
  have taken := staged_taken c id
  unfold receiveDelta
  split
  · exact .error taken _
  · rename_i d _
    split
    · exact .error taken _
    · exact .error taken _
    · have headed : Staged c { c with
          flights := c.flights.erase id, deliveryHead := max c.deliveryHead d.header.observedHead } id :=
        { taken with frame := rfl }
      have hg := DeliveryQueue.receiveBounded_grows z c.queue d.header d.parts c.context now
        (request.bootstrap && decide (c.status.bootstrapCursor.getD 0 < request.after))
      unfold stagePage
      simp only
      split
      · rename_i hq
        rw [hq] at hg
        exact .error (headed.stage hg) _
      · rename_i q fitted hq
        rw [hq] at hg
        have paged : ∀ prefetch, Staged c { c with
            flights := c.flights.erase id, deliveryHead := max c.deliveryHead d.header.observedHead, queue := q
            bootstrapPrefetch := prefetch } id := fun prefetch => { headed.stage hg with frame := rfl }
        exact .schedule (paged _) now

variable (P : Platform)

theorem receiveOwned_attempts (request : MaterializationRequest) (body : String) (now : Nat) :
    Attempts c id (c.flights.erase id) ({ c with flights := c.flights.erase id }.receiveOwned P W z request body now) := by
  have taken := staged_taken c id
  unfold receiveOwned
  split
  · exact .error taken _
  · rename_i m _
    split
    · exact .error taken _
    · have hg := DeliveryQueue.receiveOwned_grows P z c.queue request m c.context now
      split
      · rename_i hq
        rw [hq] at hg
        exact .error (taken.stage hg) _
      · rename_i hq
        rw [hq] at hg
        exact .schedule (taken.stage hg) now

/-- What a failed outcome does. -/
theorem receiveFailure_received {outcome : EffectOutcome} {f : Flight} (hf : c.flights.get id = some f)
    (hok : outcome.ok = false) : Received c id outcome ((c.taken id f).receiveFailure W id f outcome.error) := by
  cases he : outcome.error with
  | none => exact .lost hf
  | some e =>
    simp only [receiveFailure]
    split
    · rename_i hs hr
      exact .refused hf ⟨hok, e, he, by simp [hs], by simp [hr]⟩
    · split
      · rename_i hw
        simp only [Bool.and_eq_true, decide_eq_true_eq] at hw
        exact .waits hf hw.2 he hw.1.1
      · exact .lost hf

/-- **What an outcome does**, with the actor's answer to a failed admission. -/
theorem onEffect_received (c : Control) (id : Nat) (outcome : EffectOutcome) (now : Nat) :
    Received c id outcome (c.onEffect P W z id outcome now) := by
  have staged : ∀ {f : Flight} {a : Attempt} {fs : Table Nat Flight}, c.flights.get id = some f → f ≠ .retry →
      f ≠ .refresh → f ≠ .socket → f.isHandshake = false → Attempts c id fs a → Received c id outcome (settle a) := by
    rintro f a fs hf hr hx hs hh ⟨c₁, hstaged, _, ha⟩
    refine .staged hf hr hx hstaged ha fun hlink => ?_
    rcases hlink with hlink | hlink
    · exact absurd hlink hs
    · rw [hh] at hlink
      cases hlink
  have fails : ∀ {f : Flight} (e : String), c.flights.get id = some f → f ≠ .retry → f ≠ .refresh →
      Received c id outcome (settle ({ c with flights := c.flights.erase id }, some e)) := by
    intro f e hf hr hx
    exact .staged hf hr hx (staged_taken c id) (attends_error _ e) fun _ => .inr ⟨_, e, .refl _, rfl⟩
  show Received c id outcome (settle (c.receive P W z id outcome now))
  unfold receive
  split
  · rename_i hf
    exact .ignored hf
  · rename_i f hf
    simp only
    split
    · rename_i hok
      exact receiveFailure_received W hf (by simpa using hok)
    · rename_i hok
      cases f with
      | refresh => exact .refreshed hf
      | retry => exact .retried hf (by simpa using hok)
      | expire =>
        have cleaned : Staged c ({ c with flights := c.flights.erase id }.push (.cleanup now)) id :=
          { staged_taken c id with frame := rfl, jobs := .inr ⟨now, rfl⟩ }
        exact staged hf nofun nofun nofun rfl (.schedule cleaned now)
      | socket =>
        rcases receiveSocket_attempts W z hf outcome.value now with ⟨c₁, hs, hfs, ha⟩ | ⟨c₁, c₂, m, hs, hsched, hc⟩
        · exact .staged hf nofun nofun hs ha fun _ => .inl hfs
        · have closed : Received c id outcome (c₂.retryStatus m none) :=
            .staged hf nofun nofun hs (.retried hsched) fun _ => .inr ⟨c₂, m, hsched, rfl⟩
          rw [← hc] at closed
          exact closed
      | handshake r =>
        simp only [reduceCtorEq, if_false, receiveSuccess]
        split
        · exact fails _ hf nofun nofun
        · unfold receiveHandshake
          split
          · exact fails _ hf nofun nofun
          · split
            · exact fails _ hf nofun nofun
            · exact .greeted hf
      | delta r =>
        simp only [reduceCtorEq, if_false, receiveSuccess]
        split
        · exact fails _ hf nofun nofun
        · exact staged hf nofun nofun nofun rfl (receiveDelta_attempts W z r _ now)
      | owned r =>
        simp only [reduceCtorEq, if_false, receiveSuccess]
        split
        · exact fails _ hf nofun nofun
        · exact staged hf nofun nofun nofun rfl (receiveOwned_attempts W z P r _ now)
      | push r =>
        simp only [reduceCtorEq, if_false, receiveSuccess]
        split
        · exact fails _ hf nofun nofun
        · unfold receivePush
          split
          · exact fails _ hf nofun nofun
          · split
            · exact fails _ hf nofun nofun
            · split
              · exact fails _ hf nofun nofun
              · exact .acknowledged hf

end

/-! ## Reports -/

/-- What a worker message says to Control once the fence was checked: nothing, a failure or a report. -/
def effective (c : Control) : Except String WorkerReport → Option (Except String StoreReport)
  | .error e => some (.error e)
  | .ok .obsolete => none
  | .ok (.plain r) => some (.ok r)
  | .ok (.guarded f r) => if c.passes f then some r else none

/-- What a worker message does. -/
inductive Reported (c : Control) (message : Except String WorkerReport) : Control → Prop
  | ignored : c.effective message = none → Reported c message c
  | failed {e : String} : c.effective message = some (.error e) → Reported c message (c.failed e)
  | absorbed {r : StoreReport} {c' : Control} {now : Nat} : c.effective message = some (.ok r) →
      (c.absorb r).schedule now = (c', none) → Reported c message c'
  | broken {r : StoreReport} {c₂ : Control} {e : String} : c.effective message = some (.ok r) →
      Scheduled (c.absorb r) c₂ → Reported c message (c₂.failed e)

/-- **What a report does.** -/
theorem onReport_reported (c : Control) (message : Except String WorkerReport) (now : Nat) :
    Reported c message (c.onReport message now) := by
  have absorbed : ∀ r, c.effective message = some (.ok r) →
      Reported c message (match (c.absorb r).schedule now with
        | (c, none) => c
        | (c, some e) => c.failed e) := by
    intro r he
    have hs := schedule_scheduled (c.absorb r) now
    cases ha : (c.absorb r).schedule now with
    | mk c' x =>
      rw [ha] at hs
      cases x with
      | none => exact .absorbed he ha
      | some e => exact .broken he hs
  cases message with
  | error e => exact .failed rfl
  | ok w => cases w with
    | obsolete => exact .ignored rfl
    | plain r => exact absorbed r rfl
    | guarded f r =>
      by_cases hp : c.passes f = true
      · have he : c.effective (.ok (.guarded f r)) = some r := by simp [effective, hp]
        simp only [onReport, report, hp, Bool.not_true, Bool.false_eq_true, if_false]
        cases r with
        | error e => exact .failed he
        | ok r => exact absorbed r he
      · have he : c.effective (.ok (.guarded f r)) = none := by simp [effective, hp]
        simp only [onReport, report, hp, Bool.not_false, if_true]
        exact .ignored he

end Control

end Axton
