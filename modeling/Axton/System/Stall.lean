import Axton.System.Release

/-!
# The downlink does not stall

While the store is behind a target it knows, something is under way that will bring Control back to `schedule`: an
Apply, Initialize or Needs, a request, a token or the retry timer. `schedule` itself leaves one of these, except that
it waits for the rest of a plan staged in part, which a socket delivers. Three facts make this last between two runs
of `schedule`: the connection is up, being made or retried; a request that waits for a token has its refresh; and a
plan that is blocked has the retry timer, the one event that unblocks it.

The last fact is lost when Control stops: the timer is cancelled, the blocked plan stays, and after the next connect
nothing unblocks it. `Flows` excludes a connect over a blocked plan.
-/

namespace Axton

namespace Control

open Flight

/-- An ordinary plan is blocked. -/
def obstructed (c : Control) : Bool := c.queue.any fun e => e.2.header.owner.isNone && e.2.blocked

/-- Staged plans have valid headers and a unit left. -/
def Planned (q : DeliveryQueue) : Prop :=
  ∀ e ∈ q, e.2.header.validate = .ok () ∧ e.2.next < e.2.header.units.length

/-- Every waiting request has its refresh under way, and every plan a unit left. -/
structure Rooted (c : Control) : Prop where
  refreshing : c.refreshing = true → c.anyFlight (· = .refresh) = true
  waiters : c.refreshWaiters ≠ [] → c.refreshing = true
  plans : Planned c.queue

/-- The connection is up, being made or retried, and a blocked plan has the retry timer. -/
structure Linked (c : Control) : Prop extends Rooted c where
  link : c.connected = true →
    c.anyFlight isLink = true ∨ c.refreshWaiters.any isLink = true ∨ c.retrying = true
  blocked : c.connected = true → c.obstructed = true → c.retrying = true

/-- Flights that a change within an epoch leaves alone. -/
def isAnchor : Flight → Bool
  | .handshake _ | .socket | .refresh | .retry => true
  | _ => false

/-- A change that ends no connection, no refresh and no timer, and blocks no plan. -/
structure Carries (c c' : Control) : Prop where
  connected : c'.connected = c.connected
  refreshing : c'.refreshing = c.refreshing
  dropped : ∀ f ∈ c'.refreshWaiters, f ∈ c.refreshWaiters
  waiters : ∀ f ∈ c.refreshWaiters, f.isLink = true → f ∈ c'.refreshWaiters
  flights : ∀ e ∈ c.flights, isAnchor e.2 = true → e ∈ c'.flights
  obstructed : c'.obstructed = true → c.obstructed = true
  plans : Planned c.queue → Planned c'.queue

theorem Carries.refl (c : Control) : Carries c c :=
  ⟨rfl, rfl, fun _ h => h, fun _ h _ => h, fun _ h _ => h, fun h => h, fun h => h⟩

theorem Carries.trans {a b c : Control} (h : Carries a b) (h' : Carries b c) : Carries a c where
  connected := h'.connected.trans h.connected
  refreshing := h'.refreshing.trans h.refreshing
  dropped := fun f hf => h.dropped f (h'.dropped f hf)
  waiters := fun f hf hl => h'.waiters f (h.waiters f hf hl) hl
  flights := fun e he ha => h'.flights e (h.flights e he ha) ha
  obstructed := fun ho => h.obstructed (h'.obstructed ho)
  plans := fun hp => h'.plans (h.plans hp)

/-- Anchors stay in flight. -/
theorem Carries.any {c c' : Control} (h : Carries c c') {p : Flight → Bool} (hp : ∀ f, p f = true → isAnchor f = true)
    (ha : c.anyFlight p = true) : c'.anyFlight p = true := by
  rw [anyFlight_iff] at ha ⊢
  obtain ⟨e, he, hpe⟩ := ha
  exact ⟨e, h.flights e he (hp _ hpe), hpe⟩

theorem isLink_anchor (f : Flight) (h : f.isLink = true) : isAnchor f = true := by
  cases f <;> first | rfl | cases h

theorem Rooted.carries {c c' : Control} (h : Rooted c) (hc : Carries c c') : Rooted c' where
  refreshing := by
    intro hr
    rw [hc.refreshing] at hr
    refine hc.any (fun f hf => ?_) (h.refreshing hr)
    rw [decide_eq_true_eq] at hf
    rw [hf]
    rfl
  waiters := by
    intro hw
    rw [hc.refreshing]
    obtain ⟨f, hf⟩ := List.exists_mem_of_ne_nil _ hw
    exact h.waiters (List.ne_nil_of_mem (hc.dropped f hf))
  plans := hc.plans h.plans

theorem Carries.retrying {c c' : Control} (h : Carries c c') (hr : c.retrying = true) : c'.retrying = true := by
  refine h.any (fun f hf => ?_) hr
  rw [decide_eq_true_eq] at hf
  rw [hf]
  rfl

theorem Linked.carries {c c' : Control} (h : Linked c) (hc : Carries c c') : Linked c' where
  toRooted := h.toRooted.carries hc
  link := by
    intro hconn
    rw [hc.connected] at hconn
    rcases h.link hconn with hl | hl | hr
    · exact .inl (hc.any isLink_anchor hl)
    · rw [List.any_eq_true] at hl
      obtain ⟨f, hf, hlf⟩ := hl
      exact .inr (.inl (List.any_eq_true.2 ⟨f, hc.waiters f hf hlf, hlf⟩))
    · exact .inr (.inr (hc.retrying hr))
  blocked := by
    intro hconn ho
    rw [hc.connected] at hconn
    exact hc.retrying (h.blocked hconn (hc.obstructed ho))

/-- The retry timer covers both. -/
theorem Rooted.retried {c : Control} (h : Rooted c) (hr : c.connected = true → c.retrying = true) : Linked c where
  toRooted := h
  link := fun hc => .inr (.inr (hr hc))
  blocked := fun hc _ => hr hc

/-! ## Queues -/

theorem planned_of_grows {q q' : DeliveryQueue} (h : DeliveryQueue.Grows q q') (hp : Planned q) : Planned q' := by
  intro e he
  rcases h e he with ⟨p, hpq, hh, hn, -⟩ | ⟨hv, hn, -⟩
  · obtain ⟨hv, hlt⟩ := hp _ hpq
    rw [hh, hn]
    exact ⟨hv, hlt⟩
  · refine ⟨hv, ?_⟩
    rw [hn]
    simp only [DeliveryHeader.validate, bind_ok, check_ok] at hv
    obtain ⟨_, _, _, _, _, _, _, hne, _⟩ := hv
    refine List.length_pos_iff.2 fun hnil => ?_
    rw [hnil] at hne
    cases hne

theorem obstructed_of_grows {c c' : Control} (h : DeliveryQueue.Grows c.queue c'.queue) (ho : c'.obstructed = true) :
    c.obstructed = true := by
  simp only [obstructed, List.any_eq_true, Bool.and_eq_true] at ho ⊢
  obtain ⟨e, he, hown, hb⟩ := ho
  rcases h e he with ⟨p, hpq, hh, -, hblocked⟩ | ⟨-, -, hblocked⟩
  · exact ⟨(e.1, p), hpq, by rw [← hh]; exact hown, by rw [← hblocked]; exact hb⟩
  · rw [hblocked] at hb
    cases hb

/-- A change of flights and queue only. -/
theorem Carries.of_grows {c c' : Control} (hc : c'.connected = c.connected) (hr : c'.refreshing = c.refreshing)
    (hw : c'.refreshWaiters = c.refreshWaiters) (hf : ∀ e ∈ c.flights, isAnchor e.2 = true → e ∈ c'.flights)
    (hq : DeliveryQueue.Grows c.queue c'.queue) : Carries c c' :=
  ⟨hc, hr, fun _ h => hw ▸ h, fun _ h _ => hw ▸ h, hf, obstructed_of_grows hq, planned_of_grows hq⟩

/-- A change of the queue only, to part of it. -/
theorem Carries.of_queue {c c' : Control} (hc : c'.connected = c.connected) (hr : c'.refreshing = c.refreshing)
    (hw : c'.refreshWaiters = c.refreshWaiters) (hf : c'.flights = c.flights) (hq : ∀ e ∈ c'.queue, e ∈ c.queue) :
    Carries c c' :=
  .of_grows hc hr hw (fun _ h _ => hf ▸ h) (.of_subset hq)

theorem push_carries (c : Control) (j : StoreCommand) : Carries c (c.push j) := .of_queue rfl rfl rfl rfl fun _ h => h

theorem effect_carries (c : Control) (f : Flight) (o : NetOperation) : Carries c (c.effect f o) :=
  .of_grows rfl rfl rfl (fun _ h _ => List.mem_append_left _ h) (.refl _)

theorem cancelFlights_carries (c : Control) {p : Flight → Bool} (hp : ∀ f, isAnchor f = true → p f = false) :
    Carries c (c.cancelFlights p) := by
  refine .of_grows rfl rfl rfl (fun e he ha => ?_) (.refl _)
  exact List.mem_filter.2 ⟨he, by simp [hp _ ha]⟩

theorem Scheduled.carries {c c' : Control} (h : Scheduled c c') : Carries c c' :=
  .of_grows (by rw [h.frame]) (by rw [h.frame]) (by rw [h.frame]) (fun _ he _ => h.flights.subset he)
    (.of_subset fun _ he => h.queue.subset he)

/-- Requests of other kinds stop waiting, and plans are dropped. -/
theorem Carries.of_filter {c c' : Control} {p : Flight → Bool} (hp : ∀ f, isLink f = true → p f = true)
    (hc : c'.connected = c.connected) (hr : c'.refreshing = c.refreshing)
    (hw : c'.refreshWaiters = c.refreshWaiters.filter p) (hf : c'.flights = c.flights)
    (hq : ∀ e ∈ c'.queue, e ∈ c.queue) : Carries c c' where
  connected := hc
  refreshing := hr
  dropped := fun f h => List.mem_of_mem_filter (hw ▸ h)
  waiters := fun f h hl => by
    rw [hw]
    exact List.mem_filter.2 ⟨h, hp f hl⟩
  flights := fun e he _ => hf ▸ he
  obstructed := obstructed_of_grows (.of_subset hq)
  plans := planned_of_grows (.of_subset hq)

theorem retireBootstrapPrefetch_carries (c : Control) : Carries c c.retireBootstrapPrefetch := by
  have cancelled := cancelFlights_carries c (p := prefetches (c.status.bootstrapCursor.getD 0)) fun f hf => by
    cases f <;> first | rfl | cases hf
  refine cancelled.trans (.of_filter (fun f hf => ?_) rfl rfl rfl rfl fun e he => List.mem_of_mem_filter he)
  cases f <;> first | rfl | cases hf

theorem retryStatus_carries (c : Control) (m : String) (status : Option Nat) : Carries c (c.retryStatus m status) := by
  have told : Carries c (c.tell (.error m status)) := .of_queue rfl rfl rfl rfl fun _ h => h
  unfold retryStatus
  simp only
  split
  · refine Carries.trans ?_ (effect_carries _ _ _)
    exact told.trans (.of_queue rfl rfl rfl rfl fun _ h => h)
  · exact told

theorem retryStatus_linked {c : Control} (h : Rooted c) (m : String) (status : Option Nat) :
    Linked (c.retryStatus m status) := by
  have carried := retryStatus_carries c m status
  refine (h.carries carried).retried fun hc => ?_
  rw [carried.connected] at hc
  exact retryStatus_retrying m status hc

theorem handshake_anchors (c : Control) {f : Flight} (hf : f = .refresh ∨ f = .retry)
    (h : c.anyFlight (· = f) = true) : c.handshake.anyFlight (· = f) = true := by
  rw [anyFlight_iff] at h ⊢
  obtain ⟨e, he, hef⟩ := h
  rw [decide_eq_true_eq] at hef
  refine ⟨e, List.mem_append_left _ (List.mem_filter.2 ⟨List.mem_filter.2 ⟨he, ?_⟩, ?_⟩), by simpa using hef⟩
  · rcases hf with rfl | rfl <;> rw [hef] <;> rfl
  · rcases hf with rfl | rfl <;> rw [hef] <;> rfl

theorem handshake_started (c : Control) : c.handshake.anyFlight isHandshake = true := by
  simp [handshake, http, effect, anyFlight, isHandshake]

theorem isHandshake_link (c : Control) (h : c.anyFlight isHandshake = true) : c.anyFlight isLink = true := by
  rw [anyFlight_iff] at h ⊢
  obtain ⟨e, he, hh⟩ := h
  exact ⟨e, he, by simp [isLink, hh]⟩

theorem handshake_rooted {c : Control} (h : Rooted c) : Rooted c.handshake := by
  have retired := h.carries (retireBootstrapPrefetch_carries c)
  exact ⟨fun hr => handshake_anchors c (.inl rfl) (h.refreshing hr), retired.waiters, retired.plans⟩

theorem handshake_obstructed (c : Control) (h : c.handshake.obstructed = true) : c.obstructed = true :=
  (retireBootstrapPrefetch_carries c).obstructed h

/-- A handshake is a link; a plan that is blocked keeps its timer. -/
theorem handshake_linked {c : Control} (h : Rooted c) (hb : c.connected = true → c.obstructed = true → c.retrying = true) :
    Linked c.handshake where
  toRooted := handshake_rooted h
  link := fun _ => .inl (isHandshake_link _ (handshake_started c))
  blocked := fun hc ho => handshake_anchors c (.inr rfl) (hb hc (handshake_obstructed c ho))

section
variable {c : Control} {id : Nat} {f : Flight}

/-- Answering a flight ends no other. -/
theorem erase_keeps (hn : c.Numbered) (hf : c.flights.get id = some f) {e : Nat × Flight} (he : e ∈ c.flights)
    (hne : e.2 ≠ f) : e ∈ c.flights.erase id := by
  refine List.mem_filter.2 ⟨he, ?_⟩
  have hid : e.1 ≠ id := by
    rintro rfl
    refine hne ?_
    have hget := Table.get_of_mem hn.nodup he
    rw [hf] at hget
    exact (Option.some.inj hget).symm
  simpa using hid

theorem erase_any (hn : c.Numbered) (hf : c.flights.get id = some f) {p : Flight → Bool} (hp : p f = false)
    (ha : c.anyFlight p = true) : ({ c with flights := c.flights.erase id } : Control).anyFlight p = true := by
  rw [anyFlight_iff] at ha ⊢
  obtain ⟨e, he, hpe⟩ := ha
  refine ⟨e, erase_keeps hn hf he ?_, hpe⟩
  rintro rfl
  rw [hp] at hpe
  cases hpe

theorem erase_carries (hn : c.Numbered) (hf : c.flights.get id = some f) (ha : isAnchor f = false) :
    Carries c { c with flights := c.flights.erase id } := by
  refine .of_grows rfl rfl rfl (fun e he hanchor => erase_keeps hn hf he ?_) (.refl _)
  rintro rfl
  rw [ha] at hanchor
  cases hanchor

theorem erase_rooted (hn : c.Numbered) (hf : c.flights.get id = some f) (hr : f ≠ .refresh) (h : Rooted c) :
    Rooted { c with flights := c.flights.erase id } :=
  ⟨fun hx => erase_any hn hf (by simpa using hr) (h.refreshing hx), h.waiters, h.plans⟩

/-- A lost request arms the retry. -/
theorem loseFlight_linked (hn : c.Numbered) (hf : c.flights.get id = some f) (h : Rooted c)
    (error : Option EffectError) : Linked ((c.taken id f).loseFlight id f error) := by
  unfold loseFlight
  refine retryStatus_linked ?_ _ _
  by_cases hx : f = .refresh
  · rw [if_pos hx]
    refine ⟨nofun, fun hw => absurd rfl hw, ?_⟩
    show Planned (c.taken id f).queue
    unfold taken
    split <;> exact h.plans
  · rw [if_neg hx]
    have erased := erase_rooted hn hf hx h
    have same : ({ c.taken id f with flights := (c.taken id f).flights.erase id } : Control) =
        { c with flights := c.flights.erase id } := Session.taken_erase c id f
    rw [same]
    exact erased

theorem waitForToken_taken (c : Control) (id : Nat) (f : Flight) (e : EffectError) :
    (c.taken id f).waitForToken id f e = c.waitForToken id f e := by
  unfold taken
  split
  · rfl
  · simp only [waitForToken, tell, Session.erase_erase]
    rfl

/-- A request that waits for a token has its refresh. -/
theorem waitForToken_linked (hn : c.Numbered) (hf : c.flights.get id = some f) (hx : f ≠ .refresh) (hr : f ≠ .retry)
    (h : Linked c) (e : EffectError) : Linked (c.waitForToken id f e) := by
  have erased := erase_rooted hn hf hx h.toRooted
  have link : c.connected = true → ({ c with flights := c.flights.erase id } : Control).anyFlight isLink = true ∨
      (c.refreshWaiters ++ [f]).any isLink = true ∨
      ({ c with flights := c.flights.erase id } : Control).retrying = true := by
    intro hconn
    rcases h.link hconn with hl | hl | hl
    · by_cases hfl : f.isLink = true
      · exact .inr (.inl (by simp [hfl]))
      · exact .inl (erase_any hn hf (by simpa using hfl) hl)
    · exact .inr (.inl (by rw [List.any_append, hl]; rfl))
    · exact .inr (.inr (erase_any hn hf (by simpa using hr) hl))
  have blocked : c.connected = true → c.obstructed = true →
      ({ c with flights := c.flights.erase id } : Control).retrying = true := fun hconn ho =>
    erase_any hn hf (by simpa using hr) (h.blocked hconn ho)
  unfold waitForToken
  simp only
  split
  · rename_i hrefresh
    exact ⟨⟨fun _ => erased.refreshing hrefresh, fun _ => hrefresh, h.plans⟩, link, blocked⟩
  · have started : Linked ({ c with
        flights := c.flights.erase id, refreshWaiters := c.refreshWaiters ++ [f], refreshing := true,
        events := (c.tell (.error e.message e.status)).events }.effect .refresh .refreshAuth) := by
      refine ⟨⟨fun _ => ?_, fun _ => rfl, h.plans⟩, fun hc => ?_, fun hc ho => ?_⟩
      · simp [effect, anyFlight]
      · rcases link hc with hl | hl | hl
        · exact .inl ((effect_carries _ _ _).any isLink_anchor hl)
        · exact .inr (.inl hl)
        · exact .inr (.inr ((effect_carries _ _ _).retrying hl))
      · exact (effect_carries _ _ _).retrying (blocked hc ho)
    exact started

end

theorem resend_rooted {c : Control} (h : Rooted c) (f : Flight) : Rooted (c.resend f) := by
  cases f with
  | handshake r => exact h.carries (effect_carries c _ _)
  | delta r => exact h.carries (effect_carries c _ _)
  | owned r => exact h.carries (effect_carries c _ _)
  | push r => exact h.carries (effect_carries c _ _)
  | socket => exact handshake_rooted h
  | expire => exact h
  | retry => exact h
  | refresh => exact h

theorem resend_retrying {c : Control} (f : Flight) (h : c.retrying = true) : (c.resend f).retrying = true := by
  cases f with
  | handshake r => exact (effect_carries c _ _).retrying h
  | delta r => exact (effect_carries c _ _).retrying h
  | owned r => exact (effect_carries c _ _).retrying h
  | push r => exact (effect_carries c _ _).retrying h
  | socket => exact handshake_anchors c (.inr rfl) h
  | expire => exact h
  | retry => exact h
  | refresh => exact h

/-- A link that waited is in flight again, and a link in flight stays or is replaced. -/
theorem resend_link {c : Control} (f : Flight) (h : f.isLink = true ∨ c.anyFlight isLink = true) :
    (c.resend f).anyFlight isLink = true := by
  have kept : ∀ o : NetOperation, f.isLink = true ∨ c.anyFlight isLink = true →
      (c.effect f o).anyFlight isLink = true := by
    rintro o (hf | hl)
    · rw [anyFlight_iff]
      exact ⟨(c.issued + 1, f), List.mem_append_right _ (List.mem_singleton.2 rfl), hf⟩
    · exact (effect_carries c f o).any isLink_anchor hl
  cases f with
  | handshake r => exact kept _ h
  | delta r => exact kept _ h
  | owned r => exact kept _ h
  | push r => exact kept _ h
  | socket => exact isHandshake_link _ (handshake_started c)
  | expire => exact h.resolve_left nofun
  | retry => exact h.resolve_left nofun
  | refresh => exact h.resolve_left nofun

theorem resend_state {c : Control} (f : Flight) :
    (c.resend f).connected = c.connected ∧ ((c.resend f).obstructed = true → c.obstructed = true) := by
  cases f with
  | socket => exact ⟨rfl, handshake_obstructed c⟩
  | handshake r => exact ⟨rfl, fun h => h⟩
  | delta r => exact ⟨rfl, fun h => h⟩
  | owned r => exact ⟨rfl, fun h => h⟩
  | push r => exact ⟨rfl, fun h => h⟩
  | expire => exact ⟨rfl, fun h => h⟩
  | retry => exact ⟨rfl, fun h => h⟩
  | refresh => exact ⟨rfl, fun h => h⟩

/-- The waiting requests are sent again, one by one. -/
theorem resent_linked : ∀ (w : List Flight) {c : Control}, Rooted c →
    (c.connected = true → c.anyFlight isLink = true ∨ w.any isLink = true ∨ c.retrying = true) →
    (c.connected = true → c.obstructed = true → c.retrying = true) → Linked (w.foldl resend c)
  | [], c, h, hl, hb => by
    refine ⟨h, fun hc => ?_, hb⟩
    rcases hl hc with hl | hl | hl
    · exact .inl hl
    · cases hl
    · exact .inr (.inr hl)
  | f :: w, c, h, hl, hb => by
    obtain ⟨hconn, hobs⟩ := resend_state (c := c) f
    refine resent_linked w (resend_rooted h f) (fun hc => ?_) fun hc ho => ?_
    · rw [hconn] at hc
      rcases hl hc with hl | hl | hl
      · exact .inl (resend_link f (.inr hl))
      · rw [List.any_cons, Bool.or_eq_true] at hl
        rcases hl with hl | hl
        · exact .inl (resend_link f (.inl hl))
        · exact .inr (.inl hl)
      · exact .inr (.inr (resend_retrying f hl))
    · rw [hconn] at hc
      exact resend_retrying f (hb hc (hobs ho))

/-- What was staged leaves the connection alone, or a retry takes its place. -/
theorem staged_linked {c c₁ c' : Control} {id : Nat} {f : Flight} (hn : c.Numbered) (hf : c.flights.get id = some f)
    (hretry : f ≠ .retry) (hrefresh : f ≠ .refresh) (hs : Staged c c₁ id) (hrelinks : Relinks c c₁ c' f) (h : Linked c) :
    Linked c₁ ∨ ∃ c₂ message, Rooted c₂ ∧ c' = c₂.retryStatus message none := by
  have carried : (∀ e ∈ c.flights, isAnchor e.2 = true → e ∈ c₁.flights) → Linked c₁ := fun hfl =>
    h.carries (.of_grows (by rw [hs.frame]) (by rw [hs.frame]) (by rw [hs.frame]) hfl hs.queue)
  by_cases hlink : f = .socket ∨ f.isHandshake = true
  · rcases hrelinks hlink with hsame | ⟨c₂, message, hsched, hc⟩
    · refine .inl (carried fun e he _ => ?_)
      rw [hsame]
      exact he
    · refine .inr ⟨c₂, message, Rooted.carries ⟨fun hr => ?_, fun hw => ?_, planned_of_grows hs.queue h.plans⟩
        hsched.carries, hc⟩
      · rw [hs.frame] at hr
        have hbefore := h.refreshing hr
        rw [anyFlight_iff] at hbefore ⊢
        obtain ⟨e, he, hex⟩ := hbefore
        rw [decide_eq_true_eq] at hex
        refine ⟨e, ?_, by simpa using hex⟩
        rcases hs.flights with ⟨hsame, -⟩ | herase
        · rw [hsame]
          exact he
        · rw [herase]
          refine erase_keeps hn hf he ?_
          rw [hex]
          exact hrefresh.symm
      · have hsame : c₁.refreshWaiters = c.refreshWaiters ∧ c₁.refreshing = c.refreshing := by
          constructor <;> rw [hs.frame]
        rw [hsame.1] at hw
        rw [hsame.2]
        exact h.waiters hw
  · have hanchor : isAnchor f = false := by
      cases f with
      | handshake r => exact absurd (.inr rfl) hlink
      | socket => exact absurd (.inl rfl) hlink
      | refresh => exact absurd rfl hrefresh
      | retry => exact absurd rfl hretry
      | delta r => rfl
      | owned r => rfl
      | push r => rfl
      | expire => rfl
    refine .inl (carried fun e he ha => ?_)
    rcases hs.flights with ⟨hsame, -⟩ | herase
    · rw [hsame]
      exact he
    · rw [herase]
      exact (erase_carries hn hf hanchor).flights e he ha

/-- **Outcomes keep the connection up**, being made or retried. -/
theorem Received.linked {c c' : Control} {id : Nat} {outcome : EffectOutcome} (hr : Received c id outcome c')
    (hn : c.Numbered) (h : Linked c)
    (h401 : c.flights.get id = some .retry → outcome.error.any (·.status = some 401) = false) : Linked c' := by
  cases hr with
  | ignored _ => exact h
  | @refused f _ hf _ =>
    have taken : Rooted (c.taken id f).stop := by
      refine ⟨nofun, fun hw => absurd rfl hw, ?_⟩
      show Planned (c.taken id f).queue
      unfold Control.taken
      split <;> exact h.plans
    exact ⟨⟨taken.refreshing, taken.waiters, taken.plans⟩, nofun, nofun⟩
  | @waits f e hf hx he hstatus =>
    have hne : f ≠ .retry := by
      rintro rfl
      have hcond := h401 hf
      rw [he] at hcond
      simp [hstatus] at hcond
    rw [waitForToken_taken]
    exact waitForToken_linked hn hf hx hne h e
  | lost hf => exact loseFlight_linked hn hf h.toRooted _
  | refreshed hf =>
    refine resent_linked _ ⟨nofun, fun hw => absurd rfl hw, h.plans⟩ (fun hc => ?_) fun hc ho => ?_
    · rcases h.link hc with hl | hl | hl
      · exact .inl (erase_any hn hf rfl hl)
      · exact .inr (.inl hl)
      · exact .inr (.inr (erase_any hn hf rfl hl))
    · exact erase_any hn hf rfl (h.blocked hc ho)
  | retried hf _ =>
    have erased := erase_rooted hn hf nofun h.toRooted
    refine handshake_linked ⟨erased.refreshing, erased.waiters, fun e he => ?_⟩ fun _ ho => ?_
    · obtain ⟨e', he', rfl⟩ := List.mem_map.1 he
      exact h.plans e' he'
    · -- The timer fired: no plan is blocked any more.
      simp [obstructed, DeliveryQueue.retryBlocked] at ho
  | @greeted r head hf =>
    have erased := erase_rooted hn hf nofun h.toRooted
    have pushed : Rooted ({ c with
        flights := c.flights.erase id, deliveryHead := max c.deliveryHead head, failures := 0 }.push
          (.initializeStream head)) := ⟨erased.refreshing, erased.waiters, erased.plans⟩
    have carried := effect_carries ({ c with
        flights := c.flights.erase id, deliveryHead := max c.deliveryHead head, failures := 0 }.push
          (.initializeStream head)) .socket (.socket r)
    refine ⟨pushed.carries carried, fun _ => .inl ?_, fun hc ho => carried.retrying ?_⟩
    · simp [effect, anyFlight, isLink, isSocket]
    · exact erase_any hn hf rfl (h.blocked hc ho)
  | acknowledged hf =>
    refine h.carries ((erase_carries hn hf rfl).trans (push_carries _ _))
  | @staged f c₁ c' hf hretry hrefresh hs hattends hrelinks =>
    rcases staged_linked hn hf hretry hrefresh hs hrelinks h with h₁ | ⟨c₂, message, hrooted, rfl⟩
    · cases hattends with
      | @scheduled _ now hsched =>
        have scheduled := schedule_scheduled c₁ now
        rw [hsched] at scheduled
        exact h₁.carries scheduled.carries
      | retried hsched => exact h₁.carries (hsched.carries.trans (retryStatus_carries _ _ _))
    · exact retryStatus_linked hrooted message none

/-! ## Scheduling -/

/-- Behind a known target: the bootstrap range is not covered, or the normal position is before the head. -/
def Behind (c : Control) : Prop :=
  c.connected = true ∧ c.paused = false ∧ c.status.startCursor.isSome = true ∧
    (c.bootstraps = true ∨ c.position false < c.deliveryHead)

/-- A plan of the lane that is waited for is staged in part, its next unit not complete. -/
def Partial (c : Control) : Prop :=
  ∃ e ∈ c.queue, e.2.header.owner = none ∧ c.continues e.2 = true ∧ e.2.next < e.2.header.units.length ∧
    e.2.complete e.2.next = false

theorem unit_none {p : Plan} {i : Nat} (h : p.unit i = .ok none) : p.complete i = false := by
  unfold Plan.unit at h
  split at h
  · rename_i hc
    simpa using hc
  · rename_i hc
    split at h
    · rename_i hm
      simp [Plan.complete, hm] at hc
    · simp only [bind_ok, pure_ok] at h
      obtain ⟨_, _, _, _, _, _, hx⟩ := h
      cases hx

end Control

namespace Session

open Flight Control

/-- A request that brings Control back to `schedule`. -/
def isAsking (f : Flight) : Bool := f.isDelta || f.isHandshake

/-- A waiting request that does so once it is sent again: a socket becomes a handshake. -/
def isResumed (f : Flight) : Bool := isAsking f || f.isSocket

/-- What keeps the downlink going, with the requests `w` that wait for a token. -/
def Moving (s : Session) (w : List Flight) : Prop :=
  (s.Outstanding StoreCommand.isApply ∨ s.Outstanding StoreCommand.isInitialize ∨ s.Outstanding StoreCommand.isNeeds) ∨
    s.control.anyFlight isAsking = true ∨ w.any isResumed = true ∨ s.control.retrying = true ∨ s.control.Partial

/-- The same store position and queue, and no command and no request less. -/
theorem Moving.across {s s' : Session} {w w' : List Flight} (h : s.Moving w)
    (more : ∀ {k : StoreCommand → Bool}, s.Outstanding k → s'.Outstanding k)
    (hq : s'.control.queue = s.control.queue) (hs : s'.control.status = s.control.status)
    (hf : s.control.anyFlight isAsking = true → s'.control.anyFlight isAsking = true ∨ w'.any isResumed = true)
    (hw : w.any isResumed = true → s'.control.anyFlight isAsking = true ∨ w'.any isResumed = true)
    (hr : s.control.retrying = true → s'.control.retrying = true) : s'.Moving w' := by
  rcases h with (ha | hi | hn) | hasking | hwait | hretry | ⟨e, hem, howner, hcont, hnext, hpart⟩
  · exact .inl (.inl (more ha))
  · exact .inl (.inr (.inl (more hi)))
  · exact .inl (.inr (.inr (more hn)))
  · rcases hf hasking with h | h
    · exact .inr (.inl h)
    · exact .inr (.inr (.inl h))
  · rcases hw hwait with h | h
    · exact .inr (.inl h)
    · exact .inr (.inr (.inl h))
  · exact .inr (.inr (.inr (.inl (hr hretry))))
  · refine .inr (.inr (.inr (.inr ⟨e, hq ▸ hem, howner, ?_, hnext, hpart⟩)))
    have hsame : s'.control.continues e.2 = s.control.continues e.2 := by
      unfold continues bootstraps position
      rw [hs]
    rw [hsame]
    exact hcont

/-- A change of Control alone. -/
theorem Moving.persists {s : Session} {c : Control} {w w' : List Flight} (h : s.Moving w)
    (he : c.epoch = s.control.epoch) (hj : ∀ j ∈ s.control.jobs, j ∈ c.jobs) (hq : c.queue = s.control.queue)
    (hs : c.status = s.control.status)
    (hf : s.control.anyFlight isAsking = true → c.anyFlight isAsking = true ∨ w'.any isResumed = true)
    (hw : w.any isResumed = true → c.anyFlight isAsking = true ∨ w'.any isResumed = true)
    (hr : s.control.retrying = true → c.retrying = true) : ({ s with control := c } : Session).Moving w' :=
  @Moving.across s { s with control := c } w w' h (fun ho => ho.control he fun j hjm _ => hj j hjm) hq hs hf hw hr

/-- A change of neither the flights nor the queue. -/
theorem Moving.same {s s' : Session} (h : s.control.Behind → s.Moving s.control.refreshWaiters)
    (more : ∀ {k : StoreCommand → Bool}, s.Outstanding k → s'.Outstanding k)
    (hb : s'.control.Behind → s.control.Behind) (hq : s'.control.queue = s.control.queue)
    (hs : s'.control.status = s.control.status) (hf : s'.control.flights = s.control.flights)
    (hw : s'.control.refreshWaiters = s.control.refreshWaiters) :
    s'.control.Behind → s'.Moving s'.control.refreshWaiters := by
  intro hbehind
  have hany : ∀ p, s'.control.anyFlight p = s.control.anyFlight p := fun p => by simp only [anyFlight, hf]
  refine (h (hb hbehind)).across more hq hs (fun ha => .inl ?_) (fun hx => .inr (hw ▸ hx)) fun hr => ?_
  · rw [hany]
    exact ha
  · unfold Control.retrying at hr ⊢
    rw [hany]
    exact hr

theorem Moving.mono {s : Session} {w w' : List Flight} (h : s.Moving w)
    (hw : w.any isResumed = true → w'.any isResumed = true) : s.Moving w' :=
  h.persists rfl (fun _ hj => hj) rfl rfl .inl (fun ha => .inr (hw ha)) (fun hr => hr)

section
variable {P : Platform} {H : Hashes} {W : Wire} {z : Sizes}

end

end Session

namespace Notes

open Session

def paged : EffectOutcome := { ok := true, value := some (.str "page") }

end Notes

end Axton
