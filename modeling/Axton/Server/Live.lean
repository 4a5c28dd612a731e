import Axton.Lib.Trace
import Axton.Protocol.Delivery

/-!
# The live drain

Model of `crates/server/src/live.rs`: the state machine of one socket. It asks its host for one page at
a time, forwards the parts it gets as frames, and asks again when a commit was reported meanwhile or the
page stayed below the head it was computed at.

| here | there |
|------|-------|
| `Subscriptions.open05`, `handle` | `Subscriptions::open05`, `handle05` (live.rs:75-197) |
| `verifyIndexedPart` | `verify_indexed_part` (delivery_plan.rs:465) |
| `Drain` | the socket with its host, and what was sent |

A socket subscribes one Stream, so `streams` is one state. A page arrives decoded.
-/

namespace Axton

namespace Server

/-- `verify_indexed_part` (delivery_plan.rs:465). -/
def verifyIndexedPart (h : DeliveryHeader) (p : DeliveryPart) : Except String Unit := do
  p.validate
  check (p.planId = h.planId && p.planDigest = h.digest && h.names p &&
    p.changes.all fun c => decide (c.cursor ≤ h.observedHead) && h.after.all (· < c.cursor)) "indexed part mismatch"

inductive LiveEvent where
  | committed (stream : String)
  | pulled (page : DeliveryResponse)
  | closed

inductive Frame where
  | acknowledgement (text : String)
  | page (d : DeliveryResponse)

inductive LiveAction where
  | listen (stream : String)
  | send (frame : Frame)
  | pull (request : DeltaRequest)

structure StreamState where
  stream : String
  cursor : Nat
  pending : Bool

/-- `Live05Progress`: the units of a plan forwarded so far, and the parts of the next one. -/
structure LiveProgress where
  header : DeliveryHeader
  nextUnit : Nat := 0
  parts : List Nat := []

structure Subscriptions where
  context : RequestContext
  progress : Option LiveProgress := none
  streams : StreamState
  running : Option (Table String Nat)
  closed : Bool := false

/-- `Subscriptions::open05` (live.rs:75). -/
def Subscriptions.open05 (context : RequestContext) (head : Nat) (response : String) : Subscriptions × List LiveAction :=
  ({ context
     streams := ⟨context.stream, head, false⟩
     running := some [(context.stream, head)] },
   [.listen context.stream, .send (.acknowledgement response), .pull ⟨context, head, head, false⟩])

/-- `LiveEvent::Committed` (live.rs:119-136). -/
def Subscriptions.committed (s : Subscriptions) (stream : String) : Except String (Subscriptions × List LiveAction) := do
  check (s.streams.stream = stream) "live.invalid_event"
  match s.running with
  | some _ => return ({ s with streams := { s.streams with pending := true } }, [])
  | none =>
    return ({ s with
      streams := { s.streams with pending := false }
      running := some [(stream, s.streams.cursor)] }, [.pull ⟨s.context, s.streams.cursor, s.streams.cursor, false⟩])

/-- `BTreeSet::insert`. -/
def insertPart (parts : List Nat) (i : Nat) : List Nat := if i ∈ parts then parts else i :: parts

/-- One part of a page (live.rs:162-179): the cursor moves when its unit is complete. -/
def LiveProgress.add (e : LiveProgress × Nat) (part : DeliveryPart) : Except String (LiveProgress × Nat) := do
  check (part.unit = e.1.nextUnit) "live.invalid_page"
  verifyIndexedPart e.1.header part
  let parts := insertPart e.1.parts part.part
  match e.1.header.units[e.1.nextUnit]? with
  | none => .error "live.invalid_page"
  | some manifest =>
    if parts.length = manifest.parts.length then
      return ({ e.1 with nextUnit := e.1.nextUnit + 1, parts := [] }, manifest.through.getD e.2)
    else return ({ e.1 with parts }, e.2)

/-- The plan a page belongs to: a new one, or the one in progress (live.rs:148-161). -/
def Subscriptions.plan (s : Subscriptions) (header : DeliveryHeader) : Except String LiveProgress :=
  match s.progress with
  | none => do
    header.validate
    return { header }
  | some progress => do
    check (progress.header.planId = header.planId && progress.header.digest = header.digest) "live.invalid_page"
    return progress

/-- `LiveEvent::Pulled` (live.rs:137-197). -/
def Subscriptions.pulled (s : Subscriptions) (d : DeliveryResponse) : Except String (Subscriptions × List LiveAction) := do
  check (s.running.isSome && d.header.context = s.context && !d.header.bootstrap && d.header.owner.isNone &&
    d.header.after = s.running.bind (·.get s.context.stream)) "live.invalid_page"
  let progress ← s.plan d.header
  let (progress, cursor) ← d.parts.foldlM LiveProgress.add (progress, s.streams.cursor)
  let s := { s with progress := some progress, streams := { s.streams with cursor } }
  let frame : LiveAction := .send (.page ⟨progress.header, d.parts⟩)
  if progress.nextUnit = progress.header.units.length then do
    let s := { s with progress := none, running := none }
    if s.streams.pending || decide (cursor < progress.header.observedHead) then do
      let (s, actions) ← s.committed s.context.stream
      return (s, frame :: actions)
    else return (s, [frame])
  else return (s, [frame])

/-- `Subscriptions::handle05` (live.rs:107). -/
def Subscriptions.handle (s : Subscriptions) : LiveEvent → Except String (Subscriptions × List LiveAction)
  | e => if s.closed then .ok (s, []) else match e with
    | .closed => .ok ({ s with closed := true, progress := none }, [])
    | .committed stream => s.committed stream
    | .pulled page => s.pulled page

/-! ## The socket and its host -/

/-- The parts a list of actions sends, each with its plan. -/
def sentParts (actions : List LiveAction) : List (DeliveryHeader × DeliveryPart) :=
  actions.flatMap fun
    | .send (.page d) => d.parts.map fun p => (d.header, p)
    | _ => []

def LiveAction.isPull : LiveAction → Bool
  | .pull _ => true
  | _ => false

/-- The plan that is complete once the socket has dropped its progress. -/
def completedPlan (s : Subscriptions) (actions : List LiveAction) : Option DeliveryHeader :=
  if s.progress.isSome then none else actions.findSome? fun
    | .send (.page d) => some d.header
    | _ => none

/-- A socket with what its host has seen: the head of the Stream, the highest head a commit was reported
for, the head at which the last pull was asked, the pulls asked and finished, the head the last complete
plan observed, and the parts sent. -/
structure Drain where
  socket : Subscriptions
  head : Nat
  reported : Nat := 0
  asked : Nat
  pulls : Nat
  finished : Nat := 0
  observed : Option Nat := none
  sent : List (DeliveryHeader × DeliveryPart) := []

namespace Drain

/-- The host carries out the actions of one event. -/
def act (d : Drain) (reported : Nat) (s : Subscriptions) (actions : List LiveAction) : Drain where
  socket := s
  head := d.head
  reported := reported
  asked := if actions.any (·.isPull) then d.head else d.asked
  pulls := d.pulls + actions.countP (·.isPull)
  finished := d.finished + if (completedPlan s actions).isSome then 1 else 0
  observed := (completedPlan s actions).elim d.observed fun h => some h.observedHead
  sent := d.sent ++ sentParts actions

/-- A socket opened at the negotiated head while the Stream stands at `now`. -/
def opened (context : RequestContext) (head now : Nat) (response : String) : Drain where
  socket := (Subscriptions.open05 context head response).1
  head := now
  asked := now
  pulls := (Subscriptions.open05 context head response).2.countP (·.isPull)

/-- One event. Commits are reported after they happened, in any order; a page is computed at a head that
is not below the one at which it was asked for. -/
inductive Step : Drain → Option (LiveEvent × List LiveAction) → Drain → Prop
  | advance (d : Drain) {head : Nat} : d.head ≤ head → Step d none { d with head }
  | report (d : Drain) {stream : String} {head : Nat} {s : Subscriptions} {actions : List LiveAction} :
      head ≤ d.head → d.socket.handle (.committed stream) = .ok (s, actions) →
      Step d (some (.committed stream, actions)) (d.act (max d.reported head) s actions)
  | answer (d : Drain) {page : DeliveryResponse} {s : Subscriptions} {actions : List LiveAction} :
      d.asked ≤ page.header.observedHead → d.socket.handle (.pulled page) = .ok (s, actions) →
      Step d (some (.pulled page, actions)) (d.act d.reported s actions)
  | close (d : Drain) {s : Subscriptions} {actions : List LiveAction} :
      d.socket.handle .closed = .ok (s, actions) → Step d (some (.closed, actions)) (d.act d.reported s actions)

end Drain

/-! ## Coverage of what was sent -/

/-- Every part of a unit was sent. -/
def UnitSent (sent : List (DeliveryHeader × DeliveryPart)) (h : DeliveryHeader) (n : Nat) : Prop :=
  ∀ m, h.units[n]? = some m → ∀ i < m.parts.length, ∃ p, (h, p) ∈ sent ∧ p.unit = n ∧ p.part = i

/-- A position up to which everything since `start` was sent: `start` itself, and the boundary of a unit
that was sent with the units before it, in a plan that begins at such a position. -/
inductive Streamed (sent : List (DeliveryHeader × DeliveryPart)) (start : Nat) : Nat → Prop
  | opened : Streamed sent start start
  | unit {h : DeliveryHeader} {after n c : Nat} {m : UnitManifest} : Streamed sent start after → h.after = some after →
      (∀ j ≤ n, UnitSent sent h j) → h.units[n]? = some m → m.through = some c → Streamed sent start c

variable {sent more : List (DeliveryHeader × DeliveryPart)} {start c : Nat} {h : DeliveryHeader}

theorem UnitSent.mono {n : Nat} (hs : UnitSent sent h n) : UnitSent (sent ++ more) h n := by
  intro m hm i hi
  obtain ⟨p, hp, hu⟩ := hs m hm i hi
  exact ⟨p, List.mem_append_left _ hp, hu⟩

theorem Streamed.mono (hs : Streamed sent start c) : Streamed (sent ++ more) start c := by
  induction hs with
  | opened => exact .opened
  | unit _ ha hsent hm ht ih => exact .unit ih ha (fun j hj => (hsent j hj).mono) hm ht

/-! ## Inside a plan -/

/-- A plan in progress: the units before `nextUnit` are sent, the cursor is their boundary, and the parts
of the next unit that are marked are sent. -/
structure InPlan (sent : List (DeliveryHeader × DeliveryPart)) (start : Nat) (e : LiveProgress × Nat) : Prop where
  began : ∃ a, e.1.header.after = some a ∧ Streamed sent start a
  streamed : Streamed sent start e.2
  rest : validateManifests e.1.header.toHeaderBody (e.1.header.units.drop e.1.nextUnit) (some e.2) = .ok ()
  units : ∀ j < e.1.nextUnit, UnitSent sent e.1.header j
  nodup : e.1.parts.Nodup
  parts : ∀ i ∈ e.1.parts, ∃ p, (e.1.header, p) ∈ sent ∧ p.unit = e.1.nextUnit ∧ p.part = i ∧
    (e.1.header.partDigest e.1.nextUnit i).isSome

theorem InPlan.mono {e : LiveProgress × Nat} (hp : InPlan sent start e) : InPlan (sent ++ more) start e where
  began := hp.began.imp fun _ ha => ⟨ha.1, ha.2.mono⟩
  streamed := hp.streamed.mono
  rest := hp.rest
  units j hj := (hp.units j hj).mono
  nodup := hp.nodup
  parts i hi := by
    obtain ⟨p, hp, hu⟩ := hp.parts i hi
    exact ⟨p, List.mem_append_left _ hp, hu⟩

theorem mem_insertPart {parts : List Nat} {i j : Nat} : j ∈ insertPart parts i ↔ j = i ∨ j ∈ parts := by
  unfold insertPart
  split
  · rename_i hi
    exact ⟨.inr, fun h => h.elim (fun he => he ▸ hi) id⟩
  · exact List.mem_cons

theorem nodup_insertPart {parts : List Nat} (hn : parts.Nodup) (i : Nat) : (insertPart parts i).Nodup := by
  unfold insertPart
  split
  · exact hn
  · rename_i hi
    exact List.nodup_cons.2 ⟨hi, hn⟩

/-- As many different indices as there are parts are all of them. -/
theorem mem_of_full {parts : List Nat} {n : Nat} (hn : parts.Nodup) (hlt : ∀ i ∈ parts, i < n)
    (hlen : parts.length = n) {i : Nat} (hi : i < n) : i ∈ parts := by
  have hsub : parts ⊆ List.range n := fun j hj => List.mem_range.2 (hlt j hj)
  have hperm : parts.Perm (List.range n) := (List.subperm_of_subset hn hsub).perm_of_length_le (by simp [hlen])
  exact hperm.mem_iff.2 (List.mem_range.2 hi)

theorem lt_of_partDigest {n i : Nat} {m : UnitManifest} (hm : h.units[n]? = some m)
    (hd : (h.partDigest n i).isSome) : i < m.parts.length := by
  unfold HeaderBody.partDigest at hd
  rw [hm] at hd
  simpa using hd

/-- One part keeps the plan and never moves the cursor back. -/
theorem InPlan.add {e e' : LiveProgress × Nat} {part : DeliveryPart} (hp : InPlan sent start e)
    (hadd : LiveProgress.add e part = .ok e') :
    e'.1.header = e.1.header ∧ e.2 ≤ e'.2 ∧ InPlan (sent ++ [(e.1.header, part)]) start e' := by
  obtain ⟨progress, cursor⟩ := e
  simp only [LiveProgress.add, bind_ok, check_ok, decide_eq_true_eq] at hadd
  obtain ⟨_, hunit, _, hverify, hadd⟩ := hadd
  simp only [verifyIndexedPart, bind_ok, check_ok, Bool.and_eq_true, decide_eq_true_eq] at hverify
  obtain ⟨_, _, ⟨⟨⟨-, -⟩, hnames⟩, -⟩⟩ := hverify
  have hdigest : (progress.header.partDigest progress.nextUnit part.part).isSome := by
    obtain ⟨d, hd, -⟩ := (Option.any_eq_true _ _).1 hnames
    rw [← hunit, hd]
    rfl
  have hp' : InPlan (sent ++ [(progress.header, part)]) start (progress, cursor) := hp.mono
  -- the parts marked so far, with this one
  have marked : ∀ i ∈ insertPart progress.parts part.part, ∃ p,
      (progress.header, p) ∈ sent ++ [(progress.header, part)] ∧ p.unit = progress.nextUnit ∧ p.part = i ∧
        (progress.header.partDigest progress.nextUnit i).isSome := by
    intro i hi
    rcases mem_insertPart.1 hi with rfl | hi
    · exact ⟨part, by simp, hunit, rfl, hdigest⟩
    · exact hp'.parts i hi
  split at hadd
  · cases hadd
  · rename_i m hm
    have hdrop : progress.header.units.drop progress.nextUnit = m :: progress.header.units.drop (progress.nextUnit + 1) := by
      rw [List.drop_eq_getElem?_toList_append, hm]
      rfl
    split at hadd
    · -- the unit is complete
      rename_i hfull
      cases hadd
      have hsent : UnitSent (sent ++ [(progress.header, part)]) progress.header progress.nextUnit := by
        intro m' hm' i hi
        rw [hm] at hm'
        cases hm'
        have hmem := mem_of_full (nodup_insertPart hp.nodup _)
          (fun j hj => lt_of_partDigest hm (marked j hj).choose_spec.2.2.2) hfull hi
        obtain ⟨p, hmem, hu, hi', -⟩ := marked i hmem
        exact ⟨p, hmem, hu, hi'⟩
      have hunits : ∀ j < progress.nextUnit + 1, UnitSent (sent ++ [(progress.header, part)]) progress.header j := by
        intro j hj
        rcases Nat.lt_succ_iff_lt_or_eq.1 hj with hlt | rfl
        · exact hp'.units j hlt
        · exact hsent
      have hrest := hp.rest
      simp only [hdrop, validateManifests, bind_ok] at hrest
      obtain ⟨_, _, _, _, hrest⟩ := hrest
      cases hthrough : m.through with
      | none =>
        rw [hthrough] at hrest
        refine ⟨rfl, le_refl _, hp'.began, ?_, hrest, hunits, List.nodup_nil, nofun⟩
        simpa using hp'.streamed
      | some t =>
        rw [hthrough] at hrest
        simp only [bind_ok, check_ok, Bool.and_eq_true, Option.any_some, decide_eq_true_eq] at hrest
        obtain ⟨_, ⟨⟨⟨⟨-, hle⟩, -⟩, -⟩, -⟩, hrest⟩ := hrest
        obtain ⟨a, ha, hsa⟩ := hp'.began
        refine ⟨rfl, hle, hp'.began, ?_, hrest, hunits, List.nodup_nil, nofun⟩
        exact .unit hsa ha (fun j hj => hunits j (Nat.lt_succ_of_le hj)) hm hthrough
    · cases hadd
      exact ⟨rfl, le_refl _, hp'.began, hp'.streamed, hp'.rest, hp'.units, nodup_insertPart hp.nodup _, marked⟩

/-- A whole page. -/
theorem InPlan.addAll : ∀ {parts : List DeliveryPart} {sent : List (DeliveryHeader × DeliveryPart)}
    {e e' : LiveProgress × Nat}, InPlan sent start e → parts.foldlM LiveProgress.add e = .ok e' →
    e'.1.header = e.1.header ∧ e.2 ≤ e'.2 ∧ InPlan (sent ++ parts.map fun p => (e.1.header, p)) start e'
  | [], sent, e, e', hp, hrun => by
    simp only [List.foldlM_nil, pure_ok] at hrun
    subst hrun
    exact ⟨rfl, le_refl _, by simpa using hp⟩
  | part :: parts, sent, e, e', hp, hrun => by
    simp only [List.foldlM_cons, bind_ok] at hrun
    obtain ⟨e₁, hadd, hrun⟩ := hrun
    obtain ⟨hh, hle, hp₁⟩ := hp.add hadd
    obtain ⟨hh', hle', hp'⟩ := hp₁.addAll hrun
    refine ⟨hh'.trans hh, hle.trans hle', ?_⟩
    rw [hh] at hp'
    simpa using hp'

/-! ## The invariant -/

namespace Drain

/-- A drain that began at `start`. The last three fields are about an open socket: without a pull there is
nothing left to do, and with one either a commit is pending or every reported commit was below the head at
which the pull was asked. -/
structure Inv (start : Nat) (d : Drain) : Prop where
  stream : d.socket.streams.stream = d.socket.context.stream
  streamed : Streamed d.sent start d.socket.streams.cursor
  counted : d.pulls = d.finished + if d.socket.running.isSome then 1 else 0
  reported : d.reported ≤ d.head
  asked : d.asked ≤ d.head
  idle : d.socket.closed = false → d.socket.running = none → d.socket.streams.pending = false ∧
    ∃ h, d.observed = some h ∧ h ≤ d.socket.streams.cursor ∧ d.reported ≤ h
  asking : d.socket.closed = false → d.socket.running.isSome → d.socket.streams.pending = true ∨ d.reported ≤ d.asked
  plan : d.socket.closed = false → match d.socket.progress with
    | none => ∀ r, d.socket.running = some r → r.get d.socket.context.stream = some d.socket.streams.cursor
    | some p => d.socket.running.isSome ∧ d.asked ≤ p.header.observedHead ∧
        InPlan d.sent start (p, d.socket.streams.cursor)

variable {d d' : Drain}

theorem inv_opened (context : RequestContext) (head now : Nat) (response : String) :
    Inv head (opened context head now response) where
  stream := rfl
  streamed := .opened
  counted := rfl
  reported := Nat.zero_le _
  asked := le_refl _
  idle _ hr := by cases hr
  asking _ _ := .inr (Nat.zero_le _)
  plan _ r hr := by
    cases hr
    simp [opened, Subscriptions.open05, Table.get]

/-- The head of the Stream matters only as a bound. -/
theorem Inv.advance {head : Nat} (inv : Inv start d) (hle : d.head ≤ head) : Inv start { d with head } :=
  { inv with reported := inv.reported.trans hle, asked := inv.asked.trans hle }

/-- What `LiveEvent::Committed` does on an open socket. -/
theorem committed_cases {s s' : Subscriptions} {stream : String} {actions : List LiveAction}
    (h : s.committed stream = .ok (s', actions)) : s.streams.stream = stream ∧
      ((s.running.isSome ∧ actions = [] ∧ s' = { s with streams := { s.streams with pending := true } }) ∨
        (s.running = none ∧ (∃ q, actions = [.pull q]) ∧ s' = { s with
          streams := { s.streams with pending := false }
          running := some [(stream, s.streams.cursor)] })) := by
  simp only [Subscriptions.committed, bind_ok, check_ok, decide_eq_true_eq] at h
  obtain ⟨_, hstream, h⟩ := h
  refine ⟨hstream, ?_⟩
  split at h
  · rename_i r hr
    cases h
    exact .inl ⟨by rw [hr]; rfl, rfl, rfl⟩
  · rename_i hr
    cases h
    exact .inr ⟨hr, ⟨_, rfl⟩, rfl⟩

/-- A reported commit is left pending, or a pull is asked for it at once. -/
theorem Inv.committed {stream : String} {head : Nat} {s : Subscriptions} {actions : List LiveAction}
    (inv : Inv start d) (hopen : d.socket.closed = false) (hhead : head ≤ d.head)
    (h : d.socket.committed stream = .ok (s, actions)) : Inv start (d.act (max d.reported head) s actions) := by
  have hbound : max d.reported head ≤ d.head := max_le inv.reported hhead
  obtain ⟨hstream, ⟨hrun, rfl, rfl⟩ | ⟨hrun, ⟨q, rfl⟩, rfl⟩⟩ := committed_cases h
  · have hplan := inv.plan hopen
    refine ⟨inv.stream, ?_, ?_, hbound, inv.asked, ?_, fun _ _ => .inl rfl, ?_⟩
    · simpa [act, sentParts] using inv.streamed
    · simpa [act, completedPlan] using inv.counted
    · intro _ hnone
      simp only [act] at hnone
      rw [hnone] at hrun
      cases hrun
    · intro _
      simpa [act, sentParts] using hplan
  · obtain ⟨-, h₀, hobs, -, -⟩ := inv.idle hopen hrun
    have hprogress : d.socket.progress = none := by
      have hplan := inv.plan hopen
      cases hp : d.socket.progress with
      | none => rfl
      | some p =>
        rw [hp] at hplan
        simp only [hrun] at hplan
        cases hplan.1
    refine ⟨inv.stream, ?_, ?_, hbound, ?_, fun _ hnone => ?_, fun _ _ => .inr ?_, fun _ => ?_⟩
    · simpa [act, sentParts] using inv.streamed
    · have := inv.counted
      simpa [act, completedPlan, hprogress, hrun, LiveAction.isPull] using this
    · simp [act, LiveAction.isPull]
    · cases hnone
    · simpa [act, LiveAction.isPull] using hbound
    · simp only [act, hprogress]
      intro r hr
      cases hr
      simp [Table.get, ← inv.stream, hstream]

/-- The plan a page belongs to is in progress at the cursor. -/
theorem Inv.plan_inPlan {header : DeliveryHeader} {p : LiveProgress} (inv : Inv start d)
    (hopen : d.socket.closed = false) (hrun : d.socket.running.isSome) (hasked : d.asked ≤ header.observedHead)
    (hafter : header.after = d.socket.running.bind (·.get d.socket.context.stream))
    (h : d.socket.plan header = .ok p) :
    d.asked ≤ p.header.observedHead ∧ InPlan d.sent start (p, d.socket.streams.cursor) := by
  have hplan := inv.plan hopen
  unfold Subscriptions.plan at h
  cases hp : d.socket.progress with
  | none =>
    simp only [hp, bind_ok, pure_ok] at h hplan
    obtain ⟨⟨⟩, hvalid, rfl⟩ := h
    obtain ⟨r, hr⟩ := Option.isSome_iff_exists.1 hrun
    rw [hr, Option.bind_some, hplan r hr] at hafter
    refine ⟨hasked, ⟨_, hafter, inv.streamed⟩, inv.streamed, ?_, by simp, List.nodup_nil, by simp⟩
    rw [← hafter]
    simp only [DeliveryHeader.validate, bind_ok] at hvalid
    obtain ⟨_, _, _, _, _, _, _, _, _, _, ⟨⟩, hmanifests, _⟩ := hvalid
    exact hmanifests
  | some progress =>
    simp only [hp, bind_ok, pure_ok] at h hplan
    obtain ⟨_, _, rfl⟩ := h
    exact hplan.2

/-- What `LiveEvent::Pulled` does: the page is forwarded, and when it completes its plan the next pull is
asked unless nothing is left. -/
theorem pulled_cases {s s' : Subscriptions} {page : DeliveryResponse} {actions : List LiveAction}
    (h : s.pulled page = .ok (s', actions)) :
    s.running.isSome ∧ page.header.after = s.running.bind (·.get s.context.stream) ∧
      ∃ p₀ p cursor, s.plan page.header = .ok p₀ ∧
        page.parts.foldlM LiveProgress.add (p₀, s.streams.cursor) = .ok (p, cursor) ∧
        ((p.nextUnit ≠ p.header.units.length ∧ actions = [.send (.page ⟨p.header, page.parts⟩)] ∧
            s' = { s with progress := some p, streams := { s.streams with cursor } }) ∨
          (s.streams.pending = false ∧ p.header.observedHead ≤ cursor ∧
            actions = [.send (.page ⟨p.header, page.parts⟩)] ∧
            s' = { s with progress := none, running := none, streams := { s.streams with cursor } }) ∨
          ∃ q, actions = [.send (.page ⟨p.header, page.parts⟩), .pull q] ∧
            s' = { s with
              progress := none
              running := some [(s.context.stream, cursor)]
              streams := { s.streams with cursor, pending := false } }) := by
  simp only [Subscriptions.pulled, bind_ok, check_ok, Bool.and_eq_true, decide_eq_true_eq] at h
  obtain ⟨_, ⟨⟨⟨⟨hrun, -⟩, -⟩, -⟩, hafter⟩, p₀, hplan, ⟨p, cursor⟩, hloop, h⟩ := h
  refine ⟨hrun, hafter, p₀, p, cursor, hplan, hloop, ?_⟩
  split at h
  · split at h
    · right; right
      simp only [bind_ok, pure_ok] at h
      obtain ⟨⟨s₁, more⟩, hcommitted, h⟩ := h
      cases h
      obtain ⟨-, ⟨hr, -⟩ | ⟨-, ⟨q, rfl⟩, rfl⟩⟩ := committed_cases hcommitted
      · cases hr
      · exact ⟨q, rfl, rfl⟩
    · rename_i hdone
      right; left
      cases h
      simp only [Bool.or_eq_true, decide_eq_true_eq, not_or, Bool.not_eq_true, not_lt] at hdone
      exact ⟨hdone.1, hdone.2, rfl, rfl⟩
  · rename_i hmore
    left
    cases h
    exact ⟨hmore, rfl, rfl⟩

/-- A page keeps the invariant, and the cursor does not move back. -/
theorem Inv.pulled {page : DeliveryResponse} {s : Subscriptions} {actions : List LiveAction} (inv : Inv start d)
    (hopen : d.socket.closed = false) (hasked : d.asked ≤ page.header.observedHead)
    (h : d.socket.pulled page = .ok (s, actions)) :
    Inv start (d.act d.reported s actions) ∧ d.socket.streams.cursor ≤ s.streams.cursor := by
  obtain ⟨hrun, hafter, p₀, p, cursor, hplan, hloop, hcases⟩ := pulled_cases h
  obtain ⟨hasked₀, hin₀⟩ := inv.plan_inPlan hopen hrun hasked hafter hplan
  obtain ⟨hheader, hle, hin⟩ := hin₀.addAll hloop
  simp only at hheader hle hin
  rw [← hheader] at hasked₀ hin
  have hcounted := inv.counted
  rw [if_pos hrun] at hcounted
  have hreported := inv.asking hopen hrun
  rcases hcases with ⟨hmore, rfl, rfl⟩ | ⟨hpending, hobs, rfl, rfl⟩ | ⟨q, rfl, rfl⟩
  · refine ⟨⟨inv.stream, ?_, ?_, inv.reported, inv.asked, fun _ hnone => ?_, fun _ _ => hreported, fun _ => ?_⟩, hle⟩
    · simpa [act, sentParts] using hin.streamed
    · simpa [act, completedPlan, LiveAction.isPull, hrun] using hcounted
    · simp only [act] at hnone
      rw [hnone] at hrun
      cases hrun
    · refine ⟨hrun, hasked₀, ?_⟩
      simpa [act, sentParts] using hin
  · refine ⟨⟨inv.stream, ?_, ?_, inv.reported, inv.asked, fun _ _ => ⟨hpending, ?_⟩, fun _ hr => ?_, fun _ => ?_⟩, hle⟩
    · simpa [act, sentParts] using hin.streamed
    · simpa [act, completedPlan, LiveAction.isPull] using hcounted
    · refine ⟨p.header.observedHead, rfl, hobs, ?_⟩
      rw [hpending] at hreported
      rcases hreported with hfalse | hreported
      · cases hfalse
      · exact hreported.trans hasked₀
    · cases hr
    · intro r hr
      cases hr
  · refine ⟨⟨inv.stream, ?_, ?_, inv.reported, ?_, fun _ hnone => ?_, fun _ _ => .inr ?_, fun _ => ?_⟩, hle⟩
    · simpa [act, sentParts] using hin.streamed
    · simpa [act, completedPlan, LiveAction.isPull] using hcounted
    · simp [act, LiveAction.isPull]
    · cases hnone
    · simpa [act, LiveAction.isPull] using inv.reported
    · intro r hr
      cases hr
      simp [act, Table.get]

/-- Nothing happens on a closed socket. -/
theorem handle_closed {s : Subscriptions} (h : s.closed = true) (e : LiveEvent) : s.handle e = .ok (s, []) := by
  simp [Subscriptions.handle, h]

theorem handle_open {s : Subscriptions} (h : s.closed = false) (e : LiveEvent) : s.handle e = match e with
    | .closed => .ok ({ s with closed := true, progress := none }, [])
    | .committed stream => s.committed stream
    | .pulled page => s.pulled page := by
  simp [Subscriptions.handle, h]

/-- A closed socket keeps what it had sent. -/
theorem Inv.closed {reported : Nat} {s : Subscriptions} (inv : Inv start d) (hreported : reported ≤ d.head)
    (hs : s = { d.socket with closed := true, progress := s.progress }) : Inv start (d.act reported s []) := by
  rw [hs]
  refine ⟨inv.stream, ?_, ?_, hreported, inv.asked, nofun, nofun, nofun⟩
  · simpa [act, sentParts] using inv.streamed
  · simpa [act, completedPlan] using inv.counted

/-- **Every event keeps the invariant, and the cursor never moves back.** -/
theorem Inv.step {o : Option (LiveEvent × List LiveAction)} (inv : Inv start d) (h : Step d o d') :
    Inv start d' ∧ d.socket.streams.cursor ≤ d'.socket.streams.cursor := by
  cases h with
  | advance hle => exact ⟨inv.advance hle, le_refl _⟩
  | @report stream head s actions hhead h =>
    have hbound : max d.reported head ≤ d.head := max_le inv.reported hhead
    by_cases hc : d.socket.closed = true
    · rw [handle_closed hc] at h
      cases h
      exact ⟨inv.closed hbound (by cases hd : d.socket; simp_all), le_refl _⟩
    · have hopen : d.socket.closed = false := by simpa using hc
      rw [handle_open hopen] at h
      refine ⟨inv.committed hopen hhead h, ?_⟩
      obtain ⟨-, ⟨-, -, rfl⟩ | ⟨-, -, rfl⟩⟩ := committed_cases h <;> exact le_refl _
  | @answer page s actions hasked h =>
    by_cases hc : d.socket.closed = true
    · rw [handle_closed hc] at h
      cases h
      exact ⟨inv.closed inv.reported (by cases hd : d.socket; simp_all), le_refl _⟩
    · have hopen : d.socket.closed = false := by simpa using hc
      rw [handle_open hopen] at h
      exact inv.pulled hopen hasked h
  | @close s actions h =>
    by_cases hc : d.socket.closed = true
    · rw [handle_closed hc] at h
      cases h
      exact ⟨inv.closed inv.reported (by cases hd : d.socket; simp_all), le_refl _⟩
    · have hopen : d.socket.closed = false := by simpa using hc
      rw [handle_open hopen] at h
      cases h
      exact ⟨inv.closed inv.reported rfl, le_refl _⟩

theorem Inv.runs {os : List (Option (LiveEvent × List LiveAction))} (inv : Inv start d) (h : Trace Step d os d') :
    Inv start d' ∧ d.socket.streams.cursor ≤ d'.socket.streams.cursor := by
  induction h with
  | nil => exact ⟨inv, le_refl _⟩
  | snoc _ hstep ih =>
    obtain ⟨inv', hle⟩ := ih.1.step hstep
    exact ⟨inv', ih.2.trans hle⟩

/-! ## Pending commits -/

/-- The event asked for a pull. -/
def asks (o : Option (LiveEvent × List LiveAction)) : Bool := o.any fun e => e.2.any (·.isPull)

/-- A commit waits for the pull in progress. -/
def Waiting (d : Drain) : Prop := d.socket.streams.pending = true ∧ d.socket.running.isSome

/-- A waiting commit waits until the socket closes or asks for a pull. -/
theorem waiting_step {o : Option (LiveEvent × List LiveAction)} (h : Step d o d') (hask : asks o = false)
    (hopen' : d'.socket.closed = false) (hw : d.socket.closed = false → d.Waiting) : d'.Waiting := by
  have stays : ∀ {e s actions}, d.socket.closed = true → d.socket.handle e = .ok (s, actions) → s.closed = true := by
    intro e s actions hc h
    rw [handle_closed hc] at h
    cases h
    exact hc
  cases h with
  | advance hle => exact hw hopen'
  | @report stream head s actions hhead h =>
    by_cases hc : d.socket.closed = true
    · exact absurd hopen' (by simp [act, stays hc h])
    · have hopen : d.socket.closed = false := by simpa using hc
      rw [handle_open hopen] at h
      obtain ⟨-, ⟨hrun, -, rfl⟩ | ⟨-, ⟨q, rfl⟩, rfl⟩⟩ := committed_cases h
      · exact ⟨rfl, hrun⟩
      · simp [asks, LiveAction.isPull] at hask
  | @answer page s actions hasked h =>
    by_cases hc : d.socket.closed = true
    · exact absurd hopen' (by simp [act, stays hc h])
    · have hopen : d.socket.closed = false := by simpa using hc
      rw [handle_open hopen] at h
      obtain ⟨-, -, p₀, p, cursor, -, -, ⟨-, rfl, rfl⟩ | ⟨hpending, -⟩ | ⟨q, rfl, rfl⟩⟩ := pulled_cases h
      · exact hw hopen
      · rw [(hw hopen).1] at hpending
        cases hpending
      · simp [asks, LiveAction.isPull] at hask
  | @close s actions h =>
    by_cases hc : d.socket.closed = true
    · exact absurd hopen' (by simp [act, stays hc h])
    · have hopen : d.socket.closed = false := by simpa using hc
      rw [handle_open hopen] at h
      cases h
      cases hopen'

theorem waiting_runs {os : List (Option (LiveEvent × List LiveAction))} (h : Trace Step d os d')
    (hask : ∀ o ∈ os, asks o = false) (hopen' : d'.socket.closed = false) (hw : d.socket.closed = false → d.Waiting) :
    d'.Waiting := by
  induction h with
  | nil => exact hw hopen'
  | snoc _ hstep ih =>
    have hold : ∀ o ∈ _, asks o = false := fun o ho => hask o (List.mem_append_left _ ho)
    exact waiting_step hstep (hask _ (by simp)) hopen' fun hopen => ih hold hopen

end Drain

/-- **The live drain never loses a commit.** Take any run of a socket opened at `head`, and two states `u`
and then `v` of it. At most one pull is outstanding; the cursor does not move back, and everything up to it
was sent; when no pull is outstanding on an open socket, nothing is pending and the cursor has reached the
head the last plan observed, which is at least that of every reported commit. A commit reported in `u`
while a pull was outstanding causes a later pull. -/
theorem live_drain {context : RequestContext} {head now : Nat} {response : String}
    {os ps : List (Option (LiveEvent × List LiveAction))} {u v : Drain}
    (hu : Trace Drain.Step (Drain.opened context head now response) os u) (hv : Trace Drain.Step u ps v) :
    v.pulls ≤ v.finished + 1 ∧
      u.socket.streams.cursor ≤ v.socket.streams.cursor ∧ Streamed v.sent head v.socket.streams.cursor ∧
      (v.socket.closed = false → v.pulls = v.finished → v.socket.streams.pending = false ∧
        ∃ h, v.observed = some h ∧ h ≤ v.socket.streams.cursor ∧ v.reported ≤ h) ∧
      (v.socket.closed = false → v.pulls = v.finished → ∀ stream actions w qs,
        Drain.Step u (some (.committed stream, actions)) w → Trace Drain.Step w qs v → u.pulls ≠ u.finished →
        ∃ o ∈ qs, Drain.asks o = true) := by
  obtain ⟨invU, -⟩ := (Drain.inv_opened context head now response).runs hu
  obtain ⟨inv, hle⟩ := invU.runs hv
  have hidle : v.pulls = v.finished → v.socket.running = none := by
    intro heq
    have := inv.counted
    split at this
    · omega
    · rename_i hrun
      simpa using hrun
  refine ⟨?_, hle, inv.streamed, fun hopen heq => inv.idle hopen (hidle heq), ?_⟩
  · have := inv.counted
    split at this <;> omega
  · intro hopen heq stream actions w qs hcommit hqs hbusy
    by_contra hnone
    push Not at hnone
    have hrunning : u.socket.running.isSome := by
      have := invU.counted
      split at this
      · assumption
      · omega
    -- the commit found a pull in progress, so it waits
    have hw : w.socket.closed = false → w.Waiting := by
      intro hopenW
      cases hcommit with
      | @report _ h' s _ hhead h =>
        by_cases hc : u.socket.closed = true
        · rw [Drain.handle_closed hc] at h
          cases h
          exact absurd hopenW (by simp [Drain.act, hc])
        · have hopenU : u.socket.closed = false := by simpa using hc
          rw [Drain.handle_open hopenU] at h
          obtain ⟨-, ⟨hrun, -, rfl⟩ | ⟨hrun, -⟩⟩ := Drain.committed_cases h
          · exact ⟨rfl, hrun⟩
          · rw [hrun] at hrunning
            cases hrunning
    have hwait := Drain.waiting_runs hqs (fun o ho => by simpa using hnone o ho) hopen hw
    have hrun := hwait.2
    rw [hidle heq] at hrun
    cases hrun

end Server

namespace Notes

open Server

def liveContext : RequestContext := { storeId := "store", stream := "user", materialization := "m-notes" }

/-- A page of the live drain: note `a` at position 7, read at head 7. -/
def livePage : Except String FrozenDelivery :=
  freeze liveContext "page" false none (some 5) (some 7) 7 0
    [⟨0, some 7, [.record ⟨"note", .obj [("id", .str "a")]⟩ 7 (.obj [("title", .str "x")])]⟩] 500

theorem livePage_isSome : livePage.toOption.isSome = true := by decide +kernel

def liveAnswer : DeliveryResponse :=
  ⟨(livePage.toOption.get livePage_isSome).header, (livePage.toOption.get livePage_isSome).parts⟩

/-- Opened at head 5 when the Stream stands at 6; a commit at 7 is reported during the first pull. -/
def liveStart : Drain := .opened liveContext 5 6 "ready"

def liveReported : Drain :=
  ({ liveStart with head := 7 } : Drain).act (max 0 7)
    { liveStart.socket with streams := ⟨"user", 5, true⟩ } []

theorem live_reports : Drain.Step { liveStart with head := 7 } (some (.committed "user", [])) liveReported :=
  .report _ (le_refl _) rfl

def liveDrained : Subscriptions × List LiveAction :=
  (liveReported.socket.handle (.pulled liveAnswer)).toOption.getD (liveReported.socket, [])

theorem live_answers : Drain.Step liveReported (some (.pulled liveAnswer, liveDrained.2))
    (liveReported.act 7 liveDrained.1 liveDrained.2) := by
  refine .answer _ (by decide +kernel) (ok_of_toOption ?_)
  have hsome : (liveReported.socket.handle (.pulled liveAnswer)).toOption.isSome = true := by decide +kernel
  obtain ⟨x, hx⟩ := Option.isSome_iff_exists.1 hsome
  rw [hx, liveDrained, hx]
  rfl

end Notes

/-- The commit at 7 was reported while the first pull was outstanding; the page covers it, and a second
pull is asked for. -/
theorem live_drain_note :
    (Notes.liveReported.act 7 Notes.liveDrained.1 Notes.liveDrained.2).socket.streams.cursor = 7 ∧
      (Notes.liveReported.act 7 Notes.liveDrained.1 Notes.liveDrained.2).pulls = 2 ∧
      Server.Streamed (Notes.liveReported.act 7 Notes.liveDrained.1 Notes.liveDrained.2).sent 5 7 := by
  have hcursor : (Notes.liveReported.act 7 Notes.liveDrained.1 Notes.liveDrained.2).socket.streams.cursor = 7 := by
    decide +kernel
  have hstart : Trace Server.Drain.Step Notes.liveStart [none] { Notes.liveStart with head := 7 } :=
    .single (.advance _ (by decide))
  have h := Server.live_drain (hstart.snoc Notes.live_reports) (.single Notes.live_answers)
  refine ⟨hcursor, by decide +kernel, ?_⟩
  rw [← hcursor]
  exact h.2.2.1

end Axton
