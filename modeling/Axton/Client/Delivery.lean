import Axton.Client.Stage

/-!
# Applying deliveries

Model of `crates/client/src/sync05/delta_applier.rs` with the staged plans of `delivery_queue.rs` and
the pending schema of `store05.rs`. `applyNextDelivery` selects a complete unit from the queue and
applies it in one store transaction: authority, coverage, schema switch, settlement and progress
commit together or not at all.

| here | there |
|------|-------|
| `Plan.unit` | `Plan::unit` (delivery_queue.rs:121), digests checked again |
| `Engine.pendingSchema`, `enableSchema` | `pending_schema05`, `enable_schema05` |
| `Engine.applyUnit` | the `write` body of `apply_next_delivery05` (delta_applier.rs:104-165) |
| `Engine.selectUnit` | the selection loop (delta_applier.rs:55-85) |
-/

namespace Axton

/-- A staged plan. Where its parts are kept (memory or disk) is not modelled. -/
structure Plan where
  header : DeliveryHeader
  parts : Table (Nat × Nat) DeliveryPart
  next : Nat
  blocked : Bool
  owner : Option MaterializationRequest

/-- The plans by id, in id order. -/
abbrev DeliveryQueue := Table String Plan

/-- What `DeliveryQueue::receive` and `receive_owned` let in (delivery_queue.rs:200, 394): validated
headers under their own plan id, and a request exactly with the transfers it owns. How far a plan is
staged, and whether it is blocked, is free. -/
structure Plan.Admitted (id : String) (p : Plan) : Prop where
  valid : p.header.validate = .ok ()
  planId : id = p.header.planId
  owner : p.header.owner = p.owner.map (·.owner)

def DeliveryQueue.Admitted (q : DeliveryQueue) : Prop := ∀ e ∈ q, Plan.Admitted e.1 e.2

namespace Plan

/-- The part a manifest names, its digest checked again (delivery_queue.rs:133-145). -/
def loadPart (p : Plan) (manifest : UnitManifest) (index part : Nat) : Except String (List AuthorityChange) :=
  match p.parts.get (index, part) with
  | none => .error "missing part"
  | some d => match manifest.parts[d.part]? with
    | none => .error "disk staging part index"
    | some digest =>
      if digest.matches d.body then .ok d.changes else .error "disk staging digest mismatch"

/-- `Plan::complete` (delivery_queue.rs:113). -/
def complete (p : Plan) (index : Nat) : Bool :=
  (p.header.units[index]?).any fun manifest =>
    (List.range manifest.parts.length).all fun part => (p.parts.get (index, part)).isSome

/-- `Plan::unit` (delivery_queue.rs:121). -/
def unit (p : Plan) (index : Nat) : Except String (Option DeliveryUnit) :=
  if !p.complete index then .ok none
  else match p.header.units[index]? with
    | none => .ok none
    | some manifest => do
      let chunks ← (List.range manifest.parts.length).mapM (p.loadPart manifest index)
      let u : DeliveryUnit := ⟨index, manifest.through, chunks.flatten⟩
      u.validate
      check (manifest.digest.matches u && minimumCursor u.changes = manifest.minimumCursor)
        "unit digest mismatch"
      return some u

/-- A unit that a plan hands out has the digest of its manifest. -/
theorem unit_digest {p : Plan} {index : Nat} {u : DeliveryUnit} (h : p.unit index = .ok (some u)) :
    u.index = index ∧ ∃ manifest, p.header.units[index]? = some manifest ∧ manifest.digest.matches u = true ∧
      manifest.through = u.through ∧ u.validate = .ok () := by
  unfold unit at h
  split at h
  · cases h
  · split at h
    · cases h
    · rename_i manifest hm
      simp only [bind_ok, check_ok, Bool.and_eq_true, decide_eq_true_eq, pure_ok, Option.some.injEq] at h
      obtain ⟨chunks, _, _, hv, _, ⟨hd, _⟩, rfl⟩ := h
      exact ⟨rfl, manifest, hm, hd, rfl, hv⟩

end Plan

namespace Engine

/-! ## Pending schema -/

structure PendingSchema where
  previousContext : RequestContext
  desiredContext : RequestContext
  authorityKeys : List RecordKey
  bootstrapModels : Table String Nat
deriving DecidableEq

/-- The records a store holds live authority for (store05.rs:283). -/
def liveHeld (s : Store) : List RecordKey :=
  (s.authority.filter fun e =>
    !(s.evidence e.1).history.isEmpty && (s.evidence e.1).membership.any (·.live)).map (·.1)

/-- `pending_schema05` (store05.rs:255). -/
def pendingSchema (s : Store) : Except String (Option PendingSchema) :=
  if s.row.desiredMaterialization = s.row.materialization then .ok none
  else do
    let previous ← s.retainedSchema s.row.enabledDescriptor
    let desired ← s.retainedSchema s.row.schemaDescriptor
    return some {
      previousContext := s.context
      desiredContext := { s.context with materialization := s.row.desiredMaterialization }
      authorityKeys := liveHeld s
      bootstrapModels := (desired.models.filter fun m => m.bootstrap &&
        ((previous.models.find? (·.name = m.name)).all (!·.bootstrap))).map fun m => (m.name, m.version) }

/-- `enable_schema05` (store05.rs:296). -/
def enableSchema (previous desired : RequestContext) (s : Store) : Except String (Unit × Store) := do
  match ← pendingSchema s with
  | none => .error "no pending schema transfer"
  | some p => do
    check (p.previousContext = previous && p.desiredContext = desired) "schema transfer context mismatch"
    return ((), { s with row := { s.row with
      materialization := s.row.desiredMaterialization
      enabledDescriptor := s.row.schemaDescriptor } })

/-! ## One unit -/

/-- Forget delivery progress that expired (delta_applier.rs:107). -/
def expireProgress (now : Nat) (s : Store) : Store :=
  let expired := fun id => (s.progress.get id).any (·.header.expiresAt ≤ now)
  { s with
    deliveryKeys := s.deliveryKeys.filter fun e => !expired e.1
    progress := s.progress.filter fun e => !decide (e.2.header.expiresAt ≤ now) }

/-- `cleanup_delivery05` (delta_applier.rs:6). -/
def cleanupDelivery (now : Nat) (s : Store) : Except String (List String × Store) :=
  let t := expireProgress now s
  .ok (t.progress.map (·.1), t)

/-- The selected unit and, for an owned transfer, its complete validated content. -/
structure Selected where
  id : String
  header : DeliveryHeader
  unit : DeliveryUnit
  owned : Option (List DeliveryUnit)

namespace Selected

/-- What the transaction stages: the unit, or the whole owned transfer. -/
def changes (x : Selected) : List AuthorityChange :=
  match x.owned with
  | some units => units.flatMap (·.changes)
  | none => x.unit.changes

def final (x : Selected) : Bool := x.owned.isSome || x.unit.index + 1 = x.header.units.length

/-- The unit the plan continues with. -/
def next (x : Selected) : Nat := if x.owned.isSome then x.header.units.length else x.unit.index + 1

end Selected

/-- Record the keys a plan delivered; a key delivered twice is refused (delta_applier.rs:122). -/
def recordKeys (id : String) (changes : List AuthorityChange) (s : Store) : Except String Store :=
  changes.foldlM (fun s c => do
    c.key.validate
    check (!s.deliveryKeys.contains (id, c.key)) "UNIQUE constraint failed"
    return { s with deliveryKeys := s.deliveryKeys ++ [(id, c.key)] }) s

/-- Bootstrap coverage (delta_applier.rs:128-135). -/
def coverBootstrap (x : Selected) (s : Store) : Except String Store :=
  match s.row.startCursor, x.header.through with
  | some start, some through =>
    if start < through then .error "bootstrap start mismatch"
    else match x.unit.through with
      | none => .ok s
      | some t =>
        let current := s.row.bootstrapCursor.getD 0
        if x.header.after.any (current < ·) then .error "bootstrap prefix gap"
        else if current < t ∨ x.final then
          .ok { s with row := { s.row with bootstrapCursor := some (max t current) } }
        else .ok s
  | _, _ => .error "bootstrap start mismatch"

/-- Normal coverage (delta_applier.rs:136-140). -/
def coverNormal (x : Selected) (s : Store) : Except String Store :=
  match s.row.cursor with
  | none => .error "handshake required"
  | some current =>
    if x.header.after.any (current < ·) then .error "sync prefix gap"
    else match x.unit.through with
      | none => .ok s
      | some t => if current < t then (commitSyncCoverage current t s).map (·.2) else .ok s

/-- Bootstrap coverage moves to the unit's boundary, or stays. -/
theorem coverBootstrap_cases {x : Selected} {s t : Store} (h : coverBootstrap x s = .ok t) :
    ∃ start through, s.row.startCursor = some start ∧ x.header.through = some through ∧ through ≤ start ∧
      (t = s ∧ (∀ p, x.unit.through = some p → p ≤ s.row.bootstrapCursor.getD 0 ∧ x.final = false) ∨
        ∃ p, x.unit.through = some p ∧ (∀ a, x.header.after = some a → a ≤ s.row.bootstrapCursor.getD 0) ∧
          t = { s with row := { s.row with bootstrapCursor := some (max p (s.row.bootstrapCursor.getD 0)) } }) := by
  unfold coverBootstrap at h
  split at h
  · rename_i start through hs ht
    split at h
    · cases h
    · rename_i hle
      refine ⟨start, through, hs, ht, not_lt.1 hle, ?_⟩
      split at h
      · rename_i hnone
        cases h
        exact .inl ⟨rfl, by simp [hnone]⟩
      · rename_i p hp
        simp only at h
        split at h
        · cases h
        · rename_i hafter
          split at h
          · cases h
            refine .inr ⟨p, hp, fun a ha => ?_, rfl⟩
            simpa [ha] using hafter
          · rename_i hmove
            cases h
            simp only [not_or, not_lt, Bool.not_eq_true] at hmove
            refine .inl ⟨rfl, fun p' hp' => ?_⟩
            rw [hp] at hp'
            cases hp'
            exact hmove
  · cases h

/-- Normal coverage moves to the unit's boundary, or stays. -/
theorem coverNormal_cases {x : Selected} {s t : Store} (h : coverNormal x s = .ok t) :
    ∃ current, s.row.cursor = some current ∧ (∀ a, x.header.after = some a → a ≤ current) ∧
      (t = s ∧ (∀ p, x.unit.through = some p → p ≤ current) ∨
        ∃ p, x.unit.through = some p ∧ current < p ∧ t = { s with row := { s.row with cursor := some p } }) := by
  unfold coverNormal at h
  split at h
  · cases h
  · rename_i current hc
    split at h
    · cases h
    · rename_i hafter
      refine ⟨current, hc, fun a ha => by simpa [ha] using hafter, ?_⟩
      split at h
      · rename_i hnone
        cases h
        exact .inl ⟨rfl, by simp [hnone]⟩
      · rename_i p hp
        split at h
        · rename_i hlt
          simp only [map_ok, commitSyncCoverage, bind_ok, pure_ok, Prod.exists, Prod.mk.injEq] at h
          obtain ⟨_, _, ⟨_, _, _, _, _, _, _, rfl⟩, rfl⟩ := h
          exact .inr ⟨p, hp, hlt, rfl⟩
        · rename_i hlt
          cases h
          refine .inl ⟨rfl, fun p' hp' => ?_⟩
          rw [hp] at hp'
          cases hp'
          exact not_lt.1 hlt

/-- Coverage of a unit. An owned transfer claims none. -/
def cover (x : Selected) (s : Store) : Except String Store :=
  if x.header.bootstrap then coverBootstrap x s
  else if x.header.owner.isNone then coverNormal x s
  else .ok s

/-- The schema switch of an owned schema transfer (delta_applier.rs:141-150): every record held now
must be in the transfer. -/
def switchSchema (x : Selected) (s : Store) : Except String Store :=
  match x.header.owner with
  | some (.schema previousMaterialization) => do
    match ← pendingSchema s with
    | none => .error "schema transfer no longer pending"
    | some p => do
      check (p.previousContext.materialization = previousMaterialization && p.desiredContext = x.header.context)
        "schema transfer replaced"
      check (p.authorityKeys.all fun k => x.changes.any (·.key = k)) "schema transfer missing newly held identity"
      let (_, t) ← enableSchema p.previousContext p.desiredContext s
      return t
  | _ => .ok s

/-- The lane a plan belongs to: ordinary plans of one purpose replace each other. -/
def sameLane (h : DeliveryHeader) (p : DeliveryProgressRow) : Bool :=
  p.header.owner.isNone && p.header.bootstrap = h.bootstrap

/-- The progress row a partial plan leaves. -/
def progressRow (x : Selected) (saved : Option DeliveryProgressRow) : DeliveryProgressRow :=
  match saved with
  | none => ⟨x.header.digest, x.header, x.next, x.unit.through⟩
  | some p => { p with nextUnit := x.next, covered := x.unit.through.orElse fun _ => p.covered }

/-- Progress after a unit (delta_applier.rs:153-163): a finished plan is forgotten, an ordinary plan
retires the other partial plans of its lane. -/
def saveProgress (x : Selected) (saved : Option DeliveryProgressRow) (s : Store) : Store :=
  let s₁ : Store := if x.final then
      { s with
        deliveryKeys := s.deliveryKeys.filter (·.1 ≠ x.id)
        progress := s.progress.erase x.id }
    else { s with progress := s.progress.set x.id (progressRow x saved) }
  if x.header.owner.isNone then
    let retired := fun id => id ≠ x.id && (s₁.progress.get id).any (sameLane x.header)
    { s₁ with
      deliveryKeys := s₁.deliveryKeys.filter fun e => !retired e.1
      progress := s₁.progress.filter fun e => !(decide (e.1 ≠ x.id) && sameLane x.header e.2) }
  else s₁

section
variable (E : Engine)

/-- The context a plan is applied in (delta_applier.rs:117): an ordinary plan only in its own
materialization. -/
def admitPlan (x : Selected) (s : Store) : Except String Unit := do
  x.header.context.admitStore s.context
  if x.header.owner.isNone then x.header.context.admitContext s.context else .ok ()

/-- `stage_authority05` or `stage_materialization05` (settlement05.rs:416-444). -/
def admitStaging (x : Selected) (s : Store) : Except String Unit :=
  if x.header.owner.isSome then do
    x.header.context.admitStore s.context
    if x.header.context.materialization ≠ s.row.materialization then do
      match ← pendingSchema s with
      | none => .error "unowned desired schema context"
      | some p => check (p.desiredContext = x.header.context) "unowned desired schema context"
    else .ok ()
  else x.header.context.admitContext s.context

/-- The staging half of the transaction, up to the schema switch (delta_applier.rs:104-150). -/
def stageUnit (x : Selected) (s : Store) : Except String (Staged × Store) := do
  admitPlan x s
  let s₁ ← recordKeys x.id x.changes s
  admitStaging x s₁
  let (staged, s₂) ← (E.stageChanges x.header.context.materialization x.changes).run s₁
  let s₃ ← cover x s₂
  let s₄ ← switchSchema x s₃
  return (staged, s₄)

/-- The transaction body of `apply_next_delivery05` (delta_applier.rs:104-165). A unit that durable
progress already passed changes nothing. -/
def applyUnit (now : Nat) (x : Selected) (s : Store) : Except String ((Option ApplyReport × Nat) × Store) := do
  let s₀ := expireProgress now s
  let saved := s₀.progress.get x.id
  check (saved.all fun p => p.digest = x.header.digest) "persisted plan digest mismatch"
  let next := (saved.map (·.nextUnit)).getD 0
  if x.unit.index < next then return ((none, next), s₀)
  else do
    check (next = x.unit.index) "delivery unit prefix gap"
    let (staged, s₁) ← E.stageUnit x s₀
    let (y, s₂) ← E.reconcileReady.run s₁
    let (reports, s₃) ← (E.rebuildHeld (staged.held ++ y.held)).run s₂
    return ((some { applied := staged.applied, reports, completions := y.completions }, x.next), saveProgress x saved s₃)

/-- The stages of a unit's transaction, from the store it found to the store it left. -/
structure UnitApplied (now : Nat) (x : Selected) (r : Option ApplyReport × Nat) (s t : Store) where
  keyed : Store
  staged : Store
  covered : Store
  switched : Store
  settled : Store
  rebuilt : Store
  work : Staged
  settlement : Settlement
  report : ApplyReport
  digest : ∀ p, (expireProgress now s).progress.get x.id = some p → p.digest = x.header.digest
  next : (((expireProgress now s).progress.get x.id).map (·.nextUnit)).getD 0 = x.unit.index
  plan : admitPlan x (expireProgress now s) = .ok ()
  keys : recordKeys x.id x.changes (expireProgress now s) = .ok keyed
  admission : admitStaging x keyed = .ok ()
  stage : (E.stageChanges x.header.context.materialization x.changes).run keyed = .ok (work, staged)
  cover : cover x staged = .ok covered
  switch : switchSchema x covered = .ok switched
  settle : E.reconcileReady.run switched = .ok (settlement, settled)
  rebuild : Local settled rebuilt
  save : t = saveProgress x ((expireProgress now s).progress.get x.id) rebuilt
  result : r = (some report, x.next)
  completions : report.completions = settlement.completions

/-- A unit is applied, or durable progress was already past it. -/
theorem applyUnit_cases {now : Nat} {x : Selected} {r : Option ApplyReport × Nat} {s t : Store}
    (h : E.applyUnit now x s = .ok (r, t)) :
    (r.1 = none ∧ t = expireProgress now s ∧
      x.unit.index < (((expireProgress now s).progress.get x.id).map (·.nextUnit)).getD 0) ∨
    Nonempty (E.UnitApplied now x r s t) := by
  simp only [applyUnit, bind_ok, check_ok] at h
  obtain ⟨_, hdigest, h⟩ := h
  split at h
  · rename_i hlt
    cases h
    exact .inl ⟨rfl, rfl, hlt⟩
  · simp only [bind_ok, check_ok, pure_ok, Prod.mk.injEq, Prod.exists, stageUnit, decide_eq_true_eq] at h
    obtain ⟨_, hnext, staged, s₄, ⟨_, hplan, s₁, h₁, _, hadm, staged', s₂, h₂, s₃, h₃, s₅, h₄, rfl, rfl⟩, y, s₆, h₅,
      reports, s₇, h₆, rfl, rfl⟩ := h
    refine .inr ⟨⟨s₁, s₂, s₃, s₅, s₆, s₇, staged', y, _, ?_, hnext, hplan, h₁, hadm, h₂, h₃, h₄, h₅,
      (E.rebuildHeld _).within h₆, rfl, rfl, rfl⟩⟩
    intro p hp
    simpa [hp] using hdigest

end

/-! ## Selection -/

/-- A plan whose range the durable coverage already includes (delta_applier.rs:40-52). -/
def receipted (s : Store) (p : Plan) : Bool :=
  let position := if p.header.bootstrap then s.row.bootstrapCursor else s.row.cursor
  p.header.owner.isNone && p.header.context = s.context &&
    position.any fun c => p.header.through.any (· ≤ c)

/-- A blocked ordinary plan holds back its lane (delta_applier.rs:56-66). -/
def heldBack (q : DeliveryQueue) (p : Plan) : Bool :=
  p.blocked || (p.header.owner.isNone && q.any fun e =>
    e.2.blocked && e.2.header.owner.isNone && e.2.header.bootstrap = p.header.bootstrap)

/-- The plan's range starts after the durable position (delta_applier.rs:71-81). -/
def tooEarly (s : Store) (p : Plan) : Except String Bool :=
  match p.header.after with
  | none => .ok false
  | some after =>
    if p.header.bootstrap then .ok (s.row.bootstrapCursor.getD 0 < after)
    else match s.row.cursor with
      | none => .error "handshake required"
      | some c => .ok (c < after)

/-- The selection loop (delta_applier.rs:55-85): the first plan with a complete next unit. -/
def selectUnit (s : Store) (q : DeliveryQueue) : List (String × Plan) → Except String (Option (String × Plan × DeliveryUnit))
  | [] => .ok none
  | (id, p) :: rest =>
    if heldBack q p then selectUnit s q rest
    else do
      p.header.context.admitStore s.context
      if p.header.owner.isNone && p.header.context ≠ s.context then selectUnit s q rest
      else if ← tooEarly s p then selectUnit s q rest
      else match ← p.unit p.next with
        | some u => return some (id, p, u)
        | none => selectUnit s q rest

/-- Every unit of an owned plan; nothing while one is incomplete (delta_applier.rs:91-99). -/
def ownedUnits (p : Plan) : Except String (Option (List DeliveryUnit)) := do
  let units ← (List.range p.header.units.length).mapM p.unit
  return units.mapM id

/-- `DeliveryQueue::expire` and the receipt check (delta_applier.rs:36-52). -/
def liveQueue (now : Nat) (s : Store) (q : DeliveryQueue) : DeliveryQueue :=
  (q.filter fun e => decide (now < e.2.header.expiresAt)).filter fun e => !receipted s e.2

/-- What `apply_next_delivery05` will do: apply a selected unit, wait for the rest of an owned
transfer, or only clean up. -/
inductive Choice where
  | unit (x : Selected)
  | wait
  | cleanup

/-- The read-only half of `apply_next_delivery05` (delta_applier.rs:36-103). -/
def choose (now : Nat) (q : DeliveryQueue) (s : Store) : Except String Choice := do
  let live := liveQueue now s q
  match ← selectUnit s live live with
  | none => return .cleanup
  | some (id, p, u) => match p.owner with
    | none => return .unit ⟨id, p.header, u, none⟩
    | some request => do
      match ← ownedUnits p with
      | none => return .wait
      | some units => do
        validateMaterialization request p.header units
        return .unit ⟨id, p.header, u, some units⟩

/-- What the selection loop picks: a plan of the queue with a complete next unit, in its own context
and not ahead of the durable position. -/
theorem selectUnit_mem {s : Store} {q : DeliveryQueue} : ∀ {l : List (String × Plan)} {id : String} {p : Plan}
    {u : DeliveryUnit}, selectUnit s q l = .ok (some (id, p, u)) →
    (id, p) ∈ l ∧ p.unit p.next = .ok (some u) ∧ (p.header.owner = none → p.header.context = s.context) ∧
      tooEarly s p = .ok false
  | [], _, _, _, h => by cases h
  | (id', p') :: rest, id, p, u, h => by
    have later : selectUnit s q rest = .ok (some (id, p, u)) →
        (id, p) ∈ (id', p') :: rest ∧ p.unit p.next = .ok (some u) ∧
          (p.header.owner = none → p.header.context = s.context) ∧ tooEarly s p = .ok false := by
      intro h
      obtain ⟨hm, h⟩ := selectUnit_mem h
      exact ⟨List.mem_cons_of_mem _ hm, h⟩
    simp only [selectUnit] at h
    split at h
    · exact later h
    · simp only [bind_ok] at h
      obtain ⟨_, _, h⟩ := h
      split at h
      · exact later h
      · rename_i hctx
        simp only [bind_ok] at h
        obtain ⟨early, hearly, h⟩ := h
        split at h
        · exact later h
        · rename_i hnot
          simp only [bind_ok] at h
          obtain ⟨v, hv, h⟩ := h
          cases v with
          | none => exact later h
          | some w =>
            simp only [pure_ok, Option.some.injEq, Prod.mk.injEq] at h
            obtain ⟨rfl, rfl, rfl⟩ := h
            refine ⟨List.mem_cons_self, hv, fun ho => ?_, by rw [hearly]; simpa using hnot⟩
            simpa [ho] using hctx

/-- What `apply_next_delivery05` selects comes from a live plan of the queue; an owned plan is complete
and answers its request. -/
theorem choose_unit {now : Nat} {q : DeliveryQueue} {s : Store} {x : Selected} (h : choose now q s = .ok (.unit x)) :
    ∃ p, (x.id, p) ∈ q ∧ x.header = p.header ∧ p.unit p.next = .ok (some x.unit) ∧
      (p.header.owner = none → p.header.context = s.context) ∧ tooEarly s p = .ok false ∧
      ((p.owner = none ∧ x.owned = none) ∨ ∃ request units, p.owner = some request ∧ x.owned = some units ∧
        ownedUnits p = .ok (some units) ∧ validateMaterialization request p.header units = .ok ()) := by
  simp only [choose, bind_ok] at h
  obtain ⟨r, hr, h⟩ := h
  split at h
  · cases h
  · rename_i id p u
    obtain ⟨hm, hu, hctx, hearly⟩ := selectUnit_mem hr
    have hmem : (id, p) ∈ q := (List.mem_filter.1 (List.mem_filter.1 hm).1).1
    cases ho : p.owner with
    | none =>
      simp only [ho, pure_ok, Choice.unit.injEq] at h
      subst h
      exact ⟨p, hmem, rfl, hu, hctx, hearly, .inl ⟨ho, rfl⟩⟩
    | some request =>
      simp only [ho, bind_ok] at h
      obtain ⟨units, hunits, h⟩ := h
      cases units with
      | none => cases h
      | some units =>
        simp only [bind_ok, pure_ok, Choice.unit.injEq] at h
        obtain ⟨_, hv, rfl⟩ := h
        exact ⟨p, hmem, rfl, hu, hctx, hearly, .inr ⟨request, units, ho, rfl, hunits, hv⟩⟩

end Engine

end Axton
