import Axton.Client.Delivery
import Axton.Lib.Trace

/-!
# A client and its calls

Model of the transaction layer of `crates/client/src/frontend_interface.rs` (`Client::write` with its
generation fence), of `open05` (store05.rs:120) and of the entry points of the previous modules as
the calls of one client.

A call is one store transaction. It publishes its changes only when its body, the fence and the
commit all succeed; a fault at any of them leaves the durable store as it was. `Faults` says which
store calls fail: `commit` stands for any failure inside the transaction, `readback` for the read
that `apply_next_delivery05` makes after its commit.
-/

namespace Axton

/-- A client over its durable store. `generation` is what it believes the store's row to hold. -/
structure Client where
  schema : Schema
  generation : Nat
  store : Store

structure Faults where
  commit : Bool := false
  readback : Bool := false
deriving DecidableEq, Repr

/-- `Client::write` (frontend_interface.rs:207): body, fence, commit. -/
def Client.write {α : Type} (c : Client) (fault : Bool) (body : Store → Except String (α × Store)) :
    Except String α × Client :=
  match body c.store with
  | .error e => (.error e, c)
  | .ok (a, t) =>
    if t.row.generation ≠ c.generation then (.error "stale client writer; reopen runtime", c)
    else if fault then (.error "store failure", c)
    else (.ok a, { c with
      generation := c.generation + 1
      store := { t with row := { t.row with generation := t.row.generation + 1 } } })

/-- A transaction either publishes what its body computed or changes nothing. -/
theorem Client.write_cases {α : Type} {c c' : Client} {fault : Bool} {body : Store → Except String (α × Store)}
    {r : Except String α} (h : c.write fault body = (r, c')) :
    (∃ e, r = .error e ∧ c' = c) ∨
      ∃ a t, r = .ok a ∧ body c.store = .ok (a, t) ∧ t.row.generation = c.generation ∧
        c' = { c with
          generation := c.generation + 1
          store := { t with row := { t.row with generation := t.row.generation + 1 } } } := by
  unfold Client.write at h
  split at h
  · cases h; exact .inl ⟨_, rfl, rfl⟩
  · rename_i a t hb
    split at h
    · cases h; exact .inl ⟨_, rfl, rfl⟩
    · rename_i hg
      split at h
      · cases h; exact .inl ⟨_, rfl, rfl⟩
      · cases h; exact .inr ⟨a, t, rfl, hb, not_not.1 hg, rfl⟩

/-! ## Prerequisites -/

/-- `set_readiness`, `outcome` and `retry_tasks` on one prerequisite key. -/
inductive Readiness where
  | ready
  | failed (reason : String)
  | pending
deriving DecidableEq, Repr

/-- `resolve_prerequisite`, `fail_prerequisite`, `reset_prerequisite` (queue.rs:351-372). -/
def setReadiness (key : String) (r : Readiness) (s : Store) : Except String (Unit × Store) :=
  .ok ((), { s with prerequisites := match r with
    | .ready => s.prerequisites.filter (·.key ≠ key)
    | .failed reason => s.prerequisites.map fun p => if p.key = key then { p with error := some reason } else p
    | .pending => s.prerequisites.map fun p => if p.key = key then { p with error := none } else p })

/-! ## Opening -/

/-- The row a reopened table holds: columns added since take null, or their literal default
(`ddl::reconcile`). -/
def addColumns (S : Schema) (e : RecordKey × Row) : RecordKey × Row :=
  match S.model e.1.model with
  | .error _ => e
  | .ok m => (e.1, m.fields.foldl (fun acc f => if Fields.contains acc f.name then acc
      else Fields.insert acc f.name (if f.nullable then .null else f.default.getD .null)) e.2)

/-- A model may only move forward in version (store05.rs:153). -/
def versionsAdvance (stored incoming : Schema) : Bool :=
  stored.models.all fun m => (incoming.models.find? (·.name = m.name)).all (m.version ≤ ·.version)

/-- The stored schema with the versions of the incoming one, for comparison. -/
def withVersions (stored incoming : Schema) : Schema :=
  { stored with models := stored.models.map fun m => match incoming.models.find? (·.name = m.name) with
      | some new => { m with version := new.version }
      | none => m }

section
variable (P : Platform) (H : Hashes)

/-- The store row and descriptor table after `open05` installed a schema (store05.rs:178-187). -/
def openRow (S : Schema) (projection : String) (s : Store) : Store :=
  let materialization := H.materializationId S projection
  let context := H.descriptorContext S projection
  { s with
    descriptors := if (s.descriptors.get context).isSome then s.descriptors
      else s.descriptors ++ [(context, ⟨materialization, S⟩)]
    row := { s.row with
      desiredMaterialization := materialization
      schemaDescriptor := context
      enabledDescriptor := if s.row.materialization = materialization then context else s.row.enabledDescriptor }
    main := s.main.map (addColumns S)
    before := s.before.map (addColumns S) }

/-- `open05` on an existing file (store05.rs:124): the stored stream and a compatible schema. -/
def reopen (S : Schema) (stream projection : String) (s : Store) : Except String Store := do
  check (S.validate P) "invalid schema"
  check (nonblank stream) "stream must not be empty"
  check (s.row.stream = stream) "Stream mismatch"
  s.context.validate
  let old ← s.retainedSchema s.row.schemaDescriptor
  check (versionsAdvance old S) "Model version regressed"
  check (Schema.compatible (withVersions old S) S) "incompatible schema"
  return openRow H S projection s

/-- `open05` on a new file: a fresh store id, counters at their defaults. -/
def create (id : String) (S : Schema) (stream projection : String) : Except String Client := do
  check (S.validate P) "invalid schema"
  check (nonblank stream) "stream must not be empty"
  let materialization := H.materializationId S projection
  let context := H.descriptorContext S projection
  return {
    schema := S
    generation := 1
    store := openRow H S projection { row := {
      id, stream, materialization, desiredMaterialization := materialization
      schemaDescriptor := context, enabledDescriptor := context } } }

/-! ## Calls -/

inductive Call where
  | submit (c : Engine.Submission)
  | companion (fresh : String → Json) (ordinal : Nat) (o : Operation)
  | direct (fresh : String → Json) (o : Operation)
  | readiness (key : String) (r : Readiness)
  | freeze
  | acknowledge (a : BatchAcknowledgement)
  | settle
  | drop (id : Nat)
  | discard (id : Nat)
  | dismiss (id : Nat)
  | authority (context : RequestContext) (changes : List AuthorityChange) (coverage : Option (Nat × Nat))
  | cache (records : List ReadRecord) (store : Bool)
  | deliver (now : Nat) (q : DeliveryQueue)
  | cleanup (now : Nat)
  | handshake (start : Nat)
  | enableSchema (previous desired : RequestContext)
  | reopen (S : Schema) (stream projection : String)

/-- What a call returns. -/
inductive Output where
  | none
  | submitted (id : Nat)
  | request (r : Option MutationRequest)
  | report (r : ApplyReport)
  | delivered (r : Option ApplyReport)
deriving DecidableEq

/-- The completions a call reports. -/
def Output.completions : Output → List CallCompletion
  | .report r => r.completions
  | .delivered (some r) => r.completions
  | _ => []

/-- The request a freeze returned. -/
def Output.frozen : Output → Option MutationRequest
  | .request r => r
  | _ => Option.none

def Client.engine (P : Platform) (c : Client) : Engine := ⟨P, c.schema⟩

/-- Label a transaction's value. -/
def labelled {α : Type} (f : α → Output) (x : Except String (α × Store)) : Except String (Output × Store) :=
  x.map fun p => (f p.1, p.2)

/-- The transaction body of a call other than delivery and reopening. -/
def Call.body (E : Engine) : Call → Store → Except String (Output × Store)
  | .submit x, s => labelled .submitted (E.enqueue x s)
  | .companion fresh ordinal o, s => labelled (fun _ => .none) ((E.appendCompanion fresh ordinal o).run s)
  | .direct fresh o, s => labelled (fun _ => .none) ((E.direct fresh o).run s)
  | .readiness key r, s => labelled (fun _ => .none) (setReadiness key r s)
  | .freeze, s => labelled .request (E.freeze s)
  | .acknowledge a, s => labelled .report (E.acknowledge a s)
  | .settle, s => labelled .report (E.settleReady.run s)
  | .drop id, s => labelled .report (E.cancelUnsent id false s)
  | .discard id, s => labelled .report (E.cancelUnsent id true s)
  | .dismiss id, s => labelled (fun _ => .none) (Engine.dismiss id s)
  | .authority context changes coverage, s => labelled .report (E.installAuthority context changes coverage s)
  | .cache records store, s => labelled .report ((E.installCache records store).run s)
  | .cleanup now, s => labelled (fun _ => .none) (Engine.cleanupDelivery now s)
  | .handshake start, s => labelled (fun _ => .none) (Engine.initializeStream start s)
  | .enableSchema previous desired, s => labelled (fun _ => .none) (Engine.enableSchema previous desired s)
  | .deliver _ _, s => .ok (.none, s)
  | .reopen _ _ _, s => .ok (.none, s)

/-- `apply_next_delivery05` (delta_applier.rs:27). Its last read comes after the commit. -/
def Client.deliver (c : Client) (f : Faults) (now : Nat) (q : DeliveryQueue) : Except String Output × Client :=
  match Engine.choose now q c.store with
  | .error e => (.error e, c)
  | .ok .wait => (.ok (.delivered none), c)
  | .ok .cleanup => c.write f.commit fun s => labelled (fun _ => .delivered none) (Engine.cleanupDelivery now s)
  | .ok (.unit x) =>
    match c.write f.commit fun s => labelled (fun p => .delivered p.1) ((c.engine P).applyUnit now x s) with
    | (.ok o, c') => if f.readback then (.error "store failure", c') else (.ok o, c')
    | r => r

/-- One call of a client. -/
def Client.call (c : Client) (f : Faults) : Call → Except String Output × Client
  | .deliver now q => c.deliver P f now q
  | .reopen S stream projection =>
    match reopen P H S stream projection c.store with
    | .error e => (.error e, c)
    | .ok t =>
      if f.commit then (.error "store failure", c)
      else (.ok .none, ⟨S, t.row.generation, t⟩)
  | x => c.write f.commit (x.body (c.engine P))

/-- A call, the store failures it met and what it returned. -/
structure Event where
  call : Call
  faults : Faults
  result : Except String Output

/-- One step of a client's run. -/
def Client.Step (c : Client) (e : Event) (c' : Client) : Prop := c.call P H e.faults e.call = (e.result, c')

/-- A client's run from its creation. -/
def Client.Runs (c₀ : Client) (es : List Event) (c : Client) : Prop := Trace (Client.Step P H) c₀ es c

/-! ## What a step did -/

/-- The client after a transaction that left `t`. -/
def Client.published (c : Client) (t : Store) : Client :=
  { c with
    generation := c.generation + 1
    store := { t with row := { t.row with generation := t.row.generation + 1 } } }

/-- The calls whose whole effect is their transaction body. -/
def Call.isPlain : Call → Bool
  | .deliver _ _ => false
  | .reopen _ _ _ => false
  | _ => true

/-- What a step did: nothing, or it published one transaction. -/
inductive Client.Moved (c : Client) (e : Event) : Client → Prop
  | failed {m : String} : e.result = .error m → Client.Moved c e c
  | waited {now : Nat} {q : DeliveryQueue} : e.call = .deliver now q → Engine.choose now q c.store = .ok .wait →
      e.result = .ok (.delivered none) → Client.Moved c e c
  | plain {o : Output} {t : Store} : e.call.isPlain = true → e.call.body (c.engine P) c.store = .ok (o, t) →
      t.row.generation = c.generation → e.result = .ok o → Client.Moved c e (c.published t)
  | cleaned {now : Nat} {q : DeliveryQueue} : e.call = .deliver now q → Engine.choose now q c.store = .ok .cleanup →
      c.store.row.generation = c.generation → e.result = .ok (.delivered none) →
      Client.Moved c e (c.published (Engine.expireProgress now c.store))
  | applied {now : Nat} {q : DeliveryQueue} {x : Engine.Selected} {r : Option ApplyReport × Nat} {t : Store} :
      e.call = .deliver now q → Engine.choose now q c.store = .ok (.unit x) →
      (c.engine P).applyUnit now x c.store = .ok (r, t) → t.row.generation = c.generation →
      (e.result = .ok (.delivered r.1) ∨ e.faults.readback = true ∧ ∃ m, e.result = .error m) →
      Client.Moved c e (c.published t)
  | reopened {S : Schema} {stream projection : String} {t : Store} : e.call = .reopen S stream projection →
      reopen P H S stream projection c.store = .ok t → e.result = .ok .none →
      Client.Moved c e ⟨S, t.row.generation, t⟩

theorem Client.deliver_moved {c c' : Client} {f : Faults} {now : Nat} {q : DeliveryQueue} {r : Except String Output}
    (h : c.deliver P f now q = (r, c')) : Client.Moved P H c ⟨.deliver now q, f, r⟩ c' := by
  unfold Client.deliver at h
  split at h
  · cases h; exact .failed rfl
  · rename_i hw; cases h; exact .waited rfl hw rfl
  · rename_i hc
    rcases Client.write_cases h with ⟨m, rfl, rfl⟩ | ⟨o, t, rfl, hb, hg, rfl⟩
    · exact .failed rfl
    · simp only [labelled, Engine.cleanupDelivery, Except.map, Except.ok.injEq, Prod.mk.injEq] at hb
      obtain ⟨rfl, rfl⟩ := hb
      exact .cleaned rfl hc hg rfl
  · rename_i x hx
    split at h
    · rename_i o c'' hw
      rcases Client.write_cases hw with ⟨m, e, _⟩ | ⟨o', t, e, hb, hg, rfl⟩
      · cases e
      · cases e
        simp only [labelled, map_ok, Prod.exists, Prod.mk.injEq] at hb
        obtain ⟨a, n, u, hb, rfl, rfl⟩ := hb
        split at h
        · rename_i hf; cases h; exact .applied rfl hx hb hg (.inr ⟨hf, _, rfl⟩)
        · cases h; exact .applied rfl hx hb hg (.inl rfl)
    · rename_i hne
      rcases Client.write_cases h with ⟨m, rfl, rfl⟩ | ⟨o', t, rfl, _, _, rfl⟩
      · exact .failed rfl
      · exact absurd h (hne _ _)

/-- **Every step publishes one transaction or nothing.** -/
theorem Client.step_moved {c c' : Client} {e : Event} (h : Client.Step P H c e c') : Client.Moved P H c e c' := by
  obtain ⟨call, f, r⟩ := e
  simp only [Client.Step, Client.call] at h
  split at h
  · exact Client.deliver_moved P H h
  · rename_i S stream projection
    split at h
    · cases h; exact .failed rfl
    · rename_i t ht
      split at h
      · cases h; exact .failed rfl
      · cases h; exact .reopened rfl ht rfl
  · rename_i hd hr
    rcases Client.write_cases h with ⟨m, rfl, rfl⟩ | ⟨o, t, rfl, hb, hg, rfl⟩
    · exact .failed rfl
    · refine .plain ?_ hb hg rfl
      cases call <;> simp_all [Call.isPlain]

/-- The client believes the generation its store holds. -/
def Client.Fenced (c : Client) : Prop := c.store.row.generation = c.generation

theorem Client.step_fenced {c c' : Client} {e : Event} (hc : c.Fenced) (h : Client.Step P H c e c') : c'.Fenced := by
  cases Client.step_moved P H h with
  | failed _ => exact hc
  | waited _ _ _ => exact hc
  | plain _ _ hg _ => exact congrArg (· + 1) hg
  | cleaned _ _ hg _ => exact congrArg (· + 1) hg
  | applied _ _ _ hg _ => exact congrArg (· + 1) hg
  | reopened _ _ _ => rfl

/-! ## Running a list of calls -/

/-- Run calls in order: the events they leave and the client after them. -/
def Client.execute : Client → List (Call × Faults) → List Event × Client
  | c, [] => ([], c)
  | c, (x, f) :: rest =>
    let (r, c') := c.call P H f x
    let (es, c'') := c'.execute rest
    (⟨x, f, r⟩ :: es, c'')

theorem Client.execute_runs (c : Client) (calls : List (Call × Faults)) :
    Client.Runs P H c (c.execute P H calls).1 (c.execute P H calls).2 := by
  induction calls generalizing c with
  | nil => exact .nil
  | cons x rest ih =>
    have first : Trace (Client.Step P H) c [⟨x.1, x.2, (c.call P H x.2 x.1).1⟩] (c.call P H x.2 x.1).2 := .single rfl
    exact first.append (ih _)

/-- A step read off its evaluation. -/
theorem Client.step_of_result {c : Client} {f : Faults} {x : Call} {o : Output}
    (h : (c.call P H f x).1.toOption = some o) : Client.Step P H c ⟨x, f, .ok o⟩ (c.call P H f x).2 :=
  Prod.ext (ok_of_toOption h) rfl

end

/-! ## A store of notes -/

namespace Notes

/-- A fresh store. -/
def start : Client where
  schema := schema
  generation := 1
  store := openRow hashes schema "notes" { row := {
    id := "store", stream := "user", materialization := "m-notes", desiredMaterialization := "m-notes"
    schemaDescriptor := "d-notes", enabledDescriptor := "d-notes" } }

theorem create_start : create platform hashes "store" schema "user" "notes" = .ok start := rfl

/-- A call of `action` on note `id`. -/
def submit (action id title : String) : Call :=
  .submit { name := action, version := 1, input := .obj [("note", .obj [("id", .str id), ("title", .str title)])] }

end Notes

end Axton
