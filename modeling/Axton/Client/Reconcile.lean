import Axton.Client.Settlement

/-!
# Settling accepted calls

Model of `target_evidence05`, `pending_settlement05` and `reconcile_ready05` (settlement05.rs:196-370):
an accepted call is completed once the normal prefix reached its fence and every target has its
authority, or its owned fallback is retained in its place.
-/

namespace Axton

namespace Engine

/-- `target_evidence05` (settlement05.rs:196). -/
def targetEvidence (s : Store) (key : RecordKey) : TargetEvidence :=
  let e := s.evidence key
  let content := e.history.get s.row.materialization
  { contentCursor := content
    materialization := content.map fun _ => s.row.materialization
    removedCursor := (e.membership.filter (!·.live)).map (·.cursor)
    isProtected := e.current.isSome }

/-- The saved row of one step of a call. -/
def operationRow (s : Store) (id step : Nat) : Option OperationRow :=
  s.operations.find? fun o => o.mutationId = id && o.step = step

/-- `owned05` (settlement05.rs:235): no newer content arrived since the operation was recorded. -/
def owned (s : Store) (id step : Nat) (key : RecordKey) : Except String Bool :=
  match operationRow s id step with
  | some o => .ok ((s.evidence key).latest ≤ maxHistory o.ownerHistory)
  | none => .error "owned operation missing"

/-- `retain_owned05` (settlement05.rs:248): keep an accepted write at its operation's place. -/
def retainOwned (id step : Nat) (o : Operation) : Within Local Unit := do
  let s ← Within.read
  match operationRow s id step with
  | none => Within.fail "owned operation missing"
  | some row => putLocalWrite ⟨row.localSequence, id, some step, .accepted, o⟩

/-- The last wire position of a call on a record. -/
def wirePosition (ops : List QueuedOp) (key : RecordKey) : Option Nat :=
  ((ops.filter fun o => o.kind = .wire && o.op.key = key).map (·.position)).max?

section
variable (E : Engine)

/-- `pending_settlement05` (settlement05.rs:208): accepted calls not yet settled; every target must
have a disposition. -/
def pendingSettlement (s : Store) : Except String (List Nat) := do
  let rows := s.queue.filter fun r => r.syncCursor.isSome && !r.reconciled
  rows.forM fun r => r.targets.forM fun t => do
    let _ ← targetDisposition t s.row.materialization (targetEvidence s t.key)
    .ok ()
  return rows.map (·.id)

/-- The write a finalized target leaves (settlement05.rs:318-337). -/
def targetOperation (record : ReadRecord) : Except String Operation :=
  if record.state.isNull then .ok (deleteOf record.key)
  else do
    let values ← E.schema.normalizeState E.platform record.key.model record.state
    let _ ← E.schema.validateState E.platform record.key.model values
    .ok ⟨record.key, .create, some values⟩

/-- One target of a ready call (settlement05.rs:288-343). The dispositions were read before the
call's first write. -/
def finalizeTarget (id : Nat) (ops : List QueuedOp) (before : Store) (t : SettlementTarget) : Within Local Unit := do
  let disposition ← Within.lift (targetDisposition t before.row.materialization (targetEvidence before t.key))
  if disposition ≠ .finalizeOwned then pure ()
  else match wirePosition ops t.key with
    | none => Within.fail "unowned private target"
    | some position => do
      let mine ← Within.ask fun s => owned s id position t.key
      if !mine then pure ()
      else do
        let o ← Within.lift (E.targetOperation t.record)
        retainOwned id position o

/-- One companion of a ready call (settlement05.rs:344-355). -/
def settleCompanion (id : Nat) (targets : List SettlementTarget) (q : QueuedOp) : Within Local Unit :=
  if targets.any (·.key = q.op.key) then pure ()
  else do
    let mine ← Within.ask fun s => owned s id q.position q.op.key
    if mine then do
      retainOwned id q.position q.op
      directEvidence q.op.key
    else pure ()

/-- Every row of the call is accepted. -/
def acceptedCall (s : Store) (id : Nat) : Bool :=
  s.queue.all fun r => r.id ≠ id || (r.syncCursor.isSome && r.rejectionCode.isNone)

/-- `UPDATE … SET reconciled=1`, then delete the call's operations (settlement05.rs:356-365). -/
def settled (s : Store) (id : Nat) : Store :=
  { s with
    queue := s.queue.map fun r => if r.id = id then { r with reconciled := true } else r
    operations := s.operations.filter (·.mutationId ≠ id) }

theorem settled_settles (s : Store) (id : Nat) (h : acceptedCall s id = true) : Settles s (settled s id) where
  row := rfl
  descriptors := rfl
  queue := by
    refine forall₂_map fun r hr => ?_
    have hacc := List.all_eq_true.1 h r hr
    split
    next hid =>
      simp only [hid, ne_eq, not_true_eq_false, decide_false, Bool.false_or, Bool.and_eq_true,
        Option.isNone_iff_eq_none] at hacc
      exact .inr ⟨hacc.1, hacc.2, rfl⟩
    next => exact SettleRow.refl r
  inputs := by
    intro r hr hrec
    obtain ⟨q, hq, rfl⟩ := List.mem_map.1 hr
    have hne : q.id ≠ id := by
      intro e; simp [e] at hrec
    simp only [Store.inputs, settled, hne, if_false, List.filter_filter]
    refine List.filter_congr fun o _ => ?_
    by_cases ho : o.mutationId = q.id
    · simp [ho, hne]
    · simp [ho]
  dependencies := rfl
  prerequisites := rfl
  evidence _ := .refl _
  progress := rfl
  deliveryKeys := rfl

/-- Complete an accepted call. `completion05` reads the outcome again and fails without one. -/
def complete (id : Nat) : Within Settles Unit where
  run s := if acceptedCall s id then .ok ((), settled s id) else .error "outcome missing"
  within := by
    intro s a t h
    split at h
    next hacc => cases h; exact settled_settles s id hacc
    next => cases h

/-- What one pending settlement contributes: keys to rebuild and completions. -/
structure Settlement where
  held : List RecordKey := []
  completions : List CallCompletion := []

/-- One iteration of `reconcile_ready05` (settlement05.rs:262-367). -/
def settleCall (id : Nat) : Within Settles Settlement := do
  let s ← Within.read
  match (s.mutation id).bind (·.outcome E.platform) with
  | some (.accepted syncCursor result targets) => do
    let ready ← Within.lift
      (settlementReady syncCursor s.row.cursor targets s.row.materialization (targetEvidence s))
    if !ready then pure {}
    else do
      let ops := s.callOps id
      (targets.forM (E.finalizeTarget id ops s)).widen fun _ _ => Settles.ofLocal
      ((ops.filter (·.kind = .companion)).forM (settleCompanion id targets)).widen fun _ _ => Settles.ofLocal
      complete id
      pure { held := ops.map (·.op.key), completions := [⟨callId s id, .succeeded result⟩] }
  | _ => pure {}

/-- `reconcile_ready05` (settlement05.rs:252). -/
def reconcileReady : Within Settles Settlement := do
  let ids ← Within.ask pendingSettlement
  ids.foldlM (fun acc id => do
    let x ← E.settleCall id
    pure { held := acc.held ++ x.held, completions := acc.completions ++ x.completions }) {}

/-- `settle_ready05` (settlement05.rs:381). -/
def settleReady : Within Settles ApplyReport := do
  let x ← E.reconcileReady
  let reports ← (E.rebuildHeld x.held).widen fun _ _ => Settles.ofLocal
  pure { reports, completions := x.completions }

end

end Engine

end Axton
