import Axton.Client.Reconcile

/-!
# Staging authority beneath local work

Model of the second half of `crates/client/src/settlement05.rs`: `stage_changes05` admits authority
changes into the evidence and stages their content under local replay, `stage_cache05` stages read
snapshots, and the stream cursors move in `initialize_stream05` and `commit_sync_coverage05`.

`Stages m cs` is the frame of staging: evidence moves only by the admission of a change of `cs` in
materialization `m`, or by a release.
-/

namespace Axton

/-- One move of a record's evidence while `changes` are staged in `materialization`. -/
inductive EvidenceStep (materialization : String) (changes : List AuthorityChange) (k : RecordKey) :
    RecordEvidence → RecordEvidence → Prop
  | release (e : RecordEvidence) : EvidenceStep materialization changes k e e.release
  | install {cursor : Nat} {state : Json} {deleted : Bool} {e e' : RecordEvidence} :
      .record k cursor state ∈ changes → e.install materialization cursor deleted = .ok (true, e') →
      EvidenceStep materialization changes k e e'
  | remove {cursor : Nat} {e e' : RecordEvidence} :
      .remove k cursor ∈ changes → e.remove cursor = .ok (true, e') →
      EvidenceStep materialization changes k e e'

/-- The frame of staging. -/
structure Stages (m : String) (changes : List AuthorityChange) (s t : Store) : Prop where
  row : t.row = { s.row with nextLocalSequence := t.row.nextLocalSequence }
  descriptors : t.descriptors = s.descriptors
  queue : t.queue.map MutationRow.core = s.queue.map MutationRow.core
  operations : ∃ extra, t.operations = s.operations ++ extra ∧ ∀ o ∈ extra, o.inputPath = none
  dependencies : t.dependencies = s.dependencies
  prerequisites : t.prerequisites = s.prerequisites
  evidence : ∀ k, Relation.ReflTransGen (EvidenceStep m changes k) (s.evidence k) (t.evidence k)
  progress : t.progress = s.progress
  deliveryKeys : t.deliveryKeys = s.deliveryKeys

namespace Stages

variable {m : String} {changes : List AuthorityChange}

theorem ofLocal {s t : Store} (h : Local s t) : Stages m changes s t where
  row := h.row
  descriptors := h.descriptors
  queue := h.queue
  operations := h.operations
  dependencies := h.dependencies
  prerequisites := h.prerequisites
  evidence k := by
    rcases h.evidence k with e | e
    · rw [e]
    · rw [e]; exact .single (.release _)
  progress := h.progress
  deliveryKeys := h.deliveryKeys

theorem refl (s : Store) : Stages m changes s s := ofLocal (Local.refl s)

theorem trans {s t u : Store} (h : Stages m changes s t) (h' : Stages m changes t u) : Stages m changes s u where
  row := by rw [h'.row, h.row]
  descriptors := h'.descriptors.trans h.descriptors
  queue := h'.queue.trans h.queue
  operations := by
    obtain ⟨x, hx, hxn⟩ := h.operations
    obtain ⟨y, hy, hyn⟩ := h'.operations
    refine ⟨x ++ y, by rw [hy, hx, List.append_assoc], fun o ho => ?_⟩
    rcases List.mem_append.1 ho with ho | ho
    · exact hxn o ho
    · exact hyn o ho
  dependencies := h'.dependencies.trans h.dependencies
  prerequisites := h'.prerequisites.trans h.prerequisites
  evidence k := (h.evidence k).trans (h'.evidence k)
  progress := h'.progress.trans h.progress
  deliveryKeys := h'.deliveryKeys.trans h.deliveryKeys

instance : IsPreorder Store (Stages m changes) where
  refl := refl
  trans _ _ _ := trans

/-- Replace the evidence of one record by what it becomes. -/
theorem ofEvidence {s : Store} {key : RecordKey} {e : RecordEvidence}
    (h : EvidenceStep m changes key (s.evidence key) e) :
    Stages m changes s { s with authority := s.authority.set key e } where
  __ := (refl s : Stages m changes s s)
  evidence k := by
    by_cases hk : key = k
    · subst hk
      have : Store.evidence { s with authority := s.authority.set key e } key = e := by simp [Store.evidence]
      rw [this]
      exact .single h
    · have : Store.evidence { s with authority := s.authority.set key e } k = s.evidence k := by
        simp [Store.evidence, Table.get_set_ne _ _ hk]
      rw [this]

end Stages

namespace Engine

section
variable {m : String} {changes : List AuthorityChange}

/-- `evidence.install(..)` and `set_evidence05`. -/
def installEvidence (key : RecordKey) (cursor : Nat) (state : Json) (deleted : Bool)
    (hc : AuthorityChange.record key cursor state ∈ changes) : Within (Stages m changes) Unit where
  run s := match (s.evidence key).install m cursor deleted with
    | .error e => .error e
    | .ok (false, _) => .ok ((), s)
    | .ok (true, e) => .ok ((), { s with authority := s.authority.set key e })
  within := by
    intro s a t h
    cases hi : (s.evidence key).install m cursor deleted with
    | error e => simp [hi] at h
    | ok p =>
      obtain ⟨b, e⟩ := p
      cases b with
      | false => simp only [hi] at h; cases h; exact .refl s
      | true => simp only [hi] at h; cases h; exact .ofEvidence (.install hc hi)

/-- `if evidence.remove(cursor)? { set_evidence05 }`; one when it moved. -/
def removeEvidence (key : RecordKey) (cursor : Nat) (hc : AuthorityChange.remove key cursor ∈ changes) :
    Within (Stages m changes) Nat where
  run s := match (s.evidence key).remove cursor with
    | .error e => .error e
    | .ok (false, _) => .ok (0, s)
    | .ok (true, e) => .ok (1, { s with authority := s.authority.set key e })
  within := by
    intro s a t h
    cases hr : (s.evidence key).remove cursor with
    | error e => simp [hr] at h
    | ok p =>
      obtain ⟨b, e⟩ := p
      cases b with
      | false => simp only [hr] at h; cases h; exact .refl s
      | true => simp only [hr] at h; cases h; exact .ofEvidence (.remove hc hr)

variable (E : Engine)

/-- The content a record change carries (settlement05.rs:497). -/
def incoming (key : RecordKey) (state : Json) : Except String (Option Row) :=
  if state.isNull then .ok none
  else (E.schema.validateState E.platform key.model state).map fun v => some (mergeIdentity key.identity v)

/-- Stage content: over a cleared local layer when newer, under it when rematerialized. -/
def stageContent (admission : AuthorityAdmission) (key : RecordKey) (row : Option Row) : Within Local (List RecordKey) :=
  if admission = .newer then E.stageOne key row else E.stagePreservingLocal key row

/-- A deleted record takes its older descendants along (settlement05.rs:521-538). -/
def stageCascade (admission : AuthorityAdmission) (key : RecordKey) (cursor : Nat) : Within Local (List RecordKey) := do
  let s ← Within.read
  (E.descendantsWhere s key fun k => (s.evidence k).latest ≤ cursor).foldlM (fun held child => do
    let h ← E.stageContent admission child none
    directEvidence child
    pure (held ++ h)) []

/-- Keys of a change are canonical (settlement05.rs:459). -/
def canonicalKey (key : RecordKey) : Except String Unit := do
  let canonical ← E.schema.recordKey E.platform key.model key.identity
  check (canonical = key) "noncanonical authority key"

/-- One change of the install loop (settlement05.rs:479-545): how many were applied and the keys to
rebuild. -/
def stageChange (c : AuthorityChange) (hc : c ∈ changes) : Within (Stages m changes) (Nat × List RecordKey) := do
  Within.lift c.validate
  Within.lift (E.canonicalKey c.key)
  match c, hc with
  | .remove key cursor, hc => do
    let applied ← removeEvidence key cursor hc
    pure (applied, [])
  | .record key cursor state, hc => do
    let admission ← Within.ask fun s => (s.evidence key).admission m cursor
    if admission = .duplicate then pure (0, [])
    else do
      let row ← Within.lift (E.incoming key state)
      installEvidence key cursor state row.isNone hc
      let held ← (E.stageContent admission key row).widen fun _ _ => Stages.ofLocal
      let cascade ← (if row.isNone then E.stageCascade admission key cursor else pure []).widen fun _ _ => Stages.ofLocal
      pure (1, held ++ cascade)

/-- The clear loop (settlement05.rs:456-470): UNIQUE checks must see the final projection, not a
changed row against another row's superseded value. -/
def clearChange (m : String) (c : AuthorityChange) : Within Local Unit := do
  Within.lift c.validate
  Within.lift (E.canonicalKey c.key)
  match c with
  | .remove _ _ => pure ()
  | .record key cursor _ => do
    let admission ← Within.ask fun s => (s.evidence key).admission m cursor
    if admission = .duplicate then pure () else E.mainSet key none

/-- By cursor, deletions after the other changes of their cursor (settlement05.rs:474). -/
def changeLe (a b : AuthorityChange) : Prop :=
  let absent : AuthorityChange → Nat
    | .record _ _ state => if state.isNull then 1 else 0
    | .remove _ _ => 0
  toLex (a.cursor, absent a) ≤ toLex (b.cursor, absent b)

instance : DecidableRel changeLe := fun _ _ => inferInstanceAs (Decidable (toLex _ ≤ toLex _))

theorem mem_ordered {c : AuthorityChange} (h : c ∈ changes.insertionSort changeLe) : c ∈ changes :=
  (List.mem_insertionSort changeLe).1 h

/-- What staging a list of changes contributes. -/
structure Staged where
  applied : Nat := 0
  held : List RecordKey := []

/-- `stage_changes05` (settlement05.rs:445) in materialization `m`. -/
def stageChanges (m : String) (changes : List AuthorityChange) : Within (Stages m changes) Staged := do
  (changes.forM (E.clearChange m)).widen fun _ _ => Stages.ofLocal
  (changes.insertionSort changeLe).attach.foldlM (fun acc c => do
    let x ← E.stageChange c.1 (mem_ordered c.2)
    pure { applied := acc.applied + x.1, held := acc.held ++ x.2 }) {}

end

/-! ## Read snapshots -/

section
variable (E : Engine)

/-- The parent a cascading relation of a row names, if it names one (settlement05.rs:575-590). -/
def parentOf (row : Row) (r : RelationDescriptor) : Option Json :=
  let values := r.fields.map fun f => (Fields.get row f).getD .null
  if values.any (·.isNull) || values.isEmpty then none
  else some (.obj ((r.targetFields.zip values).foldl (fun acc e => Fields.insert acc e.1 e.2) []))

/-- A protected deleted parent blocks a cached child (settlement05.rs:570-600). -/
def blockedByParent (s : Store) (key : RecordKey) (row : Row) : Except String Bool := do
  let m ← E.schema.model key.model
  let parents ← (m.relations.filter (·.cascade)).mapM fun r => match parentOf row r with
    | none => .ok none
    | some identity => do return some (← E.schema.recordKey E.platform r.target identity)
  return (parents.filterMap id).any fun p => (s.evidence p).current.any (·.deleted)

/-- One record of `stage_cache05` (settlement05.rs:551). -/
def cacheRecord (store : Bool) (r : ReadRecord) : Within Local (Nat × List RecordKey) := do
  Within.lift r.validate
  Within.lift (E.canonicalKey r.key)
  let row ← Within.lift (E.incoming r.key r.state)
  let s ← Within.read
  match row with
  | none => pure (0, [])
  | some row =>
    if !store || (s.evidence r.key).current.isSome then pure (0, [])
    else do
      let blocked ← Within.lift (E.blockedByParent s r.key row)
      if blocked then pure (0, [])
      else do
        -- the evidence row is written back as it was read
        Within.write (fun s => { s with authority := s.authority.set r.key (s.evidence r.key) })
          fun s => { Local.refl s with
            evidence := fun k => .inl (by
              by_cases h : r.key = k
              · subst h; simp [Store.evidence]
              · simp [Store.evidence, Table.get_set_ne _ _ h]) }
        let held ← E.stageOne r.key (some row)
        pure (1, held)

/-- `install_cache05` (settlement05.rs:671). -/
def installCache (records : List ReadRecord) (store : Bool) : Within Local ApplyReport := do
  let x ← records.foldlM (fun (acc : Staged) r => do
    let y ← E.cacheRecord store r
    pure { applied := acc.applied + y.1, held := acc.held ++ y.2 }) {}
  let reports ← E.rebuildHeld x.held
  pure { applied := x.applied, reports }

end

/-! ## Cursors -/

/-- `initialize_stream05` (settlement05.rs:613): the handshake stamps `S` and `C` once. -/
def initializeStream (start : Nat) (s : Store) : Except String (Unit × Store) := do
  check (counter start) "counter outside safe integer range"
  return ((), if s.row.startCursor.isNone then
    { s with row := { s.row with startCursor := some start, cursor := some start } } else s)

/-- `commit_sync_coverage05` (settlement05.rs:624). -/
def commitSyncCoverage (after through : Nat) (s : Store) : Except String (Unit × Store) := do
  check (counter after && counter through) "counter outside safe integer range"
  check (after ≤ through) "invalid coverage"
  check (s.row.cursor.getD 0 = after) "coverage prefix gap"
  return ((), { s with row := { s.row with cursor := some through } })

/-- The coverage an authority call claims, if it claims one. -/
def commitCoverage (coverage : Option (Nat × Nat)) (s : Store) : Except String (Unit × Store) :=
  match coverage with
  | some (after, through) => commitSyncCoverage after through s
  | none => .ok ((), s)

section
variable (E : Engine)

/-- `install_authority05` (settlement05.rs:649). -/
def installAuthority (context : RequestContext) (changes : List AuthorityChange) (coverage : Option (Nat × Nat))
    (s : Store) : Except String (ApplyReport × Store) := do
  context.admitContext s.context
  let (staged, s₁) ← (E.stageChanges context.materialization changes).run s
  let (_, s₂) ← commitCoverage coverage s₁
  let (x, s₃) ← E.reconcileReady.run s₂
  let (reports, t) ← (E.rebuildHeld (staged.held ++ x.held)).run s₃
  return ({ applied := staged.applied, reports, completions := x.completions }, t)

end

end Engine

end Axton
