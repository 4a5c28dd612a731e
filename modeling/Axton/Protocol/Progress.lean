import Axton.Lib.Trace
import Axton.Protocol.Units

/-!
# Staging a plan

Model of `DeliveryProgress` (`crates/protocols/src/sync/delivery.rs:122`): parts are staged for the next unit only, a unit
is assembled when its last part arrived, and committing it moves the coverage to its boundary.

| here | there |
|------|-------|
| `DeliveryProgress.start`, `admission`, `checkPart`, `complete` | `new`, `admit`, `check_part`, `complete` |
| `stageWithLimit`, `commit` | the same names |
| `size` | the length of the JSON text of the staged parts |

A call returns its result beside the progress it leaves, which is the old one when it fails. Digests are compared by the
canonical texts they were taken of, so that a part may be staged in another form than it was frozen in
(`plan_returns_other_form`).

* `validateDelivery_boundary` — a validated plan has no later change at or below a boundary;
* `Sound.step` — what every call keeps;
* `plan_cannot_overclaim` — both, over every run.
-/

namespace Axton

structure DeliveryProgress where
  header : DeliveryHeader
  nextUnit : Nat
  covered : Option Nat
  parts : Table Nat (List AuthorityChange)
deriving DecidableEq

namespace DeliveryProgress

/-- The last boundary of the first `n` units of a header (delivery.rs:139). -/
def lastBoundary (h : DeliveryHeader) (n : Nat) : Option Nat := ((h.units.take n).filterMap (·.through)).getLast?

/-- `check_part` (delivery.rs:193). -/
def checkPart (p : DeliveryProgress) (part : DeliveryPart) : Except String Unit := do
  part.validate
  check (part.planId = p.header.planId && part.planDigest = p.header.digest && part.unit = p.nextUnit)
    "part plan or prefix mismatch"
  match p.header.units[part.unit]? with
  | none => .error "unknown unit"
  | some unit => check ((unit.parts[part.part]?).any (·.matches part.body)) "part digest mismatch"

/-- A staged part as it was received. -/
def partOf (p : DeliveryProgress) (e : Nat × List AuthorityChange) : DeliveryPart :=
  ⟨p.header.planId, p.header.digest, p.nextUnit, e.1, e.2⟩

/-- `DeliveryProgress::validate` (delivery.rs:132). -/
def validate (p : DeliveryProgress) : Except String Unit := do
  p.header.validate
  check (counter p.nextUnit) "counter outside safe integer range"
  check (p.nextUnit ≤ p.header.units.length) "progress beyond plan"
  check (p.covered = lastBoundary p.header p.nextUnit) "progress coverage mismatch"
  if p.nextUnit = p.header.units.length then check p.parts.isEmpty "completed staging"
  else p.parts.forM fun e => p.checkPart (p.partOf e)

/-- `DeliveryProgress::new` (delivery.rs:168). -/
def start (h : DeliveryHeader) (active : RequestContext) (now : Nat) : Except String DeliveryProgress := do
  h.validate
  h.admitContext active
  check (counter now) "counter outside safe integer range"
  check (now < h.expiresAt) "plan expired"
  return ⟨h, 0, none, []⟩

/-- `DeliveryProgress::admit` (delivery.rs:182). -/
def admission (p : DeliveryProgress) (active : RequestContext) (now : Nat) : Except String Unit := do
  p.validate
  p.header.admitContext active
  check (counter now) "counter outside safe integer range"
  check (now < p.header.expiresAt) "plan expired"

/-- The staged changes in part order. -/
def values (p : DeliveryProgress) : List AuthorityChange := (p.parts.insertionSort (·.1 ≤ ·.1)).flatMap (·.2)

/-- `complete` (delivery.rs:212). -/
def complete (p : DeliveryProgress) : Except String (Option DeliveryUnit) :=
  match p.header.units[p.nextUnit]? with
  | none => .ok none
  | some manifest =>
    if p.parts.length ≠ manifest.parts.length then .ok none
    else do
      let unit : DeliveryUnit := ⟨p.nextUnit, manifest.through, p.values⟩
      unit.validate
      check (minimumCursor unit.changes = manifest.minimumCursor &&
          !(unit.changes.any fun c => decide (p.header.observedHead < c.cursor) || p.header.after.any (c.cursor ≤ ·)) &&
          manifest.digest.matches unit)
        "assembled unit digest mismatch"
      return some unit

section
variable (size : Table Nat (List AuthorityChange) → Nat)

/-- What `stage_with_limit` assigns and returns when it succeeds. -/
def staging (p : DeliveryProgress) (part : DeliveryPart) (active : RequestContext) (now capacity : Nat) :
    Except String (Option DeliveryUnit × DeliveryProgress) := do
  p.admission active now
  p.checkPart part
  let staged := { p with parts := p.parts.set part.part part.changes }
  check (size staged.parts ≤ capacity) "staging capacity exceeded"
  let unit ← staged.complete
  return (unit, staged)

/-- `stage_with_limit` (delivery.rs:236). -/
def stageWithLimit (p : DeliveryProgress) (part : DeliveryPart) (active : RequestContext) (now capacity : Nat) :
    Except String (Option DeliveryUnit) × DeliveryProgress :=
  match staging size p part active now capacity with
  | .error e => (.error e, p)
  | .ok (unit, staged) => (.ok unit, staged)

/-- `commit` (delivery.rs:252). -/
def commit (p : DeliveryProgress) (unit : DeliveryUnit) (active : RequestContext) (now : Nat) :
    Except String Unit × DeliveryProgress :=
  match (do
      p.admission active now
      let staged ← p.complete
      check (staged = some unit) "complete staged unit required" : Except String Unit) with
  | .error e => (.error e, p)
  | .ok () => (.ok (), { p with
      covered := unit.through.orElse fun _ => p.covered
      nextUnit := p.nextUnit + 1
      parts := [] })

/-- A call on a progress and what it returned. -/
inductive Event where
  | stage (part : DeliveryPart) (active : RequestContext) (now capacity : Nat) (result : Except String (Option DeliveryUnit))
  | commit (unit : DeliveryUnit) (active : RequestContext) (now : Nat) (result : Except String Unit)

/-- The unit a call committed. -/
def Event.committed : Event → Option DeliveryUnit
  | .commit unit _ _ (.ok ()) => some unit
  | _ => none

def Event.failed : Event → Bool
  | .stage _ _ _ _ (.error _) => true
  | .commit _ _ _ (.error _) => true
  | _ => false

inductive Step : DeliveryProgress → Event → DeliveryProgress → Prop
  | stage (p : DeliveryProgress) (part : DeliveryPart) (active : RequestContext) (now capacity : Nat) :
      Step p (.stage part active now capacity (p.stageWithLimit size part active now capacity).1)
        (p.stageWithLimit size part active now capacity).2
  | commit (p : DeliveryProgress) (unit : DeliveryUnit) (active : RequestContext) (now : Nat) :
      Step p (.commit unit active now (p.commit unit active now).1) (p.commit unit active now).2

end

/-! ## What every call keeps -/

/-- A progress of a plan: its coverage is that of its committed prefix, and what is staged are parts of its next unit. -/
structure Sound (h : DeliveryHeader) (p : DeliveryProgress) : Prop where
  header : p.header = h
  covered : p.covered = lastBoundary h p.nextUnit
  keys : (p.parts.map (·.1)).Nodup
  staged : ∀ e ∈ p.parts, p.checkPart (p.partOf e) = .ok ()

variable {h : DeliveryHeader} {p p' : DeliveryProgress} {units : List DeliveryUnit}
  {size : Table Nat (List AuthorityChange) → Nat}

theorem start_sound {active : RequestContext} {now : Nat} (hs : start h active now = .ok p) : Sound h p ∧ p.nextUnit = 0 := by
  simp only [start, bind_ok, pure_ok] at hs
  obtain ⟨_, _, _, _, _, _, _, _, rfl⟩ := hs
  exact ⟨⟨rfl, by simp [lastBoundary], by simp, by simp⟩, rfl⟩

/-- A checked part is one of the manifest of the next unit. -/
theorem checkPart_ok {part : DeliveryPart} (hc : p.checkPart part = .ok ()) :
    part = p.partOf (part.part, part.changes) ∧
      ∃ m d, p.header.units[p.nextUnit]? = some m ∧ m.parts[part.part]? = some d ∧ d.matches part.body = true := by
  simp only [checkPart, bind_ok, check_ok, Bool.and_eq_true, decide_eq_true_eq] at hc
  obtain ⟨_, _, _, ⟨⟨hplan, hdigest⟩, hunit⟩, hc⟩ := hc
  split at hc
  · cases hc
  · rename_i m hm
    rw [hunit] at hm
    obtain ⟨d, hd, hmatch⟩ := Option.any_eq_true _ _ |>.1 (check_ok.1 hc)
    refine ⟨?_, m, d, hm, hd, hmatch⟩
    rw [partOf, ← hplan, ← hdigest, ← hunit]

/-- Every part of the next unit is staged. -/
def AllStaged (p : DeliveryProgress) : Prop :=
  ∃ m, p.header.units[p.nextUnit]? = some m ∧ ∀ k < m.parts.length, (p.parts.get k).isSome

/-- **A unit is assembled only from all its parts, and has the text of the frozen one.** -/
theorem complete_frozen (hv : validateDelivery h units = .ok ()) (sound : Sound h p) {u : DeliveryUnit}
    (hc : p.complete = .ok (some u)) : (∃ w, units[p.nextUnit]? = some w ∧ u.Same w) ∧ AllStaged p := by
  unfold complete at hc
  split at hc
  · cases hc
  · rename_i m hm
    split at hc
    · cases hc
    · rename_i hlen
      simp only [bind_ok, check_ok, Bool.and_eq_true, decide_eq_true_eq, pure_ok, Option.some.injEq] at hc
      obtain ⟨_, _, _, ⟨-, hdigest⟩, rfl⟩ := hc
      refine ⟨?_, m, hm, fun k hk => ?_⟩
      · rw [sound.header] at hm
        simp only [validateDelivery, bind_ok, check_ok, decide_eq_true_eq] at hv
        obtain ⟨_, _, _, hcount, _, hunits, -⟩ := hv
        have hi := (List.getElem?_eq_some_iff.1 hm).1
        have hu : units[p.nextUnit]? = some (units[p.nextUnit]) := List.getElem?_eq_getElem (by omega)
        have hpair : ((m, units[p.nextUnit]), p.nextUnit) ∈ (h.units.zip units).zipIdx := by
          rw [List.mk_mem_zipIdx_iff_getElem?, List.getElem?_zip_eq_some]
          exact ⟨hm, hu⟩
        have hunit := forM_ok.1 hunits _ hpair
        simp only [validateUnit, bind_ok, check_ok, Bool.and_eq_true, decide_eq_true_eq] at hunit
        obtain ⟨_, _, _, ⟨-, hfrozen⟩, -⟩ := hunit
        exact ⟨_, hu, Digest.matches_same hdigest hfrozen⟩
      · -- as many distinct parts below the bound as the bound
        have hbound : ∀ i ∈ p.parts.map (·.1), i ∈ List.range m.parts.length := by
          intro i hi
          obtain ⟨e, he, rfl⟩ := List.mem_map.1 hi
          obtain ⟨-, m', d, hm', hpart, -⟩ := checkPart_ok (sound.staged e he)
          rw [hm] at hm'
          cases hm'
          rw [List.mem_range]
          exact (List.getElem?_eq_some_iff.1 hpart).1
        have hperm := (List.subperm_of_subset sound.keys hbound).perm_of_length_le (by
          rw [List.length_range, List.length_map]
          omega)
        rw [Table.get_isSome_iff]
        exact hperm.mem_iff.2 (List.mem_range.2 hk)

/-- Staging keeps the progress sound and never moves it. -/
theorem staging_sound {part : DeliveryPart} {active : RequestContext} {now capacity : Nat} {u : Option DeliveryUnit}
    (sound : Sound h p) (hs : staging size p part active now capacity = .ok (u, p')) :
    Sound h p' ∧ p'.nextUnit = p.nextUnit ∧ p'.complete = .ok u := by
  simp only [staging, bind_ok, pure_ok, Prod.mk.injEq] at hs
  obtain ⟨_, _, _, hpart, _, _, unit, hcomplete, rfl, rfl⟩ := hs
  refine ⟨⟨sound.header, sound.covered, Table.nodup_set sound.keys _ _, fun e he => ?_⟩, rfl, hcomplete⟩
  rcases Table.mem_set he with rfl | he
  · have hsame := (checkPart_ok hpart).1
    show p.checkPart (p.partOf (part.part, part.changes)) = .ok ()
    rw [← hsame]
    exact hpart
  · exact sound.staged e he

theorem lastBoundary_succ {n : Nat} {m : UnitManifest} (hm : h.units[n]? = some m) :
    lastBoundary h (n + 1) = m.through.orElse fun _ => lastBoundary h n := by
  unfold lastBoundary
  rw [List.take_add_one, hm]
  cases ht : m.through with
  | none => simp [ht]
  | some t => simp [ht]

/-- **Committing moves the coverage to the boundary of the unit.** -/
theorem commit_cases (sound : Sound h p) (unit : DeliveryUnit) (active : RequestContext) (now : Nat) :
    (∃ e, p.commit unit active now = (.error e, p)) ∨
      (p.commit unit active now).1 = .ok () ∧ p.complete = .ok (some unit) ∧
        (p.commit unit active now).2.nextUnit = p.nextUnit + 1 ∧ Sound h (p.commit unit active now).2 := by
  unfold commit
  split
  · exact .inl ⟨_, rfl⟩
  · rename_i hok
    simp only [bind_ok, check_ok, decide_eq_true_eq] at hok
    obtain ⟨_, _, staged, hcomplete, rfl⟩ := hok
    refine .inr ⟨rfl, hcomplete, rfl, sound.header, ?_, by simp, by simp⟩
    unfold complete at hcomplete
    split at hcomplete
    · cases hcomplete
    · rename_i m hm
      split at hcomplete
      · cases hcomplete
      · simp only [bind_ok, pure_ok, Option.some.injEq] at hcomplete
        obtain ⟨_, _, _, _, rfl⟩ := hcomplete
        show (m.through.orElse fun _ => p.covered) = lastBoundary h (p.nextUnit + 1)
        rw [lastBoundary_succ (sound.header ▸ hm), sound.covered]

theorem stage_cases (size : Table Nat (List AuthorityChange) → Nat) (sound : Sound h p) (part : DeliveryPart) (active : RequestContext) (now capacity : Nat) :
    (∃ e, p.stageWithLimit size part active now capacity = (.error e, p)) ∨
      ∃ u p', p.stageWithLimit size part active now capacity = (.ok u, p') ∧ Sound h p' ∧ p'.nextUnit = p.nextUnit ∧
        p'.complete = .ok u := by
  unfold stageWithLimit
  split
  · exact .inl ⟨_, rfl⟩
  · rename_i u p' hs
    exact .inr ⟨u, p', rfl, staging_sound sound hs⟩

/-- A progress with the units committed so far. -/
structure Committed (h : DeliveryHeader) (units : List DeliveryUnit) (es : List Event) (p : DeliveryProgress) : Prop where
  sound : Sound h p
  prior : List.Forall₂ DeliveryUnit.Same (es.filterMap Event.committed) (units.take p.nextUnit)

/-- **Every call keeps the progress sound**, and commits the next frozen unit or none. -/
theorem Committed.step (hv : validateDelivery h units = .ok ()) {es : List Event} {e : Event}
    (c : Committed h units es p) (hstep : Step size p e p') : Committed h units (es ++ [e]) p' := by
  cases hstep with
  | stage part active now capacity =>
    have hnone : ∀ r, Event.committed (.stage part active now capacity r) = none := fun _ => rfl
    rcases stage_cases size c.sound part active now capacity with ⟨m, hm⟩ | ⟨u, p'', hok, sound, hnext, -⟩
    · rw [hm]
      exact ⟨c.sound, by simpa [hnone] using c.prior⟩
    · rw [hok]
      exact ⟨sound, by simpa [hnone, hnext] using c.prior⟩
  | commit unit active now =>
    rcases commit_cases c.sound unit active now with ⟨m, hm⟩ | ⟨hok, hcomplete, hnext, sound⟩
    · have hnone : Event.committed (.commit unit active now (.error m)) = none := rfl
      rw [hm]
      exact ⟨c.sound, by simpa [hnone] using c.prior⟩
    · obtain ⟨w, hw, hsame⟩ := (complete_frozen hv c.sound hcomplete).1
      refine ⟨sound, ?_⟩
      rw [List.filterMap_append, hnext, hok, List.take_add_one, hw]
      exact List.rel_append c.prior (.cons hsame .nil)

end DeliveryProgress

/-! ## No overclaim -/

/-- The units of a validated plan are as their manifests say. -/
theorem validateDelivery_manifests {h : DeliveryHeader} {units : List DeliveryUnit} (hv : validateDelivery h units = .ok ()) :
    units.map (·.through) = h.units.map (·.through) ∧
      units.map (minimumCursor ·.changes) = h.units.map (·.minimumCursor) := by
  simp only [validateDelivery, bind_ok, check_ok, decide_eq_true_eq] at hv
  obtain ⟨_, -, _, hcount, _, hunits, -⟩ := hv
  have hagree : ∀ (i : Nat) (hi : i < units.length) (hi' : i < h.units.length),
      units[i].through = h.units[i].through ∧ minimumCursor units[i].changes = h.units[i].minimumCursor := by
    intro i hi hi'
    have hmem : ((h.units[i], units[i]), i) ∈ (h.units.zip units).zipIdx := by
      rw [List.mk_mem_zipIdx_iff_getElem?, List.getElem?_zip_eq_some]
      exact ⟨List.getElem?_eq_getElem hi', List.getElem?_eq_getElem hi⟩
    have hunit := forM_ok.1 hunits _ hmem
    simp only [validateUnit, bind_ok, check_ok, Bool.and_eq_true, decide_eq_true_eq] at hunit
    obtain ⟨_, _, _, ⟨⟨⟨-, hthrough⟩, hminimum⟩, -⟩, -⟩ := hunit
    exact ⟨hthrough, hminimum⟩
  constructor
  · refine List.ext_getElem (by simpa using hcount) fun i hi hi' => ?_
    simp only [List.length_map] at hi hi'
    simpa using (hagree i hi hi').1
  · refine List.ext_getElem (by simpa using hcount) fun i hi hi' => ?_
    simp only [List.length_map] at hi hi'
    simpa using (hagree i hi hi').2

/-- **A validated plan has no later change at or below a boundary.** -/
theorem validateDelivery_boundary {h : DeliveryHeader} {units : List DeliveryUnit} (hv : validateDelivery h units = .ok ()) :
    units.Pairwise fun u w => ∀ t, u.through = some t → ∀ c ∈ w.changes, t < c.cursor := by
  obtain ⟨hthroughs, hminima⟩ := validateDelivery_manifests hv
  simp only [validateDelivery, bind_ok] at hv
  obtain ⟨_, hheader, -⟩ := hv
  simp only [DeliveryHeader.validate, bind_ok] at hheader
  obtain ⟨_, _, _, _, _, _, _, _, _, _, _, hmanifests, -⟩ := hheader
  have hpair := validateManifests_boundary hmanifests
  have hlen : units.length = h.units.length := by simpa using congrArg List.length hthroughs
  rw [List.pairwise_iff_getElem] at hpair ⊢
  intro i j hi hj hij t ht c hc
  have hi' : i < h.units.length := by omega
  have hj' : j < h.units.length := by omega
  have hthrough : units[i].through = h.units[i].through := by
    have := congrArg (·[i]?) hthroughs
    simpa [hi, hi'] using this
  have hminimum : minimumCursor units[j].changes = h.units[j].minimumCursor := by
    have := congrArg (·[j]?) hminima
    simpa [hj, hj'] using this
  obtain ⟨m, hm, hle⟩ := minimumCursor_le hc
  rw [hthrough] at ht
  rw [hminimum] at hm
  have := hpair i j hi' hj' hij t ht m hm
  omega

/-- The last boundary of a front of the units belongs to one of them. -/
theorem mem_of_lastBoundary {us : List DeliveryUnit} {t : Nat} (h : (us.filterMap (·.through)).getLast? = some t) :
    ∃ u ∈ us, u.through = some t := by
  obtain ⟨u, hu, ht⟩ := List.mem_filterMap.1 (List.mem_of_getLast? h)
  exact ⟨u, hu, ht⟩

/-- **A validated plan cannot overclaim.** The last boundary of any front of its units lies below every change of the
others; and over every run of staging and committing, whatever the parts, the coverage is the last boundary of the
committed units, which are a front of the plan's, a unit is returned only when all its parts are staged and is the
frozen one, up to the order of entries and the form of numbers, and a failed call changes nothing. -/
theorem plan_cannot_overclaim {h : DeliveryHeader} {units : List DeliveryUnit} (hv : validateDelivery h units = .ok ()) :
    (∀ n t, ((units.take n).filterMap (·.through)).getLast? = some t → ∀ u ∈ units.drop n, ∀ c ∈ u.changes, t < c.cursor) ∧
    ∀ size active now p₀ es p, DeliveryProgress.start h active now = .ok p₀ →
      Trace (DeliveryProgress.Step size) p₀ es p →
      List.Forall₂ DeliveryUnit.Same (es.filterMap DeliveryProgress.Event.committed) (units.take p.nextUnit) ∧
      p.covered = ((units.take p.nextUnit).filterMap (·.through)).getLast? ∧
      ∀ e p', DeliveryProgress.Step size p e p' →
        (∀ part active now capacity u, e = .stage part active now capacity (.ok (some u)) →
          (∃ w, units[p.nextUnit]? = some w ∧ u.Same w) ∧ p'.AllStaged) ∧
        (e.failed = true → p' = p) := by
  refine ⟨fun n t ht u hu c hc => ?_, fun size active now p₀ es p hstart hrun => ?_⟩
  · obtain ⟨w, hw, hwt⟩ := mem_of_lastBoundary ht
    have hpair := validateDelivery_boundary hv
    rw [← List.take_append_drop n units, List.pairwise_append] at hpair
    exact hpair.2.2 w hw u hu t hwt c hc
  · obtain ⟨hsound, hzero⟩ := DeliveryProgress.start_sound hstart
    have c : DeliveryProgress.Committed h units es p :=
      hrun.inv_labels (DeliveryProgress.Committed h units) (fun es s e t hs hstep => hs.step hv hstep)
        ⟨hsound, by simp [hzero]⟩
    refine ⟨c.prior, ?_, fun e p' hstep => ?_⟩
    · have hthroughs : (units.take p.nextUnit).map (·.through) = (h.units.take p.nextUnit).map (·.through) := by
        rw [List.map_take, List.map_take, (validateDelivery_manifests hv).1]
      have hboundaries := congrArg (List.filterMap id) hthroughs
      rw [List.filterMap_map, List.filterMap_map] at hboundaries
      rw [c.sound.covered, DeliveryProgress.lastBoundary]
      exact (congrArg List.getLast? hboundaries).symm
    · cases hstep with
      | stage part active now capacity =>
        rcases DeliveryProgress.stage_cases size c.sound part active now capacity with ⟨m, hm⟩ | ⟨u, p'', hok, sound, hnext, hc⟩
        · rw [hm]
          refine ⟨fun part' active' now' capacity' u he => ?_, fun _ => rfl⟩
          cases he
        · rw [hok]
          refine ⟨fun part' active' now' capacity' u' he => ?_, fun hf => by cases hf⟩
          cases he
          obtain ⟨hunit, hall⟩ := DeliveryProgress.complete_frozen hv sound hc
          exact ⟨hnext ▸ hunit, hall⟩
      | commit unit active now =>
        rcases DeliveryProgress.commit_cases c.sound unit active now with ⟨m, hm⟩ | ⟨hok, -⟩
        · rw [hm]
          exact ⟨nofun, fun _ => rfl⟩
        · rw [hok]
          exact ⟨nofun, nofun⟩

namespace Notes

/-- Note `a` with a score, at 6. -/
def scored (score : Num) : DeliveryUnit :=
  ⟨0, some 6, [.record ⟨"note", .obj [("id", .str "a")]⟩ 6 (.obj [("score", .num score)])]⟩

/-- Note `a` and note `b`, in two units. -/
def twoUnits : List DeliveryUnit :=
  [scored (.float 1), ⟨1, some 7, [.record ⟨"note", .obj [("id", .str "b")]⟩ 7 .null]⟩]

def reader : RequestContext := { storeId := "store", stream := "user", materialization := "m-notes" }

def twoUnitsPlan : Except String FrozenDelivery := freeze reader "page" false none (some 5) (some 7) 7 10 twoUnits 500

theorem twoUnitsPlan_isSome : twoUnitsPlan.toOption.isSome = true := by decide +kernel

def twoUnitsHeader : DeliveryHeader := (twoUnitsPlan.toOption.get twoUnitsPlan_isSome).header

theorem twoUnits_valid : validateDelivery twoUnitsHeader twoUnits = .ok () := ok_of_toOption (by decide +kernel)

def begun : DeliveryProgress := ⟨twoUnitsHeader, 0, none, []⟩

theorem begun_start : DeliveryProgress.start twoUnitsHeader reader 0 = .ok begun := ok_of_toOption (by decide +kernel)

/-- The part of the first unit, with its score `1.0` as the integer `1`. -/
def otherPart : DeliveryPart := ⟨"page", twoUnitsHeader.digest, 0, 0, (scored (.posInt 1)).changes⟩

def otherStaged : Except String (Option DeliveryUnit) × DeliveryProgress :=
  begun.stageWithLimit List.length otherPart reader 0 1

def otherCommitted : Except String Unit × DeliveryProgress := otherStaged.2.commit (scored (.posInt 1)) reader 0

theorem other_runs : Trace (DeliveryProgress.Step List.length) begun
    ([] ++ [.stage otherPart reader 0 1 otherStaged.1] ++ [.commit (scored (.posInt 1)) reader 0 otherCommitted.1])
    otherCommitted.2 :=
  (Trace.nil.snoc (.stage begun otherPart reader 0 1)).snoc (.commit otherStaged.2 (scored (.posInt 1)) reader 0)

end Notes

/-- The first unit is staged and committed: nothing at or below position 6 is left, and 6 is covered. -/
theorem plan_cannot_overclaim_notes :
    ((Notes.twoUnits.drop 1).all fun u => u.changes.all fun c => decide (6 < c.cursor)) = true ∧
      Notes.otherCommitted.2.covered = some 6 ∧ (Notes.scored (.posInt 1)).Same (Notes.scored (.float 1)) := by
  obtain ⟨beyond, run⟩ := plan_cannot_overclaim Notes.twoUnits_valid
  obtain ⟨hcommitted, hcovered, -⟩ := run _ _ _ _ _ _ Notes.begun_start Notes.other_runs
  have hresult : Notes.otherCommitted.1 = .ok () := ok_of_toOption (by decide +kernel)
  have hnext : Notes.otherCommitted.2.nextUnit = 1 := by decide +kernel
  rw [hnext] at hcommitted hcovered
  rw [hresult] at hcommitted
  refine ⟨by simpa [List.all_eq_true] using beyond 1 6 (by decide), hcovered, ?_⟩
  have hall : List.Forall₂ DeliveryUnit.Same [Notes.scored (.posInt 1)] (Notes.twoUnits.take 1) := hcommitted
  exact (List.forall₂_cons.1 hall).1

/-- **A returned unit need not equal the frozen one.** A wrong part that writes the score `1.0` as the integer `1` has
the digest of the frozen part, and the unit made of it that of the frozen unit. -/
theorem plan_returns_other_form :
    validateDelivery Notes.twoUnitsHeader Notes.twoUnits = .ok () ∧
      DeliveryProgress.start Notes.twoUnitsHeader Notes.reader 0 = .ok Notes.begun ∧
      Notes.otherStaged.1 = .ok (some (Notes.scored (.posInt 1))) ∧
      Notes.twoUnits[Notes.begun.nextUnit]? = some (Notes.scored (.float 1)) ∧
      Notes.scored (.posInt 1) ≠ Notes.scored (.float 1) :=
  ⟨Notes.twoUnits_valid, Notes.begun_start, ok_of_toOption (by decide +kernel), rfl, by decide⟩

end Axton
