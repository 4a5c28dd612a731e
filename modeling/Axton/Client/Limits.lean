import Axton.Client.Spool
import Axton.Protocol.Freeze

/-!
# The limits of staging

What a call may do to the bytes and slots of a delivery queue (`Bounded`, kept by every operation), and what an
offer that is refused leaves behind.
-/

namespace Axton

/-! ## Moving parts to disk -/

namespace Spilling

variable (z : Sizes) (disk : Disk) (budget : Nat)

theorem entry_contents (s : Spilling) (e : (Nat × Nat) × StagedPart) :
    (fun e : (Nat × Nat) × StagedPart => (e.1, e.2.part)) (entry z disk budget s e).2 = (e.1, e.2.part) := by
  simp only [entry, part]
  split
  · rfl
  · split <;> rfl

theorem plan_contents (s : Spilling) (e : String × SpooledPlan) :
    (fun e : String × SpooledPlan => (e.1, e.2.contents)) (plan z disk budget s e).2 = (e.1, e.2.contents) := by
  have h : (walk (entry z disk budget) s e.2.parts).2.map (fun e => (e.1, e.2.part)) =
      e.2.parts.map fun e => (e.1, e.2.part) :=
    walk_map (h := fun e : (Nat × Nat) × StagedPart => (e.1, e.2.part)) (entry_contents z disk budget) e.2.parts s
  simp only [plan, SpooledPlan.contents, h]

/-- Bytes of one entry held in memory. -/
def weight (e : (Nat × Nat) × StagedPart) : Nat := if e.2.memory then z.part e.2.part else 0

/-- One part: the bytes in memory go down by what moved. -/
theorem entry_weight (s : Spilling) (e : (Nat × Nat) × StagedPart) (h : weight z e ≤ s.used) :
    (entry z disk budget s e).1.used + weight z e = s.used + weight z (entry z disk budget s e).2 ∧
      weight z (entry z disk budget s e).2 ≤ weight z e := by
  simp only [entry, part]
  split
  · exact ⟨rfl, le_rfl⟩
  · rename_i hc
    have hm : e.2.memory = true := by
      simp only [Bool.or_eq_true, not_or, Bool.not_eq_true, Bool.not_eq_false'] at hc
      exact hc.2
    split
    · exact ⟨rfl, le_rfl⟩
    · simp only [weight, hm, if_true] at h ⊢
      simp only [Bool.false_eq_true, if_false]
      omega

theorem entry_mono (s : Spilling) (e : (Nat × Nat) × StagedPart) : (entry z disk budget s e).1.used ≤ s.used := by
  simp only [entry, part]
  split
  · exact le_rfl
  · split
    · exact le_rfl
    · exact Nat.sub_le _ _

theorem entry_back (s : Spilling) (e : (Nat × Nat) × StagedPart) (h : (entry z disk budget s e).1.failure = none) :
    s.failure = none := by
  simp only [entry, part] at h
  split at h
  · exact h
  · split at h
    · cases h
    · exact h

/-- A part stays in memory only within the budget. -/
theorem entry_within (s : Spilling) (e : (Nat × Nat) × StagedPart)
    (h : (entry z disk budget s e).1.failure = none) :
    (entry z disk budget s e).1.used ≤ budget ∨ weight z (entry z disk budget s e).2 = 0 := by
  have hs := entry_back z disk budget s e h
  simp only [entry, part] at h ⊢
  split
  · rename_i hc
    simp only [hs, Option.isSome_none, Bool.false_or, Bool.or_eq_true, decide_eq_true_eq, Bool.not_eq_true'] at hc
    rcases hc with hc | hc
    · exact .inl hc
    · exact .inr (by simp [weight, hc])
  · rename_i hc
    rw [if_neg hc] at h
    cases hd : disk s.writes with
    | error e' => simp [hd] at h
    | ok u => exact .inr (by simp [weight])

theorem plan_weight (s : Spilling) (e : String × SpooledPlan) (h : e.2.inMemory z ≤ s.used) :
    (plan z disk budget s e).1.used + e.2.inMemory z = s.used + (plan z disk budget s e).2.2.inMemory z ∧
      (plan z disk budget s e).2.2.inMemory z ≤ e.2.inMemory z :=
  walk_weight (entry_weight z disk budget) e.2.parts s h

theorem plan_mono (s : Spilling) (e : String × SpooledPlan) : (plan z disk budget s e).1.used ≤ s.used := by
  have h : ∀ (l : Table (Nat × Nat) StagedPart) (s : Spilling), (walk (entry z disk budget) s l).1.used ≤ s.used := by
    intro l
    induction l with
    | nil => exact fun _ => le_rfl
    | cons e l ih => exact fun s => (ih _).trans (entry_mono z disk budget s e)
  exact h e.2.parts s

theorem plan_within (s : Spilling) (e : String × SpooledPlan) (h : (plan z disk budget s e).1.failure = none) :
    s.failure = none ∧ ((plan z disk budget s e).1.used ≤ budget ∨ (plan z disk budget s e).2.2.inMemory z = 0) := by
  obtain ⟨⟨-, hs⟩, hw⟩ := walk_within (v := weight z) (u := Spilling.used) (g := fun s => s.failure = none)
    (entry_mono z disk budget) (entry_back z disk budget) (entry_within z disk budget) e.2.parts s h
  exact ⟨hs, hw⟩

end Spilling

namespace SpooledQueue

section
variable {z : Sizes} {disk : Disk} {q q' : SpooledQueue}

/-! ### What a spill keeps -/

@[simp] theorem spill_contents (budget : Nat) : (q.spill z disk budget).2.contents = q.contents :=
  walk_map (h := fun e : String × SpooledPlan => (e.1, e.2.contents)) (Spilling.plan_contents z disk budget) q.plans _

/-- What the contents of a queue decide. -/
theorem metadata_of_contents (h : q'.contents = q.contents) : q'.metadata z = q.metadata z := by
  have hf : ∀ r : SpooledQueue, r.metadata z = Table.total (fun e => z.header e.2.header) r.contents := by
    intro r
    simp [metadata, contents, Table.total, Function.comp_def, SpooledPlan.contents]
  rw [hf, hf, h]

theorem payload_of_contents (h : q'.contents = q.contents) : q'.payload z = q.payload z := by
  have hf : ∀ r : SpooledQueue, r.payload z =
      Table.total (fun e => Table.total (fun e => z.part e.2) e.2.parts) r.contents := by
    intro r
    simp [payload, contents, SpooledPlan.payload, Table.total, Function.comp_def, SpooledPlan.contents]
  rw [hf, hf, h]

theorem length_of_contents (h : q'.contents = q.contents) : q'.plans.length = q.plans.length := by
  simpa [contents] using congrArg List.length h

theorem get_contents (q : SpooledQueue) (id : String) :
    Table.get q.contents id = (q.plans.get id).map SpooledPlan.contents := by
  have h : ∀ t : Table String SpooledPlan,
      Table.get (t.map fun e => (e.1, e.2.contents)) id = (t.get id).map SpooledPlan.contents := by
    intro t
    induction t with
    | nil => rfl
    | cons e t ih =>
      by_cases he : e.1 = id
      · simp [Table.get, he]
      · simpa [Table.get, he] using ih
  exact h q.plans

theorem get_parts_contents (p : SpooledPlan) (k : Nat × Nat) :
    p.contents.parts.get k = (p.parts.get k).map StagedPart.part := by
  have h : ∀ t : Table (Nat × Nat) StagedPart,
      Table.get (t.map fun e => (e.1, e.2.part)) k = (t.get k).map StagedPart.part := by
    intro t
    induction t with
    | nil => rfl
    | cons e t ih =>
      by_cases he : e.1 = k
      · simp [Table.get, he]
      · simpa [Table.get, he] using ih
  exact h p.parts

/-- A spill without failure leaves no more in memory than the budget allows. -/
theorem spill_inMemory {budget : Nat} (h : (q.spill z disk budget).1.failure = none) :
    (q.spill z disk budget).1.used = (q.spill z disk budget).2.inMemory z ∧
      (q.spill z disk budget).2.inMemory z ≤ budget := by
  have hw : (q.spill z disk budget).1.used + q.inMemory z = q.inMemory z + (q.spill z disk budget).2.inMemory z ∧
      (q.spill z disk budget).2.inMemory z ≤ q.inMemory z :=
    walk_weight (u := Spilling.used) (w := fun e : String × SpooledPlan => e.2.inMemory z)
      (v := fun e : String × SpooledPlan => e.2.inMemory z)
      (Spilling.plan_weight z disk budget) q.plans { used := q.inMemory z } le_rfl
  obtain ⟨-, hb⟩ := walk_within (u := Spilling.used) (v := fun e : String × SpooledPlan => e.2.inMemory z)
    (g := fun s => s.failure = none) (Spilling.plan_mono z disk budget)
    (fun s e he => (Spilling.plan_within z disk budget s e he).1)
    (fun s e he => (Spilling.plan_within z disk budget s e he).2) q.plans { used := q.inMemory z } h
  have hb' : (q.spill z disk budget).1.used ≤ budget ∨ (q.spill z disk budget).2.inMemory z = 0 := hb
  omega

/-- A spill, failed or not, brings nothing back into memory. -/
theorem spill_inMemory_le (budget : Nat) : (q.spill z disk budget).2.inMemory z ≤ q.inMemory z :=
  (walk_weight (u := Spilling.used) (w := fun e : String × SpooledPlan => e.2.inMemory z)
    (v := fun e : String × SpooledPlan => e.2.inMemory z)
    (Spilling.plan_weight z disk budget) q.plans { used := q.inMemory z } le_rfl).2

/-! ### Eviction -/

/-- Forget the plans of some ids. -/
def without (q : SpooledQueue) (ids : List String) : SpooledQueue :=
  { q with plans := q.plans.filter fun e => !ids.contains e.1 }

/-- Fewer plans fit where more did. -/
theorem fits_sublist {m x : Nat} (hs : q'.plans.Sublist q.plans) (hc : q'.capacity = q.capacity)
    (hp : q'.payloadLimit = q.payloadLimit) (h : q.fits z m x = true) : q'.fits z m x = true := by
  simp only [fits, Bool.and_eq_true, decide_eq_true_eq, hc, hp] at h ⊢
  have h1 : q'.metadata z ≤ q.metadata z := Table.total_sublist _ hs
  have h2 : q'.payload z ≤ q.payload z := Table.total_sublist _ hs
  omega

theorem evict_of_fits {m x : Nat} (h : q.fits z m x = true) (ids : List String) : evict z m x ids q = q := by
  cases ids with
  | nil => rfl
  | cons id rest => simp [evict, h]

/-- Eviction makes room exactly when the whole list does. -/
theorem evict_fits (m x : Nat) : ∀ (ids : List String) (q : SpooledQueue),
    (evict z m x ids q).fits z m x = (q.without ids).fits z m x
  | [], q => by
    have : q.without [] = q := by simp [without]
    rw [this, evict]
  | id :: rest, q => by
    unfold evict
    split
    · rename_i hf
      have hw : (q.without (id :: rest)).fits z m x = true := fits_sublist List.filter_sublist rfl rfl hf
      rw [hf, hw]
    · rw [evict_fits m x rest]
      congr 1
      simp only [without, Table.erase, List.filter_filter]
      congr 1
      apply List.filter_congr
      intro e _
      by_cases he : e.1 = id
      · simp [he]
      · simp [he]

structure SameLimits (q q' : SpooledQueue) : Prop where
  capacity : q'.capacity = q.capacity
  slots : q'.slots = q.slots
  payloadLimit : q'.payloadLimit = q.payloadLimit

theorem evict_limits (m x : Nat) : ∀ (ids : List String) (q : SpooledQueue), SameLimits q (evict z m x ids q)
  | [], _ => ⟨rfl, rfl, rfl⟩
  | id :: rest, q => by
    unfold evict
    split
    · exact ⟨rfl, rfl, rfl⟩
    · have h := evict_limits m x rest { q with plans := q.plans.erase id }
      exact ⟨h.capacity, h.slots, h.payloadLimit⟩

theorem evict_sublist (m x : Nat) : ∀ (ids : List String) (q : SpooledQueue), (evict z m x ids q).plans.Sublist q.plans
  | [], q => List.Sublist.refl q.plans
  | id :: rest, q => by
    unfold evict
    split
    · exact List.Sublist.refl q.plans
    · exact (evict_sublist m x rest _).trans List.filter_sublist

/-- Only listed plans are evicted. -/
theorem mem_evict (m x : Nat) {e : String × SpooledPlan} : ∀ (ids : List String) (q : SpooledQueue),
    e ∈ q.plans → e.1 ∉ ids → e ∈ (evict z m x ids q).plans
  | [], _, he, _ => he
  | id :: rest, q, he, hn => by
    unfold evict
    split
    · exact he
    · refine mem_evict m x rest _ (List.mem_filter.2 ⟨he, ?_⟩) (fun h => hn (List.mem_cons_of_mem _ h))
      simpa using fun h => hn (List.mem_cons.2 (.inl h))

/-- Where there is no room and something to evict, something is evicted. -/
theorem evict_shorter {m x : Nat} {id : String} (rest : List String) (h : q.fits z m x = false)
    (hid : id ∈ q.plans.map (·.1)) : (evict z m x (id :: rest) q).plans.length < q.plans.length := by
  unfold evict
  rw [if_neg (by simp [h])]
  refine lt_of_le_of_lt (evict_sublist m x rest _).length_le ?_
  obtain ⟨e, he, rfl⟩ := List.mem_map.1 hid
  refine List.length_filter_lt_length_iff_exists.2 ⟨e, he, by simp⟩

end

end SpooledQueue

/-! ## The files a call writes -/

/-- A disk that takes every file. -/
def Disk.working : Disk := fun _ => .ok ()

namespace Spilling

variable (z : Sizes) (disk : Disk) (budget : Nat)

theorem entry_next (s : Spilling) (e : (Nat × Nat) × StagedPart) (hs : s.failure = none) :
    (entry z .working budget s e).1.failure = none ∧ s.writes ≤ (entry z .working budget s e).1.writes := by
  simp only [entry, part, Disk.working]
  split
  · exact ⟨hs, le_rfl⟩
  · exact ⟨hs, Nat.le_succ _⟩

theorem entry_agrees (s : Spilling) (e : (Nat × Nat) × StagedPart) (hs : s.failure = none) :
    ((entry z disk budget s e).1.failure = none ↔
      ∀ n, s.writes ≤ n → n < (entry z .working budget s e).1.writes → disk n = .ok ()) ∧
      ((entry z disk budget s e).1.failure = none → entry z disk budget s e = entry z .working budget s e) := by
  simp only [entry, part, Disk.working]
  split
  · refine ⟨⟨fun _ n h1 h2 => absurd h2 (not_lt.2 h1), fun _ => hs⟩, fun _ => rfl⟩
  · cases hd : disk s.writes with
    | error e' =>
      refine ⟨⟨nofun, fun h => ?_⟩, nofun⟩
      rw [h s.writes le_rfl (Nat.lt_succ_self _)] at hd
      cases hd
    | ok u =>
      refine ⟨⟨fun _ n h1 h2 => ?_, fun _ => hs⟩, fun _ => rfl⟩
      obtain rfl : n = s.writes := by simp only at h2; omega
      exact hd

theorem plan_agrees (s : Spilling) (e : String × SpooledPlan) (hs : s.failure = none) :
    ((plan z .working budget s e).1.failure = none ∧ s.writes ≤ (plan z .working budget s e).1.writes) ∧
      ((plan z disk budget s e).1.failure = none ↔
        ∀ n, s.writes ≤ n → n < (plan z .working budget s e).1.writes → disk n = .ok ()) ∧
      ((plan z disk budget s e).1.failure = none → plan z disk budget s e = plan z .working budget s e) := by
  obtain ⟨h1, h2, h3⟩ := (walk_oracle (g := fun s : Spilling => s.failure = none) (c := Spilling.writes)
    (p := fun n => disk n = .ok ()) (entry_back z disk budget) (entry_next z budget)
    (entry_agrees z disk budget) e.2.parts s).2 hs
  exact ⟨h1, h2, fun h => by simp only [plan, h3 h]⟩

end Spilling

namespace SpooledQueue

section
variable (z : Sizes) (disk : Disk) (q : SpooledQueue)

theorem spill_agrees (budget : Nat) :
    ((q.spill z disk budget).1.failure = none ↔ ∀ n < (q.spill z .working budget).1.writes, disk n = .ok ()) ∧
      ((q.spill z disk budget).1.failure = none → q.spill z disk budget = q.spill z .working budget) ∧
      (q.spill z .working budget).1.failure = none := by
  obtain ⟨⟨h1, -⟩, h2, h3⟩ := (walk_oracle (g := fun s : Spilling => s.failure = none) (c := Spilling.writes)
    (p := fun n => disk n = .ok ()) (fun s e h => (Spilling.plan_within z disk budget s e h).1)
    (fun s e hs => (Spilling.plan_agrees z disk budget s e hs).1)
    (fun s e hs => (Spilling.plan_agrees z disk budget s e hs).2) q.plans { used := q.inMemory z }).2 rfl
  exact ⟨h2.trans ⟨fun h n hn => h n (Nat.zero_le _) hn, fun h n _ hn => h n hn⟩,
    fun h => by simp only [spill, h3 h], h1⟩

/-- The parts as placed, whatever the disk does. -/
def placing (capacity headers : Nat) : Nat → List DeliveryPart → List StagedPart
  | _, [] => []
  | memory, p :: rest =>
    if memory + z.part p + headers ≤ capacity / 2 then
      ⟨p, true⟩ :: placing capacity headers (memory + z.part p) rest
    else ⟨p, false⟩ :: placing capacity headers memory rest

/-- How many of them go to disk. -/
def onDisk (staged : List StagedPart) : Nat := staged.countP fun p => !p.memory

/-- The parts are placed exactly when the disk takes those that go there. -/
theorem placed_ok {capacity headers : Nat} {staged : List StagedPart} : ∀ {memory writes : Nat} {parts : List DeliveryPart},
    placed z disk capacity headers memory writes parts = .ok staged ↔
      staged = placing z capacity headers memory parts ∧
        ∀ n, writes ≤ n → n < writes + onDisk (placing z capacity headers memory parts) → disk n = .ok ()
  | memory, writes, [] => by
    simp only [placed, placing, Except.ok.injEq, onDisk, List.countP_nil]
    exact ⟨fun h => ⟨h.symm, fun n h1 h2 => absurd h2 (not_lt.2 h1)⟩, fun h => h.1.symm⟩
  | memory, writes, p :: rest => by
    unfold placed placing
    split
    · simp only [bind_ok, placed_ok, pure_ok, onDisk, List.countP_cons]
      constructor
      · rintro ⟨_, ⟨rfl, h⟩, rfl⟩
        exact ⟨rfl, by simpa using h⟩
      · rintro ⟨rfl, h⟩
        exact ⟨_, ⟨rfl, by simpa using h⟩, rfl⟩
    · cases hd : disk writes with
      | error e =>
        simp only [reduceCtorEq, false_iff, not_and, onDisk]
        intro _ h
        rw [h writes le_rfl (by simp)] at hd
        cases hd
      | ok u =>
        simp only [bind_ok, placed_ok, pure_ok, onDisk, List.countP_cons]
        constructor
        · rintro ⟨_, ⟨rfl, h⟩, rfl⟩
          refine ⟨rfl, fun n h1 h2 => ?_⟩
          rcases Nat.eq_or_lt_of_le h1 with rfl | h3
          · exact hd
          · exact h n h3 (by simp only [Bool.not_false, if_true] at h2; omega)
        · rintro ⟨rfl, h⟩
          exact ⟨_, ⟨rfl, fun n h1 h2 => h n (by omega) (by simp only [Bool.not_false, if_true]; omega)⟩, rfl⟩

/-- The files that staging an offer writes. -/
def files (header : DeliveryHeader) (parts : List DeliveryPart) (metadataNew : Nat) : Nat :=
  let headers := q.metadata z + metadataNew
  let (s, q) := q.spill z .working (q.capacity - headers)
  s.writes + onDisk (placing z q.capacity headers s.used (q.missing header parts))

/-- Staging fails exactly when the disk refuses one of its files. -/
theorem stageOffer_ok (header : DeliveryHeader) (parts : List DeliveryPart) (m : Nat) :
    (q.stageOffer z disk header parts m).2 = .ok true ↔ ∀ n < q.files z header parts m, disk n = .ok () := by
  obtain ⟨h1, h2, h3⟩ := q.spill_agrees z disk (q.capacity - (q.metadata z + m))
  simp only [stageOffer, files]
  cases hf : (q.spill z disk (q.capacity - (q.metadata z + m))).1.failure with
  | some e =>
    simp only [reduceCtorEq, false_iff, not_forall]
    have : ¬ ∀ n < (q.spill z .working (q.capacity - (q.metadata z + m))).1.writes, disk n = .ok () := by
      rw [← h1, hf]
      simp
    push Not at this
    obtain ⟨n, hn, hd⟩ := this
    exact ⟨n, by omega, hd⟩
  | none =>
    have hs := h1.1 hf
    rw [h2 hf]
    simp only
    cases hp : placed z disk (q.spill z .working (q.capacity - (q.metadata z + m))).2.capacity (q.metadata z + m)
        (q.spill z .working (q.capacity - (q.metadata z + m))).1.used
        (q.spill z .working (q.capacity - (q.metadata z + m))).1.writes
        ((q.spill z .working (q.capacity - (q.metadata z + m))).2.missing header parts) with
    | ok staged =>
      have := (placed_ok z disk).1 hp
      simp only [true_iff]
      intro n hn
      rcases Nat.lt_or_ge n (q.spill z .working (q.capacity - (q.metadata z + m))).1.writes with h4 | h4
      · exact hs n h4
      · exact this.2 n h4 hn
    | error e =>
      simp only [reduceCtorEq, false_iff]
      intro hall
      have := (placed_ok z disk).2 ⟨rfl, fun n _ hn => hall n hn⟩
      rw [hp] at this
      cases this

theorem stageOffer_refused {header : DeliveryHeader} {parts : List DeliveryPart} {m : Nat}
    (h : (q.stageOffer z disk header parts m).2 ≠ .ok true) :
    (q.stageOffer z disk header parts m).1.contents = q.contents ∧ ∃ e, (q.stageOffer z disk header parts m).2 = .error e := by
  unfold stageOffer at h ⊢
  simp only at h ⊢
  split
  · exact ⟨spill_contents _, _, rfl⟩
  · rename_i hf
    rw [hf] at h
    simp only at h
    split
    · exact ⟨spill_contents _, _, rfl⟩
    · rename_i hp
      rw [hp] at h
      exact absurd rfl h

/-! ## Refused offers -/

/-- What may make way for an offer: the later offers of its lane. -/
theorem mem_candidates {header : DeliveryHeader} {id : String} (h : id ∈ q.contents.candidates header) :
    ∃ p, (id, p) ∈ q.plans ∧ header.owner = none ∧ p.header.owner = none ∧ header.bootstrap = p.header.bootstrap ∧
      ∃ after future, header.after = some after ∧ p.header.after = some future ∧ after < future := by
  simp only [DeliveryQueue.candidates, List.mem_map, List.mem_insertionSort, List.mem_filterMap] at h
  obtain ⟨⟨future, id'⟩, ⟨e, he, hc⟩, rfl⟩ := h
  obtain ⟨e', he', rfl⟩ := List.mem_map.1 he
  split at hc
  · rename_i after future' ha hf
    split at hc
    · rename_i hlane
      simp only [Option.some.injEq, Prod.mk.injEq] at hc
      obtain ⟨rfl, rfl⟩ := hc
      obtain ⟨h1, h2, h3, h4⟩ := hlane
      exact ⟨e'.2, he', Option.isNone_iff_eq_none.1 h1, Option.isNone_iff_eq_none.1 h2, h3, after, future', ha, hf, h4⟩
    · cases hc
  · cases hc

/-- The offer is evicted for, and there is something to evict. -/
def Crowded (header : DeliveryHeader) (parts : List DeliveryPart) : Prop :=
  q.fits z (q.metadataNew z header) (q.extra z header parts) = false ∧ q.contents.candidates header ≠ []

/-- The queue after the evictions for an offer. -/
def evicted (header : DeliveryHeader) (parts : List DeliveryPart) : SpooledQueue :=
  evict z (q.metadataNew z header) (q.extra z header parts) (q.contents.candidates header) q

theorem evicted_contents (header : DeliveryHeader) (parts : List DeliveryPart) :
    (q.evicted z header parts).contents = q.contents ↔ ¬ q.Crowded z header parts := by
  unfold evicted Crowded
  by_cases hf : q.fits z (q.metadataNew z header) (q.extra z header parts) = true
  · simp [evict_of_fits hf, hf]
  · simp only [Bool.not_eq_true] at hf
    cases hc : q.contents.candidates header with
    | nil => simp [evict]
    | cons id rest =>
      simp only [hf, ne_eq, reduceCtorEq, not_false_eq_true, and_self, not_true_eq_false, iff_false]
      intro h
      have hmem : id ∈ q.contents.candidates header := by
        rw [hc]
        exact List.mem_cons_self
      obtain ⟨p, hp, -⟩ := q.mem_candidates hmem
      have hid : id ∈ q.plans.map (·.1) := List.mem_map.2 ⟨(id, p), hp, rfl⟩
      have hlt := evict_shorter rest hf hid
      have := length_of_contents h
      omega

/-- Nothing but the evictions is left of an offer that found no room or no disk. -/
def Refused (header : DeliveryHeader) (parts : List DeliveryPart) : Prop :=
  (q.without (q.contents.candidates header)).fits z (q.metadataNew z header) (q.extra z header parts) = false ∨
    ∃ n < (q.evicted z header parts).files z header parts (q.metadataNew z header), disk n ≠ .ok ()

theorem place_ok (header : DeliveryHeader) (parts : List DeliveryPart) :
    (q.place z disk header parts (q.metadataNew z header) (q.extra z header parts) false).2 = .ok true ↔
      ¬ q.Refused z disk header parts := by
  have hfit := evict_fits (z := z) (q.metadataNew z header) (q.extra z header parts) (q.contents.candidates header) q
  change (q.evicted z header parts).fits z _ _ = _ at hfit
  unfold place Refused
  simp only [Bool.false_and, Bool.false_eq_true, if_false, not_or, Bool.not_eq_false, not_exists, not_and, not_not, ← hfit]
  change (if (q.evicted z header parts).capacity < _ then _ else _ : SpooledQueue × Except String Bool).2 = _ ↔ _
  split
  · rename_i h
    simp only [fits, Bool.and_eq_true, decide_eq_true_eq, reduceCtorEq, false_iff]
    exact fun hc => absurd hc.1.1 (not_le.2 h)
  · rename_i h1
    split
    · rename_i h
      simp only [fits, Bool.and_eq_true, decide_eq_true_eq, reduceCtorEq, false_iff]
      exact fun hc => absurd hc.1.2 (not_le.2 h)
    · rename_i h2
      rw [stageOffer_ok]
      simp only [fits, Bool.and_eq_true, decide_eq_true_eq]
      exact ⟨fun h => ⟨⟨not_lt.1 h1, not_lt.1 h2⟩, h⟩, fun h => h.2⟩

theorem place_refused {header : DeliveryHeader} {parts : List DeliveryPart}
    (h : (q.place z disk header parts (q.metadataNew z header) (q.extra z header parts) false).2 ≠ .ok true) :
    (q.place z disk header parts (q.metadataNew z header) (q.extra z header parts) false).1.contents =
        (q.evicted z header parts).contents ∧
      ∃ e, (q.place z disk header parts (q.metadataNew z header) (q.extra z header parts) false).2 = .error e := by
  unfold place at h ⊢
  simp only [Bool.false_and, Bool.false_eq_true, if_false] at h ⊢
  split
  · exact ⟨rfl, _, rfl⟩
  · rename_i h1
    rw [if_neg h1] at h
    split
    · exact ⟨rfl, _, rfl⟩
    · rename_i h2
      rw [if_neg h2] at h
      exact stageOffer_refused z disk _ h

/-- The offer passes every check on itself, its plan and the slots. -/
structure Passes (header : DeliveryHeader) (parts : List DeliveryPart) (active : RequestContext) (now : Nat) : Prop where
  offer : DeliveryQueue.validateOffer header parts active now = .ok ()
  same : (q.plans.get header.planId).any (·.header ≠ header) = false
  slot : ((q.plans.get header.planId).isNone && q.full header) = false

/-- A refused offer loses staged plans exactly here: it passes every check on itself, it found the queue crowded
so that later offers made way, and then it was refused for its bytes or by the disk. -/
structure Discards (header : DeliveryHeader) (parts : List DeliveryPart) (active : RequestContext) (now : Nat) : Prop where
  passes : q.Passes header parts active now
  crowded : q.Crowded z header parts
  refused : q.Refused z disk header parts

theorem receiveBounded_passes {header : DeliveryHeader} {parts : List DeliveryPart} {active : RequestContext} {now : Nat}
    (h : q.Passes header parts active now) (speculative : Bool) :
    q.receiveBounded z disk header parts active now speculative =
      q.place z disk header parts (q.metadataNew z header) (q.extra z header parts) speculative := by
  unfold receiveBounded
  rw [h.offer]
  simp only [h.same, h.slot, Bool.false_eq_true, if_false]

/-- An offer that fails a check leaves the queue alone. -/
theorem receiveBounded_fails {header : DeliveryHeader} {parts : List DeliveryPart} {active : RequestContext} {now : Nat}
    (h : ¬ q.Passes header parts active now) (speculative : Bool) :
    (q.receiveBounded z disk header parts active now speculative).1 = q ∧
      (q.receiveBounded z disk header parts active now speculative).2 ≠ .ok true := by
  unfold receiveBounded
  split
  · exact ⟨rfl, nofun⟩
  · rename_i ho
    split
    · exact ⟨rfl, nofun⟩
    · rename_i hs
      split
      · cases speculative
        · exact ⟨rfl, nofun⟩
        · exact ⟨rfl, by simp⟩
      · rename_i hl
        exact absurd ⟨ho, by simpa using hs, by simpa using hl⟩ h

theorem stageOffer_accepted {header : DeliveryHeader} {parts : List DeliveryPart} {m : Nat}
    (h : (q.stageOffer z disk header parts m).2 = .ok true) :
    ∃ (spilled : Spilling × SpooledQueue) (staged : List StagedPart),
      spilled = q.spill z disk (q.capacity - (q.metadata z + m)) ∧ spilled.1.failure = none ∧
        placed z disk spilled.2.capacity (q.metadata z + m) spilled.1.used spilled.1.writes
          (spilled.2.missing header parts) = .ok staged ∧
        (q.stageOffer z disk header parts m).1 = spilled.2.insert header staged := by
  unfold stageOffer at h ⊢
  simp only at h ⊢
  cases hf : (q.spill z disk (q.capacity - (q.metadata z + m))).1.failure with
  | some e => rw [hf] at h; cases h
  | none =>
    rw [hf] at h
    simp only at h ⊢
    split at h
    · cases h
    · rename_i staged hl
      exact ⟨_, staged, rfl, hf, hl, rfl⟩

/-- What an accepted offer went through: room was made for it, its parts were placed, and it was staged. -/
structure Accepted (header : DeliveryHeader) (parts : List DeliveryPart) (active : RequestContext) (now : Nat)
    (q' : SpooledQueue) where
  passes : q.Passes header parts active now
  room : (q.evicted z header parts).fits z (q.metadataNew z header) (q.extra z header parts) = true
  spilled : Spilling × SpooledQueue
  spill : spilled = (q.evicted z header parts).spill z disk
    ((q.evicted z header parts).capacity - ((q.evicted z header parts).metadata z + q.metadataNew z header))
  moved : spilled.1.failure = none
  staged : List StagedPart
  placed : placed z disk spilled.2.capacity ((q.evicted z header parts).metadata z + q.metadataNew z header)
    spilled.1.used spilled.1.writes (spilled.2.missing header parts) = .ok staged
  result : q' = spilled.2.insert header staged

theorem receiveBounded_accepted {header : DeliveryHeader} {parts : List DeliveryPart} {active : RequestContext} {now : Nat}
    {speculative : Bool} (h : (q.receiveBounded z disk header parts active now speculative).2 = .ok true) :
    Nonempty (q.Accepted z disk header parts active now (q.receiveBounded z disk header parts active now speculative).1) := by
  by_cases hp : q.Passes header parts active now
  · rw [q.receiveBounded_passes z disk hp] at h ⊢
    unfold place at h ⊢
    split at h
    · cases h
    · rename_i h0
      rw [if_neg h0]
      change (if (q.evicted z header parts).capacity < _ then _ else _ : SpooledQueue × Except String Bool).2 = _ at h
      change Nonempty (q.Accepted z disk header parts active now
        (if (q.evicted z header parts).capacity < _ then _ else _ : SpooledQueue × Except String Bool).1)
      split at h
      · cases h
      · rename_i h1
        rw [if_neg h1]
        split at h
        · cases h
        · rename_i h2
          rw [if_neg h2]
          have room : (q.evicted z header parts).fits z (q.metadataNew z header) (q.extra z header parts) = true := by
            simp only [fits, Bool.and_eq_true, decide_eq_true_eq]
            exact ⟨not_lt.1 h1, not_lt.1 h2⟩
          obtain ⟨spilled, staged, hs, hf, hl, hr⟩ := stageOffer_accepted z disk (q.evicted z header parts) h
          exact ⟨⟨hp, room, spilled, hs, hf, staged, hl, hr⟩⟩
  · exact absurd h (q.receiveBounded_fails z disk hp _).2

/-- What an offer that was not staged leaves: the queue as it was, or evicted, or evicted and moved to disk. -/
theorem receiveBounded_refused {header : DeliveryHeader} {parts : List DeliveryPart} {active : RequestContext} {now : Nat}
    {speculative : Bool} (h : (q.receiveBounded z disk header parts active now speculative).2 ≠ .ok true) :
    (q.receiveBounded z disk header parts active now speculative).1 = q ∨
      (q.receiveBounded z disk header parts active now speculative).1 = q.evicted z header parts ∨
      (((q.evicted z header parts).stageOffer z disk header parts (q.metadataNew z header)).2 ≠ .ok true ∧
        (q.receiveBounded z disk header parts active now speculative).1 =
          ((q.evicted z header parts).stageOffer z disk header parts (q.metadataNew z header)).1) := by
  by_cases hp : q.Passes header parts active now
  · rw [q.receiveBounded_passes z disk hp] at h ⊢
    unfold place at h ⊢
    split
    · exact .inl rfl
    · rename_i h0
      rw [if_neg h0] at h
      refine .inr ?_
      simp only at h ⊢
      split
      · exact .inl rfl
      · rename_i h1
        rw [if_neg h1] at h
        split
        · exact .inl rfl
        · rename_i h2
          rw [if_neg h2] at h
          exact .inr ⟨h, rfl⟩
  · exact .inl (q.receiveBounded_fails z disk hp speculative).1

theorem receive_accepted {header : DeliveryHeader} {parts : List DeliveryPart} {active : RequestContext} {now : Nat}
    (h : (q.receive z disk header parts active now).2 = .ok ()) :
    Nonempty (q.Accepted z disk header parts active now (q.receive z disk header parts active now).1) := by
  refine q.receiveBounded_accepted z disk ?_
  by_cases hp : q.Passes header parts active now
  · simp only [receive, q.receiveBounded_passes z disk hp] at h ⊢
    by_contra hne
    obtain ⟨-, e, he⟩ := q.place_refused z disk hne
    rw [he] at h
    cases h
  · exfalso
    unfold receive receiveBounded at h
    split at h
    · cases h
    · rename_i ho
      split at h
      · cases h
      · rename_i hs
        split at h
        · cases h
        · rename_i hl
          exact hp ⟨ho, by simpa using hs, by simpa using hl⟩

/-- What a refused `receive` leaves of the queue. -/
theorem receive_kept_iff (header : DeliveryHeader) (parts : List DeliveryPart) (active : RequestContext) (now : Nat) :
    (∀ e, (q.receive z disk header parts active now).2 = .error e →
      (q.receive z disk header parts active now).1.contents = q.contents) ↔
    ¬ q.Discards z disk header parts active now := by
  by_cases hp : q.Passes header parts active now
  · have hr := q.receiveBounded_passes z disk hp false
    have hok := q.place_ok z disk header parts
    simp only [receive, hr]
    constructor
    · rintro h ⟨-, hc, hrf⟩
      have hne : (q.place z disk header parts (q.metadataNew z header) (q.extra z header parts) false).2 ≠ .ok true :=
        fun h => hok.1 h hrf
      obtain ⟨hk, e, he⟩ := q.place_refused z disk hne
      refine (q.evicted_contents z header parts).1 ?_ hc
      rw [← hk]
      exact h e (by rw [he]; rfl)
    · intro h e he
      have hne : (q.place z disk header parts (q.metadataNew z header) (q.extra z header parts) false).2 ≠ .ok true := by
        intro h'
        rw [h'] at he
        cases he
      have hrf : q.Refused z disk header parts := by
        by_contra hn
        exact hne (hok.2 hn)
      obtain ⟨hk, -⟩ := q.place_refused z disk hne
      rw [hk]
      exact (q.evicted_contents z header parts).2 fun hc => h ⟨hp, hc, hrf⟩
  · obtain ⟨h1, -⟩ := q.receiveBounded_fails z disk hp false
    exact ⟨fun _ hd => hp hd.passes, fun _ _ _ => by simp only [receive, h1]⟩

/-- A plan is evicted whole or stays as it was. -/
theorem get_evict (m x : Nat) (id : String) : ∀ (ids : List String) (q : SpooledQueue),
    (evict z m x ids q).plans.get id = q.plans.get id ∨ (evict z m x ids q).plans.get id = none
  | [], _ => .inl rfl
  | other :: rest, q => by
    unfold evict
    split
    · exact .inl rfl
    · rcases get_evict m x id rest { q with plans := q.plans.erase other } with h | h
      · rw [h]
        simp only [Table.get_erase]
        by_cases ho : other = id
        · exact .inr (by simp [ho])
        · exact .inl (by simp [ho])
      · exact .inr h

theorem get_spill_contents (budget : Nat) (id : String) :
    ((q.spill z disk budget).2.plans.get id).map SpooledPlan.contents = (q.plans.get id).map SpooledPlan.contents := by
  rw [← get_contents, ← get_contents, spill_contents]

theorem get_insert (header : DeliveryHeader) (staged : List StagedPart) :
    (q.insert header staged).plans.get header.planId = some
      { (q.plans.get header.planId).getD { header } with
        parts := (staged.foldl (fun t p => t.set (p.part.unit, p.part.part) p)
          ((q.plans.get header.planId).getD { header }).parts).insertionSort partLe } := by
  simp only [insert, Table.get_insertionSort, Table.get_set_self]

/-- An accepted offer leaves its plan with the owner it had, or with none. -/
theorem Accepted.owner {header : DeliveryHeader} {parts : List DeliveryPart} {active : RequestContext} {now : Nat}
    {q' : SpooledQueue} (h : q.Accepted z disk header parts active now q') :
    (q'.plans.get header.planId).bind (·.owner) = (q.plans.get header.planId).bind (·.owner) ∨
      (q'.plans.get header.planId).bind (·.owner) = none := by
  have hs := (q.evicted z header parts).get_spill_contents z disk
    ((q.evicted z header parts).capacity - ((q.evicted z header parts).metadata z + q.metadataNew z header)) header.planId
  rw [← h.spill] at hs
  have howner : (q'.plans.get header.planId).bind (·.owner) =
      ((q.evicted z header parts).plans.get header.planId).bind (·.owner) := by
    rw [h.result, get_insert]
    cases hg : h.spilled.2.plans.get header.planId with
    | none =>
      rw [hg, Option.map_none] at hs
      rw [Option.map_eq_none_iff.1 hs.symm]
      rfl
    | some p =>
      rw [hg, Option.map_some] at hs
      obtain ⟨p', hp', hc⟩ := Option.map_eq_some_iff.1 hs.symm
      rw [hp']
      have : p'.contents.owner = p.contents.owner := by rw [hc]
      exact this.symm
  rw [howner]
  rcases get_evict z (q.metadataNew z header) (q.extra z header parts) header.planId
    (q.contents.candidates header) q with hg | hg
  · exact .inl (by rw [evicted, hg])
  · exact .inr (by rw [evicted, hg]; rfl)

/-- An owned offer that was handed on is refused only by `receive`: the owner it would find changed was checked
before. -/
theorem receiveOwned_admitted {P : Platform} {request : MaterializationRequest} {response : MaterializationResponse}
    {active : RequestContext} (now : Nat) (h : q.admitOwned P request response active = .ok ()) :
    (∃ e, (q.receive z disk response.delivery.header response.delivery.parts active now).2 = .error e ∧
        q.receiveOwned z disk P request response active now =
          ((q.receive z disk response.delivery.header response.delivery.parts active now).1, .error e)) ∨
      (q.receiveOwned z disk P request response active now).2 = .ok () ∧
        (q.receive z disk response.delivery.header response.delivery.parts active now).2 = .ok () := by
  unfold receiveOwned
  simp only [h]
  have haccepted : (q.receive z disk response.delivery.header response.delivery.parts active now).2 = .ok () → _ :=
    q.receive_accepted z disk
  rcases hr : q.receive z disk response.delivery.header response.delivery.parts active now with ⟨q', r⟩
  rw [hr] at haccepted
  cases r with
  | error e => exact .inl ⟨e, rfl, rfl⟩
  | ok u =>
    refine .inr ⟨?_, rfl⟩
    obtain ⟨hacc⟩ := haccepted rfl
    have howner := hacc.owner
    simp only at howner ⊢
    rcases ho : (q'.plans.get response.delivery.header.planId).bind (·.owner) with _ | original
    · rfl
    · rw [ho] at howner
      simp only [reduceCtorEq, or_false] at howner
      obtain ⟨plan, hplan, hown⟩ := Option.bind_eq_some_iff.1 howner.symm
      unfold admitOwned at h
      rw [hplan] at h
      simp only [hown, bind_ok, check_ok, Bool.and_eq_true, decide_eq_true_eq] at h
      obtain ⟨-, -, -, ⟨hreq, -⟩, -⟩ := h
      simp [hreq]

/-- What a refused `receive_owned` leaves of the queue. -/
theorem receiveOwned_kept_iff (P : Platform) (request : MaterializationRequest) (response : MaterializationResponse)
    (active : RequestContext) (now : Nat) :
    (∀ e, (q.receiveOwned z disk P request response active now).2 = .error e →
      (q.receiveOwned z disk P request response active now).1.contents = q.contents) ↔
    ¬ (q.admitOwned P request response active = .ok () ∧
      q.Discards z disk response.delivery.header response.delivery.parts active now) := by
  have hk := q.receive_kept_iff z disk response.delivery.header response.delivery.parts active now
  cases ha : q.admitOwned P request response active with
  | error e =>
    simp [receiveOwned, ha]
  | ok u =>
    simp only [true_and, ← hk]
    rcases q.receiveOwned_admitted z disk now ha with ⟨e, he, ho⟩ | ⟨ho, hr⟩
    · simp [ho, he]
    · simp [ho, hr]

/-- A speculative offer that is not staged displaces nothing. -/
theorem receivePrefetched_kept {header : DeliveryHeader} {parts : List DeliveryPart} {active : RequestContext} {now : Nat}
    (h : (q.receivePrefetched z disk header parts active now).2 ≠ .ok true) :
    (q.receivePrefetched z disk header parts active now).1.contents = q.contents := by
  unfold receivePrefetched at h ⊢
  by_cases hp : q.Passes header parts active now
  · rw [q.receiveBounded_passes z disk hp true] at h ⊢
    unfold place at h ⊢
    cases hf : q.fits z (q.metadataNew z header) (q.extra z header parts) with
    | false => simp
    | true =>
      have hfit := hf
      simp only [fits, Bool.and_eq_true, decide_eq_true_eq] at hfit
      simp only [hf, Bool.not_true, Bool.and_false, Bool.false_eq_true, if_false, evict_of_fits hf,
        if_neg (not_lt.2 hfit.1), if_neg (not_lt.2 hfit.2)] at h ⊢
      exact (stageOffer_refused z disk q h).1
  · rw [(q.receiveBounded_fails z disk hp true).1]

/-- An offer refused with an error leaves the staged plans as they were exactly when it is not one that displaces
later plans first; a speculative offer always does. -/
theorem refused_offer_keeps (P : Platform) (header : DeliveryHeader) (parts : List DeliveryPart)
    (request : MaterializationRequest) (response : MaterializationResponse) (active : RequestContext) (now : Nat) :
    ((∀ e, (q.receive z disk header parts active now).2 = .error e →
        (q.receive z disk header parts active now).1.contents = q.contents) ↔
      ¬ q.Discards z disk header parts active now) ∧
    ((∀ e, (q.receiveOwned z disk P request response active now).2 = .error e →
        (q.receiveOwned z disk P request response active now).1.contents = q.contents) ↔
      ¬ (q.admitOwned P request response active = .ok () ∧
        q.Discards z disk response.delivery.header response.delivery.parts active now)) ∧
    ((q.receivePrefetched z disk header parts active now).2 ≠ .ok true →
      (q.receivePrefetched z disk header parts active now).1.contents = q.contents) :=
  ⟨q.receive_kept_iff z disk header parts active now, q.receiveOwned_kept_iff z disk P request response active now,
    q.receivePrefetched_kept z disk⟩

end

end SpooledQueue

namespace Notes

/-- Notes of the range from `after` to `after + 1`, one to a part. -/
def notesPage (planId : String) (after : Nat) (ids : List String) : FrozenDelivery :=
  frozenPage { storeId := "store", stream := "user", materialization := "m" } planId false after (after + 1) 3 10000
    [⟨0, some (after + 1), ids.map fun id => .record ⟨"note", .obj [("id", .str id)]⟩ (after + 1) (.obj [])⟩] 1

/-- The lengths of the JSON texts of these pages; a digest takes 64 characters. -/
def noteSizes : Sizes :=
  ⟨fun h => 375 + 67 * (h.units.map (·.parts.length)).sum, fun p => 124 + 85 * p.changes.length⟩

/-- A queue that holds one page, with room for little more. -/
def oneStaged : SpooledQueue × Except String Unit :=
  (SpooledQueue.withLimits 1000 4 300).receive noteSizes .working (notesPage "b" 1 ["x"]).header (notesPage "b" 1 ["x"]).parts
    (notesPage "b" 1 ["x"]).header.context 1

/-- An earlier page too large for the queue is refused, and the page that was there is gone. -/
theorem refused_offer_discards :
    oneStaged.2 = .ok () ∧
    (oneStaged.1.receive noteSizes .working (notesPage "a" 0 ["y", "z"]).header (notesPage "a" 0 ["y", "z"]).parts
      (notesPage "a" 0 ["y", "z"]).header.context 1).2 = .error "delivery disk staging capacity exceeded" ∧
    (oneStaged.1.receive noteSizes .working (notesPage "a" 0 ["y", "z"]).header (notesPage "a" 0 ["y", "z"]).parts
      (notesPage "a" 0 ["y", "z"]).header.context 1).1.contents ≠ oneStaged.1.contents := by
  refine ⟨by decide +kernel, by decide +kernel, fun h => ?_⟩
  have hl := congrArg List.length h
  revert hl
  decide +kernel

end Notes

end Axton
