import Axton.Lib.Trace
import Axton.Runtime.Host
import Mathlib.Order.Bounds.Basic

/-!
# The prerequisite scheduler

The scheduler of `prerequisites.rs` over runs in which anything may happen next: a turn, a handler's outcome, a
fired timer, a changed readiness, a commit, a rebuild, or work of the runtime that is not the scheduler's. What
the store holds is part of the state; a turn reads it, or fails to.

* `Tracked`: the handler and the timer the scheduler knows are the outstanding ones, in every run;
* `turn_arms`: a turn that read the tasks armed the timer for the earliest retry;
* `Accounted`: no pending task is lost, in runs whose turns read the tasks.

A turn clears the flag before it reads (prerequisites.rs:87), so that a failed read loses the tasks it would
have found until something else wakes the lanes (`prerequisites_lost`).
-/

namespace Axton

open Bridge

namespace ClientRuntime

/-- The effects the scheduler issues. -/
def EffectKind.scheduled : EffectKind → Bool
  | .prerequisite _ | .prerequisiteTimer => true
  | _ => false

/-- The earliest retry that still waits (prerequisites.rs:188). -/
def Prerequisites.earliest (p : Prerequisites) (now : Nat) : Option Nat :=
  ((p.backoff.map (·.2.due)).filter fun due => decide (now < due)).min?

/-- The effects the scheduler knows are outstanding. -/
def Prerequisites.Holds (p : Prerequisites) (id : String) : EffectKind → Prop
  | .prerequisite key => p.running = some (id, key)
  | .prerequisiteTimer => p.timer.map (·.1) = some id
  | _ => False

/-! ## What the scheduler knows is outstanding -/

/-- The scheduler's effects of the table are those it knows, under ids already issued. -/
structure Ledger (effects : Table String EffectKind) (p : Prerequisites) (issued : Nat) : Prop where
  tracked : ∀ id kind, kind.scheduled = true → (effects.get id = some kind ↔ p.Holds id kind)
  used : ∀ id kind, kind.scheduled = true → effects.get id = some kind → ∃ n ≤ issued, id = toString n
  distinct : (effects.map (·.1)).Nodup
  backoff : (p.backoff.map (·.1)).Nodup

variable {C : Type} {r s : ClientRuntime C}

abbrev Tracked (r : ClientRuntime C) : Prop := Ledger r.effects r.prerequisites r.issued

section
variable {effects : Table String EffectKind} {p q : Prerequisites} {issued : Nat} (L : Ledger effects p issued)
include L

/-- A change of the flags and of the backoff. -/
theorem Ledger.flagged (hr : q.running = p.running) (ht : q.timer = p.timer) (hb : (q.backoff.map (·.1)).Nodup) :
    Ledger effects q issued := by
  refine ⟨fun id kind hk => (L.tracked id kind hk).trans ?_, L.used, L.distinct, hb⟩
  cases kind <;> simp [Prerequisites.Holds, hr, ht]

/-- An id that was not issued yet is new to the scheduler. -/
theorem Ledger.fresh {kind : EffectKind} (hk : kind.scheduled = true) : ¬ p.Holds (toString (issued + 1)) kind := by
  intro h
  obtain ⟨n, hn, hid⟩ := L.used _ kind hk ((L.tracked _ kind hk).2 h)
  have hsame : issued + 1 = n := decimal_inj hid
  omega

theorem Ledger.issue {kind : EffectKind} (hb : (q.backoff.map (·.1)).Nodup) (hq : ∀ id k, k.scheduled = true →
    (q.Holds id k ↔ if toString (issued + 1) = id then kind = k else p.Holds id k)) :
    Ledger (effects.set (toString (issued + 1)) kind) q (issued + 1) := by
  refine ⟨fun id k hk => ?_, fun id k hk hget => ?_, Table.nodup_set L.distinct _ _, hb⟩
  · rw [Table.get_set, hq id k hk]
    by_cases hid : toString (issued + 1) = id
    · rw [if_pos hid, if_pos hid, Option.some.injEq]
    · rw [if_neg hid, if_neg hid]
      exact L.tracked id k hk
  · by_cases hid : toString (issued + 1) = id
    · exact ⟨issued + 1, le_rfl, hid.symm⟩
    · rw [Table.get_set, if_neg hid] at hget
      obtain ⟨n, hn, hn'⟩ := L.used id k hk hget
      exact ⟨n, by omega, hn'⟩

theorem Ledger.remove {id : String} (hb : (q.backoff.map (·.1)).Nodup)
    (hq : ∀ i k, k.scheduled = true → (q.Holds i k ↔ id ≠ i ∧ p.Holds i k)) : Ledger (effects.remove id) q issued := by
  have hget (i : String) (k : EffectKind) : (effects.remove id).get i = some k ↔ id ≠ i ∧ effects.get i = some k := by
    rw [Table.get_remove L.distinct]
    by_cases hid : id = i <;> simp [hid]
  refine ⟨fun i k hk => ?_, fun i k hk hi => L.used i k hk ((hget i k).1 hi).2, Table.nodup_remove L.distinct _, hb⟩
  rw [hget, hq i k hk, L.tracked i k hk]

/-- An effect the scheduler does not know ends. -/
theorem Ledger.foreign {id : String} (h : ∀ k, k.scheduled = true → effects.get id ≠ some k) :
    Ledger (effects.remove id) p issued := by
  refine L.remove L.backoff fun i k hk => ⟨fun hi => ⟨?_, hi⟩, And.right⟩
  rintro rfl
  exact h k hk ((L.tracked id k hk).2 hi)

end

/-! ## The work of a turn -/

/-- What the scheduler sees of the runtime. -/
def view (r : ClientRuntime C) : Table String EffectKind × Prerequisites × Nat :=
  (r.effects, r.prerequisites, r.issued)

theorem Tracked.of_view (T : r.Tracked) (h : s.view = r.view) : s.Tracked := by
  simp only [view, Prod.mk.injEq] at h
  rw [Tracked, h.1, h.2.1, h.2.2]
  exact T

/-- An effect is issued under the next id, or the ids are exhausted. -/
theorem issueEffect_view (r : ClientRuntime C) (kind : EffectKind) (operation : Bridge.Operation) :
    ∃ s, (r.issued < maxU64 ∧ r.issueEffect kind operation = (some (toString (r.issued + 1)), s) ∧
        s.view = (r.effects.set (toString (r.issued + 1)) kind, r.prerequisites, r.issued + 1)) ∨
      (¬ r.issued < maxU64 ∧ r.issueEffect kind operation = (none, s) ∧ s.view = r.view) := by
  unfold issueEffect issue
  by_cases h : r.issued < maxU64
  · rw [if_pos h]
    exact ⟨_, .inl ⟨h, rfl, rfl⟩⟩
  · rw [if_neg h]
    exact ⟨_, .inr ⟨h, rfl, rfl⟩⟩

theorem cancelEffect_view (r : ClientRuntime C) (id : String) :
    (r.cancelEffect id).view = (r.effects.remove id, r.prerequisites, r.issued) := by
  unfold cancelEffect
  split
  · rename_i h
    rw [remove_of_get_none h]
    rfl
  · rfl

/-- A handler is started where none runs. -/
theorem Tracked.run (T : r.Tracked) (h : r.prerequisites.running = none) (task : Json) :
    (runPrerequisite r task).Tracked ∧ (runPrerequisite r task).issued ≤ r.issued + 1 ∧
      ∃ running, (runPrerequisite r task).prerequisites = { r.prerequisites with running } ∧
        (r.issued < maxU64 → running ≠ none) := by
  unfold runPrerequisite
  dsimp only
  obtain ⟨s, ⟨hroom, hx, hs⟩ | ⟨hroom, hx, hs⟩⟩ := issueEffect_view r (.prerequisite ((task.index "key").asStr.getD ""))
    (.prerequisite ((task.index "key").asStr.getD "") ((task.index "name").asStr.getD "") (task.index "arguments"))
  · simp only [hx]
    simp only [view, Prod.mk.injEq] at hs
    obtain ⟨heffects, hp, hissued⟩ := hs
    refine ⟨?_, hissued.le, _, by rw [hp], fun _ => Option.some_ne_none _⟩
    show Ledger s.effects { s.prerequisites with running := some (toString (r.issued + 1), _) } s.issued
    rw [heffects, hissued, hp]
    refine T.issue T.backoff fun id k hk => ?_
    cases k with
    | prerequisite key =>
      by_cases hid : toString (r.issued + 1) = id <;> simp [Prerequisites.Holds, hid, h]
    | prerequisiteTimer =>
      have hfresh := T.fresh hk
      simp only [Prerequisites.Holds] at hfresh ⊢
      by_cases hid : toString (r.issued + 1) = id
      · rw [if_pos hid, ← hid]
        exact iff_of_false hfresh (by simp)
      · rw [if_neg hid]
    | _ => cases hk
  · simp only [hx]
    have hview := hs
    simp only [view, Prod.mk.injEq] at hs
    exact ⟨T.of_view hview, by rw [hs.2.2]; omega, none, by rw [hs.2.1, ← h], fun h => absurd h hroom⟩

theorem Tracked.cancelTimer (T : r.Tracked) :
    ((r.prerequisites.timer.map (·.1)).toList.foldl cancelEffect
      { r with prerequisites := { r.prerequisites with timer := none } }).view =
        ((r.prerequisites.timer.map (·.1)).toList.foldl Table.remove r.effects, { r.prerequisites with timer := none },
          r.issued) ∧
      Ledger ((r.prerequisites.timer.map (·.1)).toList.foldl Table.remove r.effects) { r.prerequisites with timer := none }
        r.issued := by
  cases ht : r.prerequisites.timer with
  | none =>
    refine ⟨rfl, T.flagged rfl ?_ T.backoff⟩
    rw [ht]
  | some timer =>
    refine ⟨cancelEffect_view .., T.remove T.backoff fun i k hk => ?_⟩
    cases k with
    | prerequisite key =>
      refine ⟨fun h => ⟨?_, h⟩, And.right⟩
      rintro rfl
      have hkept := (T.tracked timer.1 (.prerequisite key) rfl).2 h
      have htimer := (T.tracked timer.1 .prerequisiteTimer rfl).2 (by simp [Prerequisites.Holds, ht])
      rw [hkept] at htimer
      cases htimer
    | prerequisiteTimer => simp [Prerequisites.Holds, ht]
    | _ => cases hk

/-- The timer is armed for the earliest retry that still waits. -/
theorem Tracked.arm (T : r.Tracked) (now : Nat) :
    (r.armPrerequisiteTimer now).Tracked ∧
      (∃ timer, (r.armPrerequisiteTimer now).prerequisites = { r.prerequisites with timer }) ∧
      (r.issued < maxU64 → (r.armPrerequisiteTimer now).prerequisites.timer.map (·.2) = r.prerequisites.earliest now) := by
  unfold armPrerequisiteTimer
  dsimp only
  generalize hdue : ((r.prerequisites.backoff.map (·.2.due)).filter fun due => decide (now < due)).min? = due
  have hearliest : r.prerequisites.earliest now = due := hdue
  rw [hearliest]
  by_cases hsame : r.prerequisites.timer.map (·.2) = due
  · rw [if_pos hsame]
    exact ⟨T, ⟨r.prerequisites.timer, rfl⟩, fun _ => hsame⟩
  · rw [if_neg hsame]
    obtain ⟨hview, L⟩ := T.cancelTimer
    generalize (r.prerequisites.timer.map (·.1)).toList.foldl cancelEffect
      { r with prerequisites := { r.prerequisites with timer := none } } = c at hview ⊢
    simp only [view, Prod.mk.injEq] at hview
    obtain ⟨heffects, hp, hissued⟩ := hview
    rw [← heffects, ← hp, ← hissued] at L
    cases due with
    | none => exact ⟨L, ⟨none, hp⟩, fun _ => by simp [hp]⟩
    | some due =>
      obtain ⟨s, ⟨hroom, hx, hs⟩ | ⟨hroom, hx, hs⟩⟩ := issueEffect_view c .prerequisiteTimer (.timer (due - now))
      · simp only [hx]
        simp only [view, Prod.mk.injEq] at hs
        obtain ⟨heffects', hp', hissued'⟩ := hs
        refine ⟨?_, ⟨some (toString (c.issued + 1), due), by rw [hp', hp]⟩, fun _ => rfl⟩
        show Ledger s.effects { s.prerequisites with timer := some (toString (c.issued + 1), due) } s.issued
        rw [heffects', hissued', hp']
        refine L.issue L.backoff fun id k hk => ?_
        cases k with
        | prerequisite key =>
          have hfresh := L.fresh hk
          simp only [Prerequisites.Holds] at hfresh ⊢
          by_cases hid : toString (c.issued + 1) = id
          · rw [if_pos hid, ← hid]
            exact iff_of_false hfresh (by simp)
          · rw [if_neg hid]
        | prerequisiteTimer =>
          by_cases hid : toString (c.issued + 1) = id <;> simp [Prerequisites.Holds, hid, hp]
        | _ => cases hk
      · simp only [hx]
        have hview' := hs
        simp only [view, Prod.mk.injEq] at hs
        refine ⟨Tracked.of_view L hview', ⟨none, by rw [hs.2.1, hp]⟩, fun h => ?_⟩
        rw [hissued] at hroom
        exact absurd h hroom

section
variable (api : ClientApi C)

/-- What a turn that read the tasks leaves: the backoff of pending tasks, and no runnable one unless a handler runs. -/
structure Turned (ts : List Json) (now : Nat) (p : Prerequisites) : Prop where
  waits : ∀ e ∈ p.backoff, ∃ task ∈ ts, taskPending task = true ∧ (task.index "key").asStr = some e.1
  timer : p.timer.map (·.2) = p.earliest now
  idle : p.running = none → ∀ task ∈ ts, taskRunnable p now task = false

/-- A turn keeps the ledger; one that read the tasks, with two ids left, looked at all of them. -/
theorem Tracked.turn (T : r.Tracked) (hidle : r.prerequisites.running = none) (now : Nat) :
    (prerequisiteTurn api r now).Tracked ∧
      (prerequisiteTurn api r now).prerequisites.handlers = r.prerequisites.handlers ∧
        ∀ ts, (api.pendingTasks r.client).1 = .ok ts → r.issued + 2 ≤ maxU64 →
          Turned ts now (prerequisiteTurn api r now).prerequisites := by
  unfold prerequisiteTurn ask
  dsimp only
  cases hread : (api.pendingTasks r.client).1 with
  | error e => exact ⟨T.flagged rfl rfl T.backoff, rfl, fun ts h => by cases h⟩
  | ok tasks =>
    dsimp only
    generalize hf : forgetBackoff _ tasks = f
    have hfilter : f.prerequisites = { r.prerequisites with
        dirty := false
        backoff := r.prerequisites.backoff.filter fun e =>
          tasks.any fun task => taskPending task && decide ((task.index "key").asStr = some e.1) } := by
      rw [← hf]
      rfl
    have hissued : f.issued = r.issued := by
      rw [← hf]
      rfl
    have hnodup : (f.prerequisites.backoff.map (·.1)).Nodup := by
      rw [hfilter]
      exact T.backoff.sublist (List.filter_sublist.map _)
    have hF : f.Tracked := by
      have heffects : f.effects = r.effects := by
        rw [← hf]
        rfl
      show Ledger f.effects f.prerequisites f.issued
      rw [heffects, hissued]
      exact T.flagged (by rw [hfilter]) (by rw [hfilter]) hnodup
    have hnone : f.prerequisites.running = none := by rw [hfilter]; exact hidle
    have hwaits : ∀ e ∈ f.prerequisites.backoff, ∃ task ∈ tasks, taskPending task = true ∧ (task.index "key").asStr = some e.1 := by
      intro e he
      rw [hfilter] at he
      simpa using (List.mem_filter.1 he).2
    cases hnext : tasks.find? (taskRunnable f.prerequisites now) with
    | none =>
      obtain ⟨hT, ⟨timer, hp⟩, htimer⟩ := hF.arm now
      refine ⟨hT, by rw [hp, hfilter], fun ts hts hroom => ?_⟩
      cases hts
      refine ⟨by rw [hp]; exact hwaits, ?_, fun _ task htask => ?_⟩
      · rw [htimer (by omega), hp]
        rfl
      · have hno : taskRunnable f.prerequisites now task = false := by simpa using List.find?_eq_none.1 hnext task htask
        rw [hp]
        exact hno
    | some task =>
      obtain ⟨hR, hroom', running, hrun, hsome⟩ := hF.run hnone task
      obtain ⟨hT, ⟨timer, hp⟩, htimer⟩ := hR.arm now
      refine ⟨hT, by rw [hp, hrun, hfilter], fun ts hts hroom => ?_⟩
      cases hts
      refine ⟨by rw [hp, hrun]; exact hwaits, ?_, fun hno => ?_⟩
      · rw [htimer (by omega), hp]
        rfl
      · rw [hp, hrun] at hno
        exact absurd hno (hsome (by omega))

end

/-! ## Outcomes, timers and rebuilds -/

theorem effectResult_prerequisite (decode : String → Option Json) {id key : String}
    (h : r.effects.get id = some (.prerequisite key)) (outcome : Bridge.EffectOutcome) (now entropy : Nat) :
    effectResult decode r id outcome now entropy =
      { r with effects := r.effects.remove id }.prerequisiteResult key outcome now entropy := by
  simp [effectResult, h]

theorem effectResult_timer (decode : String → Option Json) {id : String} (h : r.effects.get id = some .prerequisiteTimer)
    (outcome : Bridge.EffectOutcome) (now entropy : Nat) :
    effectResult decode r id outcome now entropy = { r with effects := r.effects.remove id }.prerequisiteTimerFired id := by
  simp [effectResult, h]

/-- A handler that settled is no longer outstanding, and the next turn looks again. -/
theorem prerequisiteResult_view (r : ClientRuntime C) (key : String) (outcome : Bridge.EffectOutcome) (now entropy : Nat)
    (hn : (r.prerequisites.backoff.map (·.1)).Nodup) : ∃ backoff : Table String Backoff, (backoff.map (·.1)).Nodup ∧
      (r.prerequisiteResult key outcome now entropy).view =
        (r.effects, { r.prerequisites with running := none, dirty := true, backoff }, r.issued) := by
  unfold prerequisiteResult
  dsimp only
  split
  · exact ⟨_, hn, rfl⟩
  · split
    · exact ⟨_, Table.nodup_set hn _ _, rfl⟩
    · exact ⟨_, hn, rfl⟩

theorem Tracked.result (T : r.Tracked) (decode : String → Option Json) {id key : String}
    (h : r.effects.get id = some (.prerequisite key)) (outcome : Bridge.EffectOutcome) (now entropy : Nat) :
    (effectResult decode r id outcome now entropy).Tracked ∧
      (effectResult decode r id outcome now entropy).prerequisites.dirty = true := by
  rw [effectResult_prerequisite decode h]
  obtain ⟨backoff, hn, hview⟩ := prerequisiteResult_view { r with effects := r.effects.remove id } key outcome now entropy T.backoff
  have hrunning := (T.tracked id _ rfl).1 h
  simp only [Prerequisites.Holds] at hrunning
  simp only [view, Prod.mk.injEq] at hview
  obtain ⟨heffects, hp, hissued⟩ := hview
  refine ⟨?_, by rw [hp]⟩
  rw [Tracked, heffects, hp, hissued]
  refine T.remove hn fun i k hk => ?_
  cases k with
  | prerequisite key' =>
    simp only [Prerequisites.Holds, hrunning, Option.some.injEq, Prod.mk.injEq, reduceCtorEq, false_iff, not_and]
    intro hne hi
    exact absurd hi hne
  | prerequisiteTimer =>
    refine ⟨fun hi => ⟨?_, hi⟩, And.right⟩
    rintro rfl
    rw [(T.tracked id .prerequisiteTimer rfl).2 hi] at h
    cases h
  | _ => cases hk

/-- The fired timer is spent, and the tasks due by then wait no longer. -/
theorem Tracked.fired (T : r.Tracked) {id : String} (h : r.effects.get id = some .prerequisiteTimer) :
    ∃ due, r.prerequisites.timer = some (id, due) ∧
      ({ r with effects := r.effects.remove id }.prerequisiteTimerFired id).view =
        (r.effects.remove id, { r.prerequisites with
          timer := none
          dirty := true
          backoff := r.prerequisites.backoff.map fun e => if e.2.due ≤ due then (e.1, { e.2 with due := 0 }) else e },
          r.issued) := by
  have htimer := (T.tracked id _ rfl).1 h
  simp only [Prerequisites.Holds, Option.map_eq_some_iff] at htimer
  obtain ⟨⟨id', due⟩, htimer, hid⟩ := htimer
  simp only at hid
  subst hid
  refine ⟨due, htimer, ?_⟩
  unfold prerequisiteTimerFired
  simp only [htimer, ne_eq, not_true_eq_false, if_false]
  rfl

theorem Tracked.timer (T : r.Tracked) (decode : String → Option Json) {id : String}
    (h : r.effects.get id = some .prerequisiteTimer) (outcome : Bridge.EffectOutcome) (now entropy : Nat) :
    (effectResult decode r id outcome now entropy).Tracked ∧
      (effectResult decode r id outcome now entropy).prerequisites.dirty = true := by
  rw [effectResult_timer decode h]
  obtain ⟨due, htimer, hview⟩ := T.fired h
  simp only [view, Prod.mk.injEq] at hview
  obtain ⟨heffects, hp, hissued⟩ := hview
  have hkeys : (r.prerequisites.backoff.map fun e => if e.2.due ≤ due then (e.1, { e.2 with due := 0 }) else e).map (·.1) =
      r.prerequisites.backoff.map (·.1) := by
    rw [List.map_map]
    refine List.map_congr_left fun e _ => ?_
    simp only [Function.comp]
    split <;> rfl
  refine ⟨?_, by rw [hp]⟩
  rw [Tracked, heffects, hp, hissued]
  refine T.remove (hkeys ▸ T.backoff) fun i k hk => ?_
  cases k with
  | prerequisite key =>
    refine ⟨fun hi => ⟨?_, hi⟩, And.right⟩
    rintro rfl
    rw [(T.tracked id (.prerequisite key) rfl).2 hi] at h
    cases h
  | prerequisiteTimer => simp [Prerequisites.Holds, htimer]
  | _ => cases hk

theorem cancelEffects_view (ids : List String) (r : ClientRuntime C) :
    (ids.foldl cancelEffect r).view = (ids.foldl Table.remove r.effects, r.prerequisites, r.issued) := by
  induction ids generalizing r with
  | nil => rfl
  | cons id ids ih =>
    have hone := cancelEffect_view r id
    simp only [view, Prod.mk.injEq] at hone
    rw [List.foldl_cons, List.foldl_cons, ih, hone.1, hone.2.1, hone.2.2]

/-- A scheduler that knows of nothing, over a table its effects were removed from. -/
theorem Ledger.cleared {effects : Table String EffectKind} {p q : Prerequisites} {issued : Nat} (L : Ledger effects p issued)
    {ids : List String} (hids : ∀ i k, p.Holds i k → i ∈ ids) (hq : ∀ i k, ¬ q.Holds i k)
    (hb : (q.backoff.map (·.1)).Nodup) : Ledger (ids.foldl Table.remove effects) q issued := by
  have hget : ∀ (ids : List String) (t : Table String EffectKind), (t.map (·.1)).Nodup →
      ((ids.foldl Table.remove t).map (·.1)).Nodup ∧
        ∀ i, (ids.foldl Table.remove t).get i = if i ∈ ids then none else t.get i := by
    intro ids
    induction ids with
    | nil => exact fun t hn => ⟨hn, fun i => by simp⟩
    | cons id ids ih =>
      intro t hn
      obtain ⟨hnodup, hrest⟩ := ih (t.remove id) (Table.nodup_remove hn id)
      refine ⟨hnodup, fun i => ?_⟩
      rw [List.foldl_cons, hrest, Table.get_remove hn]
      by_cases hi : i ∈ ids
      · simp [hi]
      · by_cases hid : id = i
        · simp [hid]
        · simp [hi, hid, Ne.symm hid]
  obtain ⟨hnodup, hget⟩ := hget ids effects L.distinct
  have hnone (i : String) (k : EffectKind) (hk : k.scheduled = true) : (ids.foldl Table.remove effects).get i ≠ some k := by
    intro hi
    rw [hget] at hi
    split at hi
    · cases hi
    · rename_i hno
      exact hno (hids i k ((L.tracked i k hk).1 hi))
  exact ⟨fun i k hk => iff_of_false (hnone i k hk) (hq i k), fun i k hk hi => absurd hi (hnone i k hk), hnodup, hb⟩

theorem Tracked.rebuilt (T : r.Tracked) : r.rebuiltPrerequisites.Tracked ∧ r.rebuiltPrerequisites.prerequisites.dirty = true := by
  unfold rebuiltPrerequisites
  dsimp only
  have hview := cancelEffects_view ((r.prerequisites.running.map (·.1)).toList ++ (r.prerequisites.timer.map (·.1)).toList)
    { r with
      ready := r.ready.filter (!Ready.isOutcome ·)
      prerequisites := { r.prerequisites with running := none, timer := none, backoff := [], dirty := true } }
  simp only [view, Prod.mk.injEq] at hview
  obtain ⟨heffects, hp, hissued⟩ := hview
  refine ⟨?_, by rw [hp]⟩
  rw [Tracked, heffects, hp, hissued]
  refine T.cleared (fun i k hk => ?_) (fun i k => ?_) List.nodup_nil
  · cases k with
    | prerequisite key =>
      simp only [Prerequisites.Holds] at hk
      simp [hk]
    | prerequisiteTimer =>
      simp only [Prerequisites.Holds] at hk
      simp [hk]
    | _ => cases hk
  · cases k <;> simp [Prerequisites.Holds]

/-! ## The rest of the runtime

Registrations and their waiters are observed after a commit; none of it is the scheduler's. -/

theorem view_foldl {α : Type} {f : ClientRuntime C → α → ClientRuntime C} (h : ∀ r a, (f r a).view = r.view) (l : List α)
    (r : ClientRuntime C) : (l.foldl f r).view = r.view := by
  induction l generalizing r with
  | nil => rfl
  | cons a l ih => rw [List.foldl_cons, ih, h]

theorem complete_view (r : ClientRuntime C) (id : String) (outcome : Except String Json) :
    (r.complete id outcome).view = r.view := by
  cases outcome <;> rfl

theorem observeRun_view (r : ClientRuntime C) (state : BootstrapState) : (r.observeRun state).view = r.view := by
  unfold observeRun
  split
  · rfl
  · split
    · rfl
    · dsimp only
      refine (view_foldl ?_ _ _).trans ((view_foldl ?_ _ _).trans rfl)
      · exact fun r w => rfl
      · intro r w
        split
        · rfl
        · exact complete_view ..

theorem closeRegistration_view (r : ClientRuntime C) (id : Nat) (code : String) : (r.closeRegistration id code).view = r.view := by
  unfold closeRegistration
  split
  · rfl
  · rename_i g hg
    have hwaiters := view_foldl (fun (r : ClientRuntime C) (w : RunWaiter) =>
      (rfl : (r.fail w.requestId code (.ofEntries [("code", .str code)])).view = r.view)) g.waiters
      { r with registrations := r.registrations.remove id }
    split
    · exact hwaiters
    · exact hwaiters

theorem markReady_view (r : ClientRuntime C) (id : Nat) (ready : Bool) : (markReady r id ready).view = r.view := by
  unfold markReady
  split <;> rfl

theorem view_of_ask {α : Type} {call : Answer C α} {o : Except String α} (h : r.ask call = (o, s)) : s.view = r.view := by
  simp only [ask, Prod.mk.injEq] at h
  rw [← h.2]
  rfl

theorem reconcileRegistration_view (api : ClientApi C) (r : ClientRuntime C) (id : Nat) (stream : String) :
    (reconcileRegistration api r id stream).view = r.view := by
  unfold reconcileRegistration
  split
  · rename_i s hx
    exact Eq.trans (b := s.view) rfl (view_of_ask hx)
  · rename_i hx
    exact (closeRegistration_view ..).trans (view_of_ask hx)
  · rename_i state s hx
    refine Eq.trans ?_ (view_of_ask hx)
    split
    · exact closeRegistration_view ..
    · split
      · rename_i hy
        exact (observeRun_view ..).trans ((view_of_ask hy).trans (markReady_view ..))
      · rename_i hy
        exact (view_of_ask hy).trans (markReady_view ..)

theorem committedSince_view (api : ClientApi C) (r : ClientRuntime C) (generation : Nat) :
    (committedSince api r generation).view = r.view := by
  unfold committedSince
  split
  · rfl
  · refine (view_foldl ?_ _ _).trans rfl
    exact fun r e => reconcileRegistration_view api r e.1 e.2.stream

/-- The outcome of a handler is recorded, and the next turn looks again. -/
theorem prerequisiteOutcome_view (api : ClientApi C) (r : ClientRuntime C) (key : String) (error : Option String) :
    (prerequisiteOutcome api r key error).view = (r.prerequisiteReadiness key).view := by
  unfold prerequisiteOutcome
  dsimp only
  refine (committedSince_view ..).trans ?_
  split
  · rename_i hx
    exact view_of_ask hx
  · rename_i s hx
    exact Eq.trans (b := s.view) rfl (view_of_ask hx)

theorem Tracked.readiness (T : r.Tracked) (key : String) : (r.prerequisiteReadiness key).Tracked :=
  T.flagged rfl rfl (Table.nodup_remove T.backoff key)

/-- Work of the runtime that is not the scheduler's: it issues, answers and cancels effects of its own. -/
structure Beside (r s : ClientRuntime C) : Prop where
  prerequisites : s.prerequisites = r.prerequisites
  effects : ∀ id kind, kind.scheduled = true → (s.effects.get id = some kind ↔ r.effects.get id = some kind)
  distinct : (s.effects.map (·.1)).Nodup
  issued : r.issued ≤ s.issued

theorem Tracked.beside (T : r.Tracked) (h : Beside r s) : s.Tracked := by
  rw [Tracked, h.prerequisites]
  refine ⟨fun id kind hk => (h.effects id kind hk).trans (T.tracked id kind hk), fun id kind hk hget => ?_, h.distinct, T.backoff⟩
  obtain ⟨n, hn, hid⟩ := T.used id kind hk ((h.effects id kind hk).1 hget)
  exact ⟨n, hn.trans h.issued, hid⟩

end ClientRuntime

/-! ## Runs of the scheduler -/

/-- What may happen next. -/
inductive SchedulerEvent where
  | turn (now : Nat)
  | result (effectId : String) (outcome : Bridge.EffectOutcome) (now entropy : Nat)
  | outcome (key : String) (error : Option String)
  | readiness (key : String)
  | commit
  | rebuild
  | other

/-- A runtime, and the tasks its store holds. -/
structure Scheduled (C : Type) where
  runtime : ClientRuntime C
  tasks : List Json

namespace Scheduled

open ClientRuntime

variable {C : Type} (api : ClientApi C)

/-- A runtime with its handlers registered (prerequisites.rs:61), over a store with some tasks. -/
def start (client : C) (namespaceId : String) (handlers : List String) (tasks : List Json) : Scheduled C :=
  ⟨{ ClientRuntime.new client namespaceId with prerequisites := { handlers, dirty := true } }, tasks⟩

/-- One event. A turn that reads the tasks reads those the store holds; a commit and a rebuild wake the
scheduler, and may leave any client and any tasks; other work ends tasks at most. -/
inductive Step : Scheduled C → SchedulerEvent → Scheduled C → Prop
  | turn {s : Scheduled C} (now : Nat) (ready : s.runtime.prerequisites.isReady = true)
      (reads : ∀ ts, (api.pendingTasks s.runtime.client).1 = .ok ts → ts = s.tasks) :
      Step s (.turn now) { s with runtime := prerequisiteTurn api s.runtime now }
  | result {s : Scheduled C} {kind : EffectKind} (effectId : String) (outcome : Bridge.EffectOutcome) (now entropy : Nat)
      (issued : s.runtime.effects.get effectId = some kind) (scheduled : kind.scheduled = true) :
      Step s (.result effectId outcome now entropy)
        { s with runtime := effectResult api.parseJson s.runtime effectId outcome now entropy }
  | outcome {s : Scheduled C} {rest : List Ready} (key : String) (error : Option String) (tasks : List Json)
      (first : s.runtime.ready = .prerequisiteOutcome key error :: rest) :
      Step s (.outcome key error) ⟨prerequisiteOutcome api { s.runtime with ready := rest } key error, tasks⟩
  | readiness {s : Scheduled C} (key : String) :
      Step s (.readiness key) { s with runtime := s.runtime.prerequisiteReadiness key }
  | commit {s : Scheduled C} (client : C) (tasks : List Json) :
      Step s .commit ⟨{ s.runtime with client }.wakeLanes, tasks⟩
  | rebuild {s : Scheduled C} (client : C) (tasks : List Json) :
      Step s .rebuild ⟨{ s.runtime with client }.rebuiltPrerequisites, tasks⟩
  | other {s : Scheduled C} {runtime : ClientRuntime C} {tasks : List Json} (beside : Beside s.runtime runtime)
      (fewer : tasks ⊆ s.tasks) : Step s .other ⟨runtime, tasks⟩

variable {api} {s t : Scheduled C} {e : SchedulerEvent}

theorem Step.tracked (h : Step api s e t) (T : s.runtime.Tracked) : t.runtime.Tracked := by
  cases h with
  | turn now ready reads =>
    simp only [Prerequisites.isReady, Bool.and_eq_true, Option.isNone_iff_eq_none] at ready
    exact (T.turn api ready.1.2 now).1
  | @result kind effectId outcome now entropy issued scheduled =>
    cases kind with
    | prerequisite key => exact (T.result api.parseJson issued outcome now entropy).1
    | prerequisiteTimer => exact (T.timer api.parseJson issued outcome now entropy).1
    | _ => cases scheduled
  | @outcome rest key error tasks first =>
    have hview := prerequisiteOutcome_view api { s.runtime with ready := rest } key error
    exact (Tracked.of_view (r := s.runtime.prerequisiteReadiness key) (T.readiness key) hview)
  | readiness key => exact T.readiness key
  | commit client tasks => exact T.flagged rfl rfl T.backoff
  | rebuild client tasks => exact (Tracked.rebuilt (r := { s.runtime with client }) T).1
  | other beside fewer => exact T.beside beside

theorem start_tracked (client : C) (namespaceId : String) (handlers : List String) (tasks : List Json) :
    (start client namespaceId handlers tasks).runtime.Tracked := by
  refine ⟨fun id kind hk => ?_, fun id kind hk h => absurd h (Option.some_ne_none kind).symm, List.nodup_nil, List.nodup_nil⟩
  cases kind with
  | prerequisite key => simp [start, ClientRuntime.new, Table.get, Prerequisites.Holds]
  | prerequisiteTimer => simp [start, ClientRuntime.new, Table.get, Prerequisites.Holds]
  | _ => cases hk

/-! ## No task is lost -/

/-- Where no handler runs and the scheduler is not dirty, every task that could run waits for the timer. -/
def Accounted (s : Scheduled C) : Prop :=
  s.runtime.prerequisites.running = none → s.runtime.prerequisites.dirty = true ∨
    ∀ task ∈ s.tasks, ∀ now, taskRunnable s.runtime.prerequisites now task = true →
      ∃ key b timer, (task.index "key").asStr = some key ∧ s.runtime.prerequisites.backoff.get key = some b ∧
        s.runtime.prerequisites.timer = some timer ∧ timer.2 ≤ b.due

/-- A turn reads the tasks, with an id left for a handler and one for the timer. -/
def Fine (api : ClientApi C) (s : Scheduled C) : SchedulerEvent → Prop
  | .turn _ => (∃ ts, (api.pendingTasks s.runtime.client).1 = .ok ts) ∧ s.runtime.issued + 2 ≤ maxU64
  | _ => True

theorem Accounted.of_dirty (h : s.runtime.prerequisites.dirty = true) : s.Accounted := fun _ => .inl h

/-- The earliest retry that waits is before every other. -/
theorem earliest_le {p : Prerequisites} {now : Nat} {key : String} {b : Backoff} (h : p.backoff.get key = some b)
    (hdue : now < b.due) : ∃ due, p.earliest now = some due ∧ due ≤ b.due := by
  have hmem : b.due ∈ (p.backoff.map (·.2.due)).filter fun due => decide (now < due) :=
    List.mem_filter.2 ⟨List.mem_map.2 ⟨_, Table.mem_of_get h, rfl⟩, decide_eq_true hdue⟩
  unfold Prerequisites.earliest
  cases hmin : ((p.backoff.map (·.2.due)).filter fun due => decide (now < due)).min? with
  | none => simp [List.min?_eq_none_iff.1 hmin] at hmem
  | some due => exact ⟨due, rfl, (List.min?_eq_some_iff.1 hmin).2 _ hmem⟩

/-- A task that only its backoff keeps from running. -/
theorem waits_of_not_runnable {p : Prerequisites} {now now' : Nat} {task : Json} (hrun : taskRunnable p now' task = true)
    (hno : taskRunnable p now task = false) :
    ∃ key b, (task.index "key").asStr = some key ∧ p.backoff.get key = some b ∧ now < b.due := by
  unfold taskRunnable at hrun hno
  simp only [Bool.and_eq_true] at hrun
  rw [hrun.1.1, hrun.1.2] at hno
  simp only [Bool.and_self, Bool.true_and, Bool.not_eq_false'] at hno
  cases hkey : (task.index "key").asStr with
  | none => simp [hkey] at hno
  | some key =>
    cases hb : p.backoff.get key with
    | none => simp [hkey, hb] at hno
    | some b => exact ⟨key, b, rfl, hb, by simpa [hkey, hb] using hno⟩

/-- A turn that read the tasks leaves none of them lost. -/
theorem Turned.accounted {ts : List Json} {now : Nat} (h : Turned ts now s.runtime.prerequisites) (hts : s.tasks = ts) :
    s.Accounted := by
  refine fun hidle => .inr fun task htask now' hrun => ?_
  obtain ⟨key, b, hkey, hb, hdue⟩ := waits_of_not_runnable hrun (h.idle hidle task (hts ▸ htask))
  obtain ⟨due, hearliest, hle⟩ := earliest_le hb hdue
  have htimer := h.timer
  rw [hearliest, Option.map_eq_some_iff] at htimer
  obtain ⟨timer, htimer, rfl⟩ := htimer
  exact ⟨key, b, timer, hkey, hb, htimer, hle⟩

theorem Step.accounted (h : Step api s e t) (hfine : s.Fine api e) (T : s.runtime.Tracked) (inv : s.Accounted) :
    t.Accounted := by
  cases h with
  | turn now ready reads =>
    simp only [Prerequisites.isReady, Bool.and_eq_true, Option.isNone_iff_eq_none] at ready
    obtain ⟨⟨ts, hts⟩, hroom⟩ := hfine
    exact Turned.accounted ((T.turn api ready.1.2 now).2.2 ts hts hroom) (reads ts hts).symm
  | @result kind effectId outcome now entropy issued scheduled =>
    cases kind with
    | prerequisite key => exact .of_dirty (T.result api.parseJson issued outcome now entropy).2
    | prerequisiteTimer => exact .of_dirty (T.timer api.parseJson issued outcome now entropy).2
    | _ => cases scheduled
  | @outcome rest key error tasks first =>
    have hview := prerequisiteOutcome_view api { s.runtime with ready := rest } key error
    simp only [view, Prod.mk.injEq] at hview
    exact .of_dirty (by rw [hview.2.1]; rfl)
  | readiness key => exact .of_dirty rfl
  | commit client tasks => exact .of_dirty rfl
  | rebuild client tasks => exact .of_dirty (Tracked.rebuilt (r := { s.runtime with client }) T).2
  | other beside fewer =>
    intro hidle
    rw [beside.prerequisites] at hidle
    refine (inv hidle).imp (fun h => by rw [beside.prerequisites]; exact h) fun hall task htask now hrun => ?_
    rw [beside.prerequisites] at hrun ⊢
    exact hall task (fewer htask) now hrun

/-! ## The theorem -/

/-- A fired timer makes a task that waited for it runnable. -/
theorem fired_runnable (T : s.runtime.Tracked) {id : String} (htimer : s.runtime.effects.get id = some .prerequisiteTimer)
    (hidle : s.runtime.prerequisites.running = none) {task : Json} {now : Nat}
    (hrun : taskRunnable s.runtime.prerequisites now task = true) (decode : String → Option Json)
    (outcome : Bridge.EffectOutcome) (fired entropy : Nat) :
    (effectResult decode s.runtime id outcome fired entropy).prerequisites.isReady = true ∧
      ∀ now', now ≤ now' →
        taskRunnable (effectResult decode s.runtime id outcome fired entropy).prerequisites now' task = true := by
  rw [effectResult_timer decode htimer]
  obtain ⟨due, -, hview⟩ := T.fired htimer
  simp only [view, Prod.mk.injEq] at hview
  rw [hview.2.1]
  simp only [taskRunnable, Bool.and_eq_true, Bool.not_eq_true'] at hrun
  obtain ⟨⟨hpending, hhandled⟩, hwaits⟩ := hrun
  refine ⟨?_, fun now' hnow => ?_⟩
  · have hhandlers : s.runtime.prerequisites.handlers.isEmpty = false := by
      cases hh : s.runtime.prerequisites.handlers with
      | nil => simp [hh] at hhandled
      | cons _ _ => rfl
    simp [Prerequisites.isReady, hidle, hhandlers]
  · simp only [taskRunnable, hpending, hhandled, Bool.and_self, Bool.true_and, Bool.not_eq_true']
    cases hkey : (task.index "key").asStr with
    | none => rfl
    | some key =>
      have hget : Table.get (s.runtime.prerequisites.backoff.map fun e =>
          if e.2.due ≤ due then (e.1, { e.2 with due := 0 }) else e) key =
          (s.runtime.prerequisites.backoff.get key).map fun b => if b.due ≤ due then { b with due := 0 } else b := by
        generalize s.runtime.prerequisites.backoff = backoff
        induction backoff with
        | nil => rfl
        | cons e backoff ih =>
          obtain ⟨k, b⟩ := e
          by_cases hk : k = key <;> by_cases hb : b.due ≤ due <;> simp [Table.get, hk, hb, ih]
      rw [hkey] at hwaits
      cases hb : s.runtime.prerequisites.backoff.get key with
      | none => simp [hget, hb]
      | some b =>
        have hpast : ¬ now < b.due := by simpa [hb] using hwaits
        by_cases hdue : b.due ≤ due
        · simp [hget, hb, hdue]
        · simp only [Option.any_some, hget, hb, Option.map_some, if_neg hdue, decide_eq_false_iff_not]
          omega

/-- At most one handler runs and at most one timer is outstanding. -/
def OneOfEach (r : ClientRuntime C) : Prop :=
  (∀ id id' key key', r.effects.get id = some (.prerequisite key) → r.effects.get id' = some (.prerequisite key') → id = id') ∧
    ∀ id id', r.effects.get id = some .prerequisiteTimer → r.effects.get id' = some .prerequisiteTimer → id = id'

/-- The due times of the pending tasks that still back off. -/
def Waiting (p : Prerequisites) (ts : List Json) (now : Nat) : Set Nat :=
  { due | ∃ task ∈ ts, taskPending task = true ∧ ∃ key b, (task.index "key").asStr = some key ∧
      p.backoff.get key = some b ∧ now < b.due ∧ b.due = due }

/-- A timer is outstanding where a task backs off, for the earliest retry. -/
def Armed (r : ClientRuntime C) (ts : List Json) (now : Nat) : Prop :=
  (∀ id, r.effects.get id = some .prerequisiteTimer →
    ∃ due, r.prerequisites.timer = some (id, due) ∧ IsLeast (Waiting r.prerequisites ts now) due) ∧
    ((Waiting r.prerequisites ts now).Nonempty → ∃ id, r.effects.get id = some .prerequisiteTimer)

/-- Where no handler runs, a turn will look at every task that could run, or an outstanding timer makes it run. -/
def NoneLost (api : ClientApi C) (s : Scheduled C) : Prop :=
  (∀ id key, s.runtime.effects.get id ≠ some (.prerequisite key)) →
    ∀ task ∈ s.tasks, ∀ now, taskRunnable s.runtime.prerequisites now task = true →
      s.runtime.prerequisites.isReady = true ∨ ∃ id, s.runtime.effects.get id = some .prerequisiteTimer ∧
        ∀ outcome fired entropy,
          (effectResult api.parseJson s.runtime id outcome fired entropy).prerequisites.isReady = true ∧
            ∀ now', now ≤ now' → taskRunnable
              (effectResult api.parseJson s.runtime id outcome fired entropy).prerequisites now' task = true

theorem oneOfEach {r : ClientRuntime C} (T : r.Tracked) : OneOfEach r := by
  refine ⟨fun id id' key key' h h' => ?_, fun id id' h h' => ?_⟩
  · have hrunning : _ = _ := (T.tracked id _ rfl).1 h
    have hrunning' : _ = _ := (T.tracked id' _ rfl).1 h'
    rw [hrunning, Option.some.injEq, Prod.mk.injEq] at hrunning'
    exact hrunning'.1
  · have htimer : _ = _ := (T.tracked id _ rfl).1 h
    have htimer' : _ = _ := (T.tracked id' _ rfl).1 h'
    rw [htimer, Option.some.injEq] at htimer'
    exact htimer'

/-- The earliest retry is the least due time of a task that backs off. -/
theorem Turned.isLeast {ts : List Json} {now due : Nat} {p : Prerequisites} (h : Turned ts now p)
    (hn : (p.backoff.map (·.1)).Nodup) (hdue : p.earliest now = some due) : IsLeast (Waiting p ts now) due := by
  obtain ⟨hmem, -⟩ := List.min?_eq_some_iff.1 hdue
  obtain ⟨hin, hlater⟩ := List.mem_filter.1 hmem
  obtain ⟨e, he, rfl⟩ := List.mem_map.1 hin
  obtain ⟨task, htask, hpending, hkey⟩ := h.waits e he
  refine ⟨⟨task, htask, hpending, e.1, e.2, hkey, Table.get_of_mem hn he, of_decide_eq_true hlater, rfl⟩, ?_⟩
  rintro d ⟨task', -, -, key, b, -, hb, hnow, rfl⟩
  obtain ⟨due', hdue', hle⟩ := earliest_le hb hnow
  rw [hdue, Option.some.injEq] at hdue'
  exact hdue' ▸ hle

theorem turn_arms {r : ClientRuntime C} (T : r.Tracked) (hidle : r.prerequisites.running = none) (now : Nat) {ts : List Json}
    (hts : (api.pendingTasks r.client).1 = .ok ts) (hroom : r.issued + 2 ≤ maxU64) :
    Armed (prerequisiteTurn api r now) ts now := by
  obtain ⟨T', -, hturned⟩ := T.turn api hidle now
  have hturned := hturned ts hts hroom
  have htimer := hturned.timer
  refine ⟨fun id hid => ?_, ?_⟩
  · have hknown : _ = _ := (T'.tracked id _ rfl).1 hid
    rw [Option.map_eq_some_iff] at hknown
    obtain ⟨timer, hknown, rfl⟩ := hknown
    rw [hknown, Option.map_some] at htimer
    exact ⟨timer.2, hknown, Turned.isLeast hturned T'.backoff htimer.symm⟩
  · rintro ⟨due, task, -, -, key, b, -, hb, hnow, -⟩
    obtain ⟨due', hdue', -⟩ := earliest_le hb hnow
    rw [hdue', Option.map_eq_some_iff] at htimer
    obtain ⟨timer, hknown, -⟩ := htimer
    exact ⟨timer.1, (T'.tracked timer.1 _ rfl).2 (by simp [Prerequisites.Holds, hknown])⟩

theorem Accounted.noneLost (inv : s.Accounted) (T : s.runtime.Tracked) : s.NoneLost api := by
  intro hnone task htask now hrun
  have hidle : s.runtime.prerequisites.running = none := by
    cases hr : s.runtime.prerequisites.running with
    | none => rfl
    | some running => exact absurd ((T.tracked running.1 (.prerequisite running.2) rfl).2 hr) (hnone _ _)
  rcases inv hidle with hdirty | hall
  · left
    have hhandlers : s.runtime.prerequisites.handlers.isEmpty = false := by
      cases hh : s.runtime.prerequisites.handlers with
      | nil => simp [taskRunnable, hh] at hrun
      | cons _ _ => rfl
    simp [Prerequisites.isReady, hidle, hdirty, hhandlers]
  · right
    obtain ⟨-, -, timer, -, -, htimer, -⟩ := hall task htask now hrun
    have hget := (T.tracked timer.1 .prerequisiteTimer rfl).2 (by simp [Prerequisites.Holds, htimer])
    exact ⟨timer.1, hget, fun outcome fired entropy => fired_runnable T hget hidle hrun api.parseJson outcome fired entropy⟩

/-- **The scheduler** runs one handler and one timer at a time, arms the timer for the earliest retry in every turn that
reads the tasks, and, where every turn reads them, loses none. -/
theorem prerequisites_live (api : ClientApi C) (client : C) (namespaceId : String) (handlers : List String) (tasks : List Json) :
    (∀ es s, Trace (Step api) (start client namespaceId handlers tasks) es s → OneOfEach s.runtime ∧
      ∀ now, s.runtime.prerequisites.isReady = true → ∀ ts, (api.pendingTasks s.runtime.client).1 = .ok ts →
        s.runtime.issued + 2 ≤ maxU64 → Armed (prerequisiteTurn api s.runtime now) ts now) ∧
      ∀ es s, Trace (fun s e t => s.Fine api e ∧ Step api s e t) (start client namespaceId handlers tasks) es s →
        s.NoneLost api := by
  have htracked := start_tracked client namespaceId handlers tasks
  refine ⟨fun es s run => ?_, fun es s run => ?_⟩
  · have T : s.runtime.Tracked := run.inv (fun s => s.runtime.Tracked) (fun _ _ _ T h => h.tracked T) htracked
    refine ⟨oneOfEach T, fun now ready ts hts hroom => ?_⟩
    simp only [Prerequisites.isReady, Bool.and_eq_true, Option.isNone_iff_eq_none] at ready
    exact turn_arms T ready.1.2 now hts hroom
  · obtain ⟨T, inv⟩ : s.runtime.Tracked ∧ s.Accounted := run.inv (fun s => s.runtime.Tracked ∧ s.Accounted)
      (fun _ _ _ hs h => ⟨h.2.tracked hs.1, h.2.accounted h.1 hs.1 hs.2⟩) ⟨htracked, .of_dirty rfl⟩
    exact inv.noneLost T

/-- A task that waits for its handler. -/
def uploadTask : Json := .obj [("arguments", .null), ("key", .str "k"), ("name", .str "upload"), ("state", .str "pending")]

/-- A client that reads its tasks. -/
def readingApi : ClientApi Unit := { Host.failingApi with pendingTasks := fun c => (.ok [uploadTask], c) }

/-- A turn starts the handler of the task, and nothing is lost. -/
theorem prerequisites_live_upload : ∃ s, Trace (fun s e t => s.Fine readingApi e ∧ Step readingApi s e t)
    (start () "n" ["upload"] [uploadTask]) [.turn 0] s ∧ s.runtime.prerequisites.running = some ("1", "k") ∧
      OneOfEach s.runtime ∧ s.NoneLost readingApi := by
  have run : Trace (fun s e t => s.Fine readingApi e ∧ Step readingApi s e t) (start () "n" ["upload"] [uploadTask])
      [.turn 0] _ := .single ⟨⟨⟨_, rfl⟩, by decide⟩, .turn 0 (by decide +kernel) fun ts h => (Except.ok.inj h).symm⟩
  have live := prerequisites_live readingApi () "n" ["upload"] [uploadTask]
  exact ⟨_, run, by decide +kernel, (live.1 _ _ (run.mono fun _ _ _ h => h.2)).1, live.2 _ _ run⟩

/-- One turn whose read fails, and nothing is left to run the task. -/
theorem prerequisites_lost : ∃ s, Trace (Step Host.failingApi) (start () "n" ["upload"] [uploadTask]) [.turn 0] s ∧
    ¬ s.NoneLost Host.failingApi := by
  refine ⟨_, .single (.turn 0 (by decide +kernel) fun ts h => by cases h), fun h => ?_⟩
  have hrun : taskRunnable { handlers := ["upload"] } 0 uploadTask = true := by decide +kernel
  rcases h (fun id key hid => by cases hid) uploadTask (by simp [start]) 0 hrun with hready | ⟨id, hid, -⟩
  · cases hready
  · cases hid

end Scheduled

end Axton
