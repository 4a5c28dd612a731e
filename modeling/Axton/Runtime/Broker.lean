import Axton.Runtime.Bridge
import Mathlib.Data.Finset.Erase
import Mathlib.Data.Finset.Insert
import Mathlib.Data.List.Basic

/-!
# The refresh broker: one refresh of the credential at the host for all that wait for one

| here | there |
| --- | --- |
| `RefreshBroker`          | `RefreshBroker` (actor.rs:947): the id of the host's effect and the ids that wait for its answer |
| `RefreshBroker.take`     | one event in the closure of `RefreshBroker::filter` |
| `RefreshBroker.filter`   | `RefreshBroker::filter` |
| `RefreshBroker.answer`   | `RefreshBroker::answer` |

The id of the host's effect is that of its first waiter. Cancelled, it stops to wait and leaves the effect to
the others; cancelled once more, it is no waiter's id any more, passes like any other cancellation and cancels
the effect of those that still wait (`second_cancel`). The runtime cancels an effect only as it drops it from
its table, so that this does not occur there; `Once` says it of a history.
-/

namespace Axton

open Bridge

structure RefreshBroker where
  active : Option (String × Finset String) := none
deriving DecidableEq

namespace RefreshBroker

def take (b : RefreshBroker) : Bridge.Event → RefreshBroker × Option Bridge.Event
  | .effect id .refreshAuth =>
    match b.active with
    | some (host, waiters) => ({ active := some (host, insert id waiters) }, none)
    | none => ({ active := some (id, {id}) }, some (.effect id .refreshAuth))
  | .cancelEffect id =>
    match b.active with
    | some (host, waiters) =>
      if id ∈ waiters then
        if waiters.erase id = ∅ then ({ active := none }, some (.cancelEffect host))
        else ({ active := some (host, waiters.erase id) }, none)
      else (b, some (.cancelEffect id))
    | none => (b, some (.cancelEffect id))
  | e => (b, some e)

def filter (b : RefreshBroker) : List Bridge.Event → RefreshBroker × List Bridge.Event
  | [] => (b, [])
  | e :: events =>
    let (b, out) := b.take e
    let (b, rest) := b.filter events
    (b, out.toList ++ rest)

def answer (b : RefreshBroker) (id : String) : RefreshBroker × Option (Finset String) :=
  match b.active with
  | some (host, waiters) => if host = id then ({ active := none }, some waiters) else (b, none)
  | none => (b, none)

/-! ## Histories -/

/-- A call of the actor. -/
inductive Call where
  | filter (events : List Bridge.Event)
  | answer (id : String)

/-- One thing the broker is handed: an event of a batch, or the host's answer. -/
inductive Moment where
  | event (e : Bridge.Event)
  | answer (id : String)
deriving DecidableEq

abbrev Moment.refresh (id : String) : Moment := .event (.effect id .refreshAuth)
abbrev Moment.cancel (id : String) : Moment := .event (.cancelEffect id)

def Call.moments : Call → List Moment
  | .filter events => events.map .event
  | .answer id => [.answer id]

/-- What a call answers: the events that pass, or the ids the host's answer is for. -/
def call (b : RefreshBroker) : Call → RefreshBroker × List Bridge.Event × Option (Finset String)
  | .filter events => ((b.filter events).1, (b.filter events).2, none)
  | .answer id => ((b.answer id).1, [], (b.answer id).2)

/-- The broker after the calls. -/
def run (b : RefreshBroker) (calls : List Call) : RefreshBroker := calls.foldl (fun b c => (b.call c).1) b

/-- What the host is sent over the calls. -/
def passed (b : RefreshBroker) : List Call → List Bridge.Event
  | [] => []
  | c :: calls => (b.call c).2.1 ++ (b.call c).1.passed calls

def next (b : RefreshBroker) : Moment → RefreshBroker
  | .event e => (b.take e).1
  | .answer id => (b.answer id).1

/-- What the host is sent at a moment. -/
def sends (b : RefreshBroker) : Moment → Option Bridge.Event
  | .event e => (b.take e).2
  | .answer _ => none

/-- What the host is sent over a history, one moment after the other. -/
def sent (b : RefreshBroker) : List Moment → List Bridge.Event
  | [] => []
  | m :: ms => (b.sends m).toList ++ (b.next m).sent ms

/-- The broker after a history. -/
def after (ms : List Moment) : RefreshBroker := ms.foldl next {}

/-- The refreshes the host is at, after one more moment. -/
def settle (b : RefreshBroker) (out : List String) : Moment → List String
  | .answer id => out.filter (· ≠ id)
  | .event e =>
    match (b.take e).2 with
    | some (.effect id .refreshAuth) => id :: out
    | some (.cancelEffect id) => out.filter (· ≠ id)
    | _ => out

/-- The refreshes the host was sent and has neither answered nor been told to cancel. -/
def outstanding (ms : List Moment) : List String :=
  (ms.foldl (fun s m => (s.1.next m, s.1.settle s.2 m)) (({} : RefreshBroker), [])).2

/-- The host effect that a refresh asked for now joins: the active one, or its own. -/
def joins (b : RefreshBroker) (id : String) : String := b.active.elim id (·.1)

/-- The answer to the host effect `h` would be `w`'s. -/
def Waiting (b : RefreshBroker) (h w : String) : Prop := ∃ waiters, b.active = some (h, waiters) ∧ w ∈ waiters

/-- The host's answer to `id` is handed to `w`. -/
def Returns (b : RefreshBroker) (id w : String) : Prop :=
  ∃ waiters, (b.answer id).2 = some waiters ∧ w ∈ waiters

/-- In the history `w` joined `h`, was not cancelled since, and `h` was not answered since. -/
def Waits (ms : List Moment) (h w : String) : Prop :=
  ∃ us vs, ms = us ++ .refresh w :: vs ∧ (after us).joins w = h ∧ .cancel w ∉ vs ∧ .answer h ∉ vs

def Moment.refreshes : Moment → Option String
  | .event (.effect id .refreshAuth) => some id
  | _ => none

def Moment.cancels : Moment → Option String
  | .event (.cancelEffect id) => some id
  | _ => none

/-- The refreshes have distinct ids. -/
def Distinct (ms : List Moment) : Prop := (ms.filterMap Moment.refreshes).Nodup

/-- No effect is cancelled twice. -/
def Once (ms : List Moment) : Prop := (ms.filterMap Moment.cancels).Nodup

/-- Neither a refresh nor a cancellation. -/
def other : Bridge.Event → Bool
  | .effect _ .refreshAuth | .cancelEffect _ => false
  | _ => true

/-! ## One moment -/

theorem Moment.kinds (m : Moment) : (∃ id, m = .refresh id) ∨ (∃ id, m = .cancel id) ∨ (∃ id, m = .answer id) ∨
    ∃ e, other e = true ∧ m = .event e := by
  cases m with
  | answer id => exact .inr (.inr (.inl ⟨id, rfl⟩))
  | event e =>
    cases e with
    | effect id op =>
      cases op with
      | refreshAuth => exact .inl ⟨id, rfl⟩
      | _ => exact .inr (.inr (.inr ⟨_, rfl, rfl⟩))
    | cancelEffect id => exact .inr (.inl ⟨id, rfl⟩)
    | _ => exact .inr (.inr (.inr ⟨_, rfl, rfl⟩))

variable (b : RefreshBroker)

theorem take_other {e : Bridge.Event} (h : other e = true) : b.take e = (b, some e) := by
  cases e with
  | effect id op => cases op <;> first | rfl | simp [other] at h
  | cancelEffect id => simp [other] at h
  | _ => rfl

theorem take_refresh (id : String) : b.take (.effect id .refreshAuth) =
    ({ active := some (b.joins id, insert id (b.active.elim ∅ (·.2))) },
      b.active.elim (some (.effect id .refreshAuth)) fun _ => none) := by
  obtain ⟨_ | ⟨host, waiters⟩⟩ := b <;> rfl

variable {b}

theorem take_stray {id : String} (h : ∀ host, ¬ b.Waiting host id) :
    b.take (.cancelEffect id) = (b, some (.cancelEffect id)) := by
  obtain ⟨_ | ⟨host, waiters⟩⟩ := b
  · rfl
  · have hid : id ∉ waiters := fun hm => h host ⟨waiters, rfl, hm⟩
    simp only [take, if_neg hid]

theorem take_last {host id : String} (h : b.active = some (host, {id})) :
    b.take (.cancelEffect id) = ({ active := none }, some (.cancelEffect host)) := by
  obtain ⟨active⟩ := b
  cases h
  simp [take]

theorem take_leave {host id other : String} {waiters : Finset String} (h : b.active = some (host, waiters))
    (hid : id ∈ waiters) (ho : other ∈ waiters) (hne : other ≠ id) :
    b.take (.cancelEffect id) = ({ active := some (host, waiters.erase id) }, none) := by
  obtain ⟨active⟩ := b
  cases h
  have hrest : waiters.erase id ≠ ∅ := fun hempty => by
    have := Finset.mem_erase.2 ⟨hne, ho⟩
    simp [hempty] at this
  simp only [take, if_pos hid, if_neg hrest]

/-- What a cancellation does: nobody waits under the id, it is the last that waits, or others wait too. -/
theorem cancel_cases (b : RefreshBroker) (id : String) : (∀ host, ¬ b.Waiting host id) ∨
    (∃ host, b.active = some (host, {id})) ∨
    ∃ host waiters other, b.active = some (host, waiters) ∧ id ∈ waiters ∧ other ∈ waiters ∧ other ≠ id := by
  by_cases hw : ∃ host, b.Waiting host id
  · obtain ⟨host, waiters, hb, hid⟩ := hw
    by_cases ho : ∃ other ∈ waiters, other ≠ id
    · obtain ⟨other, hm, hne⟩ := ho
      exact .inr (.inr ⟨host, waiters, other, hb, hid, hm, hne⟩)
    · have hone : waiters = {id} := by
        ext x
        rw [Finset.mem_singleton]
        exact ⟨fun hx => by_contra fun hne => ho ⟨x, hx, hne⟩, fun hx => hx ▸ hid⟩
      exact .inr (.inl ⟨host, hone ▸ hb⟩)
  · exact .inl fun host h => hw ⟨host, h⟩

/-- Who waits after a moment: whom it added, and whom it neither cancelled nor had answered. -/
theorem waiting_next (m : Moment) (h w : String) : (b.next m).Waiting h w ↔
    (m = .refresh w ∧ b.joins w = h) ∨ (b.Waiting h w ∧ m ≠ .cancel w ∧ m ≠ .answer h) := by
  obtain ⟨id, rfl⟩ | ⟨id, rfl⟩ | ⟨id, rfl⟩ | ⟨e, he, rfl⟩ := m.kinds
  · simp only [next, take_refresh, Waiting]
    obtain ⟨_ | ⟨host, waiters⟩⟩ := b
    · simp [joins]
      constructor <;> (rintro ⟨rfl, rfl⟩; exact ⟨rfl, rfl⟩)
    · simp [joins]
      tauto
  · obtain hstray | ⟨host, hb⟩ | ⟨host, waiters, other, hb, hid, ho, hne⟩ := cancel_cases b id
    · have hid : b.Waiting h w → id ≠ w := by
        rintro hw rfl
        exact hstray h hw
      simp only [next, take_stray hstray]
      simp
      tauto
    · simp [next, take_last hb, Waiting, hb]
      tauto
    · simp [next, take_leave hb hid ho hne, Waiting, hb]
      tauto
  · obtain ⟨_ | ⟨host, waiters⟩⟩ := b
    · simp [next, answer, Waiting]
    · by_cases hid : host = id
      · subst hid
        simp [next, answer, Waiting]
        tauto
      · simp [next, answer, Waiting, hid]
        rintro rfl _ rfl
        exact hid rfl
  · simp [next, take_other b he]
    constructor
    · intro hw
      refine .inr ⟨hw, ?_⟩
      rintro rfl
      simp [other] at he
    · rintro (⟨rfl, -⟩ | ⟨hw, -⟩)
      · simp [other] at he
      · exact hw

/-- What the host is told to cancel: the effect whose last waiter is cancelled, or an id nobody waits under. -/
theorem sends_cancel_iff (m : Moment) (id : String) : b.sends m = some (.cancelEffect id) ↔
    (∃ w, m = .cancel w ∧ b.active = some (id, {w})) ∨ (m = .cancel id ∧ ∀ host, ¬ b.Waiting host id) := by
  obtain ⟨w, rfl⟩ | ⟨w, rfl⟩ | ⟨w, rfl⟩ | ⟨e, he, rfl⟩ := m.kinds
  · obtain ⟨_ | ⟨host, waiters⟩⟩ := b <;> simp [sends, take_refresh]
  · obtain hstray | ⟨host, hb⟩ | ⟨host, waiters, other, hb, hid, ho, hne⟩ := cancel_cases b w
    · have hsend : b.sends (.cancel w) = some (.cancelEffect w) := by simp only [sends, take_stray hstray]
      constructor
      · intro h
        have hw : w = id := by simpa [hsend] using h
        exact .inr ⟨hw ▸ rfl, hw ▸ hstray⟩
      · rintro (⟨w', hw', hb⟩ | ⟨hw, -⟩)
        · obtain rfl : w = w' := by simpa using hw'
          exact absurd ⟨_, hb, Finset.mem_singleton_self w⟩ (hstray id)
        · rw [hsend, show w = id by simpa using hw]
    · have hsend : b.sends (.cancel w) = some (.cancelEffect host) := by simp only [sends, take_last hb]
      constructor
      · intro h
        exact .inl ⟨w, rfl, by simpa [hsend, hb] using h⟩
      · rintro (⟨w', hw', hb'⟩ | ⟨hw, hnone⟩)
        · rw [hb, Option.some.injEq, Prod.mk.injEq] at hb'
          rw [hsend, hb'.1]
        · obtain rfl : w = id := by simpa using hw
          exact absurd ⟨_, hb, Finset.mem_singleton_self w⟩ (hnone host)
    · have hsend : b.sends (.cancel w) = none := by simp only [sends, take_leave hb hid ho hne]
      constructor
      · intro h
        simp [hsend] at h
      · rintro (⟨w', hw', hb'⟩ | ⟨hw, hnone⟩)
        · obtain rfl : w = w' := by simpa using hw'
          rw [hb, Option.some.injEq, Prod.mk.injEq] at hb'
          exact absurd (Finset.mem_singleton.1 (hb'.2 ▸ ho)) hne
        · obtain rfl : w = id := by simpa using hw
          exact absurd ⟨waiters, hb, hid⟩ (hnone host)
  · simp [sends]
  · simp only [sends, take_other b he]
    constructor
    · intro h
      obtain rfl : e = .cancelEffect id := by simpa using h
      simp [other] at he
    · rintro (⟨w, hw, -⟩ | ⟨hw, -⟩)
      · obtain rfl : e = .cancelEffect w := by simpa using hw
        simp [other] at he
      · obtain rfl : e = .cancelEffect id := by simpa using hw
        simp [other] at he

/-- Every event but a refresh and the cancellation of one that waits passes, and changes nothing. -/
theorem take_passes {e : Bridge.Event} (hr : ∀ id, e ≠ .effect id .refreshAuth)
    (hc : ∀ id host, e = .cancelEffect id → ¬ b.Waiting host id) : b.take e = (b, some e) := by
  cases hk : other e with
  | true => exact take_other b hk
  | false =>
    obtain ⟨id, h⟩ | ⟨id, h⟩ | ⟨id, h⟩ | ⟨e', he', h⟩ := (Moment.event e).kinds
    · exact absurd (by simpa using h) (hr id)
    · obtain rfl : e = .cancelEffect id := by simpa using h
      exact take_stray fun host => hc id host rfl
    · simp at h
    · obtain rfl : e = e' := by simpa using h
      simp [hk] at he'

/-! ## Histories -/

theorem after_snoc (ms : List Moment) (m : Moment) : after (ms ++ [m]) = (after ms).next m := by
  simp [after]

theorem waits_snoc (ms : List Moment) (m : Moment) (h w : String) : Waits (ms ++ [m]) h w ↔
    (m = .refresh w ∧ (after ms).joins w = h) ∨ (Waits ms h w ∧ m ≠ .cancel w ∧ m ≠ .answer h) := by
  constructor
  · rintro ⟨us, vs, heq, hj, hc, ha⟩
    obtain rfl | ⟨vs, v, rfl⟩ := vs.eq_nil_or_concat
    · obtain ⟨rfl, hm⟩ := List.append_inj' heq rfl
      exact .inl ⟨by simpa using hm, hj⟩
    · rw [List.concat_eq_append] at heq hc ha
      rw [← List.cons_append, ← List.append_assoc] at heq
      obtain ⟨rfl, hm⟩ := List.append_inj' heq rfl
      obtain rfl : m = v := by simpa using hm
      simp only [List.mem_append, List.mem_singleton, not_or] at hc ha
      exact .inr ⟨⟨us, vs, rfl, hj, hc.1, ha.1⟩, fun h => hc.2 h.symm, fun h => ha.2 h.symm⟩
  · rintro (⟨rfl, hj⟩ | ⟨⟨us, vs, rfl, hj, hc, ha⟩, hmc, hma⟩)
    · exact ⟨ms, [], rfl, hj, by simp, by simp⟩
    · refine ⟨us, vs ++ [m], by simp, hj, ?_, ?_⟩
      · simp [hc, Ne.symm hmc]
      · simp [ha, Ne.symm hma]

/-- The waiters the broker keeps are those of its history. -/
theorem waiting_after (ms : List Moment) (h w : String) : (after ms).Waiting h w ↔ Waits ms h w := by
  induction ms using List.reverseRecOn with
  | nil => simp [after, Waiting, Waits]
  | append_singleton ms m ih => rw [after_snoc, waiting_next, waits_snoc, ih]

theorem outstanding_fold (ms : List Moment) :
    (ms.foldl (fun s m => (s.1.next m, s.1.settle s.2 m)) (({} : RefreshBroker), ([] : List String))).1 = after ms := by
  induction ms using List.reverseRecOn with
  | nil => rfl
  | append_singleton ms m ih => simp only [List.foldl_append, List.foldl_cons, List.foldl_nil, ih, after_snoc]

theorem outstanding_snoc (ms : List Moment) (m : Moment) :
    outstanding (ms ++ [m]) = (after ms).settle (outstanding ms) m := by
  simp only [outstanding, List.foldl_append, List.foldl_cons, List.foldl_nil, outstanding_fold]

/-- The host is at the active effect, or at none. -/
def At (b : RefreshBroker) (out : List String) : Prop :=
  out = [] ∨ ∃ h waiters, b.active = some (h, waiters) ∧ out = [h]

theorem At.filter {out : List String} (h : b.At out) (id : String) : b.At (out.filter (· ≠ id)) := by
  obtain rfl | ⟨host, waiters, hb, rfl⟩ := h
  · exact .inl rfl
  · by_cases hid : host = id
    · exact .inl (by simp [hid])
    · exact .inr ⟨host, waiters, hb, by simp [hid]⟩

/-- The active effect's end leaves the host at none. -/
theorem At.ended {out : List String} (h : b.At out) {host : String} {waiters : Finset String}
    (hb : b.active = some (host, waiters)) : out.filter (· ≠ host) = [] := by
  obtain rfl | ⟨host', waiters', hb', rfl⟩ := h
  · rfl
  · obtain ⟨rfl, -⟩ : host = host' ∧ waiters = waiters' := by simpa [hb] using hb'
    simp

theorem At.next {out : List String} (h : b.At out) (m : Moment) : (b.next m).At (b.settle out m) := by
  obtain ⟨id, rfl⟩ | ⟨id, rfl⟩ | ⟨id, rfl⟩ | ⟨e, he, rfl⟩ := m.kinds
  · obtain ⟨_ | ⟨host, waiters⟩⟩ := b
    · obtain rfl : out = [] := by simpa [At] using h
      exact .inr ⟨id, {id}, rfl, rfl⟩
    · obtain rfl | ⟨host', waiters', hb, rfl⟩ := h
      · exact .inl rfl
      · cases hb
        exact .inr ⟨host, insert id waiters, rfl, rfl⟩
  · obtain hstray | ⟨host, hb⟩ | ⟨host, waiters, other, hb, hid, ho, hne⟩ := cancel_cases b id
    · simpa only [RefreshBroker.next, settle, take_stray hstray] using h.filter id
    · have hend := h.ended hb
      simp only [RefreshBroker.next, settle, take_last hb]
      exact .inl hend
    · simp only [RefreshBroker.next, settle, take_leave hb hid ho hne]
      obtain rfl | ⟨host', waiters', hb', rfl⟩ := h
      · exact .inl rfl
      · obtain ⟨rfl, -⟩ : host = host' ∧ waiters = waiters' := by simpa [hb] using hb'
        exact .inr ⟨host, waiters.erase id, rfl, rfl⟩
  · by_cases hb : ∃ waiters, b.active = some (id, waiters)
    · obtain ⟨waiters, hb⟩ := hb
      exact .inl (h.ended hb)
    · have hsame : b.next (.answer id) = b := by
        obtain ⟨_ | ⟨host, waiters⟩⟩ := b
        · rfl
        · have hne : host ≠ id := fun heq => hb ⟨waiters, by simp [heq]⟩
          simp only [RefreshBroker.next, answer, if_neg hne]
      rw [hsame]
      exact h.filter id
  · have hsettle : b.settle out (.event e) = out := by
      cases e with
      | effect id op => cases op <;> first | rfl | simp [other] at he
      | cancelEffect id => simp [other] at he
      | _ => rfl
    rw [hsettle]
    simpa only [RefreshBroker.next, take_other b he] using h

theorem at_outstanding (ms : List Moment) : (after ms).At (outstanding ms) := by
  induction ms using List.reverseRecOn with
  | nil => exact .inl rfl
  | append_singleton ms m ih =>
    rw [outstanding_snoc, after_snoc]
    exact ih.next m

theorem active_next {m : Moment} {h : String} {waiters : Finset String}
    (hn : (b.next m).active = some (h, waiters)) :
    (∃ waiters, b.active = some (h, waiters)) ∨ (b.active = none ∧ m = .refresh h) := by
  obtain ⟨id, rfl⟩ | ⟨id, rfl⟩ | ⟨id, rfl⟩ | ⟨e, he, rfl⟩ := m.kinds
  · obtain ⟨_ | ⟨host, waiters⟩⟩ := b
    · simp [next, take_refresh, joins] at hn
      exact .inr ⟨rfl, by rw [hn.1]⟩
    · simp [next, take_refresh, joins] at hn
      exact .inl ⟨waiters, by rw [hn.1]⟩
  · obtain hstray | ⟨host, hb⟩ | ⟨host, waiters, other, hb, hid, ho, hne⟩ := cancel_cases b id
    · rw [next, take_stray hstray] at hn
      exact .inl ⟨_, hn⟩
    · simp [next, take_last hb] at hn
    · simp [next, take_leave hb hid ho hne] at hn
      exact .inl ⟨waiters, by rw [hb, hn.1]⟩
  · obtain ⟨_ | ⟨host, waiters⟩⟩ := b
    · simp [next, answer] at hn
    · by_cases hid : host = id
      · simp [next, answer, hid] at hn
      · simp [next, answer, hid] at hn
        exact .inl ⟨waiters, by rw [hn.1]⟩
  · rw [next, take_other b he] at hn
    exact .inl ⟨_, hn⟩

/-- The active effect waits under its own id, unless that was cancelled. -/
theorem host_waits (ms : List Moment) {h : String} {waiters : Finset String}
    (hb : (after ms).active = some (h, waiters)) : (after ms).Waiting h h ∨ .cancel h ∈ ms := by
  induction ms using List.reverseRecOn generalizing waiters with
  | nil => simp [after] at hb
  | append_singleton ms m ih =>
    rw [after_snoc] at hb ⊢
    rw [waiting_next]
    obtain ⟨before, hbefore⟩ | ⟨hnone, rfl⟩ := active_next hb
    · by_cases hc : m = .cancel h
      · exact .inr (by simp [hc])
      · obtain hw | hin := ih hbefore
        · refine .inl (.inr ⟨hw, hc, ?_⟩)
          rintro rfl
          simp [next, answer, hbefore] at hb
        · exact .inr (by simp [hin])
    · exact .inl (.inl ⟨rfl, by simp [joins, hnone]⟩)

/-- The host stays at the active effect at a moment that leaves it active and does not cancel it as
a stray id. -/
theorem settle_kept {m : Moment} {h : String} {before waiters : Finset String}
    (hb : b.active = some (h, before))
    (hn : (b.next m).active = some (h, waiters)) (hs : m = .cancel h → b.Waiting h h) :
    b.settle [h] m = [h] := by
  obtain ⟨id, rfl⟩ | ⟨id, rfl⟩ | ⟨id, rfl⟩ | ⟨e, he, rfl⟩ := m.kinds
  · simp [settle, take_refresh, hb]
  · obtain hstray | ⟨host, hb'⟩ | ⟨host, waiters, other, hb', hid, ho, hne⟩ := cancel_cases b id
    · have hne : h ≠ id := by
        rintro rfl
        exact hstray h (hs rfl)
      simp [settle, take_stray hstray, hne]
    · simp [next, take_last hb'] at hn
    · simp [settle, take_leave hb' hid ho hne]
  · have hne : h ≠ id := by
      rintro rfl
      simp [next, answer, hb] at hn
    simp [settle, hne]
  · rw [settle, take_other b he]
    cases e with
    | effect id op => cases op <;> first | rfl | simp [other] at he
    | cancelEffect id => simp [other] at he
    | _ => rfl

/-- Where no effect is cancelled twice, the host is at the active effect. -/
theorem outstanding_once {ms : List Moment} (ho : Once ms) {h : String} {waiters : Finset String}
    (hb : (after ms).active = some (h, waiters)) : outstanding ms = [h] := by
  induction ms using List.reverseRecOn generalizing waiters with
  | nil => simp [after] at hb
  | append_singleton ms m ih =>
    rw [Once, List.filterMap_append, List.nodup_append] at ho
    rw [outstanding_snoc]
    rw [after_snoc] at hb
    obtain ⟨before, hbefore⟩ | ⟨hnone, rfl⟩ := active_next hb
    · rw [ih ho.1 hbefore]
      refine settle_kept hbefore hb ?_
      rintro rfl
      obtain hw | hin := host_waits ms hbefore
      · exact hw
      · have hfirst : h ∈ ms.filterMap Moment.cancels := List.mem_filterMap.2 ⟨_, hin, rfl⟩
        exact absurd rfl (ho.2.2 h hfirst h (by simp [Moment.cancels]))
    · obtain hout | ⟨host, waiters', hactive, -⟩ := at_outstanding ms
      · simp [settle, take_refresh, hnone, hout]
      · rw [hnone] at hactive
        cases hactive

/-! ## Answers -/

theorem returns_iff (b : RefreshBroker) (id w : String) : b.Returns id w ↔ b.Waiting id w := by
  obtain ⟨_ | ⟨host, waiters⟩⟩ := b
  · simp [answer, Returns, Waiting]
  · by_cases h : host = id <;> simp [answer, Returns, Waiting, h]

theorem Distinct.split {xs ys us vs : List Moment} {w : String} (hd : Distinct (xs ++ .refresh w :: ys))
    (heq : xs ++ Moment.refresh w :: ys = us ++ Moment.refresh w :: vs) : us = xs ∧ vs = ys := by
  rw [Distinct, List.filterMap_append, List.nodup_append] at hd
  obtain ⟨-, hright, hcross⟩ := hd
  rw [List.filterMap_cons_some (rfl : Moment.refreshes (.refresh w) = some w)] at hright hcross
  have hleft : Moment.refresh w ∉ xs := fun hin =>
    hcross w (List.mem_filterMap.2 ⟨_, hin, rfl⟩) w List.mem_cons_self rfl
  have hrest : Moment.refresh w ∉ ys := fun hin =>
    (List.nodup_cons.1 hright).1 (List.mem_filterMap.2 ⟨_, hin, rfl⟩)
  obtain ⟨rfl, -, rfl⟩ := (List.append_cons_inj_of_notMem hleft hrest).1 heq
  exact ⟨rfl, rfl⟩

/-! ## Batches -/

theorem foldl_events (b : RefreshBroker) (events : List Bridge.Event) :
    (events.map Moment.event).foldl next b = (b.filter events).1 := by
  induction events generalizing b with
  | nil => rfl
  | cons e events ih => exact ih _

theorem foldl_moments (b : RefreshBroker) (calls : List Call) :
    (calls.flatMap Call.moments).foldl next b = b.run calls := by
  induction calls generalizing b with
  | nil => rfl
  | cons c calls ih =>
    rw [List.flatMap_cons, List.foldl_append, ih]
    cases c with
    | filter events => rw [Call.moments, foldl_events]; rfl
    | answer id => rfl

theorem sent_append (b : RefreshBroker) (xs ys : List Moment) :
    b.sent (xs ++ ys) = b.sent xs ++ (xs.foldl next b).sent ys := by
  induction xs generalizing b with
  | nil => rfl
  | cons m xs ih => rw [List.cons_append, sent, sent, ih, List.append_assoc, List.foldl_cons]

theorem filter_sent (b : RefreshBroker) (events : List Bridge.Event) :
    (b.filter events).2 = b.sent (events.map Moment.event) := by
  induction events generalizing b with
  | nil => rfl
  | cons e events ih => exact congrArg ((b.take e).2.toList ++ ·) (ih _)

/-- Batches do not matter to the host either. -/
theorem passed_sent (b : RefreshBroker) (calls : List Call) :
    b.passed calls = b.sent (calls.flatMap Call.moments) := by
  induction calls generalizing b with
  | nil => rfl
  | cons c calls ih =>
    rw [passed, ih, List.flatMap_cons, sent_append]
    cases c with
    | filter events => rw [Call.moments, foldl_events, ← filter_sent]; rfl
    | answer id => rfl

/-- A refresh or a cancellation sends nothing, or another of these. -/
theorem take_own (b : RefreshBroker) {e : Bridge.Event} (h : other e = false) :
    (b.take e).2.toList.filter other = [] := by
  obtain ⟨id, hm⟩ | ⟨id, hm⟩ | ⟨id, hm⟩ | ⟨e', he', hm⟩ := (Moment.event e).kinds
  · obtain rfl : e = .effect id .refreshAuth := by simpa using hm
    obtain ⟨_ | ⟨host, waiters⟩⟩ := b <;> simp [take_refresh, other]
  · obtain rfl : e = .cancelEffect id := by simpa using hm
    obtain hstray | ⟨host, hb⟩ | ⟨host, waiters, w, hb, hid, ho, hne⟩ := cancel_cases b id
    · simp [take_stray hstray, other]
    · simp [take_last hb, other]
    · simp [take_leave hb hid ho hne]
  · simp at hm
  · obtain rfl : e = e' := by simpa using hm
    simp [h] at he'

theorem filter_other (b : RefreshBroker) (events : List Bridge.Event) :
    (b.filter events).2.filter other = events.filter other := by
  induction events generalizing b with
  | nil => rfl
  | cons e events ih =>
    have hfirst : (b.take e).2.toList.filter other = [e].filter other := by
      cases hk : other e with
      | true => simp [take_other b hk]
      | false => simp [take_own b hk, hk]
    have hsplit : (b.filter (e :: events)).2 = (b.take e).2.toList ++ ((b.take e).1.filter events).2 := rfl
    rw [hsplit, List.filter_append, ih, hfirst, ← List.filter_append, List.singleton_append]

/-- The events of a call. -/
def Call.events : Call → List Bridge.Event
  | .filter events => events
  | .answer _ => []

theorem passed_other (b : RefreshBroker) (calls : List Call) :
    (b.passed calls).filter other = (calls.flatMap Call.events).filter other := by
  induction calls generalizing b with
  | nil => rfl
  | cons c calls ih =>
    rw [passed, List.filter_append, ih, List.flatMap_cons, List.filter_append]
    cases c with
    | filter events => rw [call, filter_other]; rfl
    | answer id => rfl

/-! ## Nobody is lost -/

/-- An active effect has a waiter. -/
theorem waited (ms : List Moment) {h : String} {waiters : Finset String}
    (hb : (after ms).active = some (h, waiters)) : waiters.Nonempty := by
  induction ms using List.reverseRecOn generalizing h waiters with
  | nil => simp [after] at hb
  | append_singleton ms m ih =>
    rw [after_snoc] at hb
    obtain ⟨id, rfl⟩ | ⟨id, rfl⟩ | ⟨id, rfl⟩ | ⟨e, he, rfl⟩ := m.kinds
    · simp only [next, take_refresh, Option.some.injEq, Prod.mk.injEq] at hb
      exact hb.2 ▸ Finset.insert_nonempty _ _
    · obtain hstray | ⟨host, hb'⟩ | ⟨host, before, other, hb', hid, ho, hne⟩ := cancel_cases (after ms) id
      · exact ih (by simpa only [next, take_stray hstray] using hb)
      · simp [next, take_last hb'] at hb
      · simp only [next, take_leave hb' hid ho hne, Option.some.injEq, Prod.mk.injEq] at hb
        exact hb.2 ▸ ⟨other, Finset.mem_erase.2 ⟨hne, ho⟩⟩
    · have hkept : (after ms).active = some (h, waiters) := by
        simp only [next, answer] at hb
        split at hb
        · split at hb
          · cases hb
          · exact hb
        · exact hb
      exact ih hkept
    · exact ih (by simpa only [next, take_other _ he] using hb)

theorem active_of_outstanding {ms : List Moment} {h : String} (ho : h ∈ outstanding ms) :
    ∃ waiters, (after ms).active = some (h, waiters) := by
  obtain hnil | ⟨host, waiters, hb, hout⟩ := at_outstanding ms
  · simp [hnil] at ho
  · obtain rfl : h = host := by simpa [hout] using ho
    exact ⟨waiters, hb⟩

/-- The active effect's only waiter is `w`. -/
theorem active_only {ms : List Moment} {h w : String} {waiters : Finset String}
    (hb : (after ms).active = some (h, waiters)) : waiters = {w} ↔ ∀ w', Waits ms h w' ↔ w' = w := by
  have hw : ∀ w', Waits ms h w' ↔ w' ∈ waiters := fun w' => by
    rw [← waiting_after]
    simp [Waiting, hb]
  constructor
  · rintro rfl w'
    rw [hw, Finset.mem_singleton]
  · intro h
    ext w'
    rw [← hw, h, Finset.mem_singleton]

/-- The host's effect is cancelled with its last waiter, or by its own id once that no longer waits. -/
theorem cancels_iff {ms : List Moment} {h : String} (ho : h ∈ outstanding ms) (m : Moment) :
    (after ms).sends m = some (.cancelEffect h) ↔
      (∃ w, m = .cancel w ∧ ∀ w', Waits ms h w' ↔ w' = w) ∨
      (m = .cancel h ∧ .cancel h ∈ ms ∧ ¬ Waits ms h h) := by
  obtain ⟨waiters, hb⟩ := active_of_outstanding ho
  rw [sends_cancel_iff]
  refine or_congr (exists_congr fun w => and_congr_right fun _ => ?_) (and_congr_right fun _ => ?_)
  · rw [← active_only hb, hb]
    simp
  · constructor
    · intro hnone
      have hself : ¬ (after ms).Waiting h h := hnone h
      exact ⟨(host_waits ms hb).resolve_left hself, fun hw => hself ((waiting_after ms h h).2 hw)⟩
    · rintro ⟨-, hself⟩ host ⟨waiters', hb', hin⟩
      obtain ⟨rfl, rfl⟩ : h = host ∧ waiters = waiters' := by simpa [hb] using hb'
      exact hself ((waiting_after ms h h).1 ⟨waiters, hb, hin⟩)

/-- The host's answer to `id` is handed to whom joined `id` and was not cancelled or answered since. -/
theorem returns_waits (ms : List Moment) (id w : String) : (after ms).Returns id w ↔ Waits ms id w :=
  (returns_iff ..).trans (waiting_after ..)

/-- Of a refresh asked for once, the answers that return it are told by what came after it. -/
theorem waits_of_distinct {xs us : List Moment} {w : String} (hd : Distinct (xs ++ .refresh w :: us))
    (h : String) :
    Waits (xs ++ .refresh w :: us) h w ↔ (after xs).joins w = h ∧ .cancel w ∉ us ∧ .answer h ∉ us := by
  constructor
  · rintro ⟨xs', us', heq, hj, hc, ha⟩
    obtain ⟨rfl, rfl⟩ := hd.split heq
    exact ⟨hj, hc, ha⟩
  · rintro ⟨hj, hc, ha⟩
    exact ⟨xs, us, rfl, hj, hc, ha⟩

theorem Distinct.left {xs ys : List Moment} (h : Distinct (xs ++ ys)) : Distinct xs := by
  rw [Distinct, List.filterMap_append] at h
  exact h.of_append_left

theorem Once.left {xs ys : List Moment} (h : Once (xs ++ ys)) : Once xs := by
  rw [Once, List.filterMap_append] at h
  exact h.of_append_left

/-- Of two answers that return a refresh neither comes first. -/
theorem returned_once {us vs : List Moment} {id id' w : String} (hd : Distinct (us ++ .answer id :: vs))
    (h : Waits us id w) : ¬ Waits (us ++ .answer id :: vs) id' w := by
  obtain ⟨xs, ys, rfl, hj, hc, ha⟩ := h
  rw [List.append_assoc, List.cons_append] at hd ⊢
  rw [waits_of_distinct hd, hj]
  rintro ⟨rfl, -, hno⟩
  simp at hno

/-- What the broker promises over the calls, at every moment of them. -/
structure Multiplexed (calls : List Call) (ms : List Moment) : Prop where
  /-- Batches do not matter: the calls leave the broker where their moments do. -/
  batches : run {} calls = after ms
  /-- The host is at one refresh at most, which someone waits for. -/
  one : ∀ xs ys, ms = xs ++ ys → (outstanding xs).length ≤ 1 ∧ ∀ h ∈ outstanding xs, ∃ w, Waits xs h w
  /-- A refresh that is not cancelled is returned by the first answer to the effect it joined, and
  by no other. -/
  returned : ∀ xs w us id zs, ms = xs ++ .refresh w :: (us ++ .answer id :: zs) → .cancel w ∉ us →
    ((after (xs ++ .refresh w :: us)).Returns id w ↔ id = (after xs).joins w ∧ .answer id ∉ us)
  /-- No refresh is returned by two answers. -/
  twice : ∀ w us id vs id' zs, ms = us ++ .answer id :: (vs ++ .answer id' :: zs) →
    (after us).Returns id w → ¬ (after (us ++ .answer id :: vs)).Returns id' w
  /-- A refresh cancelled after it was asked for is returned by no later answer. -/
  cancelled : ∀ xs w us vs id zs, ms = xs ++ .refresh w :: (us ++ .cancel w :: (vs ++ .answer id :: zs)) →
    ¬ (after (xs ++ .refresh w :: (us ++ .cancel w :: vs))).Returns id w
  /-- The host's effect is cancelled when its last waiter is, or when its own id, which no longer
  waits, is again. -/
  cancels : ∀ xs m ys h, ms = xs ++ m :: ys → h ∈ outstanding xs →
    ((after xs).sends m = some (.cancelEffect h) ↔
      (∃ w, m = .cancel w ∧ ∀ w', Waits xs h w' ↔ w' = w) ∨ (m = .cancel h ∧ .cancel h ∈ xs ∧ ¬ Waits xs h h))
  /-- Where no id is cancelled twice, the host is at the effect that is waited for. -/
  once : Once ms → ∀ xs ys h w, ms = xs ++ ys → Waits xs h w → outstanding xs = [h]
  /-- Every event but a refresh and the cancellation of one that waits passes as it is and changes nothing. -/
  passes : ∀ xs e ys, ms = xs ++ .event e :: ys → (∀ id, e ≠ .effect id .refreshAuth) →
    (∀ id host, e = .cancelEffect id → ¬ Waits xs host id) → (after xs).take e = (after xs, some e)
  /-- The host is sent what the moments send, in their order: events and cancellations that pass,
  and the broker's own. -/
  order : passed {} calls = sent {} ms
  /-- The events that are neither a refresh nor a cancellation reach the host in their order. -/
  others : (passed {} calls).filter other = (calls.flatMap Call.events).filter other

/-- **Multiplexed**: over all batches and answers, with refreshes of distinct ids. -/
theorem multiplexed (calls : List Call) (hd : Distinct (calls.flatMap Call.moments)) :
    Multiplexed calls (calls.flatMap Call.moments) where
  batches := (foldl_moments {} calls).symm
  one xs ys _ := by
    constructor
    · obtain hnil | ⟨h, waiters, -, hout⟩ := at_outstanding xs
      · simp [hnil]
      · simp [hout]
    · intro h ho
      obtain ⟨waiters, hb⟩ := active_of_outstanding ho
      obtain ⟨w, hw⟩ := waited xs hb
      exact ⟨w, (waiting_after xs h w).1 ⟨waiters, hb, hw⟩⟩
  returned xs w us id zs hms hc := by
    rw [hms] at hd
    have hleft : Distinct (xs ++ .refresh w :: us) := @Distinct.left _ (.answer id :: zs) (by simpa using hd)
    rw [returns_waits, waits_of_distinct hleft]
    constructor
    · rintro ⟨rfl, -, ha⟩
      exact ⟨rfl, ha⟩
    · rintro ⟨rfl, ha⟩
      exact ⟨rfl, hc, ha⟩
  twice w us id vs id' zs hms hr := by
    rw [hms] at hd
    have hleft : Distinct (us ++ .answer id :: vs) := @Distinct.left _ (.answer id' :: zs) (by simpa using hd)
    rw [returns_waits] at hr ⊢
    exact returned_once hleft hr
  cancelled xs w us vs id zs hms := by
    rw [hms] at hd
    have hleft : Distinct (xs ++ .refresh w :: (us ++ .cancel w :: vs)) :=
      @Distinct.left _ (.answer id :: zs) (by simpa using hd)
    rw [returns_waits, waits_of_distinct hleft]
    simp
  cancels xs m ys h _ ho := cancels_iff ho m
  once ho xs ys h w hms hw := by
    obtain ⟨waiters, hb, -⟩ := (waiting_after xs h w).2 hw
    exact outstanding_once (hms ▸ ho).left hb
  passes xs e ys _ hr hc := take_passes hr fun id host he hw => hc id host he ((waiting_after ..).1 hw)
  order := passed_sent {} calls
  others := passed_other {} calls

/-- Two waiters share the effect of the first, which goes without taking it along; a third joins after that. -/
def shared : List Call :=
  [.filter [.effect "1" .refreshAuth, .effect "2" (.timer 50), .effect "3" .refreshAuth, .cancelEffect "1"],
    .filter [.effect "4" .refreshAuth, .cancelEffect "2"], .answer "1"]

theorem multiplexed_shared : Multiplexed shared (shared.flatMap Call.moments) ∧
    outstanding ((shared.take 2).flatMap Call.moments) = ["1"] ∧
    (run {} (shared.take 2)).answer "1" = ({}, some {"3", "4"}) :=
  ⟨multiplexed shared (by unfold Distinct; decide +kernel), by decide +kernel, by decide +kernel⟩

/-- A second cancellation of the first waiter takes the host's effect from the one that still waits, and a
cancellation that comes before its refresh does not keep it from the answer. -/
theorem cancelled_again :
    (∃ xs, xs = [Moment.refresh "1", .refresh "2", .cancel "1"] ∧ Distinct (xs ++ [.cancel "1"]) ∧
      outstanding xs = ["1"] ∧ Waits xs "1" "2" ∧ (after xs).sends (.cancel "1") = some (.cancelEffect "1") ∧
      outstanding (xs ++ [.cancel "1"]) = [] ∧ (after (xs ++ [.cancel "1"])).Waiting "1" "2") ∧
    (∃ xs, xs = [Moment.cancel "1", .refresh "1"] ∧ Distinct xs ∧ (after xs).Returns "1" "1") := by
  refine ⟨⟨_, rfl, by unfold Distinct; decide +kernel, by decide +kernel, ?_, by decide +kernel,
    by decide +kernel, ?_⟩,
    ⟨_, rfl, by unfold Distinct; decide +kernel, ?_⟩⟩
  · exact ⟨[.refresh "1"], [.cancel "1"], rfl, by decide +kernel, by decide +kernel, by decide +kernel⟩
  · exact ⟨{"2"}, by decide +kernel, by decide +kernel⟩
  · exact ⟨{"1"}, by decide +kernel, by decide +kernel⟩

end RefreshBroker

end Axton
