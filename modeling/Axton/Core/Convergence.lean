import Axton.Core.Authority
import Mathlib.Data.Finset.Dedup

/-!
# Evidence under any order of events

A record's evidence is valid after every step, and its newest content and membership positions only rise. Events of one
materialization converge: whatever their order and however often each arrives, the newest one decides the membership. When
it is a record, the whole evidence is determined; when it is a removal, nothing at or below it is admitted any more, while
the content under it depends on what came first.

* `Valid.act`, `latest_le_act`, `membership_le_act` — one step;
* `deliver_decided` — the newest event arrived;
* `evidence_converges` — every sequence.
-/

namespace Axton

namespace RecordEvidence

/-! ## Steps -/

/-- A step on a record's evidence: content installed, membership removed, or protection released by a direct write. -/
inductive Act where
  | install (materialization : String) (cursor : Nat) (deleted : Bool)
  | remove (cursor : Nat)
  | release
deriving DecidableEq

/-- What a fallible step leaves: it writes nothing before its checks have passed. -/
def left (e : RecordEvidence) : Except String (Bool × RecordEvidence) → RecordEvidence
  | .ok (_, e') => e'
  | .error _ => e

def act (e : RecordEvidence) : Act → RecordEvidence
  | .install m cursor deleted => e.left (e.install m cursor deleted)
  | .remove cursor => e.left (e.remove cursor)
  | .release => e.release

/-- What the Stream says of a record: its content, deleted or not, or that it left. -/
inductive Event where
  | record (cursor : Nat) (deleted : Bool)
  | remove (cursor : Nat)
deriving DecidableEq

def Event.cursor : Event → Nat
  | .record cursor _ => cursor
  | .remove cursor => cursor

def Event.act (m : String) : Event → Act
  | .record cursor deleted => .install m cursor deleted
  | .remove cursor => .remove cursor

/-- The evidence after a sequence of events, from none. -/
def deliver (m : String) (sequence : List Event) : RecordEvidence :=
  (sequence.map (Event.act m)).foldl act {}

/-! ## Validity -/

/-- What `validate` accepts. -/
structure Valid (e : RecordEvidence) : Prop where
  history : ∀ r ∈ e.history, nonblank r.1 = true ∧ positive r.2 = true
  membership : ∀ p, e.membership = some p → positive p.cursor = true
  protection : ∀ c, e.current = some c → nonblank c.materialization = true ∧ positive c.cursor = true
  newest : ∀ c, e.current = some c → e.history.get c.materialization = some c.cursor ∧ e.latest ≤ c.cursor
  live : ∀ c, e.current = some c → c.deleted = false → ∀ p, e.membership = some p → p.live = true

theorem validateProtection_ok {e : RecordEvidence} {c : AuthorityProtection} {u : Unit} :
    e.validateProtection c = .ok u ↔ (nonblank c.materialization = true ∧ positive c.cursor = true) ∧
      (e.history.get c.materialization = some c.cursor ∧ e.latest ≤ c.cursor) ∧
      (c.deleted = false → ∀ p, e.membership = some p → p.live = true) := by
  simp only [validateProtection, bind_ok, contentPosition_ok, check_ok, Bool.and_eq_true, Bool.or_eq_true,
    decide_eq_true_eq, Option.all_eq_true, exists_const]
  cases c.deleted <;> simp

theorem validate_iff {e : RecordEvidence} : e.validate = .ok () ↔ Valid e := by
  simp only [validate, bind_ok, forM_ok, contentPosition_ok, position_ok, List.mem_insertionSort, Option.mem_toList,
    validateProtection_ok, exists_const]
  constructor
  · rintro ⟨history, membership, current⟩
    exact ⟨history, membership, fun c hc => (current c hc).1, fun c hc => (current c hc).2.1,
      fun c hc => (current c hc).2.2⟩
  · intro h
    exact ⟨h.history, h.membership, fun c hc => ⟨h.protection c hc, h.newest c hc, h.live c hc⟩⟩

theorem Valid.validate {e : RecordEvidence} (h : Valid e) : e.validate = .ok () := validate_iff.2 h

theorem valid_default : Valid {} := ⟨by simp, by simp, by simp, by simp, by simp⟩

variable {m : String} {e e' : RecordEvidence} {cursor : Nat} {deleted : Bool}

theorem Valid.release (h : Valid e) : Valid e.release :=
  ⟨h.history, h.membership, by simp [RecordEvidence.release], by simp [RecordEvidence.release], by simp [RecordEvidence.release]⟩

/-- What an admitted position is: checked, and newer than every removal. -/
theorem admission_cases {a : AuthorityAdmission} (h : e.admission m cursor = .ok a) (ha : a ≠ .duplicate) :
    (nonblank m = true ∧ positive cursor = true) ∧ (∀ p, e.membership = some p → p.live = false → p.cursor < cursor) := by
  simp only [admission, bind_ok, contentPosition_ok] at h
  obtain ⟨_, _, _, hchecked, h⟩ := h
  split at h
  · cases h
    exact absurd rfl ha
  · rename_i hcov
    refine ⟨hchecked, fun p hp hdead => ?_⟩
    by_contra hle
    apply hcov
    simp only [covered, hp, Option.any_some, hdead, Bool.not_false, Bool.true_and, Bool.or_eq_true, decide_eq_true_eq]
    right
    omega

/-- The admission of a checked position to valid evidence. -/
theorem Valid.admission_eq (h : Valid e) (hm : nonblank m = true) (hpos : positive cursor = true) :
    e.admission m cursor = .ok (if e.covered m cursor then .duplicate
      else if cursor < e.latest then .duplicate
      else if cursor = e.latest then .rematerialize
      else .newer) := by
  have hposition : contentPosition m cursor = .ok () := contentPosition_ok.2 ⟨hm, hpos⟩
  simp only [RecordEvidence.admission, h.validate, hposition]
  show (if e.covered m cursor = true then _ else _ : Except String AuthorityAdmission) = _
  split
  · rfl
  · split
    · rfl
    · split <;> rfl

theorem Valid.installed {a : AuthorityAdmission} (h : Valid e) (hadm : e.admission m cursor = .ok a)
    (ha : a ≠ .duplicate) : Valid (e.installed a m cursor deleted) := by
  obtain ⟨⟨hblank, hpos⟩, hdead⟩ := admission_cases hadm ha
  have hle := admission_latest hadm ha
  have hlatest : maxHistory (e.history.set m cursor) = cursor := by
    rw [maxHistory_set fun old ho => le_trans (get_le_maxHistory ho) hle]
    exact Nat.max_eq_left hle
  -- the protection is released already, or it is the new position
  have hcurrent : ∀ c, (e.installed a m cursor deleted).current = some c → c = ⟨m, cursor, deleted⟩ := by
    intro c hc
    unfold RecordEvidence.installed at hc
    simp only at hc
    split at hc
    · rename_i hkeep
      rw [hkeep.1.2] at hc
      cases hc
    · exact (Option.some.inj hc).symm
  constructor
  · intro r hr
    rcases Table.mem_set hr with rfl | hr
    · exact ⟨hblank, hpos⟩
    · exact h.history r hr
  · intro p hp
    simp only [RecordEvidence.installed] at hp
    split at hp
    · cases hp
      exact hpos
    · exact h.membership p hp
  · intro c hc
    rw [hcurrent c hc]
    exact ⟨hblank, hpos⟩
  · intro c hc
    rw [hcurrent c hc]
    exact ⟨by simp [RecordEvidence.installed], le_of_eq hlatest⟩
  · intro c _ _ p hp
    simp only [RecordEvidence.installed] at hp
    split at hp
    · cases hp
      rfl
    · rename_i hnewer
      cases hlive : p.live with
      | true => rfl
      | false => exact absurd (by simpa [hp] using hdead p hp hlive) hnewer

theorem Valid.install {b : Bool} (h : Valid e) (hok : e.install m cursor deleted = .ok (b, e')) : Valid e' := by
  cases b with
  | false =>
    simp only [RecordEvidence.install, bind_ok] at hok
    obtain ⟨a, -, hok⟩ := hok
    cases a <;> simp at hok
    exact hok ▸ h
  | true =>
    obtain ⟨a, hadm, ha, rfl⟩ := install_cases hok
    exact h.installed hadm ha

theorem remove_eq (h : Valid e) (hpos : positive cursor = true) : e.remove cursor =
    if cursor ≤ e.reached then .ok (false, e)
    else .ok (true, { e with
      membership := some ⟨cursor, false⟩
      current := if e.current.any (!·.deleted) then none else e.current }) := by
  have hposition : position cursor = .ok () := position_ok.2 hpos
  simp only [remove, h.validate, hposition]
  show (if cursor ≤ e.reached then _ else _ : Except String (Bool × RecordEvidence)) = _
  split <;> rfl

theorem Valid.remove {b : Bool} (h : Valid e) (hok : e.remove cursor = .ok (b, e')) : Valid e' := by
  have hpos : positive cursor = true := by
    simp only [RecordEvidence.remove, bind_ok, position_ok] at hok
    obtain ⟨_, -, _, hpos, -⟩ := hok
    exact hpos
  rw [remove_eq h hpos] at hok
  split at hok
  · cases hok
    exact h
  · cases hok
    -- what is still protected is a deletion
    have hkept : ∀ c, (if e.current.any (!·.deleted) then none else e.current) = some c → e.current = some c ∧ c.deleted = true := by
      intro c hc
      split at hc
      · cases hc
      · rename_i hlive
        exact ⟨hc, by simpa [hc] using hlive⟩
    constructor
    · exact h.history
    · intro p hp
      cases hp
      exact hpos
    · intro c hc
      exact h.protection c (hkept c hc).1
    · intro c hc
      exact h.newest c (hkept c hc).1
    · intro c hc hdel
      rw [(hkept c hc).2] at hdel
      cases hdel

/-! ## What a step keeps -/

theorem Valid.act (h : Valid e) (a : Act) : Valid (e.act a) := by
  cases a with
  | install m cursor deleted =>
    show Valid (e.left (e.install m cursor deleted))
    cases hok : e.install m cursor deleted with
    | error _ => exact h
    | ok r => exact h.install hok
  | remove cursor =>
    show Valid (e.left (e.remove cursor))
    cases hok : e.remove cursor with
    | error _ => exact h
    | ok r => exact h.remove hok
  | release => exact h.release

theorem Valid.acts (h : Valid e) (acts : List Act) : Valid (acts.foldl RecordEvidence.act e) := by
  induction acts generalizing e with
  | nil => exact h
  | cons a acts ih => exact ih (h.act a)

/-- What an install leaves: the evidence as it was, or with an admitted position installed. -/
theorem left_install (e : RecordEvidence) (m : String) (cursor : Nat) (deleted : Bool) :
    e.left (e.install m cursor deleted) = e ∨
    ∃ a, e.admission m cursor = .ok a ∧ a ≠ .duplicate ∧ e.left (e.install m cursor deleted) = e.installed a m cursor deleted := by
  cases hok : e.install m cursor deleted with
  | error _ => exact .inl rfl
  | ok r =>
    obtain ⟨b, e'⟩ := r
    cases b with
    | false =>
      left
      simp only [install, bind_ok] at hok
      obtain ⟨a, -, hok⟩ := hok
      cases a <;> simp at hok
      exact hok.symm
    | true => exact .inr (install_cases hok)

theorem left_remove (e : RecordEvidence) (cursor : Nat) :
    e.left (e.remove cursor) = e ∨
    (e.reached < cursor ∧ (e.left (e.remove cursor)).membership = some ⟨cursor, false⟩ ∧
      (e.left (e.remove cursor)).history = e.history) := by
  cases hok : e.remove cursor with
  | error _ => exact .inl rfl
  | ok r =>
    obtain ⟨b, e'⟩ := r
    cases b with
    | false =>
      left
      simp only [remove, bind_ok] at hok
      obtain ⟨_, -, _, -, hok⟩ := hok
      split at hok
      · cases hok
        rfl
      · cases hok
    | true => exact .inr (remove_cases hok)

theorem latest_installed {a : AuthorityAdmission} (h : e.latest ≤ cursor) :
    (e.installed a m cursor deleted).latest = cursor := by
  have hset : maxHistory (e.history.set m cursor) = max cursor (maxHistory e.history) :=
    maxHistory_set fun old ho => le_trans (get_le_maxHistory ho) h
  show maxHistory (e.history.set m cursor) = cursor
  rw [hset]
  exact Nat.max_eq_left h

/-- No step lowers the newest content position. -/
theorem latest_le_act (e : RecordEvidence) (a : Act) : e.latest ≤ (e.act a).latest := by
  cases a with
  | install m cursor deleted =>
    show e.latest ≤ (e.left (e.install m cursor deleted)).latest
    rcases left_install e m cursor deleted with h | ⟨a, hadm, hne, h⟩
    · rw [h]
    · have hle := admission_latest hadm hne
      rw [h, latest_installed hle]
      exact hle
  | remove cursor =>
    show e.latest ≤ (e.left (e.remove cursor)).latest
    rcases left_remove e cursor with h | ⟨-, -, h⟩
    · rw [h]
    · unfold latest
      rw [h]
  | release => exact le_of_eq (release_latest e).symm

/-- No step lowers the membership position or forgets it. -/
theorem membership_le_act (e : RecordEvidence) (a : Act) {p : MembershipPosition} (hp : e.membership = some p) :
    ∃ p', (e.act a).membership = some p' ∧ p.cursor ≤ p'.cursor := by
  cases a with
  | install m cursor deleted =>
    show ∃ p', (e.left (e.install m cursor deleted)).membership = some p' ∧ p.cursor ≤ p'.cursor
    rcases left_install e m cursor deleted with h | ⟨a, -, -, h⟩
    · exact ⟨p, by rw [h, hp], le_refl _⟩
    · rw [h]
      unfold installed
      simp only [hp, Option.all_some, decide_eq_true_eq]
      split
      · rename_i hlt
        exact ⟨_, rfl, le_of_lt hlt⟩
      · exact ⟨p, rfl, le_refl _⟩
  | remove cursor =>
    show ∃ p', (e.left (e.remove cursor)).membership = some p' ∧ p.cursor ≤ p'.cursor
    rcases left_remove e cursor with h | ⟨hlt, hm, -⟩
    · exact ⟨p, by rw [h, hp], le_refl _⟩
    · have hreach : p.cursor ≤ e.reached := by simp [reached, hp]
      exact ⟨_, hm, by simp only; omega⟩
  | release => exact ⟨p, by simpa [act] using hp, le_refl _⟩

/-! ## Events of one materialization -/

theorem deliver_append (m : String) (before after : List Event) :
    deliver m (before ++ after) = (after.map (Event.act m)).foldl act (deliver m before) := by
  simp [deliver]

theorem valid_deliver (m : String) (sequence : List Event) : Valid (deliver m sequence) := valid_default.acts _

/-- Content of one materialization only. -/
def Single (m : String) (e : RecordEvidence) : Prop := e.history = [] ∨ ∃ c, e.history = [(m, c)]

theorem Single.set (h : Single m e) (cursor : Nat) : e.history.set m cursor = [(m, cursor)] := by
  rcases h with h | ⟨c, h⟩ <;> simp [h, Table.set]

/-- Events below a position leave single evidence below it. -/
theorem act_below {t : Nat} (x : Event) (hx : x.cursor < t) (h : Single m e ∧ e.reached < t) :
    Single m (e.act (x.act m)) ∧ (e.act (x.act m)).reached < t := by
  obtain ⟨hs, hr⟩ := h
  cases x with
  | record cursor deleted =>
    show Single m (e.left (e.install m cursor deleted)) ∧ (e.left (e.install m cursor deleted)).reached < t
    rcases left_install e m cursor deleted with h | ⟨a, hadm, hne, h⟩
    · rw [h]
      exact ⟨hs, hr⟩
    · rw [h]
      refine ⟨.inr ⟨cursor, hs.set cursor⟩, ?_⟩
      have hlatest : (e.installed a m cursor deleted).latest = cursor := latest_installed (admission_latest hadm hne)
      unfold reached at hr ⊢
      rw [hlatest]
      unfold installed
      simp only [Event.cursor] at hx
      split
      · simp only [Option.map_some, Option.getD_some]
        omega
      · simp only
        omega
  | remove cursor =>
    show Single m (e.left (e.remove cursor)) ∧ (e.left (e.remove cursor)).reached < t
    rcases left_remove e cursor with h | ⟨hlt, hm, hh⟩
    · rw [h]
      exact ⟨hs, hr⟩
    · simp only [Single, reached, latest, hm, hh, Option.map_some, Option.getD_some]
      refine ⟨hs, ?_⟩
      simp only [Event.cursor] at hx
      unfold reached latest at hlt
      omega

theorem deliver_below {t : Nat} {sequence : List Event} (h : ∀ x ∈ sequence, x.cursor < t) (ht : 0 < t) :
    Single m (deliver m sequence) ∧ (deliver m sequence).reached < t := by
  suffices run : ∀ (xs : List Event) (e : RecordEvidence), (∀ x ∈ xs, x.cursor < t) → Single m e ∧ e.reached < t →
      Single m ((xs.map (Event.act m)).foldl act e) ∧ ((xs.map (Event.act m)).foldl act e).reached < t from
    run sequence {} h ⟨.inl rfl, ht⟩
  intro xs
  induction xs with
  | nil => intro e _ he; exact he
  | cons x xs ih =>
    intro e hx he
    exact ih _ (fun y hy => hx y (List.mem_cons_of_mem _ hy)) (act_below x (hx x List.mem_cons_self) he)

/-- A record newer than everything determines the evidence. -/
theorem install_newest (hv : Valid e) (hs : Single m e) (hm : nonblank m = true) (hpos : positive cursor = true)
    (hlt : e.reached < cursor) :
    e.act (.install m cursor deleted) = ⟨some ⟨cursor, true⟩, [(m, cursor)], some ⟨m, cursor, deleted⟩⟩ := by
  have hlatest : e.latest < cursor := lt_of_le_of_lt (Nat.le_max_right _ _) hlt
  have hmember : e.membership.all (·.cursor < cursor) = true := by
    cases hp : e.membership with
    | none => rfl
    | some p =>
      have hreach : p.cursor ≤ e.reached := by simp [reached, hp]
      simp only [Option.all_some, decide_eq_true_eq]
      omega
  have hcov : e.covered m cursor = false := by
    simp only [covered, Bool.or_eq_false_iff, Option.any_eq_false, Bool.and_eq_false_imp, decide_eq_false_iff_not]
    refine ⟨fun c hc => ?_, fun p hp _ => ?_⟩
    · have := get_le_maxHistory hc
      unfold latest at hlatest
      omega
    · have : p.cursor < cursor := by simpa [hp] using hmember
      omega
  have hadm : e.admission m cursor = .ok .newer := by
    rw [hv.admission_eq hm hpos, hcov, if_neg Bool.false_ne_true, if_neg (by omega), if_neg (by omega)]
  have hok : e.install m cursor deleted = .ok (true, e.installed .newer m cursor deleted) := by
    simp only [install, hadm]
    rfl
  show e.left (e.install m cursor deleted) = _
  rw [hok]
  simp [left, installed, hs.set cursor, hmember]

/-- A position some removal covers is not admitted. -/
theorem admission_removed {r : Nat} (hv : Valid e) (hr : e.membership = some ⟨r, false⟩) (hm : nonblank m = true)
    (hpos : positive cursor = true) (hle : cursor ≤ r) : e.admission m cursor = .ok .duplicate := by
  have hcov : e.covered m cursor = true := by simp [covered, hr, hle]
  rw [hv.admission_eq hm hpos, if_pos hcov]

/-- The evidence an event leaves when nothing it holds is newer: every event at or below it changes nothing more. -/
def Decided (m : String) (top : Event) (e : RecordEvidence) : Prop :=
  match top with
  | .record cursor deleted => e = ⟨some ⟨cursor, true⟩, [(m, cursor)], some ⟨m, cursor, deleted⟩⟩
  | .remove cursor => e.membership = some ⟨cursor, false⟩

theorem act_top {top : Event} (hv : Valid e) (hs : Single m e) (hm : nonblank m = true) (hpos : positive top.cursor = true)
    (hlt : e.reached < top.cursor) : Decided m top (e.act (top.act m)) := by
  cases top with
  | record cursor deleted => exact install_newest hv hs hm hpos hlt
  | remove cursor =>
    simp only [Event.cursor] at hpos hlt
    show (e.left (e.remove cursor)).membership = some ⟨cursor, false⟩
    rw [remove_eq hv hpos, if_neg (by omega)]
    rfl

theorem act_decided {top x : Event} (hv : Valid e) (h : Decided m top e) (hm : nonblank m = true)
    (hpos : positive x.cursor = true) (hle : x.cursor ≤ top.cursor) : e.act (x.act m) = e := by
  have hreach : top.cursor ≤ e.reached := by
    cases top with
    | record cursor deleted =>
      simp only [Decided] at h
      subst h
      simp [Event.cursor, reached]
    | remove cursor =>
      simp only [Decided] at h
      simp [Event.cursor, reached, h]
  cases x with
  | record cursor deleted =>
    have hadm : e.admission m cursor = .ok .duplicate := by
      cases top with
      | record c d =>
        simp only [Decided] at h
        have hcov : e.covered m cursor = true := by
          subst h
          simpa [covered, Table.get, Event.cursor] using hle
        simp only [Event.cursor] at hpos
        rw [hv.admission_eq hm hpos, if_pos hcov]
      | remove r => exact admission_removed hv h hm hpos hle
    show e.left (e.install m cursor deleted) = e
    simp only [install, hadm]
    rfl
  | remove cursor =>
    simp only [Event.cursor] at hpos hle
    show e.left (e.remove cursor) = e
    rw [remove_eq hv hpos, if_pos (le_trans hle hreach)]
    rfl

/-- Once the newest event has arrived the evidence is decided, whatever came before and comes after. -/
theorem deliver_decided {sequence : List Event} {top : Event} (hm : nonblank m = true)
    (hpos : ∀ x ∈ sequence, positive x.cursor = true) (hdistinct : ∀ x ∈ sequence, x.cursor = top.cursor → x = top)
    (htop : top ∈ sequence) (hle : ∀ x ∈ sequence, x.cursor ≤ top.cursor) : Decided m top (deliver m sequence) := by
  -- split where the newest event arrives first: all before it is strictly older
  obtain ⟨before, after, rfl, hnew⟩ := List.eq_append_cons_of_mem htop
  have hbefore : ∀ x ∈ before, x.cursor < top.cursor := by
    intro x hx
    have hxs : x ∈ before ++ top :: after := List.mem_append_left _ hx
    refine lt_of_le_of_ne (hle x hxs) fun heq => ?_
    rw [hdistinct x hxs heq] at hx
    exact hnew hx
  have hzero : 0 < top.cursor := by
    have := hpos top htop
    simp [positive] at this
    omega
  obtain ⟨hs, hlt⟩ := deliver_below (m := m) hbefore hzero
  have hdecided : Decided m top ((deliver m before).act (top.act m)) :=
    act_top (valid_deliver m before) hs hm (hpos top htop) hlt
  have hvalid : Valid ((deliver m before).act (top.act m)) := (valid_deliver m before).act _
  rw [deliver_append, List.map_cons, List.foldl_cons]
  -- what follows is at or below it
  suffices run : ∀ (xs : List Event), (∀ x ∈ xs, x ∈ before ++ top :: after) →
      (xs.map (Event.act m)).foldl act ((deliver m before).act (top.act m)) = (deliver m before).act (top.act m) by
    rw [run after fun x hx => by simp [hx]]
    exact hdecided
  intro xs
  induction xs with
  | nil => intro _; rfl
  | cons x xs ih =>
    intro hxs
    have hx := hxs x List.mem_cons_self
    rw [List.map_cons, List.foldl_cons, act_decided hvalid hdecided hm (hpos x hx) (hle x hx)]
    exact ih fun y hy => hxs y (List.mem_cons_of_mem _ hy)

/-- Over any steps from no evidence: the evidence stays valid and no step lowers its positions. Over any sequence that
delivers the events of a finite set, each at least once: the newest event decides. -/
theorem evidence_converges :
    (∀ acts : List Act, (acts.foldl act {}).validate = .ok () ∧
      ∀ a, (acts.foldl act {}).latest ≤ ((acts.foldl act {}).act a).latest ∧
        ∀ p, (acts.foldl act {}).membership = some p →
          ∃ p', ((acts.foldl act {}).act a).membership = some p' ∧ p.cursor ≤ p'.cursor) ∧
    ∀ (m : String) (events : Finset Event) (top : Event), nonblank m = true →
      (∀ x ∈ events, positive x.cursor = true) → (∀ x ∈ events, ∀ y ∈ events, x.cursor = y.cursor → x = y) →
      top ∈ events → (∀ x ∈ events, x.cursor ≤ top.cursor) →
      ∀ sequence : List Event, (∀ x, x ∈ sequence ↔ x ∈ events) →
        (∀ cursor deleted, top = .record cursor deleted →
          deliver m sequence = ⟨some ⟨cursor, true⟩, [(m, cursor)], some ⟨m, cursor, deleted⟩⟩) ∧
        ∀ r, top = .remove r → (deliver m sequence).membership = some ⟨r, false⟩ ∧
          ∀ before after, sequence = before ++ after → top ∈ before →
            ∀ cursor, positive cursor = true → cursor ≤ r → (deliver m before).admission m cursor = .ok .duplicate := by
  constructor
  · intro acts
    refine ⟨(valid_default.acts acts).validate, fun a => ⟨latest_le_act _ a, fun p hp => membership_le_act _ a hp⟩⟩
  · intro m events top hm hpos hdistinct htop hle sequence hmem
    -- every part of the sequence that holds the newest event is decided by it
    have hdecided : ∀ part : List Event, (∀ x ∈ part, x ∈ events) → top ∈ part → Decided m top (deliver m part) :=
      fun part hpart hin => deliver_decided hm (fun x hx => hpos x (hpart x hx))
        (fun x hx => hdistinct x (hpart x hx) top htop) hin (fun x hx => hle x (hpart x hx))
    have hall : Decided m top (deliver m sequence) :=
      hdecided sequence (fun x hx => (hmem x).1 hx) ((hmem top).2 htop)
    constructor
    · rintro cursor deleted rfl
      exact hall
    · rintro r rfl
      refine ⟨hall, fun before after hsplit hin cursor hcursor hr => ?_⟩
      have hbefore : Decided m (.remove r) (deliver m before) :=
        hdecided before (fun x hx => (hmem x).1 (by simp [hsplit, hx])) hin
      exact admission_removed (valid_deliver m before) hbefore hm hcursor hr

/-- A record at 3 that arrives after the removal at 5 is not admitted; before it, its content stays in the history. -/
theorem evidence_converges_removed :
    (deliver "a" [.remove 5, .record 3 false]).membership = some ⟨5, false⟩ ∧
    (deliver "a" [.record 3 false, .remove 5]).membership = some ⟨5, false⟩ ∧
    deliver "a" [.record 7 false, .remove 5, .record 3 true] = deliver "a" [.record 3 true, .remove 5, .record 7 false] := by
  have removed := fun sequence h => (evidence_converges.2 "a" [.remove 5, .record 3 false].toFinset (.remove 5) (by decide)
    (by decide) (by decide) (by decide) (by decide) sequence h).2 5 rfl
  have recorded := fun sequence h => (evidence_converges.2 "a" [.record 7 false, .remove 5, .record 3 true].toFinset
    (.record 7 false) (by decide) (by decide) (by decide) (by decide) (by decide) sequence h).1 7 false rfl
  refine ⟨(removed _ (by simp)).1, (removed _ (by simp [or_comm])).1, ?_⟩
  rw [recorded _ (by simp), recorded _ (fun x => by simp; tauto)]

end RecordEvidence

end Axton
