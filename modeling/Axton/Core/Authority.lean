import Axton.Core.Schema
import Axton.Lib.Table
import Axton.Lib.Check

/-!
# Record authority evidence

Model of `crates/core/src/authority.rs`: what a store remembers about the Stream positions of one
record. `history` holds, for each materialization, the newest content position installed in it,
`membership` the newest position that said whether the record belongs to the Stream, and `current`
the authority content that still protects the row.
-/

namespace Axton

structure AuthorityProtection where
  materialization : String
  cursor : Nat
  deleted : Bool
deriving DecidableEq, Repr

structure MembershipPosition where
  cursor : Nat
  live : Bool
deriving DecidableEq, Repr

structure RecordEvidence where
  membership : Option MembershipPosition := none
  history : Table String Nat := []
  current : Option AuthorityProtection := none
deriving DecidableEq

inductive AuthorityAdmission where
  | duplicate | newer | rematerialize
deriving DecidableEq, Repr

/-- `history.values().copied().max().unwrap_or(0)`. -/
def maxHistory (history : Table String Nat) : Nat := history.foldr (fun r m => max r.2 m) 0

namespace RecordEvidence

/-- `position` (authority.rs:12). -/
def position (cursor : Nat) : Except String Unit := do
  check (counter cursor) "counter outside safe integer range"
  check (cursor != 0) "positive position required"

@[simp] theorem position_ok {cursor : Nat} {u : Unit} : position cursor = .ok u ↔ positive cursor = true := by
  simp [position, positive]

/-- `nonblank` (authority.rs:5) of a materialization and `position` of a cursor in it. -/
def contentPosition (materialization : String) (cursor : Nat) : Except String Unit := do
  check (nonblank materialization) "nonblank identifier required"
  position cursor

@[simp] theorem contentPosition_ok {materialization : String} {cursor : Nat} {u : Unit} :
    contentPosition materialization cursor = .ok u ↔ nonblank materialization = true ∧ positive cursor = true := by
  simp [contentPosition]

/-- The newest content position of any materialization. -/
def latest (e : RecordEvidence) : Nat := maxHistory e.history

/-- The protection holds the newest position of the history, and no content of a record that left. -/
def validateProtection (e : RecordEvidence) (c : AuthorityProtection) : Except String Unit := do
  contentPosition c.materialization c.cursor
  check (e.history.get c.materialization = some c.cursor && e.latest ≤ c.cursor)
    "current protection lacks latest historical evidence"
  check (c.deleted || e.membership.all (·.live)) "removed membership cannot protect live content"

/-- `RecordEvidence::validate` (authority.rs:48); the history is a map in the order of its keys. -/
def validate (e : RecordEvidence) : Except String Unit := do
  forM (e.history.insertionSort fun a b => a.1 ≤ b.1) fun r => contentPosition r.1 r.2
  forM e.membership.toList fun p => position p.cursor
  forM e.current.toList e.validateProtection

/-- An older or equal position of the same materialization, or one a removal already covers. -/
def covered (e : RecordEvidence) (materialization : String) (cursor : Nat) : Bool :=
  (e.history.get materialization).any (cursor ≤ ·) || e.membership.any fun m => !m.live && cursor ≤ m.cursor

/-- `RecordEvidence::admission` (authority.rs:80). -/
def admission (e : RecordEvidence) (materialization : String) (cursor : Nat) :
    Except String AuthorityAdmission := do
  e.validate
  contentPosition materialization cursor
  if e.covered materialization cursor then return .duplicate
  else if cursor < e.latest then return .duplicate
  else if cursor = e.latest then return .rematerialize
  else return .newer

/-- The evidence `install` leaves when the position is admitted. -/
def installed (e : RecordEvidence) (admission : AuthorityAdmission) (materialization : String)
    (cursor : Nat) (deleted : Bool) : RecordEvidence where
  history := e.history.set materialization cursor
  current :=
    -- a rematerialized position keeps a direct local write visible, unless it deletes the record
    if (admission = .rematerialize ∧ e.current = none) ∧ deleted = false then e.current
    else some ⟨materialization, cursor, deleted⟩
  membership := if e.membership.all (·.cursor < cursor) then some ⟨cursor, true⟩ else e.membership

/-- `RecordEvidence::install` (authority.rs:108). -/
def install (e : RecordEvidence) (materialization : String) (cursor : Nat) (deleted : Bool) :
    Except String (Bool × RecordEvidence) := do
  match ← e.admission materialization cursor with
  | .duplicate => return (false, e)
  | a => return (true, e.installed a materialization cursor deleted)

/-- The newest position the evidence holds, of content or of membership. -/
def reached (e : RecordEvidence) : Nat := max ((e.membership.map (·.cursor)).getD 0) e.latest

/-- `RecordEvidence::remove` (authority.rs:133). -/
def remove (e : RecordEvidence) (cursor : Nat) : Except String (Bool × RecordEvidence) := do
  e.validate
  position cursor
  if cursor ≤ e.reached then return (false, e)
  else return (true, { e with
    membership := some ⟨cursor, false⟩
    current := if e.current.any (!·.deleted) then none else e.current })

/-- A direct local write releases the protection (`direct_evidence05`, settlement05.rs:15). -/
def release (e : RecordEvidence) : RecordEvidence := { e with current := none }

@[simp] theorem release_history (e : RecordEvidence) : e.release.history = e.history := rfl
@[simp] theorem release_membership (e : RecordEvidence) : e.release.membership = e.membership := rfl
@[simp] theorem release_latest (e : RecordEvidence) : e.release.latest = e.latest := rfl
@[simp] theorem release_reached (e : RecordEvidence) : e.release.reached = e.reached := rfl

/-- Equal, or with the protection released: all that local work can do to evidence. -/
def Released (e e' : RecordEvidence) : Prop := e' = e ∨ e' = e.release

theorem Released.refl (e : RecordEvidence) : Released e e := .inl rfl

theorem Released.trans {a b c : RecordEvidence} (h : Released a b) (h' : Released b c) : Released a c := by
  rcases h with rfl | rfl <;> rcases h' with rfl | rfl
  · exact .inl rfl
  · exact .inr rfl
  · exact .inr rfl
  · exact .inr rfl

theorem Released.history {e e' : RecordEvidence} (h : Released e e') : e'.history = e.history := by
  rcases h with rfl | rfl <;> rfl

theorem Released.membership {e e' : RecordEvidence} (h : Released e e') : e'.membership = e.membership := by
  rcases h with rfl | rfl <;> rfl

end RecordEvidence

/-! ## The newest position of a history -/

theorem le_maxHistory {h : Table String Nat} {m : String} {c : Nat} (hm : (m, c) ∈ h) : c ≤ maxHistory h := by
  induction h with
  | nil => simp at hm
  | cons r h ih =>
    simp only [maxHistory, List.foldr_cons, List.mem_cons] at hm ⊢
    rcases hm with rfl | hm
    · exact Nat.le_max_left _ _
    · exact le_trans (ih hm) (Nat.le_max_right _ _)

theorem maxHistory_mem {h : Table String Nat} (hpos : 0 < maxHistory h) : ∃ m, (m, maxHistory h) ∈ h := by
  induction h with
  | nil => simp [maxHistory] at hpos
  | cons r h ih =>
    obtain ⟨a, c⟩ := r
    have step : maxHistory ((a, c) :: h) = max c (maxHistory h) := rfl
    rcases Nat.le_total (maxHistory h) c with hle | hle
    · exact ⟨a, by simp [step, hle]⟩
    · rw [step, Nat.max_eq_right hle] at hpos ⊢
      obtain ⟨m, hm⟩ := ih hpos
      exact ⟨m, List.mem_cons_of_mem _ hm⟩

theorem get_le_maxHistory {h : Table String Nat} {m : String} {c : Nat} (hg : h.get m = some c) :
    c ≤ maxHistory h := le_maxHistory (Table.mem_of_get hg)

/-- Writing a position at least as new as the one it replaces makes it the maximum or keeps it. -/
theorem maxHistory_set {h : Table String Nat} {m : String} {c : Nat} (hc : ∀ old, h.get m = some old → old ≤ c) :
    maxHistory (h.set m c) = max c (maxHistory h) := by
  induction h with
  | nil => simp [Table.set, maxHistory]
  | cons r h ih =>
    obtain ⟨a, w⟩ := r
    have hcons : ∀ (x : Nat) (t : Table String Nat), maxHistory ((a, x) :: t) = max x (maxHistory t) :=
      fun _ _ => rfl
    by_cases hak : a = m
    · subst hak
      have hw : w ≤ c := hc w (by simp [Table.get])
      simp only [Table.set, if_true, hcons]
      omega
    · have hstep : maxHistory (Table.set h m c) = max c (maxHistory h) :=
        ih fun old ho => hc old (by simpa [Table.get, hak] using ho)
      simp only [Table.set, if_neg hak, hcons, hstep]
      omega

/-! ## Admission -/

namespace RecordEvidence

variable {m : String} {e e' : RecordEvidence} {cursor : Nat} {deleted : Bool}

/-- A position that is not newer than the evidence is reached by it. -/
theorem le_reached_of_duplicate (h : e.admission m cursor = .ok .duplicate) : cursor ≤ e.reached := by
  simp only [admission, bind_ok] at h
  obtain ⟨_, _, _, _, h⟩ := h
  have hlatest : e.latest ≤ e.reached := Nat.le_max_right _ _
  split at h
  · rename_i hcov
    simp only [covered, Bool.or_eq_true, Option.any_eq_true, Bool.and_eq_true, decide_eq_true_eq] at hcov
    rcases hcov with ⟨c, hc, hle⟩ | ⟨p, hp, -, hle⟩
    · have := get_le_maxHistory hc
      unfold latest at hlatest
      omega
    · have hreach : p.cursor ≤ e.reached := by simp [reached, hp]
      omega
  · split at h
    · omega
    · split at h <;> cases h

/-- An admitted position is at least as new as all content so far. -/
theorem admission_latest {a : AuthorityAdmission} (h : e.admission m cursor = .ok a) (ha : a ≠ .duplicate) :
    e.latest ≤ cursor := by
  simp only [admission, bind_ok] at h
  obtain ⟨_, _, _, _, h⟩ := h
  split at h
  · cases h; exact absurd rfl ha
  · split at h
    · cases h; exact absurd rfl ha
    · omega

theorem install_cases (h : e.install m cursor deleted = .ok (true, e')) :
    ∃ a, e.admission m cursor = .ok a ∧ a ≠ .duplicate ∧ e' = e.installed a m cursor deleted := by
  simp only [install, bind_ok] at h
  obtain ⟨a, ha, h⟩ := h
  cases a with
  | duplicate => simp at h
  | newer => simp at h; exact ⟨.newer, ha, by simp, h.symm⟩
  | rematerialize => simp at h; exact ⟨.rematerialize, ha, by simp, h.symm⟩

/-- Installed content is the newest. -/
theorem latest_install (h : e.install m cursor deleted = .ok (true, e')) : e'.latest = cursor := by
  obtain ⟨a, ha, hne, rfl⟩ := install_cases h
  have hle := admission_latest ha hne
  have hset : maxHistory (e.history.set m cursor) = max cursor (maxHistory e.history) :=
    maxHistory_set fun old ho => le_trans (get_le_maxHistory ho) hle
  show maxHistory (e.history.set m cursor) = cursor
  rw [hset]
  exact Nat.max_eq_left hle

theorem reached_install (h : e.install m cursor deleted = .ok (true, e')) :
    e.reached ≤ e'.reached ∧ cursor ≤ e'.reached := by
  have hlatest := latest_install h
  obtain ⟨a, ha, hne, rfl⟩ := install_cases h
  have hle := admission_latest ha hne
  have hc : cursor ≤ (e.installed a m cursor deleted).reached :=
    le_trans (le_of_eq hlatest.symm) (Nat.le_max_right _ _)
  refine ⟨?_, hc⟩
  unfold reached at hc ⊢
  rw [hlatest] at hc ⊢
  unfold installed
  split
  · rename_i hall
    cases hm : e.membership with
    | none => simp; omega
    | some p => simp [hm] at hall; simp; omega
  · simp only
    omega

theorem remove_cases (h : e.remove cursor = .ok (true, e')) :
    e.reached < cursor ∧ e'.membership = some ⟨cursor, false⟩ ∧ e'.history = e.history := by
  simp only [remove, bind_ok] at h
  obtain ⟨_, _, _, _, h⟩ := h
  split at h
  · cases h
  · rename_i hlt
    cases h
    exact ⟨by omega, rfl, rfl⟩

theorem reached_remove (h : e.remove cursor = .ok (true, e')) : e.reached < cursor ∧ e'.reached = cursor := by
  obtain ⟨hlt, hm, hh⟩ := remove_cases h
  refine ⟨hlt, ?_⟩
  have hl : e.latest < cursor := lt_of_le_of_lt (Nat.le_max_right _ _) hlt
  unfold latest at hl
  simp only [reached, latest, hm, hh, Option.map_some, Option.getD_some]
  omega

theorem le_reached_of_remove (h : e.remove cursor = .ok (false, e')) : cursor ≤ e.reached := by
  simp only [remove, bind_ok] at h
  obtain ⟨_, _, _, _, h⟩ := h
  split at h
  · assumption
  · cases h

end RecordEvidence

end Axton
