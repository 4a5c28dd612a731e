import Axton.Protocol.Sync

/-!
# The server's Stream

One Stream of the server as its clients can see it: the tables `axton_stream` and
`axton_stream_record` (packages/backend/postgres/src/sql.mts) joined with what the canonical loader
returns for each record. A transaction of the server publishes records at positions above the head it
found (`V05_RESERVE_CURSOR`); a page is computed from one consistent view.

`View.Before` relates a view to the later ones. What the downlink needs of it is
`Before.get_of_le`: a record that stands at or below the head of an earlier view already stood there.
-/

namespace Axton

inductive PositionKind where
  | upsert | remove
deriving DecidableEq, Repr

/-- Where a record stands, and the row its canonical loader returns. -/
structure Entry where
  cursor : Nat
  kind : PositionKind
  row : Option Json
deriving DecidableEq

/-- One consistent view of a Stream. -/
structure View where
  head : Nat
  rows : Table RecordKey Entry
  nodup : (rows.map (·.1)).Nodup
  bounded : ∀ r ∈ rows, 0 < r.2.cursor ∧ r.2.cursor ≤ head

namespace View

def get (v : View) (k : RecordKey) : Option Entry := v.rows.get k

theorem mem_of_get {v : View} {k : RecordKey} {e : Entry} (h : v.get k = some e) : (k, e) ∈ v.rows :=
  Table.mem_of_get h

theorem get_of_mem {v : View} {k : RecordKey} {e : Entry} (h : (k, e) ∈ v.rows) : v.get k = some e :=
  Table.get_of_mem v.nodup h

/-- The records a transaction published, at positions above the previous head. -/
structure Publication (v : View) where
  head : Nat
  entries : Table RecordKey Entry
  advances : v.head ≤ head
  above : ∀ r ∈ entries, v.head < r.2.cursor ∧ r.2.cursor ≤ head

/-- The view after a publication committed. -/
def publish (v : View) (p : Publication v) : View where
  head := p.head
  rows := v.rows.setAll p.entries
  nodup := Table.nodup_setAll v.nodup p.entries
  bounded := by
    intro r hr
    rcases Table.mem_setAll hr with hr | hr
    · have := p.above r hr
      omega
    · have := v.bounded r hr
      have := p.advances
      omega

/-- `w` is `v`, or a view after some publications. -/
structure Before (v w : View) : Prop where
  head : v.head ≤ w.head
  get : ∀ k, w.get k = v.get k ∨ ∃ e, w.get k = some e ∧ v.head < e.cursor

theorem Before.refl (v : View) : Before v v := ⟨le_refl _, fun _ => .inl rfl⟩

theorem Before.trans {u v w : View} (h : Before u v) (h' : Before v w) : Before u w where
  head := le_trans h.head h'.head
  get k := by
    rcases h'.get k with e | ⟨e, he, hlt⟩
    · rw [e]
      exact h.get k
    · exact .inr ⟨e, he, lt_of_le_of_lt h.head hlt⟩

/-- **Publishing moves records above the previous head and leaves the others.** -/
theorem before_publish (v : View) (p : Publication v) : Before v (v.publish p) where
  head := p.advances
  get k := by
    rcases Table.get_setAll v.rows p.entries k with h | ⟨e, hm, h⟩
    · exact .inl h
    · exact .inr ⟨e, h, (p.above _ hm).1⟩

variable {v w : View} {k : RecordKey} {e e' : Entry}

/-- A record at or below an earlier head stood there already. -/
theorem Before.get_of_le (h : Before v w) (hw : w.get k = some e) (hle : e.cursor ≤ v.head) : v.get k = some e := by
  rcases h.get k with same | ⟨e', he', hlt⟩
  · rw [← same]
    exact hw
  · rw [hw] at he'
    cases he'
    omega

/-- Records only move up, and stay the same where they do not move. -/
theorem Before.le_cursor (h : Before v w) (hv : v.get k = some e') (hw : w.get k = some e) :
    e' = e ∨ e'.cursor < e.cursor := by
  rcases h.get k with same | ⟨e'', he'', hlt⟩
  · rw [hw, hv] at same
    cases same
    exact .inl rfl
  · rw [hw] at he''
    cases he''
    have := v.bounded _ (mem_of_get hv)
    exact .inr (by simp only at this; omega)

end View

end Axton
