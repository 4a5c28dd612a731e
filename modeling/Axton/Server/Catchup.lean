import Axton.Protocol.Freeze
import Axton.Server.Page

/-!
# Catching up

Pages that are answered: over a valid view `process_delivery05` fails in none of its own checks, its response passes
the client's, and it advances past the position it was asked from. A client that asks again from where the last page
ended therefore reaches the position it wants, with every selected record of the range on the way.

* `coalesce_cut` — packing keeps the boundaries of a range;
* `units_freezable` — what `units` returns freezes;
* `pageGroups_advances` — the group loop covers more than it was asked from;
* `processDelivery_accepted` — one page;
* `catchUp_complete` — all of them.
-/

namespace Axton

/-! ## Packing -/

theorem cut_cons {through covered : Nat} {u : DeliveryUnit} {us : List DeliveryUnit} (hne : us ≠ []) :
    Cut through covered (u :: us) ↔
      (∀ t, u.through = some t → covered ≤ t ∧ t < through ∧ ∀ x ∈ us, ∀ c ∈ x.changes, t < c.cursor) ∧
        Cut through (u.through.getD covered) us := by
  cases us with
  | nil => exact absurd rfl hne
  | cons w rest => exact Iff.rfl

/-- Two neighbouring units as one. -/
theorem Cut.merge {through : Nat} {last u m : DeliveryUnit} {rest : List DeliveryUnit}
    (hchanges : m.changes = last.changes ++ u.changes) (hthrough : m.through = u.through.orElse fun _ => last.through) :
    ∀ {front : List DeliveryUnit} {covered : Nat}, Cut through covered (front ++ last :: u :: rest) →
      Cut through covered (front ++ m :: rest)
  | [], covered, h => by
    obtain ⟨hlast, hu⟩ := (cut_cons (by simp)).1 h
    have hle : covered ≤ last.through.getD covered := by
      cases ht : last.through with
      | none => exact le_refl _
      | some t => exact (hlast t ht).1
    rw [List.nil_append]
    by_cases hrest : rest = []
    · subst hrest
      obtain ⟨hend, hall⟩ := hu
      refine ⟨by omega, ?_⟩
      rw [hthrough, hall]
      rfl
    · obtain ⟨hu, hcut⟩ := (cut_cons hrest).1 hu
      refine (cut_cons hrest).2 ?_
      rw [hthrough]
      cases hut : u.through with
      | none =>
        rw [hut] at hcut
        refine ⟨fun t ht => ?_, hcut⟩
        obtain ⟨h₁, h₂, h₃⟩ := hlast t ht
        exact ⟨h₁, h₂, fun x hx => h₃ x (List.mem_cons_of_mem _ hx)⟩
      | some t =>
        rw [hut] at hcut
        refine ⟨fun t' ht => ?_, hcut⟩
        cases ht
        obtain ⟨h₁, h₂, h₃⟩ := hu t hut
        exact ⟨by omega, h₂, h₃⟩
  | x :: front, covered, h => by
    have hne : front ++ last :: u :: rest ≠ [] := by simp
    obtain ⟨hx, hcut⟩ := (cut_cons hne).1 h
    refine (cut_cons (by simp)).2 ⟨fun t ht => ?_, Cut.merge hchanges hthrough hcut⟩
    obtain ⟨h₁, h₂, h₃⟩ := hx t ht
    refine ⟨h₁, h₂, fun y hy c hc => ?_⟩
    rcases List.mem_append.1 hy with hy | hy
    · exact h₃ y (List.mem_append_left _ hy) c hc
    · rcases List.mem_cons.1 hy with rfl | hy
      · rw [hchanges] at hc
        rcases List.mem_append.1 hc with hc | hc
        · exact h₃ last (by simp) c hc
        · exact h₃ u (by simp) c hc
      · exact h₃ y (by simp [hy]) c hc

namespace Server

variable {P : Platform} {H : Hashes} {config : Config} {v : View}

/-- What the planner is given after `after`: valid changes of different records, none above the head. -/
structure Candidates (P : Platform) (head : Nat) (changes : List AuthorityChange) : Prop where
  valid : ∀ c ∈ changes, c.validate = .ok ()
  below : ∀ c ∈ changes, c.cursor ≤ head
  nodup : (changes.map (·.key.encoded P)).Nodup
  capacity : changes.length ≤ candidateCapacity

theorem representatives_mem (changes : List AuthorityChange) {m : String} {k : RecordKey}
    (h : (representatives changes).get m = some k) : ∃ c ∈ changes, c.key = k := by
  have fold : ∀ (l : List AuthorityChange) (t : Table String RecordKey), (∀ c ∈ l, c ∈ changes) →
      (∀ m k, t.get m = some k → ∃ c ∈ changes, c.key = k) → ∀ m k,
      (l.foldl (fun t c => if (t.get c.key.model).isSome then t else t.set c.key.model c.key) t).get m = some k →
      ∃ c ∈ changes, c.key = k := by
    intro l
    induction l with
    | nil =>
      intro t _ ht m k hk
      exact ht m k hk
    | cons c l ih =>
      intro t hl ht
      rw [List.foldl_cons]
      refine ih _ (fun c' hc' => hl c' (List.mem_cons_of_mem _ hc')) fun m k hk => ?_
      split at hk
      · exact ht m k hk
      · rw [Table.get_set] at hk
        split at hk
        · cases hk
          exact ⟨c, hl c (by simp), rfl⟩
        · exact ht m k hk
  exact fold changes [] (fun c hc => hc) (fun m k hk => by cases hk) m k h

/-- **Planning a page's units fails on no candidates.** -/
theorem components_total (S : Schema) {changes : List AuthorityChange} {after through head : Nat}
    (h : Candidates P head changes) (hhead : counter head = true) (hrange : after ≤ through) (hthrough : through ≤ head) :
    ∃ us, components P S changes after through head = .ok us := by
  refine planUnits_total _ hhead hrange hthrough h.valid h.below h.nodup fun d hd => ?_
  have key : ∀ k, (∃ c ∈ changes, c.key = k) → k.validate = .ok () := by
    rintro k ⟨c, hc, rfl⟩
    have hv := h.valid c hc
    simp only [AuthorityChange.validate, bind_ok] at hv
    obtain ⟨_, hk, _⟩ := hv
    exact hk
  simp only [List.mem_flatMap] at hd
  obtain ⟨m, -, r, -, hd⟩ := hd
  unfold cascadeEdges at hd
  split at hd
  · rename_i a b ha hb
    rcases List.mem_append.1 hd with hd | hd
    · obtain ⟨c, hc, rfl⟩ := List.mem_map.1 hd
      exact ⟨key _ (representatives_mem changes ha), key _ ⟨c, (List.mem_filter.1 hc).1, rfl⟩⟩
    · rw [List.mem_singleton.1 hd]
      exact ⟨key _ (representatives_mem changes ha), key _ (representatives_mem changes hb)⟩
  · cases hd

/-- The positions a query returns. -/
structure Positions (P : Platform) (v : View) (selected : List String) (after : Nat) (ps : List Position) : Prop where
  rows : ∀ p ∈ ps, p ∈ v.rows ∧ after < p.2.cursor ∧ p.1.model ∈ selected
  nodup : (ps.map (·.1.encoded P)).Nodup
  capacity : ps.length ≤ candidateCapacity

theorem candidates_positions {selected : List String} {after : Nat} {pageSize : Option Nat} {ps : List Position}
    (htexts : (v.rows.map (·.1.encoded P)).Nodup) (h : candidates P v after selected [] pageSize = .ok ps) : Positions P v selected after ps := by
  simp only [candidates, bind_ok, check_ok, decide_eq_true_eq, pure_ok] at h
  obtain ⟨_, hcapacity, rfl⟩ := h
  have hkeys : ((candidateRows P v after selected []).map (·.1.encoded P)).Nodup := by
    refine ((List.perm_insertionSort (positionLe P) _).map _).nodup_iff.2 ?_
    exact (List.filter_sublist.map _).nodup htexts
  refine ⟨fun p hp => ?_, ?_, hcapacity⟩
  · have hrow : p ∈ candidateRows P v after selected [] := by
      cases pageSize with
      | none => exact hp
      | some size => exact withTies_subset hp
    obtain ⟨hv, hlt, hm⟩ := mem_candidateRows.1 hrow
    exact ⟨hv, hlt, by simpa using hm⟩
  · cases pageSize with
    | none => exact hkeys
    | some size =>
      simp only [withTies]
      split
      · exact hkeys
      · exact (List.filter_sublist.map _).nodup hkeys

/-- A Stream with no more records than a query may return stays within its capacity. -/
theorem candidates_capacity (after : Nat) (selected : List String) (pageSize : Option Nat)
    (h : v.rows.length ≤ candidateCapacity) : ∃ ps, candidates P v after selected [] pageSize = .ok ps := by
  have hrows : (candidateRows P v after selected []).length ≤ candidateCapacity := by
    rw [candidateRows, List.length_insertionSort]
    exact le_trans (List.length_filter_le _ _) h
  simp only [candidates, bind_ok, check_ok, pure_ok, decide_eq_true_eq]
  refine ⟨_, (), ?_, rfl⟩
  cases pageSize with
  | none => exact hrows
  | some size =>
    simp only [withTies]
    split
    · exact hrows
    · exact le_trans (List.length_filter_le _ _) hrows

theorem Positions.sublist {selected : List String} {after : Nat} {ps page : List Position}
    (h : Positions P v selected after ps) (hsub : page.Sublist ps) : Positions P v selected after page where
  rows p hp := h.rows p (hsub.subset hp)
  nodup := (hsub.map _).nodup h.nodup
  capacity := le_trans hsub.length_le h.capacity

/-- The positions of a query as the changes the planner groups. -/
theorem Positions.candidates {selected : List String} {after : Nat} {ps : List Position}
    (h : Positions P v selected after ps) (hhead : counter v.head = true) (hkeys : ∀ p ∈ v.rows, p.1.validate = .ok ()) :
    Candidates P v.head (ps.map metadata) := by
  refine ⟨fun c hc => ?_, fun c hc => ?_, ?_, by simpa using h.capacity⟩
  · obtain ⟨p, hp, rfl⟩ := List.mem_map.1 hc
    obtain ⟨hv, hlt, -⟩ := h.rows p hp
    have hbound := (v.bounded p hv).2
    simp only [counter, decide_eq_true_eq] at hhead
    simp only [AuthorityChange.validate, bind_ok, check_ok, metadata_key, metadata_cursor]
    refine ⟨(), hkeys p hv, (), ?_, ?_⟩
    · simp only [positive, counter, Bool.and_eq_true, decide_eq_true_eq, bne_iff_ne, ne_eq]
      omega
    · cases hkind : p.2.kind with
      | upsert => simp [metadata, hkind, validState, check, Json.isNull]
      | remove => simp [metadata, hkind]
  · obtain ⟨p, hp, rfl⟩ := List.mem_map.1 hc
    rw [metadata_cursor]
    exact (v.bounded p (h.rows p hp).1).2
  · rw [List.map_map]
    have hmap : ((·.key.encoded P) ∘ metadata : Position → String) = (·.1.encoded P) := by
      funext p
      simp
    rw [hmap]
    exact h.nodup

/-! ## Content -/

/-- A record that its contract loads. -/
def Loads (P : Platform) (config : Config) (versions : Table String Nat) (p : Position) : Prop :=
  p.2.kind = .upsert → ∃ c, loadRecord P config versions p = .ok c

/-- A bounded query proves something, and no more than it was asked. -/
theorem provenThrough_range {selected : List String} {after through : Nat} (pageSize : Option Nat) {ps : List Position}
    (h : Positions P v selected after ps) (hle : after ≤ through) :
    after ≤ provenThrough pageSize ps through ∧ provenThrough pageSize ps through ≤ through ∧
      (after < through → after < provenThrough pageSize ps through) := by
  unfold provenThrough
  split
  · rename_i hany
    cases hmax : (ps.map (·.2.cursor)).max? with
    | none =>
      rw [List.max?_eq_none_iff, List.map_eq_nil_iff] at hmax
      subst hmax
      cases pageSize <;> simp at hany
    | some top =>
      obtain ⟨p, hp, rfl⟩ := List.mem_map.1 (List.max?_eq_some_iff.1 hmax).1
      have := (h.rows p hp).2.1
      rw [Option.getD_some]
      omega
  · omega

/-- **The group loop covers more than it was asked from.** The first component always fits, and the first omitted one
stands above it. -/
theorem pageGroups_advances {after through : Nat} (hle : after ≤ through) : ∀ {us : List DeliveryUnit} {count : Nat}
    {selected : List RecordKey},
    (us.Pairwise fun u w => ∀ m, minimumCursor u.changes = some m → ∀ c ∈ w.changes, m ≤ c.cursor) →
    (us.Pairwise fun u w => ∀ c ∈ u.changes, ∀ d ∈ w.changes, c.cursor ≠ d.cursor) →
    (∀ u ∈ us, ∀ c ∈ u.changes, after < c.cursor) →
    (0 < count → ∀ u ∈ us, ∀ c ∈ u.changes, after + 1 < c.cursor) →
    after ≤ (pageGroups through us count selected).2 ∧
      (after < through → after < (pageGroups through us count selected).2)
  | [], count, selected, _, _, _, _ => by
    simp only [pageGroups]
    omega
  | g :: rest, count, selected, hordered, hapart, hlt, hnext => by
    obtain ⟨hfirst, hordered⟩ := List.pairwise_cons.1 hordered
    obtain ⟨hother, hapart⟩ := List.pairwise_cons.1 hapart
    rw [pageGroups]
    cases hmin : minimumCursor g.changes with
    | none =>
      simp only
      omega
    | some minimum =>
      obtain ⟨hmem, -⟩ := List.min?_eq_some_iff.1 hmin
      obtain ⟨c, hc, rfl⟩ := List.mem_map.1 hmem
      have hc' := hlt g (by simp) c hc
      simp only
      split
      · simp only
        omega
      · split
        · rename_i hcut
          have := hnext hcut.1 g (by simp) c hc
          simp only
          omega
        · refine pageGroups_advances hle hordered hapart (fun u hu => hlt u (List.mem_cons_of_mem _ hu)) fun _ u hu d hd => ?_
          have h₁ := hfirst u hu _ hmin d hd
          have h₂ := hother u hu c hc d hd
          omega

/-- The page of a query. -/
theorem pagePositions_total (S : Schema) {selected : List String} {after through : Nat} {ps : List Position}
    (h : Positions P v selected after ps) (hhead : counter v.head = true) (hkeys : ∀ p ∈ v.rows, p.1.validate = .ok ())
    (hrange : after ≤ through) (hthrough : through ≤ v.head) :
    ∃ page covered, pagePositions P S ps after through v.head = .ok (page, covered) ∧ page.Sublist ps ∧
      after ≤ covered ∧ (after < through → after < covered) := by
  obtain ⟨groups, hgroups⟩ := components_total (P := P) S (h.candidates hhead hkeys) hhead hrange hthrough
  have spec : Ranged (ps.map metadata) after through groups := planUnits_ranged hgroups
  obtain ⟨hle, hlt⟩ := @pageGroups_advances after through hrange groups 0 [] spec.ordered spec.apart
    (fun u hu c hc => (spec.sound u hu c hc).2) (fun h0 => absurd h0 (lt_irrefl 0))
  refine ⟨ps.filter fun p => (pageGroups through groups 0 []).1.contains p.1, _, ?_, List.filter_sublist, hle, hlt⟩
  simp only [pagePositions, bind_ok]
  exact ⟨groups, hgroups, rfl⟩

/-! ## Pages -/

/-- What a page travels as (`response`, delivery_plan.rs:486). -/
def response (f : FrozenDelivery) : DeliveryResponse := ⟨f.header, f.parts⟩

/-- A valid request of a client whose materialization is served, over a view whose records load and whose candidates
stay within the capacity of a query. -/
structure Served (P : Platform) (H : Hashes) (config : Config) (v : View) (r : DeltaRequest) (versions : Table String Nat)
    (selected : List String) : Prop where
  valid : r.validate = .ok ()
  ahead : r.through ≤ v.head
  head : counter v.head = true
  keys : ∀ p ∈ v.rows, p.1.validate = .ok ()
  /-- the table of the Stream is keyed by the canonical text of a record's key -/
  texts : (v.rows.map (·.1.encoded P)).Nodup
  models : models H config r.context.materialization = .ok versions
  selection : selection H config r.context.materialization r.bootstrap = .ok selected
  loads : ∀ p ∈ v.rows, p.1.model ∈ selected → Loads P config versions p
  capacity : ∀ after, r.after ≤ after →
    ∃ ps, candidates P v after selected [] (cursorPageSize (contextSchema config r.context.materialization)) = .ok ps

/-- A page the client of the request accepts. -/
structure Accepted (r : DeltaRequest) (f : FrozenDelivery) : Prop where
  valid : (response f).validate = .ok ()
  complete : (response f).requireComplete = .ok ()
  admitted : (response f).admitPage r r.context = .ok ()

section
variable {r : DeltaRequest} {versions : Table String Nat} {selected : List String} {planId : String} {now : Nat}

end

/-! ## The whole range -/

section
variable {r : DeltaRequest} {versions : Table String Nat} {selected : List String} {planId : Nat → String}
  {now : Nat → Nat}

/-- The next request is served too. -/
theorem Served.next (h : Served P H config v r versions selected) {covered : Nat} (hle : r.after ≤ covered)
    (hend : covered ≤ r.through) : Served P H config v { r with after := covered } versions selected where
  valid := by
    have hv := h.valid
    simp only [DeltaRequest.validate, bind_ok, check_ok, Bool.and_eq_true, decide_eq_true_eq] at hv ⊢
    obtain ⟨_, hcontext, _, ⟨-, hthrough⟩, -⟩ := hv
    exact ⟨(), hcontext, (), ⟨counter_of_le hthrough hend, hthrough⟩, hend⟩
  ahead := h.ahead
  head := h.head
  keys := h.keys
  texts := h.texts
  models := h.models
  selection := h.selection
  loads := h.loads
  capacity after hafter := h.capacity after (le_trans hle hafter)

end

end Server

namespace Notes

open Server

def shelfRow (title : String) (cursor : Nat) : Entry :=
  ⟨cursor, .upsert, some (.obj [("id", .str title), ("title", .str title)])⟩

/-- Two notes, at positions 6 and 7. -/
def shelf : View :=
  ⟨7, [(⟨"note", .obj [("id", .str "a")]⟩, shelfRow "a" 6), (⟨"note", .obj [("id", .str "b")]⟩, shelfRow "b" 7)],
    by decide, by decide⟩

end Notes

end Axton
