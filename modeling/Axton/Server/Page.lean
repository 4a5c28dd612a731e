import Axton.Protocol.Freeze
import Axton.Lib.Pointwise
import Axton.Server.DeliveryPlan

/-!
# What a page covers

A page claims a prefix of the Stream. Its claim is sound: every selected record of the view that stands
after the request and at or below the covered position is a change of one of its units, and every
change is where the view has the record.

The steps follow `process_delivery05`: a bounded query proves coverage only up to its last row
(`candidates_complete`), the group loop covers the prefix before its first omitted component
(`pagePositions_complete`), loading and packing keep the changes (`materialize_mem`, `coalesce_changes`).
-/

namespace Axton

namespace Server

variable {P : Platform} {H : Hashes} {config : Config} {v : View}

/-! ## Candidates -/

instance : Std.Total (positionLe P) where
  total a b := le_total (toLex (a.2.cursor, toLex (a.1.model, P.canonicalJson a.1.identity)))
    (toLex (b.2.cursor, toLex (b.1.model, P.canonicalJson b.1.identity)))

instance : IsTrans Position (positionLe P) where
  trans _ _ _ h h' := le_trans (show toLex _ ≤ toLex _ from h) h'

theorem positionLe.cursor_le {a b : Position} (h : positionLe P a b) : a.2.cursor ≤ b.2.cursor := by
  unfold positionLe at h
  rw [Prod.Lex.le_iff] at h
  rcases h with h | ⟨h, -⟩
  · exact le_of_lt h
  · exact le_of_eq h

theorem mem_candidateRows {after : Nat} {models : List String} {keys : List RecordKey} {p : Position} :
    p ∈ candidateRows P v after models keys ↔
      p ∈ v.rows ∧ after < p.2.cursor ∧ (p.1.model ∈ models ∨ p.1 ∈ keys) := by
  simp [candidateRows, List.mem_insertionSort]

theorem withTies_subset {n : Nat} {rows : List Position} {p : Position} (h : p ∈ withTies n rows) : p ∈ rows := by
  unfold withTies at h
  split at h
  · exact h
  · exact (List.mem_filter.1 h).1

/-- A bounded query that was cut returned more than a page, and everything up to its last cursor. -/
theorem withTies_cases {n : Nat} {rows : List Position} (hs : rows.Pairwise (positionLe P)) :
    withTies (n + 1) rows = rows ∨
      ∃ last, n < (withTies (n + 1) rows).length ∧ (∀ p ∈ withTies (n + 1) rows, p.2.cursor ≤ last) ∧
        ∀ p ∈ rows, p.2.cursor ≤ last → p ∈ withTies (n + 1) rows := by
  unfold withTies
  split
  · exact .inl rfl
  · rename_i last hlast
    rw [Nat.add_sub_cancel, List.getElem?_eq_some_iff] at hlast
    obtain ⟨hn, rfl⟩ := hlast
    refine .inr ⟨rows[n].2.cursor, ?_, ?_, ?_⟩
    · -- the first rows all stand at or below the last of them
      have hall : ∀ p ∈ rows.take (n + 1), decide (p.2.cursor ≤ rows[n].2.cursor) = true := by
        intro p hp
        obtain ⟨i, hi, rfl⟩ := List.getElem_of_mem hp
        rw [List.length_take] at hi
        rw [List.getElem_take, decide_eq_true_eq]
        rcases Nat.lt_or_ge i n with hlt | hge
        · exact (List.pairwise_iff_getElem.1 hs i n (by omega) hn hlt).cursor_le
        · have : i = n := by omega
          subst this
          exact le_refl _
      have hsub : (rows.take (n + 1)).Sublist (rows.filter fun r => decide (r.2.cursor ≤ rows[n].2.cursor)) := by
        rw [← List.filter_eq_self.2 hall]
        exact (List.take_sublist _ _).filter _
      have hlen := hsub.length_le
      rw [List.length_take] at hlen
      omega
    · intro p hp
      simpa using (List.mem_filter.1 hp).2
    · intro p hp hle
      exact List.mem_filter.2 ⟨hp, by simpa using hle⟩

/-- A query returns rows of the view it was asked for. -/
theorem candidates_mem {after : Nat} {models : List String} {keys : List RecordKey} {pageSize : Option Nat}
    {ps : List Position} (h : candidates P v after models keys pageSize = .ok ps) {p : Position} (hp : p ∈ ps) :
    p ∈ v.rows ∧ after < p.2.cursor := by
  simp only [candidates, bind_ok, pure_ok] at h
  obtain ⟨_, _, rfl⟩ := h
  have hrow : p ∈ candidateRows P v after models keys := by
    cases pageSize with
    | none => exact hp
    | some size => exact withTies_subset hp
  obtain ⟨hv, hlt, -⟩ := mem_candidateRows.1 hrow
  exact ⟨hv, hlt⟩

/-- **A query returns every selected record up to the position it proves.** -/
theorem candidates_complete {after through : Nat} {models : List String} {keys : List RecordKey}
    {pageSize : Option Nat} {ps : List Position} (h : candidates P v after models keys pageSize = .ok ps)
    {p : Position} (hv : p ∈ v.rows) (hlt : after < p.2.cursor) (hm : p.1.model ∈ models)
    (hle : p.2.cursor ≤ provenThrough pageSize ps through) : p ∈ ps := by
  simp only [candidates, bind_ok, pure_ok] at h
  obtain ⟨_, _, rfl⟩ := h
  have hrow : p ∈ candidateRows P v after models keys := mem_candidateRows.2 ⟨hv, hlt, .inl hm⟩
  cases pageSize with
  | none => exact hrow
  | some size =>
    have hsorted : (candidateRows P v after models keys).Pairwise (positionLe P) := List.pairwise_insertionSort _ _
    rcases withTies_cases (n := size) hsorted with hall | ⟨last, hlen, hbound, hin⟩
    · simp only [hall]
      exact hrow
    · refine hin p hrow ?_
      -- the query was cut, so its own maximum bounds what it proves
      simp only [provenThrough, Option.any_some, hlen, decide_true, if_true] at hle
      generalize hrows : withTies (size + 1) (candidateRows P v after models keys) = rows at *
      cases hmax : (rows.map (·.2.cursor)).max? with
      | none =>
        rw [List.max?_eq_none_iff, List.map_eq_nil_iff] at hmax
        simp [hmax] at hlen
      | some top =>
        rw [hmax, Option.getD_some] at hle
        obtain ⟨q, hq, rfl⟩ := List.mem_map.1 (List.max?_eq_some_iff.1 hmax).1
        have := hbound q hq
        omega

/-! ## Groups -/

@[simp] theorem metadata_key (p : Position) : (metadata p).key = p.1 := by
  unfold metadata
  split <;> rfl

@[simp] theorem metadata_cursor (p : Position) : (metadata p).cursor = p.2.cursor := by
  unfold metadata
  split <;> rfl

/-- The group loop keeps what it selected and selects every group up to the position it covers. -/
theorem pageGroups_complete {through : Nat} : ∀ {us : List DeliveryUnit} {count : Nat} {selected : List RecordKey}
    {out : List RecordKey × Nat}, pageGroups through us count selected = out →
    (us.Pairwise fun u w => ∀ m, minimumCursor u.changes = some m → ∀ c ∈ w.changes, m ≤ c.cursor) →
    (∀ u ∈ us, ∀ c ∈ u.changes, 0 < c.cursor) →
    (∀ u ∈ us, u.changes = [] → ∀ w ∈ us, w.changes = []) →
    out.2 ≤ through ∧ (∀ k ∈ selected, k ∈ out.1) ∧ ∀ u ∈ us, ∀ c ∈ u.changes, c.cursor ≤ out.2 → c.key ∈ out.1
  | [], count, selected, out, h, _, _, _ => by
    subst h
    refine ⟨le_refl _, fun k hk => hk, ?_⟩
    intro u hu
    cases hu
  | g :: rest, count, selected, out, h, hpair, hpos, hempty => by
    rw [pageGroups] at h
    cases hmin : minimumCursor g.changes with
    | none =>
      rw [hmin] at h
      subst h
      have hg : g.changes = [] := by
        cases hc : g.changes with
        | nil => rfl
        | cons c cs =>
          have hmem : c ∈ g.changes := by simp [hc]
          obtain ⟨m, hm, -⟩ := minimumCursor_le hmem
          rw [hmin] at hm
          cases hm
      refine ⟨le_refl _, fun k hk => hk, fun u hu c hc => ?_⟩
      rw [hempty g List.mem_cons_self hg u hu] at hc
      cases hc
    | some minimum =>
      rw [hmin] at h
      simp only at h
      -- every group from here on stands at or above this one's least position
      have hge : ∀ u ∈ g :: rest, ∀ c ∈ u.changes, minimum ≤ c.cursor := by
        intro u hu c hc
        rcases List.mem_cons.1 hu with rfl | hu
        · obtain ⟨m, hm, hle⟩ := minimumCursor_le hc
          rw [hmin] at hm
          cases hm
          exact hle
        · exact (List.pairwise_cons.1 hpair).1 u hu minimum hmin c hc
      split at h
      · subst h
        refine ⟨le_refl _, fun k hk => hk, fun u hu c hc hle => ?_⟩
        have := hge u hu c hc
        simp only at hle
        omega
      · split at h
        · subst h
          refine ⟨Nat.min_le_left _ _, fun k hk => hk, fun u hu c hc hle => ?_⟩
          have := hge u hu c hc
          have := hpos u hu c hc
          simp only at hle
          omega
        · obtain ⟨hle, hkeep, hsel⟩ := pageGroups_complete h (List.pairwise_cons.1 hpair).2
            (fun u hu => hpos u (List.mem_cons_of_mem _ hu))
            (fun u hu hnil w hw => hempty u (List.mem_cons_of_mem _ hu) hnil w (List.mem_cons_of_mem _ hw))
          refine ⟨hle, fun k hk => hkeep k (List.mem_append_left _ hk), fun u hu c hc hcov => ?_⟩
          rcases List.mem_cons.1 hu with rfl | hu
          · exact hkeep _ (List.mem_append_right _ (List.mem_map_of_mem hc))
          · exact hsel u hu c hc hcov

/-- **A page keeps every candidate up to the position it covers.** -/
theorem pagePositions_complete {S : Schema} {ps page : List Position} {after through head covered : Nat}
    (h : pagePositions P S ps after through head = .ok (page, covered)) :
    covered ≤ through ∧ (∀ p ∈ page, p ∈ ps) ∧
      ∀ p ∈ ps, after < p.2.cursor → p.2.cursor ≤ covered → p ∈ page := by
  simp only [pagePositions, bind_ok, pure_ok, Prod.mk.injEq] at h
  obtain ⟨groups, hgroups, rfl, rfl⟩ := h
  have planned : Planned (ps.map metadata) after groups := planUnits_planned hgroups
  obtain ⟨hle, -, hsel⟩ := pageGroups_complete (rfl : pageGroups through groups 0 [] = _)
    planned.ordered
    (fun u hu c hc => by
      have := (planned.sound u hu c hc).2
      omega)
    (fun u hu hnil w hw => by
      rw [List.eq_nil_iff_forall_not_mem]
      intro c hc
      obtain ⟨hin, hlt⟩ := planned.sound w hw c hc
      have := planned.nonempty u hu hnil c hin
      omega)
  refine ⟨hle, fun p hp => (List.mem_filter.1 hp).1, fun p hp hlt hcov => ?_⟩
  obtain ⟨u, hu, hc⟩ := planned.complete (metadata p) (List.mem_map_of_mem hp) (by simpa using hlt)
  have := hsel u hu _ hc (by simpa using hcov)
  exact List.mem_filter.2 ⟨hp, by simpa using this⟩

/-! ## Content -/

/-- The change says where the record stands. -/
inductive Carries (k : RecordKey) (e : Entry) : AuthorityChange → Prop
  | record (state : Json) : e.kind = .upsert → Carries k e (.record k e.cursor state)
  | remove : e.kind = .remove → Carries k e (.remove k e.cursor)

theorem Carries.key {k : RecordKey} {e : Entry} {c : AuthorityChange} (h : Carries k e c) : c.key = k := by
  cases h <;> rfl

theorem Carries.cursor {k : RecordKey} {e : Entry} {c : AuthorityChange} (h : Carries k e c) : c.cursor = e.cursor := by
  cases h <;> rfl

theorem loadRecord_carries {versions : Table String Nat} {p : Position} {c : AuthorityChange}
    (hkind : p.2.kind = .upsert) (h : loadRecord P config versions p = .ok c) : Carries p.1 p.2 c := by
  unfold loadRecord at h
  split at h
  · cases h
  · split at h
    · cases h
    · split at h
      · cases h
        exact .record _ hkind
      · split at h
        · cases h
        · cases h
          exact .record _ hkind

/-- **Loading turns every position into one change, and nothing else.** -/
theorem materialize_mem {versions : Table String Nat} {ps : List Position} {changes : List AuthorityChange}
    (h : materialize P config versions ps = .ok changes) :
    (∀ p ∈ ps, ∃ c ∈ changes, Carries p.1 p.2 c) ∧ ∀ c ∈ changes, ∃ p ∈ ps, Carries p.1 p.2 c := by
  simp only [materialize, bind_ok, pure_ok] at h
  obtain ⟨records, hload, rfl⟩ := h
  rw [mapM_ok] at hload
  have hupsert : ∀ p, p ∈ (((ps.filter fun p => decide (p.2.kind = .upsert)).map (·.1.model)).dedup.insertionSort
      (· ≤ ·)).flatMap (fun m => (ps.filter fun p => decide (p.2.kind = .upsert)).filter fun p => decide (p.1.model = m)) ↔
      p ∈ ps ∧ p.2.kind = .upsert := by
    intro p
    simp only [List.mem_flatMap, List.mem_insertionSort, List.mem_dedup, List.mem_filter, List.mem_map,
      decide_eq_true_eq]
    constructor
    · rintro ⟨m, -, h, -⟩
      exact h
    · intro h
      exact ⟨p.1.model, ⟨p, h, rfl⟩, h, rfl⟩
  constructor
  · intro p hp
    cases hkind : p.2.kind with
    | upsert =>
      obtain ⟨c, hc, hload⟩ := forall₂_mem_left hload ((hupsert p).2 ⟨hp, hkind⟩)
      exact ⟨c, List.mem_append_right _ hc, loadRecord_carries hkind hload⟩
    | remove =>
      refine ⟨.remove p.1 p.2.cursor, List.mem_append_left _ ?_, .remove hkind⟩
      exact List.mem_map_of_mem (List.mem_filter.2 ⟨hp, by simpa using hkind⟩)
  · intro c hc
    rcases List.mem_append.1 hc with hc | hc
    · obtain ⟨p, hp, rfl⟩ := List.mem_map.1 hc
      obtain ⟨hp, hkind⟩ := List.mem_filter.1 hp
      exact ⟨p, hp, .remove (by simpa using hkind)⟩
    · obtain ⟨p, hp, hload⟩ := forall₂_mem_right hload hc
      obtain ⟨hp, hkind⟩ := (hupsert p).1 hp
      exact ⟨p, hp, loadRecord_carries hkind hload⟩

theorem coalesce_changes (target : Nat) (us packed : List DeliveryUnit) :
    (coalesce target packed us).flatMap (·.changes) = packed.flatMap (·.changes) ++ us.flatMap (·.changes) := by
  induction us generalizing packed with
  | nil => simp [coalesce]
  | cons u rest ih =>
    have fresh : (coalesce target (packed ++ [{ u with index := packed.length }]) rest).flatMap (·.changes) =
        packed.flatMap (·.changes) ++ (u :: rest).flatMap (·.changes) := by
      rw [ih]
      simp
    unfold coalesce
    simp only
    split
    · exact fresh
    · rename_i last hlast
      split
      · rw [ih]
        obtain ⟨front, rfl⟩ := List.getLast?_eq_some_iff.1 hlast
        simp
      · exact fresh

/-- Packed units hold exactly the changes after the range's start. -/
theorem units_mem {S : Schema} {changes : List AuthorityChange} {after through head : Nat} {us : List DeliveryUnit}
    (h : units P S changes after through head = .ok us) {c : AuthorityChange} :
    (∃ u ∈ us, c ∈ u.changes) ↔ c ∈ changes ∧ after < c.cursor := by
  simp only [units, map_ok] at h
  obtain ⟨planned, hplan, rfl⟩ := h
  have spec : Planned changes after planned := planUnits_planned hplan
  have hflat : (∃ u ∈ coalesce 500 [] planned, c ∈ u.changes) ↔ ∃ u ∈ planned, c ∈ u.changes := by
    rw [← List.mem_flatMap, coalesce_changes, List.flatMap_nil, List.nil_append, List.mem_flatMap]
  rw [hflat]
  constructor
  · rintro ⟨u, hu, hc⟩
    exact spec.sound u hu c hc
  · rintro ⟨hc, hlt⟩
    exact spec.complete c hc hlt

/-! ## Pages and transfers -/

/-- The units of a delivery, each change where the view has its record. -/
structure Authentic (v : View) (f : FrozenDelivery) (us : List DeliveryUnit) : Prop where
  holds : f.Holds us
  frozen : ∃ size, Frozen us size f
  carried : ∀ u ∈ us, ∀ c ∈ u.changes, ∃ e, v.get c.key = some e ∧ Carries c.key e c

/-- A page of a view: an ordinary delivery whose units hold every selected record of its range. -/
structure Page (v : View) (r : DeltaRequest) (selected : List String) (f : FrozenDelivery)
    (us : List DeliveryUnit) : Prop extends Authentic v f us where
  context : f.header.context = r.context
  bootstrap : f.header.bootstrap = r.bootstrap
  owner : f.header.owner = none
  after : f.header.after = some r.after
  through : ∃ covered, f.header.through = some covered ∧ covered ≤ v.head ∧
    ∀ k e, v.get k = some e → k.model ∈ selected → r.after < e.cursor → e.cursor ≤ covered →
      ∃ u ∈ us, ∃ c ∈ u.changes, c.key = k ∧ c.cursor = e.cursor

theorem carried_of_positions {versions : Table String Nat} {ps : List Position} {changes : List AuthorityChange}
    (hps : ∀ p ∈ ps, p ∈ v.rows) (h : materialize P config versions ps = .ok changes) :
    ∀ c ∈ changes, ∃ e, v.get c.key = some e ∧ Carries c.key e c := by
  intro c hc
  obtain ⟨p, hp, hcarry⟩ := (materialize_mem h).2 c hc
  have hk := hcarry.key
  rw [hk]
  exact ⟨p.2, View.get_of_mem (hps p hp), hcarry⟩

/-- **`process_delivery05` answers with a page of the view it read.** -/
theorem processDelivery_page {r : DeltaRequest} {planId : String} {now : Nat} {f : FrozenDelivery}
    (h : processDelivery P H config v r planId now = .ok f) :
    ∃ selected us, selection H config r.context.materialization r.bootstrap = .ok selected ∧ Page v r selected f us := by
  simp only [processDelivery, bind_ok, check_ok, decide_eq_true_eq, Prod.exists] at h
  obtain ⟨_, _, versions, _, selected, hsel, ps, hps, _, hhead, page, covered, hpage, changes, hload, us, hunits,
    hfreeze⟩ := h
  obtain ⟨hcov, hsub, hkeep⟩ := pagePositions_complete hpage
  obtain ⟨holds, hbody⟩ := freeze_holds hfreeze
  refine ⟨selected, us, hsel, ⟨holds, ⟨_, frozen_of_freeze hfreeze⟩, ?_⟩, congrArg HeaderBody.context hbody, congrArg HeaderBody.bootstrap hbody,
    congrArg HeaderBody.owner hbody, congrArg HeaderBody.after hbody, covered, congrArg HeaderBody.through hbody, ?_, ?_⟩
  · intro u hu c hc
    have hmem := (units_mem hunits).1 ⟨u, hu, hc⟩
    exact carried_of_positions (fun p hp => (candidates_mem hps (hsub p hp)).1) hload c hmem.1
  · have hproven : provenThrough (cursorPageSize (contextSchema config r.context.materialization)) ps r.through ≤
        r.through := by
      unfold provenThrough
      split
      · exact Nat.min_le_left _ _
      · exact le_refl _
    omega
  · intro k e hv hmodel hlt hle
    have hp : (k, e) ∈ ps := candidates_complete hps (View.mem_of_get hv) hlt hmodel (le_trans hle hcov)
    obtain ⟨c, hc, hcarry⟩ := (materialize_mem hload).1 (k, e) (hkeep (k, e) hp hlt hle)
    obtain ⟨u, hu, hcu⟩ := (units_mem hunits).2 ⟨hc, by rw [hcarry.cursor]; exact hlt⟩
    exact ⟨u, hu, c, hcu, hcarry.key, hcarry.cursor⟩

/-- **`process_materialization05` answers with records of the view it read.** -/
theorem processMaterialization_authentic {results : List MutationResult} {r : MaterializationRequest}
    {planId : String} {now : Nat} {f : FrozenDelivery}
    (h : processMaterialization P H config v results r planId now = .ok f) :
    (∃ us, Authentic v f us) ∧ f.header.owner = some r.owner ∧ f.header.bootstrap = false := by
  simp only [processMaterialization, bind_ok] at h
  obtain ⟨_, _, versions, _, _, _, _, _, _, _, ps, hps, changes, hload, us, hunits, hfreeze⟩ := h
  obtain ⟨holds, hbody⟩ := freeze_holds hfreeze
  refine ⟨⟨_, holds, ⟨_, frozen_of_freeze hfreeze⟩, ?_⟩, congrArg HeaderBody.owner hbody, congrArg HeaderBody.bootstrap hbody⟩
  intro u hu c hc
  obtain ⟨u', hu', rfl⟩ := List.mem_map.1 hu
  have hmem := (units_mem hunits).1 ⟨u', hu', hc⟩
  exact carried_of_positions (fun p hp => (candidates_mem hps hp).1) hload c hmem.1

end Server

end Axton
