import Axton.Protocol.Plan
import Axton.Server.Catchup

/-!
# What a page selects

The positions of a page are whole constraint components of the candidates, as many as fit, and they hold every candidate
up to the position the page covers. A schema without constraints lets the query seek in the cursor index and return one
row more than a page with its ties; the page is then the one the full query gives, up to the smaller of the two bounds.

* `pageGroups_front` — the group loop takes a front of the groups, small or alone;
* `page_whole`, `page_small` — the page in the terms of the candidates;
* `candidates_component` — a bounded query cuts no component;
* `page_selection_sound` — all of it.
-/

namespace Axton

namespace Server

variable {P : Platform} {v : View}

/-- The models with a unique set. -/
def uniqueModels (S : Schema) : List String := (S.models.filter fun m => !m.unique.isEmpty).map (·.name)

/-- The edges between records that a cascading relation joins. -/
def cascades (S : Schema) (changes : List AuthorityChange) : List (RecordKey × RecordKey) :=
  S.models.flatMap fun m => (m.relations.filter (·.cascade)).flatMap (cascadeEdges changes m)

/-- Two positions in one constraint component of the candidates. -/
def Together (P : Platform) (S : Schema) (positions : List Position) (p q : Position) : Prop :=
  Constrained P (uniqueModels S) (cascades S (positions.map metadata)) (positions.map metadata) (metadata p) (metadata q)

/-! ## The group loop -/

/-- **The group loop takes a front of the groups**, with at most 500 changes or one group alone. -/
theorem pageGroups_front {through : Nat} : ∀ {us taken : List DeliveryUnit}, (∀ u ∈ taken, u.changes ≠ []) →
    ((taken.flatMap (·.changes)).length ≤ 500 ∨ taken.length ≤ 1) →
    ∃ front, front <+: us ∧
      (pageGroups through us (taken.flatMap (·.changes)).length (taken.flatMap (·.changes) |>.map (·.key))).1 =
        ((taken ++ front).flatMap (·.changes)).map (·.key) ∧
      (((taken ++ front).flatMap (·.changes)).length ≤ 500 ∨ (taken ++ front).length ≤ 1)
  | [], taken, _, hsize => ⟨[], List.nil_prefix, by simp [pageGroups], by simpa using hsize⟩
  | g :: rest, taken, hne, hsize => by
    have stop : ∃ front, front <+: g :: rest ∧ (taken.flatMap (·.changes)).map (·.key) =
        ((taken ++ front).flatMap (·.changes)).map (·.key) ∧
        (((taken ++ front).flatMap (·.changes)).length ≤ 500 ∨ (taken ++ front).length ≤ 1) :=
      ⟨[], List.nil_prefix, by simp, by simpa using hsize⟩
    rw [pageGroups]
    cases hmin : minimumCursor g.changes with
    | none => exact stop
    | some minimum =>
      have hg : g.changes ≠ [] := by
        intro hnil
        rw [hnil] at hmin
        cases hmin
      simp only
      split
      · exact stop
      · split
        · exact stop
        · rename_i hfit
          have hall : ∀ u ∈ taken ++ [g], u.changes ≠ [] := by
            intro u hu
            rcases List.mem_append.1 hu with hu | hu
            · exact hne u hu
            · rw [List.mem_singleton.1 hu]
              exact hg
          have hsize' : ((taken ++ [g]).flatMap (·.changes)).length ≤ 500 ∨ (taken ++ [g]).length ≤ 1 := by
            rw [List.flatMap_append, List.length_append, List.flatMap_singleton]
            by_cases hzero : 0 < (taken.flatMap (·.changes)).length
            · exact .inl (by omega)
            · -- nothing was taken yet
              refine .inr ?_
              cases taken with
              | nil => simp
              | cons u us =>
                have hu : 0 < u.changes.length := List.length_pos_iff.2 (hne u (by simp))
                rw [List.flatMap_cons, List.length_append] at hzero
                omega
          obtain ⟨front, hfront, hsel, hbound⟩ := @pageGroups_front through rest (taken ++ [g]) hall hsize'
          refine ⟨g :: front, by simpa using hfront, ?_, by simpa using hbound⟩
          rw [List.flatMap_append, List.flatMap_singleton, List.length_append, List.map_append] at hsel
          rw [hsel]
          simp

/-! ## The page -/

section
variable {S : Schema} {selected : List String} {after through head covered : Nat} {ps page : List Position}

/-- The groups a page took. -/
theorem page_front (h : Positions P v selected after ps) (hpage : pagePositions P S ps after through head = .ok (page, covered)) :
    ∃ groups front, components P S (ps.map metadata) after through head = .ok groups ∧ front <+: groups ∧
      (∀ p, p ∈ page ↔ p ∈ ps ∧ ∃ u ∈ front, metadata p ∈ u.changes) ∧
      ((front.flatMap (·.changes)).length ≤ 500 ∨ front.length ≤ 1) := by
  simp only [pagePositions, bind_ok, pure_ok, Prod.mk.injEq] at hpage
  obtain ⟨groups, hgroups, rfl, -⟩ := hpage
  obtain ⟨front, hfront, hsel, hsize⟩ := @pageGroups_front through groups [] (by simp) (by simp)
  have planned : Planned (ps.map metadata) after groups := planUnits_planned hgroups
  refine ⟨groups, front, hgroups, hfront, fun p => ?_, by simpa using hsize⟩
  simp only [List.flatMap_nil, List.length_nil, List.map_nil, List.nil_append] at hsel
  rw [List.mem_filter, hsel, List.contains_iff_mem, List.mem_map]
  refine and_congr_right fun hp => ?_
  constructor
  · rintro ⟨c, hc, hkey⟩
    obtain ⟨u, hu, hcu⟩ := List.mem_flatMap.1 hc
    obtain ⟨q, hq, rfl⟩ := List.mem_map.1 (planned.sound u (hfront.subset hu) c hcu).1
    have hqp : q = p := by
      refine List.inj_on_of_nodup_map h.nodup hq hp ?_
      rw [metadata_key] at hkey
      rw [hkey]
    exact ⟨u, hu, hqp ▸ hcu⟩
  · rintro ⟨u, hu, hc⟩
    exact ⟨metadata p, List.mem_flatMap.2 ⟨u, hu, hc⟩, metadata_key p⟩

/-- Members of one group are together, and what is together is in one group. -/
theorem group_together (h : Positions P v selected after ps) {groups : List DeliveryUnit}
    (hgroups : components P S (ps.map metadata) after through head = .ok groups) {u : DeliveryUnit} (hu : u ∈ groups)
    {p q : Position} (hp : metadata p ∈ u.changes) (hq : q ∈ ps) : metadata q ∈ u.changes ↔ Together P S ps p q := by
  have hlt : ∀ c ∈ ps.map metadata, after < c.cursor := by
    intro c hc
    obtain ⟨x, hx, rfl⟩ := List.mem_map.1 hc
    rw [metadata_cursor]
    exact (h.rows x hx).2.1
  have hfilter : (ps.map metadata).filter (fun c => decide (after < c.cursor)) = ps.map metadata :=
    List.filter_eq_self.2 fun c hc => by simpa using hlt c hc
  have hmem := planUnits_component hgroups hu (b := metadata q) hp
  rw [hfilter] at hmem
  rw [hmem]
  exact ⟨fun h => h.2, fun h => ⟨⟨List.mem_map_of_mem hq, hlt _ (List.mem_map_of_mem hq)⟩, h⟩⟩

/-- **A page holds whole components.** -/
theorem page_whole (h : Positions P v selected after ps) (hpage : pagePositions P S ps after through head = .ok (page, covered))
    {p q : Position} (hp : p ∈ page) (hq : q ∈ ps) (htogether : Together P S ps p q) : q ∈ page := by
  obtain ⟨groups, front, hgroups, hfront, hmem, -⟩ := page_front h hpage
  obtain ⟨-, u, hu, hpu⟩ := (hmem p).1 hp
  exact (hmem q).2 ⟨hq, u, hu, (group_together h hgroups (hfront.subset hu) hpu hq).2 htogether⟩

/-- **A page of more than 500 changes is one component.** -/
theorem page_small (h : Positions P v selected after ps) (hpage : pagePositions P S ps after through head = .ok (page, covered)) :
    page.length ≤ 500 ∨ ∀ p ∈ page, ∀ q ∈ page, Together P S ps p q := by
  have hsub : page.Sublist ps := by
    simp only [pagePositions, bind_ok, pure_ok, Prod.mk.injEq] at hpage
    obtain ⟨_, _, rfl, -⟩ := hpage
    exact List.filter_sublist
  obtain ⟨groups, front, hgroups, hfront, hmem, hsize⟩ := page_front h hpage
  rcases hsize with hsize | hone
  · refine .inl (le_trans ?_ hsize)
    have hkeys : (page.map fun p => (metadata p).key.encoded P).Nodup := by
      simp only [metadata_key]
      exact (hsub.map _).nodup h.nodup
    have hin : page.map metadata ⊆ front.flatMap (·.changes) := by
      intro c hc
      obtain ⟨p, hp, rfl⟩ := List.mem_map.1 hc
      obtain ⟨-, u, hu, hpu⟩ := (hmem p).1 hp
      exact List.mem_flatMap.2 ⟨u, hu, hpu⟩
    have hnodup : (page.map metadata).Nodup := by
      refine List.Nodup.of_map (fun c : AuthorityChange => c.key.encoded P) ?_
      rw [List.map_map]
      exact hkeys
    have hle := (List.subperm_of_subset hnodup hin).length_le
    rwa [List.length_map] at hle
  · refine .inr fun p hp q hq => ?_
    obtain ⟨-, u, hu, hpu⟩ := (hmem p).1 hp
    obtain ⟨hqs, w, hw, hqw⟩ := (hmem q).1 hq
    have huw : u = w := by
      cases front with
      | nil => cases hu
      | cons x rest =>
        rw [List.length_cons, Nat.succ_le_succ_iff, Nat.le_zero, List.length_eq_zero_iff] at hone
        rw [hone, List.mem_singleton] at hu hw
        rw [hu, hw]
    exact (group_together h hgroups (hfront.subset hu) hpu hqs).1 (huw ▸ hqw)

end

/-! ## The bounded query -/

/-- Without constraints a component is the records of one position. -/
theorem unconstrained {S : Schema} {size : Nat} (h : cursorPageSize S = some size) :
    uniqueModels S = [] ∧ ∀ changes, cascades S changes = [] := by
  unfold cursorPageSize at h
  split at h
  · cases h
  · rename_i hnone
    simp only [List.any_eq_true, Bool.or_eq_true, Bool.not_eq_true', not_exists, not_and, not_or] at hnone
    constructor
    · rw [uniqueModels, List.map_eq_nil_iff, List.filter_eq_nil_iff]
      intro m hm
      simpa using (hnone m hm).1
    · intro changes
      rw [cascades, List.flatMap_eq_nil_iff]
      intro m hm
      have hrelations : m.relations.filter (·.cascade) = [] := by
        rw [List.filter_eq_nil_iff]
        intro r hr hcascade
        exact (hnone m hm).2 r hr hcascade
      rw [hrelations, List.flatMap_nil]

theorem together_cursor {S : Schema} {size : Nat} (h : cursorPageSize S = some size) {ps : List Position} {p q : Position}
    (htogether : Together P S ps p q) : p.2.cursor = q.2.cursor := by
  obtain ⟨hunique, hcascades⟩ := unconstrained h
  unfold Together at htogether
  rw [hunique, hcascades] at htogether
  have same : ∀ a b, Constrained P [] [] (ps.map metadata) a b → a.cursor = b.cursor := by
    intro a b hab
    induction hab with
    | rel a b hlink =>
      rcases hlink.2.2 with hcur | ⟨-, hin⟩ | ⟨d, hd, -⟩
      · exact hcur
      · cases hin
      · cases hd
    | refl a => rfl
    | symm a b _ ih => exact ih.symm
    | trans a b c _ _ ih₁ ih₂ => exact ih₁.trans ih₂
  simpa using same _ _ htogether

theorem together_of_cursor {S : Schema} {ps : List Position} {p q : Position} (hp : p ∈ ps) (hq : q ∈ ps)
    (h : p.2.cursor = q.2.cursor) : Together P S ps p q :=
  .rel _ _ ⟨List.mem_map_of_mem hp, List.mem_map_of_mem hq, .inl (by simpa using h)⟩

theorem withTies_closed {n : Nat} {rows : List Position} {p q : Position} (hp : p ∈ withTies n rows) (hq : q ∈ rows)
    (hle : q.2.cursor ≤ p.2.cursor) : q ∈ withTies n rows := by
  unfold withTies at hp ⊢
  split at hp
  · exact hq
  · have hp' := (List.mem_filter.1 hp).2
    simp only [decide_eq_true_eq] at hp'
    exact List.mem_filter.2 ⟨hq, by simpa using le_trans hle hp'⟩

section
variable {S : Schema} {selected : List String} {after : Nat} {ps : List Position}

/-- **A bounded query cuts no component**, and its components are those of the full one. -/
theorem candidates_component (h : candidates P v after selected [] (cursorPageSize S) = .ok ps) {p q : Position} (hp : p ∈ ps) :
    (q ∈ ps ∧ Together P S ps p q) ↔
      (q ∈ candidateRows P v after selected [] ∧ Together P S (candidateRows P v after selected []) p q) := by
  simp only [candidates, bind_ok, pure_ok] at h
  obtain ⟨_, -, rfl⟩ := h
  cases hsize : cursorPageSize S with
  | none => exact Iff.rfl
  | some size =>
    rw [hsize] at hp
    simp only at hp ⊢
    constructor
    · rintro ⟨hq, htogether⟩
      exact ⟨withTies_subset hq,
        together_of_cursor (withTies_subset hp) (withTies_subset hq) (together_cursor hsize htogether)⟩
    · rintro ⟨hq, htogether⟩
      have hcur := together_cursor hsize htogether
      have hin := withTies_closed hp hq (le_of_eq hcur.symm)
      exact ⟨hin, together_of_cursor hp hin hcur⟩

/-- A record of the view that a query may return. -/
theorem candidates_rows {pageSize : Option Nat} (h : candidates P v after selected [] pageSize = .ok ps) {p : Position}
    (hp : p ∈ ps) : p ∈ candidateRows P v after selected [] := by
  simp only [candidates, bind_ok, pure_ok] at h
  obtain ⟨_, -, rfl⟩ := h
  cases pageSize with
  | none => exact hp
  | some size => exact withTies_subset hp

/-- A page holds its candidates up to the position it covers and nothing else. -/
theorem mem_page_iff {pageSize : Option Nat} {through covered : Nat} {page : List Position}
    (h : candidates P v after selected [] pageSize = .ok ps)
    (hpage : pagePositions P S ps after (provenThrough pageSize ps through) v.head = .ok (page, covered)) {p : Position}
    (hle : p.2.cursor ≤ covered) : p ∈ page ↔ p ∈ candidateRows P v after selected [] := by
  obtain ⟨hcov, hsub, hkeep⟩ := pagePositions_complete hpage
  constructor
  · intro hp
    exact candidates_rows h (hsub p hp)
  · intro hp
    obtain ⟨hv, hlt, hm⟩ := mem_candidateRows.1 hp
    have hmodel : p.1.model ∈ selected := by simpa using hm
    exact hkeep p (candidates_complete h hv hlt hmodel (le_trans hle hcov)) hlt hle

/-- **Page selection is sound**: a page advances, covers what it holds, holds whole components, at most 500 changes or one
component, and agrees with the page of the full query as far as both reach. -/
theorem page_selection_sound {through : Nat} (hhead : counter v.head = true) (hkeys : ∀ p ∈ v.rows, p.1.validate = .ok ())
    (htexts : (v.rows.map (·.1.encoded P)).Nodup) (hrange : after ≤ through) (hthrough : through ≤ v.head)
    (h : candidates P v after selected [] (cursorPageSize S) = .ok ps) :
    ∃ page covered,
      pagePositions P S ps after (provenThrough (cursorPageSize S) ps through) v.head = .ok (page, covered) ∧
      covered ≤ through ∧ (after < through → after < covered) ∧
      (∀ p ∈ candidateRows P v after selected [], p.2.cursor ≤ covered → p ∈ page) ∧
      (∀ p ∈ page, p ∈ candidateRows P v after selected []) ∧
      (∀ p ∈ page, ∀ q ∈ candidateRows P v after selected [],
        Together P S (candidateRows P v after selected []) p q → q ∈ page) ∧
      (page.length ≤ 500 ∨ ∀ p ∈ page, ∀ q ∈ page, Together P S (candidateRows P v after selected []) p q) ∧
      ∀ full page' covered', candidates P v after selected [] none = .ok full →
        pagePositions P S full after (provenThrough none full through) v.head = .ok (page', covered') →
        ∀ p : Position, p.2.cursor ≤ min covered covered' → (p ∈ page ↔ p ∈ page') := by
  have positions := candidates_positions htexts h
  obtain ⟨hproven, hle, hlt⟩ := provenThrough_range (cursorPageSize S) positions hrange
  obtain ⟨page, covered, hpage, hsub, -, hadv⟩ := pagePositions_total (P := P) S positions hhead hkeys hproven
    (le_trans hle hthrough)
  refine ⟨page, covered, hpage, le_trans (pagePositions_complete hpage).1 hle, fun hlt' => hadv (hlt hlt'),
    fun p hp hcov => (mem_page_iff h hpage hcov).2 hp, fun p hp => candidates_rows h (hsub.subset hp),
    fun p hp q hq htogether => ?_, ?_, ?_⟩
  · obtain ⟨hin, htogether'⟩ := (candidates_component h (hsub.subset hp)).2 ⟨hq, htogether⟩
    exact page_whole positions hpage hp hin htogether'
  · refine (page_small positions hpage).imp_right fun hone p hp q hq => ?_
    exact ((candidates_component h (hsub.subset hp)).1 ⟨hsub.subset hq, hone p hp q hq⟩).2
  · intro full page' covered' hfull hpage' p hp
    rw [mem_page_iff h hpage (by omega), mem_page_iff hfull hpage' (by omega)]

end

end Server

/-- The page of both notes from position 5 on. -/
theorem page_selection_sound_shelf : ∃ ps page covered,
    Server.candidates Notes.platform Notes.shelf 5 ["note"] [] (Server.cursorPageSize Notes.schema) = .ok ps ∧
      Server.pagePositions Notes.platform Notes.schema ps 5
        (Server.provenThrough (Server.cursorPageSize Notes.schema) ps 7) 7 = .ok (page, covered) ∧ 5 < covered := by
  obtain ⟨ps, hps⟩ := Server.candidates_capacity (P := Notes.platform) (v := Notes.shelf) 5 ["note"]
    (Server.cursorPageSize Notes.schema) (by decide)
  obtain ⟨page, covered, hpage, -, hadv, -⟩ := Server.page_selection_sound (S := Notes.schema) (by decide) (by decide +kernel)
    (by decide +kernel) (by decide : 5 ≤ 7) (by decide) hps
  exact ⟨ps, page, covered, hps, hpage, hadv (by decide)⟩

end Axton
