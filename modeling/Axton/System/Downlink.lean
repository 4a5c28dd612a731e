import Axton.Client.Coverage
import Axton.Server.Page

/-!
# The downlink

A Stream of the server, the deliveries it has answered with, and one client store. The server
publishes and answers at its current view; a delivery it once made may be lost, or received at any
later time, any number of times and in any order. The client applies units from whatever queue of
received plans it has, makes its other calls, loses transactions and reopens.

The result is `coverage_sound`: what the client's cursors claim, its evidence has.

The proof keeps four facts about a reachable state. Every delivery is a page of an earlier view
(`pages`). Evidence holds only positions where the record really stood (`Attested`). A progress row
says how far its plan's units are staged (`Answered`). And the claimed prefix is reached (`covered`).
-/

namespace Axton

namespace Downlink

/-- The server's view, its deliveries so far and the client. -/
structure State where
  view : View
  pages : List FrozenDelivery
  transfers : List FrozenDelivery
  client : Client

section
variable (P : Platform) (H : Hashes) (config : Server.Config) (m : String)

/-- A plan of a delivery: which of its parts are staged is free. -/
structure Staged (p : Plan) (f : FrozenDelivery) : Prop where
  header : p.header = f.header
  parts : ∀ k d, p.parts.get k = some d → d ∈ f.parts ∧ (d.unit, d.part) = k

/-- A queue of received deliveries: how far each plan is staged, and which of its parts it has, is free. -/
def Received (s : State) (q : DeliveryQueue) : Prop :=
  q.Admitted ∧ ∀ e ∈ q, (e.2.owner = none → ∃ f ∈ s.pages, Staged e.2 f) ∧
    (e.2.owner ≠ none → ∃ f ∈ s.transfers, Staged e.2 f)

/-- The client's calls under one materialization: deliveries come from the server, and the store is
reopened with schemas of materialization `m` only. -/
def Allowed (s : State) : Call → Prop
  | .deliver _ q => Received s q
  | .authority _ _ _ => False
  | .reopen S _ projection => H.materializationId S projection = m
  | _ => True

/-- One step of the system. -/
inductive Step : State → State → Prop
  | publish (s : State) (p : View.Publication s.view) : Step s { s with view := s.view.publish p }
  | page (s : State) {r : DeltaRequest} {planId : String} {now : Nat} {f : FrozenDelivery} :
      Server.processDelivery P H config s.view r planId now = .ok f → Step s { s with pages := f :: s.pages }
  | live (s : State) {r : DeltaRequest} {planId : String} {now : Nat} {f : FrozenDelivery} :
      Server.processLive P H config s.view r planId now = .ok f → Step s { s with pages := f :: s.pages }
  | transfer (s : State) {results : List MutationResult} {r : MaterializationRequest} {planId : String} {now : Nat}
      {f : FrozenDelivery} : Server.processMaterialization P H config s.view results r planId now = .ok f →
      Step s { s with transfers := f :: s.transfers }
  | client (s : State) {e : Event} {c : Client} : Client.Step P H s.client e c → Allowed H m s e.call →
      Step s { s with client := c }

/-- A run of the system. -/
def Runs : State → State → Prop := Relation.ReflTransGen (Step P H config m)

end

/-! ## Evidence of real positions -/

/-- The record stood at this position, in some view up to now. -/
def Stood (w : View) (k : RecordKey) (cursor : Nat) (kind : PositionKind) : Prop :=
  ∃ v e, View.Before v w ∧ v.get k = some e ∧ e.cursor = cursor ∧ e.kind = kind

theorem Stood.later {v w : View} {k : RecordKey} {cursor : Nat} {kind : PositionKind} (h : Stood v k cursor kind)
    (hw : View.Before v w) : Stood w k cursor kind := by
  obtain ⟨u, e, hu, he⟩ := h
  exact ⟨u, e, hu.trans hw, he⟩

/-- An earlier position is below the current one, or is the current one. -/
theorem Stood.le {w : View} {k : RecordKey} {cursor : Nat} {kind : PositionKind} {e : Entry}
    (h : Stood w k cursor kind) (he : w.get k = some e) : cursor < e.cursor ∨ (cursor = e.cursor ∧ kind = e.kind) := by
  obtain ⟨v, e', hv, he', rfl, rfl⟩ := h
  rcases hv.le_cursor he' he with rfl | hlt
  · exact .inr ⟨rfl, rfl⟩
  · exact .inl hlt

/-- Evidence taken from the Stream, in one materialization. -/
structure Attested (m : String) (w : View) (k : RecordKey) (e : RecordEvidence) : Prop where
  nodup : (e.history.map (·.1)).Nodup
  history : ∀ r ∈ e.history, r.1 = m ∧ Stood w k r.2 .upsert
  live : ∀ p, e.membership = some p → p.live = true → p.cursor ≤ e.latest
  removed : ∀ p, e.membership = some p → p.live = false → Stood w k p.cursor .remove

namespace Attested

variable {m : String} {w w' : View} {k : RecordKey} {e e' : RecordEvidence}

theorem empty (m : String) (w : View) (k : RecordKey) : Attested m w k {} where
  nodup := List.nodup_nil
  history r hr := by cases hr
  live p hp := by cases hp
  removed p hp := by cases hp

theorem later (h : Attested m w k e) (hw : View.Before w w') : Attested m w' k e where
  nodup := h.nodup
  history r hr := ⟨(h.history r hr).1, (h.history r hr).2.later hw⟩
  live := h.live
  removed p hp hl := (h.removed p hp hl).later hw

theorem released (h : Attested m w k e) (hr : e.Released e') : Attested m w k e' where
  nodup := by rw [hr.history]; exact h.nodup
  history := by rw [hr.history]; exact h.history
  live p hp hl := by
    rw [hr.membership] at hp
    unfold RecordEvidence.latest
    rw [hr.history]
    exact h.live p hp hl
  removed p hp := by
    rw [hr.membership] at hp
    exact h.removed p hp

/-- One move of evidence by a change that stands in the Stream. -/
theorem step {changes : List AuthorityChange} (h : Attested m w k e)
    (hc : ∀ c ∈ changes, c.key = k → ∃ v x, View.Before v w ∧ v.get k = some x ∧ Server.Carries k x c)
    (hs : EvidenceStep m changes k e e') : Attested m w k e' := by
  cases hs with
  | release => exact h.released (.inr rfl)
  | @install cursor state deleted _ _ hmem hi =>
    obtain ⟨v, x, hv, hx, hcarry⟩ := hc _ hmem rfl
    have hstood : Stood w k cursor .upsert := by
      cases hcarry with
      | record _ hkind => exact ⟨v, x, hv, hx, rfl, hkind⟩
    have hlatest := RecordEvidence.latest_install hi
    obtain ⟨a, ha, hne, rfl⟩ := RecordEvidence.install_cases hi
    have hle := RecordEvidence.admission_latest ha hne
    refine ⟨Table.nodup_set h.nodup _ _, ?_, ?_, ?_⟩
    · intro r hr
      rcases Table.mem_set hr with rfl | hr
      · exact ⟨rfl, hstood⟩
      · exact h.history r hr
    · intro p hp hl
      rw [hlatest]
      simp only [RecordEvidence.installed] at hp
      split at hp
      · cases hp
        exact le_refl _
      · exact le_trans (h.live p hp hl) hle
    · intro p hp hl
      simp only [RecordEvidence.installed] at hp
      split at hp
      · cases hp
        cases hl
      · exact h.removed p hp hl
  | @remove cursor _ _ hmem hr =>
    obtain ⟨v, x, hv, hx, hcarry⟩ := hc _ hmem rfl
    have hstood : Stood w k cursor .remove := by
      cases hcarry with
      | remove hkind => exact ⟨v, x, hv, hx, rfl, hkind⟩
    obtain ⟨-, hmembership, hhistory⟩ := RecordEvidence.remove_cases hr
    refine ⟨by rw [hhistory]; exact h.nodup, by rw [hhistory]; exact h.history, ?_, ?_⟩
    · intro p hp hl
      rw [hmembership] at hp
      cases hp
      cases hl
    · intro p hp _
      rw [hmembership] at hp
      cases hp
      exact hstood

theorem steps {changes : List AuthorityChange} (h : Attested m w k e)
    (hc : ∀ c ∈ changes, c.key = k → ∃ v x, View.Before v w ∧ v.get k = some x ∧ Server.Carries k x c)
    (hs : Relation.ReflTransGen (EvidenceStep m changes k) e e') : Attested m w k e' := by
  induction hs with
  | refl => exact h
  | tail _ hstep ih => exact ih.step hc hstep

/-- No evidence is ahead of the Stream. -/
theorem latest_le {x : Entry} (h : Attested m w k e) (hx : w.get k = some x) : e.latest ≤ x.cursor := by
  rcases Nat.eq_zero_or_pos e.latest with hz | hpos
  · omega
  · obtain ⟨m', hm'⟩ := maxHistory_mem hpos
    rcases (h.history _ hm').2.le hx with hlt | ⟨heq, -⟩
    · exact le_of_lt hlt
    · exact le_of_eq heq

end Attested

/-- The evidence covers the position: the content is installed, or the removal recorded. -/
def Covers (m : String) (e : RecordEvidence) (x : Entry) : Prop :=
  match x.kind with
  | .upsert => e.history.get m = some x.cursor
  | .remove => e.membership = some ⟨x.cursor, false⟩

/-- **Attested evidence that reaches the current position covers it.** -/
theorem Attested.covers {m : String} {w : View} {k : RecordKey} {e : RecordEvidence} {x : Entry}
    (h : Attested m w k e) (hx : w.get k = some x) (hreach : x.cursor ≤ e.reached) : Covers m e x := by
  have hpos := (w.bounded _ (View.mem_of_get hx)).1
  simp only at hpos
  -- content at the current position is content of an upsert
  have content : e.latest = x.cursor → Covers m e x := by
    intro heq
    obtain ⟨m', hm'⟩ := maxHistory_mem (h := e.history) (by unfold RecordEvidence.latest at heq; omega)
    unfold RecordEvidence.latest at heq
    rw [heq] at hm'
    obtain ⟨rfl, hstood⟩ := h.history _ hm'
    rcases hstood.le hx with hlt | ⟨-, hkind⟩
    · simp only at hlt
      omega
    · unfold Covers
      rw [← hkind]
      exact Table.get_of_mem h.nodup hm'
  have hlatest := h.latest_le hx
  unfold RecordEvidence.reached at hreach
  by_cases hl : x.cursor ≤ e.latest
  · exact content (by omega)
  · cases hm : e.membership with
    | none =>
      rw [hm] at hreach
      simp only [Option.map_none, Option.getD_none] at hreach
      omega
    | some p =>
      rw [hm] at hreach
      simp only [Option.map_some, Option.getD_some] at hreach
      cases hlive : p.live with
      | true =>
        have := h.live p hm hlive
        omega
      | false =>
        rcases (h.removed p hm hlive).le hx with hlt | ⟨heq, hkind⟩
        · omega
        · unfold Covers
          rw [← hkind]
          simp only
          rw [hm, ← heq, ← hlive]

/-! ## The invariant -/

/-- The units a progress row has passed are staged. -/
def Answered (s : Store) (p : DeliveryProgressRow) : Prop :=
  ∀ i man, p.digest.of.units[i]? = some man → i < p.nextUnit →
    ∀ c ∈ man.digest.of.changes, c.cursor ≤ (s.evidence c.key).reached

section
variable (H : Hashes) (config : Server.Config) (m : String)

/-- What the cursors of a store claim of a record at position `p`: the normal prefix after the start
for every model of the materialization, the bootstrap prefix for its bootstrap models. -/
def Claimed (row : StoreRow) (k : RecordKey) (p : Nat) : Prop :=
  (∃ models start c, Server.selection H config m false = .ok models ∧ k.model ∈ models ∧
    row.startCursor = some start ∧ row.cursor = some c ∧ start < p ∧ p ≤ c) ∨
  ∃ models b, Server.selection H config m true = .ok models ∧ k.model ∈ models ∧ row.bootstrapCursor = some b ∧ p ≤ b

structure Inv (s : State) : Prop where
  enabled : s.client.store.row.materialization = m
  desired : s.client.store.row.desiredMaterialization = m
  pages : ∀ f ∈ s.pages, ∃ v r selected us, View.Before v s.view ∧
    Server.selection H config r.context.materialization r.bootstrap = .ok selected ∧ Server.Page v r selected f us
  transfers : ∀ f ∈ s.transfers, f.header.owner ≠ none ∧ f.header.bootstrap = false ∧
    ∃ v us, View.Before v s.view ∧ Server.Authentic v f us
  attested : ∀ k, Attested m s.view k (s.client.store.evidence k)
  answered : ∀ e ∈ s.client.store.progress, Answered s.client.store e.2
  -- a cursor lies in the Stream, or is still the stamp of the handshake
  cursor : ∀ c, s.client.store.row.cursor = some c → c ≤ s.view.head ∨ s.client.store.row.startCursor = some c
  bootstrap : ∀ b, s.client.store.row.bootstrapCursor = some b → b ≤ s.view.head
  covered : ∀ k x, s.view.get k = some x → Claimed H config m s.client.store.row k x.cursor →
    x.cursor ≤ (s.client.store.evidence k).reached

end

variable {P : Platform} {H : Hashes} {config : Server.Config} {m : String} {s : State}

theorem Answered.mono {a b : Store} {p : DeliveryProgressRow} (h : Answered a p)
    (hle : ∀ k, (a.evidence k).reached ≤ (b.evidence k).reached) : Answered b p :=
  fun i man hman hi c hc => le_trans (h i man hman hi c hc) (hle c.key)

theorem Claimed.congr {r r' : StoreRow} {k : RecordKey} {p : Nat} (h : Claimed H config m r k p)
    (hr : r.cursors = r'.cursors) : Claimed H config m r' k p := by
  obtain ⟨hS, hB, hC⟩ := cursors_ext hr
  unfold Claimed at h ⊢
  rw [hS, hB, hC] at h
  exact h

/-! ## The server's steps -/

theorem Inv.publish (inv : Inv H config m s) (p : View.Publication s.view) :
    Inv H config m { s with view := s.view.publish p } := by
  have before := View.before_publish s.view p
  refine ⟨inv.enabled, inv.desired, ?_, ?_, fun k => (inv.attested k).later before, inv.answered, ?_, ?_, ?_⟩
  · intro f hf
    obtain ⟨v, r, selected, us, hv, h⟩ := inv.pages f hf
    exact ⟨v, r, selected, us, hv.trans before, h⟩
  · intro f hf
    obtain ⟨ho, hb, v, us, hv, h⟩ := inv.transfers f hf
    exact ⟨ho, hb, v, us, hv.trans before, h⟩
  · intro c hc
    rcases inv.cursor c hc with h | h
    · exact .inl (le_trans h before.head)
    · exact .inr h
  · intro b hb
    exact le_trans (inv.bootstrap b hb) before.head
  · intro k x hx hclaim
    rcases before.get k with same | ⟨x', hx', hlt⟩
    · exact inv.covered k x (by rw [← same]; exact hx) hclaim
    · -- a record just published is ahead of everything claimed
      have hxx : x' = x := by
        have hboth : some x' = some x := hx'.symm.trans hx
        exact Option.some.inj hboth
      subst hxx
      exfalso
      rcases hclaim with ⟨_, start, c, -, -, hS, hC, hlow, hhigh⟩ | ⟨_, b, -, -, hB, hhigh⟩
      · rcases inv.cursor c hC with h | h
        · omega
        · have hboth := hS.symm.trans h
          cases hboth
          omega
      · have := inv.bootstrap b hB
        omega

theorem Inv.page (inv : Inv H config m s) {r : DeltaRequest} {planId : String} {now : Nat} {f : FrozenDelivery}
    (h : Server.processDelivery P H config s.view r planId now = .ok f) :
    Inv H config m { s with pages := f :: s.pages } where
  __ := inv
  pages g hg := by
    rcases List.mem_cons.1 hg with rfl | hg
    · obtain ⟨selected, us, hsel, hpage⟩ := Server.processDelivery_page h
      exact ⟨s.view, r, selected, us, .refl _, hsel, hpage⟩
    · exact inv.pages g hg

theorem Inv.live (inv : Inv H config m s) {r : DeltaRequest} {planId : String} {now : Nat} {f : FrozenDelivery}
    (h : Server.processLive P H config s.view r planId now = .ok f) :
    Inv H config m { s with pages := f :: s.pages } := by
  simp only [Server.processLive, bind_ok] at h
  obtain ⟨_, _, h⟩ := h
  exact inv.page h

theorem Inv.transfer (inv : Inv H config m s) {results : List MutationResult} {r : MaterializationRequest}
    {planId : String} {now : Nat} {f : FrozenDelivery}
    (h : Server.processMaterialization P H config s.view results r planId now = .ok f) :
    Inv H config m { s with transfers := f :: s.transfers } where
  __ := inv
  transfers g hg := by
    rcases List.mem_cons.1 hg with rfl | hg
    · obtain ⟨⟨us, hus⟩, ho, hb⟩ := Server.processMaterialization_authentic h
      exact ⟨by rw [ho]; exact Option.some_ne_none _, hb, s.view, us, .refl _, hus⟩
    · exact inv.transfers g hg

/-! ## The client's steps that install nothing -/

/-- A step of the client that only releases, and moves no cursor except by the handshake's stamp. -/
theorem Inv.unmoved (inv : Inv H config m s) {c : Client}
    (hev : ∀ k, (s.client.store.evidence k).Released (c.store.evidence k))
    (hprog : ∀ e ∈ c.store.progress, e ∈ s.client.store.progress)
    (hm : c.store.row.materialization = m) (hd : c.store.row.desiredMaterialization = m)
    (hcur : c.store.row.cursors = s.client.store.row.cursors ∨
      ∃ start, c.store.row.cursors = (some start, s.client.store.row.bootstrapCursor, some start)) :
    Inv H config m { s with client := c } := by
  have hreach : ∀ k, (c.store.evidence k).reached = (s.client.store.evidence k).reached := by
    intro k
    rcases hev k with e | e <;> rw [e]
    exact RecordEvidence.release_reached _
  refine ⟨hm, hd, inv.pages, inv.transfers, fun k => (inv.attested k).released (hev k), ?_, ?_, ?_, ?_⟩
  · intro e he
    exact (inv.answered e (hprog e he)).mono fun k => le_of_eq (hreach k).symm
  · intro v hv
    rcases hcur with h | ⟨start, h⟩
    · obtain ⟨hS, -, hC⟩ := cursors_ext h
      rw [hC] at hv
      rw [hS]
      exact inv.cursor v hv
    · obtain ⟨hS, -, hC⟩ := cursors_ext h
      rw [hC] at hv
      rw [hS]
      exact .inr hv
  · intro b hb
    have hB : c.store.row.bootstrapCursor = s.client.store.row.bootstrapCursor := by
      rcases hcur with h | ⟨start, h⟩
      · exact (cursors_ext h).2.1
      · exact (cursors_ext h).2.1
    rw [hB] at hb
    exact inv.bootstrap b hb
  · intro k x hx hclaim
    rw [hreach]
    rcases hcur with h | ⟨start, h⟩
    · exact inv.covered k x hx (hclaim.congr h)
    · obtain ⟨hS, hB, hC⟩ := cursors_ext h
      rcases hclaim with ⟨_, st, v, -, -, hst, hv, hlow, hhigh⟩ | ⟨models, b, hsel, hmodel, hb, hhigh⟩
      · -- the stamp claims nothing after itself
        rw [hS] at hst
        rw [hC] at hv
        cases hst
        cases hv
        omega
      · rw [hB] at hb
        exact inv.covered k x hx (.inr ⟨models, b, hsel, hmodel, hb, hhigh⟩)

/-! ## Units -/

/-- The units of an owned plan are those of its header. -/
theorem ownedUnits_mem {p : Plan} {units : List DeliveryUnit} (h : Engine.ownedUnits p = .ok (some units)) {u : DeliveryUnit}
    (hu : u ∈ units) : ∃ i, p.unit i = .ok (some u) := by
  simp only [Engine.ownedUnits, bind_ok, pure_ok] at h
  obtain ⟨loaded, hload, hall⟩ := h
  rw [mapM_ok] at hload
  have hmem : some u ∈ loaded := by
    clear hload
    induction loaded generalizing units with
    | nil => cases hall; cases hu
    | cons o rest ih =>
      simp only [List.mapM_cons, id] at hall
      cases o with
      | none => cases hall
      | some w =>
        cases hrest : rest.mapM id with
        | none => simp [hrest] at hall
        | some ws =>
          simp [hrest] at hall
          subst hall
          rcases List.mem_cons.1 hu with rfl | hu
          · exact List.mem_cons_self
          · exact List.mem_cons_of_mem _ (ih hu hrest)
  obtain ⟨i, -, hi⟩ := forall₂_mem_right hload hmem
  exact ⟨i, hi⟩

section
variable {p : Plan} {f : FrozenDelivery} {us : List DeliveryUnit} {size i : Nat}

/-- A staged part is the delivery's. -/
theorem loadPart_of_staged (hf : Frozen us size f) (hs : Staged p f) {w : DeliveryUnit} (hw : us[i]? = some w) {j : Nat}
    {l : List AuthorityChange} (h : p.loadPart (unitManifest size w) i j = .ok l) : (unitChunks size w)[j]? = some l := by
  unfold Plan.loadPart at h
  split at h
  · cases h
  · rename_i d hd
    obtain ⟨hmem, hkey⟩ := hs.parts _ _ hd
    split at h
    · cases h
    · split at h
      · cases h
        exact hf.part_eq hw hmem hkey
      · cases h

/-- A unit its plan hands out is one the delivery was frozen with. -/
theorem unit_of_staged (hf : Frozen us size f) (hs : Staged p f) {u : DeliveryUnit} (h : p.unit i = .ok (some u)) :
    us[i]? = some u := by
  unfold Plan.unit at h
  split at h
  · cases h
  · split at h
    · cases h
    · rename_i manifest hm
      simp only [bind_ok, pure_ok, Option.some.injEq] at h
      obtain ⟨chunks, hchunks, _, _, _, _, rfl⟩ := h
      rw [hs.header, hf.manifests, List.getElem?_map, Option.map_eq_some_iff] at hm
      obtain ⟨w, hw, rfl⟩ := hm
      obtain ⟨hlen, hparts⟩ := List.forall₂_iff_get.1 (mapM_ok.1 hchunks)
      have hcount : (unitManifest size w).parts.length = (unitChunks size w).length := by simp [unitManifest]
      rw [List.length_range, hcount] at hlen
      have hsame : chunks = unitChunks size w := by
        refine List.ext_getElem hlen.symm fun j hj hj' => ?_
        have hload := hparts j (by simpa [hcount] using hj') hj
        rw [List.get_eq_getElem, List.get_eq_getElem, List.getElem_range] at hload
        exact (List.getElem?_eq_some_iff.1 (loadPart_of_staged hf hs hw hload)).2.symm
      have hindex := hf.index i w hw
      rw [hw, hsame, unitChunks_flatten hf.positive, ← hindex]
      rfl

end

/-- The selected unit with the delivery it comes from. -/
inductive Source (H : Hashes) (config : Server.Config) (s : State) (x : Engine.Selected) : Prop
  | page {v : View} {r : DeltaRequest} {selected : List String} {f : FrozenDelivery} {us : List DeliveryUnit} :
      x.header = f.header → x.owned = none → View.Before v s.view →
      Server.selection H config r.context.materialization r.bootstrap = .ok selected →
      Server.Page v r selected f us → us[x.unit.index]? = some x.unit → Source H config s x
  | transfer {v : View} {f : FrozenDelivery} {us units : List DeliveryUnit} :
      x.header.owner ≠ none → x.header.bootstrap = false → x.owned = some units → View.Before v s.view →
      Server.Authentic v f us → (∀ u ∈ units, u ∈ us) → Source H config s x

theorem Inv.source (inv : Inv H config m s) {now : Nat} {q : DeliveryQueue} {x : Engine.Selected} (hq : Received s q)
    (h : Engine.choose now q s.client.store = .ok (.unit x)) : Source H config s x := by
  obtain ⟨p, hp, hh, hu, -, -, hown⟩ := Engine.choose_unit h
  rcases hown with ⟨hnone, howned⟩ | ⟨request, units, hsome, howned, hunits, -⟩
  · obtain ⟨f, hf, hpf⟩ := (hq.2 _ hp).1 hnone
    obtain ⟨v, r, selected, us, hv, hsel, hpage⟩ := inv.pages f hf
    obtain ⟨size, hfrozen⟩ := hpage.frozen
    have hindex := (Plan.unit_digest hu).1
    refine .page (hh.trans hpf.header) howned hv hsel hpage ?_
    rw [hindex]
    exact unit_of_staged hfrozen hpf hu
  · obtain ⟨f, hf, hpf⟩ := (hq.2 _ hp).2 (by rw [hsome]; exact Option.some_ne_none _)
    obtain ⟨ho, hb, v, us, hv, hauth⟩ := inv.transfers f hf
    obtain ⟨size, hfrozen⟩ := hauth.frozen
    refine .transfer (by rw [hh, hpf.header]; exact ho) (by rw [hh, hpf.header]; exact hb) howned hv hauth fun u hmem => ?_
    obtain ⟨i, hi⟩ := ownedUnits_mem hunits hmem
    exact List.mem_of_getElem? (unit_of_staged hfrozen hpf hi)

/-- The manifest of a unit that a received plan hands out. -/
theorem Inv.manifest (inv : Inv H config m s) {q : DeliveryQueue} (hq : Received s q) {e : String × Plan} (he : e ∈ q)
    {i : Nat} {u : DeliveryUnit} (hu : e.2.unit i = .ok (some u)) :
    ∃ man, e.2.header.units[i]? = some man ∧ man.digest = ⟨u⟩ := by
  have staged : ∃ f v us, Staged e.2 f ∧ Server.Authentic v f us := by
    by_cases howner : e.2.owner = none
    · obtain ⟨f, hf, hs⟩ := (hq.2 e he).1 howner
      obtain ⟨v, r, selected, us, -, -, hpage⟩ := inv.pages f hf
      exact ⟨f, v, us, hs, hpage.toAuthentic⟩
    · obtain ⟨f, hf, hs⟩ := (hq.2 e he).2 howner
      obtain ⟨-, -, v, us, -, hauth⟩ := inv.transfers f hf
      exact ⟨f, v, us, hs, hauth⟩
  obtain ⟨f, v, us, hs, hauth⟩ := staged
  obtain ⟨size, hfrozen⟩ := hauth.frozen
  rw [hs.header]
  exact hauth.holds.manifest (unit_of_staged hfrozen hs hu)

/-- Every change a unit's transaction stages stood in the Stream. -/
theorem Source.carried {x : Engine.Selected} (h : Source H config s x) :
    ∀ c ∈ x.changes, ∃ v e, View.Before v s.view ∧ v.get c.key = some e ∧ Server.Carries c.key e c := by
  intro c hc
  cases h with
  | @page v r selected f us _ howned hv _ hpage hunit =>
    have hmem : c ∈ x.unit.changes := by simpa [Engine.Selected.changes, howned] using hc
    obtain ⟨e, he, hcarry⟩ := hpage.carried x.unit (List.mem_of_getElem? hunit) c hmem
    exact ⟨v, e, hv, he, hcarry⟩
  | @transfer v f us units _ _ howned hv hauth hsub =>
    have hmem : c ∈ units.flatMap (·.changes) := by simpa [Engine.Selected.changes, howned] using hc
    obtain ⟨u, hu, hcu⟩ := List.mem_flatMap.1 hmem
    obtain ⟨e, he, hcarry⟩ := hauth.carried u (hsub u hu) c hcu
    exact ⟨v, e, hv, he, hcarry⟩

section
variable {E : Engine} {now : Nat} {x : Engine.Selected} {r : Option ApplyReport × Nat} {t : Store}

theorem UnitApplied.reached_le (a : E.UnitApplied now x r s.client.store t) (k : RecordKey) :
    (s.client.store.evidence k).reached ≤ (t.evidence k).reached :=
  EvidenceStep.reached_le_of_chain (a.evidence k)

theorem Inv.context (inv : Inv H config m s) (a : E.UnitApplied now x r s.client.store t) :
    x.header.context.materialization = m := by
  have hrow : a.keyed.row = s.client.store.row := a.staged_row
  have hsame : a.keyed.row.desiredMaterialization = a.keyed.row.materialization := by
    rw [hrow, inv.desired, inv.enabled]
  rw [admitStaging_unpending hsame a.admission, hrow, inv.enabled]

/-- The units before the one applied are staged already. -/
theorem Inv.earlier (inv : Inv H config m s) (a : E.UnitApplied now x r s.client.store t) (hvalid : x.header.validate = .ok ())
    {i : Nat} {man : UnitManifest} (hman : x.header.units[i]? = some man) (hi : i < x.unit.index) :
    ∀ c ∈ man.digest.of.changes, c.cursor ≤ (s.client.store.evidence c.key).reached := by
  have hnext := a.next
  cases hsaved : (Engine.expireProgress now s.client.store).progress.get x.id with
  | none =>
    rw [hsaved] at hnext
    simp only [Option.map_none, Option.getD_none] at hnext
    omega
  | some p =>
    rw [hsaved] at hnext
    simp only [Option.map_some, Option.getD_some] at hnext
    have hmem : (x.id, p) ∈ s.client.store.progress := (List.mem_filter.1 (Table.mem_of_get hsaved)).1
    refine inv.answered _ hmem i man ?_ (show i < p.nextUnit by omega)
    simp only [a.digest p hsaved, DeliveryHeader.validate_digest hvalid]
    exact hman

/-- **A page's boundary is covered.** A record that now stands in the range up to the boundary of the
unit just applied is a change of this unit or of an earlier one. -/
theorem Inv.boundary (inv : Inv H config m s) (a : E.UnitApplied now x r s.client.store t) {v : View} {q : DeltaRequest}
    {selected : List String} {f : FrozenDelivery} {us : List DeliveryUnit} (hh : x.header = f.header)
    (howned : x.owned = none) (hv : View.Before v s.view) (hpage : Server.Page v q selected f us)
    (hunit : us[x.unit.index]? = some x.unit) {p : Nat} (hp : x.unit.through = some p)
    (hpt : ∃ e, x.header.through = some e ∧ p ≤ e) {k : RecordKey} {e : Entry} (he : s.view.get k = some e)
    (hmodel : k.model ∈ selected) (hafter : q.after < e.cursor) (hle : e.cursor ≤ p) :
    e.cursor ≤ (t.evidence k).reached := by
  obtain ⟨covered, hthrough, hhead, hcomplete⟩ := hpage.through
  have hcov : p ≤ covered := by
    obtain ⟨e', he', hpe⟩ := hpt
    rw [hh, hthrough] at he'
    cases he'
    exact hpe
  have hold : v.get k = some e := hv.get_of_le he (by omega)
  obtain ⟨u, hu, c, hc, hkey, hcursor⟩ := hcomplete k e hold hmodel hafter (by omega)
  obtain ⟨j, hj⟩ := List.getElem?_of_mem hu
  rw [← hkey, ← hcursor]
  rcases Nat.lt_trichotomy j x.unit.index with hlt | heq | hgt
  · obtain ⟨man, hman, hdigest⟩ := hpage.holds.manifest hj
    have := inv.earlier a (hh ▸ hpage.holds.valid) (by rw [hh]; exact hman) hlt c (by rw [hdigest]; exact hc)
    exact le_trans this (UnitApplied.reached_le a c.key)
  · rw [heq, hunit] at hj
    cases hj
    exact a.reached c (by simpa [Engine.Selected.changes, howned] using hc)
  · exfalso
    obtain ⟨hi, hix⟩ := List.getElem?_eq_some_iff.1 hunit
    obtain ⟨hj', hjx⟩ := List.getElem?_eq_some_iff.1 hj
    have := List.pairwise_iff_getElem.1 hpage.holds.boundary _ _ hi hj' hgt p (by rw [hix]; exact hp) c
      (by rw [hjx]; exact hc)
    omega

/-- The progress row a unit leaves is answered. -/
theorem Inv.answered_applied (inv : Inv H config m s) (a : E.UnitApplied now x r s.client.store t)
    (hvalid : x.header.validate = .ok ())
    (hman : ∃ man, x.header.units[x.unit.index]? = some man ∧ man.digest = ⟨x.unit⟩) :
    ∀ e ∈ t.progress, Answered t e.2 := by
  intro e he
  rcases a.progress e he with hold | ⟨hfinal, rfl⟩
  · exact (inv.answered e hold).mono (UnitApplied.reached_le a)
  · intro i man' hman' hi c hc
    have howned : x.owned = none := by
      cases ho : x.owned with
      | none => rfl
      | some units => simp [Engine.Selected.final, ho] at hfinal
    -- new or updated, the row names this plan and passes this unit
    have hrow : (Engine.progressRow x ((Engine.expireProgress now s.client.store).progress.get x.id)).digest =
        x.header.digest ∧
        (Engine.progressRow x ((Engine.expireProgress now s.client.store).progress.get x.id)).nextUnit = x.unit.index + 1 := by
      unfold Engine.progressRow
      cases hsaved : (Engine.expireProgress now s.client.store).progress.get x.id with
      | none => simp [Engine.Selected.next, howned]
      | some p => simp [Engine.Selected.next, howned, a.digest p hsaved]
    simp only [hrow.1, DeliveryHeader.validate_digest hvalid] at hman'
    simp only [hrow.2] at hi
    rcases Nat.lt_or_ge i x.unit.index with hlt | hge
    · exact le_trans (inv.earlier a hvalid hman' hlt c hc) (UnitApplied.reached_le a c.key)
    · have hi' : i = x.unit.index := by omega
      obtain ⟨man, hm, hdigest⟩ := hman
      have hsame : some man' = some man := by
        rw [← hman', hi']
        exact hm
      cases hsame
      rw [hdigest] at hc
      exact a.reached c (by simpa [Engine.Selected.changes, howned] using hc)

/-- The unit of a plan that may claim coverage comes from a page. -/
theorem Source.ordinary (h : Source H config s x) (ho : x.header.owner = none ∨ x.header.bootstrap = true) :
    ∃ v q selected f us, x.header = f.header ∧ x.owned = none ∧ View.Before v s.view ∧
      Server.selection H config q.context.materialization q.bootstrap = .ok selected ∧
      Server.Page v q selected f us ∧ us[x.unit.index]? = some x.unit := by
  cases h with
  | page hh howned hv hsel hpage hunit => exact ⟨_, _, _, _, _, hh, howned, hv, hsel, hpage, hunit⟩
  | transfer ho' hb _ _ _ _ =>
    rcases ho with h | h
    · exact absurd h ho'
    · rw [hb] at h
      cases h

/-- A boundary lies in the Stream. -/
theorem Source.through_le_head (h : Source H config s x) (ho : x.header.owner = none ∨ x.header.bootstrap = true) {p : Nat}
    (hpt : ∃ e, x.header.through = some e ∧ p ≤ e) : p ≤ s.view.head := by
  obtain ⟨v, q, selected, f, us, hh, -, hv, -, hpage, -⟩ := h.ordinary ho
  obtain ⟨covered, hthrough, hhead, -⟩ := hpage.through
  obtain ⟨e', he', hpe⟩ := hpt
  rw [hh, hthrough] at he'
  cases he'
  have := hv.head
  omega

/-- What a boundary adds to a claimed prefix is reached. -/
theorem Inv.advances (inv : Inv H config m s) (source : Source H config s x) (a : E.UnitApplied now x r s.client.store t)
    (ho : x.header.owner = none ∨ x.header.bootstrap = true) {models : List String}
    (hsel : Server.selection H config m x.header.bootstrap = .ok models) {p current : Nat} (hp : x.unit.through = some p)
    (hpt : ∃ e, x.header.through = some e ∧ p ≤ e) (hstart : ∀ b, x.header.after = some b → b ≤ current) {k : RecordKey}
    {e : Entry} (he : s.view.get k = some e) (hk : k.model ∈ models) (hlow : current < e.cursor) (hhigh : e.cursor ≤ p) :
    e.cursor ≤ (t.evidence k).reached := by
  obtain ⟨v, q, selected, f, us, hh, howned, hv, hsel', hpage, hunit⟩ := source.ordinary ho
  have hmodels : selected = models := by
    have hctx : q.context.materialization = m := by
      rw [← hpage.context, ← hh]
      exact inv.context a
    rw [hctx, ← hpage.bootstrap, ← hh, hsel] at hsel'
    cases hsel'
    rfl
  subst hmodels
  have hafter := hstart q.after (by rw [hh]; exact hpage.after)
  exact inv.boundary a hh howned hv hpage hunit hp hpt he hk (by omega) hhigh

/-- What coverage did to the cursors, with the boundary it moved to. -/
theorem UnitApplied.moved (a : E.UnitApplied now x r s.client.store t) :
    t.row.cursors = s.client.store.row.cursors ∨
    (x.header.bootstrap = false ∧ x.header.owner = none ∧ ∃ current p, s.client.store.row.cursor = some current ∧
      x.unit.through = some p ∧ (∀ b, x.header.after = some b → b ≤ current) ∧
      t.row.cursors = (s.client.store.row.startCursor, s.client.store.row.bootstrapCursor, some p)) ∨
    (x.header.bootstrap = true ∧ ∃ p, x.unit.through = some p ∧
      (∀ b, x.header.after = some b → b ≤ s.client.store.row.bootstrapCursor.getD 0) ∧
      t.row.cursors = (s.client.store.row.startCursor,
        some (max p (s.client.store.row.bootstrapCursor.getD 0)), s.client.store.row.cursor)) := by
  obtain ⟨hafter, hbefore⟩ := a.cursors
  obtain ⟨hS, hB, hC⟩ := cursors_ext (r := a.staged.row) hbefore
  obtain ⟨-, -, hrow | ⟨hboot, howner, current, p, hc, hp, -, hstart, hrow⟩ |
    ⟨hboot, _, _, p, -, -, -, hp, hstart, hrow⟩⟩ := cover_cases a.cover
  · exact .inl (by rw [hafter, hrow, hbefore])
  · refine .inr (.inl ⟨hboot, howner, current, p, hC ▸ hc, hp, hstart, ?_⟩)
    rw [hafter, hrow]
    simp [StoreRow.cursors, hS, hB]
  · refine .inr (.inr ⟨hboot, p, hp, by rw [← hB]; exact hstart, ?_⟩)
    rw [hafter, hrow]
    simp [StoreRow.cursors, hS, hB, hC]

/-- **Applying a received unit keeps the invariant.** -/
theorem Inv.applied (inv : Inv H config m s) {q : DeliveryQueue} (hq : Received s q)
    (hchoose : Engine.choose now q s.client.store = .ok (.unit x)) (a : E.UnitApplied now x r s.client.store t) :
    Inv H config m { s with client := s.client.published t } := by
  have source := inv.source hq hchoose
  obtain ⟨plan, hplan, hheader, hu, -⟩ := Engine.choose_unit hchoose
  have hvalid : x.header.validate = .ok () := by
    rw [hheader]
    exact (hq.1 _ hplan).valid
  have hman : ∃ man, x.header.units[x.unit.index]? = some man ∧ man.digest = ⟨x.unit⟩ := by
    rw [hheader, (Plan.unit_digest hu).1]
    exact inv.manifest hq hplan hu
  obtain ⟨hm, hd⟩ := a.unpending (by rw [inv.desired, inv.enabled])
  have keep : ∀ k e, s.view.get k = some e → Claimed H config m s.client.store.row k e.cursor →
      e.cursor ≤ (t.evidence k).reached :=
    fun k e he hc => le_trans (inv.covered k e he hc) (UnitApplied.reached_le a k)
  have attested : ∀ k, Attested m s.view k (t.evidence k) := by
    intro k
    have path := a.evidence k
    rw [inv.context a] at path
    refine (inv.attested k).steps (fun c hc hk => ?_) path
    obtain ⟨v, e, hv, he, hcarry⟩ := source.carried c hc
    rw [hk] at he hcarry
    exact ⟨v, e, hv, he, hcarry⟩
  have answered := inv.answered_applied a hvalid hman
  rcases UnitApplied.moved a with hsame | ⟨hboot, howner, current, p, hc, hp, hstart, hmoved⟩ | ⟨hboot, p, hp, hstart, hmoved⟩
  · obtain ⟨hS', hB', hC'⟩ := cursors_ext hsame
    refine ⟨hm.trans inv.enabled, hd.trans inv.desired, inv.pages, inv.transfers, attested, answered, ?_, ?_, ?_⟩
    · intro c' hc'
      have := inv.cursor c' (hC' ▸ hc')
      rw [← hS'] at this
      exact this
    · intro b hb
      exact inv.bootstrap b (hB' ▸ hb)
    · intro k e he hclaim
      exact keep k e he (hclaim.congr hsame)
  · -- the normal prefix moved to the boundary
    obtain ⟨hS', hB', hC'⟩ := cursors_ext hmoved
    have hpt := choose_through hq.1 hchoose hp
    refine ⟨hm.trans inv.enabled, hd.trans inv.desired, inv.pages, inv.transfers, attested, answered, ?_, ?_, ?_⟩
    · intro c' hc'
      have hpc : some p = some c' := hC'.symm.trans hc'
      cases hpc
      exact .inl (source.through_le_head (.inl howner) hpt)
    · intro b hb
      exact inv.bootstrap b (hB' ▸ hb)
    · intro k e he hclaim
      rcases hclaim with ⟨models, start, c', hsel, hk, hst, hc', hlow, hhigh⟩ | ⟨models, b, hsel, hk, hb, hhigh⟩
      · have hpc : some p = some c' := hC'.symm.trans hc'
        cases hpc
        have hst' : s.client.store.row.startCursor = some start := hS'.symm.trans hst
        by_cases hold : e.cursor ≤ current
        · exact keep k e he (.inl ⟨models, start, current, hsel, hk, hst', hc, hlow, hold⟩)
        · exact inv.advances source a (.inl howner) (by rw [hboot]; exact hsel) hp hpt hstart he hk (by omega) hhigh
      · exact keep k e he (.inr ⟨models, b, hsel, hk, hB'.symm.trans hb, hhigh⟩)
  · -- the bootstrap prefix moved to the boundary
    obtain ⟨hS', hB', hC'⟩ := cursors_ext hmoved
    have hpt := choose_through hq.1 hchoose hp
    refine ⟨hm.trans inv.enabled, hd.trans inv.desired, inv.pages, inv.transfers, attested, answered, ?_, ?_, ?_⟩
    · intro c' hc'
      have := inv.cursor c' (hC'.symm.trans hc')
      rw [← hS'] at this
      exact this
    · intro b hb
      have hpb : some (max p (s.client.store.row.bootstrapCursor.getD 0)) = some b := hB'.symm.trans hb
      cases hpb
      refine Nat.max_le.2 ⟨source.through_le_head (.inr hboot) hpt, ?_⟩
      cases hold : s.client.store.row.bootstrapCursor with
      | none => exact Nat.zero_le _
      | some b => exact inv.bootstrap b hold
    · intro k e he hclaim
      rcases hclaim with ⟨models, start, c', hsel, hk, hst, hc', hlow, hhigh⟩ | ⟨models, b, hsel, hk, hb, hhigh⟩
      · exact keep k e he (.inl ⟨models, start, c', hsel, hk, hS'.symm.trans hst, hC'.symm.trans hc', hlow, hhigh⟩)
      · have hpb : some (max p (s.client.store.row.bootstrapCursor.getD 0)) = some b := hB'.symm.trans hb
        cases hpb
        have hpos := (s.view.bounded _ (View.mem_of_get he)).1
        simp only at hpos
        by_cases hold : e.cursor ≤ s.client.store.row.bootstrapCursor.getD 0
        · cases hb : s.client.store.row.bootstrapCursor with
          | none =>
            rw [hb] at hold
            simp only [Option.getD_none] at hold
            omega
          | some b =>
            rw [hb] at hold
            exact keep k e he (.inr ⟨models, b, hsel, hk, hb, hold⟩)
        · exact inv.advances source a (.inr hboot) (by rw [hboot]; exact hsel) hp hpt hstart he hk (by omega) (by omega)

end

/-! ## Every run -/

/-- **A step of the client keeps the invariant.** -/
theorem Inv.client (inv : Inv H config m s) {e : Event} {c : Client} (h : Client.Step P H s.client e c)
    (hallowed : Allowed H m s e.call) : Inv H config m { s with client := c } := by
  cases Client.step_moved P H h with
  | failed _ => exact inv
  | waited _ _ _ => exact inv
  | @plain o t hplain hb _ _ =>
    have hinstalls : e.call.installs = false := by
      cases hcall : e.call with
      | authority =>
        rw [hcall] at hallowed
        cases hallowed
      | enableSchema previous desired =>
        rw [hcall] at hb
        simp [Call.body, labelled, enableSchema_unpending (inv.desired.trans inv.enabled.symm), Except.map] at hb
      | _ => rfl
    have hu := Call.unmoved hinstalls hb
    refine inv.unmoved hu.evidence hu.progress (hu.materialization.trans inv.enabled) (hu.desired.trans inv.desired) ?_
    cases hmoves : e.call.movesCursors with
    | false =>
      have hsame : t.row.cursors = s.client.store.row.cursors := Call.cursors hmoves hb
      exact .inl hsame
    | true =>
      rcases Call.movesCursors_cases hmoves with ⟨start, hx⟩ | ⟨_, _, _, hx⟩
      · rw [hx] at hb
        simp only [Call.body, labelled, map_ok, Prod.exists, Prod.mk.injEq, Engine.initializeStream, bind_ok,
          pure_ok] at hb
        obtain ⟨_, _, ⟨_, _, _, rfl⟩, _, rfl⟩ := hb
        by_cases hnone : s.client.store.row.startCursor.isNone = true
        · refine .inr ⟨start, ?_⟩
          simp [Client.published, hnone, StoreRow.cursors]
        · refine .inl ?_
          simp [Client.published, hnone, StoreRow.cursors]
      · rw [hx] at hallowed
        cases hallowed
  | @cleaned now q hcall hc _ _ =>
    have hu := Unmoved.expireProgress now s.client.store
    exact inv.unmoved hu.evidence hu.progress inv.enabled inv.desired (.inl rfl)
  | @applied now q x r t hcall hchoose hb _ _ =>
    rw [hcall] at hallowed
    rcases Engine.applyUnit_cases _ hb with ⟨-, rfl, -⟩ | ⟨⟨a⟩⟩
    · have hu := Unmoved.expireProgress now s.client.store
      exact inv.unmoved hu.evidence hu.progress inv.enabled inv.desired (.inl rfl)
    · exact inv.applied hallowed hchoose a
  | @reopened S stream projection t hcall hb _ =>
    rw [hcall] at hallowed
    simp only [reopen, bind_ok, pure_ok] at hb
    obtain ⟨_, _, _, _, _, _, _, _, _, _, _, _, _, _, rfl⟩ := hb
    exact inv.unmoved (fun _ => .refl _) (fun _ h => h) inv.enabled hallowed (.inl rfl)

theorem Inv.step {s' : State} (inv : Inv H config m s) (h : Step P H config m s s') : Inv H config m s' := by
  cases h with
  | publish p => exact inv.publish p
  | page h => exact inv.page h
  | live h => exact inv.live h
  | transfer h => exact inv.transfer h
  | client h hallowed => exact inv.client h hallowed

theorem Inv.runs {s' : State} (inv : Inv H config m s) (h : Runs P H config m s s') : Inv H config m s' := by
  induction h with
  | refl => exact inv
  | tail _ hstep ih => exact ih.step hstep

theorem inv_create {id : String} {S : Schema} {stream projection : String} {c : Client} {v : View}
    (h : create P H id S stream projection = .ok c) :
    Inv H config (H.materializationId S projection) ⟨v, [], [], c⟩ := by
  simp only [create, bind_ok, pure_ok] at h
  obtain ⟨_, _, _, _, rfl⟩ := h
  refine ⟨rfl, rfl, by simp, by simp, fun k => Attested.empty _ _ _, ?_, ?_, ?_, ?_⟩
  · intro e he
    cases he
  · intro c hc
    cases hc
  · intro b hb
    cases hb
  · intro k x _ hclaim
    rcases hclaim with ⟨_, _, _, -, -, hS, -⟩ | ⟨_, _, -, -, hB, -⟩
    · cases hS
    · cases hB

end Downlink

/-- **Coverage soundness of the downlink.** Start a fresh client store beside a Stream in any view, and
let the server publish and answer, deliveries be lost, repeated and reordered, and the client apply
what it has received, lose transactions and reopen. Whenever the store's cursors claim a record's
current position, its evidence covers it: the content at that position is installed in the
materialization, or its removal there is recorded. -/
theorem coverage_sound {P : Platform} {H : Hashes} {config : Server.Config} {id : String} {S : Schema}
    {stream projection : String} {c₀ : Client} {v₀ : View} {s : Downlink.State}
    (hcreate : create P H id S stream projection = .ok c₀)
    (hrun : Downlink.Runs P H config (H.materializationId S projection) ⟨v₀, [], [], c₀⟩ s) :
    ∀ k x, s.view.get k = some x →
      Downlink.Claimed H config (H.materializationId S projection) s.client.store.row k x.cursor →
      Downlink.Covers (H.materializationId S projection) (s.client.store.evidence k) x := by
  have start : Downlink.Inv H config (H.materializationId S projection) ⟨v₀, [], [], c₀⟩ := Downlink.inv_create hcreate
  have inv := start.runs hrun
  intro k x hx hclaim
  exact (inv.attested k).covers hx (inv.covered k x hx hclaim)

namespace Notes

/-- A Stream at position 5. -/
def quiet : View := ⟨5, [], by decide, by decide⟩

def noted : Entry := ⟨7, .upsert, some (.obj [("id", .str "a"), ("title", .str "x")])⟩

/-- Note `a` is published at position 7. -/
def publication : View.Publication quiet := ⟨7, [(noteKey "a", noted)], by decide, by decide⟩

def request : DeltaRequest := ⟨start.store.context, 5, 7, false⟩

def answer : Except String FrozenDelivery :=
  Server.processDelivery platform hashes config (quiet.publish publication) request "page" 0

theorem answer_isSome : answer.toOption.isSome = true := by decide +kernel

def frozen : FrozenDelivery := answer.toOption.get answer_isSome

/-- The page with all its parts. -/
def received : DeliveryQueue :=
  [("page", ⟨frozen.header, frozen.parts.map fun p => ((p.unit, p.part), p), 0, false, none⟩)]

def downlinked : Client := (shaken.call platform hashes {} (.deliver 0 received)).2

theorem received_admitted : received.Admitted := by
  intro e he
  rw [received, List.mem_singleton] at he
  subst he
  exact ⟨ok_of_toOption (by decide +kernel), by decide +kernel, by decide +kernel⟩

theorem downlinked_runs : Downlink.Runs platform hashes config "m-notes" ⟨quiet, [], [], start⟩
    ⟨quiet.publish publication, [frozen], [], downlinked⟩ := by
  have published : Downlink.Step platform hashes config "m-notes" ⟨quiet, [], [], start⟩
      ⟨quiet.publish publication, [], [], start⟩ := .publish ⟨quiet, [], [], start⟩ publication
  have shook : Downlink.Step platform hashes config "m-notes" ⟨quiet.publish publication, [], [], start⟩
      ⟨quiet.publish publication, [], [], shaken⟩ :=
    .client (e := shaking) ⟨quiet.publish publication, [], [], start⟩ rfl trivial
  have answered : Downlink.Step platform hashes config "m-notes" ⟨quiet.publish publication, [], [], shaken⟩
      ⟨quiet.publish publication, [frozen], [], shaken⟩ :=
    .page (f := frozen) ⟨quiet.publish publication, [], [], shaken⟩ (ok_of_toOption (Option.some_get answer_isSome).symm)
  have delivered : Downlink.Step platform hashes config "m-notes" ⟨quiet.publish publication, [frozen], [], shaken⟩
      ⟨quiet.publish publication, [frozen], [], downlinked⟩ := by
    refine .client (e := ⟨.deliver 0 received, {}, (shaken.call platform hashes {} (.deliver 0 received)).1⟩)
      ⟨quiet.publish publication, [frozen], [], shaken⟩ rfl ⟨received_admitted, ?_⟩
    intro e he
    rw [received, List.mem_singleton] at he
    subst he
    refine ⟨fun _ => ⟨frozen, List.mem_singleton.2 rfl, rfl, fun k d hd => ?_⟩, fun h => absurd rfl h⟩
    obtain ⟨p, hp, heq⟩ := List.mem_map.1 (Table.mem_of_get hd)
    cases heq
    exact ⟨hp, rfl⟩
  exact (((Relation.ReflTransGen.single published).tail shook).tail answered).tail delivered

end Notes

/-- A page of one published note moves the cursor from 5 to 7, and the note's content at 7 is
installed. -/
theorem coverage_sound_note :
    Notes.downlinked.store.row.cursor = some 7 ∧
      (Notes.downlinked.store.evidence (Notes.noteKey "a")).history.get "m-notes" = some 7 := by
  have cursor : Notes.downlinked.store.row.cursor = some 7 := by decide +kernel
  have start : Notes.downlinked.store.row.startCursor = some 5 := by decide +kernel
  refine ⟨cursor, ?_⟩
  exact coverage_sound Notes.create_start Notes.downlinked_runs (Notes.noteKey "a") Notes.noted rfl
    (.inl ⟨["note"], 5, 7, rfl, by decide, start, cursor, by decide, by decide⟩)

end Axton
