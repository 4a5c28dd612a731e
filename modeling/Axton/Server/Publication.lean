import Axton.Server.Settlement

/-!
# Publication is exact

What a settlement publishes, in terms of what was declared and of the tracking table at the second read. A host answers
`ReadTracking` with the pairs of its table that were asked for, in some order. Between two calls its table may change: only
the locks keep other transactions out, and a host that knows none is covered.

* `Declared` — what the loop over the declarations collects;
* `asked_iff`, `liveRows_spec` — what the reads ask for and what the second one leaves;
* `mem_deltas` — which pairs have a delta, and which of them move;
* `publication_exact` — every run that returns.
-/

namespace Axton.Server

namespace Settlement

/-! ## What is declared -/

section
variable (P : Platform) (config : Config)

/-- The reference names the record of this text. -/
def Names (r : RecordRef) (encoded : String) : Prop := ∃ k, resolve P config r = .ok k ∧ k.encoded P = encoded

/-- The pair is explicitly tracked. -/
def Tracked (ds : List StreamIntent) (stream encoded : String) : Prop :=
  ∃ r, StreamIntent.track stream r ∈ ds ∧ Names P config r encoded

/-- The record is changed, or invalidated for every Stream. -/
def Global (changed : List RecordKey) (ds : List StreamIntent) (encoded : String) : Prop :=
  (∃ k ∈ changed, k.encoded P = encoded) ∨ ∃ r, StreamIntent.invalidate none r ∈ ds ∧ Names P config r encoded

/-- The record is invalidated for a selection with this Stream. -/
def Selected (ds : List StreamIntent) (stream encoded : String) : Prop :=
  ∃ streams r, StreamIntent.invalidate (some streams) r ∈ ds ∧ stream ∈ streams ∧ Names P config r encoded

/-- What the loop has collected after the declarations `ds`. -/
structure Declared (changed : List RecordKey) (ds : List StreamIntent) (i : Intents) : Prop where
  nodup : (i.invalidations.map (·.1)).Nodup ∧ (i.tracks.map (·.1)).Nodup
  texts : ∀ e k, i.records.get e = some k → k.encoded P = e
  recorded : ∀ e sel, i.invalidations.get e = some sel → (i.records.get e).isSome
  tracked : ∀ s e, (i.tracks.get (s, e)).isSome ↔ Tracked P config ds s e
  trackTexts : ∀ s e k, i.tracks.get (s, e) = some k → k.encoded P = e
  invalidated : ∀ e, i.invalidations.get e = some .global ↔ Global P config changed ds e
  selects : ∀ s e, (i.invalidations.get e).any (·.selects s) = true ↔
    Global P config changed ds e ∨ Selected P config ds s e
  tracking : ∀ s e, Tracked P config ds s e → s ∈ i.named ∧ (i.records.get e).isSome
  selecting : ∀ s e, Selected P config ds s e → s ∈ i.named

end

variable {P : Platform} {config : Config} {changed : List RecordKey} {ds : List StreamIntent} {i i' : Intents}

theorem tracked_append {d : StreamIntent} {s e : String} : Tracked P config (ds ++ [d]) s e ↔
    Tracked P config ds s e ∨ ∃ r, d = .track s r ∧ Names P config r e := by
  simp only [Tracked, List.mem_append, List.mem_singleton]
  constructor
  · rintro ⟨r, h | h, hn⟩
    · exact .inl ⟨r, h, hn⟩
    · exact .inr ⟨r, h.symm, hn⟩
  · rintro (⟨r, h, hn⟩ | ⟨r, h, hn⟩)
    · exact ⟨r, .inl h, hn⟩
    · exact ⟨r, .inr h.symm, hn⟩

theorem global_append {d : StreamIntent} {e : String} : Global P config changed (ds ++ [d]) e ↔
    Global P config changed ds e ∨ ∃ r, d = .invalidate none r ∧ Names P config r e := by
  simp only [Global, List.mem_append, List.mem_singleton]
  constructor
  · rintro (h | ⟨r, h | h, hn⟩)
    · exact .inl (.inl h)
    · exact .inl (.inr ⟨r, h, hn⟩)
    · exact .inr ⟨r, h.symm, hn⟩
  · rintro ((h | ⟨r, h, hn⟩) | ⟨r, h, hn⟩)
    · exact .inl h
    · exact .inr ⟨r, .inl h, hn⟩
    · exact .inr ⟨r, .inr h.symm, hn⟩

theorem selected_append {d : StreamIntent} {s e : String} : Selected P config (ds ++ [d]) s e ↔
    Selected P config ds s e ∨ ∃ streams r, d = .invalidate (some streams) r ∧ s ∈ streams ∧ Names P config r e := by
  simp only [Selected, List.mem_append, List.mem_singleton]
  constructor
  · rintro ⟨streams, r, h | h, hs, hn⟩
    · exact .inl ⟨streams, r, h, hs, hn⟩
    · exact .inr ⟨streams, r, h.symm, hs, hn⟩
  · rintro (⟨streams, r, h, hs, hn⟩ | ⟨streams, r, h, hs, hn⟩)
    · exact ⟨streams, r, .inl h, hs, hn⟩
    · exact ⟨streams, r, .inr h.symm, hs, hn⟩

/-- A resolved reference names one record. -/
theorem names_iff {r : RecordRef} {k : RecordKey} {e : String} (h : resolve P config r = .ok k) :
    Names P config r e ↔ k.encoded P = e := by
  unfold Names
  rw [h]
  simp

/-! ### One declaration -/

theorem texts_set {t : Table String RecordKey} (h : ∀ e k, t.get e = some k → k.encoded P = e) (key : RecordKey) :
    ∀ e k, (t.set (key.encoded P) key).get e = some k → k.encoded P = e := by
  intro e k
  rw [Table.get_set]
  split
  · rintro ⟨⟩
    assumption
  · exact h e k

theorem isSome_set {V : Type} {t : Table String V} {e : String} (h : (t.get e).isSome) (e' : String) (v : V) :
    ((t.set e' v).get e).isSome := by
  rw [Table.get_set]
  split
  · rfl
  · exact h

theorem Declared.track {stream : String} {r : RecordRef} {key : RecordKey} (h : Declared P config changed ds i)
    (hkey : resolve P config r = .ok key) :
    Declared P config changed (ds ++ [.track stream r]) { i with
      named := stream :: i.named
      tracks := i.tracks.set (stream, key.encoded P) key
      records := i.records.set (key.encoded P) key } where
  nodup := ⟨h.nodup.1, Table.nodup_set h.nodup.2 _ _⟩
  texts := texts_set h.texts key
  recorded e sel hs := isSome_set (h.recorded e sel hs) _ _
  tracked s e := by
    rw [tracked_append, ← h.tracked, Table.get_set]
    split
    · rename_i heq
      cases heq
      simp [names_iff hkey]
    · rename_i hne
      constructor
      · exact .inl
      · rintro (hs | ⟨r', hr', hn⟩)
        · exact hs
        · cases hr'
          rw [names_iff hkey] at hn
          exact absurd (by rw [hn]) hne
  trackTexts s e k := by
    rw [Table.get_set]
    split
    · rename_i heq
      rintro ⟨⟩
      cases heq
      rfl
    · exact h.trackTexts s e k
  invalidated e := by
    rw [global_append, ← h.invalidated]
    simp
  selects s e := by
    rw [global_append, selected_append, h.selects]
    simp
  tracking s e ht := by
    rw [tracked_append] at ht
    rcases ht with ht | ⟨r', hr', hn⟩
    · obtain ⟨hs, he⟩ := h.tracking s e ht
      exact ⟨List.mem_cons_of_mem _ hs, isSome_set he _ _⟩
    · cases hr'
      rw [names_iff hkey] at hn
      exact ⟨List.mem_cons_self, by simp [hn]⟩
  selecting s e hs := by
    rw [selected_append] at hs
    rcases hs with hs | ⟨_, _, hd, -⟩
    · exact List.mem_cons_of_mem _ (h.selecting s e hs)
    · cases hd

theorem Declared.invalidate {r : RecordRef} {key : RecordKey} (h : Declared P config changed ds i)
    (hkey : resolve P config r = .ok key) :
    Declared P config changed (ds ++ [.invalidate none r]) { i with
      invalidations := i.invalidations.set (key.encoded P) .global
      records := i.records.set (key.encoded P) key } where
  nodup := ⟨Table.nodup_set h.nodup.1 _ _, h.nodup.2⟩
  texts := texts_set h.texts key
  recorded e sel := by
    simp only [Table.get_set]
    split
    · simp
    · exact h.recorded e sel
  tracked s e := by
    rw [tracked_append, h.tracked]
    simp
  trackTexts := h.trackTexts
  invalidated e := by
    rw [global_append, ← h.invalidated, Table.get_set]
    split
    · rename_i heq
      simp [names_iff hkey, heq]
    · rename_i hne
      simp [names_iff hkey, hne]
  selects s e := by
    rw [global_append, selected_append, Table.get_set]
    split
    · rename_i heq
      simp [names_iff hkey, heq, Selection.selects]
    · rename_i hne
      rw [h.selects]
      simp [names_iff hkey, hne]
  tracking s e ht := by
    rw [tracked_append] at ht
    rcases ht with ht | ⟨_, hd, -⟩
    · obtain ⟨hs, he⟩ := h.tracking s e ht
      exact ⟨hs, isSome_set he _ _⟩
    · cases hd
  selecting s e hs := by
    rw [selected_append] at hs
    rcases hs with hs | ⟨_, _, hd, -⟩
    · exact h.selecting s e hs
    · cases hd

/-- An empty selection adds nothing. -/
theorem Declared.skip {r : RecordRef} (h : Declared P config changed ds i) :
    Declared P config changed (ds ++ [.invalidate (some []) r]) i where
  nodup := h.nodup
  texts := h.texts
  recorded := h.recorded
  tracked s e := by
    rw [tracked_append, h.tracked]
    simp
  trackTexts := h.trackTexts
  invalidated e := by
    rw [global_append, h.invalidated]
    simp
  selects s e := by
    rw [global_append, selected_append, h.selects]
    simp
  tracking s e ht := by
    rw [tracked_append] at ht
    rcases ht with ht | ⟨_, hd, -⟩
    · exact h.tracking s e ht
    · cases hd
  selecting s e hs := by
    rw [selected_append] at hs
    rcases hs with hs | ⟨_, _, hd, hin, -⟩
    · exact h.selecting s e hs
    · cases hd
      cases hin

/-- A selection is global only where it was, and selects what it did and the new Streams. -/
theorem select_spec (i : Intents) (e : String) (streams : List String) :
    (i.select e streams = .global ↔ i.invalidations.get e = some .global) ∧
    ∀ s, (i.select e streams).selects s = true ↔ (i.invalidations.get e).any (·.selects s) = true ∨ s ∈ streams := by
  unfold Intents.select
  cases h : i.invalidations.get e with
  | none => simp [Selection.selects]
  | some sel =>
    cases sel with
    | global => simp [Selection.selects]
    | selected ss => simp [Selection.selects]

theorem Declared.select {streams : List String} {r : RecordRef} {key : RecordKey} (h : Declared P config changed ds i)
    (hkey : resolve P config r = .ok key) :
    Declared P config changed (ds ++ [.invalidate (some streams) r]) { i with
      named := streams ++ i.named
      invalidations := i.invalidations.set (key.encoded P) (i.select (key.encoded P) streams)
      records := i.records.set (key.encoded P) key } where
  nodup := ⟨Table.nodup_set h.nodup.1 _ _, h.nodup.2⟩
  texts := texts_set h.texts key
  recorded e sel := by
    simp only [Table.get_set]
    split
    · simp
    · exact h.recorded e sel
  tracked s e := by
    rw [tracked_append, h.tracked]
    simp
  trackTexts := h.trackTexts
  invalidated e := by
    rw [global_append, ← h.invalidated, Table.get_set]
    split
    · rename_i heq
      subst heq
      rw [Option.some.injEq, (select_spec i _ streams).1]
      simp
    · simp
  selects s e := by
    rw [global_append, selected_append, Table.get_set]
    split
    · rename_i heq
      subst heq
      rw [Option.any_some, (select_spec i _ streams).2, h.selects]
      simp [names_iff hkey, or_assoc]
    · rename_i hne
      rw [h.selects]
      simp [names_iff hkey, hne]
  tracking s e ht := by
    rw [tracked_append] at ht
    rcases ht with ht | ⟨_, hd, -⟩
    · obtain ⟨hs, he⟩ := h.tracking s e ht
      exact ⟨List.mem_append_right _ hs, isSome_set he _ _⟩
    · cases hd
  selecting s e hs := by
    rw [selected_append] at hs
    rcases hs with hs | ⟨_, _, hd, hin, -⟩
    · exact List.mem_append_right _ (h.selecting s e hs)
    · cases hd
      exact List.mem_append_left _ hin

theorem Declared.declare {d : StreamIntent} (h : Declared P config changed ds i) (hd : i.declare P config d = .ok i') :
    Declared P config changed (ds ++ [d]) i' := by
  simp only [Intents.declare, bind_ok] at hd
  obtain ⟨_, -, key, hkey, hd⟩ := hd
  cases d with
  | track stream r =>
    cases hd
    exact h.track hkey
  | invalidate streams r =>
    cases streams with
    | none =>
      cases hd
      exact h.invalidate hkey
    | some streams =>
      cases streams with
      | nil =>
        cases hd
        exact h.skip
      | cons s streams =>
        cases hd
        exact h.select hkey

/-! ### All of them -/

theorem changes_spec (P : Platform) (changed : List RecordKey) :
    (∀ e k, (changes P changed).get e = some k → k.encoded P = e) ∧
    ∀ e, ((changes P changed).get e).isSome ↔ ∃ k ∈ changed, k.encoded P = e := by
  suffices run : ∀ (ks : List RecordKey) (t : Table String RecordKey), (∀ e k, t.get e = some k → k.encoded P = e) →
      (∀ e k, (ks.foldl (fun t k => t.set (k.encoded P) k) t).get e = some k → k.encoded P = e) ∧
      ∀ e, ((ks.foldl (fun t k => t.set (k.encoded P) k) t).get e).isSome ↔ (t.get e).isSome ∨ ∃ k ∈ ks, k.encoded P = e by
    obtain ⟨htexts, hsome⟩ := run changed [] nofun
    exact ⟨htexts, fun e => by rw [changes, hsome]; simp [Table.get]⟩
  intro ks
  induction ks with
  | nil =>
    intro t ht
    exact ⟨ht, fun e => by simp⟩
  | cons k ks ih =>
    intro t ht
    obtain ⟨htexts, hsome⟩ := ih (t.set (k.encoded P) k) (texts_set ht k)
    refine ⟨htexts, fun e => ?_⟩
    rw [List.foldl_cons, hsome, Table.get_set]
    split
    · rename_i heq
      simp [heq]
    · rename_i hne
      simp [hne]

theorem changes_nodup (P : Platform) (changed : List RecordKey) : ((changes P changed).map (·.1)).Nodup := by
  suffices run : ∀ (ks : List RecordKey) (t : Table String RecordKey), (t.map (·.1)).Nodup →
      ((ks.foldl (fun t k => t.set (k.encoded P) k) t).map (·.1)).Nodup from run changed [] List.nodup_nil
  intro ks
  induction ks with
  | nil => intro t ht; exact ht
  | cons k ks ih => intro t ht; exact ih _ (Table.nodup_set ht _ _)

theorem get_map_global (t : Table String RecordKey) (e : String) :
    Table.get (t.map fun r => (r.1, Selection.global)) e = (t.get e).map fun _ => .global := by
  induction t with
  | nil => rfl
  | cons r t ih =>
    obtain ⟨a, k⟩ := r
    simp only [List.map_cons, Table.get]
    split
    · rfl
    · exact ih

theorem declared_start (P : Platform) (config : Config) (changed : List RecordKey) :
    Declared P config changed [] (.start (changes P changed)) where
  nodup := ⟨by simpa [Intents.start, Function.comp_def] using changes_nodup P changed, List.nodup_nil⟩
  texts := (changes_spec P changed).1
  recorded e sel := by
    simp only [Intents.start, get_map_global]
    intro h
    obtain ⟨k, hk, -⟩ := Option.map_eq_some_iff.1 h
    simp [hk]
  tracked s e := by simp [Intents.start, Table.get, Tracked]
  trackTexts s e k := by simp [Intents.start, Table.get]
  invalidated e := by
    have hsome := (changes_spec P changed).2 e
    simp only [Intents.start, get_map_global, Global, List.not_mem_nil, false_and, exists_false, or_false]
    rw [← hsome]
    cases (changes P changed).get e <;> simp
  selects s e := by
    have hsome := (changes_spec P changed).2 e
    simp only [Intents.start, get_map_global, Global, Selected, List.not_mem_nil, false_and, exists_false, or_false]
    rw [← hsome]
    cases (changes P changed).get e <;> simp [Selection.selects]
  tracking s e := by simp [Tracked]
  selecting s e := by simp [Selected]

theorem declared_intents (h : intents P config (changes P changed) ds = .ok i) : Declared P config changed ds i := by
  simp only [intents, bind_ok] at h
  obtain ⟨_, -, h⟩ := h
  suffices run : ∀ (rest seen : List StreamIntent) (i₀ : Intents), Declared P config changed seen i₀ →
      rest.foldlM (Intents.declare P config) i₀ = .ok i → Declared P config changed (seen ++ rest) i from
    run ds [] _ (declared_start P config changed) h
  intro rest
  induction rest with
  | nil =>
    intro seen i₀ h₀ hrun
    cases hrun
    simpa using h₀
  | cons d rest ih =>
    intro seen i₀ h₀ hrun
    rw [List.foldlM_cons, bind_ok] at hrun
    obtain ⟨i₁, hd, hrun⟩ := hrun
    have := ih (seen ++ [d]) i₁ (h₀.declare hd) hrun
    rwa [List.append_assoc, List.singleton_append] at this

/-! ## The reads -/

/-- The canonical text of the record a pair names. -/
def pairText (p : TrackingPair) : String := "[" ++ (quote p.model ++ ("," ++ (p.identityKey ++ "]")))

theorem pairText_inj {p q : TrackingPair} : pairText p = pairText q ↔ p.model = q.model ∧ p.identityKey = q.identityKey := by
  constructor
  · intro h
    obtain ⟨hm, hi⟩ := quote_append_inj ((String.append_right_inj _).1 h)
    exact ⟨hm, (String.append_left_inj _).1 ((String.append_right_inj _).1 hi)⟩
  · rintro ⟨hm, hi⟩
    rw [pairText, pairText, hm, hi]

theorem pairText_trackingPair (P : Platform) (s : String) (k : RecordKey) : pairText (trackingPair P s k) = k.encoded P := by
  unfold RecordKey.encoded
  rfl

theorem eq_trackingPair {s : String} {k : RecordKey} {p : TrackingPair} :
    p = trackingPair P s k ↔ p.stream = s ∧ pairText p = k.encoded P := by
  constructor
  · rintro rfl
    exact ⟨rfl, pairText_trackingPair P s k⟩
  · rintro ⟨hs, ht⟩
    rw [← pairText_trackingPair P s k, pairText_inj] at ht
    obtain ⟨stream, model, identityKey⟩ := p
    simp only [trackingPair] at ht ⊢
    simp only at hs
    rw [hs, ht.1, ht.2]

theorem recordKeyOf_text {parse : String → Option Json} {p : TrackingPair} {k : RecordKey}
    (h : recordKeyOf P parse p.model p.identityKey = .ok k) : k.encoded P = pairText p := by
  simp only [recordKeyOf, bind_ok] at h
  obtain ⟨_, -, h⟩ := h
  split at h
  · cases h
  · simp only [bind_ok, check_ok, decide_eq_true_eq] at h
    obtain ⟨_, -, _, htext, h⟩ := h
    cases h
    unfold RecordKey.encoded pairText
    rw [htext]

theorem mem_globals (h : Declared P config changed ds i) {m : MemberKey} : m ∈ i.globals P ↔
    ∃ e k, i.invalidations.get e = some .global ∧ i.records.get e = some k ∧ m = memberKey P k := by
  simp only [Intents.globals, List.mem_filterMap, List.mem_insertionSort]
  constructor
  · rintro ⟨⟨e, sel⟩, hr, hm⟩
    cases sel with
    | selected ss => cases hm
    | global =>
      obtain ⟨k, hk, hm⟩ := Option.map_eq_some_iff.1 hm
      exact ⟨e, k, Table.get_of_mem h.nodup.1 hr, hk, hm.symm⟩
  · rintro ⟨e, k, he, hk, rfl⟩
    exact ⟨(e, .global), Table.mem_of_get he, by simp [hk]⟩

theorem mem_trackPairs (h : Declared P config changed ds i) {r : (String × String) × TrackingPair} :
    r ∈ i.trackPairs P ↔ ∃ k, i.tracks.get r.1 = some k ∧ r.2 = trackingPair P r.1.1 k := by
  simp only [Intents.trackPairs, List.mem_map]
  constructor
  · rintro ⟨⟨a, k⟩, hr, rfl⟩
    exact ⟨k, Table.get_of_mem h.nodup.2 hr, rfl⟩
  · rintro ⟨k, hk, hr⟩
    exact ⟨(r.1, k), Table.mem_of_get hk, by rw [← hr]⟩

theorem mem_selectedPairs (h : Declared P config changed ds i) {r : (String × String) × TrackingPair} :
    r ∈ i.selectedPairs P ↔ ∃ ss k, i.invalidations.get r.1.2 = some (.selected ss) ∧ r.1.1 ∈ ss ∧
      i.records.get r.1.2 = some k ∧ r.2 = trackingPair P r.1.1 k := by
  simp only [Intents.selectedPairs, List.mem_flatMap]
  constructor
  · rintro ⟨⟨e, sel⟩, hr, hm⟩
    cases sel with
    | global => cases hm
    | selected ss =>
      cases hk : i.records.get e with
      | none => simp [hk] at hm
      | some k =>
        simp only [hk] at hm
        obtain ⟨s, hs, rfl⟩ := List.mem_map.1 hm
        exact ⟨ss, k, Table.get_of_mem h.nodup.1 hr, hs, hk, rfl⟩
  · rintro ⟨ss, k, hsel, hs, hk, hr⟩
    refine ⟨(r.1.2, .selected ss), Table.mem_of_get hsel, ?_⟩
    simp only [hk]
    exact List.mem_map.2 ⟨r.1.1, hs, by rw [← hr]⟩

/-- A pair is read when its record is tracked or selected in its Stream: the rows under one key are one pair. -/
theorem mem_pairs (h : Declared P config changed ds i) {p : TrackingPair} :
    p ∈ i.pairs P ↔ ((p.stream, pairText p), p) ∈ i.trackPairs P ++ i.selectedPairs P := by
  have hkeyed : ∀ r ∈ i.trackPairs P ++ i.selectedPairs P, r.2.stream = r.1.1 ∧ pairText r.2 = r.1.2 := by
    intro r hr
    rcases List.mem_append.1 hr with hr | hr
    · obtain ⟨k, hk, hp⟩ := (mem_trackPairs h).1 hr
      rw [hp, pairText_trackingPair]
      exact ⟨rfl, h.trackTexts _ _ _ hk⟩
    · obtain ⟨ss, k, -, -, hk, hp⟩ := (mem_selectedPairs h).1 hr
      rw [hp, pairText_trackingPair]
      exact ⟨rfl, h.texts _ _ hk⟩
  have hdetermined : ∀ r ∈ i.trackPairs P ++ i.selectedPairs P, ∀ r' ∈ i.trackPairs P ++ i.selectedPairs P,
      r.1 = r'.1 → r.2 = r'.2 := by
    intro r hr r' hr' heq
    obtain ⟨hs, ht⟩ := hkeyed r hr
    obtain ⟨hs', ht'⟩ := hkeyed r' hr'
    obtain ⟨hm, hi⟩ := pairText_inj.1 (ht.trans ((congrArg Prod.snd heq).trans ht'.symm))
    have hstream : r.2.stream = r'.2.stream := hs.trans ((congrArg Prod.fst heq).trans hs'.symm)
    cases hr2 : r.2
    cases hr2' : r'.2
    simp_all
  simp only [Intents.pairs, List.mem_map, List.mem_insertionSort]
  constructor
  · rintro ⟨r, hr, rfl⟩
    rcases Table.mem_setAll hr with hr | hr
    · obtain ⟨hs, ht⟩ := hkeyed r hr
      rwa [hs, ht]
    · cases hr
  · intro hp
    have hsome := (Table.isSome_setAll [] (i.trackPairs P ++ i.selectedPairs P) (p.stream, pairText p)).2
      (.inr (List.mem_map.2 ⟨_, hp, rfl⟩))
    obtain ⟨q, hq⟩ := Option.isSome_iff_exists.1 hsome
    rcases Table.mem_setAll (Table.mem_of_get hq) with hmem | hmem
    · have : q = p := hdetermined _ hmem _ hp rfl
      exact ⟨_, Table.mem_of_get hq, this⟩
    · cases hmem

/-- What the two reads ask for. -/
theorem asked_iff (h : Declared P config changed ds i) {p : TrackingPair} : asked (i.globals P) (i.pairs P) p = true ↔
    Global P config changed ds (pairText p) ∨ Tracked P config ds p.stream (pairText p) ∨
      Selected P config ds p.stream (pairText p) := by
  simp only [asked, Bool.or_eq_true, List.any_eq_true, Bool.and_eq_true, decide_eq_true_eq, List.contains_iff_mem]
  have hglobal : (∃ r ∈ i.globals P, r.model = p.model ∧ r.identityKey = p.identityKey) ↔
      Global P config changed ds (pairText p) := by
    rw [← h.invalidated]
    constructor
    · rintro ⟨r, hr, hm, hi⟩
      obtain ⟨e, k, he, hk, rfl⟩ := (mem_globals h).1 hr
      have htext : pairText p = k.encoded P := by
        rw [← pairText_trackingPair P p.stream k, pairText_inj]
        exact ⟨hm.symm, hi.symm⟩
      rw [htext, h.texts e k hk]
      exact he
    · intro he
      obtain ⟨k, hk⟩ := Option.isSome_iff_exists.1 (h.recorded _ _ he)
      have htext := h.texts _ _ hk
      rw [← pairText_trackingPair P p.stream k, pairText_inj] at htext
      exact ⟨memberKey P k, (mem_globals h).2 ⟨_, k, he, hk, rfl⟩, htext.1, htext.2⟩
  have htracked : ((p.stream, pairText p), p) ∈ i.trackPairs P ↔ Tracked P config ds p.stream (pairText p) := by
    rw [mem_trackPairs h, ← h.tracked, Option.isSome_iff_exists]
    constructor
    · rintro ⟨k, hk, -⟩
      exact ⟨k, hk⟩
    · rintro ⟨k, hk⟩
      exact ⟨k, hk, eq_trackingPair.2 ⟨rfl, (h.trackTexts _ _ _ hk).symm⟩⟩
  rw [hglobal, mem_pairs h, List.mem_append, htracked, mem_selectedPairs h]
  -- a selection that a global invalidation swallowed is asked for globally
  constructor
  · rintro (hg | ht | ⟨ss, k, hsel, hs, -, -⟩)
    · exact .inl hg
    · exact .inr (.inl ht)
    · rcases (h.selects p.stream (pairText p)).1 (by simpa [hsel, Selection.selects] using hs) with hg | hsel
      · exact .inl hg
      · exact .inr (.inr hsel)
  · rintro (hg | ht | hsel)
    · exact .inl hg
    · exact .inr (.inl ht)
    · have hany := (h.selects p.stream (pairText p)).2 (.inr hsel)
      cases hinv : i.invalidations.get (pairText p) with
      | none => simp [hinv] at hany
      | some sel =>
        cases sel with
        | global => exact .inl ((h.invalidated _).1 hinv)
        | selected ss =>
          obtain ⟨k, hk⟩ := Option.isSome_iff_exists.1 (h.recorded _ _ hinv)
          refine .inr (.inr ⟨ss, k, rfl, by simpa [hinv, Selection.selects] using hany, hk, ?_⟩)
          exact eq_trackingPair.2 ⟨rfl, (h.texts _ _ hk).symm⟩

/-- What the second read leaves: its rows by Stream and text, the globally invalidated ones all locked. -/
theorem liveRows_spec {parse : String → Option Json} {locked : List String} {rows : List TrackingPair}
    {live : Table (String × String) RecordKey} (h : i.liveRows P parse locked rows = .ok live) :
    (live.map (·.1)).Nodup ∧ (∀ s e k, live.get (s, e) = some k → k.encoded P = e) ∧
    (∀ s e, (live.get (s, e)).isSome ↔ ∃ p ∈ rows, p.stream = s ∧ pairText p = e) ∧
    ∀ p ∈ rows, i.invalidations.get (pairText p) = some .global → p.stream ∈ locked := by
  suffices run : ∀ (rows : List TrackingPair) (t : Table (String × String) RecordKey), (t.map (·.1)).Nodup →
      (∀ s e k, t.get (s, e) = some k → k.encoded P = e) →
      rows.foldlM (i.liveRow P parse locked) t = .ok live →
      (live.map (·.1)).Nodup ∧ (∀ s e k, live.get (s, e) = some k → k.encoded P = e) ∧
      (∀ s e, (live.get (s, e)).isSome ↔ (t.get (s, e)).isSome ∨ ∃ p ∈ rows, p.stream = s ∧ pairText p = e) ∧
      ∀ p ∈ rows, i.invalidations.get (pairText p) = some .global → p.stream ∈ locked by
    simpa [Table.get] using run rows [] List.nodup_nil (by simp [Table.get]) h
  intro rows
  induction rows with
  | nil =>
    intro t hn ht h
    cases h
    exact ⟨hn, ht, by simp, by simp⟩
  | cons p rows ih =>
    intro t hn ht h
    simp only [List.foldlM_cons, Intents.liveRow, bind_ok, check_ok] at h
    obtain ⟨t', ⟨key, hkey, _, hlocked, ht'⟩, h⟩ := h
    cases ht'
    have htext := recordKeyOf_text hkey
    rw [htext] at hlocked
    have hset : ∀ s e k, (t.set (p.stream, key.encoded P) key).get (s, e) = some k → k.encoded P = e := by
      intro s e k
      rw [Table.get_set]
      split
      · rename_i heq
        rintro ⟨⟩
        cases heq
        rfl
      · exact ht s e k
    obtain ⟨hnodup, htexts, hsome, hglobal⟩ := ih _ (Table.nodup_set hn _ _) hset h
    refine ⟨hnodup, htexts, fun s e => ?_, fun q hq hinv => ?_⟩
    · rw [hsome, Table.get_set, htext]
      split
      · rename_i heq
        cases heq
        simp
      · rename_i hne
        simp only [List.exists_mem_cons_iff]
        constructor
        · rintro (h | h)
          · exact .inl h
          · exact .inr (.inr h)
        · rintro (h | ⟨hs, he⟩ | h)
          · exact .inl h
          · exact absurd (by rw [hs, he]) hne
          · exact .inr h
    · rcases List.mem_cons.1 hq with rfl | hq
      · simpa [hinv] using hlocked
      · exact hglobal q hq hinv

/-! ## The deltas -/

section
variable {parse : String → Option Json} {locked : List String} {rows : List TrackingPair}
  {live : Table (String × String) RecordKey}

theorem final_nodup (h : i.liveRows P parse locked rows = .ok live) : ((live.setAll i.tracks).map (·.1)).Nodup :=
  Table.nodup_setAll (liveRows_spec h).1 _

/-- Every final pair stands under its own text. -/
theorem final_text (hd : Declared P config changed ds i) (h : i.liveRows P parse locked rows = .ok live)
    {r : (String × String) × RecordKey} (hr : r ∈ live.setAll i.tracks) : r.2.encoded P = r.1.2 := by
  obtain ⟨hn, htexts, -, -⟩ := liveRows_spec h
  rcases Table.mem_setAll hr with hr | hr
  · exact hd.trackTexts _ _ _ (Table.get_of_mem hd.nodup.2 hr)
  · exact htexts _ _ _ (Table.get_of_mem hn hr)

theorem deltas_nodup (hd : Declared P config changed ds i) (h : i.liveRows P parse locked rows = .ok live) :
    ((i.deltas live).map fun d => (d.stream, d.key.encoded P)).Nodup := by
  have hkeys : (i.deltas live).map (fun d => (d.stream, d.key.encoded P)) =
      ((live.setAll i.tracks).insertionSort fun a b => toLex a.1 ≤ toLex b.1).map (·.1) := by
    simp only [Intents.deltas, List.map_map]
    apply List.map_congr_left
    intro r hr
    simp only [Function.comp_apply, final_text hd h ((List.mem_insertionSort _).1 hr)]
  rw [hkeys]
  exact ((List.perm_insertionSort _ _).map _).nodup_iff.2 (final_nodup h)

/-- A pair has a delta when it is live or tracked, and it is published when it is new to the table or invalidated. -/
theorem mem_deltas (hd : Declared P config changed ds i) (h : i.liveRows P parse locked rows = .ok live) (s e : String) :
    ((∃ d ∈ i.deltas live, d.stream = s ∧ d.key.encoded P = e) ↔ (live.get (s, e)).isSome ∨ Tracked P config ds s e) ∧
    ((∃ d ∈ i.deltas live, d.stream = s ∧ d.key.encoded P = e ∧ d.publish = true) ↔
      ((live.get (s, e)).isSome ∨ Tracked P config ds s e) ∧
        ((live.get (s, e)).isNone ∨ (i.invalidations.get e).any (·.selects s) = true)) := by
  have hfinal : ((live.setAll i.tracks).get (s, e)).isSome ↔ (live.get (s, e)).isSome ∨ Tracked P config ds s e := by
    rw [Table.isSome_setAll, ← hd.tracked, Table.get_isSome_iff (t := i.tracks)]
  have hmem : ∀ d, d ∈ i.deltas live ↔ ∃ r ∈ live.setAll i.tracks,
      d = ⟨r.1.1, r.2, (live.get r.1).isNone || (i.invalidations.get r.1.2).any (·.selects r.1.1)⟩ := by
    intro d
    simp only [Intents.deltas, List.mem_map, List.mem_insertionSort, eq_comm]
  rw [← hfinal, Option.isSome_iff_exists]
  constructor
  · constructor
    · rintro ⟨d, hdel, rfl, rfl⟩
      obtain ⟨r, hr, rfl⟩ := (hmem d).1 hdel
      have htext := final_text hd h hr
      exact ⟨r.2, by simpa [htext] using Table.get_of_mem (final_nodup h) hr⟩
    · rintro ⟨k, hk⟩
      have hr := Table.mem_of_get hk
      exact ⟨_, (hmem _).2 ⟨_, hr, rfl⟩, rfl, final_text hd h hr⟩
  · constructor
    · rintro ⟨d, hdel, rfl, rfl, hpub⟩
      obtain ⟨r, hr, rfl⟩ := (hmem d).1 hdel
      have htext := final_text hd h hr
      refine ⟨⟨r.2, by simpa [htext] using Table.get_of_mem (final_nodup h) hr⟩, ?_⟩
      simpa [htext] using hpub
    · rintro ⟨⟨k, hk⟩, hpub⟩
      have hr := Table.mem_of_get hk
      exact ⟨_, (hmem _).2 ⟨_, hr, rfl⟩, rfl, final_text hd h hr, by simpa using hpub⟩

end

/-! ## Runs -/

/-- What a host shows of its tables: the live pairs, and each call with the pairs that were live when it was made. -/
structure World where
  live : List TrackingPair
  calls : List (Op × List TrackingPair) := []
deriving DecidableEq

/-- A host that reads truthfully. Whatever a call changes, and whatever other transactions commit before the next one, is
left open. -/
def Hosted (op : Op) (w : World) (x : Ans) (w' : World) : Prop :=
  w'.calls = w.calls ++ [(op, w.live)] ∧
  ∀ records pairs rows, op = .readTracking records pairs → x = .tracking rows →
    ∀ p, p ∈ rows ↔ p ∈ w.live ∧ asked records pairs p = true

/-- The pair of this Stream and this text is in the table. -/
def Live (table : List TrackingPair) (stream encoded : String) : Prop :=
  ∃ p ∈ table, p.stream = stream ∧ pairText p = encoded

/-- A delta of this pair that moves it. -/
def Published (P : Platform) (deltas : List MemberDelta) (stream encoded : String) : Prop :=
  ∃ d ∈ deltas, d.stream = stream ∧ d.key.encoded P = encoded ∧ d.publish = true

/-- The calls of a settlement: none, or two reads around the locks and guards, and the deltas last. -/
def Calls (calls : List (Op × List TrackingPair)) (locked : List String) (live : List TrackingPair)
    (deltas : List MemberDelta) : Prop :=
  (calls = [] ∧ deltas = []) ∨
  ∃ records pairs guards t₀ t₁ t₂ t₃, calls = [(Op.readTracking records pairs, t₀)] ++
    (if locked = [] then [] else [(.lockStreams locked, t₁)]) ++
    [(.guardRecords guards, t₂), (.readTracking records pairs, live)] ++
    (if deltas = [] then [] else [(.applyStreamMembers deltas, t₃)])

/-- The rows of a truthful read. -/
theorem tracking_rows {parse : String → Option Json} {records : List MemberKey} {pairs : List TrackingPair}
    {w w' : World} {x : Ans} {rows : List TrackingPair} (h : Hosted (.readTracking records pairs) w x w')
    (hx : tracking? P parse records pairs x = some rows) : ∀ p, p ∈ rows ↔ p ∈ w.live ∧ asked records pairs p = true := by
  cases x with
  | tracking rows' =>
    simp only [tracking?] at hx
    split at hx
    · cases hx
      exact h.2 _ _ _ rfl rfl
    · cases hx
  | guards _ => cases hx
  | positions _ => cases hx
  | acknowledged => cases hx

theorem runs_lockStreams {streams : List String} {w w' : World} (h : Prog.Runs Hosted (lockStreams streams) w (.ok ()) w') :
    ∃ t, w'.calls = w.calls ++ if streams = [] then [] else [(.lockStreams streams, t)] := by
  unfold lockStreams at h
  split at h
  · rename_i hempty
    simp only [Prog.runs_pure] at h
    exact ⟨[], by simp [List.isEmpty_iff.1 hempty, h.2]⟩
  · rename_i hne
    simp only [Prog.runs_expect] at h
    obtain ⟨x, hx, -⟩ := h
    exact ⟨w.live, by rw [hx.1, if_neg (by simpa using hne)]⟩

theorem runs_apply {deltas : List MemberDelta} {w w' : World} (h : Prog.Runs Hosted (apply deltas) w (.ok ()) w') :
    ∃ t, w'.calls = w.calls ++ if deltas = [] then [] else [(.applyStreamMembers deltas, t)] := by
  unfold apply at h
  split at h
  · rename_i hempty
    simp only [Prog.runs_pure] at h
    exact ⟨[], by simp [List.isEmpty_iff.1 hempty, h.2]⟩
  · rename_i hne
    simp only [Prog.runs_bind, Prog.runs_expect, Prog.runs_lift] at h
    obtain ⟨positions, u, ⟨x, hx, -⟩, -, rfl⟩ := h
    exact ⟨w.live, by rw [hx.1, if_neg (by simpa using hne)]⟩

/-- The settled part of a run: its calls, and what decided the deltas. -/
theorem runs_settle {parse : String → Option Json} {w w' : World} (hw : w.calls = [])
    (h : Prog.Runs Hosted (settle P parse i) w (.ok ()) w') :
    ∃ before after live table, Calls w'.calls (i.locked before) table (i.deltas live) ∧
      i.liveRows P parse (i.locked before) after = .ok live ∧
      ∀ p, p ∈ after ↔ p ∈ table ∧ asked (i.globals P) (i.pairs P) p = true := by
  simp only [settle, Prog.runs_bind, Prog.runs_expect, Prog.runs_lift] at h
  obtain ⟨before, w₁, ⟨x₁, h₁, -⟩, _, w₂, hlock, guarded, w₃, ⟨x₃, h₃, -⟩, -, w₄, ⟨-, rfl⟩, after, w₅, ⟨x₅, h₅, hafter⟩,
    live, w₆, ⟨hlive, rfl⟩, happly⟩ := h
  obtain ⟨t₁, hlock⟩ := runs_lockStreams hlock
  obtain ⟨t₃, happly⟩ := runs_apply happly
  refine ⟨before, after, live, w₃.live, .inr ⟨i.globals P, i.pairs P, i.guards P, w.live, t₁, w₂.live, t₃, ?_⟩, hlive,
    tracking_rows h₅ hafter⟩
  rw [happly, h₅.1, h₃.1, hlock, h₁.1, hw]
  simp

/-- **Publication is exact**, in every run that returns: each pair has at most one delta; the published pairs are those
tracked and not live, and those live and invalidated; only tracking enrols; every Stream that moves was locked before the
second read, and so was every holder of a globally invalidated record, or the call would have failed. -/
theorem publication_exact {parse : String → Option Json} {table : List TrackingPair} {w : World}
    (h : Prog.Runs Hosted (settleChanges P parse config (changes P changed) ds) ⟨table, []⟩ (.ok ()) w) :
    ∃ locked live deltas, Calls w.calls locked live deltas ∧
      (deltas.map fun d => (d.stream, d.key.encoded P)).Nodup ∧
      (∀ s e, Published P deltas s e ↔ (Tracked P config ds s e ∧ ¬ Live live s e) ∨
        (Live live s e ∧ Global P config changed ds e) ∨ (Live live s e ∧ Selected P config ds s e)) ∧
      (∀ d ∈ deltas, Live live d.stream (d.key.encoded P) ∨ Tracked P config ds d.stream (d.key.encoded P)) ∧
      (∀ s e, Published P deltas s e → s ∈ locked) ∧
      ∀ s e, Live live s e → Global P config changed ds e → s ∈ locked := by
  simp only [settleChanges, Prog.runs_bind, Prog.runs_lift] at h
  obtain ⟨i, w₀, ⟨hi, rfl⟩, h⟩ := h
  have hd := declared_intents hi
  split at h
  · -- nothing was declared
    rename_i hempty
    simp only [Prog.runs_pure, true_and] at h
    subst h
    have hnone : ∀ e, ¬ (i.records.get e).isSome := by
      intro e he
      rw [List.isEmpty_iff.1 hempty] at he
      cases he
    have htracked : ∀ s e, ¬ Tracked P config ds s e := fun s e ht => hnone e (hd.tracking s e ht).2
    have hselects : ∀ s e, ¬ (Global P config changed ds e ∨ Selected P config ds s e) := by
      intro s e hs
      obtain ⟨sel, hsel, -⟩ := (Option.any_eq_true _ _).1 ((hd.selects s e).2 hs)
      exact hnone e (hd.recorded e sel hsel)
    refine ⟨[], table, [], .inl ⟨rfl, rfl⟩, List.nodup_nil, fun s e => ?_, by simp, ?_, ?_⟩
    · constructor
      · rintro ⟨d, hd, -⟩
        cases hd
      · rintro (⟨ht, -⟩ | ⟨-, hg⟩ | ⟨-, hs⟩)
        · exact absurd ht (htracked s e)
        · exact absurd (.inl hg) (hselects s e)
        · exact absurd (.inr hs) (hselects s e)
    · rintro s e ⟨d, hd, -⟩
      cases hd
    · intro s e _ hg
      exact absurd (.inl hg) (hselects s e)
  · obtain ⟨before, after, rows, live, hcalls, hlive, hafter⟩ := runs_settle rfl h
    obtain ⟨-, -, hsome, hglobal⟩ := liveRows_spec hlive
    -- a live pair is in the table; one that was asked for is in the read
    have htable : ∀ s e, (rows.get (s, e)).isSome → Live live s e := by
      intro s e hs
      obtain ⟨p, hp, hs, he⟩ := (hsome s e).1 hs
      exact ⟨p, ((hafter p).1 hp).1, hs, he⟩
    have hread : ∀ s e, Live live s e → Global P config changed ds e ∨ Tracked P config ds s e ∨ Selected P config ds s e →
        (rows.get (s, e)).isSome := by
      rintro s e ⟨p, hp, rfl, rfl⟩ hdeclared
      exact (hsome _ _).2 ⟨p, (hafter p).2 ⟨hp, (asked_iff hd).2 hdeclared⟩, rfl, rfl⟩
    have hpublished : ∀ s e, Published P (i.deltas rows) s e ↔ (Tracked P config ds s e ∧ ¬ Live live s e) ∨
        (Live live s e ∧ Global P config changed ds e) ∨ (Live live s e ∧ Selected P config ds s e) := by
      intro s e
      rw [Published, (mem_deltas hd hlive s e).2, hd.selects]
      constructor
      · rintro ⟨hpair, hnew | hinv⟩
        · have hnot : ¬ (rows.get (s, e)).isSome := by
            rw [Option.isNone_iff_eq_none.1 hnew]
            simp
          rcases hpair with hl | ht
          · exact absurd hl hnot
          · exact .inl ⟨ht, fun hl => hnot (hread s e hl (.inr (.inl ht)))⟩
        · by_cases hl : Live live s e
          · rcases hinv with hg | hs
            · exact .inr (.inl ⟨hl, hg⟩)
            · exact .inr (.inr ⟨hl, hs⟩)
          · rcases hpair with hrow | ht
            · exact absurd (htable s e hrow) hl
            · exact .inl ⟨ht, hl⟩
      · rintro (⟨ht, hl⟩ | ⟨hl, hg⟩ | ⟨hl, hs⟩)
        · refine ⟨.inr ht, .inl ?_⟩
          cases hrow : rows.get (s, e) with
          | none => rfl
          | some k => exact absurd (htable s e (by simp [hrow])) hl
        · exact ⟨.inl (hread s e hl (.inl hg)), .inr (.inl hg)⟩
        · exact ⟨.inl (hread s e hl (.inr (.inr hs))), .inr (.inr hs)⟩
    have hlocked : ∀ s, s ∈ i.named → s ∈ i.locked before := by
      intro s hs
      simp only [Intents.locked, List.mem_insertionSort, List.mem_dedup, List.mem_append]
      exact .inl hs
    have hholder : ∀ s e, Live live s e → Global P config changed ds e → s ∈ i.locked before := by
      rintro s e ⟨p, hp, rfl, rfl⟩ hg
      exact hglobal p ((hafter p).2 ⟨hp, (asked_iff hd).2 (.inl hg)⟩) ((hd.invalidated _).2 hg)
    refine ⟨i.locked before, live, i.deltas rows, hcalls, deltas_nodup hd hlive, hpublished, fun d hdel => ?_, ?_, hholder⟩
    · rcases (mem_deltas hd hlive _ _).1.1 ⟨d, hdel, rfl, rfl⟩ with hrow | ht
      · exact .inl (htable _ _ hrow)
      · exact .inr ht
    · intro s e hp
      rcases (hpublished s e).1 hp with ⟨ht, -⟩ | ⟨hl, hg⟩ | ⟨-, hs⟩
      · exact hlocked s (hd.tracking s e ht).1
      · exact hholder s e hl hg
      · exact hlocked s (hd.selecting s e hs)

end Settlement

end Axton.Server

namespace Axton

open Server Settlement Notes

namespace Notes

def noteId (id : String) : Json := .obj [("id", .str id)]

def noteRef (id : String) : RecordRef := ⟨"note", noteId id⟩

/-- The identity texts of three notes. -/
def parseId (t : String) : Option Json := (["a", "b", "c"].map noteId).find? fun v => text v = t

def publishing : Server.Config := { config with loaders := ["note"] }

/-- Note `a` is in Stream 1, note `c` in Streams 1 and 3. -/
def tracked : List TrackingPair :=
  [⟨"s1", "note", text (noteId "a")⟩, ⟨"s1", "note", text (noteId "c")⟩, ⟨"s3", "note", text (noteId "c")⟩]

/-- A host with one Stream position. -/
def settling (op : Settlement.Op) (w : World) : Option (Settlement.Ans × World) :=
  let w' := { w with calls := w.calls ++ [(op, w.live)] }
  match op with
  | .readTracking records pairs => some (.tracking (w.live.filter (asked records pairs)), w')
  | .lockStreams _ => some (.acknowledged, w')
  | .guardRecords records => some (.guards (records.map fun _ => true), w')
  | .applyStreamMembers deltas => some (.positions (deltas.map fun d => ⟨d.stream, d.key, 7, .upsert⟩), w')

theorem settling_hosted (op : Settlement.Op) (w : World) (x : Settlement.Ans) (w' : World) (h : settling op w = some (x, w')) : Hosted op w x w' := by
  cases op with
  | readTracking records pairs =>
    cases h
    refine ⟨rfl, ?_⟩
    rintro _ _ _ ⟨⟩ ⟨⟩ p
    exact List.mem_filter
  | lockStreams _ =>
    cases h
    exact ⟨rfl, nofun⟩
  | guardRecords _ =>
    cases h
    exact ⟨rfl, nofun⟩
  | applyStreamMembers _ =>
    cases h
    exact ⟨rfl, nofun⟩

/-- Note `a` changed, `b` is tracked in Stream 2, and `c` is invalidated in Stream 1. -/
def settlement : Settlement.Program Unit :=
  settleChanges platform parseId publishing (changes platform [⟨"note", noteId "a"⟩])
    [.track "s2" (noteRef "b"), .invalidate (some ["s1"]) (noteRef "c")]

end Notes

theorem publication_exact_notes :
    ∃ w : World, (w.calls.map (·.1)).getLast? = some (.applyStreamMembers [⟨"s1", ⟨"note", noteId "a"⟩, true⟩,
      ⟨"s1", ⟨"note", noteId "c"⟩, true⟩, ⟨"s2", ⟨"note", noteId "b"⟩, true⟩]) ∧
    ∃ locked live deltas, Calls w.calls locked live deltas ∧
      (deltas.map fun d => (d.stream, d.key.encoded platform)).Nodup := by
  have heval : ((settlement.eval settling ⟨tracked, []⟩).map fun e => (e.2.calls.map (·.1)).getLast?) = some (some
      (.applyStreamMembers [⟨"s1", ⟨"note", noteId "a"⟩, true⟩, ⟨"s1", ⟨"note", noteId "c"⟩, true⟩,
        ⟨"s2", ⟨"note", noteId "b"⟩, true⟩])) := by decide +kernel
  obtain ⟨⟨_, w⟩, hw, hcalls⟩ := Option.map_eq_some_iff.1 heval
  obtain ⟨locked, live, deltas, h, hnodup, -⟩ := publication_exact ((Prog.runs_of_eval hw).mono settling_hosted)
  exact ⟨w, hcalls, locked, live, deltas, h, hnodup⟩

end Axton
