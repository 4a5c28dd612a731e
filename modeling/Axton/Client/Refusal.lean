import Axton.Client.Settlement

/-!
# The lifecycle closure of a refusal

`reject_owned05` refuses, with the calls it is given, every call that a chain of lifecycle
dependencies hangs on them (settlement05.rs:165-181). Here: the loop always reaches its fixpoint, and
what it refuses is exactly the set reachable by lifecycle edges.

* `get_refused_isSome` — refused iff reachable from an initially refused call;
* `get_refused_of_get`, `get_refused_new` — initial refusals keep their code, the others read
  `dependency.rejected`;
* `nodup_refused` — one refusal a call.
-/

namespace Axton

namespace Engine

/-- One addition of the closure loop. -/
inductive CloseStep (deps : List Dependency) : Table Nat Rejection → Table Nat Rejection → Prop
  | add {rejected : Table Nat Rejection} {d : Dependency} :
      d ∈ deps → d.kind = .lifecycle → (rejected.get d.dependsOn).isSome → rejected.get d.ordinal = none →
      CloseStep deps rejected (rejected ++ [(d.ordinal, ("dependency.rejected", none))])

/-- What the loop may do to the refused calls. -/
abbrev Closes (deps : List Dependency) := Relation.ReflTransGen (CloseStep deps)

variable {deps : List Dependency} {rejected closed : Table Nat Rejection} {s : Store} {id : Nat}

theorem closeEdge_cases {d : Dependency} (hd : d ∈ deps) :
    closeEdge rejected d = rejected ∨ CloseStep deps rejected (closeEdge rejected d) := by
  unfold closeEdge
  split
  next h =>
    simp only [Bool.and_eq_true, decide_eq_true_eq, Option.isNone_iff_eq_none] at h
    obtain ⟨⟨hk, hp⟩, hn⟩ := h
    rw [Table.set_of_get_none _ hn]
    exact .inr (.add hd hk hp hn)
  next => exact .inl rfl

theorem closePass_closes : ∀ {ds : List Dependency} {rejected : Table Nat Rejection}, (∀ d ∈ ds, d ∈ deps) →
    Closes deps rejected (closePass ds rejected)
  | [], _, _ => .refl
  | d :: ds, rejected, h => by
    have rest : Closes deps (closeEdge rejected d) (closePass ds (closeEdge rejected d)) :=
      closePass_closes fun e he => h e (by simp [he])
    have hedge : closeEdge rejected d = rejected ∨ CloseStep deps rejected (closeEdge rejected d) :=
      closeEdge_cases (h d (by simp))
    rcases hedge with e | e
    · show Closes deps rejected (closePass ds (closeEdge rejected d))
      rw [e] at rest ⊢
      exact rest
    · exact .head e rest

theorem closeRejected_closes : ∀ (fuel : Nat) (rejected : Table Nat Rejection),
    Closes deps rejected (closeRejected deps fuel rejected)
  | 0, _ => .refl
  | fuel + 1, rejected => by
    simp only [closeRejected]
    split
    · exact .refl
    · exact (closePass_closes fun _ h => h).trans (closeRejected_closes fuel _)

/-! ## What an addition keeps -/

theorem CloseStep.get_of_get {v : Rejection} (h : CloseStep deps rejected closed) (hv : rejected.get id = some v) :
    closed.get id = some v := by
  obtain ⟨-, -, -, -⟩ := h
  rw [Table.get_append_singleton, hv]
  rfl

theorem Closes.get_of_get {v : Rejection} (h : Closes deps rejected closed) (hv : rejected.get id = some v) :
    closed.get id = some v := by
  induction h with
  | refl => exact hv
  | tail _ hs ih => exact hs.get_of_get ih

/-- A call the loop added hangs on an initial one by lifecycle edges, and reads `dependency.rejected`. -/
theorem Closes.origin {v : Rejection} (h : Closes deps rejected closed) (hv : closed.get id = some v) :
    rejected.get id = some v ∨
      (rejected.get id = none ∧ v = ("dependency.rejected", none) ∧
        ∃ a, (rejected.get a).isSome ∧ Relation.TransGen (LifecycleEdge deps) a id) := by
  induction h generalizing id v with
  | refl => exact .inl hv
  | @tail mid _ hr hs ih =>
    obtain @⟨d, hd, hk, hp, hn⟩ := hs
    rw [Table.get_append_singleton] at hv
    cases hmid : mid.get id with
    | some w =>
      rw [hmid] at hv
      cases hv
      exact ih hmid
    | none =>
      rw [hmid] at hv
      simp only [Option.orElse_none, Option.ite_none_right_eq_some, Option.some.injEq] at hv
      obtain ⟨rfl, rfl⟩ := hv
      refine .inr ⟨?_, rfl, ?_⟩
      · cases hr0 : rejected.get d.ordinal with
        | none => rfl
        | some w => rw [Closes.get_of_get hr hr0] at hmid; cases hmid
      · have edge : LifecycleEdge deps d.dependsOn d.ordinal := ⟨d, hd, hk, rfl, rfl⟩
        obtain ⟨w, hw⟩ := Option.isSome_iff_exists.1 hp
        rcases ih hw with h0 | ⟨-, -, a, ha, path⟩
        · exact ⟨d.dependsOn, by simp [h0], .single edge⟩
        · exact ⟨a, ha, path.tail edge⟩

theorem Closes.nodup (h : Closes deps rejected closed) (hn : (rejected.map (·.1)).Nodup) :
    (closed.map (·.1)).Nodup := by
  induction h with
  | refl => exact hn
  | tail _ hs ih =>
    obtain @⟨d, -, -, -, hnone⟩ := hs
    rw [List.map_append, List.map_singleton]
    refine List.nodup_append.2 ⟨ih, List.nodup_singleton _, ?_⟩
    intro a ha b hb e
    rw [List.mem_singleton] at hb
    subst hb e
    have := Table.get_isSome_iff.2 ha
    simp [hnone] at this

/-! ## The fixpoint is reached -/

/-- The dependency rows whose call is not refused yet. -/
def openRows (deps : List Dependency) (rejected : Table Nat Rejection) : List Dependency :=
  deps.filter fun d => (rejected.get d.ordinal).isNone

theorem CloseStep.measure (h : CloseStep deps rejected closed) :
    closed.length + (openRows deps closed).length ≤ rejected.length + (openRows deps rejected).length := by
  obtain @⟨d, hd, -, -, hn⟩ := h
  have shrink : openRows deps (rejected ++ [(d.ordinal, ("dependency.rejected", none))]) =
      (openRows deps rejected).filter fun e => !decide (d.ordinal = e.ordinal) := by
    unfold openRows
    rw [List.filter_filter]
    refine List.filter_congr fun e _ => ?_
    rw [Table.get_append_singleton]
    by_cases hde : d.ordinal = e.ordinal <;> cases rejected.get e.ordinal <;> simp [hde]
  have less : ((openRows deps rejected).filter fun e => !decide (d.ordinal = e.ordinal)).length <
      (openRows deps rejected).length :=
    List.length_filter_lt_length_iff_exists.2 ⟨d, by simp [openRows, hd, hn], by simp⟩
  rw [shrink, List.length_append, List.length_singleton]
  omega

theorem Closes.measure (h : Closes deps rejected closed) :
    closed.length + (openRows deps closed).length ≤ rejected.length + (openRows deps rejected).length := by
  induction h with
  | refl => exact le_refl _
  | tail _ hs ih => exact le_trans hs.measure ih

theorem Closes.length_le (h : Closes deps rejected closed) : rejected.length ≤ closed.length := by
  induction h with
  | refl => exact le_refl _
  | tail _ hs ih =>
    obtain ⟨-, -, -, -⟩ := hs
    simp only [List.length_append]
    omega

/-- Every lifecycle row of a refused call refuses its own call. -/
def Closed (deps : List Dependency) (rejected : Table Nat Rejection) : Prop :=
  ∀ d ∈ deps, d.kind = .lifecycle → (rejected.get d.dependsOn).isSome → (rejected.get d.ordinal).isSome

/-- A pass that adds nothing found nothing to add. -/
theorem closed_of_closePass : ∀ {ds : List Dependency} {rejected : Table Nat Rejection},
    (closePass ds rejected).length = rejected.length → Closed ds rejected
  | [], _, _ => by simp [Closed]
  | d :: ds, rejected, h => by
    have hlen : (closeEdge rejected d).length ≤ (closePass ds (closeEdge rejected d)).length :=
      Closes.length_le (closePass_closes fun _ h => h)
    change (closePass ds (closeEdge rejected d)).length = rejected.length at h
    have hedge : closeEdge rejected d = rejected ∨ CloseStep [d] rejected (closeEdge rejected d) :=
      closeEdge_cases (by simp)
    rcases hedge with e | e
    · rw [e] at h
      intro x hx hk hp
      rcases List.mem_cons.1 hx with rfl | hx
      · by_contra hno
        have hadd : closeEdge rejected x = rejected.set x.ordinal ("dependency.rejected", none) := by
          unfold closeEdge
          rw [if_pos (by simp [hk, hp, Option.not_isSome_iff_eq_none.1 hno])]
        rw [hadd, Table.set_of_get_none _ (Option.not_isSome_iff_eq_none.1 hno)] at e
        simp at e
      · exact closed_of_closePass h x hx hk hp
    · have := Closes.length_le (Relation.ReflTransGen.single e)
      generalize hc : closeEdge rejected d = c at *
      obtain ⟨-, -, -, -⟩ := e
      simp only [List.length_append, List.length_singleton] at hlen
      omega

theorem closeRejected_closed : ∀ (fuel : Nat) (rejected : Table Nat Rejection),
    (openRows deps rejected).length < fuel → Closed deps (closeRejected deps fuel rejected)
  | 0, _, h => by omega
  | fuel + 1, rejected, h => by
    simp only [closeRejected]
    have hpass : Closes deps rejected (closePass deps rejected) := closePass_closes fun _ h => h
    split
    next hsame => exact closed_of_closePass hsame
    next hmore =>
      refine closeRejected_closed fuel _ ?_
      have := hpass.measure
      have := hpass.length_le
      omega

/-! ## What a refusal refuses -/

theorem refused_get (s : Store) (rejected : Table Nat Rejection) (id : Nat) :
    (refused s rejected).get id =
      (closeRejected s.dependencies (s.dependencies.length + 1) rejected).get id :=
  Table.get_insertionSort _ _

theorem get_refused_of_get {v : Rejection} (h : rejected.get id = some v) : (refused s rejected).get id = some v := by
  rw [refused_get]
  exact Closes.get_of_get (closeRejected_closes _ _) h

theorem get_refused_new {v : Rejection} (h : (refused s rejected).get id = some v) :
    rejected.get id = some v ∨
      (rejected.get id = none ∧ v = ("dependency.rejected", none) ∧
        ∃ a, (rejected.get a).isSome ∧ Relation.TransGen (LifecycleEdge s.dependencies) a id) := by
  rw [refused_get] at h
  exact Closes.origin (closeRejected_closes _ _) h

/-- The refused calls are closed under lifecycle dependency. -/
theorem refused_closed (s : Store) (rejected : Table Nat Rejection) : Closed s.dependencies (refused s rejected) := by
  have h : Closed s.dependencies (closeRejected s.dependencies (s.dependencies.length + 1) rejected) :=
    closeRejected_closed _ _ (Nat.lt_succ_of_le (List.length_filter_le _ _))
  intro d hd hk hp
  rw [refused_get] at hp ⊢
  exact h d hd hk hp

/-- **A call is refused exactly when a chain of lifecycle dependencies hangs it on an initially
refused one.** -/
theorem get_refused_isSome :
    ((refused s rejected).get id).isSome ↔
      ∃ a, (rejected.get a).isSome ∧ Relation.ReflTransGen (LifecycleEdge s.dependencies) a id := by
  constructor
  · intro h
    obtain ⟨v, hv⟩ := Option.isSome_iff_exists.1 h
    rcases get_refused_new hv with h0 | ⟨-, -, a, ha, path⟩
    · exact ⟨id, by simp [h0], .refl⟩
    · exact ⟨a, ha, path.to_reflTransGen⟩
  · rintro ⟨a, ha, path⟩
    induction path with
    | refl =>
      obtain ⟨v, hv⟩ := Option.isSome_iff_exists.1 ha
      simp [get_refused_of_get hv]
    | tail _ edge ih =>
      obtain ⟨d, hd, hk, rfl, rfl⟩ := edge
      exact refused_closed s rejected d hd hk ih

theorem nodup_refused (h : (rejected.map (·.1)).Nodup) : ((refused s rejected).map (·.1)).Nodup := by
  have perm := (List.perm_insertionSort (fun a b => a.1 ≤ b.1)
    (closeRejected s.dependencies (s.dependencies.length + 1) rejected)).map (·.1)
  exact perm.nodup_iff.2 (Closes.nodup (closeRejected_closes _ _) h)

end Engine

end Axton
