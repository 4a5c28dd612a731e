import Axton.Server.MutationBatch

/-!
# Every member is executed exactly once

Calls for a store run concurrently, are retried and abort; the committed tables nevertheless grow by
whole members, each once and in order, and a result that was committed is what every later call
returns.

Two entry points reach a member. `executeMember` saves it at once; `executeGroup` runs a suffix on an
advanced copy of the row and saves it at its end. Both are brought to one form, `Commits`: a suffix of
results is appended behind the row's progress. The invariant `Consistent` is proved for that form.
-/

namespace Axton

namespace Server

variable {P : Platform} {H : Hashes} {config : Config} {d d' : Database} {q : MutationRequest}

/-! ## Statements -/

theorem with_eq_some {t : Option Tables} (h : d.with t = some d') :
    ∃ t', t = some t' ∧ d' = { d with tables := t' } := by
  simp only [Database.with, Option.map_eq_some_iff] at h
  obtain ⟨t', ht, rfl⟩ := h
  exact ⟨t', ht, rfl⟩

theorem acknowledged_eq {x : Ans} (h : x.acknowledged? = some ()) : x = .acknowledged := by
  cases x <;> first | rfl | cases h

theorem handled_eq {x : Ans} {handled : Handled} (h : x.handled? = some handled) :
    x = .handled handled ∧ handled.decodes = true := by
  cases x <;> simp [Ans.handled?] at h
  exact ⟨by rw [h.2], h.2 ▸ h.1⟩

theorem settled_eq {x : Ans} {settled : Settled} (h : x.settled? = some settled) :
    x = .settled settled ∧ settled.decodes = true := by
  cases x <;> simp [Ans.settled?] at h
  exact ⟨by rw [h.2], h.2 ▸ h.1⟩

theorem insertResults_eq {t t' : Tables} {rows : Table Member MutationResult}
    (h : rows.foldlM Tables.insertResult t = some t') :
    t' = { t with results := t.results ++ rows, journal := t.journal ++ rows } := by
  induction rows generalizing t with
  | nil =>
    cases h
    simp
  | cons e rows ih =>
    simp only [List.foldlM_cons, Option.bind_eq_bind, Option.bind_eq_some_iff] at h
    obtain ⟨u, hu, h⟩ := h
    unfold Tables.insertResult at hu
    split at hu
    · cases hu
    · cases hu
      rw [ih h]
      simp

/-! ## One member -/

/-- The business effects of a member that ended so. -/
def effectsOf (e : Member × MutationResult) : List Member :=
  match e.2.outcome with
  | .accepted _ _ _ => [e.1]
  | .rejected _ _ => []

/-- The copy of the row once its batch has begun. -/
def Store.begun (s : Store) (q : MutationRequest) : Store :=
  if s.currentDigest.isNone then { s with currentDigest := some q.digest, currentCount := some q.mutations.length } else s

/-- The tables once the batch has begun. -/
def Tables.begun (t : Tables) (q : MutationRequest) (s : Store) : Tables :=
  if s.currentDigest.isNone then
    { t with store := some (s.begun q), results := t.results.filter fun e => decide (q.batchId ≤ e.1.1) }
  else t

theorem beginIfNew_runs {s s' : Store} (hs : s.currentDigest = none → d.tables.store = some s)
    (h : (beginIfNew q s).Runs Host.Answers d (.ok s') d') :
    s' = s.begun q ∧ d' = { d with tables := d.tables.begun q s } ∧ (s.currentDigest = none → s.progress = 0) := by
  unfold beginIfNew at h
  split at h
  · rename_i hnone
    simp only [Prog.runs_bind, Prog.runs_expect, Prog.runs_pure] at h
    obtain ⟨⟨⟩, u, ⟨x, hx, hack⟩, rfl, rfl⟩ := h
    rw [acknowledged_eq hack] at hx
    obtain ⟨t, ht, rfl⟩ := with_eq_some hx
    simp only [Tables.beginBatch, hs (by simpa using hnone)] at ht
    split at ht
    · rename_i hguard
      cases ht
      exact ⟨by simp [Store.begun, hnone], by simp [Tables.begun, Store.begun, hnone], fun _ => hguard.2.2⟩
    · cases ht
  · rename_i hsome
    simp only [Prog.runs_pure] at h
    obtain ⟨rfl, rfl⟩ := h
    refine ⟨by simp [Store.begun, hsome], by simp [Tables.begun, hsome], fun hnone => ?_⟩
    simp [hnone] at hsome

/-- The tables with the effects of a member appended. -/
def Tables.affected (t : Tables) (members : List Member) : Tables := { t with effects := t.effects ++ members }

theorem refuseMember_runs {ordinal : Nat} {code : String} {outcome : MutationOutcome}
    (h : (refuseMember ordinal code).Runs Host.Answers d (.ok outcome) d') :
    outcome = .rejected code none ∧ d'.savepoints = d.savepoints ∧ d.savepoints.get (ordinal + 1) = some d'.tables := by
  simp only [refuseMember, Prog.runs_bind, Prog.runs_expect, Prog.runs_pure] at h
  obtain ⟨⟨⟩, u, ⟨x, hx, hack⟩, rfl, rfl⟩ := h
  rw [acknowledged_eq hack] at hx
  obtain ⟨t, ht, rfl⟩ := with_eq_some hx
  exact ⟨rfl, rfl, ht⟩

/-- **A handled member leaves its effects when it is accepted and nothing otherwise.** -/
theorem handleMember_runs {ordinal : Nat} {m : Mutation} {args : Json} {outcome : MutationOutcome}
    (h : (handleMember P H config q ordinal m args).Runs Host.Answers d (.ok outcome) d') :
    d'.tables = d.tables.affected (effectsOf ((q.batchId, ordinal), ⟨m.id, outcome⟩)) := by
  simp only [handleMember, Prog.runs_bind, Prog.runs_expect, Prog.runs_pure] at h
  obtain ⟨⟨⟩, d₁, ⟨x₁, h₁, hack₁⟩, handled, d₂, ⟨x₂, h₂, hhandled⟩, out, d₃, h₃, ⟨⟩, d₄, ⟨x₄, h₄, hack₄⟩, rfl, rfl⟩ := h
  rw [acknowledged_eq hack₁] at h₁
  rw [acknowledged_eq hack₄] at h₄
  cases h₁
  cases h₄
  obtain ⟨rfl, -⟩ := handled_eq hhandled
  cases h₂
  -- a refusal returns to the savepoint, which holds the tables as they were found
  have refused : ∀ {code : String} {d₀ : Database}, d₀.savepoints = d.savepoints.set (ordinal + 1) d.tables →
      (refuseMember ordinal code).Runs Host.Answers d₀ (.ok out) d₃ →
      d₃.tables = d.tables.affected (effectsOf ((q.batchId, ordinal), ⟨m.id, out⟩)) := by
    intro code d₀ hsave hrun
    obtain ⟨rfl, -, htables⟩ := refuseMember_runs hrun
    rw [hsave, Table.get_set_self, Option.some.injEq] at htables
    rw [← htables]
    simp [Tables.affected, effectsOf]
  cases handled with
  | rejected code => exact refused rfl h₃
  | failed e => exact absurd h₃ Prog.runs_fail
  | settled =>
    simp only [settleMember, Prog.runs_bind, Prog.runs_expect] at h₃
    obtain ⟨settled, d₅, ⟨x₅, h₅, hsettled⟩, h₃⟩ := h₃
    obtain ⟨rfl, -⟩ := settled_eq hsettled
    cases h₅
    cases settled with
    | accepted syncCursor result positions rows =>
      simp only [Prog.runs_lift, acceptMember, bind_ok, pure_ok] at h₃
      obtain ⟨⟨_, _, _, _, _, _, _, _, _, _, rfl⟩, rfl⟩ := h₃
      rfl
    | refused code => exact refused rfl h₃
    | failed e => exact absurd h₃ Prog.runs_fail

theorem memberOutcome_runs {ordinal : Nat} {m : Mutation} {args : Option Json} {outcome : MutationOutcome}
    (h : (memberOutcome P H config q ordinal m args).Runs Host.Answers d (.ok outcome) d') :
    d'.tables = d.tables.affected (effectsOf ((q.batchId, ordinal), ⟨m.id, outcome⟩)) := by
  cases args with
  | none =>
    simp only [memberOutcome, Prog.runs_pure] at h
    obtain ⟨rfl, rfl⟩ := h
    simp [Tables.affected, effectsOf]
  | some args => exact handleMember_runs h

/-- **An executed member**: its batch has begun, its effects are in, and the copy of the row has moved
past it. -/
theorem runMember_runs {ordinal : Nat} {m : Mutation} {s s' : Store} {r : MutationResult}
    (hs : s.currentDigest = none → d.tables.store = some s)
    (h : (runMember P H config q ordinal m false s).Runs Host.Answers d (.ok (r, s')) d') :
    r.mutationId = m.id ∧ (s.currentDigest = none → s.progress = 0) ∧
      s' = (s.begun q).advance q.batchId (ordinal + 1) q.mutations.length ∧
      d'.tables = (d.tables.begun q s).affected (effectsOf ((q.batchId, ordinal), r)) := by
  simp only [runMember, saveMember, Prog.runs_bind, Prog.runs_lift, Prog.runs_pure, Bool.false_eq_true, if_false] at h
  obtain ⟨s₁, d₁, h₁, args, _, ⟨-, rfl⟩, outcome, d₂, h₂, s₂, _, ⟨⟨⟩, _, ⟨-, rfl⟩, rfl, rfl⟩, h₃, rfl⟩ := h
  cases h₃
  obtain ⟨rfl, rfl, hprogress⟩ := beginIfNew_runs hs h₁
  exact ⟨rfl, hprogress, rfl, memberOutcome_runs h₂⟩

/-- The same with its result saved in the row's place. -/
theorem runMember_persists {ordinal : Nat} {m : Mutation} {s s' : Store} {r : MutationResult}
    (hs : d.tables.store = some s) (h : (runMember P H config q ordinal m true s).Runs Host.Answers d (.ok (r, s')) d') :
    r.mutationId = m.id ∧ (s.currentDigest = none → s.progress = 0) ∧
      ((d.tables.begun q s).affected (effectsOf ((q.batchId, ordinal), r))).saveResult q.batchId ordinal
        q.mutations.length r = some d'.tables := by
  simp only [runMember, saveMember, Prog.runs_bind, Prog.runs_lift, Prog.runs_pure, Prog.runs_expect, if_true] at h
  obtain ⟨s₁, d₁, h₁, args, _, ⟨-, rfl⟩, outcome, d₂, h₂, s₂, d₃, ⟨⟨⟩, d₄, ⟨x, hx, hack⟩, rfl, rfl⟩, h₃, rfl⟩ := h
  cases h₃
  rw [acknowledged_eq hack] at hx
  obtain ⟨rfl, rfl, hprogress⟩ := beginIfNew_runs (fun _ => hs) h₁
  have houtcome := memberOutcome_runs h₂
  obtain ⟨t, ht, rfl⟩ := with_eq_some hx
  rw [houtcome] at ht
  exact ⟨rfl, hprogress, ht⟩

/-- A request the row admits as its next batch. -/
structure Next (s : Store) (q : MutationRequest) : Prop where
  batch : q.batchId = s.lastProcessedBatchId + 1
  digest : ∀ x, s.currentDigest = some x → x = q.digest ∧ s.currentCount = some q.mutations.length

theorem admitBatch_cases {s : Store} {completed : Bool} (h : s.admitBatch q = .ok completed) :
    (completed = true ∧ q.batchId = s.lastProcessedBatchId ∧ s.lastDigest = some q.digest) ∨
      (completed = false ∧ q.batchId ≠ s.lastProcessedBatchId ∧ Next s q) := by
  simp only [Store.admitBatch, bind_ok, check_ok, pure_ok] at h
  obtain ⟨_, hseq, _, hdigest, rfl⟩ := h
  by_cases hc : q.batchId = s.lastProcessedBatchId
  · left
    simp only [hc, decide_true, if_true, Bool.true_or, Bool.not_true, Bool.false_or, Bool.and_eq_true,
      decide_eq_true_eq] at hdigest
    exact ⟨by simp [hc], hc, hdigest.1⟩
  · right
    simp only [hc, decide_false, Bool.false_or, decide_eq_true_eq] at hseq
    refine ⟨by simp [hc], hc, hseq, fun x hx => ?_⟩
    simpa [hc, hx] using hdigest

/-- What a claimed execution does: it answers a saved member from the table, or executes the member
that is due. -/
theorem executeClaimed_runs {owner : String} {ordinal : Nat} {persist : Bool} {s s' : Store} {r : MutationResult}
    (h : (executeClaimed P H config owner q ordinal persist s).Runs Host.Answers d (.ok (r, s')) d') :
    ∃ m, q.mutations[ordinal]? = some m ∧
      ((s.saved q ordinal = true ∧ s' = s ∧ d' = d ∧ d.tables.results.get (q.batchId, ordinal) = some r) ∨
        (s.saved q ordinal = false ∧ Next s q ∧ ordinal = s.progress ∧
          (runMember P H config q ordinal m persist s).Runs Host.Answers d (.ok (r, s')) d')) := by
  unfold executeClaimed at h
  split at h
  · exact absurd h Prog.runs_fail
  · rename_i m hm
    refine ⟨m, hm, ?_⟩
    simp only [Prog.runs_bind, Prog.runs_lift, Prog.runs_expect] at h
    obtain ⟨_, _, ⟨-, rfl⟩, _, _, ⟨-, rfl⟩, allowed, d₁, ⟨x, hx, hallowed⟩, _, _, ⟨-, rfl⟩, completed, _, ⟨hallow, rfl⟩, h⟩ := h
    have hd : d₁ = d := by
      cases x <;> simp [Ans.allowed?] at hallowed
      cases hx
      rfl
    subst hd
    have hsaved : (completed || decide (ordinal < s.progress)) = s.saved q ordinal := by
      unfold Store.saved
      rcases admitBatch_cases hallow with ⟨rfl, hb, -⟩ | ⟨rfl, hb, -⟩ <;> simp [hb]
    rw [hsaved] at h
    cases hcase : s.saved q ordinal with
    | true =>
      left
      simp only [hcase, if_true, Prog.runs_bind, Prog.runs_pure, replayMember, Prog.runs_expect] at h
      obtain ⟨r', d₂, ⟨saved, d₃, ⟨x', hx', hres⟩, h⟩, hpair, rfl⟩ := h
      cases hpair
      have hx'' : x' = .result saved := by
        cases x' <;> simp [Ans.result?] at hres
        rw [hres]
      subst hx''
      simp only [Host.Answers, Host.answer] at hx'
      split at hx'
      · rename_i hread
        cases hx'
        cases saved with
        | none => exact absurd h Prog.runs_fail
        | some r'' =>
          simp only [Prog.runs_bind, Prog.runs_lift, Prog.runs_pure] at h
          obtain ⟨_, _, ⟨-, rfl⟩, rfl, rfl⟩ := h
          exact ⟨rfl, rfl, rfl, hread.symm⟩
      · cases hx'
    | false =>
      right
      simp only [hcase, Bool.false_eq_true, if_false, Prog.runs_bind, Prog.runs_lift, check_ok, decide_eq_true_eq] at h
      obtain ⟨_, _, ⟨hord, rfl⟩, h⟩ := h
      refine ⟨rfl, ?_, hord, h⟩
      rcases admitBatch_cases hallow with ⟨rfl, hb, -⟩ | ⟨rfl, hb, hnext⟩
      · simp [Store.saved, hb] at hcase
      · exact hnext

/-! ## One call -/

/-- The effects of a suffix of results. -/
def suffixEffects (batchId ordinal : Nat) (results : List MutationResult) : List Member :=
  (Tables.suffix batchId ordinal results).flatMap effectsOf

theorem suffix_append (batchId ordinal : Nat) (results : List MutationResult) (r : MutationResult) :
    Tables.suffix batchId ordinal (results ++ [r]) =
      Tables.suffix batchId ordinal results ++ [((batchId, ordinal + results.length), r)] := by
  simp [Tables.suffix, List.zipIdx_append]

theorem suffixEffects_append (batchId ordinal : Nat) (results : List MutationResult) (r : MutationResult) :
    suffixEffects batchId ordinal (results ++ [r]) =
      suffixEffects batchId ordinal results ++ effectsOf ((batchId, ordinal + results.length), r) := by
  simp [suffixEffects, suffix_append]

theorem affected_affected (t : Tables) (a b : List Member) : (t.affected a).affected b = t.affected (a ++ b) := by
  simp [Tables.affected, List.append_assoc]

/-- **A committed suffix**: members `s.progress …` of the row's next batch, with their effects, results and
the row's progress. -/
structure Commits (s : Store) (q : MutationRequest) (results : List MutationResult) (t t' : Tables) : Prop where
  store : t.store = some s
  next : Next s q
  begun : s.currentDigest = none → s.progress = 0
  valid : q.validate = .ok ()
  nonempty : results ≠ []
  within : s.progress + results.length ≤ q.mutations.length
  ids : ∀ i r, results[i]? = some r → (q.mutations[s.progress + i]?).map (·.id) = some r.mutationId
  eq : t' =
    { store := some ((s.begun q).advance q.batchId (s.progress + results.length) q.mutations.length)
      results := (t.begun q s).results ++ Tables.suffix q.batchId s.progress results
      effects := t.effects ++ suffixEffects q.batchId s.progress results
      journal := t.journal ++ Tables.suffix q.batchId s.progress results }

theorem begun_store {t : Tables} {s : Store} (hs : t.store = some s) : (t.begun q s).store = some (s.begun q) := by
  unfold Tables.begun
  split
  · rfl
  · rename_i h
    rw [hs]
    simp [Store.begun, h]

theorem begun_effects (t : Tables) (s : Store) : (t.begun q s).effects = t.effects := by
  unfold Tables.begun
  split <;> rfl

theorem begun_journal (t : Tables) (s : Store) : (t.begun q s).journal = t.journal := by
  unfold Tables.begun
  split <;> rfl

theorem begun_progress (s : Store) : (s.begun q).progress = s.progress := by
  unfold Store.begun
  split <;> rfl

theorem begun_last (s : Store) : (s.begun q).lastProcessedBatchId = s.lastProcessedBatchId := by
  unfold Store.begun
  split <;> rfl

/-- Once begun, the row names the request's batch. -/
theorem Next.begun_digest {s : Store} (h : Next s q) :
    (s.begun q).currentDigest = some q.digest ∧ (s.begun q).currentCount = some q.mutations.length := by
  unfold Store.begun
  cases hd : s.currentDigest with
  | none => simp
  | some x =>
    obtain ⟨rfl, hc⟩ := h.digest x hd
    simp [hd, hc]

/-- The rows a save appends to the tables it finds. -/
theorem insertResults_tables {t t' : Tables} {s : Store} {batchId ordinal count : Nat} {results : List MutationResult}
    (h : t.insertResults s batchId ordinal count results = some t') :
    t' = { store := some (s.advance batchId (ordinal + results.length) count)
           results := t.results ++ Tables.suffix batchId ordinal results
           effects := t.effects
           journal := t.journal ++ Tables.suffix batchId ordinal results } := insertResults_eq h

/-- The tables a call works on, its row claimed. -/
def Tables.claimed (t : Tables) (principal stream : String) : Tables :=
  { t with store := some (t.store.getD { principal, stream }) }

theorem claim_runs {owner : String} {s : Store} (h : (claim owner q).Runs Host.Answers d (.ok s) d') :
    d' = { d with tables := d.tables.claimed owner q.context.stream } ∧ d'.tables.store = some s := by
  unfold claim at h
  split at h
  · simp only [Prog.runs_expect] at h
    obtain ⟨x, hx, hs⟩ := h
    have hx' : x = .store s := by
      cases x <;> simp [Ans.store?] at hs
      rw [hs]
    subst hx'
    simp only [Host.Answers, Host.answer] at hx
    split at hx
    · rename_i hrow
      cases hx
      exact ⟨rfl, by rw [hrow]⟩
    · cases hx
  · exact absurd h Prog.runs_fail

/-- What a call did to the tables: it claimed the row, and committed nothing or a suffix. -/
inductive Committed (q : MutationRequest) (t t' : Tables) : Prop
  | nothing (principal stream : String) : t' = t.claimed principal stream → Committed q t t'
  | suffix {principal stream : String} {s : Store} {results : List MutationResult} :
      Commits s q results (t.claimed principal stream) t' → Committed q t t'

/-- What a call returns for its members is in the table it leaves. -/
def Returned (q : MutationRequest) (start : Nat) (results : List MutationResult) (t' : Tables) : Prop :=
  ∀ j r, results[j]? = some r → ((q.batchId, start + j), r) ∈ t'.results

theorem executeMember_committed {owner : String} {ordinal : Nat} {results : List MutationResult}
    (h : (executeMember P H config owner q ordinal).Runs Host.Answers d (.ok results) d') :
    Committed q d.tables d'.tables ∧ Returned q ordinal results d'.tables := by
  simp only [executeMember, Prog.runs_bind, Prog.runs_lift, Prog.runs_pure] at h
  obtain ⟨_, _, ⟨hvalid, rfl⟩, _, _, ⟨-, rfl⟩, _, _, ⟨-, rfl⟩, s, d₁, hclaim, ⟨r, s'⟩, d₂, hrun, rfl, rfl⟩ := h
  obtain ⟨rfl, hs⟩ := claim_runs hclaim
  have single : ∀ {j : Nat} {x : MutationResult}, [r][j]? = some x → j = 0 ∧ x = r := by
    intro j x hx
    cases j with
    | zero => simpa using hx.symm
    | succ j => simp at hx
  obtain ⟨m, hm, ⟨-, -, rfl, hread⟩ | ⟨-, hnext, rfl, hmember⟩⟩ := executeClaimed_runs hrun
  · refine ⟨.nothing _ _ rfl, fun j x hx => ?_⟩
    obtain ⟨rfl, rfl⟩ := single hx
    exact Table.mem_of_get hread
  · obtain ⟨hid, hbegun, hsave⟩ := runMember_persists hs hmember
    simp only [Tables.saveResult, Tables.affected, begun_store hs] at hsave
    split at hsave
    · have heq := insertResults_tables hsave
      have hlen : s.progress < q.mutations.length := (List.getElem?_eq_some_iff.1 hm).1
      have commits : Commits s q [r] (d.tables.claimed owner q.context.stream) d₂.tables := by
        refine ⟨hs, hnext, hbegun, hvalid, by simp, by rw [List.length_singleton]; omega, ?_, ?_⟩
        · intro i x hx
          obtain ⟨rfl, rfl⟩ := single hx
          simp [hm, hid]
        · rw [heq]
          simp [begun_effects, begun_journal, suffixEffects, Tables.suffix]
      refine ⟨.suffix commits, ?_⟩
      · intro j x hx
        obtain ⟨rfl, rfl⟩ := single hx
        rw [heq]
        simp [Tables.suffix]
    · cases hsave

/-! ### Groups -/

@[simp] theorem advance_progress (s : Store) (x batchId upto count : Nat) :
    ({ s with progress := x } : Store).advance batchId upto count = s.advance batchId upto count := by
  unfold Store.advance
  split <;> rfl

/-- The loop of a group before ordinal `i`: so far it only read, or it runs the suffix that began at the
row's progress. -/
inductive GroupInv (s₀ : Store) (q : MutationRequest) (t : Tables) (start i : Nat) (g : Group) (u : Tables) : Prop
  | reading : g.store = s₀ → g.pending = [] → g.first = none → u = t →
      (∀ j r, g.results[j]? = some r → t.results.get (q.batchId, start + j) = some r) → GroupInv s₀ q t start i g u
  | running : g.first = some s₀.progress → g.pending ≠ [] → Next s₀ q → (s₀.currentDigest = none → s₀.progress = 0) →
      s₀.progress + g.pending.length = i → i ≤ q.mutations.length →
      (∀ n r, g.pending[n]? = some r → (q.mutations[s₀.progress + n]?).map (·.id) = some r.mutationId) →
      g.store = (s₀.begun q).advance q.batchId i q.mutations.length →
      u = (t.begun q s₀).affected (suffixEffects q.batchId s₀.progress g.pending) →
      (∀ j r, g.results[j]? = some r → t.results.get (q.batchId, start + j) = some r ∨
        ∃ n, start + j = s₀.progress + n ∧ g.pending[n]? = some r) → GroupInv s₀ q t start i g u

theorem getElem?_append_singleton {α : Type} {l : List α} {a x : α} {j : Nat} (h : (l ++ [a])[j]? = some x) :
    l[j]? = some x ∨ (j = l.length ∧ x = a) := by
  rcases Nat.lt_trichotomy j l.length with hlt | rfl | hgt
  · rw [List.getElem?_append_left hlt] at h
    exact .inl h
  · simp at h
    exact .inr ⟨rfl, h.symm⟩
  · rw [List.getElem?_eq_none (by simp; omega)] at h
    cases h

theorem groupMember_inv {owner : String} {s₀ : Store} {t : Tables} {start i : Nat} {g g' : Group}
    (hs : t.store = some s₀) (hi : start + g.results.length = i) (inv : GroupInv s₀ q t start i g d.tables)
    (h : (groupMember P H config owner q g i).Runs Host.Answers d (.ok g') d') :
    start + g'.results.length = i + 1 ∧ GroupInv s₀ q t start (i + 1) g' d'.tables := by
  simp only [groupMember, Prog.runs_bind, Prog.runs_pure] at h
  obtain ⟨⟨r, s'⟩, d₁, hrun, rfl, rfl⟩ := h
  have hlen : start + (g.results ++ [r]).length = i + 1 := by
    rw [List.length_append, List.length_singleton]
    omega
  obtain ⟨m, hm, hcase⟩ := executeClaimed_runs hrun
  have hcount : i < q.mutations.length := (List.getElem?_eq_some_iff.1 hm).1
  cases inv with
  | reading hstore hpending hfirst hu hread =>
    rcases hcase with ⟨hsaved, hs', rfl, hget⟩ | ⟨hsaved, hnext, hprogress, hmember⟩
    · -- a saved member is read
      simp only [hsaved, Bool.not_true, Bool.false_eq_true, if_false]
      refine ⟨hlen, .reading (hs'.trans hstore) hpending hfirst hu fun j x hx => ?_⟩
      rcases getElem?_append_singleton hx with hx | ⟨rfl, rfl⟩
      · exact hread j x hx
      · rw [hi, ← hu]
        exact hget
    · -- the first member that is due begins the suffix
      simp only [hsaved, Bool.not_false, if_true]
      rw [hstore] at hnext hprogress hmember
      obtain ⟨hid, hbegun, hs', htables⟩ := runMember_runs (fun _ => by rw [hu]; exact hs) hmember
      refine ⟨hlen, .running ?_ (by simp) hnext hbegun ?_ (by omega) ?_ ?_ ?_ ?_⟩
      · simp [hfirst, hprogress]
      · simp [hpending, hprogress]
      · intro n x hx
        simp only [hpending, List.nil_append] at hx
        cases n with
        | zero =>
          simp only [List.getElem?_cons_zero, Option.some.injEq] at hx
          rw [← hx, hid, Nat.add_zero, ← hprogress, hm]
          rfl
        | succ n => simp at hx
      · exact hs'
      · rw [htables, hu, hpending]
        simp [suffixEffects, Tables.suffix, hprogress]
      · intro j x hx
        rcases getElem?_append_singleton hx with hx | ⟨rfl, rfl⟩
        · exact .inl (hread j x hx)
        · exact .inr ⟨0, by omega, by simp [hpending]⟩
  | running hfirst hne hnext hbegun hpi hle hids hstore hu hread =>
    -- the batch is not complete, so the copy stands at this ordinal
    have hcopy : g.store = { s₀.begun q with progress := i } := by
      rw [hstore]
      unfold Store.advance
      rw [if_neg (by omega)]
    have hdigest : g.store.currentDigest = some q.digest := by
      rw [hcopy]
      exact hnext.begun_digest.1
    have hnot : g.store.saved q i = false := by
      unfold Store.saved
      rw [hcopy]
      simp only [begun_last, lt_irrefl, decide_false, Bool.or_false, decide_eq_false_iff_not]
      have := hnext.batch
      omega
    rcases hcase with ⟨hsaved, -⟩ | ⟨-, -, -, hmember⟩
    · rw [hnot] at hsaved
      cases hsaved
    simp only [hnot, Bool.not_false, if_true]
    obtain ⟨hid, -, hs', htables⟩ := runMember_runs (fun hn => by rw [hdigest] at hn; cases hn) hmember
    have hbegunCopy : g.store.begun q = g.store := by
      unfold Store.begun
      simp [hdigest]
    have hbegunTables : d.tables.begun q g.store = d.tables := by
      unfold Tables.begun
      simp [hdigest]
    refine ⟨hlen, .running ?_ (by simp) hnext hbegun ?_ (by omega) ?_ ?_ ?_ ?_⟩
    · simp [hfirst]
    · simp only [List.length_append, List.length_singleton]
      omega
    · intro n x hx
      rcases getElem?_append_singleton hx with hx | ⟨rfl, rfl⟩
      · exact hids n x hx
      · rw [hpi, hm, hid]
        rfl
    · rw [hs', hbegunCopy, hcopy, advance_progress]
    · rw [htables, hbegunTables, hu, affected_affected, suffixEffects_append, hpi]
    · intro j x hx
      rcases getElem?_append_singleton hx with hx | ⟨rfl, rfl⟩
      · rcases hread j x hx with hget | ⟨n, hn, hp⟩
        · exact .inl hget
        · exact .inr ⟨n, hn, by rw [List.getElem?_append_left (List.getElem?_eq_some_iff.1 hp).1]; exact hp⟩
      · exact .inr ⟨g.pending.length, by omega, by simp⟩

theorem groupLoop_inv {owner : String} {s₀ : Store} {t : Tables} {start : Nat} (hs : t.store = some s₀) :
    ∀ {count i : Nat} {g g' : Group} {d d' : Database}, start + g.results.length = i →
      GroupInv s₀ q t start i g d.tables →
      ((List.range' i count).foldlM (groupMember P H config owner q) g).Runs Host.Answers d (.ok g') d' →
      GroupInv s₀ q t start (i + count) g' d'.tables
  | 0, i, g, g', d, d', _, inv, h => by
    simp only [List.range'_zero, List.foldlM_nil, Prog.runs_pure] at h
    obtain ⟨rfl, rfl⟩ := h
    exact inv
  | count + 1, i, g, g', d, d', hi, inv, h => by
    simp only [List.range'_succ, List.foldlM_cons, Prog.runs_bind] at h
    obtain ⟨g₁, d₁, hstep, hrest⟩ := h
    obtain ⟨hi', inv'⟩ := groupMember_inv hs hi inv hstep
    have := groupLoop_inv hs hi' inv' hrest
    rw [show i + 1 + count = i + (count + 1) by omega] at this
    exact this

theorem mem_begun_of_get {t : Tables} {s : Store} {o : Nat} {r : MutationResult}
    (h : t.results.get (q.batchId, o) = some r) : ((q.batchId, o), r) ∈ (t.begun q s).results := by
  have hmem := Table.mem_of_get h
  unfold Tables.begun
  split
  · exact List.mem_filter.2 ⟨hmem, by simp⟩
  · exact hmem

theorem executeGroup_committed {owner : String} {start count : Nat} {results : List MutationResult}
    (h : (executeGroup P H config owner q start count).Runs Host.Answers d (.ok results) d') :
    Committed q d.tables d'.tables ∧ Returned q start results d'.tables := by
  simp only [executeGroup, Prog.runs_bind, Prog.runs_lift] at h
  obtain ⟨_, _, ⟨hvalid, rfl⟩, _, _, ⟨-, rfl⟩, _, _, ⟨-, rfl⟩, s, d₁, hclaim, g, d₂, hloop, h⟩ := h
  obtain ⟨rfl, hs⟩ := claim_runs hclaim
  have inv := groupLoop_inv hs (g := { store := s }) rfl (.reading rfl rfl rfl rfl (by simp)) hloop
  cases inv with
  | reading hstore hpending hfirst hu hread =>
    simp only [hfirst, Prog.runs_pure] at h
    obtain ⟨rfl, rfl⟩ := h
    rw [hu]
    exact ⟨.nothing _ _ rfl, fun j r hr => Table.mem_of_get (hread j r hr)⟩
  | running hfirst hne hnext hbegun hpi hle hids hstore hu hread =>
    simp only [hfirst, Prog.runs_bind, Prog.runs_expect, Prog.runs_pure] at h
    obtain ⟨⟨⟩, d₃, ⟨x, hx, hack⟩, rfl, rfl⟩ := h
    rw [acknowledged_eq hack] at hx
    obtain ⟨t', ht', rfl⟩ := with_eq_some hx
    rw [hu] at ht'
    simp only [Tables.saveResults, Tables.affected, begun_store hs] at ht'
    split at ht'
    · have heq := insertResults_tables ht'
      refine ⟨.suffix ⟨hs, hnext, hbegun, hvalid, hne, by omega, hids, ?_⟩, ?_⟩
      · rw [heq]
        simp [begun_effects, begun_journal]
      · intro j r hr
        rw [heq]
        rcases hread j r hr with hget | ⟨n, hn, hp⟩
        · exact List.mem_append_left _ (mem_begun_of_get hget)
        · refine List.mem_append_right _ ?_
          rw [hn]
          exact List.mem_map.2 ⟨(r, n), List.mem_iff_getElem?.2 ⟨n, by simp [hp]⟩, rfl⟩
    · cases ht'

/-- **Every call commits nothing or one suffix, and returns what the table holds.** -/
theorem Call.committed {c : Call} {results : List MutationResult}
    (h : (c.body P H).Runs Host.Answers d (.ok results) d') :
    Committed c.request d.tables d'.tables ∧ Returned c.request c.start results d'.tables := by
  cases c with
  | member config owner q ordinal => exact executeMember_committed h
  | group config owner q start count => exact executeGroup_committed h

/-! ## The tables between transactions -/

/-- The order of members: by batch, then by ordinal. -/
def Member.Before (a b : Member) : Prop := a.1 < b.1 ∨ (a.1 = b.1 ∧ a.2 < b.2)

/-- The first batch whose results are kept: beginning a batch prunes the one before it. -/
def Store.keptFrom (s : Store) : Nat := if s.currentDigest.isSome then s.lastProcessedBatchId + 1 else s.lastProcessedBatchId

/-- The body of the batch in progress, or last processed, with the batch id it must have. -/
def Names (digest : Option (Digest BatchBody)) (count : Option Nat) (batchId : Nat) : Prop :=
  count = digest.map (·.of.mutations.length) ∧ ∀ x, digest = some x → x.of.batchId = batchId

/-- The members of a batch in the journal, with the ids of its body. -/
def Recorded (journal : Table Member MutationResult) (batchId : Nat) (b : BatchBody) (upto : Nat) : Prop :=
  (∀ o, (∃ r, ((batchId, o), r) ∈ journal) ↔ o < upto) ∧
    ∀ o r, ((batchId, o), r) ∈ journal → (b.mutations[o]?).map (·.id) = some r.mutationId

/-- What the tables hold beside a row. -/
structure Shape (s : Store) (t : Tables) : Prop where
  current : Names s.currentDigest s.currentCount (s.lastProcessedBatchId + 1)
  last : Names s.lastDigest s.lastCount s.lastProcessedBatchId
  started : s.lastDigest = none → s.lastProcessedBatchId = 0
  idle : s.currentDigest = none → s.progress = 0
  due : ∀ x, s.currentDigest = some x → s.progress < x.of.mutations.length
  ordered : t.journal.Pairwise fun a b => Member.Before a.1 b.1
  bound : ∀ e ∈ t.journal, (0 < e.1.1 ∧ e.1.1 ≤ s.lastProcessedBatchId) ∨
    (e.1.1 = s.lastProcessedBatchId + 1 ∧ e.1.2 < s.progress)
  running : ∀ x, s.currentDigest = some x → Recorded t.journal (s.lastProcessedBatchId + 1) x.of s.progress
  finished : ∀ x, s.lastDigest = some x → Recorded t.journal s.lastProcessedBatchId x.of x.of.mutations.length
  effects : t.effects = t.journal.flatMap effectsOf
  results : t.results = t.journal.filter fun e => decide (s.keptFrom ≤ e.1.1)

/-- Committed tables: nothing without a row, and a row with its shape. -/
def Consistent (t : Tables) : Prop :=
  match t.store with
  | none => t = {}
  | some s => Shape s t

theorem shape_fresh (principal stream : String) : Shape { principal, stream } { store := some { principal, stream } } where
  current := ⟨rfl, by simp⟩
  last := ⟨rfl, by simp⟩
  started _ := rfl
  idle _ := rfl
  due x hx := by cases hx
  ordered := .nil
  bound e he := by cases he
  running x hx := by cases hx
  finished x hx := by cases hx
  effects := rfl
  results := rfl

theorem Consistent.claimed {t : Tables} (h : Consistent t) (principal stream : String) :
    ∃ s, (t.claimed principal stream).store = some s ∧ Shape s (t.claimed principal stream) := by
  unfold Consistent at h
  cases hs : t.store with
  | none =>
    rw [hs] at h
    rw [h]
    exact ⟨_, rfl, shape_fresh principal stream⟩
  | some s =>
    rw [hs] at h
    have heq : t.claimed principal stream = t := by
      unfold Tables.claimed
      rw [hs, Option.getD_some, ← hs]
    rw [heq]
    exact ⟨s, hs, h⟩

theorem mem_suffix {b p : Nat} {results : List MutationResult} {e : Member × MutationResult} :
    e ∈ Tables.suffix b p results ↔ ∃ i, results[i]? = some e.2 ∧ e.1 = (b, p + i) := by
  constructor
  · intro h
    obtain ⟨⟨r, i⟩, hx, rfl⟩ := List.mem_map.1 h
    obtain ⟨j, hj⟩ := List.mem_iff_getElem?.1 hx
    simp only [List.getElem?_zipIdx, Option.map_eq_some_iff, Prod.mk.injEq] at hj
    obtain ⟨r', hr', rfl, rfl⟩ := hj
    exact ⟨j, hr', by simp⟩
  · rintro ⟨i, hr, hk⟩
    obtain ⟨k, r⟩ := e
    simp only at hr hk
    subst hk
    exact List.mem_map.2 ⟨(r, i), List.mem_iff_getElem?.2 ⟨i, by simp [hr]⟩, rfl⟩

theorem suffix_ordered (b p : Nat) (results : List MutationResult) :
    (Tables.suffix b p results).Pairwise fun x y => Member.Before x.1 y.1 := by
  unfold Tables.suffix
  rw [List.pairwise_map, List.pairwise_iff_getElem]
  intro i j hi hj hij
  simp only [List.getElem_zipIdx]
  exact .inr ⟨rfl, by omega⟩

theorem MutationRequest.validate_digest {q : MutationRequest} (h : q.validate = .ok ()) :
    q.digest = ⟨q.toBatchBody⟩ ∧ 0 < q.batchId := by
  simp only [MutationRequest.validate, batchDigest, bind_ok, pure_ok, check_ok, decide_eq_true_eq] at h
  obtain ⟨x, ⟨_, hbody, rfl⟩, hd⟩ := h
  simp only [BatchBody.validate, bind_ok, check_ok, positive, Bool.and_eq_true, bne_iff_ne, ne_eq] at hbody
  obtain ⟨_, _, _, hpos, _⟩ := hbody
  exact ⟨hd.symm, Nat.pos_of_ne_zero hpos.2⟩

/-- The members of the row's next batch after a suffix was appended. -/
theorem Commits.recorded {s : Store} {results : List MutationResult} {t t' : Tables} (hc : Commits s q results t t')
    (h : Shape s t) : Recorded t'.journal q.batchId q.toBatchBody (s.progress + results.length) := by
  have hdigest := (MutationRequest.validate_digest hc.valid).1
  have hbatch := hc.next.batch
  have hjournal : t'.journal = t.journal ++ Tables.suffix q.batchId s.progress results := by rw [hc.eq]
  rw [hjournal]
  -- what the journal held of this batch before
  have before : ∀ o r, ((q.batchId, o), r) ∈ t.journal → o < s.progress ∧
      (q.mutations[o]?).map (·.id) = some r.mutationId := by
    intro o r hmem
    have hb := h.bound _ hmem
    simp only at hb
    cases hcur : s.currentDigest with
    | none =>
      have := h.idle hcur
      omega
    | some x =>
      obtain ⟨rfl, -⟩ := hc.next.digest x hcur
      have hrec := h.running _ hcur
      rw [← hbatch] at hrec
      refine ⟨(hrec.1 o).1 ⟨r, hmem⟩, ?_⟩
      have := hrec.2 o r hmem
      rw [hdigest] at this
      exact this
  refine ⟨fun o => ⟨?_, fun ho => ?_⟩, ?_⟩
  · rintro ⟨r, hr⟩
    rcases List.mem_append.1 hr with hr | hr
    · have := (before o r hr).1
      omega
    · obtain ⟨i, hi, hk⟩ := mem_suffix.1 hr
      simp only [Prod.mk.injEq, true_and] at hk
      have := (List.getElem?_eq_some_iff.1 hi).1
      omega
  · by_cases hlt : o < s.progress
    · cases hcur : s.currentDigest with
      | none =>
        have := h.idle hcur
        omega
      | some x =>
        have hrec := h.running x hcur
        rw [← hbatch] at hrec
        obtain ⟨r, hr⟩ := (hrec.1 o).2 hlt
        exact ⟨r, List.mem_append_left _ hr⟩
    · have hi : o - s.progress < results.length := by omega
      refine ⟨results[o - s.progress], List.mem_append_right _ (mem_suffix.2 ⟨o - s.progress, by simp [hi], ?_⟩)⟩
      simp only [Prod.mk.injEq, true_and]
      omega
  · intro o r hr
    rcases List.mem_append.1 hr with hr | hr
    · exact (before o r hr).2
    · obtain ⟨i, hi, hk⟩ := mem_suffix.1 hr
      simp only [Prod.mk.injEq, true_and] at hk
      rw [hk]
      exact hc.ids i r hi

/-- Every earlier member is before the members of a suffix. -/
theorem Commits.ordered {s : Store} {results : List MutationResult} {t t' : Tables} (hc : Commits s q results t t')
    (h : Shape s t) : t'.journal.Pairwise fun a b => Member.Before a.1 b.1 := by
  have hjournal : t'.journal = t.journal ++ Tables.suffix q.batchId s.progress results := by rw [hc.eq]
  have hbatch := hc.next.batch
  rw [hjournal, List.pairwise_append]
  refine ⟨h.ordered, suffix_ordered _ _ _, fun a ha b hb => ?_⟩
  obtain ⟨i, -, hk⟩ := mem_suffix.1 hb
  unfold Member.Before
  rw [hk]
  rcases h.bound a ha with hle | ⟨heq, hlt⟩
  · exact .inl (by simp only; omega)
  · exact .inr ⟨by simp only; omega, by simp only; omega⟩

/-- The results a suffix leaves are those of its own batch. -/
theorem Commits.results {s : Store} {results : List MutationResult} {t t' : Tables} (hc : Commits s q results t t')
    (h : Shape s t) : t'.results = t'.journal.filter fun e => decide (q.batchId ≤ e.1.1) := by
  have hbatch := hc.next.batch
  have hsuffix : (Tables.suffix q.batchId s.progress results).filter (fun e => decide (q.batchId ≤ e.1.1)) =
      Tables.suffix q.batchId s.progress results := by
    rw [List.filter_eq_self]
    intro e he
    obtain ⟨i, -, hk⟩ := mem_suffix.1 he
    simp [hk]
  have hold : (t.begun q s).results = t.journal.filter fun e => decide (q.batchId ≤ e.1.1) := by
    have hres := h.results
    unfold Tables.begun Store.keptFrom at *
    cases hcur : s.currentDigest with
    | none =>
      simp only [hcur, Option.isNone_none, if_true, Option.isSome_none, Bool.false_eq_true, if_false] at hres ⊢
      rw [hres, List.filter_filter]
      refine List.filter_congr fun e _ => ?_
      rw [← Bool.decide_and]
      refine decide_eq_decide.2 ⟨fun h => h.1, fun h => ⟨h, by omega⟩⟩
    | some x =>
      simp only [hcur, Option.isNone_some, Bool.false_eq_true, if_false, Option.isSome_some, if_true] at hres ⊢
      rw [hres, hbatch]
  rw [hc.eq]
  simp only [List.filter_append, hsuffix, hold]

/-- **Committing a suffix keeps the shape.** -/
theorem Commits.shape {s : Store} {results : List MutationResult} {t t' : Tables} (hc : Commits s q results t t')
    (h : Shape s t) : ∃ s', t'.store = some s' ∧ Shape s' t' := by
  obtain ⟨hdigest, hpos⟩ := MutationRequest.validate_digest hc.valid
  obtain ⟨hcurrent, hcount⟩ := hc.next.begun_digest
  have hbatch := hc.next.batch
  have hrec := hc.recorded h
  have hlen : 0 < results.length := List.length_pos_iff.2 hc.nonempty
  have hwithin := hc.within
  have hlast : (s.begun q).lastDigest = s.lastDigest ∧ (s.begun q).lastCount = s.lastCount := by
    unfold Store.begun
    split <;> exact ⟨rfl, rfl⟩
  have hstore : t'.store = some ((s.begun q).advance q.batchId (s.progress + results.length) q.mutations.length) := by
    rw [hc.eq]
  have heffects : t'.effects = t'.journal.flatMap effectsOf := by
    rw [hc.eq]
    simp only [List.flatMap_append, ← h.effects, suffixEffects]
  have hbound : ∀ e ∈ t'.journal, (0 < e.1.1 ∧ e.1.1 ≤ s.lastProcessedBatchId) ∨
      (e.1.1 = q.batchId ∧ e.1.2 < s.progress + results.length) := by
    intro e he
    have hjournal : t'.journal = t.journal ++ Tables.suffix q.batchId s.progress results := by rw [hc.eq]
    rw [hjournal] at he
    rcases List.mem_append.1 he with he | he
    · rcases h.bound e he with hb | ⟨hb, hp⟩
      · exact .inl hb
      · exact .inr ⟨by omega, by omega⟩
    · obtain ⟨i, hi, hk⟩ := mem_suffix.1 he
      have := (List.getElem?_eq_some_iff.1 hi).1
      rw [hk]
      exact .inr ⟨rfl, by simp only; omega⟩
  refine ⟨_, hstore, ?_⟩
  by_cases hfull : s.progress + results.length = q.mutations.length
  · -- the batch is complete: it becomes the last processed one
    unfold Store.advance
    rw [if_pos hfull]
    refine ⟨⟨rfl, nofun⟩, ⟨?_, fun x hx => ?_⟩, fun hx => ?_, fun _ => rfl, nofun,
      hc.ordered h, fun e he => ?_, nofun, fun x hx => ?_, heffects, ?_⟩
    · simp only [hcount, hcurrent, hdigest, Option.map_some]
    · simp only [hcurrent, Option.some.injEq] at hx
      rw [← hx, hdigest]
    · simp only [hcurrent] at hx
      cases hx
    · rcases hbound e he with hb | ⟨hb, -⟩
      · exact .inl ⟨hb.1, by simp only; omega⟩
      · exact .inl ⟨by omega, by simp only; omega⟩
    · simp only [hcurrent, Option.some.injEq] at hx
      subst hx
      rw [hdigest]
      simp only
      rw [← hfull]
      exact hrec
    · rw [hc.results h]
      rfl
  · -- the batch goes on
    unfold Store.advance
    rw [if_neg hfull]
    refine ⟨⟨?_, fun x hx => ?_⟩, ⟨?_, fun x hx => ?_⟩, fun hx => ?_, fun hx => ?_, fun x hx => ?_, hc.ordered h,
      fun e he => ?_, fun x hx => ?_, fun x hx => ?_, heffects, ?_⟩
    · simp only [hcount, hcurrent, hdigest, Option.map_some]
    · simp only [hcurrent, Option.some.injEq] at hx
      rw [← hx, hdigest]
      simp only [begun_last]
      exact hbatch
    · simp only [hlast]
      exact h.last.1
    · simp only [hlast, begun_last] at hx ⊢
      exact h.last.2 x hx
    · simp only [hlast, begun_last] at hx ⊢
      exact h.started hx
    · simp only [hcurrent] at hx
      cases hx
    · simp only [hcurrent, Option.some.injEq] at hx
      rw [← hx, hdigest]
      simp only
      omega
    · simp only [begun_last]
      rcases hbound e he with hb | ⟨hb, hp⟩
      · exact .inl hb
      · exact .inr ⟨by omega, hp⟩
    · simp only [hcurrent, Option.some.injEq] at hx
      rw [← hx, hdigest]
      simp only [begun_last, ← hbatch]
      exact hrec
    · simp only [hlast, begun_last] at hx ⊢
      have hold := h.finished x hx
      have hjournal : t'.journal = t.journal ++ Tables.suffix q.batchId s.progress results := by rw [hc.eq]
      -- the suffix belongs to a later batch
      have hsame : ∀ o r, ((s.lastProcessedBatchId, o), r) ∈ t'.journal ↔ ((s.lastProcessedBatchId, o), r) ∈ t.journal := by
        intro o r
        rw [hjournal, List.mem_append]
        refine ⟨fun hm => hm.resolve_right fun hm => ?_, .inl⟩
        obtain ⟨i, -, hk⟩ := mem_suffix.1 hm
        simp only [Prod.mk.injEq] at hk
        omega
      refine ⟨fun o => ?_, fun o r hr => hold.2 o r ((hsame o r).1 hr)⟩
      rw [← hold.1 o]
      exact exists_congr fun r => hsame o r
    · rw [hc.results h]
      unfold Store.keptFrom
      simp only [hcurrent, Option.isSome_some, if_true, begun_last, ← hbatch]

theorem Shape.consistent {s : Store} {t : Tables} (hs : t.store = some s) (h : Shape s t) : Consistent t := by
  unfold Consistent
  rw [hs]
  exact h

/-- A call keeps the tables consistent and only appends to the journal. -/
theorem Committed.consistent {t t' : Tables} (h : Committed q t t') (ht : Consistent t) :
    Consistent t' ∧ t.journal <+: t'.journal := by
  cases h with
  | nothing principal stream heq =>
    obtain ⟨s, hs, hshape⟩ := ht.claimed principal stream
    rw [heq]
    exact ⟨hshape.consistent hs, List.prefix_rfl⟩
  | @suffix principal stream s results hc =>
    obtain ⟨s₁, hs₁, hshape⟩ := ht.claimed principal stream
    have hsame : s₁ = s := Option.some.inj (hs₁.symm.trans hc.store)
    subst hsame
    obtain ⟨s', hs', hshape'⟩ := hc.shape hshape
    refine ⟨hshape'.consistent hs', ?_⟩
    rw [hc.eq]
    exact List.prefix_append _ _

/-! ## Whole runs -/

/-- Calls of the batch path in any interleaving, each in a transaction that may abort. -/
abbrev Calls (P : Platform) (H : Hashes) :=
  Trace (Transactions.Step (κ := Call) (α := List MutationResult) Host.Answers (Call.body P H))

/-- What a committed call returned is in the journal. -/
def Answered (journal : Table Member MutationResult) (e : Call × List MutationResult) : Prop :=
  ∀ j r, e.2[j]? = some r → ((e.1.request.batchId, e.1.start + j), r) ∈ journal

theorem Consistent.results_journal {t : Tables} (h : Consistent t) {e : Member × MutationResult} (he : e ∈ t.results) :
    e ∈ t.journal := by
  unfold Consistent at h
  split at h
  · rw [h] at he
    cases he
  · rw [h.results] at he
    exact (List.mem_filter.1 he).1

/-- One committed call keeps the tables consistent, appends to the journal and answers from it. -/
theorem serial_consistent {e : Call × List MutationResult} (h : Transactions.Serial Host.Answers (Call.body P H) d e d')
    (hd : Consistent d.tables) :
    Consistent d'.tables ∧ d.tables.journal <+: d'.tables.journal ∧ Answered d'.tables.journal e := by
  obtain ⟨hcommitted, hreturned⟩ := Call.committed h
  obtain ⟨hconsistent, hpre⟩ := hcommitted.consistent hd
  exact ⟨hconsistent, hpre, fun j r hr => hconsistent.results_journal (hreturned j r hr)⟩

/-- **What is executed.** The journal lists the members in the order in which they were committed; of the
batch in progress they are those below the row's progress, of the last processed batch all. The business
effects are those of the accepted members, in the same order, and the results a row still answers for are
those of the journal. -/
structure Executed (t : Tables) : Prop where
  inOrder : t.journal.Pairwise fun a b => Member.Before a.1 b.1
  effects : t.effects = t.journal.flatMap effectsOf
  current : ∀ s, t.store = some s → ∀ o, (∃ r, ((s.lastProcessedBatchId + 1, o), r) ∈ t.journal) ↔ o < s.progress
  last : ∀ s n, t.store = some s → s.lastCount = some n →
    ∀ o, (∃ r, ((s.lastProcessedBatchId, o), r) ∈ t.journal) ↔ o < n
  saved : ∀ s, t.store = some s → ∀ e, e ∈ t.results ↔ e ∈ t.journal ∧ s.keptFrom ≤ e.1.1

theorem Shape.executed {s : Store} {t : Tables} (hs : t.store = some s) (h : Shape s t) : Executed t where
  inOrder := h.ordered
  effects := h.effects
  current := by
    rw [hs]
    rintro s' ⟨⟩ o
    cases hcur : s.currentDigest with
    | some x => exact (h.running x hcur).1 o
    | none =>
      have hzero := h.idle hcur
      refine ⟨?_, fun ho => by omega⟩
      rintro ⟨r, hr⟩
      have := h.bound _ hr
      simp only at this
      omega
  last := by
    rw [hs]
    rintro s' n ⟨⟩ hn
    have hnames := h.last.1
    rw [hn] at hnames
    cases hlast : s.lastDigest with
    | none =>
      rw [hlast] at hnames
      cases hnames
    | some x =>
      rw [hlast] at hnames
      cases hnames
      exact (h.finished x hlast).1
  saved := by
    rw [hs]
    rintro s' ⟨⟩ e
    rw [h.results, List.mem_filter, decide_eq_true_eq]

theorem Consistent.executed {t : Tables} (h : Consistent t) : Executed t := by
  unfold Consistent at h
  split at h
  · subst h
    exact ⟨.nil, rfl, nofun, nofun, nofun⟩
  · rename_i s hs
    exact h.executed hs

theorem consistent_empty : Consistent {} := rfl

end Server

namespace Notes

open Server

/-- A mutation of note `a`. -/
def mutation (id : Nat) (action : String) (operation : WireOperation) : Mutation where
  id := id
  name := action
  version := 1
  descriptor := ⟨{ name := action, version := 1, inputs := [] }⟩
  operations := [⟨1, "note", operation, some "note", .obj [("id", .str "a")], .obj [("title", .str "x")]⟩]

def pushed : BatchBody where
  context := { storeId := "store", stream := "user", materialization := "m-notes" }
  batchId := 1
  mutations := [mutation 1 "addNote" .create, mutation 2 "renameNote" .update]

def push : MutationRequest := ⟨pushed, ⟨pushed⟩⟩

/-- The first member alone. -/
def first : Server.Call := .member config "user" push 0

/-- Both members as a group: the first is saved already. -/
def both : Server.Call := .group config "user" push 0 2

/-- The application accepts note `a`, which the Stream does not hold. -/
def accepting : List Ans := [.handled .settled,
  .settled (.accepted 3 .null [none] [some (.obj [("id", .str "a"), ("title", .str "x")])])]

def firstAnswers : List Ans :=
  [.store { principal := "user", stream := "user" }, .allowed true, .acknowledged, .acknowledged] ++ accepting ++
    [.acknowledged, .acknowledged]

def firstRun : Option (Except String (List MutationResult) × Database) :=
  (first.body platform hashes).replay Host.answer firstAnswers {}

theorem firstRun_isSome : firstRun.isSome = true := by decide +kernel

def once : Database := (firstRun.get firstRun_isSome).2

def firstResult : MutationResult :=
  ⟨1, .accepted 3 .null [.privately ⟨⟨"note", .obj [("id", .str "a")]⟩, .obj [("title", .str "x")]⟩]⟩

def bothAnswers : List Ans :=
  [.store (once.tables.store.getD { principal := "user", stream := "user" }), .allowed true, .result (some firstResult),
    .allowed true, .acknowledged, .handled (.rejected "no"), .acknowledged, .acknowledged, .acknowledged]

def bothRun : Option (Except String (List MutationResult) × Database) :=
  (both.body platform hashes).replay Host.answer bothAnswers once

theorem bothRun_isSome : bothRun.isSome = true := by decide +kernel

def twice : Database := (bothRun.get bothRun_isSome).2

end Notes

end Axton
