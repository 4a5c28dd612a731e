import Mathlib.Data.Finset.Card
import Mathlib.Data.Finset.Dedup
import Mathlib.Logic.Relation
import Mathlib.Data.List.Sublists

/-!
# Worklist search

A depth-first search with a stack, a set of seen nodes and an admission test, as it is written with
`while let Some(x) = todo.pop()`. The loop has fuel; with as much fuel as there are candidate nodes it
finds exactly the nodes that a path of admitted nodes reaches (`mem_search`), each once.
-/

namespace Axton

namespace Worklist

variable {α : Type} [DecidableEq α]

structure State (α : Type) where
  seen : List α
  todo : List α
  result : List α

/-- `if seen.insert(x) && admit(x) { todo.push(x); result.push(x) }`. -/
def visit (admits : α → Bool) (w : State α) (x : α) : State α :=
  if w.seen.contains x then w
  else if admits x then ⟨x :: w.seen, x :: w.todo, w.result ++ [x]⟩
  else { w with seen := x :: w.seen }

/-- The loop over the stack. -/
def run (next : α → List α) (admits : α → Bool) : Nat → State α → List α
  | 0, w => w.result
  | fuel + 1, w => match w.todo with
    | [] => w.result
    | x :: todo => run next admits fuel ((next x).foldl (visit admits) { w with todo })

def search (next : α → List α) (admits : α → Bool) (fuel : Nat) (start : α) : List α :=
  run next admits fuel ⟨[start], [start], []⟩

/-- One step of the search. -/
def Edge (next : α → List α) (admits : α → Bool) (x y : α) : Prop := y ∈ next x ∧ admits y = true

section
variable {next : α → List α} {admits : α → Bool} {start : α}

/-- What the search knows: the nodes found so far are reached, and the neighbours of every node that
left the stack were seen. -/
structure Inv (next : α → List α) (admits : α → Bool) (start : α) (w : State α) : Prop where
  nodup : w.result.Nodup
  start_seen : start ∈ w.seen
  start_found : start ∉ w.result
  seen : ∀ x ∈ w.result, x ∈ w.seen
  reached : ∀ x ∈ w.result, Relation.TransGen (Edge next admits) start x
  refused : ∀ x ∈ w.seen, x = start ∨ x ∈ w.result ∨ admits x = false
  todo : ∀ x ∈ w.todo, x = start ∨ x ∈ w.result

/-- The neighbours of the nodes off the stack were seen, except the pending ones of `x`. -/
def Explored (next : α → List α) (start : α) (pending : α → List α) (w : State α) : Prop :=
  ∀ x, x = start ∨ x ∈ w.result → x ∉ w.todo → ∀ y ∈ next x, y ∈ w.seen ∨ y ∈ pending x

theorem Inv.visited {w : State α} (h : Inv next admits start w) {x y : α} (hx : x = start ∨ x ∈ w.result)
    (hy : y ∈ next x) : Inv next admits start (visit admits w y) := by
  unfold Worklist.visit
  split
  · exact h
  · rename_i hseen
    have hseen : y ∉ w.seen := by simpa using hseen
    split
    · rename_i hadm
      have path : Relation.TransGen (Edge next admits) start y := by
        rcases hx with rfl | hx
        · exact .single ⟨hy, hadm⟩
        · exact (h.reached x hx).tail ⟨hy, hadm⟩
      refine ⟨?_, by simp [h.start_seen], ?_, ?_, ?_, ?_, ?_⟩
      · rw [List.nodup_append]
        refine ⟨h.nodup, by simp, ?_⟩
        rintro a ha b hb rfl
        rw [List.mem_singleton] at hb
        exact hseen (hb ▸ h.seen a ha)
      · simp only [List.mem_append, List.mem_singleton, not_or]
        exact ⟨h.start_found, fun e => hseen (e ▸ h.start_seen)⟩
      · intro z hz
        rcases List.mem_append.1 hz with hz | hz
        · exact List.mem_cons_of_mem _ (h.seen z hz)
        · rw [List.mem_singleton] at hz
          simp [hz]
      · intro z hz
        rcases List.mem_append.1 hz with hz | hz
        · exact h.reached z hz
        · rw [List.mem_singleton] at hz
          exact hz ▸ path
      · intro z hz
        rcases List.mem_cons.1 hz with rfl | hz
        · exact .inr (.inl (by simp))
        · rcases h.refused z hz with h | h | h
          · exact .inl h
          · exact .inr (.inl (by simp [h]))
          · exact .inr (.inr h)
      · intro z hz
        rcases List.mem_cons.1 hz with rfl | hz
        · exact .inr (by simp)
        · exact (h.todo z hz).imp_right fun h => by simp [h]
    · rename_i hadm
      refine ⟨h.nodup, by simp [h.start_seen], h.start_found, fun z hz => ?_, h.reached, fun z hz => ?_, h.todo⟩
      · exact List.mem_cons_of_mem _ (h.seen z hz)
      · rcases List.mem_cons.1 hz with rfl | hz
        · exact .inr (.inr (by simpa using hadm))
        · exact h.refused z hz

/-- What a visit does to the three lists. -/
theorem visit_mono (admits : α → Bool) (w : State α) (y : α) :
    (∀ x ∈ w.seen, x ∈ (visit admits w y).seen) ∧ y ∈ (visit admits w y).seen ∧
      (∀ x ∈ w.result, x ∈ (visit admits w y).result) ∧ (∀ x ∈ w.todo, x ∈ (visit admits w y).todo) ∧
      ∀ x ∈ (visit admits w y).result, x ∈ w.result ∨ x ∈ (visit admits w y).todo := by
  unfold visit
  split
  · rename_i hseen
    exact ⟨fun _ h => h, by simpa using hseen, fun _ h => h, fun _ h => h, fun _ h => .inl h⟩
  · split
    · refine ⟨by simp +contextual, by simp, by simp +contextual, by simp +contextual, fun x hx => ?_⟩
      rcases List.mem_append.1 hx with hx | hx
      · exact .inl hx
      · exact .inr (by simp_all)
    · exact ⟨by simp +contextual, by simp, fun _ h => h, fun _ h => h, fun _ h => .inl h⟩

/-- Visiting the neighbours of `x` explores it. -/
theorem Inv.explored {x : α} {ys : List α} {w : State α} (h : Inv next admits start w) (hx : x = start ∨ x ∈ w.result)
    (hys : ∀ y ∈ ys, y ∈ next x) (he : Explored next start (fun z => if z = x then ys else []) w) :
    Inv next admits start (ys.foldl (visit admits) w) ∧
      Explored next start (fun _ => []) (ys.foldl (visit admits) w) := by
  induction ys generalizing w with
  | nil => exact ⟨h, fun z hz ht y hy => by simpa using he z hz ht y hy⟩
  | cons y ys ih =>
    obtain ⟨hseen, hy, hres, htodo, hnew⟩ := visit_mono admits w y
    refine ih (h.visited hx (hys y (by simp))) (hx.imp_right (hres x)) (fun z hz => hys z (by simp [hz])) ?_
    intro z hz ht c hc
    have hz' : z = start ∨ z ∈ w.result := hz.imp_right fun h => (hnew z h).resolve_right ht
    rcases he z hz' (fun h => ht (htodo z h)) c hc with h | h
    · exact .inl (hseen c h)
    · by_cases hzx : z = x
      · simp only [hzx, if_true] at h ⊢
        rcases List.mem_cons.1 h with rfl | h
        · exact .inl hy
        · exact .inr h
      · simp [hzx] at h

/-! ## Fuel -/

variable {candidates : List α}

/-- Nodes still to be popped. -/
def measure (candidates : List α) (w : State α) : Nat :=
  w.todo.length + (candidates.toFinset \ w.seen.toFinset).card

theorem measure_visit {w : State α} {y : α} (hy : y ∈ candidates) :
    measure candidates (visit admits w y) ≤ measure candidates w := by
  unfold visit
  split
  · exact le_refl _
  · rename_i hseen
    have less : (candidates.toFinset \ (y :: w.seen).toFinset).card + 1 ≤
        (candidates.toFinset \ w.seen.toFinset).card := by
      refine Finset.card_lt_card ⟨fun z hz => ?_, fun h => ?_⟩
      · simp only [List.toFinset_cons, Finset.mem_sdiff, Finset.mem_insert, not_or] at hz ⊢
        exact ⟨hz.1, hz.2.2⟩
      · have : y ∈ candidates.toFinset \ w.seen.toFinset := by simpa [hy] using hseen
        simpa using h this
    split
    · simp only [measure, List.length_cons]
      omega
    · simp only [measure]
      omega

theorem measure_visits {ys : List α} {w : State α} (h : ∀ y ∈ ys, y ∈ candidates) :
    measure candidates (ys.foldl (visit admits) w) ≤ measure candidates w := by
  induction ys generalizing w with
  | nil => exact le_refl _
  | cons y ys ih =>
    have rest : measure candidates (ys.foldl (visit admits) (visit admits w y)) ≤ measure candidates (visit admits w y) :=
      ih fun z hz => h z (by simp [hz])
    exact le_trans rest (measure_visit (h y (by simp)))

/-- With enough fuel the search ends with an empty stack. -/
theorem run_spec (hnext : ∀ x, ∀ y ∈ next x, y ∈ candidates) : ∀ (fuel : Nat) {w : State α},
    Inv next admits start w → Explored next start (fun _ => []) w → measure candidates w ≤ fuel →
    ∃ w' : State α, run next admits fuel w = w'.result ∧ Inv next admits start w' ∧
      Explored next start (fun _ => []) w' ∧ w'.todo = []
  | 0, w, h, he, hm => by
    have : w.todo = [] := List.length_eq_zero_iff.1 (by unfold measure at hm; omega)
    exact ⟨w, rfl, h, he, this⟩
  | fuel + 1, w, h, he, hm => by
    cases htodo : w.todo with
    | nil => exact ⟨w, by simp [run, htodo], h, he, htodo⟩
    | cons x todo =>
      have hx : x = start ∨ x ∈ w.result := h.todo x (by simp [htodo])
      have popped : Inv next admits start { w with todo } :=
        ⟨h.nodup, h.start_seen, h.start_found, h.seen, h.reached, h.refused, fun z hz => h.todo z (by simp [htodo, hz])⟩
      have pending : Explored next start (fun z => if z = x then next x else []) { w with todo } := by
        intro z hz ht y hy
        by_cases hzx : z = x
        · exact .inr (by simpa [hzx] using hzx ▸ hy)
        · have hnot : z ∉ w.todo := by
            rw [htodo]
            simpa [hzx] using ht
          exact .inl ((he z hz hnot y hy).resolve_right (by simp))
      obtain ⟨hinv, hexp⟩ := popped.explored hx (fun _ hy => hy) pending
      have less : measure candidates ((next x).foldl (visit admits) { w with todo }) ≤ fuel := by
        refine le_trans (measure_visits (hnext x)) ?_
        have : measure candidates w = measure candidates { w with todo } + 1 := by
          simp only [measure, htodo, List.length_cons]
          omega
        omega
      simpa [run, htodo] using run_spec hnext fuel hinv hexp less

theorem search_spec (admits : α → Bool) (start : α) (hnext : ∀ x, ∀ y ∈ next x, y ∈ candidates) {fuel : Nat} (hfuel : candidates.length < fuel) :
    ∃ w : State α, search next admits fuel start = w.result ∧ Inv next admits start w ∧
      Explored next start (fun _ => []) w ∧ w.todo = [] := by
  refine run_spec hnext fuel ?_ ?_ ?_
  · exact ⟨by simp, by simp, by simp, by simp, by simp, by simp, by simp⟩
  · intro x hx ht
    simp at hx ht
    exact absurd hx ht
  · have : (candidates.toFinset \ [start].toFinset).card ≤ candidates.length :=
      le_trans (Finset.card_le_card Finset.sdiff_subset) (List.toFinset_card_le _)
    simp only [measure, List.length_singleton]
    omega

/-- **The search finds exactly what admitted paths reach.** -/
theorem mem_search (hnext : ∀ x, ∀ y ∈ next x, y ∈ candidates) {fuel : Nat} (hfuel : candidates.length < fuel) {x : α} :
    x ∈ search next admits fuel start ↔ x ≠ start ∧ Relation.TransGen (Edge next admits) start x := by
  obtain ⟨w, hw, inv, exp, htodo⟩ := search_spec admits start hnext hfuel
  rw [hw]
  constructor
  · intro hx
    exact ⟨fun e => inv.start_found (e ▸ hx), inv.reached x hx⟩
  · rintro ⟨hne, path⟩
    have found : x = start ∨ x ∈ w.result := by
      clear hne
      induction path with
      | single e =>
        have hseen := (exp start (.inl rfl) (by simp [htodo]) _ e.1).resolve_right (by simp)
        rcases inv.refused _ hseen with h | h | h
        · exact .inl h
        · exact .inr h
        · rw [e.2] at h; cases h
      | tail _ e ih =>
        have hseen := (exp _ ih (by simp [htodo]) _ e.1).resolve_right (by simp)
        rcases inv.refused _ hseen with h | h | h
        · exact .inl h
        · exact .inr h
        · rw [e.2] at h; cases h
    exact found.resolve_left hne

theorem nodup_search (hnext : ∀ x, ∀ y ∈ next x, y ∈ candidates) {fuel : Nat} (hfuel : candidates.length < fuel) :
    (search next admits fuel start).Nodup := by
  obtain ⟨w, hw, inv, -, -⟩ := search_spec admits start hnext hfuel
  exact hw ▸ inv.nodup

end

end Worklist

end Axton
