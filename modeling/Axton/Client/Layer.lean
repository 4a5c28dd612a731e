import Axton.Client.Mutate
import Axton.Core.Objects

/-!
# The coalesced local layer

`retain_local_operation` (authority.rs:37) keeps a record's settled operations as a short list: a create or
delete cuts off what came before, adjacent updates merge. However long the history was, the list is one of
three shapes (`Shape`), and over every base it gives the row the whole history gives (`layer_equivalent`).
-/

namespace Axton

variable {s : Store} {key : RecordKey} {layer : List Operation} {o : Operation}

/-- The values of a settled operation: an object for a create or update, none for a delete. -/
def Operation.Settles (o : Operation) : Prop :=
  match o.op with
  | .create => ∃ fields : Fields, o.values = some (.obj fields)
  | .update => ∃ patch : Fields, patch.Ordered ∧ o.values = some (.obj patch)
  | .delete => o.values = none

/-- What the recorded list looks like: an update may follow one other operation. -/
inductive Shape : List Operation → Prop
  | nil : Shape []
  | one {o : Operation} : o.Settles → Shape [o]
  | two {o u : Operation} : o.Settles → o.op ≠ .update → u.op = .update → u.Settles → Shape [o, u]

/-- A create or delete does not look at the row before it. -/
theorem applySettled_cuts (h : o.Settles) (hne : o.op ≠ .update) (a b : Option Row) : applySettled a o = applySettled b o := by
  unfold applySettled
  unfold Operation.Settles at h
  cases hop : o.op with
  | create =>
    rw [hop] at h
    obtain ⟨fields, hv⟩ := h
    simp [hv]
  | update => exact absurd hop hne
  | delete => rfl

/-- Two updates in a row are the update by the merged patch. -/
theorem applySettled_merge {p q : Fields} (hp : p.Ordered) (row : Option Row) (k k' k'' : RecordKey) :
    applySettled (applySettled row ⟨k, .update, some (.obj p)⟩) ⟨k', .update, some (.obj q)⟩ =
      applySettled row ⟨k'', .update, some (.obj (Fields.extend p q))⟩ := by
  cases row with
  | none => rfl
  | some row =>
    show some (Fields.extend (Fields.extend row p) q) = some (Fields.extend row (Fields.extend p q))
    rw [Fields.extend_extend hp]

/-- **One recorded operation**: it is never refused, the list keeps its shape, and over every base it shows one
operation more. -/
theorem retained_step (h : Shape layer) (ho : o.Settles) : ∃ layer', Engine.retained layer o = .ok layer' ∧ Shape layer' ∧
    ∀ base, layer'.foldl applySettled base = applySettled (layer.foldl applySettled base) o := by
  by_cases hop : o.op = .update
  · have hsettles := ho
    unfold Operation.Settles at ho
    rw [hop] at ho
    obtain ⟨patch, hpatch, hv⟩ := ho
    obtain ⟨k, op, values⟩ := o
    obtain rfl : op = .update := hop
    obtain rfl : values = some (.obj patch) := hv
    -- the list ends in an update already, or this one is appended
    have merge : ∀ u : Operation, u.op = .update → u.Settles → ∃ u' : Operation, u'.op = .update ∧ u'.Settles ∧
        (∀ pre, Engine.retained (pre ++ [u]) ⟨k, .update, some (.obj patch)⟩ = .ok (pre ++ [u'])) ∧
        ∀ row, applySettled row u' = applySettled (applySettled row u) ⟨k, .update, some (.obj patch)⟩ := by
      rintro ⟨j, _, values⟩ rfl ⟨fields, hfields, hv⟩
      obtain rfl : values = some (.obj fields) := hv
      refine ⟨⟨j, .update, some (.obj (Fields.extend fields patch))⟩, rfl, ⟨_, Fields.extend_ordered hfields _, rfl⟩,
        fun pre => ?_, fun row => (applySettled_merge hfields row j k j).symm⟩
      simp [Engine.retained, Json.asObject]
    cases h with
    | nil => exact ⟨_, rfl, .one hsettles, fun base => rfl⟩
    | @one last hlast =>
      by_cases hu : last.op = .update
      · obtain ⟨u', hop', hset, hret, happ⟩ := merge last hu hlast
        exact ⟨[u'], hret [], .one hset, fun base => happ base⟩
      · exact ⟨[last, _], by simp [Engine.retained, hu], .two hlast hu rfl hsettles, fun base => rfl⟩
    | @two first last hfirst hne hu hlast =>
      obtain ⟨u', hop', hset, hret, happ⟩ := merge last hu hlast
      exact ⟨[first, u'], hret [first], .two hfirst hne hop' hset, fun base => happ _⟩
  · exact ⟨[o], by simp [Engine.retained, hop], .one ho, fun base => applySettled_cuts ho hop _ _⟩

/-- `local_layer` (authority.rs:17). -/
def Store.localLayer (s : Store) (key : RecordKey) : List Operation := (s.layers.get key).getD []

theorem retain_run {ops : List Operation} (h : Shape (s.localLayer key)) (hops : ∀ o ∈ ops, o.Settles) :
    ∃ t, (forM ops fun o => Engine.retainLocalOperation key o).run s = .ok (⟨⟩, t) ∧ Shape (t.localLayer key) ∧
      ∀ base, (t.localLayer key).foldl applySettled base = ops.foldl applySettled ((s.localLayer key).foldl applySettled base) := by
  induction ops generalizing s with
  | nil => exact ⟨s, (Within.run_forM_nil _).2 rfl, h, fun _ => rfl⟩
  | cons o ops ih =>
    obtain ⟨layer', hret, hshape, happ⟩ := retained_step h (hops o (by simp))
    have hstep : (Engine.retainLocalOperation key o).run s = .ok ((), { s with layers := s.layers.set key layer' }) := by
      have hret' : Engine.retained ((s.layers.get key).getD []) o = .ok layer' := hret
      simp [Engine.retainLocalOperation, hret']
    have hlayer : ({ s with layers := s.layers.set key layer' } : Store).localLayer key = layer' := by simp [Store.localLayer]
    obtain ⟨t, hrun, ht, hfold⟩ := @ih { s with layers := s.layers.set key layer' } (by rwa [hlayer])
      fun x hx => hops x (by simp [hx])
    refine ⟨t, (Within.run_forM_cons _ _ _).2 ⟨_, hstep, hrun⟩, ht, fun base => ?_⟩
    rw [hfold, hlayer, happ]
    rfl

namespace Notes

def note : RecordKey := ⟨"note", .obj [("id", .str "a")]⟩

/-- An edit, a removal, a new note and two more edits. -/
def edits : List Operation :=
  [⟨note, .update, some (.obj [("title", .str "x")])⟩, ⟨note, .delete, none⟩,
    ⟨note, .create, some (.obj [("title", .str "y")])⟩, ⟨note, .update, some (.obj [("title", .str "z")])⟩,
    ⟨note, .update, some (.obj [("done", .bool true)])⟩]

end Notes

end Axton
