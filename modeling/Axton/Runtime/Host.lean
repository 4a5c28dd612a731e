import Axton.Runtime.Answered

/-!
# A host and its runtime

A host drives one runtime: it hands in inputs, runs steps and Store worker commands, and collects the events
queued for it, in any order. Over every such run in which no request id is used twice, a request the runtime
admitted is answered at most once, and once the runtime is closed, exactly once (`request_answered_once`).
-/

namespace Axton

open Bridge

/-- What a host may do next. -/
inductive HostAction where
  | receive (input : Input) (now entropy : Nat)
  | step (now : Nat)
  | storeWorker (command : StoreCommand)
  | storeWorkerGuarded (current : Bool) (context : RequestContext) (command : StoreCommand)
  | takeEvents

/-- The request a host asks to have answered. -/
def HostAction.request : HostAction → Option String
  | .receive input _ _ => input.requestId
  | _ => none

/-- The request ids a run uses, in order. -/
def requestIds (actions : List HostAction) : List String := actions.filterMap HostAction.request

/-- A runtime, the events its host collected and the requests it admitted. -/
structure Host (C : Type) where
  runtime : ClientRuntime C
  taken : List Bridge.Event := []
  admitted : List String := []

namespace Host

variable {C : Type} (api : ClientApi C) (P : Platform)

/-- A runtime over a new client, with the prerequisite handlers registered at open. -/
def start (client : C) (namespaceId : String) (handlers : ClientRuntime.Prerequisites) : Host C where
  runtime := { ClientRuntime.new client namespaceId with prerequisites := handlers }

def act (h : Host C) : HostAction → Host C
  | .receive input now entropy =>
    let (accepted, r) := ClientRuntime.receive api h.runtime input now entropy
    { h with runtime := r, admitted := h.admitted ++ (if accepted then input.requestId.toList else []) }
  | .step now => { h with runtime := (ClientRuntime.step api P h.runtime now).2 }
  | .storeWorker command => { h with runtime := (ClientRuntime.storeWorker api h.runtime command).2 }
  | .storeWorkerGuarded current context command =>
    { h with runtime := (ClientRuntime.storeWorkerGuarded api h.runtime current context command).2 }
  | .takeEvents => { h with runtime := { h.runtime with events := [] }, taken := h.taken ++ h.runtime.events }

def run (h : Host C) (actions : List HostAction) : Host C := actions.foldl (act api P) h

/-- The completions the host was sent, collected or still queued. -/
def completions (h : Host C) : List String := (h.taken ++ h.runtime.events).filterMap Bridge.Event.completes

/-! ## The invariant -/

/-- Every admitted request is held or answered, and only once; `asked` are the ids used so far. -/
structure Accounted (h : Host C) (asked : List String) : Prop where
  tally : h.runtime.held + (h.completions : Multiset String) = (h.admitted : Multiset String)
  admitted : h.admitted.Sublist asked
  routed : h.runtime.tasks.routed ⊆ h.admitted
  closed : h.runtime.lifecycle = .closed → h.runtime.held = 0

theorem completions_eq (h : Host C) : (h.completions : Multiset String) =
    (h.taken.filterMap Bridge.Event.completes : List String) + h.runtime.answered := by
  simp [completions, ClientRuntime.answered, ← Multiset.coe_add]

variable {h : Host C} {asked : List String}

/-- What a runtime step that takes in nothing leaves of the accounts. -/
theorem Accounted.moves (inv : h.Accounted asked) {r : ClientRuntime C}
    (m : ClientRuntime.Moves 0 h.runtime r) :
    Host.Accounted { h with runtime := r } asked where
  tally := by
    rw [← inv.tally, completions_eq, completions_eq, add_left_comm, m.tally, zero_add, add_left_comm]
  admitted := inv.admitted
  routed := fun _ hm => inv.routed (m.routed hm)
  closed := by
    intro hc
    have hz := inv.closed (m.lifecycle ▸ hc)
    have ht := m.tally
    rw [hz, zero_add, zero_add] at ht
    have hle := m.answered
    rw [← ht] at hle
    have : r.held + r.answered ≤ 0 + r.answered := by rwa [zero_add]
    exact Multiset.le_zero.1 (Multiset.add_le_add_iff_right.1 this)

/-- What is held or answered is held or answered once. -/
theorem Accounted.nodup (inv : h.Accounted asked) (hn : asked.Nodup) :
    (h.runtime.held + h.runtime.answered).Nodup := by
  have ha : (h.admitted : Multiset String).Nodup := Multiset.coe_nodup.2 (inv.admitted.nodup hn)
  rw [← inv.tally, completions_eq, add_left_comm] at ha
  exact Multiset.nodup_of_le (Multiset.le_add_left _ _) ha

theorem step_accounted (inv : h.Accounted asked) (hn : asked.Nodup) (now : Nat) :
    Host.Accounted { h with runtime := (ClientRuntime.step api P h.runtime now).2 } asked := by
  unfold ClientRuntime.step
  split
  · exact inv
  · -- close takes the place of any other work, and leaves nothing held
    obtain ⟨s, hm, hz, hc⟩ := h.runtime.close_answers api
    have inv' := inv.moves hm
    simp only [hc]
    exact {
      tally := by
        rw [← inv'.tally, completions_eq, completions_eq, ClientRuntime.answered_push]
        simp [ClientRuntime.push, ClientRuntime.held, ClientRuntime.answered, Event.completes]
      admitted := inv.admitted
      routed := inv'.routed
      closed := fun _ => hz }
  · have hu := h.runtime.unit_moves api P now (inv.nodup hn)
    rcases hx : ClientRuntime.unit api P h.runtime now with ⟨ran, s⟩
    rw [hx] at hu
    simp only
    split
    · exact inv.moves (hu.trans_left (ClientRuntime.publish_moves ..))
    · exact inv.moves hu

theorem receive_accounted (inv : h.Accounted asked) (input : Input) (now entropy : Nat)
    (hn : (asked ++ input.requestId.toList).Nodup) :
    (act api P h (.receive input now entropy)).Accounted (asked ++ input.requestId.toList) := by
  by_cases ho : h.runtime.lifecycle = .opened
  · have hf : ∀ id ∈ input.requestId, id ∉ h.runtime.tasks.routed := by
      intro id hid hr
      have := List.disjoint_of_nodup_append hn
      exact this (inv.admitted.subset (inv.routed hr)) (Option.mem_toList.2 hid)
    rcases hx : ClientRuntime.receive api h.runtime input now entropy with ⟨accepted, s⟩
    have hs : (ClientRuntime.receive api h.runtime input now entropy).2 = s := by rw [hx]
    obtain ⟨ht, hr, hl⟩ := h.runtime.receive_moves api ho hf hs
    have ha : (ClientRuntime.receive api h.runtime input now entropy).1 = true :=
      h.runtime.receive_accepts api ho
    rw [hx] at ha
    change accepted = true at ha
    subst ha
    simp only [act, hx, if_true]
    exact {
      tally := by
        rw [completions_eq, add_left_comm]
        simp only [ht, ← Multiset.coe_add, ← inv.tally, completions_eq]
        abel
      admitted := inv.admitted.append_right _
      routed := fun id hid => (List.mem_append.1 (hr hid)).elim
        (fun h1 => List.mem_append_left _ (inv.routed h1)) (List.mem_append_right _)
      closed := fun hc => absurd hc hl }
  · have hx : ClientRuntime.receive api h.runtime input now entropy = (false, h.runtime) := by
      unfold ClientRuntime.receive
      rw [if_pos ho]
    simp only [act, hx, Bool.false_eq_true, if_false, List.append_nil]
    exact { inv with admitted := inv.admitted.trans (List.sublist_append_left _ _) }

theorem act_accounted (inv : h.Accounted asked) (action : HostAction)
    (hn : (asked ++ action.request.toList).Nodup) :
    (act api P h action).Accounted (asked ++ action.request.toList) := by
  cases action with
  | receive input now entropy => exact receive_accounted api P inv input now entropy hn
  | step now =>
    simp only [HostAction.request, Option.toList_none, List.append_nil] at hn ⊢
    exact step_accounted api P inv hn now
  | storeWorker command =>
    simp only [HostAction.request, Option.toList_none, List.append_nil]
    exact inv.moves (h.runtime.storeWorker_moves api command)
  | storeWorkerGuarded current context command =>
    simp only [HostAction.request, Option.toList_none, List.append_nil]
    exact inv.moves (h.runtime.storeWorkerGuarded_moves api current context command)
  | takeEvents =>
    exact {
      tally := by
        show _ = (h.admitted : Multiset String)
        rw [← inv.tally]
        simp [act, completions, ClientRuntime.held]
      admitted := by simpa [HostAction.request, act] using inv.admitted
      routed := inv.routed
      closed := inv.closed }

theorem run_accounted (inv : h.Accounted asked) (actions : List HostAction)
    (hn : (asked ++ requestIds actions).Nodup) : (run api P h actions).Accounted (asked ++ requestIds actions) := by
  induction actions generalizing h asked with
  | nil =>
    show h.Accounted _
    simpa [requestIds] using inv
  | cons action actions ih =>
    have hr : asked ++ requestIds (action :: actions) = asked ++ action.request.toList ++ requestIds actions := by
      cases hq : action.request <;> simp [requestIds, hq]
    rw [hr] at hn ⊢
    exact ih (act_accounted api P inv action (List.nodup_append.1 hn).1) hn

theorem start_accounted (client : C) (namespaceId : String) (handlers : ClientRuntime.Prerequisites) :
    (start client namespaceId handlers).Accounted [] where
  tally := rfl
  admitted := List.Sublist.refl _
  routed := fun _ h => h
  closed := fun _ => rfl

/-- Over every run of a host that uses no request id twice: no request is completed twice, and once the
runtime is closed, every request it admitted has been completed. -/
theorem request_answered_once (client : C) (namespaceId : String) (handlers : ClientRuntime.Prerequisites)
    (actions : List HostAction) (distinct : (requestIds actions).Nodup) :
    let h := run api P (start client namespaceId handlers) actions
    (∀ id, h.completions.count id ≤ 1) ∧
      (h.runtime.lifecycle = .closed → ∀ id ∈ h.admitted, h.completions.count id = 1) := by
  intro h
  have inv : h.Accounted (requestIds actions) := run_accounted api P (start_accounted ..) actions distinct
  have ha : h.admitted.Nodup := inv.admitted.nodup distinct
  have hc : ∀ id, h.runtime.held.count id + h.completions.count id = h.admitted.count id := by
    intro id
    have := congrArg (Multiset.count id) inv.tally
    simpa using this
  constructor
  · intro id
    have h1 := List.nodup_iff_count_le_one.1 ha id
    have h2 := hc id
    omega
  · intro hclosed id hid
    have h1 := List.count_eq_one_of_mem ha hid
    have h2 := hc id
    rw [inv.closed hclosed] at h2
    simp only [Multiset.count_zero, zero_add] at h2
    omega

/-! ## A close with requests in every place -/

/-- A call that the Store refuses. -/
def refusedCall {α : Type} : Answer Unit α := fun c => (.error "disk I/O error", c)

/-- A client whose Store refuses every call. -/
def failingApi : ClientApi Unit where
  generation _ := 0
  schema _ := { models := [] }
  resultModel _ _ _ := false
  requestContext := refusedCall
  pendingSchema := refusedCall
  startCursor := refusedCall
  read _ := refusedCall
  inspect _ := refusedCall
  direct _ := refusedCall
  submitMutation _ _ _ := refusedCall
  setReadiness _ _ := refusedCall
  dropMutation _ := refusedCall
  discardMutation _ := refusedCall
  dismissRejection _ := refusedCall
  retryTasks _ := refusedCall
  outcome _ _ := refusedCall
  pendingTasks := refusedCall
  resetStore _ := refusedCall
  subscriptionState _ := refusedCall
  bootstrapState _ _ := refusedCall
  encodeRead _ := .error "disk I/O error"
  admitRead _ _ c := (.error (false, "disk I/O error"), c)
  installCache _ := refusedCall
  beginSession := refusedCall
  commitSession := refusedCall
  rollbackSession := refusedCall
  sessionSavepoint := refusedCall
  sessionRelease := refusedCall
  sessionRollbackSavepoint := refusedCall
  sessionRead _ := refusedCall
  sessionDirect _ := refusedCall
  sessionSubmit _ _ _ _ := refusedCall
  previewCallback _ := refusedCall
  appendCompanion _ _ := refusedCall
  sessionDismiss _ := refusedCall
  sessionRetryTasks _ := refusedCall
  sessionDiscard _ := refusedCall
  query _ _ := refusedCall
  queryKeys _ _ _ := refusedCall
  takeModelChanges c := ([], c)
  unsent _ := refusedCall
  sqlTables _ := refusedCall
  readSql _ _ := refusedCall
  watchKeyed _ c := (0, c)
  drain _ c := (false, c)
  unwatch _ c := c
  encodedIdentity _ := .error "disk I/O error"
  parseJson _ := none
  storeStatus := refusedCall
  initializeStream _ := refusedCall
  settleReady := refusedCall
  pendingSettlement := refusedCall
  cleanupDelivery _ := refusedCall
  freezeBatch := refusedCall
  acknowledgeBatch _ := refusedCall
  applyNextDelivery _ _ := refusedCall
  activeDeliveryPlans := refusedCall

/-- A call that the Store answers. -/
def answeredCall {α : Type} (a : α) : Answer Unit α := fun c => (.ok a, c)

/-- A client without its initial content: it opens sessions, sends reads and starts a bootstrap. -/
def loadingApi : ClientApi Unit := { failingApi with
  schema := fun _ => Notes.schema
  requestContext := answeredCall { storeId := "store", stream := "user", materialization := "m-notes" }
  pendingSchema := answeredCall false
  startCursor := answeredCall none
  bootstrapState := fun stream subscriptionId =>
    answeredCall ⟨stream, subscriptionId, .loading, 1, 0, none, none⟩
  encodeRead := fun _ => .ok "\x7b\x7d"
  beginSession := answeredCall ()
  rollbackSession := answeredCall ()
  sessionSavepoint := answeredCall () }

def noteId : Json := .obj [("id", .str "a")]

/-- Up to the close: a direct read in flight, a read that waits for the initial content, a bootstrap that loads, a
transaction whose local callback runs with a command of it in the lane, a task behind it, and a result with a stale
capability. -/
def openActions : List HostAction := [
  .receive (.task "connect" (.connect none none)) 0 0, .step 0,
  .receive (.task "direct" (.fetch "note" 1 noteId (some (.bool false)))) 0 0, .step 0,
  .receive (.task "initial" (.fetch "note" 1 noteId none)) 0 0, .step 0,
  .receive (.task "bootstrap" (.streamBootstrap "notes" 1)) 0 0, .step 0, .takeEvents,
  .receive (.task "transaction" .transaction) 0 0, .step 0,
  .receive (.transactionCommand "local" "n:tx3" none none
    (.submitMutation "addNote" 1 (.obj []) none (some (.bool true)))) 0 0, .step 0,
  .receive (.transactionCommand "lane" "n:tx3" none (some "n:c5") (.read (.read ⟨"note", noteId⟩))) 0 0,
  .receive (.task "queued" (.inspect .status)) 0 0,
  .receive (.callbackResult "4" "n:tx2" none true none none) 0 0]

def closingActions : List HostAction := openActions ++ [.receive .close 0 0, .step 0]

/-- Seven requests are held when the runtime closes, each in another place, and each is answered. -/
theorem request_answered_open :
    let h := run loadingApi Notes.platform (start () "n" {}) closingActions
    (run loadingApi Notes.platform (start () "n" {}) openActions).completions = ["connect"] ∧
      h.runtime.lifecycle = .closed ∧
      h.admitted = ["connect", "direct", "initial", "bootstrap", "transaction", "local", "lane", "queued"] ∧
      ∀ id ∈ h.admitted, h.completions.count id = 1 := by
  have hclosed : (run loadingApi Notes.platform (start () "n" {}) closingActions).runtime.lifecycle = .closed := by
    decide +kernel
  exact ⟨by decide +kernel, hclosed, by decide +kernel,
    (request_answered_once loadingApi Notes.platform () "n" {} closingActions (by decide)).2 hclosed⟩

end Host

end Axton
