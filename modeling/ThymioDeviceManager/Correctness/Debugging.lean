import Mathlib.Data.List.Dedup
import Mathlib.Data.List.Nodup
import ThymioDeviceManager.Manager.Debugger

/-! # The callbacks of the debugger

Every callback of a call is stored in a pending request or has been posted, once:
each handler moves a callback from the record that holds it to the executor, and
a record is only given up when its callback has been posted.
-/

namespace ThymioDeviceManager.Correctness

open Manager Library Compiler

variable {κ : Type}

namespace Debugging

/-! ## The places of a callback -/

theorem cb_breakpointRequest (s : Debugger κ) (breakpoints : List UInt32) (cb : Option κ) :
    (s.breakpointRequest breakpoints cb).2.cb = cb := by
  have hfold : ∀ (l : List UInt32) (r : List DebugMessage × BreakPointCbData κ),
      (l.foldl (Debugger.addBreakpoint s.bytecode s.breakpoints) r).2.cb = r.2.cb := by
    intro l
    induction l with
    | nil => exact fun r => rfl
    | cons b l ih =>
      intro r
      rw [List.foldl_cons, ih]
      unfold Debugger.addBreakpoint
      split
      · rfl
      · split <;> rfl
  unfold Debugger.breakpointRequest
  dsimp only
  split
  · rfl
  · exact hfold _ _

def stored (s : Debugger κ) : List κ :=
  (s.pendingBreakpointRequest.bind (·.cb)).toList ++ (s.pendingStepRequest.bind (·.cb)).toList

/-- The callbacks that have been posted; an empty one is not a callback. -/
def posted (s : Debugger κ) : List κ :=
  s.trace.filterMap fun
    | .posted cb _ => cb
    | _ => none

/-- The callback that an event brings. -/
def given? : Debugger.Event κ → Option κ
  | .setBreakpoints _ cb => cb
  | .stepToNextLine cb => cb
  | _ => none

/-- The number of places in which a callback is: pending requests that store it,
and times that it has been posted. -/
def places [DecidableEq κ] (k : κ) (s : Debugger κ) : Nat :=
  (stored s).count k + (posted s).count k

section Places

variable [DecidableEq κ] (k : κ) (s : Debugger κ)

/-- Nothing but the two requests and the trace matters to the places. -/
theorem places_congr {s t : Debugger κ} (hb : t.pendingBreakpointRequest = s.pendingBreakpointRequest)
    (hs : t.pendingStepRequest = s.pendingStepRequest) (ht : t.trace = s.trace) :
    places k t = places k s := by
  simp only [places, stored, posted, hb, hs, ht]

@[simp] theorem places_post (cb : Option κ) (answer : Answer) :
    places k (s.post cb answer) = places k s + cb.toList.count k := by
  cases cb <;> simp [places, stored, posted, Debugger.post, List.filterMap_append, Nat.add_assoc]

@[simp] theorem places_writeMessages (messages : List DebugMessage) (cb : WriteCallback) :
    places k (s.writeMessages messages cb) = places k s := by
  have hsent : (messages.map Traced.sent).filterMap
      (fun x : Traced κ => match x with
        | .posted cb _ => cb
        | _ => none) = [] := by
    simp [List.filterMap_map]
  unfold Debugger.writeMessages
  split
  · rfl
  · simp [places, stored, posted, List.filterMap_append, hsent]

theorem places_breakpointRequest_none {r : BreakPointCbData κ}
    (h : s.pendingBreakpointRequest = some r) :
    places k { s with pendingBreakpointRequest := none } + r.cb.toList.count k = places k s := by
  simp [places, stored, posted, h]
  omega

theorem places_stepRequest_none {r : StepCbData κ} (h : s.pendingStepRequest = some r) :
    places k { s with pendingStepRequest := none } + r.cb.toList.count k = places k s := by
  simp [places, stored, posted, h]
  omega

@[simp] theorem places_cancelPendingStepRequest :
    places k s.cancelPendingStepRequest = places k s := by
  unfold Debugger.cancelPendingStepRequest
  cases h : s.pendingStepRequest with
  | none => rfl
  | some data =>
    have hmoved := places_stepRequest_none k s h
    cases hcb : data.cb with
    | none => simpa [hcb] using hmoved
    | some cb => simpa [hcb] using hmoved

@[simp] theorem places_cancelPendingBreakpointRequest :
    places k s.cancelPendingBreakpointRequest = places k s := by
  unfold Debugger.cancelPendingBreakpointRequest
  cases h : s.pendingBreakpointRequest with
  | none => rfl
  | some data =>
    have hmoved := places_breakpointRequest_none k s h
    cases hcb : data.cb with
    | none => simpa [hcb] using hmoved
    | some cb => simpa [hcb] using hmoved

@[simp] theorem places_handleStepRequest : places k s.handleStepRequest = places k s := by
  unfold Debugger.handleStepRequest
  cases h : s.pendingStepRequest with
  | none => rfl
  | some data =>
    dsimp only
    split
    · exact places_cancelPendingStepRequest k s
    split
    · rw [places_post]
      exact places_stepRequest_none k s h
    · exact places_writeMessages k s _ _

theorem places_stepToNextLine (cb : Option κ) :
    places k (s.stepToNextLine cb) = places k s + cb.toList.count k := by
  have hnone := s.pendingStepRequest_cancelPendingStepRequest
  have hplaces := places_cancelPendingStepRequest k s
  unfold Debugger.stepToNextLine
  generalize s.cancelPendingStepRequest = c at hnone hplaces
  rw [places_handleStepRequest, ← hplaces]
  simp [places, stored, posted, hnone]
  omega

theorem places_setBreakpoints (breakpoints : List UInt32) (cb : Option κ) :
    places k (s.setBreakpoints breakpoints cb) = places k s + cb.toList.count k := by
  have hcb := cb_breakpointRequest s breakpoints cb
  unfold Debugger.setBreakpoints
  generalize s.breakpointRequest breakpoints cb = request at hcb
  obtain ⟨messages, data⟩ := request
  have hnone := Debugger.pendingBreakpointRequest_cancelPendingBreakpointRequest { s with
    breakpoints := breakpoints.dedup, allocated := s.allocated + 1 }
  have hplaces : places k { s with
      breakpoints := breakpoints.dedup,
      allocated := s.allocated + 1 }.cancelPendingBreakpointRequest = places k s := by
    rw [places_cancelPendingBreakpointRequest]
    rfl
  dsimp only at hcb ⊢
  rw [places_writeMessages]
  generalize Debugger.cancelPendingBreakpointRequest _ = c at hnone hplaces
  subst hcb
  rw [← hplaces]
  split
  · -- answered at once; nothing is pending
    rw [places_post]
    congr 1
    split <;> simp [places, stored, posted, hnone]
  · cases hcb : data.cb with
    | none => simp
    | some cb =>
      simp [places, stored, posted, hnone, hcb, List.count_cons]
      omega

theorem places_onBreakpointSetResult (pc success : UInt16) :
    places k (s.onBreakpointSetResult pc success) = places k s := by
  unfold Debugger.onBreakpointSetResult
  have hreceived : places k { s with trace := s.trace ++ [Traced.received pc success] } = places k s := by
    simp [places, stored, posted]
  generalize hs' : { s with trace := s.trace ++ [Traced.received pc success] } = s' at hreceived
  rw [← hreceived]
  dsimp only
  cases h : s'.pendingBreakpointRequest with
  | none => rfl
  | some r =>
    dsimp only
    split
    · rfl
    split
    · rw [places_post]
      exact places_breakpointRequest_none k s' h
    · simp [places, stored, posted, h]

theorem places_breakpointsWritten (id : Nat) (ec : SystemErrorCode) :
    places k (s.breakpointsWritten id ec) = places k s := by
  unfold Debugger.breakpointsWritten
  cases h : s.pendingBreakpointRequest with
  | none => rfl
  | some data =>
    dsimp only
    split
    · rfl
    split
    · rw [places_post]
      exact places_breakpointRequest_none k s h
    · simp [places, stored, posted, h]

theorem places_stepWritten (id : Nat) (ec : SystemErrorCode) :
    places k (s.stepWritten id ec) = places k s := by
  unfold Debugger.stepWritten
  split
  · rfl
  cases h : s.pendingStepRequest with
  | none => rfl
  | some data =>
    dsimp only
    split
    · rfl
    · rw [places_cancelPendingStepRequest]
      simp [places, stored, posted, h]

/-- An event brings its callback to one place and moves the others. -/
theorem places_step {s t : Debugger κ} {e : Debugger.Event κ} (h : s.step e = some t) :
    places k t = places k s + (given? e).toList.count k := by
  unfold Debugger.step at h
  split at h
  · cases h
  cases e with
  | setBreakpoints breakpoints cb =>
    cases h
    exact places_setBreakpoints k s breakpoints cb
  | stepToNextLine cb =>
    cases h
    exact places_stepToNextLine k s cb
  | breakpointResult pc success =>
    cases h
    exact places_onBreakpointSetResult k s pc success
  | executionState pc flags =>
    cases h
    exact (places_handleStepRequest k _).trans (places_congr k rfl rfl rfl)
  | runtimeError pc =>
    cases h
    exact places_cancelPendingStepRequest k s
  | recompile bytecode =>
    obtain ⟨-, rfl⟩ : s.hasEndpoint = true ∧ s.recompile bytecode = t := by
      simpa using h
    unfold Debugger.recompile
    have hcancelled := places_cancelPendingBreakpointRequest k
      { s with breakpoints := [] }.cancelPendingStepRequest
    rw [places_cancelPendingStepRequest] at hcancelled
    exact hcancelled
  | command bytecode =>
    obtain ⟨-, rfl⟩ : s.hasEndpoint = true ∧ { s with bytecode } = t := by
      simpa using h
    rfl
  | written index ec =>
    obtain ⟨cb, -, rfl⟩ := Option.map_eq_some_iff.mp h
    cases cb with
    | breakpoints id => exact places_breakpointsWritten k _ id ec
    | step id => exact places_stepWritten k _ id ec
  | dropped index =>
    obtain ⟨cb, -, rfl⟩ := Option.map_eq_some_iff.mp h
    rfl
  | endpointGone =>
    cases h
    rfl
  | disconnect =>
    cases h
    exact (places_cancelPendingBreakpointRequest k _).trans (places_cancelPendingStepRequest k s)
  | destroy =>
    obtain ⟨-, rfl⟩ : s.writes = [] ∧ { s.cancelPendingRequests with alive := false } = t := by
      simpa using h
    have hcancelled := (places_cancelPendingBreakpointRequest k s.cancelPendingStepRequest).trans
      (places_cancelPendingStepRequest k s)
    exact hcancelled

theorem places_run {s t : Debugger κ} {events : List (Debugger.Event κ)}
    (h : Transition.run Debugger.step s events = some t) :
    places k t = places k s + (events.filterMap given?).count k := by
  have hstart : places k s = places k s +
      (([] : List (Debugger.Event κ)).filterMap given?).count k := by simp
  refine Transition.invariant_run
    (I := fun past t => places k t = places k s + (past.filterMap given?).count k)
    (fun past u e v hu hstep => ?_) hstart h
  rw [places_step k hstep, hu, Nat.add_assoc, List.filterMap_append, List.count_append]
  cases hgiven : given? e <;> simp [hgiven]

theorem places_run_of_nodup {s t : Debugger κ} {events : List (Debugger.Event κ)}
    (h : Transition.run Debugger.step s events = some t) (hs : places k s = 0)
    (hnodup : (events.filterMap given?).Nodup) (hk : k ∈ events.filterMap given?) :
    places k t = 1 := by
  rw [places_run k h, hs, Nat.zero_add]
  exact List.count_eq_one_of_mem hnodup hk

end Places

/-! ## The calls of a run

A callback is an object of its own. In the runs below every event carries its
number on its callback.
-/

def relabel {κ' : Type} (f : κ → κ') : Debugger.Event κ → Debugger.Event κ'
  | .setBreakpoints breakpoints cb => .setBreakpoints breakpoints (cb.map f)
  | .stepToNextLine cb => .stepToNextLine (cb.map f)
  | .breakpointResult pc success => .breakpointResult pc success
  | .executionState pc flags => .executionState pc flags
  | .runtimeError pc => .runtimeError pc
  | .recompile bytecode => .recompile bytecode
  | .command bytecode => .command bytecode
  | .written index ec => .written index ec
  | .dropped index => .dropped index
  | .endpointGone => .endpointGone
  | .disconnect => .disconnect
  | .destroy => .destroy

def numbered (n : Nat) : List (Debugger.Event κ) → List (Debugger.Event (Nat × κ))
  | [] => []
  | e :: events => relabel (n, ·) e :: numbered (n + 1) events

/-- The callbacks of the calls, with their numbers. -/
def callbacks (n : Nat) (events : List (Debugger.Event κ)) : List (Nat × κ) :=
  (numbered n events).filterMap given?

theorem given?_relabel {κ' : Type} (f : κ → κ') (e : Debugger.Event κ) :
    given? (relabel f e) = (given? e).map f := by
  cases e <;> rfl

theorem le_of_mem_callbacks {n : Nat} {events : List (Debugger.Event κ)} {k : Nat × κ}
    (h : k ∈ callbacks n events) : n ≤ k.1 := by
  induction events generalizing n with
  | nil => cases h
  | cons e events ih =>
    obtain ⟨e', he', hk⟩ := List.mem_filterMap.mp h
    obtain rfl | he' := List.mem_cons.mp he'
    · rw [given?_relabel] at hk
      obtain ⟨cb, -, rfl⟩ := Option.map_eq_some_iff.mp hk
      exact Nat.le_refl n
    · have hle := ih (n := n + 1) (List.mem_filterMap.mpr ⟨e', he', hk⟩)
      omega

theorem nodup_callbacks (n : Nat) (events : List (Debugger.Event κ)) :
    (callbacks n events).Nodup := by
  induction events generalizing n with
  | nil => exact List.nodup_nil
  | cons e events ih =>
    unfold callbacks numbered
    rw [List.filterMap_cons, given?_relabel]
    cases given? e with
    | none => exact ih (n + 1)
    | some cb =>
      refine List.nodup_cons.mpr ⟨fun hmem => ?_, ih (n + 1)⟩
      have hle := le_of_mem_callbacks (n := n + 1) hmem
      exact absurd hle (Nat.not_succ_le_self n)

/-- In every run from a new node, with any calls, messages and outcomes. -/
theorem callbacks_in_one_place [DecidableEq κ] (events : List (Debugger.Event κ))
    (s : Debugger (Nat × κ)) (hrun : Transition.run Debugger.step {} (numbered 0 events) = some s) :
    ∀ k ∈ callbacks 0 events, places k s = 1 := by
  intro k hk
  exact places_run_of_nodup k hrun (by simp [places, stored, posted]) (nodup_callbacks 0 events) hk

/-- A step that is cancelled by a second one, whose write then fails. -/
def stepTwice : List (Debugger.Event Unit) :=
  [.recompile (List.replicate 8 { bytecode := 0, line := 3 }), .executionState 6 3,
    .stepToNextLine (some ()), .stepToNextLine (some ()), .written 0 (some (.other 5)),
    .setBreakpoints [4] (some ()), .written 0 (some (.other 5)), .disconnect]

theorem stepTwice_callbacks :
    callbacks 0 stepTwice = [(2, ()), (3, ()), (5, ())] ∧
      ∀ k ∈ callbacks 0 stepTwice,
        places k ((Transition.run Debugger.step {} (numbered 0 stepTwice)).getD {}) = 1 := by
  refine ⟨by decide, callbacks_in_one_place stepTwice _ ?_⟩
  cases h : Transition.run Debugger.step {} (numbered 0 stepTwice) with
  | some s => rfl
  | none => exact absurd h (by decide)

end Debugging

end ThymioDeviceManager.Correctness
