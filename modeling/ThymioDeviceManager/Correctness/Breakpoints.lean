import Mathlib.Data.List.Dedup
import ThymioDeviceManager.Manager.Debugger

/-! # The breakpoints that are reported

The breakpoints that a callback reports without an error are those that the
device has confirmed, as long as `m_breakpoints` is right about the breakpoints
that a call asks for. It is overwritten with what was asked for before the device
has answered, so it is wrong while a request is pending, after one has been
cancelled, and after a call without a callback.
-/

namespace ThymioDeviceManager.Correctness

open Manager Library Compiler

variable {κ : Type}

namespace Breakpoints

/-- The device said that it set a breakpoint at `pc`, and the node has not sent a
message that clears it since. -/
def acknowledged (pc : Nat) (trace : List (Traced κ)) : Bool :=
  trace.foldl (fun known entry =>
    match entry with
    | .received pc' success => known || (pc'.toNat = pc && success ≠ 0)
    | .sent (.breakpointClear pc') => known && pc'.toNat ≠ pc
    | .sent .breakpointClearAll => false
    | _ => known) false

/-- The breakpoint has a program counter, which the device acknowledged. -/
def confirmed (bytecode : List BytecodeElement) (trace : List (Traced κ)) (b : UInt32) : Bool :=
  (pcFromLine bytecode b).any (acknowledged · trace)

/-- Every callback without an error was posted with breakpoints that were
confirmed at that time. -/
def ReportsConfirmed (bytecode : List BytecodeElement) (trace : List (Traced κ)) : Prop :=
  ∀ before cb set after, trace = before ++ .posted cb (.breakpoints none set) :: after →
    ∀ b ∈ set, confirmed bytecode before b = true

/-! ## Growing traces -/

/-- The entry clears the breakpoint at `pc`. -/
def Clears (pc : Nat) : Traced κ → Prop
  | .sent (.breakpointClear pc') => pc'.toNat = pc
  | .sent .breakpointClearAll => True
  | _ => False

theorem acknowledged_append {pc : Nat} {trace entries : List (Traced κ)}
    (h : acknowledged pc trace = true) (hentries : ∀ entry ∈ entries, ¬ Clears pc entry) :
    acknowledged pc (trace ++ entries) = true := by
  unfold acknowledged at h ⊢
  rw [List.foldl_append, h]
  induction entries with
  | nil => rfl
  | cons entry entries ih =>
    have hentry := hentries entry (by simp)
    have hrest := ih fun entry h => hentries entry (by simp [h])
    rw [List.foldl_cons]
    cases entry with
    | sent message =>
      cases message with
      | breakpointClear pc' =>
        have hne : pc'.toNat ≠ pc := hentry
        simpa [hne] using hrest
      | breakpointClearAll => exact absurd trivial hentry
      | breakpointSet pc' => exact hrest
      | step => exact hrest
    | received pc' success => simpa using hrest
    | posted cb answer => exact hrest

theorem acknowledged_received {pc success : UInt16} (trace : List (Traced κ)) (h : success ≠ 0) :
    acknowledged pc.toNat (trace ++ [.received pc success]) = true := by
  simp [acknowledged, h]

theorem confirmed_iff {bytecode : List BytecodeElement} {trace : List (Traced κ)} {b : UInt32} :
    confirmed bytecode trace b = true ↔
      ∃ pc, pcFromLine bytecode b = some pc ∧ acknowledged pc trace = true := by
  simp [confirmed, Option.any_eq_true]

/-- The entry reports breakpoints without an error. -/
def Reports : Traced κ → Prop
  | .posted _ (.breakpoints none _) => True
  | _ => False

theorem ReportsConfirmed.append_singleton {bytecode : List BytecodeElement}
    {trace : List (Traced κ)} {entry : Traced κ} (h : ReportsConfirmed bytecode trace)
    (hentry : ∀ cb set, entry = .posted cb (.breakpoints none set) →
      ∀ b ∈ set, confirmed bytecode trace b = true) :
    ReportsConfirmed bytecode (trace ++ [entry]) := by
  intro before cb set after htrace b hb
  obtain rfl | ⟨init, last, rfl⟩ := List.eq_nil_or_concat after
  · obtain ⟨rfl, hlast⟩ := List.append_inj' htrace rfl
    obtain rfl : entry = .posted cb (.breakpoints none set) := by simpa using hlast
    exact hentry cb set rfl b hb
  · rw [List.concat_eq_append, ← List.cons_append, ← List.append_assoc] at htrace
    obtain ⟨rfl, -⟩ := List.append_inj' htrace rfl
    exact h before cb set init rfl b hb

theorem ReportsConfirmed.append {bytecode : List BytecodeElement} {trace : List (Traced κ)}
    (h : ReportsConfirmed bytecode trace) {entries : List (Traced κ)}
    (hentries : ∀ entry ∈ entries, ¬ Reports entry) :
    ReportsConfirmed bytecode (trace ++ entries) := by
  induction entries generalizing trace with
  | nil => simpa using h
  | cons entry entries ih =>
    rw [List.append_cons]
    refine ih (h.append_singleton ?_) fun entry h => hentries entry (by simp [h])
    rintro cb set rfl
    exact absurd trivial (hentries (.posted cb (.breakpoints none set)) (by simp))

/-- An entry that neither reports breakpoints nor clears one. -/
def Quiet (entry : Traced κ) : Prop := ¬ Reports entry ∧ ∀ pc, ¬ Clears pc entry

/-- What a handler does that has nothing to do with breakpoints, or cancels. -/
structure Quietly (s t : Debugger κ) : Prop where
  bytecode : t.bytecode = s.bytecode
  request : t.pendingBreakpointRequest = s.pendingBreakpointRequest ∨
    t.pendingBreakpointRequest = none
  trace : ∃ entries, t.trace = s.trace ++ entries ∧ ∀ entry ∈ entries, Quiet entry

theorem Quietly.refl (s : Debugger κ) : Quietly s s := ⟨rfl, .inl rfl, [], by simp⟩

theorem Quietly.trans {s t u : Debugger κ} (hst : Quietly s t) (htu : Quietly t u) :
    Quietly s u := by
  obtain ⟨first, hfirst, hquiet⟩ := hst.trace
  obtain ⟨second, hsecond, hquiet'⟩ := htu.trace
  refine ⟨htu.bytecode.trans hst.bytecode, ?_, first ++ second, ?_, ?_⟩
  · rcases htu.request with h | h
    · rw [h]
      exact hst.request
    · exact .inr h
  · rw [hsecond, hfirst, List.append_assoc]
  · intro entry hentry
    exact (List.mem_append.mp hentry).elim (hquiet entry) (hquiet' entry)

theorem quietly_writeStep (s : Debugger κ) (cb : WriteCallback) :
    Quietly s (s.writeMessages [.step] cb) := by
  unfold Debugger.writeMessages
  split
  · exact .refl s
  · refine ⟨rfl, .inl rfl, [.sent .step], rfl, ?_⟩
    simp [Quiet, Reports, Clears]

theorem quietly_cancelPendingStepRequest (s : Debugger κ) :
    Quietly s s.cancelPendingStepRequest := by
  unfold Debugger.cancelPendingStepRequest
  split
  · exact .refl s
  · rename_i data hdata
    dsimp only
    split
    · refine ⟨rfl, .inl rfl, [_], rfl, ?_⟩
      simp [Quiet, Reports, Clears]
    · exact ⟨rfl, .inl rfl, [], by simp, by simp⟩

theorem quietly_cancelPendingBreakpointRequest (s : Debugger κ) :
    Quietly s s.cancelPendingBreakpointRequest := by
  unfold Debugger.cancelPendingBreakpointRequest
  split
  · exact .refl s
  · rename_i data hdata
    dsimp only
    split
    · refine ⟨rfl, .inr rfl, [_], rfl, ?_⟩
      simp [Quiet, Reports, Clears]
    · exact ⟨rfl, .inr rfl, [], by simp, by simp⟩

theorem quietly_handleStepRequest (s : Debugger κ) : Quietly s s.handleStepRequest := by
  unfold Debugger.handleStepRequest
  split
  · exact .refl s
  · rename_i data hdata
    split
    · exact quietly_cancelPendingStepRequest s
    split
    · refine ⟨rfl, .inl rfl, [_], rfl, ?_⟩
      simp [Quiet, Reports, Clears]
    · exact quietly_writeStep s _

theorem quietly_stepToNextLine (s : Debugger κ) (cb : Option κ) :
    Quietly s (s.stepToNextLine cb) := by
  have hcancel := quietly_cancelPendingStepRequest s
  unfold Debugger.stepToNextLine
  generalize s.cancelPendingStepRequest = c at hcancel
  have hstored : Quietly c { c with
      pendingStepRequest := some { id := c.allocated, currentLine := c.vmLine.toUInt16, cb },
      allocated := c.allocated + 1 } := ⟨rfl, .inl rfl, [], by simp, by simp⟩
  exact (hcancel.trans hstored).trans (quietly_handleStepRequest _)

theorem quietly_stepWritten (s : Debugger κ) (id : Nat) (ec : SystemErrorCode) :
    Quietly s (s.stepWritten id ec) := by
  unfold Debugger.stepWritten
  split
  · exact .refl s
  split
  · exact .refl s
  rename_i data hdata
  split
  · exact .refl s
  · have hstored : Quietly s { s with
        pendingStepRequest := some { data with error := ec } } := ⟨rfl, .inl rfl, [], by simp, by simp⟩
    exact hstored.trans (quietly_cancelPendingStepRequest _)

/-! ## The request -/

/-- What a call makes of the breakpoints it asks for. -/
structure FitsRequest (bytecode : List BytecodeElement) (known breakpoints : List UInt32)
    (r : List DebugMessage × BreakPointCbData κ) : Prop where
  set : ∀ b ∈ r.2.set, b ∈ breakpoints ∧ b ∈ known
  pending : ∀ p ∈ r.2.pending, pcFromLine bytecode p.2 = some p.1
  error : r.2.error = none
  clear : ∀ pc, .breakpointClear pc ∈ r.1 → ∃ b ∈ known, b ∉ breakpoints ∧
    (pcFromLine bytecode b).map UInt16.ofNat = some pc
  clearAll : .breakpointClearAll ∈ r.1 → breakpoints = []

theorem FitsRequest.addBreakpoint {bytecode : List BytecodeElement} {known breakpoints : List UInt32}
    {r : List DebugMessage × BreakPointCbData κ} (h : FitsRequest bytecode known breakpoints r)
    {b : UInt32} (hb : b ∈ breakpoints) :
    FitsRequest bytecode known breakpoints (Debugger.addBreakpoint bytecode known r b) := by
  unfold Debugger.addBreakpoint
  split
  · rename_i hknown
    refine ⟨fun b' hb' => ?_, h.pending, h.error, h.clear, h.clearAll⟩
    rcases List.mem_insert_iff.mp hb' with rfl | hb'
    · exact ⟨hb, hknown⟩
    · exact h.set b' hb'
  · split
    · exact h
    · rename_i pc hpc
      refine ⟨h.set, fun p hp => ?_, h.error, fun pc' hpc' => h.clear pc' (by simpa using hpc'),
        fun hall => h.clearAll (by simpa using hall)⟩
      rcases OrderedMap.mem_insert hp with rfl | hp
      · exact hpc
      · exact h.pending p hp

theorem fitsRequest_breakpointRequest (s : Debugger κ) (breakpoints : List UInt32) (cb : Option κ) :
    FitsRequest s.bytecode s.breakpoints breakpoints (s.breakpointRequest breakpoints cb) := by
  have hstart : FitsRequest s.bytecode s.breakpoints breakpoints
      (([] : List DebugMessage), ({ id := s.allocated, cb } : BreakPointCbData κ)) :=
    ⟨by simp, by simp, rfl, by simp, by simp⟩
  have hfold : ∀ (l : List UInt32) (r : List DebugMessage × BreakPointCbData κ),
      FitsRequest s.bytecode s.breakpoints breakpoints r → l ⊆ breakpoints →
      FitsRequest s.bytecode s.breakpoints breakpoints
        (l.foldl (Debugger.addBreakpoint s.bytecode s.breakpoints) r) := by
    intro l
    induction l with
    | nil => exact fun r hr _ => hr
    | cons b l ih =>
      intro r hr hl
      exact ih _ (hr.addBreakpoint (hl (by simp))) fun b' hb' => hl (by simp [hb'])
  unfold Debugger.breakpointRequest
  dsimp only
  split
  · rename_i hempty
    exact ⟨by simp, by simp, rfl, by simp, fun _ => by simpa using hempty⟩
  · obtain ⟨hset, hpending, herror, hclear, hclearAll⟩ := hfold breakpoints _ hstart (List.Subset.refl _)
    refine ⟨hset, hpending, herror, fun pc hpc => ?_, fun hall => ?_⟩
    · rcases List.mem_append.mp hpc with hpc | hpc
      · exact hclear pc hpc
      · obtain ⟨b, hb, hclears⟩ := List.mem_filterMap.mp hpc
        split at hclears
        · cases hclears
        · rename_i hnot
          obtain ⟨pc', hpc', heq⟩ := Option.map_eq_some_iff.mp hclears
          cases heq
          exact ⟨b, hb, hnot, by simp [hpc']⟩
    · rcases List.mem_append.mp hall with hall | hall
      · exact hclearAll hall
      · obtain ⟨b, hb, hclears⟩ := List.mem_filterMap.mp hall
        split at hclears
        · cases hclears
        · obtain ⟨pc', -, heq⟩ := Option.map_eq_some_iff.mp hclears
          cases heq

/-! ## Runs -/

theorem not_clears_of_quiet {entries : List (Traced κ)} (h : ∀ entry ∈ entries, Quiet entry)
    (pc : Nat) : ∀ entry ∈ entries, ¬ Clears pc entry :=
  fun entry hentry => (h entry hentry).2 pc

theorem confirmed_append {bytecode : List BytecodeElement} {trace entries : List (Traced κ)}
    {b : UInt32} (h : confirmed bytecode trace b = true)
    (hentries : ∀ pc, pcFromLine bytecode b = some pc → ∀ entry ∈ entries, ¬ Clears pc entry) :
    confirmed bytecode (trace ++ entries) b = true := by
  obtain ⟨pc, hpc, hack⟩ := confirmed_iff.mp h
  exact confirmed_iff.mpr ⟨pc, hpc, acknowledged_append hack (hentries pc hpc)⟩

/-- The breakpoints that the pending request counts as set are confirmed, and so
were those of all reports. -/
structure Honest (bytecode : List BytecodeElement) (s : Debugger κ) : Prop where
  program : s.bytecode = bytecode
  reports : ReportsConfirmed bytecode s.trace
  set : ∀ r, s.pendingBreakpointRequest = some r →
    ∀ b ∈ r.set, confirmed bytecode s.trace b = true
  pending : ∀ r, s.pendingBreakpointRequest = some r →
    ∀ p ∈ r.pending, pcFromLine bytecode p.2 = some p.1

section Honest

variable {bytecode : List BytecodeElement} {s t : Debugger κ}

theorem Honest.of_quietly (hs : Honest bytecode s) (h : Quietly s t) : Honest bytecode t := by
  obtain ⟨entries, htrace, hquiet⟩ := h.trace
  have hrequest : ∀ r, t.pendingBreakpointRequest = some r →
      s.pendingBreakpointRequest = some r := by
    intro r hr
    rcases h.request with hsame | hnone
    · rw [← hsame, hr]
    · rw [hnone] at hr
      cases hr
  refine ⟨h.bytecode.trans hs.program, ?_, fun r hr b hb => ?_, fun r hr => hs.pending r (hrequest r hr)⟩
  · rw [htrace]
    exact hs.reports.append fun entry hentry => (hquiet entry hentry).1
  · rw [htrace]
    exact confirmed_append (hs.set r (hrequest r hr) b hb) fun pc _ => not_clears_of_quiet hquiet pc

/-- The request is answered with a set that is confirmed, unless there was an error. -/
theorem Honest.answer (hs : Honest bytecode s) (breakpoints : List UInt32) (cb : Option κ)
    (ec : SystemErrorCode) (set : List UInt32)
    (hset : ec = none → ∀ b ∈ set, confirmed bytecode s.trace b = true) :
    Honest bytecode ({ s with
      breakpoints,
      pendingBreakpointRequest := none }.post cb (.breakpoints ec set)) := by
  refine ⟨hs.program, ?_, by simp [Debugger.post], by simp [Debugger.post]⟩
  refine hs.reports.append_singleton fun cb' set' heq => ?_
  cases heq
  exact hset rfl

theorem Honest.breakpointsWritten (hs : Honest bytecode s) (id : Nat) (ec : SystemErrorCode) :
    Honest bytecode (s.breakpointsWritten id ec) := by
  unfold Debugger.breakpointsWritten
  split
  · exact hs
  rename_i data hdata
  split
  · exact hs
  dsimp only
  split
  · exact hs.answer data.set data.cb ec data.set fun _ => hs.set data hdata
  · refine ⟨hs.program, hs.reports, ?_, ?_⟩
    · rintro r ⟨⟩
      exact hs.set data hdata
    · rintro r ⟨⟩
      exact hs.pending data hdata

theorem Honest.onBreakpointSetResult (hs : Honest bytecode s) (pc success : UInt16) :
    Honest bytecode (s.onBreakpointSetResult pc success) := by
  have hquiet : Quietly s { s with trace := s.trace ++ [Traced.received pc success] } :=
    ⟨rfl, .inl rfl, [_], rfl, by simp [Quiet, Reports, Clears]⟩
  have hs' := hs.of_quietly hquiet
  have hack : success ≠ 0 → acknowledged pc.toNat (s.trace ++ [Traced.received pc success]) = true :=
    acknowledged_received s.trace
  unfold Debugger.onBreakpointSetResult
  generalize hr : { s with trace := s.trace ++ [Traced.received pc success] } = s' at hs'
  have htrace : s'.trace = s.trace ++ [Traced.received pc success] := by rw [← hr]
  rw [← htrace] at hack
  dsimp only
  split
  · exact hs'
  rename_i r hrequest
  split
  · exact hs'
  rename_i b hfind
  -- the result is for this breakpoint
  have hpc : pcFromLine bytecode b = some pc.toNat :=
    hs'.pending r hrequest (pc.toNat, b) (OrderedMap.mem_of_find? hfind)
  have hset : ∀ b' ∈ (if success ≠ 0 then r.set.insert b else r.set),
      confirmed bytecode s'.trace b' = true := by
    intro b' hb'
    split at hb'
    · rename_i hsuccess
      rcases List.mem_insert_iff.mp hb' with rfl | hb'
      · exact confirmed_iff.mpr ⟨_, hpc, hack hsuccess⟩
      · exact hs'.set r hrequest b' hb'
    · exact hs'.set r hrequest b' hb'
  split
  · exact hs'.answer _ r.cb r.error _ fun _ => hset
  · refine ⟨hs'.program, hs'.reports, ?_, ?_⟩
    · rintro r' ⟨⟩
      exact hset
    · rintro r' ⟨⟩ p hp
      exact hs'.pending r hrequest p (List.mem_filter.mp hp).1

/-- Of the breakpoints that `m_breakpoints` holds, the call asks only for ones that
are confirmed, and it clears none of them: the program counters that it sends are
cut to 16 bits. -/
def AsksForConfirmed (s : Debugger κ) (breakpoints : List UInt32) : Prop :=
  ∀ b ∈ breakpoints, b ∈ s.breakpoints → confirmed s.bytecode s.trace b = true ∧
    ∀ b' ∈ s.breakpoints, b' ∉ breakpoints →
      (pcFromLine s.bytecode b').map UInt16.ofNat ≠ (pcFromLine s.bytecode b).map UInt16.ofNat

theorem not_clears_of_asksForConfirmed {breakpoints : List UInt32}
    (hasks : AsksForConfirmed s breakpoints) {r : List DebugMessage × BreakPointCbData κ}
    (hr : FitsRequest s.bytecode s.breakpoints breakpoints r) {b : UInt32} (hb : b ∈ r.2.set)
    {pc : Nat} (hpc : pcFromLine s.bytecode b = some pc) :
    ∀ entry ∈ (r.1.map Traced.sent : List (Traced κ)), ¬ Clears pc entry := by
  obtain ⟨hrequested, hknown⟩ := hr.set b hb
  intro entry hentry hclears
  obtain ⟨message, hmessage, rfl⟩ := List.mem_map.mp hentry
  cases message with
  | breakpointClear pc' =>
    have hpc' : pc'.toNat = pc := hclears
    obtain ⟨b', hb', hnot, heq⟩ := hr.clear pc' hmessage
    refine (hasks b hrequested hknown).2 b' hb' hnot ?_
    rw [heq, hpc, ← hpc']
    simp
  | breakpointClearAll =>
    rw [hr.clearAll hmessage] at hrequested
    cases hrequested
  | breakpointSet pc' => exact hclears
  | step => exact hclears

theorem Honest.writeMessages (hs : Honest bytecode s) (messages : List DebugMessage)
    (cb : WriteCallback)
    (hclears : ∀ r, s.pendingBreakpointRequest = some r → ∀ b ∈ r.set, ∀ pc,
      pcFromLine bytecode b = some pc →
        ∀ entry ∈ (messages.map Traced.sent : List (Traced κ)), ¬ Clears pc entry) :
    Honest bytecode (s.writeMessages messages cb) := by
  unfold Debugger.writeMessages
  split
  · exact hs
  · refine ⟨hs.program, hs.reports.append ?_, fun r hr b hb => ?_, hs.pending⟩
    · intro entry hentry
      obtain ⟨message, -, rfl⟩ := List.mem_map.mp hentry
      exact not_false
    · exact confirmed_append (hs.set r hr b hb) (hclears r hr b hb)

theorem Honest.setBreakpoints (hs : Honest bytecode s) (breakpoints : List UInt32) (cb : Option κ)
    (hasks : AsksForConfirmed s breakpoints) : Honest bytecode (s.setBreakpoints breakpoints cb) := by
  have hfits := fitsRequest_breakpointRequest s breakpoints cb
  have hclears : ∀ b ∈ (s.breakpointRequest breakpoints cb).2.set, ∀ pc,
      pcFromLine s.bytecode b = some pc →
        ∀ entry ∈ ((s.breakpointRequest breakpoints cb).1.map Traced.sent : List (Traced κ)),
          ¬ Clears pc entry :=
    fun _ hb _ hpc => not_clears_of_asksForConfirmed hasks hfits hb hpc
  have hset : ∀ b ∈ (s.breakpointRequest breakpoints cb).2.set,
      confirmed bytecode s.trace b = true := by
    intro b hb
    obtain ⟨hrequested, hknown⟩ := hfits.set b hb
    rw [← hs.program]
    exact (hasks b hrequested hknown).1
  have hstored : Quietly s { s with
      breakpoints := breakpoints.dedup, allocated := s.allocated + 1 } :=
    ⟨rfl, .inl rfl, [], by simp, by simp⟩
  have hquiet := hstored.trans (quietly_cancelPendingBreakpointRequest _)
  have hnone := Debugger.pendingBreakpointRequest_cancelPendingBreakpointRequest { s with
    breakpoints := breakpoints.dedup, allocated := s.allocated + 1 }
  unfold Debugger.setBreakpoints
  generalize s.breakpointRequest breakpoints cb = request at hfits hclears hset
  obtain ⟨messages, data⟩ := request
  dsimp only at hset hclears ⊢
  generalize Debugger.cancelPendingBreakpointRequest _ = c at hquiet hnone
  have hcancelled := hs.of_quietly hquiet
  have hconfirmed : ∀ b ∈ data.set, confirmed bytecode c.trace b = true := by
    obtain ⟨entries, htrace, hentries⟩ := hquiet.trace
    rw [htrace]
    exact fun b hb => confirmed_append (hset b hb) fun pc _ => not_clears_of_quiet hentries pc
  rw [hs.program] at hclears
  split
  · -- nothing to ask the device for
    rename_i hempty
    rw [List.isEmpty_iff.mp hempty]
    have hanswered : Honest bytecode ({ c with
        breakpoints := data.set,
        pendingBreakpointRequest := none }.post data.cb (.breakpoints data.error data.set)) :=
      hcancelled.answer data.set data.cb data.error data.set fun _ => hconfirmed
    have hnothing : ∀ u : Debugger κ, u.writeMessages [] (.breakpoints data.id) = u := by
      simp [Debugger.writeMessages]
    rw [hnothing]
    split
    · exact hanswered
    · exact hanswered
  · refine Honest.writeMessages ?_ messages _ ?_
    · split
      · refine ⟨hcancelled.program, hcancelled.reports, ?_, ?_⟩
        · rintro r ⟨⟩
          exact hconfirmed
        · rintro r ⟨⟩
          rw [← hs.program]
          exact hfits.pending
      · exact hcancelled
    · intro r hr b hb pc hpc
      split at hr
      · cases hr
        exact hclears b hb pc hpc
      · rw [hnone] at hr
        cases hr

/-- The program of the node stays the same. -/
def KeepsBytecode (bytecode : List BytecodeElement) : Debugger.Event κ → Prop
  | .recompile bytecode' => bytecode' = bytecode
  | .command bytecode' => bytecode' = bytecode
  | _ => True

/-- A call of `set_breakpoints` asks for confirmed breakpoints or for new ones. -/
def Asks (s : Debugger κ) : Debugger.Event κ → Prop
  | .setBreakpoints breakpoints _ => AsksForConfirmed s breakpoints
  | _ => True

theorem Honest.step (hs : Honest bytecode s) {e : Debugger.Event κ} (hasks : Asks s e)
    (hkeeps : KeepsBytecode bytecode e) (h : s.step e = some t) : Honest bytecode t := by
  have hsame : ∀ u : Debugger κ, u.bytecode = s.bytecode →
      u.pendingBreakpointRequest = s.pendingBreakpointRequest → u.trace = s.trace → Quietly s u :=
    fun u hbytecode hrequest htrace => ⟨hbytecode, .inl hrequest, [], by simp [htrace], by simp⟩
  unfold Debugger.step at h
  split at h
  · cases h
  cases e with
  | setBreakpoints breakpoints cb =>
    cases h
    exact hs.setBreakpoints breakpoints cb hasks
  | stepToNextLine cb =>
    cases h
    exact hs.of_quietly (quietly_stepToNextLine s cb)
  | breakpointResult pc success =>
    cases h
    exact hs.onBreakpointSetResult pc success
  | executionState pc flags =>
    cases h
    unfold Debugger.onExecutionStateMessage
    refine hs.of_quietly (Quietly.trans ?_ (quietly_handleStepRequest _))
    exact hsame _ rfl rfl rfl
  | runtimeError pc =>
    cases h
    have hcancel := quietly_cancelPendingStepRequest s
    exact hs.of_quietly (hcancel.trans ⟨rfl, .inl rfl, [], (List.append_nil _).symm, by simp⟩)
  | recompile bytecode' =>
    obtain ⟨-, rfl⟩ : s.hasEndpoint = true ∧ s.recompile bytecode' = t := by
      simpa using h
    have hcancel := ((hsame { s with breakpoints := [] } rfl rfl rfl).trans
      (quietly_cancelPendingStepRequest _)).trans (quietly_cancelPendingBreakpointRequest _)
    have hcancelled := hs.of_quietly hcancel
    exact ⟨hkeeps, hcancelled.reports, hcancelled.set, hcancelled.pending⟩
  | command bytecode' =>
    obtain ⟨-, rfl⟩ : s.hasEndpoint = true ∧ { s with bytecode := bytecode' } = t := by
      simpa using h
    exact ⟨hkeeps, hs.reports, hs.set, hs.pending⟩
  | written index ec =>
    obtain ⟨cb, -, rfl⟩ := Option.map_eq_some_iff.mp h
    have hleft := hs.of_quietly (hsame { s with writes := s.writes.eraseIdx index } rfl rfl rfl)
    cases cb with
    | breakpoints id => exact hleft.breakpointsWritten id ec
    | step id => exact hleft.of_quietly (quietly_stepWritten _ id ec)
  | dropped index =>
    obtain ⟨cb, -, rfl⟩ := Option.map_eq_some_iff.mp h
    exact hs.of_quietly (hsame _ rfl rfl rfl)
  | endpointGone =>
    cases h
    exact hs.of_quietly (hsame _ rfl rfl rfl)
  | disconnect =>
    cases h
    exact hs.of_quietly ((quietly_cancelPendingStepRequest s).trans
      (quietly_cancelPendingBreakpointRequest _))
  | destroy =>
    obtain ⟨-, rfl⟩ : s.writes = [] ∧ { s.cancelPendingRequests with alive := false } = t := by
      simpa using h
    have hcancel := (quietly_cancelPendingStepRequest s).trans
      (quietly_cancelPendingBreakpointRequest s.cancelPendingStepRequest)
    exact hs.of_quietly (hcancel.trans ⟨rfl, .inl rfl, [], (List.append_nil _).symm, by simp⟩)

end Honest

instance (s : Debugger κ) (breakpoints : List UInt32) :
    Decidable (AsksForConfirmed s breakpoints) :=
  have : ∀ b : UInt32, Decidable (∀ b' ∈ s.breakpoints, b' ∉ breakpoints →
      (pcFromLine s.bytecode b').map UInt16.ofNat ≠ (pcFromLine s.bytecode b).map UInt16.ofNat) :=
    fun _ => List.decidableBAll _ s.breakpoints
  List.decidableBAll _ breakpoints

instance (s : Debugger κ) : (e : Debugger.Event κ) → Decidable (Asks s e)
  | .setBreakpoints breakpoints _ => inferInstanceAs (Decidable (AsksForConfirmed s breakpoints))
  | .stepToNextLine _ => .isTrue trivial
  | .breakpointResult _ _ => .isTrue trivial
  | .executionState _ _ => .isTrue trivial
  | .runtimeError _ => .isTrue trivial
  | .recompile _ => .isTrue trivial
  | .command _ => .isTrue trivial
  | .written _ _ => .isTrue trivial
  | .dropped _ => .isTrue trivial
  | .endpointGone => .isTrue trivial
  | .disconnect => .isTrue trivial
  | .destroy => .isTrue trivial

/-- In every run of a node with one program whose calls of `set_breakpoints` all ask
for confirmed breakpoints or for new ones. -/
theorem reported_breakpoints_confirmed (bytecode : List BytecodeElement)
    (events : List (Debugger.Event κ)) (hkeeps : ∀ e ∈ events, KeepsBytecode bytecode e)
    (hasks : Transition.Along Debugger.step (fun _ s e => Asks s e) [] { bytecode } events)
    (s : Debugger κ) (hrun : Transition.run Debugger.step { bytecode } events = some s) :
    ReportsConfirmed bytecode s.trace := by
  have hstart : Honest bytecode ({ bytecode } : Debugger κ) := by
    refine ⟨rfl, ?_, by simp, by simp⟩
    intro before cb set after htrace
    simp at htrace
  have hs := Transition.invariant (I := fun _ s => Honest bytecode s)
    (fun past s e t hs hallowed h => hs.step hallowed.1 hallowed.2 h) hstart
    (hasks.and_mem hkeeps) hrun
  exact hs.reports

/-- Lines 1 to 8 of a program, one word each. -/
def eightLines : List BytecodeElement :=
  (List.range 8).map fun line => { bytecode := 0, line := UInt16.ofNat line }

/-- A breakpoint is set and confirmed, and kept by a call that asks for another one. -/
def setOneByOne : List (Debugger.Event Unit) :=
  [.setBreakpoints [6] (some ()), .breakpointResult 5 1, .written 0 none,
    .setBreakpoints [6, 8] (some ()), .breakpointResult 7 0]

theorem setOneByOne_confirmed :
    ∃ s : Debugger Unit, Transition.run Debugger.step { bytecode := eightLines } setOneByOne = some s ∧
      Traced.posted (some ()) (.breakpoints none [6]) ∈ s.trace ∧
      ReportsConfirmed eightLines s.trace := by
  cases h : Transition.run Debugger.step { bytecode := eightLines } setOneByOne with
  | none => exact absurd h (by decide)
  | some s =>
    refine ⟨s, rfl, ?_, reported_breakpoints_confirmed eightLines setOneByOne ?_ (by decide) s h⟩
    · have hposted : (Transition.run Debugger.step { bytecode := eightLines } setOneByOne).any
          (fun s => Traced.posted (some ()) (.breakpoints none [6]) ∈ s.trace) := by
        decide +kernel
      rw [h] at hposted
      simpa using hposted
    · simp [setOneByOne, KeepsBytecode]

/-- The same breakpoint is asked for again before the device has answered. -/
def setTwice : List (Debugger.Event Unit) :=
  [.setBreakpoints [6] (some ()), .setBreakpoints [6] (some ())]

theorem setTwice_unconfirmed :
    ¬ ∀ (bytecode : List BytecodeElement) (events : List (Debugger.Event Unit)) (s : Debugger Unit),
      (∀ e ∈ events, KeepsBytecode bytecode e) →
        Transition.run Debugger.step { bytecode } events = some s →
          ReportsConfirmed bytecode s.trace := by
  intro h
  have hrun : Transition.run Debugger.step { bytecode := eightLines } setTwice = some {
      bytecode := eightLines, breakpoints := [6], allocated := 2, writes := [.breakpoints 0],
      trace := [.sent (.breakpointSet 5),
        .posted (some ()) (.breakpoints (some .operationCanceled) []),
        .posted (some ()) (.breakpoints none [6])] } := by decide
  have hreports := h eightLines setTwice _ (by simp [setTwice, KeepsBytecode]) hrun
  have hconfirmed := hreports [.sent (.breakpointSet 5),
    .posted (some ()) (.breakpoints (some .operationCanceled) [])] (some ()) [6] [] rfl 6 (by simp)
  exact absurd hconfirmed (by decide)

end Breakpoints

end ThymioDeviceManager.Correctness
