import ThymioDeviceManager.Library.Traverse
import ThymioDeviceManager.Manager.Emission
import ThymioDeviceManager.Correctness.DeviceWrites

/-! # The answers of an emission

The deleter of the shared pointer answers with success in any case, so an error that
an endpoint reports comes on top of it. No endpoint reports one exactly when each of
them has the events of the request with payloads of the right size. The callback of an
endpoint goes with the message of its batch that is sent first, so a batch of several
events is answered while the others are still in the queue.
-/

namespace ThymioDeviceManager.Correctness

open Manager Library

namespace EventEmission

variable {s t : Emission}

/-! ## What an endpoint accepts -/

/-- The endpoint has the event and the value makes a payload for it. -/
def AcceptsEvent (ep : Endpoint) (entry : String × Property) : Prop :=
  ∃ event id bytes, ep.getEvent entry.1 = some (event, id) ∧
    toAsebaVariable entry.2 (UInt16.ofInt event.value) = .ok bytes

/-- The message for an entry. -/
def eventMessage (ep : Endpoint) (entry : String × Property) : Except TdmError UserMessage :=
  (ep.getEvent entry.1).elim (.error .noSuchVariable) fun found =>
    (toAsebaVariable entry.2 (UInt16.ofInt found.1.value)).map fun bytes =>
      { type := UInt16.ofNat found.2, data := bytes }

theorem eventMessage_of_accepts {ep : Endpoint} {entry : String × Property} {event : NamedValue}
    {id : Nat} {bytes : List Int16} (hevent : ep.getEvent entry.1 = some (event, id))
    (hbytes : toAsebaVariable entry.2 (UInt16.ofInt event.value) = .ok bytes) :
    eventMessage ep entry = .ok { type := UInt16.ofNat id, data := bytes } := by
  rw [eventMessage, hevent, Option.elim_some, hbytes]
  rfl

theorem eventMessage_ok_iff (ep : Endpoint) (entry : String × Property) :
    (∃ m, eventMessage ep entry = .ok m) ↔ AcceptsEvent ep entry := by
  constructor
  · rintro ⟨m, hm⟩
    cases hevent : ep.getEvent entry.1 with
    | none => simp [eventMessage, hevent] at hm
    | some found =>
      cases hbytes : toAsebaVariable entry.2 (UInt16.ofInt found.1.value) with
      | error e => simp [eventMessage, hevent, hbytes, Except.map] at hm
      | ok bytes => exact ⟨found.1, found.2, bytes, hevent, hbytes⟩
  · rintro ⟨event, id, bytes, hevent, hbytes⟩
    exact ⟨_, eventMessage_of_accepts hevent hbytes⟩

theorem eventMessages_eq (ep : Endpoint) (map : List (String × Property)) :
    ep.eventMessages map = map.mapM (eventMessage ep) := by
  induction map with
  | nil => rfl
  | cons entry map ih =>
    obtain ⟨name, p⟩ := entry
    rw [Traverse.mapM_cons, ← ih]
    simp only [Endpoint.eventMessages, eventMessage]
    cases ep.getEvent name with
    | none => rfl
    | some found =>
      obtain ⟨event, id⟩ := found
      dsimp only [Option.elim_some]
      cases toAsebaVariable p (UInt16.ofInt event.value) with
      | error e => rfl
      | ok bytes => rfl

theorem eventMessages_ok_iff (ep : Endpoint) (map : List (String × Property)) :
    (∃ messages, ep.eventMessages map = .ok messages) ↔ ∀ entry ∈ map, AcceptsEvent ep entry := by
  rw [eventMessages_eq, Traverse.exists_mapM_iff]
  simp only [eventMessage_ok_iff]

/-- The errors that the endpoints report, in their order. -/
def reported (members : List Member) (map : VariablesMap) : List TdmError :=
  members.filterMap fun m => (Emission.emitTo map m).2

theorem emitTo_eq_none_iff (map : VariablesMap) (m : Member) :
    (Emission.emitTo map m).2 = none ↔ ∀ entry ∈ map.entries, AcceptsEvent m.endpoint entry := by
  rw [← eventMessages_ok_iff]
  cases h : m.endpoint.eventMessages map.entries with
  | error e => simp [Emission.emitTo, h]
  | ok messages => simp [Emission.emitTo, h]

theorem reported_eq_nil_iff (members : List Member) (map : VariablesMap) :
    reported members map = [] ↔
      ∀ m ∈ members, ∀ entry ∈ map.entries, AcceptsEvent m.endpoint entry := by
  simp only [reported, List.filterMap_eq_nil_iff, emitTo_eq_none_iff]

/-- An endpoint that accepts the events queues one message for each of them. -/
theorem emitTo_of_accepts {map : VariablesMap} {m : Member}
    (h : ∀ entry ∈ map.entries, AcceptsEvent m.endpoint entry) :
    ∃ messages : List UserMessage, messages.length = map.entries.length ∧
      Emission.emitTo map m =
        ((Emission.joined m).writeMessages (messages.map (⟨·, true⟩)) (some .emission), none) := by
  obtain ⟨messages, hmessages⟩ := (eventMessages_ok_iff _ _).mpr h
  refine ⟨messages, ?_, by simp [Emission.emitTo, hmessages]⟩
  rw [eventMessages_eq] at hmessages
  exact (Traverse.forall₂_of_mapM hmessages).length_eq.symm

/-! ## Queues -/

/-- The messages and callbacks of a queue. -/
abbrev Queue := List (QueuedMessage × Option QueuedCallback)

/-- A copy of the pointer of the emission waits in the queue. -/
def Waits (queue : Queue) : Prop := ∃ cell ∈ queue, cell.2 = some .emission

/-- An event of the emission has not been sent. -/
def Unsent (queue : Queue) : Prop := ∃ cell ∈ queue, cell.1.emitted = true

/-- The device takes the messages of the queue, one after the other. -/
def Sends {μ κ : Type} (ep : AsebaEndpoint μ κ) : Prop :=
  ep.hasDevice = true ∧ ep.upgradingFirmware = false

theorem waits_append {before after : Queue} :
    Waits (before ++ after) ↔ Waits before ∨ Waits after := by
  simp [Waits, or_and_right, exists_or]

theorem unsent_append {before after : Queue} :
    Unsent (before ++ after) ↔ Unsent before ∨ Unsent after := by
  simp [Unsent, or_and_right, exists_or]

section Writers

variable {μ κ : Type} (type : μ → Nat) (ep : AsebaEndpoint μ κ)

theorem sends_writeMessages (messages : List μ) (cb : Option κ) :
    Sends (ep.writeMessages type messages cb).1 ↔ Sends ep := by
  by_cases h : messages = []
  · rw [h, writeMessages_nil]
  · rw [writeMessages_eq type ep h]
    rfl

theorem sends_handleWrite (ec : Option EmissionError) : Sends (ep.handleWrite ec).1 ↔ Sends ep := by
  simp only [AsebaEndpoint.handleWrite]
  repeat' split
  all_goals rfl

variable {ep}

theorem writeNext_of_not_sends (h : ¬ Sends ep) : ep.writeNext = none := by
  have hwaits : (ep.upgradingFirmware || !ep.hasDevice) = true := by
    cases hd : ep.hasDevice <;> cases hu : ep.upgradingFirmware <;> simp_all [Sends]
  simp [AsebaEndpoint.writeNext, hwaits]

theorem writeNext_of_sends (h : Sends ep) {queue : List (μ × Option κ)} (hqueue : queue ≠ []) :
    (AsebaEndpoint.writeNext { ep with msgQueue := queue }).isSome = true := by
  obtain ⟨cell, rest, rfl⟩ := List.exists_cons_of_ne_nil hqueue
  simp [AsebaEndpoint.writeNext, h.1, h.2]

theorem next_of_not_sends (h : ¬ Sends ep) (messages : List μ) (cb : Option κ) :
    (ep.writeMessages type messages cb).2 = none := by
  by_cases hempty : messages = []
  · rw [hempty, writeMessages_nil]
  · rw [writeMessages_eq type ep hempty]
    dsimp only
    split
    · exact writeNext_of_not_sends h
    · rfl

end Writers

/-- A batch that is not of the emission. -/
theorem waits_batch (messages : List UserMessage) (cb : Bool) :
    ¬ Waits (batchCells (messages.map (⟨·, false⟩)) (if cb then some .other else none)) := by
  rintro ⟨cell, hcell, hemission⟩
  have hne : messages.map (⟨·, false⟩ : UserMessage → QueuedMessage) ≠ [] := by
    rintro hnil
    simp [hnil, batchCells] at hcell
  have hcallbacks := filterMap_snd_batchCells hne (if cb then some QueuedCallback.other else none)
  have hmem := List.mem_filterMap.mpr ⟨cell, hcell, hemission⟩
  rw [hcallbacks] at hmem
  cases cb <;> simp at hmem

theorem unsent_batch (messages : List UserMessage) (cb : Option QueuedCallback) :
    ¬ Unsent (batchCells (messages.map (⟨·, false⟩)) cb) := by
  rintro ⟨cell, hcell, hemitted⟩
  have hmem := List.mem_map_of_mem (f := (·.1)) hcell
  rw [map_fst_batchCells] at hmem
  obtain ⟨m, -, hm⟩ := List.mem_map.mp (List.mem_reverse.mp hmem)
  simp [← hm] at hemitted

variable {w : Sender}

/-- A write that is no emission adds no copy. -/
theorem waits_writeMessages {messages : List UserMessage} {cb : Bool}
    (h : Waits (w.writeMessages (messages.map (⟨·, false⟩))
      (if cb then some .other else none)).writer.msgQueue) : Waits w.writer.msgQueue := by
  by_cases hempty : messages = []
  · simpa [hempty, Sender.writeMessages, AsebaEndpoint.writeMessages] using h
  simp only [Sender.writeMessages, writeMessages_eq QueuedMessage.type w.writer
    (by simpa using hempty : messages.map (⟨·, false⟩ : UserMessage → QueuedMessage) ≠ []),
    waits_append] at h
  exact h.resolve_right (waits_batch messages cb)

/-- The completion of a write moves the callback of the front or drops the queue. -/
theorem waits_handleWrite (w : Sender) (ec : Option EmissionError) :
    (Waits (w.handleWrite ec).1.writer.msgQueue → Waits w.writer.msgQueue) ∧
      ∀ task ∈ (w.handleWrite ec).2, task.2 = none ∧ (task.1 = .emission → Waits w.writer.msgQueue) := by
  unfold Sender.handleWrite AsebaEndpoint.handleWrite
  cases hqueue : w.writer.msgQueue with
  | nil => simp [hqueue]
  | cons cell rest =>
    obtain ⟨m, cb⟩ := cell
    cases ec with
    | some ec => simp [Waits]
    | none =>
      constructor
      · rintro ⟨cell, hcell, hemission⟩
        exact ⟨cell, List.mem_cons_of_mem _ hcell, hemission⟩
      · intro task htask
        cases cb with
        | none => simp at htask
        | some cb =>
          obtain rfl : (cb, none) = task := by simpa using htask
          exact ⟨rfl, fun hemission => ⟨_, List.mem_cons_self, by simpa using hemission⟩⟩

/-! ## The copies of the pointer -/

theorem held_iff :
    s.held = true ↔ (∃ w ∈ s.senders, Waits w.writer.msgQueue) ∨
      ∃ task ∈ s.tasks, task.1 = .emission := by
  simp [Emission.held, Waits]

/-- The queues with one of them replaced hold no more copies than before, when those of the new
queue and of the new tasks come from the old ones. -/
theorem held_of_set {index : Nat} (hw : s.senders[index]? = some w) (w' : Sender)
    (added : List (QueuedCallback × Option EmissionError))
    (hwriter : Waits w'.writer.msgQueue → Waits w.writer.msgQueue)
    (hadded : ∀ task ∈ added, task.1 = .emission → Waits w.writer.msgQueue)
    (h : Emission.held { s with
      senders := s.senders.set index w', tasks := s.tasks ++ added } = true) :
    s.held = true := by
  have hmem : w ∈ s.senders := List.mem_of_getElem? hw
  rw [held_iff] at h ⊢
  cases h with
  | inl hqueue =>
    obtain ⟨v, hv, hwaits⟩ := hqueue
    cases List.mem_or_eq_of_mem_set hv with
    | inl hold => exact .inl ⟨v, hold, hwaits⟩
    | inr heq =>
      subst heq
      exact .inl ⟨w, hmem, hwriter hwaits⟩
  | inr htask =>
    obtain ⟨task, htask, hemission⟩ := htask
    cases List.mem_append.mp htask with
    | inl hold => exact .inr ⟨task, hold, hemission⟩
    | inr hnew => exact .inl ⟨w, hmem, hadded task hnew hemission⟩

/-! ## Runs -/

theorem step_written {index : Nat} {ec : Option EmissionError} :
    s.step (.written index ec) = some t ↔ ∃ w, s.senders[index]? = some w ∧ w.inFlight = true ∧
      t = Emission.release { s with
        senders := s.senders.set index (w.handleWrite ec).1,
        tasks := s.tasks ++ (w.handleWrite ec).2.toList } := by
  simp only [Emission.step]
  cases hw : s.senders[index]? with
  | none => simp
  | some w =>
    by_cases hflight : w.inFlight = true
    · simp [hflight]
      exact eq_comm
    · simp [hflight]

theorem step_gone {index : Nat} :
    s.step (.gone index) = some t ↔ ∃ w, s.senders[index]? = some w ∧ w.inFlight = false ∧
      t = Emission.release { s with senders := s.senders.eraseIdx index } := by
  simp only [Emission.step]
  cases hw : s.senders[index]? with
  | none => simp
  | some w =>
    by_cases hflight : w.inFlight = true
    · simp [hflight]
    · simp [hflight]
      exact eq_comm

@[simp] theorem answer_senders (s : Emission) (ec : Option EmissionError) :
    (s.answer ec).senders = s.senders := by
  unfold Emission.answer
  split <;> rfl

@[simp] theorem answer_tasks (s : Emission) (ec : Option EmissionError) :
    (s.answer ec).tasks = s.tasks := by
  unfold Emission.answer
  split <;> rfl

@[simp] theorem release_senders (s : Emission) : s.release.senders = s.senders := by
  unfold Emission.release
  split
  · exact answer_senders _ _
  · rfl

@[simp] theorem release_tasks (s : Emission) : s.release.tasks = s.tasks := by
  unfold Emission.release
  split
  · exact answer_tasks _ _
  · rfl

theorem exists_step_run {t : QueuedCallback × Option EmissionError} (index : Nat)
    (h : s.tasks[index]? = some t) :
    ∃ u, s.step (.run index) = some u ∧ u.senders = s.senders ∧
      u.tasks = s.tasks.eraseIdx index := by
  obtain ⟨cb, ec⟩ := t
  cases cb <;> cases ec <;> simp [Emission.step, h]

/-- The callback has been called with the errors, and with success once no copy of
the pointer is left. -/
structure Answering (errs : List TdmError) (s : Emission) : Prop where
  callback : s.callback = true
  tasks : ∀ task ∈ s.tasks, task.2 = none
  answers : s.answers = errs.map (fun e => some (.tdm e)) ++ (if s.pending then [] else [none])
  pending : s.pending = s.held

@[simp] theorem held_answer (s : Emission) (ec : Option EmissionError) :
    (s.answer ec).held = s.held := by
  unfold Emission.answer
  split <;> rfl

/-- `release` after a change that leaves the answers alone and makes no copy. -/
theorem answering_release {errs : List TdmError} (hcallback : s.callback = true)
    (htasks : ∀ task ∈ s.tasks, task.2 = none)
    (hanswers : s.answers =
      errs.map (fun e => some (.tdm e)) ++ (if s.pending then [] else [none]))
    (hpending : s.held = true → s.pending = true) : Answering errs s.release := by
  unfold Emission.release
  split
  · rename_i hlast
    obtain ⟨hp, hheld⟩ : s.pending = true ∧ s.held = false := by simpa using hlast
    refine ⟨?_, ?_, ?_, ?_⟩
    · simp [Emission.answer, hcallback]
    · simpa [Emission.answer, hcallback] using htasks
    · simp [Emission.answer, hcallback, hanswers, hp]
    · have hsame : (Emission.answer { s with pending := false } none).held = s.held := by
        rw [held_answer]
        rfl
      rw [hsame, hheld]
      simp [Emission.answer, hcallback]
  · rename_i hnot
    refine ⟨hcallback, htasks, hanswers, ?_⟩
    cases hp : s.pending with
    | true =>
      have hheld : s.held = true := by simpa [hp] using hnot
      exact hheld.symm
    | false =>
      cases hheld : s.held with
      | false => rfl
      | true => simp [hpending hheld] at hp

theorem foldl_answer (errs : List TdmError) (s : Emission) (h : s.callback = true) :
    errs.foldl (fun s e => s.answer (some (.tdm e))) s =
      { s with answers := s.answers ++ errs.map (fun e => some (.tdm e)) } := by
  induction errs generalizing s with
  | nil => simp
  | cons e errs ih =>
    have hanswer : s.answer (some (.tdm e)) = { s with answers := s.answers ++ [some (.tdm e)] } := by
      simp [Emission.answer, h]
    have hrest := ih { s with answers := s.answers ++ [some (.tdm e)] } h
    rw [List.foldl_cons, hanswer, hrest]
    simp

theorem senders_emitEvents (members : List Member) (map : VariablesMap) :
    (Emission.emitEvents members true map).senders =
      members.map fun m => (Emission.emitTo map m).1 := by
  rw [Emission.emitEvents, foldl_answer _ _ rfl]
  simp

theorem tasks_emitEvents (members : List Member) (map : VariablesMap) :
    (Emission.emitEvents members true map).tasks = [] := by
  rw [Emission.emitEvents, foldl_answer _ _ rfl]
  simp

theorem answering_emitEvents (members : List Member) (map : VariablesMap) :
    Answering (reported members map) (Emission.emitEvents members true map) := by
  have herrs : (members.map (Emission.emitTo map)).filterMap (·.2) = reported members map := by
    simp [reported, List.filterMap_map]
  simp only [Emission.emitEvents, herrs]
  rw [foldl_answer _ _ rfl]
  exact answering_release rfl (by simp) (by simp) (fun _ => rfl)

theorem answering_step {errs : List TdmError} {e : Emission.Event} (h : Answering errs s)
    (hstep : s.step e = some t) : Answering errs t := by
  have hmono : ∀ {u : Emission}, (u.held = true → s.held = true) →
      u.held = true → s.pending = true := by
    intro u hle hu
    rw [h.pending]
    exact hle hu
  cases e with
  | written index ec =>
    obtain ⟨w, hw, -, rfl⟩ := step_written.mp hstep
    obtain ⟨hqueue, hposted⟩ := waits_handleWrite w ec
    have hposted' : ∀ task ∈ (w.handleWrite ec).2.toList,
        task.2 = none ∧ (task.1 = .emission → Waits w.writer.msgQueue) := by
      intro task htask
      exact hposted task (Option.mem_toList.mp htask)
    refine answering_release h.callback ?_ h.answers (hmono fun hheld => ?_)
    · intro task htask
      cases List.mem_append.mp htask with
      | inl hold => exact h.tasks task hold
      | inr hnew => exact (hposted' task hnew).1
    · exact held_of_set hw _ _ hqueue (fun task htask => (hposted' task htask).2) hheld
  | write index messages cb =>
    obtain ⟨w, hw, rfl⟩ := Option.map_eq_some_iff.mp hstep
    refine answering_release h.callback h.tasks h.answers (hmono fun hheld => ?_)
    refine held_of_set hw (w.writeMessages (messages.map (⟨·, false⟩))
      (if cb then some .other else none)) [] waits_writeMessages (by simp) ?_
    rwa [List.append_nil]
  | run index =>
    obtain ⟨task, htask, rfl⟩ := Option.map_eq_some_iff.mp hstep
    have hec : task.2 = none := h.tasks task (List.mem_of_getElem? htask)
    obtain ⟨cb, ec⟩ := task
    cases hec
    have hrest : Answering errs
        (Emission.release { s with tasks := s.tasks.eraseIdx index }) := by
      refine answering_release h.callback ?_ h.answers (hmono fun hheld => ?_)
      · intro task htask
        exact h.tasks task (List.mem_of_mem_eraseIdx htask)
      · rw [held_iff] at hheld ⊢
        apply hheld.imp_right
        rintro ⟨task, htask, hemission⟩
        exact ⟨task, List.mem_of_mem_eraseIdx htask, hemission⟩
    cases cb <;> exact hrest
  | gone index =>
    obtain ⟨w, hw, -, rfl⟩ := step_gone.mp hstep
    refine answering_release h.callback h.tasks h.answers (hmono fun hheld => ?_)
    rw [held_iff] at hheld ⊢
    apply hheld.imp_left
    rintro ⟨w, hw, hwaits⟩
    exact ⟨w, List.mem_of_mem_eraseIdx hw, hwaits⟩

theorem answering_run {errs : List TdmError} {events : List Emission.Event} (h : Answering errs s)
    (hrun : Transition.run Emission.step s events = some t) : Answering errs t :=
  Transition.preserved (fun _ _ _ hs hstep => answering_step hs hstep) h hrun

/-! ## Events that have not been sent -/

/-- Every endpoint is through with the emission: no event of it is in a queue. -/
def Finished (s : Emission) : Prop := ∀ w ∈ s.senders, ¬ Unsent w.writer.msgQueue

/-- Each unsent event holds a copy of the pointer itself. -/
def Single (queue : Queue) : Prop := ∀ cell ∈ queue, cell.1.emitted = true → cell.2 = some .emission

/-- A queue whose device takes nothing, or only the front message, which is not of the emission. -/
structure Stuck (w : Sender) : Prop where
  still : ¬ Sends w.writer
  front : w.inFlight = true →
    ∃ cell rest, w.writer.msgQueue = cell :: rest ∧ ¬ Waits [cell]
  waits : Unsent w.writer.msgQueue → Waits w.writer.msgQueue

/-- As long as an event is unsent a copy of the pointer waits with it. -/
def Covers (w : Sender) : Prop := Single w.writer.msgQueue ∨ Stuck w

/-- Every copy waits with an unsent event. -/
def CopiesUnsent (queue : Queue) : Prop :=
  ∀ cell ∈ queue, cell.2 = some .emission → cell.1.emitted = true

theorem Covers.waits (h : Covers w) (hunsent : Unsent w.writer.msgQueue) :
    Waits w.writer.msgQueue := by
  cases h with
  | inl hsingle =>
    obtain ⟨cell, hcell, hemitted⟩ := hunsent
    exact ⟨cell, hcell, hsingle cell hcell hemitted⟩
  | inr hstuck => exact hstuck.waits hunsent

/-- Another batch behind the queue, with neither events nor copies of the emission. -/
theorem covers_append {w' : Sender} {batch : Queue} (h : Covers w)
    (hqueue : w'.writer.msgQueue = w.writer.msgQueue ++ batch) (hunsent : ¬ Unsent batch)
    (hsends : Sends w'.writer ↔ Sends w.writer)
    (hflight : ¬ Sends w.writer → w'.inFlight = w.inFlight) : Covers w' := by
  cases h with
  | inl hsingle =>
    left
    rw [hqueue]
    intro cell hcell hemitted
    cases List.mem_append.mp hcell with
    | inl hold => exact hsingle cell hold hemitted
    | inr hnew => exact absurd ⟨cell, hnew, hemitted⟩ hunsent
  | inr hstuck =>
    right
    constructor
    · exact hsends.not.mpr hstuck.still
    · intro hin
      rw [hflight hstuck.still] at hin
      obtain ⟨cell, rest, hcons, hfront⟩ := hstuck.front hin
      exact ⟨cell, rest ++ batch, by rw [hqueue, hcons, List.cons_append], hfront⟩
    · rw [hqueue, unsent_append, waits_append]
      intro hor
      exact Or.inl (hstuck.waits (hor.resolve_right hunsent))

theorem covers_writeMessages (h : Covers w) (messages : List UserMessage)
    (cb : Option QueuedCallback) : Covers (w.writeMessages (messages.map (⟨·, false⟩)) cb) := by
  by_cases hempty : messages = []
  · subst hempty
    have hnone : ¬ Unsent [] := by simp [Unsent]
    refine covers_append h ?_ hnone Iff.rfl ?_
    · simp [Sender.writeMessages, writeMessages_nil]
    · simp [Sender.writeMessages, writeMessages_nil]
  · have hne : messages.map (⟨·, false⟩ : UserMessage → QueuedMessage) ≠ [] := by
      simpa using hempty
    refine covers_append h ?_ (unsent_batch messages cb)
      (sends_writeMessages QueuedMessage.type w.writer _ cb) ?_
    · simp only [Sender.writeMessages, writeMessages_eq QueuedMessage.type w.writer hne]
    · intro hstill
      simp [Sender.writeMessages, next_of_not_sends QueuedMessage.type hstill]

theorem covers_handleWrite (h : Covers w) (hin : w.inFlight = true) (ec : Option EmissionError) :
    Covers (w.handleWrite ec).1 := by
  have hsends := sends_handleWrite w.writer ec
  unfold Sender.handleWrite AsebaEndpoint.handleWrite at *
  cases hqueue : w.writer.msgQueue with
  | nil => exact Or.inl (by simp [Single, hqueue])
  | cons cell rest =>
    cases ec with
    | some ec => exact Or.inl (by simp [Single])
    | none =>
      cases h with
      | inl hsingle =>
        left
        intro cell' hcell'
        exact hsingle cell' (by rw [hqueue]; exact List.mem_cons_of_mem _ hcell')
      | inr hstuck =>
        right
        simp only [hqueue, Option.isSome_none, Bool.false_eq_true, if_false] at hsends ⊢
        have hstill := hsends.not.mpr hstuck.still
        constructor
        · exact hstill
        · intro hnext
          simp [writeNext_of_not_sends hstill] at hnext
        · intro hunsent
          obtain ⟨front, rest', hcons, hfront⟩ := hstuck.front hin
          rw [hqueue] at hcons
          cases hcons
          have hwaits := hstuck.waits (by
            rw [hqueue]
            exact (@unsent_append [cell] rest).mpr (Or.inr hunsent))
          rw [hqueue] at hwaits
          exact ((@waits_append [cell] rest).mp hwaits).resolve_left hfront

/-- A queue in which unsent events and copies of the pointer are found together. -/
structure Together (w : Sender) : Prop where
  covers : Covers w
  copies : CopiesUnsent w.writer.msgQueue

theorem together_writeMessages (h : Together w) (messages : List UserMessage) (cb : Bool) :
    Together (w.writeMessages (messages.map (⟨·, false⟩)) (if cb then some .other else none)) := by
  refine ⟨covers_writeMessages h.covers messages _, ?_⟩
  by_cases hempty : messages = []
  · simpa [hempty, Sender.writeMessages, writeMessages_nil] using h.copies
  · have hne : messages.map (⟨·, false⟩ : UserMessage → QueuedMessage) ≠ [] := by
      simpa using hempty
    simp only [Sender.writeMessages, writeMessages_eq QueuedMessage.type w.writer hne]
    intro cell hcell hemission
    cases List.mem_append.mp hcell with
    | inl hold => exact h.copies cell hold hemission
    | inr hnew => exact absurd ⟨cell, hnew, hemission⟩ (waits_batch messages cb)

theorem together_handleWrite (h : Together w) (hin : w.inFlight = true)
    (ec : Option EmissionError) : Together (w.handleWrite ec).1 := by
  refine ⟨covers_handleWrite h.covers hin ec, ?_⟩
  have hcopies := h.copies
  unfold Sender.handleWrite AsebaEndpoint.handleWrite
  cases hqueue : w.writer.msgQueue with
  | nil => simp [CopiesUnsent, hqueue]
  | cons cell rest =>
    rw [hqueue] at hcopies
    cases ec with
    | some ec => simp [CopiesUnsent]
    | none =>
      intro cell' hcell'
      exact hcopies cell' (List.mem_cons_of_mem _ hcell')

theorem mem_joined {m : Member} {cell : QueuedMessage × Option QueuedCallback}
    (h : cell ∈ (Emission.joined m).writer.msgQueue) :
    cell.1.emitted = false ∧ cell.2 ≠ some .emission := by
  obtain ⟨old, -, rfl⟩ := List.mem_map.mp h
  cases old.2 <;> simp

/-- The batch of an emission: all events of it, and one copy of the pointer. -/
theorem emitted_of_mem_batch {messages : List UserMessage} {cb : Option QueuedCallback}
    {cell : QueuedMessage × Option QueuedCallback}
    (h : cell ∈ batchCells (messages.map (⟨·, true⟩)) cb) : cell.1.emitted = true := by
  have hmem := List.mem_map_of_mem (f := (·.1)) h
  rw [map_fst_batchCells] at hmem
  obtain ⟨m, -, hm⟩ := List.mem_map.mp (List.mem_reverse.mp hmem)
  rw [← hm]

theorem waits_emitted {messages : List QueuedMessage} (h : messages ≠ []) :
    Waits (batchCells messages (some .emission)) := by
  have hcallbacks := filterMap_snd_batchCells h (some QueuedCallback.emission)
  have hmem : QueuedCallback.emission ∈
      (batchCells messages (some .emission)).filterMap (·.2) := by
    simp [hcallbacks]
  obtain ⟨cell, hcell, hemission⟩ := List.mem_filterMap.mp hmem
  exact ⟨cell, hcell, hemission⟩

theorem together_joined (m : Member) : Together (Emission.joined m) := by
  constructor
  · left
    intro cell hcell hemitted
    simp [(mem_joined hcell).1] at hemitted
  · intro cell hcell hemission
    exact absurd hemission (mem_joined hcell).2

theorem together_emitTo {map : VariablesMap} {m : Member}
    (haccepts : ∀ entry ∈ map.entries, AcceptsEvent m.endpoint entry)
    (h : map.entries.length ≤ 1 ∨ ¬ Sends m.writer) : Together (Emission.emitTo map m).1 := by
  obtain ⟨messages, hlength, heq⟩ := emitTo_of_accepts haccepts
  rw [heq]
  by_cases hempty : messages = []
  · subst hempty
    simpa [Sender.writeMessages, writeMessages_nil] using together_joined m
  have hne : messages.map (⟨·, true⟩ : UserMessage → QueuedMessage) ≠ [] := by
    simpa using hempty
  have hold := together_joined m
  constructor
  · cases h with
    | inl hone =>
      left
      obtain ⟨x, rfl⟩ : ∃ x, messages = [x] := List.length_eq_one_iff.mp (by
        have := List.length_pos_iff.mpr hempty
        omega)
      simp only [Sender.writeMessages, writeMessages_eq QueuedMessage.type _ hne]
      intro cell hcell hemitted
      cases List.mem_append.mp hcell with
      | inl hbefore => simp [(mem_joined hbefore).1] at hemitted
      | inr hbatch =>
        obtain rfl : cell = (⟨x, true⟩, some .emission) := by simpa [batchCells] using hbatch
        rfl
    | inr hstill =>
      right
      have hstill' : ¬ Sends (Emission.joined m).writer := hstill
      constructor
      · exact (sends_writeMessages QueuedMessage.type _ _ _).not.mpr hstill'
      · intro hin
        have hjoined : (Emission.joined m).inFlight = true := by
          simpa [Sender.writeMessages, next_of_not_sends QueuedMessage.type hstill'] using hin
        simp only [Sender.writeMessages, writeMessages_eq QueuedMessage.type _ hne]
        cases hqueue : (Emission.joined m).writer.msgQueue with
        | nil => simp_all [Emission.joined]
        | cons cell rest =>
          refine ⟨cell, _, rfl, ?_⟩
          rintro ⟨cell', hcell', hemission⟩
          obtain rfl := List.mem_singleton.mp hcell'
          exact (mem_joined (hqueue ▸ List.mem_cons_self)).2 hemission
      · intro _
        simp only [Sender.writeMessages, writeMessages_eq QueuedMessage.type _ hne, waits_append]
        exact Or.inr (waits_emitted hne)
  · simp only [Sender.writeMessages, writeMessages_eq QueuedMessage.type _ hne]
    intro cell hcell hemission
    cases List.mem_append.mp hcell with
    | inl hbefore => exact hold.copies cell hbefore hemission
    | inr hbatch => exact emitted_of_mem_batch hbatch

theorem sending_emitTo {m : Member} {messages : List QueuedMessage} (h : messages ≠ [])
    (hsends : Sends m.writer) :
    ((Emission.joined m).writeMessages messages (some .emission)).inFlight = true ∧
      Sends ((Emission.joined m).writeMessages messages (some .emission)).writer := by
  have hjoined : Sends (Emission.joined m).writer := hsends
  refine ⟨?_, (sends_writeMessages QueuedMessage.type _ _ _).mpr hjoined⟩
  simp only [Sender.writeMessages, writeMessages_eq QueuedMessage.type _ h]
  by_cases hempty : (Emission.joined m).writer.msgQueue = []
  · have hbatch : batchCells messages (some QueuedCallback.emission) ≠ [] := by
      rw [← List.length_pos_iff, length_batchCells]
      exact List.length_pos_iff.mpr h
    rw [if_pos hempty, hempty, List.nil_append, writeNext_of_sends hjoined hbatch, Bool.or_true]
  · have hne : m.writer.msgQueue.isEmpty = false := by
      simpa [Emission.joined] using hempty
    simp [Emission.joined, hsends.1, hne]

theorem together_step {e : Emission.Event} (h : ∀ w ∈ s.senders, Together w)
    (hstep : s.step e = some t) : ∀ w ∈ t.senders, Together w := by
  have hset {index : Nat} {w' : Sender} (hw' : Together w') :
      ∀ w ∈ s.senders.set index w', Together w := by
    intro w hw
    cases List.mem_or_eq_of_mem_set hw with
    | inl hold => exact h w hold
    | inr heq => exact heq ▸ hw'
  cases e with
  | written index ec =>
    obtain ⟨w, hw, hin, rfl⟩ := step_written.mp hstep
    rw [release_senders]
    exact hset (together_handleWrite (h w (List.mem_of_getElem? hw)) hin ec)
  | write index messages cb =>
    obtain ⟨w, hw, rfl⟩ := Option.map_eq_some_iff.mp hstep
    rw [release_senders]
    exact hset (together_writeMessages (h w (List.mem_of_getElem? hw)) messages cb)
  | run index =>
    obtain ⟨⟨cb, ec⟩, htask, rfl⟩ := Option.map_eq_some_iff.mp hstep
    intro w hw
    apply h w
    cases cb <;> cases ec <;> simpa using hw
  | gone index =>
    obtain ⟨w, hw, -, rfl⟩ := step_gone.mp hstep
    rw [release_senders]
    intro w hw
    exact h w (List.mem_of_mem_eraseIdx hw)

/-! ## Runs to the end -/

/-- A run takes the emission from one state to another. -/
abbrev Reaches : Emission → Emission → Prop := Transition.Reaches Emission.step

/-- Any of the endpoints can go: a write that is under way fails first. -/
theorem reaches_gone (before after : List Sender) (h : s.senders = before ++ w :: after) :
    ∃ t, Reaches s t ∧ t.senders = before ++ after ∧ t.tasks = s.tasks := by
  have hw : s.senders[before.length]? = some w := by simp [h]
  have herase : s.senders.eraseIdx before.length = before ++ after := by
    rw [h, List.eraseIdx_append_of_length_le le_rfl]
    simp
  cases hin : w.inFlight with
  | false =>
    refine ⟨_, .head (step_gone.mpr ⟨w, hw, hin, rfl⟩) (.refl _), ?_, by simp⟩
    rw [release_senders]
    exact herase
  | true =>
    have hfailed : (w.handleWrite (some (.device 0))).1.inFlight = false ∧
        (w.handleWrite (some (.device 0))).2 = none := by
      unfold Sender.handleWrite AsebaEndpoint.handleWrite
      cases w.writer.msgQueue <;> simp
    have hlt : before.length < s.senders.length := by simp [h]
    have hfails : s.step (.written before.length (some (.device 0))) = _ :=
      step_written.mpr ⟨w, hw, hin, rfl⟩
    have hgoes := step_gone.mpr ⟨(w.handleWrite (some (.device 0))).1,
      (by simp [hlt] : (Emission.release { s with
        senders := s.senders.set before.length (w.handleWrite (some (.device 0))).1,
        tasks := s.tasks ++ (w.handleWrite (some (.device 0))).2.toList }).senders[before.length]? = _),
      hfailed.1, rfl⟩
    refine ⟨_, .head hfails (.head hgoes (.refl _)), ?_, ?_⟩
    · rw [release_senders, release_senders]
      simpa [List.eraseIdx_set_eq] using herase
    · simp [hfailed.2]

theorem reaches_allGone (before gone after : List Sender)
    (h : s.senders = before ++ gone ++ after) :
    ∃ t, Reaches s t ∧ t.senders = before ++ after ∧ t.tasks = s.tasks := by
  induction gone generalizing s with
  | nil => exact ⟨s, Transition.Reaches.refl s, by simpa using h, rfl⟩
  | cons w gone ih =>
    obtain ⟨t, hst, hsenders, htasks⟩ := reaches_gone before (gone ++ after) (by simpa using h)
    obtain ⟨u, htu, hu, hutasks⟩ := ih (s := t) (by rw [hsenders, List.append_assoc])
    exact ⟨u, hst.trans htu, hu, hutasks.trans htasks⟩

/-- The posted callbacks run. -/
theorem reaches_run (s : Emission) : ∃ t, Reaches s t ∧ t.senders = s.senders ∧ t.tasks = [] := by
  cases htasks : s.tasks with
  | nil => exact ⟨s, Transition.Reaches.refl s, rfl, htasks⟩
  | cons task tasks =>
    obtain ⟨m, hm, hsenders, hrest⟩ := exists_step_run (s := s) (t := task) 0 (by simp [htasks])
    rw [htasks, List.eraseIdx_cons_zero] at hrest
    obtain ⟨t, hmt, ht, hnil⟩ := reaches_run m
    exact ⟨t, Transition.Reaches.head hm hmt, ht.trans hsenders, hnil⟩
termination_by s.tasks.length
decreasing_by simp [htasks, hrest]

/-- A device that takes messages completes those in front of the rest of its queue. -/
theorem reaches_written {before rest : Queue} (hrest : rest ≠ []) (hs : s.senders = [w])
    (hin : w.inFlight = true) (hsends : Sends w.writer) (hqueue : w.writer.msgQueue = before ++ rest) :
    ∃ t w', Reaches s t ∧ t.senders = [w'] ∧ w'.writer.msgQueue = rest := by
  induction before generalizing s w with
  | nil => exact ⟨s, w, Transition.Reaches.refl s, hs, hqueue⟩
  | cons cell before ih =>
    have hfirst : s.senders[0]? = some w := by simp [hs]
    obtain ⟨m, hstep, hm⟩ : ∃ m, s.step (.written 0 none) = some m ∧
        m.senders = [(w.handleWrite none).1] :=
      ⟨_, step_written.mpr ⟨w, hfirst, hin, rfl⟩, by simp [hs]⟩
    have hafter : (w.handleWrite none).1.writer.msgQueue = before ++ rest ∧
        (w.handleWrite none).1.inFlight = true := by
      have hnext := writeNext_of_sends hsends (List.append_ne_nil_of_right_ne_nil before hrest)
      simp [Sender.handleWrite, AsebaEndpoint.handleWrite, hqueue, hnext]
    obtain ⟨t, w', hreaches, ht, hw'⟩ := ih hm hafter.2
      ((sends_handleWrite w.writer none).mpr hsends) hafter.1
    exact ⟨t, w', Transition.Reaches.head hstep hreaches, ht, hw'⟩

/-! ## One answer -/

/-- The callback is called at most once, and has been when every endpoint is
through and the callbacks they posted have run; with an error just when an endpoint has
reported one, and with success only after every endpoint has sent its events or dropped them. -/
structure AnswersOnce (failed : Prop) (s : Emission) : Prop where
  atMostOnce : s.answers.length ≤ 1
  atLeastOnce : Finished s → (∀ task ∈ s.tasks, task.1 ≠ .emission) → s.answers.length = 1
  error_iff : ∀ ec ∈ s.answers, ec.isSome ↔ failed
  success : none ∈ s.answers → Finished s

theorem answersOnce_of_answering (h : Answering [] s) (htogether : ∀ w ∈ s.senders, Together w) :
    AnswersOnce False s := by
  have hanswers : s.answers = if s.held then [] else [none] := by
    rw [h.answers, h.pending]
    rfl
  constructor
  · rw [hanswers]
    split <;> simp
  · intro hfinished htasks
    have hheld : ¬ s.held = true := by
      rw [held_iff]
      rintro (⟨w, hw, cell, hcell, hemission⟩ | ⟨task, htask, hemission⟩)
      · exact hfinished w hw ⟨cell, hcell, (htogether w hw).copies cell hcell hemission⟩
      · exact htasks task htask hemission
    simp [hanswers, hheld]
  · intro ec hec
    rw [hanswers] at hec
    split at hec
    · simp at hec
    · simp [List.mem_singleton.mp hec]
  · intro hnone w hw hunsent
    have hheld : s.held = true :=
      held_iff.mpr (Or.inl ⟨w, hw, (htogether w hw).covers.waits hunsent⟩)
    simp [hanswers, hheld] at hnone

/-- A batch of several events is answered after the first of them is sent. -/
theorem reaches_early {map : VariablesMap} {members : List Member} {m : Member}
    (haccepts : ∀ m ∈ members, ∀ entry ∈ map.entries, AcceptsEvent m.endpoint entry)
    (htwo : 1 < map.entries.length) (hm : m ∈ members) (hsends : Sends m.writer) :
    ∃ t, Reaches (Emission.emitEvents members true map) t ∧ t.held = false ∧ ¬ Finished t := by
  obtain ⟨before, after, rfl⟩ := List.append_of_mem hm
  obtain ⟨messages, hlength, heq⟩ := emitTo_of_accepts (haccepts m hm)
  have hne : messages.map (⟨·, true⟩ : UserMessage → QueuedMessage) ≠ [] := by
    intro hnil
    rw [List.map_eq_nil_iff] at hnil
    simp [hnil] at hlength
    omega
  -- every other endpoint goes
  obtain ⟨t, ht, htsenders, httasks⟩ := reaches_allGone
    (s := Emission.emitEvents (before ++ m :: after) true map) []
    (before.map fun m => (Emission.emitTo map m).1)
    ((m :: after).map fun m => (Emission.emitTo map m).1) (by simp [senders_emitEvents])
  obtain ⟨u, hu, husenders, hutasks⟩ := reaches_allGone (s := t) [(Emission.emitTo map m).1]
    (after.map fun m => (Emission.emitTo map m).1) [] (by simpa using htsenders)
  -- the device sends what was queued before, and the first event of the batch
  obtain ⟨hin, hsends'⟩ := sending_emitTo hne hsends
  obtain ⟨last, others, hreverse⟩ := List.exists_cons_of_ne_nil (List.reverse_ne_nil_iff.mpr hne)
  have hothers : others ≠ [] := by
    intro hnil
    have hone := congrArg List.length hreverse
    simp [hnil] at hone
    omega
  have hqueue : ((Emission.joined m).writeMessages (messages.map (⟨·, true⟩))
      (some .emission)).writer.msgQueue =
        ((Emission.joined m).writer.msgQueue ++ [(last, some .emission)]) ++
          others.map (·, none) := by
    simp only [Sender.writeMessages, writeMessages_eq QueuedMessage.type _ hne, batchCells, hreverse,
      List.append_assoc, List.singleton_append]
  rw [heq] at husenders
  obtain ⟨v, w', hv, hvsenders, hrest⟩ := reaches_written (by simpa using hothers) husenders hin
    hsends' hqueue
  obtain ⟨x, hx, hxsenders, hxtasks⟩ := reaches_run v
  refine ⟨x, ht.trans (hu.trans (hv.trans hx)), ?_, ?_⟩
  · rw [← Bool.not_eq_true, held_iff]
    simp [hxsenders, hvsenders, hxtasks, hrest, Waits]
  · intro hfinished
    obtain ⟨first, others', rfl⟩ := List.exists_cons_of_ne_nil hothers
    have hfirst : first ∈ (messages.map (⟨·, true⟩ : UserMessage → QueuedMessage)).reverse := by
      simp [hreverse]
    obtain ⟨message, -, rfl⟩ := List.mem_map.mp (List.mem_reverse.mp hfirst)
    refine hfinished w' (by simp [hxsenders, hvsenders]) ?_
    rw [hrest]
    exact ⟨_, List.mem_cons_self, rfl⟩

/-- Every run after an emission answers once exactly when each endpoint of the group has the events
of the request with payloads of their sizes, and no device that takes messages is given several. -/
theorem emission_answers_once_iff (members : List Member) (map : VariablesMap) :
    (∀ events s,
      Transition.run Emission.step (Emission.emitEvents members true map) events = some s →
        AnswersOnce (reported members map ≠ []) s) ↔
      (∀ m ∈ members, ∀ entry ∈ map.entries, AcceptsEvent m.endpoint entry) ∧
        (map.entries.length ≤ 1 ∨ ∀ m ∈ members, ¬ Sends m.writer) := by
  rw [← reported_eq_nil_iff]
  have hstart := answering_emitEvents members map
  have hsenders := senders_emitEvents members map
  constructor
  · intro h
    have hnone : reported members map = [] := by
      obtain ⟨t, ⟨events, hrun⟩, ht, htasks⟩ := reaches_allGone [] _ [] (by simpa using hsenders)
      have hheld : t.held = false := by
        rw [tasks_emitEvents] at htasks
        simp [Emission.held, ht, htasks]
      have hanswers := (answering_run hstart hrun).answers
      rw [(answering_run hstart hrun).pending, hheld] at hanswers
      have hlength := (h _ t hrun).atMostOnce
      rw [hanswers] at hlength
      -- the success of the deleter is the only answer there is room for
      exact List.length_eq_zero_iff.mp (by simpa using hlength)
    refine ⟨hnone, ?_⟩
    by_contra hearly
    obtain ⟨htwo, hsome⟩ := not_or.mp hearly
    obtain ⟨m, hm, hsends⟩ : ∃ m ∈ members, Sends m.writer := by simpa using hsome
    obtain ⟨t, ⟨events, hrun⟩, hheld, hunfinished⟩ := reaches_early
      ((reported_eq_nil_iff members map).mp hnone) (by omega) hm hsends
    have hanswers := (answering_run hstart hrun).answers
    rw [(answering_run hstart hrun).pending, hheld] at hanswers
    exact hunfinished ((h _ t hrun).success (by simp [hanswers]))
  · rintro ⟨hnone, hbatch⟩ events s hrun
    have haccepts := (reported_eq_nil_iff members map).mp hnone
    have htogether : ∀ w ∈ s.senders, Together w := by
      refine Transition.preserved (I := fun s => ∀ w ∈ s.senders, Together w)
        (fun _ _ _ hs hstep => together_step hs hstep) ?_ hrun
      rw [hsenders]
      intro w hw
      obtain ⟨m, hm, rfl⟩ := List.mem_map.mp hw
      exact together_emitTo (haccepts m hm) (hbatch.imp_right fun h => h m hm)
    rw [hnone] at hstart ⊢
    simpa using answersOnce_of_answering (answering_run hstart hrun) htogether

/-- The callback of a request for an event that an endpoint does not have is called
with the error, and then with success. -/
theorem unknownEvent_answered_twice :
    (Emission.emitEvents [{ endpoint := {}, writer := {} }] true
      { entries := [("tick", .null)] }).answers = [some (.tdm .noSuchVariable), none] ∧
    ¬ AnswersOnce (reported [{ endpoint := {}, writer := {} }] { entries := [("tick", .null)] } ≠ [])
      (Emission.emitEvents [{ endpoint := {}, writer := {} }] true
        { entries := [("tick", .null)] }) :=
  ⟨by decide, fun h => absurd h.atMostOnce (by decide)⟩

end EventEmission

end ThymioDeviceManager.Correctness
