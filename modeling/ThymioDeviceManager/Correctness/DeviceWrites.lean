import Mathlib.Data.List.Nodup
import Mathlib.Data.List.Infix
import ThymioDeviceManager.Manager.WriteQueue

/-! # Device writes: order and completion callbacks

`step_moves` says once what an event does to the queue, to the write in flight
and to the logs, for a system with at most one write in flight. Every batch is
queued back to front with its callback on the cell in front, and the device
receives the cells in the order of the queue. Order within a batch and the
callback's "after every message" therefore hold for batches of one message; a
callback is lost exactly where cells leave the queue without being written.
-/

namespace ThymioDeviceManager.Correctness

open Manager Library

variable {μ κ ε : Type}

/-! ## The queue -/

/-- The cells that a batch adds to the queue, front first. -/
def batchCells (messages : List μ) (cb : Option κ) : List (μ × Option κ) :=
  match messages.reverse with
  | [] => []
  | last :: others => (last, cb) :: others.map (·, none)

theorem insertPosition_length (type : μ → Nat) (queue : List (μ × Option κ)) :
    AsebaEndpoint.insertPosition type queue queue.length = queue.length := by
  cases h : queue.length with
  | zero => rfl
  | succ n => simp [AsebaEndpoint.insertPosition, h]

theorem insertIdx_append_length {α : Type} (before after : List α) (x : α) :
    (before ++ after).insertIdx before.length x = before ++ x :: after := by
  induction before with
  | nil => rfl
  | cons b before ih => simpa using ih

theorem modify_append_length {α : Type} (before after : List α) (x : α) (f : α → α) :
    (before ++ x :: after).modify before.length f = before ++ f x :: after := by
  induction before with
  | nil => rfl
  | cons b before ih => simpa using ih

theorem foldl_insertIdx (queue : List (μ × Option κ)) (messages : List μ)
    (after : List (μ × Option κ)) :
    messages.foldl (fun q m => q.insertIdx queue.length (m, none)) (queue ++ after) =
      queue ++ (messages.reverse.map (·, none) ++ after) := by
  induction messages generalizing after with
  | nil => rfl
  | cons m messages ih =>
    rw [List.foldl_cons, insertIdx_append_length, ih]
    simp

theorem enqueue_eq (type : μ → Nat) (queue : List (μ × Option κ)) {messages : List μ}
    (h : messages ≠ []) (cb : Option κ) :
    AsebaEndpoint.enqueue type queue messages cb = queue ++ batchCells messages cb := by
  have hinserted := foldl_insertIdx queue messages []
  rw [List.append_nil, List.append_nil] at hinserted
  unfold AsebaEndpoint.enqueue batchCells
  rw [insertPosition_length]
  simp only [hinserted]
  cases hrev : messages.reverse with
  | nil => exact absurd (List.reverse_eq_nil_iff.mp hrev) h
  | cons last others =>
    cases cb with
    | none => rfl
    | some cb => exact modify_append_length queue _ _ _

theorem map_fst_batchCells (messages : List μ) (cb : Option κ) :
    (batchCells messages cb).map (·.1) = messages.reverse := by
  unfold batchCells
  cases messages.reverse <;> simp [Function.comp_def]

theorem length_batchCells (messages : List μ) (cb : Option κ) :
    (batchCells messages cb).length = messages.length := by
  have h := congrArg List.length (map_fst_batchCells messages cb)
  simpa using h

/-- A batch is queued, and its first message is handed to the device if the queue was empty. -/
theorem writeMessages_eq (type : μ → Nat) (ep : AsebaEndpoint μ κ) {messages : List μ}
    (h : messages ≠ []) (cb : Option κ) :
    ep.writeMessages type messages cb =
      ({ ep with msgQueue := ep.msgQueue ++ batchCells messages cb },
        if ep.msgQueue = [] then
          AsebaEndpoint.writeNext { ep with msgQueue := ep.msgQueue ++ batchCells messages cb }
        else none) := by
  have hfalse : messages.isEmpty = false := by simpa using h
  have hlength : messages.length < (ep.msgQueue ++ batchCells messages cb).length ↔
      ¬ ep.msgQueue = [] := by
    rw [List.length_append, length_batchCells, ← List.length_eq_zero_iff]
    omega
  simp only [AsebaEndpoint.writeMessages, hfalse, Bool.false_eq_true, if_false,
    enqueue_eq type ep.msgQueue h, hlength]
  split
  · rfl
  · next hnil => rw [if_pos (not_not.mp hnil)]

theorem writeMessages_nil (type : μ → Nat) (ep : AsebaEndpoint μ κ) (cb : Option κ) :
    ep.writeMessages type [] cb = (ep, none) := rfl

theorem filterMap_snd_batchCells {messages : List μ} (h : messages ≠ []) (cb : Option κ) :
    (batchCells messages cb).filterMap (·.2) = cb.toList := by
  unfold batchCells
  cases hrev : messages.reverse with
  | nil => exact absurd (List.reverse_eq_nil_iff.mp hrev) h
  | cons last others => cases cb <;> simp

/-! ## What an event does -/

section Moves

variable {type : μ → Nat} {s t : Writing μ κ ε} {e : Writing.Event μ κ ε}

/-- At most one write is in flight, and it is for the front of the queue. -/
def OneWriter (s : Writing μ κ ε) : Prop :=
  s.inFlight = [] ∨ ∃ m cb rest, s.queued = (m, cb) :: rest ∧ s.inFlight = [m]

/-- The message that a step hands to the device: none, or the front of the queue. -/
def Next (queue : List (μ × Option κ)) (next : List μ) : Prop :=
  next = [] ∨ ∃ m cb rest, queue = (m, cb) :: rest ∧ next = [m]

/-- One constructor for each thing that can happen in a system with one writer. -/
inductive Moves (s : Writing μ κ ε) : Writing.Event μ κ ε → Writing μ κ ε → Prop
  | dropped (messages : List μ) (cb : Option κ) (h : messages = [] ∨ s.endpoint.isNone) :
      Moves s (.write messages cb) s
  | queues (messages : List μ) (cb : Option κ) (ep : Option (AsebaEndpoint μ κ)) (next : List μ)
      (hmessages : messages ≠ []) (halive : s.endpoint.isSome) (hep : ep.isSome)
      (hqueue : (ep.map (·.msgQueue)).getD [] = s.queued ++ batchCells messages cb)
      (hnext : next = [] ∨ s.queued = [] ∧ Next (s.queued ++ batchCells messages cb) next) :
      Moves s (.write messages cb) { s with
        endpoint := ep, inFlight := s.inFlight ++ next, handed := s.handed ++ next }
  | writes (index : Nat) (m : μ) (cb : Option κ) (rest : List (μ × Option κ))
      (ep : Option (AsebaEndpoint μ κ)) (next : List μ) (hep : ep.isSome)
      (hqueued : s.queued = (m, cb) :: rest) (hflight : s.inFlight = [m])
      (hqueue : (ep.map (·.msgQueue)).getD [] = rest) (hnext : Next rest next) :
      Moves s (.complete index none)
        { endpoint := ep, inFlight := next, handed := s.handed ++ next,
          completed := s.completed ++ [(m, none)],
          posted := s.posted ++ (cb.map (·, none)).toList }
  | fails (index : Nat) (ec : ε) (m : μ) (cb : Option κ) (rest : List (μ × Option κ))
      (ep : Option (AsebaEndpoint μ κ)) (hep : ep.isSome)
      (hqueued : s.queued = (m, cb) :: rest)
      (hflight : s.inFlight = [m]) (hqueue : (ep.map (·.msgQueue)).getD [] = []) :
      Moves s (.complete index (some ec))
        { s with
          endpoint := ep, inFlight := [], completed := s.completed ++ [(m, some ec)] }
  | upgrades (ep : Option (AsebaEndpoint μ κ)) (hep : ep.isSome)
      (hqueue : (ep.map (·.msgQueue)).getD [] = s.queued) :
      Moves s .upgrade { s with endpoint := ep }
  | destroyed (hflight : s.inFlight = []) : Moves s .destroy { s with endpoint := none }

theorem next_writeNext (ep : AsebaEndpoint μ κ) : Next ep.msgQueue ep.writeNext.toList := by
  unfold AsebaEndpoint.writeNext
  split
  · exact .inl rfl
  split
  · exact .inl rfl
  cases h : ep.msgQueue with
  | nil => exact .inl rfl
  | cons cell rest => exact .inr ⟨cell.1, cell.2, rest, rfl, rfl⟩

theorem writeMessages_moves (messages : List μ) (cb : Option κ) :
    Moves s (.write messages cb) (s.writeMessages type messages cb) := by
  unfold Writing.writeMessages
  cases hep : s.endpoint with
  | none => exact .dropped messages cb (.inr (by simp [hep]))
  | some ep =>
    have hqueued : s.queued = ep.msgQueue := by simp [Writing.queued, hep]
    by_cases hempty : messages = []
    · subst hempty
      have hsame : { s with endpoint := some ep } = s := by rw [← hep]
      simpa [writeMessages_nil, hsame] using Moves.dropped (s := s) [] cb (.inl rfl)
    simp only [writeMessages_eq type ep hempty cb]
    by_cases hnil : ep.msgQueue = []
    · rw [if_pos hnil]
      refine .queues messages cb _ _ hempty (by simp [hep]) rfl (by simp [hqueued]) (.inr ?_)
      rw [hqueued]
      exact ⟨hnil, next_writeNext { ep with msgQueue := ep.msgQueue ++ batchCells messages cb }⟩
    · rw [if_neg hnil]
      exact .queues messages cb _ [] hempty (by simp [hep]) rfl (by simp [hqueued]) (.inl rfl)

theorem complete_moves (hs : OneWriter s) {ep : AsebaEndpoint μ κ} (hep : s.endpoint = some ep)
    {index : Nat} {m : μ} (hm : s.inFlight[index]? = some m) (ec : Option ε) :
    Moves s (.complete index ec) (s.complete ep index m ec) := by
  obtain hnone | ⟨front, cb, rest, hqueued, hflight⟩ := hs
  · simp [hnone] at hm
  obtain ⟨rfl, rfl⟩ : index = 0 ∧ front = m := by
    rw [hflight] at hm
    cases index with
    | zero => simpa using hm
    | succ n => simp at hm
  have hqueue : ep.msgQueue = (front, cb) :: rest := by
    simpa [Writing.queued, hep] using hqueued
  cases ec with
  | none =>
    have hmove := Moves.writes (ε := ε) 0 front cb rest (some { ep with msgQueue := rest })
      _ rfl hqueued hflight rfl (next_writeNext { ep with msgQueue := rest })
    simpa [Writing.complete, AsebaEndpoint.handleWrite, hqueue, hflight] using hmove
  | some ec =>
    have hmove := Moves.fails (ε := ε) 0 ec front cb rest (some { ep with msgQueue := [] })
      rfl hqueued hflight rfl
    simpa [Writing.complete, AsebaEndpoint.handleWrite, hqueue, hflight] using hmove

theorem step_moves (hs : OneWriter s) (h : s.step type e = some t) : Moves s e t := by
  cases e with
  | write messages cb =>
    cases h
    exact writeMessages_moves messages cb
  | complete index ec =>
    simp only [Writing.step] at h
    split at h
    · rename_i ep m hep hm
      cases h
      exact complete_moves hs hep hm ec
    · cases h
  | upgrade =>
    simp only [Writing.step] at h
    cases hep : s.endpoint with
    | none => simp [hep] at h
    | some ep =>
      rw [hep] at h
      cases h
      exact .upgrades _ rfl (by simp [Writing.queued, hep])
  | destroy =>
    simp only [Writing.step] at h
    split at h
    · rename_i hguard
      cases h
      rw [Bool.and_eq_true] at hguard
      exact .destroyed (by simpa using hguard.2)
    · cases h

/-! ## Order -/

/-- The cells of all the calls, in the order in which they enter the queue. -/
def cells (events : List (Writing.Event μ κ ε)) : List (μ × Option κ) :=
  events.flatMap fun
    | .write messages cb => batchCells messages cb
    | _ => []

/-- The cells that left the queue and those in it come in the order of the
calls, the device got its messages in that order, and a callback was posted when
the message of its cell had been written. -/
structure Follows (past : List (Writing.Event μ κ ε)) (s : Writing μ κ ε) : Prop where
  writer : OneWriter s
  order : ∃ gone, (gone ++ s.queued).Sublist (cells past) ∧
    s.handed.Sublist (gone.map (·.1) ++ s.inFlight)
  posted : ∀ k ec, (k, ec) ∈ s.posted →
    ec = none ∧ ∃ m, (m, some k) ∈ cells past ∧ (m, none) ∈ s.completed

theorem Follows.start (hasDevice : Bool) :
    Follows [] { endpoint := some { hasDevice } : Writing μ κ ε } :=
  ⟨.inl rfl, ⟨[], by simp [Writing.queued, cells]⟩, by simp⟩

theorem cells_append (past : List (Writing.Event μ κ ε)) (e : Writing.Event μ κ ε) :
    cells (past ++ [e]) = cells past ++ cells [e] := by
  simp [cells]

theorem Moves.oneWriter (hs : OneWriter s) (h : Moves s e t) : OneWriter t := by
  cases h with
  | dropped messages cb h => exact hs
  | queues messages cb ep next hmessages halive hep hqueue hnext =>
    change s.inFlight ++ next = [] ∨ ∃ m cb rest,
      (ep.map (·.msgQueue)).getD [] = (m, cb) :: rest ∧ s.inFlight ++ next = [m]
    rw [hqueue]
    obtain hnone | ⟨m, cb', rest, hqueued, hflight⟩ := hs
    · rw [hnone]
      obtain rfl | ⟨-, hnext⟩ := hnext
      · exact .inl rfl
      · exact hnext
    · rw [hqueued, hflight]
      obtain rfl | ⟨hnil, -⟩ := hnext
      · exact .inr ⟨m, cb', _, rfl, rfl⟩
      · rw [hnil] at hqueued
        cases hqueued
  | writes index m cb rest ep next hep hqueued hflight hqueue hnext =>
    change next = [] ∨ ∃ m cb rest,
      (ep.map (·.msgQueue)).getD [] = (m, cb) :: rest ∧ next = [m]
    rw [hqueue]
    exact hnext
  | fails => exact .inl rfl
  | upgrades ep hep hqueue =>
    change s.inFlight = [] ∨ ∃ m cb rest,
      (ep.map (·.msgQueue)).getD [] = (m, cb) :: rest ∧ s.inFlight = [m]
    rw [hqueue]
    exact hs
  | destroyed hflight => exact .inl hflight

theorem Moves.order {past : List (Writing.Event μ κ ε)} (h : Moves s e t)
    (hs : ∃ gone, (gone ++ s.queued).Sublist (cells past) ∧
      s.handed.Sublist (gone.map (·.1) ++ s.inFlight)) :
    ∃ gone, (gone ++ t.queued).Sublist (cells (past ++ [e])) ∧
      t.handed.Sublist (gone.map (·.1) ++ t.inFlight) := by
  obtain ⟨gone, hcells, hhanded⟩ := hs
  rw [cells_append]
  have hlater := hcells.trans (List.sublist_append_left (cells past) (cells [e]))
  cases h with
  | dropped messages cb h => exact ⟨gone, hlater, hhanded⟩
  | queues messages cb ep next hmessages halive hep hqueue hnext =>
    refine ⟨gone, ?_, ?_⟩
    · change (gone ++ (ep.map (·.msgQueue)).getD []).Sublist _
      rw [hqueue, ← List.append_assoc]
      simpa [cells] using hcells.append (List.Sublist.refl _)
    · simpa using hhanded.append (List.Sublist.refl next)
  | writes index m cb rest ep next hep hqueued hflight hqueue hnext =>
    refine ⟨gone ++ [(m, cb)], ?_, ?_⟩
    · change (gone ++ [(m, cb)] ++ (ep.map (·.msgQueue)).getD []).Sublist _
      rw [hqueue, List.append_assoc]
      simpa [hqueued] using hlater
    · rw [hflight] at hhanded
      simpa using hhanded.append (List.Sublist.refl next)
  | fails index ec m cb rest ep hep hqueued hflight hqueue =>
    refine ⟨gone ++ s.queued, ?_, ?_⟩
    · change (gone ++ s.queued ++ (ep.map (·.msgQueue)).getD []).Sublist _
      rw [hqueue, List.append_nil]
      exact hlater
    · rw [hflight] at hhanded
      refine hhanded.trans ?_
      simp [hqueued]
  | upgrades ep hep hqueue =>
    refine ⟨gone, ?_, hhanded⟩
    change (gone ++ (ep.map (·.msgQueue)).getD []).Sublist _
    rw [hqueue]
    exact hlater
  | destroyed hflight =>
    refine ⟨gone ++ s.queued, by simpa [Writing.queued] using hlater, ?_⟩
    rw [hflight] at hhanded
    refine hhanded.trans ?_
    simp

theorem Moves.posted {past : List (Writing.Event μ κ ε)} (h : Moves s e t)
    (hqueued : ∀ cell ∈ s.queued, cell ∈ cells past)
    (hs : ∀ k ec, (k, ec) ∈ s.posted →
      ec = none ∧ ∃ m, (m, some k) ∈ cells past ∧ (m, none) ∈ s.completed) :
    ∀ k ec, (k, ec) ∈ t.posted →
      ec = none ∧ ∃ m, (m, some k) ∈ cells (past ++ [e]) ∧ (m, none) ∈ t.completed := by
  intro k ec hk
  have hold : (k, ec) ∈ s.posted →
      ec = none ∧ ∃ m, (m, some k) ∈ cells (past ++ [e]) ∧ (m, none) ∈ s.completed := by
    intro hk
    obtain ⟨hec, m, hm, hdone⟩ := hs k ec hk
    rw [cells_append]
    exact ⟨hec, m, List.mem_append_left _ hm, hdone⟩
  cases h with
  | dropped => exact hold hk
  | queues => exact hold hk
  | writes index m cb rest ep next hep hfront hflight hqueue hnext =>
    obtain hk | hk := List.mem_append.mp hk
    · obtain ⟨hec, m', hm', hdone⟩ := hold hk
      exact ⟨hec, m', hm', List.mem_append_left _ hdone⟩
    · cases cb with
      | none => simp at hk
      | some k' =>
        obtain ⟨rfl, rfl⟩ : k = k' ∧ ec = none := by simpa using hk
        have hm := hqueued (m, some k) (by simp [hfront])
        rw [cells_append]
        exact ⟨rfl, m, List.mem_append_left _ hm, by simp⟩
  | fails =>
    obtain ⟨hec, m', hm', hdone⟩ := hold hk
    exact ⟨hec, m', hm', List.mem_append_left _ hdone⟩
  | upgrades => exact hold hk
  | destroyed => exact hold hk

theorem Follows.queued_mem {past : List (Writing.Event μ κ ε)} (hs : Follows past s) :
    ∀ cell ∈ s.queued, cell ∈ cells past := by
  intro cell hcell
  obtain ⟨gone, hcells, -⟩ := hs.order
  exact hcells.subset (List.mem_append_right _ hcell)

theorem Follows.step {past : List (Writing.Event μ κ ε)} (hs : Follows past s)
    (h : s.step type e = some t) : Follows (past ++ [e]) t := by
  have hmoves := step_moves hs.writer h
  exact ⟨hmoves.oneWriter hs.writer, hmoves.order hs.order, hmoves.posted hs.queued_mem hs.posted⟩

/-- The device gets every batch back to front, and the batches in the order of
the calls. -/
theorem Follows.handed_sublist {past : List (Writing.Event μ κ ε)} (hs : Follows past s) :
    s.handed.Sublist ((cells past).map (·.1)) := by
  obtain ⟨gone, hcells, hhanded⟩ := hs.order
  have hflight : s.inFlight.Sublist (s.queued.map (·.1)) := by
    obtain hnone | ⟨m, cb, rest, hqueued, hflight⟩ := hs.writer
    · simp [hnone]
    · simp [hqueued, hflight]
  have hleft := hhanded.trans ((List.Sublist.refl (gone.map (·.1))).append hflight)
  rw [← List.map_append] at hleft
  exact hleft.trans (hcells.map _)

theorem follows_run {events : List (Writing.Event μ κ ε)} {hasDevice : Bool}
    (h : Transition.run (Writing.step type) { endpoint := some { hasDevice } } events = some s) :
    Follows events s := by
  simpa using Transition.invariant_run (fun past s e t hs h => Follows.step hs h)
    (Follows.start hasDevice) h

end Moves

/-! ## The messages and callbacks of a call

Messages and callbacks are objects, each with its own identity. In the runs
below every message carries the number of its call and its place in the batch,
and every callback the number of its call.
-/

structure Labelled (μ : Type) where
  call : Nat
  place : Nat
  message : μ
  deriving DecidableEq, Repr

/-- The calls of a run, in order. -/
def calls (events : List (Writing.Event μ κ ε)) : List (List μ × Option κ) :=
  events.filterMap fun
    | .write messages cb => some (messages, cb)
    | _ => none

def labelled (n : Nat) (call : List μ × Option κ) : List (Labelled μ) × Option (Nat × κ) :=
  (call.1.mapIdx fun i m => ⟨n, i, m⟩, call.2.map (n, ·))

/-- The same events with the calls numbered from `n` on. -/
def numbered (n : Nat) :
    List (Writing.Event μ κ ε) → List (Writing.Event (Labelled μ) (Nat × κ) ε)
  | [] => []
  | .write messages cb :: events =>
    .write (labelled n (messages, cb)).1 (labelled n (messages, cb)).2 :: numbered (n + 1) events
  | .complete index ec :: events => .complete index ec :: numbered n events
  | .upgrade :: events => .upgrade :: numbered n events
  | .destroy :: events => .destroy :: numbered n events

/-- A run of the system from an endpoint with an empty queue. -/
def writingRun (type : μ → Nat) (hasDevice : Bool) (events : List (Writing.Event μ κ ε)) :
    Option (Writing (Labelled μ) (Nat × κ) ε) :=
  Transition.run (Writing.step fun m => type m.message) { endpoint := some { hasDevice } }
    (numbered 0 events)

theorem mem_calls_numbered {n : Nat} {events : List (Writing.Event μ κ ε)}
    {call : List (Labelled μ) × Option (Nat × κ)} :
    call ∈ calls (numbered n events) ↔
      ∃ i c, (calls events)[i]? = some c ∧ call = labelled (n + i) c := by
  induction events generalizing n with
  | nil => simp [calls, numbered]
  | cons e events ih =>
    cases e with
    | write messages cb =>
      have hnumbered : calls (numbered n (.write messages cb :: events)) =
          labelled n (messages, cb) :: calls (numbered (n + 1) events) := rfl
      have hcalls : calls (.write messages cb :: events) = (messages, cb) :: calls events := rfl
      rw [hnumbered, hcalls, List.mem_cons, ih]
      constructor
      · rintro (rfl | ⟨i, c, hc, rfl⟩)
        · exact ⟨0, _, rfl, rfl⟩
        · exact ⟨i + 1, c, hc, by rw [Nat.add_assoc, Nat.add_comm 1]⟩
      · rintro ⟨i, c, hc, rfl⟩
        cases i with
        | zero =>
          cases hc
          exact .inl rfl
        | succ i => exact .inr ⟨i, c, hc, by rw [Nat.add_assoc, Nat.add_comm 1]⟩
    | complete index ec => exact ih
    | upgrade => exact ih
    | destroy => exact ih

theorem call_of_mem_labelled {n : Nat} {call : List μ × Option κ} {m : Labelled μ}
    (h : m ∈ (labelled n call).1) : m.call = n := by
  obtain ⟨i, hi, rfl⟩ := List.mem_mapIdx.mp h
  rfl

theorem call_of_mem_batchCells {n : Nat} {call : List μ × Option κ}
    {cell : Labelled μ × Option (Nat × κ)}
    (h : cell ∈ batchCells (labelled n call).1 (labelled n call).2) : cell.1.call = n := by
  have hmem : cell.1 ∈ (labelled n call).1.reverse := by
    rw [← map_fst_batchCells _ (labelled n call).2]
    exact List.mem_map_of_mem h
  exact call_of_mem_labelled (List.mem_reverse.mp hmem)

theorem number_of_labelled {n : Nat} {call : List μ × Option κ} {k : Nat × κ}
    (h : (labelled n call).2 = some k) : k.1 = n := by
  obtain ⟨c, -, rfl⟩ := Option.map_eq_some_iff.mp h
  rfl

theorem pairwise_calls_numbered (n : Nat) (events : List (Writing.Event μ κ ε)) :
    (calls (numbered n events)).Pairwise fun a b =>
      ∃ i j c d, i < j ∧ a = labelled i c ∧ b = labelled j d := by
  induction events generalizing n with
  | nil => exact List.Pairwise.nil
  | cons e events ih =>
    cases e with
    | write messages cb =>
      refine List.Pairwise.cons ?_ (ih (n + 1))
      intro call hcall
      obtain ⟨i, d, -, rfl⟩ := mem_calls_numbered.mp hcall
      exact ⟨n, n + 1 + i, (messages, cb), d, by omega, rfl, rfl⟩
    | complete index ec => exact ih n
    | upgrade => exact ih n
    | destroy => exact ih n

theorem cells_eq_flatMap (events : List (Writing.Event μ κ ε)) :
    cells events = (calls events).flatMap fun call => batchCells call.1 call.2 := by
  induction events with
  | nil => rfl
  | cons e events ih =>
    cases e <;> simp_all [cells, calls]

theorem mem_batchCells_some {messages : List μ} {cb : Option κ} {m : μ} {k : κ}
    (h : (m, some k) ∈ batchCells messages cb) : cb = some k ∧ m ∈ messages := by
  have hm : m ∈ messages.reverse := by
    rw [← map_fst_batchCells messages cb]
    exact List.mem_map_of_mem h
  have hcb : k ∈ (batchCells messages cb).filterMap (·.2) :=
    List.mem_filterMap.mpr ⟨_, h, rfl⟩
  rw [filterMap_snd_batchCells (by rintro rfl; simp at hm)] at hcb
  exact ⟨by simpa using hcb, by simpa using hm⟩

theorem exists_call_of_callback {events : List (Writing.Event μ κ ε)} {m : μ} {k : κ}
    (h : (m, some k) ∈ cells events) : ∃ messages, (messages, some k) ∈ calls events ∧ m ∈ messages := by
  rw [cells_eq_flatMap] at h
  obtain ⟨⟨messages, cb⟩, hcall, hcell⟩ := List.mem_flatMap.mp h
  obtain ⟨rfl, hm⟩ := mem_batchCells_some hcell
  exact ⟨messages, hcall, hm⟩

/-- A message with its label belongs to one call only. -/
theorem call_unique {n : Nat} {events : List (Writing.Event μ κ ε)}
    {a b : List (Labelled μ) × Option (Nat × κ)} {x y : Labelled μ}
    (ha : a ∈ calls (numbered n events)) (hb : b ∈ calls (numbered n events))
    (hx : x ∈ a.1) (hy : y ∈ b.1) (hxy : x.call = y.call) : a = b := by
  obtain ⟨i, c, hc, rfl⟩ := mem_calls_numbered.mp ha
  obtain ⟨j, d, hd, rfl⟩ := mem_calls_numbered.mp hb
  rw [call_of_mem_labelled hx, call_of_mem_labelled hy] at hxy
  obtain rfl : i = j := by omega
  rw [hc] at hd
  cases hd
  rfl

/-! ## The order of the device writes -/

/-- By call, then by place in the batch. -/
def Labelled.Before (a b : Labelled μ) : Prop :=
  a.call < b.call ∨ a.call = b.call ∧ a.place < b.place

instance : DecidableRel (Labelled.Before (μ := μ)) := fun a b =>
  inferInstanceAs (Decidable (a.call < b.call ∨ a.call = b.call ∧ a.place < b.place))

/-- The device was handed the messages in order, and a callback was posted only
after every message of its call had been written. -/
structure WrittenInOrder (events : List (Writing.Event μ κ ε))
    (s : Writing (Labelled μ) (Nat × κ) ε) : Prop where
  handed : s.handed.Pairwise Labelled.Before
  callbacks : ∀ n cb ec, ((n, cb), ec) ∈ s.posted →
    ∀ call ∈ calls (numbered 0 events), ∀ m ∈ call.1, m.call = n → (m, none) ∈ s.completed

theorem labelled_short {n : Nat} {events : List (Writing.Event μ κ ε)}
    (hshort : ∀ call ∈ calls events, call.1.length ≤ 1)
    {call : List (Labelled μ) × Option (Nat × κ)} (h : call ∈ calls (numbered n events)) :
    call.1 = [] ∨ ∃ m, call.1 = [m] := by
  obtain ⟨i, c, hc, rfl⟩ := mem_calls_numbered.mp h
  have hlen := hshort c (List.mem_of_getElem? hc)
  match hc : c.1 with
  | [] => exact .inl (by simp [labelled, hc])
  | [m] => exact .inr ⟨⟨n + i, 0, m⟩, by simp [labelled, hc]⟩
  | _ :: _ :: _ => simp [hc] at hlen

theorem cells_in_order {n : Nat} {events : List (Writing.Event μ κ ε)}
    (hshort : ∀ call ∈ calls events, call.1.length ≤ 1) :
    ((cells (numbered n events)).map (·.1)).Pairwise Labelled.Before := by
  rw [cells_eq_flatMap, List.pairwise_map, List.pairwise_flatMap]
  constructor
  · intro call hcall
    obtain h | ⟨m, h⟩ := labelled_short hshort hcall
    · simp [h, batchCells]
    · simp [h, batchCells]
  · refine (pairwise_calls_numbered n events).imp ?_
    rintro a b ⟨i, j, c, d, hij, rfl, rfl⟩ x hx y hy
    rw [← call_of_mem_batchCells hx, ← call_of_mem_batchCells hy] at hij
    exact .inl hij

/-- In every run whose batches have at most one message. -/
theorem device_writes_in_order (type : μ → Nat) (hasDevice : Bool)
    (events : List (Writing.Event μ κ ε)) (hshort : ∀ call ∈ calls events, call.1.length ≤ 1)
    (s : Writing (Labelled μ) (Nat × κ) ε) (hrun : writingRun type hasDevice events = some s) :
    WrittenInOrder events s := by
  have hs : Follows (numbered 0 events) s := follows_run hrun
  refine ⟨(cells_in_order hshort).sublist hs.handed_sublist, ?_⟩
  intro n cb ec hposted call hcall m hm hn
  obtain ⟨-, m', hcell, hdone⟩ := hs.posted (n, cb) ec hposted
  obtain ⟨messages, hcall', hm'⟩ := exists_call_of_callback hcell
  -- the callback's cell belongs to the call of `m`, which has no other message
  have hn' : m'.call = n := by
    obtain ⟨i, c, -, heq⟩ := mem_calls_numbered.mp hcall'
    obtain ⟨rfl, hcb⟩ := Prod.mk.inj heq
    exact (call_of_mem_labelled hm').trans (number_of_labelled hcb.symm).symm
  have heq := call_unique hcall hcall' hm hm' (hn.trans hn'.symm)
  obtain h | ⟨x, h⟩ := labelled_short hshort hcall
  · simp [h] at hm
  · rw [heq] at h hm
    obtain rfl : m = m' := by simp_all
    exact hdone

/-- Two calls with a `Run` and a `Stop` message, the first one written. -/
def runThenStop : List (Writing.Event Nat Unit Unit) :=
  [.write [0xA003] (some ()), .write [0xA006] (some ()), .complete 0 none]

def runThenStopEnd : Writing (Labelled Nat) (Nat × Unit) Unit where
  endpoint := some { msgQueue := [(⟨1, 0, 0xA006⟩, some (1, ()))] }
  inFlight := [⟨1, 0, 0xA006⟩]
  handed := [⟨0, 0, 0xA003⟩, ⟨1, 0, 0xA006⟩]
  completed := [(⟨0, 0, 0xA003⟩, none)]
  posted := [((0, ()), none)]

theorem runThenStop_in_order :
    writingRun id true runThenStop = some runThenStopEnd ∧
      WrittenInOrder runThenStop runThenStopEnd := by
  have hrun : writingRun id true runThenStop = some runThenStopEnd := by decide
  exact ⟨hrun, device_writes_in_order id true runThenStop (by decide) runThenStopEnd hrun⟩

/-- A batch of two `SetBytecode` messages, the first write completed. -/
def twoBytecodes : List (Writing.Event Nat Unit Unit) :=
  [.write [0xA001, 0xA001] (some ()), .complete 0 none]

theorem twoBytecodes_out_of_order :
    ¬ ∀ (events : List (Writing.Event Nat Unit Unit)) s,
      writingRun id true events = some s → WrittenInOrder events s := by
  intro h
  have hrun : writingRun id true twoBytecodes = some {
      endpoint := some { msgQueue := [(⟨0, 0, 0xA001⟩, none)] }
      inFlight := [⟨0, 0, 0xA001⟩]
      handed := [⟨0, 1, 0xA001⟩, ⟨0, 0, 0xA001⟩]
      completed := [(⟨0, 1, 0xA001⟩, none)]
      posted := [((0, ()), none)] } := by decide
  have horder := (h twoBytecodes _ hrun).handed
  revert horder
  decide

/-! ## Completion callbacks -/

/-- Every call with a callback that has no message left in the queue has had its
callback posted once, with the error if the write of one of its messages failed. -/
def CallbacksScheduled (events : List (Writing.Event μ κ ε))
    (s : Writing (Labelled μ) (Nat × κ) ε) : Prop :=
  ∀ messages n cb, (messages, some (n, cb)) ∈ calls (numbered 0 events) →
    (∀ m ∈ messages, m ∉ s.queued.map (·.1)) →
    ∃ ec, s.posted.filter (fun p => p.1.1 = n) = [((n, cb), ec)] ∧
      ∀ m ∈ messages, ∀ e, (m, some e) ∈ s.completed → ec = some e

/-- No message of a call with a callback waits in the queue. -/
def NoCallbackWaits (past : List (Writing.Event μ κ ε)) (s : Writing μ κ ε) : Prop :=
  ∀ cell ∈ s.queued, ∀ call ∈ calls past, cell.1 ∈ call.1 → call.2 = none

/-- A call with a callback brings a message to a live endpoint; a write fails, or
the endpoint goes, only while no message of such a call waits. -/
def KeepsCallbacks (past : List (Writing.Event μ κ ε)) (s : Writing μ κ ε) :
    Writing.Event μ κ ε → Prop
  | .write messages cb => cb.isSome → messages ≠ [] ∧ s.endpoint.isSome
  | .complete _ ec => ec.isSome → NoCallbackWaits past s
  | .upgrade => True
  | .destroy => NoCallbackWaits past s

instance [DecidableEq μ] [DecidableEq κ] (past : List (Writing.Event μ κ ε)) (s : Writing μ κ ε) :
    Decidable (NoCallbackWaits past s) :=
  inferInstanceAs (Decidable (∀ cell ∈ s.queued, ∀ call ∈ calls past, _ → call.2 = none))

instance [DecidableEq μ] [DecidableEq κ] (past : List (Writing.Event μ κ ε)) (s : Writing μ κ ε) :
    (e : Writing.Event μ κ ε) → Decidable (KeepsCallbacks past s e)
  | .write messages cb =>
    inferInstanceAs (Decidable (cb.isSome → messages ≠ [] ∧ s.endpoint.isSome))
  | .complete _ ec => inferInstanceAs (Decidable (ec.isSome → NoCallbackWaits past s))
  | .upgrade => inferInstanceAs (Decidable True)
  | .destroy => inferInstanceAs (Decidable (NoCallbackWaits past s))

/-- The callbacks of the calls so far have been posted or wait in the queue, and
the writes that failed were those of calls without one. -/
structure Accounted (past : List (Writing.Event μ κ ε)) (s : Writing μ κ ε) : Prop where
  follows : Follows past s
  callbacks : s.posted.map (·.1) ++ s.queued.filterMap (·.2) = (calls past).filterMap (·.2)
  failed : ∀ m e, (m, some e) ∈ s.completed → ∃ messages, (messages, none) ∈ calls past ∧ m ∈ messages

section Accounted

variable {type : μ → Nat} {past : List (Writing.Event μ κ ε)} {s t : Writing μ κ ε}
  {e : Writing.Event μ κ ε}

theorem Accounted.start (hasDevice : Bool) :
    Accounted [] { endpoint := some { hasDevice } : Writing μ κ ε } :=
  ⟨Follows.start hasDevice, by simp [Writing.queued, calls], by simp⟩

theorem calls_append (past : List (Writing.Event μ κ ε)) (e : Writing.Event μ κ ε) :
    calls (past ++ [e]) = calls past ++ calls [e] := by
  simp [calls]

theorem exists_call_of_cell {m : μ} {cb : Option κ} (h : (m, cb) ∈ cells past) :
    ∃ call ∈ calls past, m ∈ call.1 := by
  rw [cells_eq_flatMap] at h
  obtain ⟨call, hcall, hcell⟩ := List.mem_flatMap.mp h
  have hm : m ∈ (batchCells call.1 call.2).map (·.1) := List.mem_map_of_mem hcell
  rw [map_fst_batchCells] at hm
  exact ⟨call, hcall, by simpa using hm⟩

theorem NoCallbackWaits.filterMap_eq (h : NoCallbackWaits past s) (hs : Follows past s) :
    s.queued.filterMap (·.2) = [] := by
  rw [List.filterMap_eq_nil_iff]
  rintro ⟨m, cb⟩ hcell
  cases cb with
  | none => rfl
  | some k =>
    obtain ⟨messages, hcall, hm⟩ := exists_call_of_callback (hs.queued_mem _ hcell)
    cases h _ hcell _ hcall hm

theorem Accounted.callbacks_step (hs : Accounted past s) (hallowed : KeepsCallbacks past s e)
    (h : Moves s e t) :
    t.posted.map (·.1) ++ t.queued.filterMap (·.2) = (calls (past ++ [e])).filterMap (·.2) := by
  rw [calls_append, List.filterMap_append, ← hs.callbacks]
  cases h with
  | dropped messages cb h =>
    cases cb with
    | none => simp [calls]
    | some k =>
      obtain ⟨hmessages, halive⟩ := hallowed rfl
      rcases h with h | h
      · exact absurd h hmessages
      · simp_all
  | queues messages cb ep next hmessages halive hep hqueue hnext =>
    change s.posted.map (·.1) ++ ((ep.map (·.msgQueue)).getD []).filterMap (·.2) = _
    rw [hqueue, List.filterMap_append, filterMap_snd_batchCells hmessages]
    cases cb <;> simp [calls]
  | writes index m cb rest ep next hep hqueued hflight hqueue hnext =>
    change (s.posted ++ (cb.map (·, (none : Option ε))).toList).map Prod.fst ++
      ((ep.map (·.msgQueue)).getD []).filterMap (·.2) = _
    rw [hqueue, hqueued]
    cases cb <;> simp [calls]
  | fails index ec m cb rest ep hep hqueued hflight hqueue =>
    change s.posted.map (·.1) ++ ((ep.map (·.msgQueue)).getD []).filterMap (·.2) = _
    rw [hqueue, (hallowed rfl).filterMap_eq hs.follows]
    simp [calls]
  | upgrades ep hep hqueue =>
    change s.posted.map (·.1) ++ ((ep.map (·.msgQueue)).getD []).filterMap (·.2) = _
    rw [hqueue]
    simp [calls]
  | destroyed hflight =>
    rw [NoCallbackWaits.filterMap_eq hallowed hs.follows]
    simp [calls, Writing.queued]

theorem Accounted.failed_step (hs : Accounted past s) (hallowed : KeepsCallbacks past s e)
    (h : Moves s e t) (m : μ) (ec : ε) (hm : (m, some ec) ∈ t.completed) :
    ∃ messages, (messages, none) ∈ calls (past ++ [e]) ∧ m ∈ messages := by
  rw [calls_append]
  have hold : (m, some ec) ∈ s.completed →
      ∃ messages, (messages, none) ∈ calls past ++ calls [e] ∧ m ∈ messages := by
    intro hm
    obtain ⟨messages, hcall, hmem⟩ := hs.failed m ec hm
    exact ⟨messages, List.mem_append_left _ hcall, hmem⟩
  cases h with
  | dropped => exact hold hm
  | queues => exact hold hm
  | writes index front cb rest ep next hep hqueued hflight hqueue hnext =>
    exact hold (by simpa using hm)
  | fails index ec' front cb rest ep hep hqueued hflight hqueue =>
    obtain hm | hm := List.mem_append.mp hm
    · exact hold hm
    · obtain ⟨rfl, rfl⟩ : m = front ∧ ec = ec' := by simpa using hm
      have hcell : (m, cb) ∈ s.queued := by simp [hqueued]
      obtain ⟨⟨messages, cb'⟩, hcall, hmem⟩ := exists_call_of_cell (hs.follows.queued_mem _ hcell)
      obtain rfl : cb' = none := hallowed rfl _ hcell _ hcall hmem
      exact ⟨messages, List.mem_append_left _ hcall, hmem⟩
  | upgrades => exact hold hm
  | destroyed => exact hold hm

theorem Accounted.step (hs : Accounted past s) (hallowed : KeepsCallbacks past s e)
    (h : s.step type e = some t) : Accounted (past ++ [e]) t := by
  have hmoves := step_moves hs.follows.writer h
  exact ⟨hs.follows.step h, hs.callbacks_step hallowed hmoves, hs.failed_step hallowed hmoves⟩

end Accounted

theorem filter_eq_singleton {α β : Type} [DecidableEq β] {f : α → β} {l : List α}
    (h : (l.map f).Nodup) {x : α} (hx : x ∈ l) : l.filter (fun y => f y = f x) = [x] := by
  induction l with
  | nil => cases hx
  | cons a l ih =>
    rw [List.map_cons, List.nodup_cons] at h
    by_cases hax : f a = f x
    · have hrest : l.filter (fun y => f y = f x) = [] := by
        rw [List.filter_eq_nil_iff]
        intro y hy hyx
        exact h.1 (List.mem_map.mpr ⟨y, hy, by simp_all⟩)
      obtain rfl | hx := List.mem_cons.mp hx
      · simp [hrest]
      · exact absurd (List.mem_map.mpr ⟨x, hx, hax.symm⟩) h.1
    · obtain rfl | hx := List.mem_cons.mp hx
      · exact absurd rfl hax
      · simpa [hax] using ih h.2 hx

theorem nodup_callback_numbers (n : Nat) (events : List (Writing.Event μ κ ε)) :
    (((calls (numbered n events)).filterMap (·.2)).map (·.1)).Nodup := by
  have hlt : ((calls (numbered n events)).filterMap (·.2)).Pairwise
      fun a b : Nat × κ => a.1 < b.1 := by
    rw [List.pairwise_filterMap]
    refine (pairwise_calls_numbered n events).imp ?_
    rintro a b ⟨i, j, c, d, hij, rfl, rfl⟩ k hk k' hk'
    have hi := number_of_labelled hk
    have hj := number_of_labelled hk'
    omega
  rw [List.nodup_iff_pairwise_ne, List.pairwise_map]
  exact hlt.imp Nat.ne_of_lt

/-- In every run whose steps all keep the callbacks. -/
theorem callbacks_scheduled_once (type : μ → Nat) (hasDevice : Bool)
    (events : List (Writing.Event μ κ ε))
    (hkeeps : Transition.Along (Writing.step fun m : Labelled μ => type m.message) KeepsCallbacks []
      { endpoint := some { hasDevice } } (numbered 0 events))
    (s : Writing (Labelled μ) (Nat × κ) ε) (hrun : writingRun type hasDevice events = some s) :
    CallbacksScheduled events s := by
  have hs : Accounted (numbered 0 events) s := by
    simpa using Transition.invariant (fun past s e t hs ha h => Accounted.step hs ha h)
      (Accounted.start hasDevice) hkeeps hrun
  intro messages n cb hcall hleft
  have hmem : (n, cb) ∈ s.posted.map (·.1) ++ s.queued.filterMap (·.2) := by
    rw [hs.callbacks]
    exact List.mem_filterMap.mpr ⟨_, hcall, rfl⟩
  have hnodup : ((s.posted.map (·.1) ++ s.queued.filterMap (·.2)).map (·.1)).Nodup := by
    rw [hs.callbacks]
    exact nodup_callback_numbers 0 events
  have hposted : (n, cb) ∈ s.posted.map (·.1) := by
    obtain hposted | hqueued := List.mem_append.mp hmem
    · exact hposted
    · -- a cell with this callback holds a message of the call
      obtain ⟨⟨m, cb'⟩, hcell, rfl⟩ := List.mem_filterMap.mp hqueued
      obtain ⟨messages', hcall', hm⟩ := exists_call_of_callback (hs.follows.queued_mem _ hcell)
      obtain ⟨i, c, hc, heq⟩ := mem_calls_numbered.mp hcall
      obtain ⟨j, d, hd, heq'⟩ := mem_calls_numbered.mp hcall'
      have hi := number_of_labelled (Prod.mk.inj heq).2.symm
      have hj := number_of_labelled (Prod.mk.inj heq').2.symm
      obtain rfl : i = j := by omega
      rw [hc] at hd
      cases hd
      have hsame : messages = messages' := congrArg Prod.fst (heq.trans heq'.symm)
      exact absurd (List.mem_map_of_mem hcell) (hleft m (hsame ▸ hm))
  obtain ⟨⟨k, ec⟩, hk, rfl⟩ := List.mem_map.mp hposted
  refine ⟨ec, ?_, ?_⟩
  · have hnumbers : (s.posted.map (·.1.1)).Nodup := by
      rw [List.map_append, List.map_map] at hnodup
      exact (List.nodup_append.mp hnodup).1
    exact filter_eq_singleton hnumbers hk
  · intro m hm e hfailed
    obtain ⟨messages', hcall', hm'⟩ := hs.failed m e hfailed
    cases call_unique hcall hcall' hm hm' rfl

theorem runThenStop_callbacks :
    writingRun id true runThenStop = some runThenStopEnd ∧
      CallbacksScheduled runThenStop runThenStopEnd := by
  have hrun : writingRun id true runThenStop = some runThenStopEnd := by decide
  exact ⟨hrun, callbacks_scheduled_once id true runThenStop (by decide) runThenStopEnd hrun⟩

/-- A `Run` message whose write fails. -/
def failedRun : List (Writing.Event Nat Unit Unit) :=
  [.write [0xA003] (some ()), .complete 0 (some ())]

theorem failedRun_callback_lost :
    ¬ ∀ (events : List (Writing.Event Nat Unit Unit)) s,
      writingRun id true events = some s → CallbacksScheduled events s := by
  intro h
  have hrun : writingRun id true failedRun = some {
      endpoint := some {}, handed := [⟨0, 0, 0xA003⟩],
      completed := [(⟨0, 0, 0xA003⟩, some ())] } := by decide
  obtain ⟨ec, hposted, -⟩ := h failedRun _ hrun [⟨0, 0, 0xA003⟩] 0 () (by decide) (by decide)
  cases hposted

end ThymioDeviceManager.Correctness
