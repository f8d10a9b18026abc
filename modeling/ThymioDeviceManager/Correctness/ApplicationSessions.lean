import ThymioDeviceManager.Manager.ApplicationQueue

/-! # Application sessions: output and the password gate

A write is started by the call of `write_message` that finds the queue empty and
the protocol version known. Messages queued before the handshake therefore block
the queue for good, and the version set by a handshake that is then rejected
lets the next notification out.
-/

namespace ThymioDeviceManager.Correctness

open Manager Library

variable {μ ρ : Type}

section Messages

variable (s : Session μ ρ) (m : μ)

/-- A call changes the queue and the logs only. -/
theorem writeMessage_frame : ∃ queue received inFlight written,
    s.writeMessage m = { s with queue, received, inFlight, written } := by
  unfold Session.writeMessage
  dsimp only
  split
  · exact ⟨_, _, _, _, rfl⟩
  · split <;> exact ⟨_, _, _, _, rfl⟩

@[simp] theorem writeMessage_protocolVersion :
    (s.writeMessage m).protocolVersion = s.protocolVersion := by
  obtain ⟨_, _, _, _, h⟩ := writeMessage_frame s m
  rw [h]

@[simp] theorem writeMessage_reading : (s.writeMessage m).reading = s.reading := by
  obtain ⟨_, _, _, _, h⟩ := writeMessage_frame s m
  rw [h]

@[simp] theorem writeMessage_pinging : (s.writeMessage m).pinging = s.pinging := by
  obtain ⟨_, _, _, _, h⟩ := writeMessage_frame s m
  rw [h]

/-- Nothing is written while the version is unknown, or behind another message. -/
theorem writeMessage_held (h : s.protocolVersion = 0 ∨ s.queue ≠ []) :
    s.writeMessage m = { s with queue := s.queue ++ [m], received := s.received ++ [m] } := by
  have hheld : 1 < (s.queue ++ [m]).length ∨ s.protocolVersion = 0 := by
    rcases h with h | h
    · exact .inr h
    · have := List.length_pos_iff.mpr h
      exact .inl (by simpa using this)
  unfold Session.writeMessage
  dsimp only
  rw [if_pos hheld]

theorem writeMessage_first (hversion : s.protocolVersion ≠ 0) (hqueue : s.queue = []) :
    s.writeMessage m = { s with
      queue := [m], received := s.received ++ [m], inFlight := s.inFlight ++ [m],
      written := s.written ++ [m] } := by
  simp [Session.writeMessage, Session.doWriteMessage, hversion, hqueue]

theorem handleWrite_frame : ∃ queue inFlight written,
    s.handleWrite = { s with queue, inFlight, written } := by
  unfold Session.handleWrite
  split <;> exact ⟨_, _, _, rfl⟩

end Messages

/-! ## The output queue -/

/-- The queue is non-empty exactly when one write is outstanding, which is for
its front, and the socket got what `write_message` received, in order, up to the
rest of the queue. -/
structure Flushes (s : Session μ ρ) : Prop where
  outstanding : s.inFlight = s.queue.head?.toList
  order : s.received = s.written ++ s.queue.tail

theorem Flushes.writeMessage {s : Session μ ρ} (hs : Flushes s) (hversion : s.protocolVersion ≠ 0)
    (m : μ) : Flushes (s.writeMessage m) := by
  obtain ⟨houtstanding, horder⟩ := hs
  by_cases hqueue : s.queue = []
  · rw [hqueue] at houtstanding horder
    rw [writeMessage_first s m hversion hqueue]
    constructor
    · simp [houtstanding]
    · simp [horder]
  · obtain ⟨front, rest, hqueue'⟩ := List.exists_cons_of_ne_nil hqueue
    rw [writeMessage_held s m (.inr hqueue)]
    rw [hqueue'] at houtstanding horder
    constructor
    · simp [hqueue', houtstanding]
    · simp [hqueue', horder]

theorem Flushes.complete {s : Session μ ρ} (hs : Flushes s) {index : Nat}
    (hindex : index < s.inFlight.length) :
    Flushes { s with inFlight := s.inFlight.eraseIdx index }.handleWrite := by
  obtain ⟨houtstanding, horder⟩ := hs
  cases hqueue : s.queue with
  | nil => simp [houtstanding, hqueue] at hindex
  | cons front rest =>
    rw [hqueue] at houtstanding horder
    obtain rfl : index = 0 := by simpa [houtstanding] using hindex
    cases rest with
    | nil =>
      constructor
      · simp [Session.handleWrite, houtstanding]
      · simpa [Session.handleWrite, hqueue] using horder
    | cons next rest =>
      constructor
      · simp [Session.handleWrite, Session.doWriteMessage, houtstanding]
      · simpa [Session.handleWrite, Session.doWriteMessage, hqueue] using horder

/-- Before the handshake nothing is written; after a successful one the queue
is flushed. -/
structure Orderly (s : Session μ ρ) : Prop where
  unknown : s.protocolVersion = 0 → s.inFlight = [] ∧ s.written = [] ∧ s.received = s.queue
  flushes : s.pinging → s.protocolVersion ≠ 0 ∧ Flushes s
  handshake : s.reading = some .handshake → s.protocolVersion = 0

/-- The pending read, the handlers and the requests do not matter to the queue. -/
theorem Orderly.frame {s : Session μ ρ} (hs : Orderly s) {reading : Option Reader}
    (hreading : reading = some .handshake → s.reading = some .handshake) (handlers : Nat)
    (dispatched : List ρ) : Orderly { s with reading, handlers, dispatched } where
  unknown := hs.unknown
  flushes h := ⟨(hs.flushes h).1, (hs.flushes h).2.1, (hs.flushes h).2.2⟩
  handshake h := hs.handshake (hreading h)

theorem Orderly.writeMessage {s : Session μ ρ} (hs : Orderly s) (m : μ) :
    Orderly (s.writeMessage m) := by
  refine ⟨?_, ?_, by simpa using hs.handshake⟩
  · intro hversion
    rw [writeMessage_protocolVersion] at hversion
    obtain ⟨hflight, hwritten, hreceived⟩ := hs.unknown hversion
    rw [writeMessage_held s m (.inl hversion)]
    exact ⟨hflight, hwritten, by simp [hreceived]⟩
  · intro hpinging
    rw [writeMessage_pinging] at hpinging
    obtain ⟨hversion, hflushes⟩ := hs.flushes hpinging
    exact ⟨by simpa using hversion, hflushes.writeMessage hversion m⟩

theorem Orderly.complete {s : Session μ ρ} (hs : Orderly s) {index : Nat}
    (hindex : index < s.inFlight.length) :
    Orderly { s with inFlight := s.inFlight.eraseIdx index }.handleWrite := by
  have hversion : s.protocolVersion ≠ 0 := by
    intro h
    simp [(hs.unknown h).1] at hindex
  have hflushes : s.pinging → Flushes { s with inFlight := s.inFlight.eraseIdx index }.handleWrite :=
    fun h => (hs.flushes h).2.complete hindex
  obtain ⟨queue, inFlight, written, heq⟩ :=
    handleWrite_frame { s with inFlight := s.inFlight.eraseIdx index }
  rw [heq] at hflushes ⊢
  exact ⟨fun h => absurd h hversion, fun h => ⟨hversion, hflushes h⟩, hs.handshake⟩

theorem Orderly.foldl_writeMessage {s : Session μ ρ} (hs : Orderly s) (ms : List μ) :
    Orderly (ms.foldl Session.writeMessage s) := by
  induction ms generalizing s with
  | nil => exact hs
  | cons m ms ih => exact ih (hs.writeMessage m)

/-- The handshake passes the checks of `handle_handshake`. -/
def accepted (tdmPassword : String) (s : Session μ ρ) (hs : ConnectionHandshake) : Bool :=
  hs.compatible && (s.networkLocal || hs.carriesPassword tdmPassword)

/-- A handshake that is going to be accepted finds the queue empty. -/
def EmptyAtHandshake (tdmPassword : String) (_past : List (Session.Event μ ρ)) (s : Session μ ρ) :
    Session.Event μ ρ → Prop
  | .handshake (.message hs) _ _ => accepted tdmPassword s hs → s.queue = []
  | _ => True

section Steps

variable {tdmPassword : String} {s t : Session μ ρ} {e : Session.Event μ ρ}

theorem compatible_version {hs : ConnectionHandshake} (h : hs.compatible = true) :
    min hs.protocolVersion tdmProtocolVersion ≠ 0 := by
  unfold ConnectionHandshake.compatible tdmMinProtocolVersion at h
  unfold tdmProtocolVersion
  simp at h
  omega

/-- What `handle_handshake` does with a message, by what the checks find. -/
theorem handleHandshake_cases (hs : ConnectionHandshake) (reply nodes : μ) :
    (hs.compatible = false ∧ s.handleHandshake tdmPassword (.message hs) reply nodes =
      { s with reading := none }.completeHandshake reply nodes) ∨
    (hs.compatible = true ∧ accepted tdmPassword s hs = false ∧
      s.handleHandshake tdmPassword (.message hs) reply nodes =
        { s with
          reading := none, protocolVersion := min hs.protocolVersion tdmProtocolVersion }) ∨
    (hs.compatible = true ∧ accepted tdmPassword s hs = true ∧
      s.handleHandshake tdmPassword (.message hs) reply nodes =
        { s with
          reading := none, protocolVersion := min hs.protocolVersion tdmProtocolVersion
        }.completeHandshake reply nodes) := by
  cases hcompatible : hs.compatible with
  | false => exact .inl ⟨rfl, by simp [Session.handleHandshake, hcompatible]⟩
  | true =>
    cases haccepted : accepted tdmPassword s hs with
    | false =>
      have hgate : (!s.networkLocal && !hs.carriesPassword tdmPassword) = true := by
        simpa [accepted, hcompatible] using haccepted
      exact .inr (.inl ⟨rfl, rfl, by simp [Session.handleHandshake, hcompatible, hgate]⟩)
    | true =>
      have hgate : (!s.networkLocal && !hs.carriesPassword tdmPassword) = false := by
        rw [accepted, hcompatible, Bool.true_and] at haccepted
        rw [← Bool.not_or, haccepted, Bool.not_true]
      exact .inr (.inr ⟨rfl, rfl, by simp [Session.handleHandshake, hcompatible, hgate]⟩)

theorem completeHandshake_unknown (h : s.protocolVersion = 0) (reply nodes : μ) :
    s.completeHandshake reply nodes = s.writeMessage reply := by
  unfold Session.completeHandshake
  simp [h]

theorem Orderly.handleHandshake (hs : Orderly s) (hreading : s.reading = some .handshake)
    (incoming : Session.Incoming ConnectionHandshake) (reply nodes : μ)
    {past : List (Session.Event μ ρ)}
    (hempty : EmptyAtHandshake tdmPassword past s (.handshake incoming reply nodes)) :
    Orderly (s.handleHandshake tdmPassword incoming reply nodes) := by
  have hversion := hs.handshake hreading
  obtain ⟨hflight, hwritten, hreceived⟩ := hs.unknown hversion
  have hpinging : ¬ s.pinging := fun h => (hs.flushes h).1 hversion
  have hstopped : Orderly { s with reading := none } := hs.frame (by simp) _ _
  cases incoming with
  | error => exact hstopped
  | otherMessage => exact hstopped
  | message hsk =>
    obtain ⟨-, heq⟩ | ⟨hcompatible, -, heq⟩ | ⟨hcompatible, haccepted, heq⟩ :=
      handleHandshake_cases (s := s) hsk reply nodes
    · rw [heq, completeHandshake_unknown (by exact hversion)]
      exact hstopped.writeMessage reply
    · rw [heq]
      exact ⟨fun _ => ⟨hflight, hwritten, hreceived⟩, fun h => absurd h hpinging, by simp⟩
    · rw [heq]
      have hnext := compatible_version hcompatible
      have hqueue := hempty haccepted
      unfold Session.completeHandshake
      have hflushes : Flushes { s with
          reading := none, protocolVersion := min hsk.protocolVersion tdmProtocolVersion } :=
        ⟨by simp [hflight, hqueue], by simp [hreceived, hwritten, hqueue]⟩
      have hreply := hflushes.writeMessage hnext reply
      have hnodes := hreply.writeMessage (by simpa using hnext) nodes
      simp only [writeMessage_protocolVersion, hnext, if_false]
      refine ⟨fun h => absurd h ?_, fun _ => ⟨?_, ⟨hnodes.1, hnodes.2⟩⟩, by simp⟩
      · simpa using hnext
      · simpa using hnext

theorem Orderly.step {past : List (Session.Event μ ρ)} (hs : Orderly s)
    (hempty : EmptyAtHandshake tdmPassword past s e) (h : s.step tdmPassword e = some t) :
    Orderly t := by
  cases e with
  | post =>
    simp only [Session.step] at h
    split at h
    · cases h
      exact hs.frame id _ _
    · cases h
  | deliver m =>
    simp only [Session.step] at h
    split at h
    · have hless : Orderly { s with handlers := s.handlers - 1 } := hs.frame id _ _
      cases h
      cases m with
      | none => exact hless
      | some m => exact hless.writeMessage m
    · cases h
  | handshake incoming reply nodes =>
    simp only [Session.step] at h
    split at h
    · rename_i hreading
      cases h
      exact hs.handleHandshake hreading incoming reply nodes hempty
    · cases h
  | request r responses =>
    simp only [Session.step] at h
    split at h
    · cases h
      cases r with
      | error => exact hs.frame (by simp) _ _
      | otherMessage => exact hs
      | message r =>
        have hdispatched : Orderly { s with dispatched := s.dispatched ++ [r] } := hs.frame id _ _
        exact hdispatched.foldl_writeMessage responses
    · cases h
  | answer m =>
    simp only [Session.step] at h
    split at h
    · cases h
    · cases h
      exact hs.writeMessage m
  | ping m =>
    simp only [Session.step] at h
    split at h
    · cases h
      exact hs.writeMessage m
    · cases h
  | complete index failed =>
    simp only [Session.step] at h
    split at h
    · rename_i hindex
      cases h
      exact hs.complete hindex
    · cases h

/-- In every run in which an accepted handshake finds the queue empty. -/
theorem application_output_flushes (tdmPassword : String) (networkLocal : Bool)
    (events : List (Session.Event μ ρ))
    (hempty : Transition.Along (Session.step tdmPassword) (EmptyAtHandshake tdmPassword) []
      { networkLocal } events)
    (s : Session μ ρ)
    (hrun : Transition.run (Session.step tdmPassword) { networkLocal } events = some s)
    (hsuccess : s.pinging) : Flushes s := by
  have hstart : Orderly ({ networkLocal } : Session μ ρ) := ⟨by simp, by simp, by simp⟩
  have hs : Orderly s := by
    refine Transition.invariant (I := fun _ s => Orderly s) ?_ hstart hempty hrun
    intro past s e t hs hallowed h
    exact hs.step hallowed h
  exact (hs.flushes hsuccess).2

end Steps

instance (tdmPassword : String) (past : List (Session.Event μ ρ)) (s : Session μ ρ) :
    (e : Session.Event μ ρ) → Decidable (EmptyAtHandshake tdmPassword past s e)
  | .handshake (.message hs) _ _ =>
    decidable_of_iff (accepted tdmPassword s hs → s.queue.isEmpty) (by simp [EmptyAtHandshake])
  | .handshake .error _ _ => inferInstanceAs (Decidable True)
  | .handshake .otherMessage _ _ => inferInstanceAs (Decidable True)
  | .post => inferInstanceAs (Decidable True)
  | .deliver _ => inferInstanceAs (Decidable True)
  | .request _ _ => inferInstanceAs (Decidable True)
  | .answer _ => inferInstanceAs (Decidable True)
  | .ping _ => inferInstanceAs (Decidable True)
  | .complete _ _ => inferInstanceAs (Decidable True)

/-- A local client of version 1. -/
def localHandshake : ConnectionHandshake :=
  { protocolVersion := 1, minProtocolVersion := 1, password := none }

/-- A notification after the handshake; the first write completes. -/
def notifiedLate : List (Session.Event String Unit) :=
  [.handshake (.message localHandshake) "handshake" "nodes", .post, .deliver (some "changed"),
    .complete 0 false]

def notifiedLateEnd : Session String Unit where
  queue := ["nodes", "changed"]
  protocolVersion := 1
  networkLocal := true
  reading := some .requests
  pinging := true
  inFlight := ["nodes"]
  written := ["handshake", "nodes"]
  received := ["handshake", "nodes", "changed"]

theorem notifiedLate_flushes :
    Transition.run (Session.step "ABC123") { networkLocal := true } notifiedLate =
      some notifiedLateEnd ∧ Flushes notifiedLateEnd := by
  have hrun : Transition.run (Session.step "ABC123") { networkLocal := true } notifiedLate =
      some notifiedLateEnd := by decide
  exact ⟨hrun, application_output_flushes "ABC123" true notifiedLate (by decide) notifiedLateEnd
    hrun rfl⟩

/-- A notification before the handshake. -/
def notifiedEarly : List (Session.Event String Unit) :=
  [.post, .deliver (some "changed"), .handshake (.message localHandshake) "handshake" "nodes"]

theorem notifiedEarly_blocks :
    ¬ ∀ (events : List (Session.Event String Unit)) s,
      Transition.run (Session.step "ABC123") { networkLocal := true } events = some s →
        s.pinging → Flushes s := by
  intro h
  have hrun : Transition.run (Session.step "ABC123") { networkLocal := true } notifiedEarly =
      some {
        queue := ["changed", "handshake", "nodes"], protocolVersion := 1, networkLocal := true,
        reading := some .requests, pinging := true,
        received := ["changed", "handshake", "nodes"] } := by decide
  have houtstanding := (h notifiedEarly _ hrun rfl).outstanding
  cases houtstanding

/-! ## The password gate -/

/-- Nothing reached the socket and no request was dispatched. -/
structure Silent (s : Session μ ρ) : Prop where
  written : s.written = []
  dispatched : s.dispatched = []

/-- A notification runs while the version is unknown, or behind a queued message. -/
def HeldBack (_past : List (Session.Event μ ρ)) (s : Session μ ρ) : Session.Event μ ρ → Prop
  | .deliver (some _) => s.protocolVersion = 0 ∨ s.queue ≠ []
  | _ => True

instance (past : List (Session.Event μ ρ)) (s : Session μ ρ) :
    (e : Session.Event μ ρ) → Decidable (HeldBack past s e)
  | .deliver (some _) =>
    decidable_of_iff (s.protocolVersion = 0 ∨ ¬ s.queue.isEmpty) (by simp [HeldBack])
  | .deliver none => inferInstanceAs (Decidable True)
  | .handshake _ _ _ => inferInstanceAs (Decidable True)
  | .post => inferInstanceAs (Decidable True)
  | .request _ _ => inferInstanceAs (Decidable True)
  | .answer _ => inferInstanceAs (Decidable True)
  | .ping _ => inferInstanceAs (Decidable True)
  | .complete _ _ => inferInstanceAs (Decidable True)

/-- The handshake of the client does not carry the password. -/
def LacksPassword (tdmPassword : String) (events : List (Session.Event μ ρ)) : Prop :=
  ∀ hs reply nodes, .handshake (.message hs) reply nodes ∈ events →
    hs.carriesPassword tdmPassword = false

/-- The state of a session whose client has not been let in. -/
structure Shut (s : Session μ ρ) : Prop extends Silent s where
  inFlight : s.inFlight = []
  pinging : s.pinging = false
  networkLocal : s.networkLocal = false
  reading : s.reading ≠ some .requests
  handshake : s.reading = some .handshake → s.protocolVersion = 0

section Gate

variable {tdmPassword : String} {s t : Session μ ρ} {e : Session.Event μ ρ}

theorem Shut.hold (hs : Shut s) (h : s.protocolVersion = 0 ∨ s.queue ≠ []) (m : μ) :
    Shut (s.writeMessage m) := by
  rw [writeMessage_held s m h]
  exact ⟨⟨hs.written, hs.dispatched⟩, hs.inFlight, hs.pinging, hs.networkLocal, hs.reading,
    hs.handshake⟩

theorem Shut.handleHandshake (hs : Shut s) (hreading : s.reading = some .handshake)
    (incoming : Session.Incoming ConnectionHandshake) (reply nodes : μ)
    (hlacks : ∀ hsk, incoming = .message hsk → hsk.carriesPassword tdmPassword = false) :
    Shut (s.handleHandshake tdmPassword incoming reply nodes) := by
  have hversion := hs.handshake hreading
  have hstopped : Shut { s with reading := none } :=
    ⟨⟨hs.written, hs.dispatched⟩, hs.inFlight, hs.pinging, hs.networkLocal, by simp, by simp⟩
  cases incoming with
  | error => exact hstopped
  | otherMessage => exact hstopped
  | message hsk =>
    obtain ⟨-, heq⟩ | ⟨-, -, heq⟩ | ⟨-, haccepted, -⟩ :=
      handleHandshake_cases (s := s) hsk reply nodes
    · rw [heq, completeHandshake_unknown (by exact hversion)]
      exact hstopped.hold (.inl hversion) reply
    · rw [heq]
      exact ⟨⟨hs.written, hs.dispatched⟩, hs.inFlight, hs.pinging, hs.networkLocal, by simp,
        by simp⟩
    · simp [accepted, hs.networkLocal, hlacks hsk rfl] at haccepted

theorem Shut.step (hs : Shut s)
    (hlacks : ∀ hsk reply nodes, e = .handshake (.message hsk) reply nodes →
      hsk.carriesPassword tdmPassword = false)
    {past : List (Session.Event μ ρ)} (hheld : HeldBack past s e)
    (h : s.step tdmPassword e = some t) : Shut t := by
  cases e with
  | post =>
    simp only [Session.step] at h
    split at h
    · cases h
      exact ⟨⟨hs.written, hs.dispatched⟩, hs.inFlight, hs.pinging, hs.networkLocal, hs.reading,
        hs.handshake⟩
    · cases h
  | deliver m =>
    simp only [Session.step] at h
    split at h
    · have hless : Shut { s with handlers := s.handlers - 1 } :=
        ⟨⟨hs.written, hs.dispatched⟩, hs.inFlight, hs.pinging, hs.networkLocal, hs.reading,
          hs.handshake⟩
      cases h
      cases m with
      | none => exact hless
      | some m => exact hless.hold hheld m
    · cases h
  | handshake incoming reply nodes =>
    simp only [Session.step] at h
    split at h
    · rename_i hreading
      cases h
      refine hs.handleHandshake hreading incoming reply nodes ?_
      rintro hsk rfl
      exact hlacks hsk reply nodes rfl
    · cases h
  | request r responses => simp [Session.step, hs.reading] at h
  | answer m => simp [Session.step, hs.dispatched] at h
  | ping m => simp [Session.step, hs.pinging] at h
  | complete index failed => simp [Session.step, hs.inFlight] at h

/-- In every run in which no notification finds the version set and the queue
empty. -/
theorem password_gate (tdmPassword : String) (events : List (Session.Event μ ρ))
    (hlacks : LacksPassword tdmPassword events)
    (hheld : Transition.Along (Session.step tdmPassword) HeldBack [] { networkLocal := false }
      events)
    (s : Session μ ρ)
    (hrun : Transition.run (Session.step tdmPassword) { networkLocal := false } events = some s) :
    Silent s := by
  have hstart : Shut ({ networkLocal := false } : Session μ ρ) :=
    ⟨⟨rfl, rfl⟩, rfl, rfl, rfl, by simp, by simp⟩
  have hmem : ∀ e ∈ events, ∀ hsk reply nodes, e = .handshake (.message hsk) reply nodes →
      hsk.carriesPassword tdmPassword = false := by
    rintro e he hsk reply nodes rfl
    exact hlacks hsk reply nodes he
  have hs : Shut s := by
    refine Transition.invariant (I := fun _ s => Shut s) ?_ hstart (hheld.and_mem hmem) hrun
    intro past s e t hs hallowed h
    exact hs.step hallowed.2 hallowed.1 h
  exact hs.toSilent

end Gate

/-- A remote client without a password. -/
def intruder : ConnectionHandshake :=
  { protocolVersion := 1, minProtocolVersion := 1, password := none }

/-- A notification that runs before the handshake of the intruder. -/
def rejectedAfter : List (Session.Event String Unit) :=
  [.post, .deliver (some "changed"), .handshake (.message intruder) "handshake" "nodes"]

def rejectedAfterEnd : Session String Unit where
  queue := ["changed"]
  protocolVersion := 1
  networkLocal := false
  reading := none
  received := ["changed"]

theorem rejectedAfter_silent :
    Transition.run (Session.step "ABC123") { networkLocal := false } rejectedAfter =
      some rejectedAfterEnd ∧ Silent rejectedAfterEnd := by
  have hrun : Transition.run (Session.step "ABC123") { networkLocal := false } rejectedAfter =
      some rejectedAfterEnd := by decide
  have hlacks : LacksPassword "ABC123" rejectedAfter := by
    intro hs reply nodes hmem
    obtain ⟨rfl, -, -⟩ : hs = intruder ∧ reply = "handshake" ∧ nodes = "nodes" := by
      simpa [rejectedAfter] using hmem
    decide
  exact ⟨hrun, password_gate "ABC123" rejectedAfter hlacks (by decide) rejectedAfterEnd hrun⟩

/-- A notification that is posted before the handshake and runs after it. -/
def rejectedBefore : List (Session.Event String Unit) :=
  [.post, .handshake (.message intruder) "handshake" "nodes", .deliver (some "changed")]

theorem rejectedBefore_notified :
    ¬ ∀ (events : List (Session.Event String Unit)) s, LacksPassword "ABC123" events →
      Transition.run (Session.step "ABC123") { networkLocal := false } events = some s →
        Silent s := by
  intro h
  have hrun : Transition.run (Session.step "ABC123") { networkLocal := false } rejectedBefore =
      some {
        queue := ["changed"], protocolVersion := 1, networkLocal := false, reading := none,
        inFlight := ["changed"], written := ["changed"], received := ["changed"] } := by decide
  have hlacks : LacksPassword "ABC123" rejectedBefore := by
    intro hs reply nodes hmem
    obtain ⟨rfl, -, -⟩ : hs = intruder ∧ reply = "handshake" ∧ nodes = "nodes" := by
      simpa [rejectedBefore] using hmem
    decide
  cases (h rejectedBefore _ hlacks hrun).written

end ThymioDeviceManager.Correctness
