import ThymioDeviceManager.Manager.Descriptions

/-! # Descriptions arrive complete and in order

The counters of a node say how much of each list has been filled, as long as the
pieces come in the order of the device and the lists are not replaced behind
their back. A `Description` that arrives once an item has been recorded replaces
the lists and leaves the counters, and an item that arrives before its
predecessor takes the place of it; `inTurn` rules both out.
-/

namespace ThymioDeviceManager.Correctness

open Compiler Manager Library

/-! ## Lists that are filled from the front -/

section Filled

variable {α : Type} {full list : List α} {blank description : α} {counter : Nat}
  {name : α → String}

/-- The first `counter` elements of `full` are there, the others are blank. -/
structure Filled (full : List α) (blank : α) (list : List α) (counter : Nat) : Prop where
  counter_le : counter ≤ full.length
  list_eq : list = full.take counter ++ List.replicate (full.length - counter) blank

theorem Filled.empty (full : List α) (blank : α) :
    Filled full blank (List.replicate full.length blank) 0 :=
  ⟨Nat.zero_le _, by simp⟩

theorem Filled.length_eq (h : Filled full blank list counter) : list.length = full.length := by
  have hle := h.counter_le
  rw [h.list_eq, List.length_append, List.length_take, List.length_replicate]
  omega

theorem Filled.eq_full (h : Filled full blank list counter) (hcounter : counter = list.length) :
    list = full := by
  rw [h.length_eq] at hcounter
  rw [h.list_eq, hcounter]
  simp

/-- An item that `safe_description_update` would record is the next one of the device. -/
def NextItem (name : α → String) (full list : List α) (counter : Nat) (description : α) : Prop :=
  list.length ≤ counter ∨ (list.any fun x => name x = name description) ∨
    full[counter]? = some description

instance [DecidableEq α] : Decidable (NextItem name full list counter description) :=
  inferInstanceAs (Decidable (_ ∨ _ ∨ _))

theorem Filled.set (h : Filled full blank list counter) (hnext : full[counter]? = some description) :
    Filled full blank (list.set counter description) (counter + 1) := by
  obtain ⟨hlt, rfl⟩ := List.getElem?_eq_some_iff.mp hnext
  refine ⟨hlt, ?_⟩
  have htake : (full.take counter).length = counter := by
    rw [List.length_take]
    omega
  have hleft : full.length - counter = full.length - (counter + 1) + 1 := by omega
  rw [h.list_eq, List.set_append_right counter _ (Nat.le_of_eq htake), htake, Nat.sub_self, hleft,
    List.replicate_succ, List.set_cons_zero, List.take_succ_eq_append_getElem hlt,
    List.append_assoc, List.singleton_append]

theorem Filled.safeDescriptionUpdate (h : Filled full blank list counter)
    (hnext : NextItem name full list counter description) :
    Filled full blank (safeDescriptionUpdate name description list counter).1
      (safeDescriptionUpdate name description list counter).2 := by
  unfold Manager.safeDescriptionUpdate
  split
  · exact h
  · rename_i hfull
    split
    · exact h
    · rename_i hpresent
      exact h.set ((hnext.resolve_left hfull).resolve_left hpresent)

end Filled

/-! ## The node -/

/-- The node has no description yet, or that of the device with its lists filled up
to the counters. -/
def Described (device : Device) (node : DescribedNode) : Prop :=
  (node.description = {} ∧ node.counter = {}) ∨
  (node.description = { device.header with
      namedVariables := node.description.namedVariables
      localEvents := node.description.localEvents
      nativeFunctions := node.description.nativeFunctions } ∧
    Filled device.description.namedVariables ⟨"", 0⟩ node.description.namedVariables
      node.counter.variableCount ∧
    Filled device.description.localEvents {} node.description.localEvents node.counter.eventCount ∧
    Filled device.description.nativeFunctions {} node.description.nativeFunctions
      node.counter.functionCount)

section Node

variable {device : Device} {node : DescribedNode}

theorem Described.start (version : Nat) : Described device { protocolVersion := version } :=
  .inl ⟨rfl, rfl⟩

/-- A node that considers its description complete has the one of the device. -/
theorem Described.eq_description (h : Described device node) (hready : node.ready) :
    node.description = device.description := by
  simp only [DescribedNode.ready, decide_eq_true_eq] at hready
  obtain ⟨hname, hvariables, hevents, hfunctions⟩ := hready
  obtain ⟨hempty, -⟩ | ⟨hheader, hvs, hes, hfs⟩ := h
  · rw [hempty] at hname
    exact absurd rfl hname
  · rw [hheader, hvs.eq_full hvariables, hes.eq_full hevents, hfs.eq_full hfunctions]
    rfl

/-- What a reply of the device must be for the node to stay on course. -/
def ReplyInTurn (device : Device) (node : DescribedNode) : Reply → Prop
  | .nodePresent _ => True
  | .description _ => node.counter = {}
  | .item (.namedVariable v) => NextItem NamedVariable.name device.description.namedVariables
    node.description.namedVariables node.counter.variableCount v
  | .item (.localEvent e) => NextItem LocalEvent.name device.description.localEvents
    node.description.localEvents node.counter.eventCount e
  | .item (.nativeFunction f) => NextItem FunctionDescription.name
    device.description.nativeFunctions node.description.nativeFunctions
    node.counter.functionCount f

instance (device : Device) (node : DescribedNode) (m : Reply) :
    Decidable (ReplyInTurn device node m) :=
  match m with
  | .nodePresent _ => inferInstanceAs (Decidable True)
  | .description _ => inferInstanceAs (Decidable (node.counter = {}))
  | .item (.namedVariable _) => inferInstanceAs (Decidable (NextItem _ _ _ _ _))
  | .item (.localEvent _) => inferInstanceAs (Decidable (NextItem _ _ _ _ _))
  | .item (.nativeFunction _) => inferInstanceAs (Decidable (NextItem _ _ _ _ _))

theorem Described.update (h : Described device node) {m : Reply}
    (hdescription : ∀ d, m = .description d → d = device.blank)
    (hturn : ReplyInTurn device node m) : Described device (node.update m) := by
  cases m with
  | nodePresent version => exact h
  | description d =>
    obtain rfl := hdescription d rfl
    refine .inr ⟨rfl, ?_⟩
    simp only [DescribedNode.update, show node.counter = {} from hturn]
    exact ⟨.empty _ _, .empty _ _, .empty _ _⟩
  | item i =>
    obtain ⟨hempty, hcounter⟩ | ⟨hheader, hvs, hes, hfs⟩ := h
    · -- without a description there is no room for an item
      refine .inl ?_
      cases i <;> simp [DescribedNode.update, safeDescriptionUpdate, hempty, hcounter]
    · refine .inr ?_
      cases i with
      | namedVariable v =>
        refine ⟨?_, hvs.safeDescriptionUpdate hturn, hes, hfs⟩
        simp only [DescribedNode.update]
        rw [hheader]
      | localEvent e =>
        refine ⟨?_, hvs, hes.safeDescriptionUpdate hturn, hfs⟩
        simp only [DescribedNode.update]
        rw [hheader]
      | nativeFunction f =>
        refine ⟨?_, hvs, hes, hfs.safeDescriptionUpdate hturn⟩
        simp only [DescribedNode.update]
        rw [hheader]

end Node

/-! ## Runs of the exchange -/

/-- The node is on course, the replies are those of the device, and the node has
announced nothing but the description of the device. -/
structure OnCourse (device : Device) (s : Describing) : Prop where
  node : ∀ node, s.node = some node → Described device node
  replies : ∀ d, .description d ∈ s.replies → d = device.blank
  received : ∀ d ∈ s.received, d = device.description

/-- A `Description` reaches the node only while it has recorded no item, and an item
that it would record only after those before it in the list of the device. -/
def InTurn (device : Device) (s : Describing) : Describing.Event → Prop
  | .deliver m => match s.node with
    | some node => ReplyInTurn device node m
    | none => True
  | _ => True

instance (device : Device) (s : Describing) (e : Describing.Event) : Decidable (InTurn device s e) :=
  match e with
  | .deliver m =>
    match h : s.node with
    | some node => decidable_of_iff (ReplyInTurn device node m) (by simp [InTurn, h])
    | none => .isTrue (by simp [InTurn, h])
  | .ping => .isTrue trivial
  | .answer _ => .isTrue trivial
  | .resend => .isTrue trivial
  | .drop => .isTrue trivial

section Exchange

variable {device : Device} {s t : Describing} {node : DescribedNode}

theorem answer_description {r : Request} {d : VmDescription}
    (h : .description d ∈ device.answer r) : d = device.blank := by
  cases r with
  | listNodes => simp [Device.answer] at h
  | getDescription => simpa [Device.answer] using h
  | getNodeDescription => simpa [Device.answer] using h
  | getNodeDescriptionFragment fragment =>
    simp only [Device.answer] at h
    split at h
    · simpa using h
    · split at h <;> simp at h

/-- Asking for a fragment leaves the description and the counters alone. -/
theorem handleDescriptionMessages_eq (node : DescribedNode) (m : Reply) :
    (node.handleDescriptionMessages m).1.description = (node.update m).description ∧
      (node.handleDescriptionMessages m).1.counter = (node.update m).counter ∧
      (node.handleDescriptionMessages m).2.2 = (node.update m).ready := by
  unfold DescribedNode.handleDescriptionMessages
  dsimp only
  split
  · rename_i hready
    exact ⟨rfl, rfl, hready.symm⟩
  · rename_i hready
    have hfalse : (node.update m).ready = false := by simpa using hready
    split <;> exact ⟨rfl, rfl, hfalse.symm⟩

theorem getDescription_eq (node : DescribedNode) :
    node.getDescription.1.description = node.description ∧
      node.getDescription.1.counter = node.counter := by
  unfold DescribedNode.getDescription
  split <;> exact ⟨rfl, rfl⟩

theorem Described.congr {other : DescribedNode} (h : Described device node)
    (hdescription : other.description = node.description) (hcounter : other.counter = node.counter) :
    Described device other := by
  unfold Described
  rw [hdescription, hcounter]
  exact h

theorem OnCourse.handle (hs : OnCourse device s) (hnode : Described device node) {m : Reply}
    (hm : m ∈ s.replies) (hturn : ReplyInTurn device node m) :
    OnCourse device (s.handle node m) := by
  have hupdate : Described device (node.update m) := by
    refine hnode.update (fun d hd => ?_) hturn
    exact hs.replies d (hd ▸ hm)
  obtain ⟨hdescription, hcounter, hready⟩ := handleDescriptionMessages_eq node m
  refine ⟨?_, hs.replies, ?_⟩
  · intro new hnew
    cases hnew
    exact hupdate.congr hdescription hcounter
  · intro d hd
    simp only [Describing.handle, List.mem_append] at hd
    rcases hd with hd | hd
    · exact hs.received d hd
    · rw [hready, hdescription] at hd
      split at hd
      · rename_i hready
        rw [List.mem_singleton.mp hd]
        exact hupdate.eq_description hready
      · cases hd

theorem OnCourse.handleRead (hs : OnCourse device s) {m : Reply} (hm : m ∈ s.replies)
    (hturn : InTurn device s (.deliver m)) : OnCourse device (s.handleRead m) := by
  unfold Describing.handleRead
  cases hnode : s.node with
  | none =>
    cases m with
    | nodePresent version =>
      obtain ⟨hdescription, hcounter⟩ := getDescription_eq { protocolVersion := version }
      refine ⟨?_, hs.replies, hs.received⟩
      intro node hnew
      cases hnew
      exact (Described.start version).congr hdescription hcounter
    | description d => exact hs.handle (.start _) hm rfl
    | item i => exact hs
  | some node =>
    have hturn : ReplyInTurn device node m := by simpa [InTurn, hnode] using hturn
    cases m with
    | nodePresent version => exact hs
    | description d => exact hs.handle (hs.node node hnode) hm hturn
    | item i => exact hs.handle (hs.node node hnode) hm hturn

theorem OnCourse.step {e : Describing.Event} (hs : OnCourse device s) (hturn : InTurn device s e)
    (h : s.step device e = some t) : OnCourse device t := by
  cases e with
  | ping =>
    cases h
    exact ⟨hs.node, hs.replies, hs.received⟩
  | answer r =>
    simp only [Describing.step] at h
    split at h
    · cases h
      refine ⟨hs.node, ?_, hs.received⟩
      intro d hd
      rcases List.mem_append.mp hd with hd | hd
      · exact hs.replies d hd
      · exact answer_description hd
    · cases h
  | deliver m =>
    simp only [Describing.step] at h
    split at h
    · rename_i hm
      cases h
      exact hs.handleRead hm hturn
    · cases h
  | resend =>
    simp only [Describing.step] at h
    split at h
    · rename_i node hnode
      split at h
      · cases h
        refine ⟨?_, hs.replies, hs.received⟩
        intro new hnew
        cases hnew
        exact hs.node node hnode
      · cases h
    · cases h
  | drop =>
    simp only [Describing.step] at h
    split at h
    · cases h
      exact ⟨fun _ hnode => (nomatch hnode), hs.replies, hs.received⟩
    · cases h

end Exchange

/-- In every run in which the pieces arrive in turn, the node announces nothing but
the description of the device. -/
theorem description_received (device : Device) (usb : Bool) (events : List Describing.Event)
    (hturn : Transition.Along (Describing.step device) (fun _ s e => InTurn device s e) [] { usb }
      events) (s : Describing)
    (hrun : Transition.run (Describing.step device) { usb } events = some s) :
    ∀ d ∈ s.received, d = device.description := by
  have hs : OnCourse device s := by
    refine Transition.invariant (I := fun _ s => OnCourse device s) ?_ ?_ hturn hrun
    · intro past s e t hs hallowed h
      exact hs.step hallowed h
    · exact ⟨fun _ h => (nomatch h), fun _ h => (nomatch h), fun _ h => (nomatch h)⟩
  exact hs.received

/-- A device with one variable. -/
def oneVariable : Device where
  header := { name := "thymio-II", protocolVersion := 8 }
  enumeration := [.namedVariable ⟨"a", 1⟩]
  name_ne := by decide
  variables_nodup := by decide
  events_nodup := by decide
  functions_nodup := by decide
  variables_lt := by decide
  events_lt := by decide
  functions_lt := by decide

/-- The node asks for one fragment after the other, and each is answered once. -/
def askedInTurn : List Describing.Event :=
  [.ping, .answer .listNodes, .deliver (.nodePresent 8), .answer (.getNodeDescriptionFragment (-1)),
    .deliver (.description oneVariable.blank), .answer (.getNodeDescriptionFragment 0),
    .deliver (.item (.namedVariable ⟨"a", 1⟩))]

theorem askedInTurn_received :
    ∃ s, Transition.run (Describing.step oneVariable) {} askedInTurn = some s ∧
      s.received.length = 1 ∧ ∀ d ∈ s.received, d = oneVariable.description := by
  have hlength : (Transition.run (Describing.step oneVariable) {} askedInTurn).any
      (fun s => s.received.length = 1) = true := by decide
  cases hrun : Transition.run (Describing.step oneVariable) {} askedInTurn with
  | none => simp [hrun] at hlength
  | some s =>
    refine ⟨s, rfl, by simpa [hrun] using hlength, ?_⟩
    exact description_received oneVariable true askedInTurn (by decide) s hrun

/-- The answer to the `GetDescription` of the first ping comes late. -/
def describedAgain : List Describing.Event :=
  askedInTurn ++ [.answer .getDescription, .deliver (.description oneVariable.blank)]

theorem describedAgain_blank :
    ¬ ∀ (device : Device) (usb : Bool) (events : List Describing.Event) (s : Describing),
      Transition.run (Describing.step device) { usb } events = some s →
      ∀ d ∈ s.received, d = device.description := by
  intro h
  have hblank : (Transition.run (Describing.step oneVariable) {} describedAgain).any
      (fun s => decide (oneVariable.blank ∈ s.received)) = true := by decide
  cases hrun : Transition.run (Describing.step oneVariable) {} describedAgain with
  | none => simp [hrun] at hblank
  | some s =>
    have hmem : oneVariable.blank ∈ s.received := by simpa [hrun] using hblank
    have heq := h oneVariable true describedAgain s hrun _ hmem
    exact absurd heq (by decide)

end ThymioDeviceManager.Correctness
