import Arbor.Proofs.Node.Worded
import Arbor.Recorder

/-!
# What a recorder holds

A recorder is only changed by calls that record something. After any sequence of them it holds, category
by category, the records of the calls that belong there, numbered from one in the order of the calls
(`holds_after`). A step and the snapshot of the state at it are made by one call, so they have one
number and name one node, and the snapshot lists the bindings of that call (`inStep_of_holds`).
-/

namespace Arbor

open Text

namespace Recorder

/-! ## 1. Calls -/

/-- A step of either engine, with the state at it. -/
structure Step where
  engine : String
  nodeId : String
  op : String
  function : String
  pc : Int32
  span : Span
  env : Env
  callStack : List String
  stack : List Value
  locals : List Value

namespace Step

variable (s : Step) (number : Nat)

/-- The record of the step when it is the one of this number. -/
def record : Node :=
  stepNode ("dbg_step_" ++ natText number) s.engine s.nodeId s.op s.function s.pc s.span

/-- Texts of the state at the step, as one part of its snapshot. -/
def part (kind suffix : String) (values : List String) : Node :=
  textList kind ("dbg_snap_" ++ natText number ++ suffix) "Item" "_item_" values

/-- The snapshot of the state at the step when it is the one of this number. -/
def snapshot : Node where
  kind := "Snapshot"
  id := "dbg_snap_" ++ natText number
  attrs := attrs [("vm", .string s.engine), ("stepNodeId", .string s.nodeId)]
  children :=
    [part number "env" "_env" (s.env.entries.map fun (name, value) => name ++ "=" ++ value.render),
      part number "callStack" "_call" s.callStack,
      part number "stack" "_stack" (s.stack.map Value.render),
      part number "locals" "_locals" (s.locals.map Value.render)]

end Step

/-- The record of a capability call when it is the one of this number. -/
def syscallRecord (target : String) (args : List String) (result phase : String) (number : Nat) :
    Node :=
  { textList "Syscall" ("dbg_sys_" ++ natText number) "Arg" "_arg_" args with
    attrs := attrs [("target", .string target), ("result", .string result), ("phase", .string phase)] }

/-- The record of a lifecycle event when it is the one of this number. -/
def eventRecord (kind payload : String) (number : Nat) : Node where
  kind := "Event"
  id := "dbg_evt_" ++ natText number
  attrs := attrs [("kind", .string kind), ("payload", .string payload)]

/-- The record of a diagnostic when it is the one of this number. -/
def diagnosticRecord (code message nodeId : String) (number : Nat) : Node where
  kind := "Diagnostic"
  id := "dbg_diag_" ++ natText number
  attrs := attrs [("code", .string code), ("message", .string message), ("nodeId", .string nodeId)]

/-- A call that records something. -/
inductive Call where
  | astStep (n : Node) (env : Env) (callStack : List String)
  | machineStep (v : MachineView) (env : Env)
  | syscall (target : String) (args : List String) (result phase : String)
  | event (kind payload : String)
  | diagnostic (code message nodeId : String)

namespace Call

/-- What the call makes of a recorder. -/
def on (r : Recorder) : Call → Recorder
  | astStep n env callStack => r.recordAstStep n env callStack
  | machineStep v env => r.recordMachineStep v env
  | syscall target args result phase => r.recordSyscall target args result phase
  | event kind payload => r.recordEvent kind payload
  | diagnostic code message nodeId => r.recordDiagnostic code message nodeId

/-- The step that the call records. -/
def step? : Call → Option Step
  | astStep n env callStack =>
    some ⟨"ast", n.id, n.kind, callStack.getLast?.getD "", -1, n.span, env, callStack, [], []⟩
  | machineStep v env =>
    some ⟨"bytecode", v.function, v.mnemonic, v.function, saturateCount v.pc, .nowhere, env, v.frames,
      v.stack, v.locals⟩
  | _ => none

/-- The record of the capability call that the call records. -/
def syscall? : Call → Option (Nat → Node)
  | syscall target args result phase => some (syscallRecord target args result phase)
  | _ => none

/-- The record of the event that the call records. -/
def event? : Call → Option (Nat → Node)
  | event kind payload => some (eventRecord kind payload)
  | _ => none

/-- The record of the diagnostic that the call records. -/
def diagnostic? : Call → Option (Nat → Node)
  | diagnostic code message nodeId => some (diagnosticRecord code message nodeId)
  | _ => none

end Call

/-- The recorder after a sequence of calls. -/
def after (r : Recorder) (calls : List Call) : Recorder := calls.foldl Call.on r

/-- The steps that a sequence of calls records, in order. -/
def stepsOf (calls : List Call) : List Step := calls.filterMap Call.step?

/-! ## 2. What is held -/

/-- Records numbered from one, in order. -/
def numbered (records : List (Nat → Node)) : List Node := records.mapIdx fun i record => record (i + 1)

/-- The recorder holds the records of the calls, and no others. -/
structure Holds (r : Recorder) (calls : List Call) : Prop where
  steps : r.steps.toList = numbered ((stepsOf calls).map Step.record)
  snapshots : r.snapshots.toList = numbered ((stepsOf calls).map Step.snapshot)
  syscalls : r.syscalls.toList = numbered (calls.filterMap Call.syscall?)
  events : r.events.toList = numbered (calls.filterMap Call.event?)
  diagnostics : r.diagnostics.toList = numbered (calls.filterMap Call.diagnostic?)

/-- One call adds to a category the record that it makes there, with the number behind the counter. -/
def Adds (records : Recorder → Array Node) (counter : Counters → Nat)
    (made : Call → Option (Nat → Node)) : Prop :=
  ∀ r c, records (Call.on r c) =
    match made c with
    | some record => (records r).push (record (counter r.counters + 1))
    | none => records r

theorem adds_steps : Adds steps Counters.step fun c => c.step?.map Step.record := by
  intro r c
  cases c <;> rfl

theorem adds_snapshots : Adds snapshots Counters.snapshot fun c => c.step?.map Step.snapshot := by
  intro r c
  cases c <;> rfl

theorem adds_syscalls : Adds syscalls Counters.syscall Call.syscall? := by
  intro r c
  cases c <;> rfl

theorem adds_events : Adds events Counters.event Call.event? := by
  intro r c
  cases c <;> rfl

theorem adds_diagnostics : Adds diagnostics Counters.diagnostic Call.diagnostic? := by
  intro r c
  cases c <;> rfl

/-- So a category that was empty holds the records that the calls make there, numbered in order. -/
theorem Adds.toList_after {records : Recorder → Array Node} {counter : Counters → Nat}
    {made : Call → Option (Nat → Node)} (h : Adds records counter made)
    (hcounts : ∀ r, counter r.counters = (records r).size) {r : Recorder} (hr : records r = #[])
    (calls : List Call) : (records (r.after calls)).toList = numbered (calls.filterMap made) := by
  -- the last call finds the category with the records of the calls before it, and their number as counter
  induction calls using List.reverseRecOn with
  | nil =>
    show (records r).toList = []
    rw [hr]
  | append_singleton calls c ih =>
    have hstep : r.after (calls ++ [c]) = Call.on (r.after calls) c := List.foldl_concat ..
    rw [hstep, h, List.filterMap_append, List.filterMap_cons, List.filterMap_nil]
    cases made c with
    | none =>
      dsimp only
      rw [List.append_nil, ih]
    | some record =>
      have hcounter : counter (r.after calls).counters = (calls.filterMap made).length := by
        rw [hcounts, ← Array.length_toList, ih, numbered, List.length_mapIdx]
      dsimp only
      rw [Array.toList_push, ih, hcounter]
      exact List.mapIdx_concat.symm

/-- After any sequence of calls a new recorder holds their records. -/
theorem holds_after (runId : String) (calls : List Call) : ((new runId).after calls).Holds calls where
  steps := by
    rw [adds_steps.toList_after (fun r => r.counts.step) rfl, stepsOf, List.map_filterMap]
  snapshots := by
    rw [adds_snapshots.toList_after (fun r => r.counts.snapshot) rfl, stepsOf, List.map_filterMap]
  syscalls := adds_syscalls.toList_after (fun r => r.counts.syscall) rfl calls
  events := adds_events.toList_after (fun r => r.counts.event) rfl calls
  diagnostics := adds_diagnostics.toList_after (fun r => r.counts.diagnostic) rfl calls

theorem runId_after (r : Recorder) (calls : List Call) : (r.after calls).runId = r.runId := by
  induction calls generalizing r with
  | nil => rfl
  | cons c calls ih =>
    have hcall : (Call.on r c).runId = r.runId := by cases c <;> rfl
    exact (ih (Call.on r c)).trans hcall

/-! ## 3. Steps and snapshots -/

/-- The node holds a text for each binding, once, in the order of the names. -/
def Lists (n : Node) (env : Env) : Prop :=
  ∃ names : List String, names.Pairwise (· < ·) ∧ (∀ name, name ∈ names ↔ env.contains name) ∧
    n.children.map (·.attr? "value") =
      names.map fun name => (env.find? name).map fun value => .string (name ++ "=" ++ value.render)

/-- Steps and snapshots go together, and each category is numbered. -/
structure InStep (r : Recorder) (calls : List Call) : Prop where
  size : r.snapshots.size = r.steps.size
  paired : ∀ (i : Nat) (step : Node), r.steps[i]? = some step →
    step.id = "dbg_step_" ++ natText (i + 1) ∧
      ∃ (snapshot : Node) (nodeId : String), r.snapshots[i]? = some snapshot ∧
        snapshot.id = "dbg_snap_" ++ natText (i + 1) ∧
        step.attr? "nodeId" = some (.string nodeId) ∧
        snapshot.attr? "stepNodeId" = some (.string nodeId)
  bindings : ∀ (i : Nat) (snapshot : Node), r.snapshots[i]? = some snapshot →
    ∃ (s : Step) (items : Node) (others : List Node), (stepsOf calls)[i]? = some s ∧
      snapshot.children = items :: others ∧ items.kind = "env" ∧ Lists items s.env
  syscalls : ∀ (i : Nat) (n : Node), r.syscalls[i]? = some n →
    n.id = "dbg_sys_" ++ natText (i + 1)
  events : ∀ (i : Nat) (n : Node), r.events[i]? = some n → n.id = "dbg_evt_" ++ natText (i + 1)
  diagnostics : ∀ (i : Nat) (n : Node), r.diagnostics[i]? = some n →
    n.id = "dbg_diag_" ++ natText (i + 1)

theorem getElem?_numbered (records : List (Nat → Node)) (i : Nat) :
    (numbered records)[i]? = records[i]?.map fun record => record (i + 1) := List.getElem?_mapIdx

/-- A record of a category is one that a call makes, with its place for a number. -/
theorem exists_of_getElem? {records : Array Node} {made : List (Nat → Node)}
    (h : records.toList = numbered made) {i : Nat} {n : Node} (hn : records[i]? = some n) :
    ∃ record, made[i]? = some record ∧ record (i + 1) = n := by
  rw [← Array.getElem?_toList, h, getElem?_numbered] at hn
  exact Option.map_eq_some_iff.mp hn

theorem map_value_textList (kind id itemKind itemStem : String) (values : List String) :
    (textList kind id itemKind itemStem values).children.map (·.attr? "value") =
      values.map fun text => some (.string text) := by
  have hitem (text : String) :
      (attrs [("value", AttrValue.string text)]).find? "value" = some (.string text) := rfl
  refine List.ext_getElem? fun i => ?_
  unfold textList Node.attr?
  rw [List.getElem?_map, List.getElem?_mapIdx, List.getElem?_map, Option.map_map]
  simp only [Function.comp_def, hitem]

/-- The first part of a snapshot lists the bindings at the step. -/
theorem lists_part (number : Nat) (env : Env) :
    Lists (Step.part number "env" "_env"
      (env.entries.map fun (name, value) => name ++ "=" ++ value.render)) env := by
  refine ⟨env.entries.map Prod.fst, List.pairwise_map.mpr env.sorted, fun name => ?_, ?_⟩
  · unfold Dict.contains
    constructor
    · intro hname
      obtain ⟨⟨_, value⟩, hmem, rfl⟩ := List.mem_map.mp hname
      rw [Dict.find?_eq_some_iff.mpr hmem]
      rfl
    · intro hname
      obtain ⟨value, hvalue⟩ := Option.isSome_iff_exists.mp hname
      exact List.mem_map_of_mem (f := Prod.fst) (Dict.find?_eq_some_iff.mp hvalue)
  · unfold Step.part
    rw [map_value_textList, List.map_map, List.map_map]
    refine List.map_congr_left fun e he => ?_
    have hvalue : env.find? e.1 = some e.2 := Dict.find?_eq_some_iff.mpr he
    rw [Function.comp_apply, Function.comp_apply, hvalue]
    rfl

theorem attr?_nodeId_record (s : Step) (number : Nat) :
    (s.record number).attr? "nodeId" = some (.string s.nodeId) := by
  rw [attr?_attrs (n := s.record number) rfl (by simp)]
  rfl

theorem attr?_stepNodeId_snapshot (s : Step) (number : Nat) :
    (s.snapshot number).attr? "stepNodeId" = some (.string s.nodeId) := by
  rw [attr?_attrs (n := s.snapshot number) rfl (by simp)]
  rfl

/-- What the records of a category have for an id, whatever they record. -/
theorem id_of_getElem? {records : Array Node} {made : List (Nat → Node)} {stem : String}
    (h : records.toList = numbered made) (hmade : ∀ record ∈ made, ∀ number,
      (record number).id = stem ++ natText number) (i : Nat) (n : Node)
    (hn : records[i]? = some n) : n.id = stem ++ natText (i + 1) := by
  obtain ⟨record, hrecord, rfl⟩ := exists_of_getElem? h hn
  exact hmade record (List.mem_of_getElem? hrecord) (i + 1)

theorem id_of_syscall? {c : Call} {record : Nat → Node} (h : c.syscall? = some record)
    (number : Nat) : (record number).id = "dbg_sys_" ++ natText number := by
  cases c <;> cases h
  rfl

theorem id_of_event? {c : Call} {record : Nat → Node} (h : c.event? = some record)
    (number : Nat) : (record number).id = "dbg_evt_" ++ natText number := by
  cases c <;> cases h
  rfl

theorem id_of_diagnostic? {c : Call} {record : Nat → Node} (h : c.diagnostic? = some record)
    (number : Nat) : (record number).id = "dbg_diag_" ++ natText number := by
  cases c <;> cases h
  rfl

theorem inStep_of_holds {r : Recorder} {calls : List Call} (h : r.Holds calls) : r.InStep calls where
  size := by
    rw [← Array.length_toList, ← Array.length_toList, h.steps, h.snapshots, numbered, numbered]
    simp
  paired i step hstep := by
    obtain ⟨record, hrecord, rfl⟩ := exists_of_getElem? h.steps hstep
    rw [List.getElem?_map] at hrecord
    obtain ⟨s, hs, rfl⟩ := Option.map_eq_some_iff.mp hrecord
    have hsnapshot : r.snapshots[i]? = some (s.snapshot (i + 1)) := by
      rw [← Array.getElem?_toList, h.snapshots, getElem?_numbered, List.getElem?_map, hs]
      rfl
    exact ⟨rfl, _, s.nodeId, hsnapshot, rfl, attr?_nodeId_record s _, attr?_stepNodeId_snapshot s _⟩
  bindings i snapshot hsnapshot := by
    obtain ⟨record, hrecord, rfl⟩ := exists_of_getElem? h.snapshots hsnapshot
    rw [List.getElem?_map] at hrecord
    obtain ⟨s, hs, rfl⟩ := Option.map_eq_some_iff.mp hrecord
    exact ⟨s, _, _, hs, rfl, rfl, lists_part (i + 1) s.env⟩
  syscalls := id_of_getElem? h.syscalls fun record hrecord => by
    obtain ⟨c, -, hc⟩ := List.mem_filterMap.mp hrecord
    exact id_of_syscall? hc
  events := id_of_getElem? h.events fun record hrecord => by
    obtain ⟨c, -, hc⟩ := List.mem_filterMap.mp hrecord
    exact id_of_event? hc
  diagnostics := id_of_getElem? h.diagnostics fun record hrecord => by
    obtain ⟨c, -, hc⟩ := List.mem_filterMap.mp hrecord
    exact id_of_diagnostic? hc

end Recorder

end Arbor
