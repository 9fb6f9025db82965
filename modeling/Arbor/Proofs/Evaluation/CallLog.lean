import Arbor.Proofs.Evaluation.Audit

/-!
# The record of calls

Behind a run the recorder has the record of every call of a capability that ended in the run, one each
and in the order in which the calls ended, and no other: `syscalls_of_perform`. There is one exception.
A call of `compiler.run` that ends with a fault is not recorded, as the fault leaves it before the record
is made; that of a capability which the host serves is (`not_syscalls_of_all`).
-/

namespace Arbor

variable {σ : Type}

namespace Attempt

variable (a : Attempt)

/-- The record of the call when it is the one of this number. -/
def record (number : Nat) : Node where
  kind := "Syscall"
  id := "dbg_sys_" ++ Text.natText number
  attrs := attrs
    [("target", .string a.contract.target), ("result", .string a.result.render),
      ("phase", .string a.phase.name)]
  children := a.shownArgs.mapIdx fun i v =>
    { kind := "Arg", id := "dbg_sys_" ++ Text.natText number ++ "_arg_" ++ Text.natText i
      attrs := attrs [("value", .string v.render)] }

/-- The records of the calls, the first of this number. -/
def records (number : Nat) (calls : List Attempt) : List Node :=
  calls.mapIdx fun i a => a.record (number + i)

/-- What the recorder adds for the call is its record. -/
theorem syscalls_recordSyscall (r : Recorder) :
    (r.recordSyscall a.contract.target (a.shownArgs.map Value.render) a.result.render
      a.phase.name).syscalls = r.syscalls.push (a.record (r.syscalls.size + 1)) := by
  have hargs (f : Nat → String → Node) :
      (a.shownArgs.map Value.render).mapIdx f = a.shownArgs.mapIdx fun i v => f i v.render :=
    List.ext_getElem (by simp) fun i _ _ => by simp
  unfold Recorder.recordSyscall Recorder.textList record
  dsimp only
  rw [hargs, r.counts.syscall]
  rfl

theorem records_concat (number : Nat) (calls : List Attempt) :
    records number (calls ++ [a]) = records number calls ++ [a.record (number + calls.length)] :=
  List.mapIdx_concat

end Attempt

/-- Behind the records `log` there are those of the calls noted, and no others. -/
def Logs (log : List Node) (t : Activation (Annotated (List Attempt) σ)) : Prop :=
  ∃ r, t.session.recorder? = some r ∧
    r.syscalls.toList = log ++ Attempt.records (log.length + 1) (t.notes.filter Attempt.isRecorded)

theorem accounted_logs (log : List Node) : Accounted (Logs log (σ := σ)) where
  of_eq := by
    rintro t u ⟨r, hr, hlog⟩ hsyscalls - hnotes
    rw [hr, Option.map_some, Option.map_eq_some_iff] at hsyscalls
    obtain ⟨r', hr', hsame⟩ := hsyscalls
    exact ⟨r', hr', by rw [hsame, hnotes, hlog]⟩
  settled := by
    rintro t u a ⟨r, hr, hlog⟩ hsettles
    have hrecorder := hsettles.recorder
    rw [hr, Option.map_some] at hrecorder
    unfold Logs
    rw [hsettles.notes_concat, List.filter_append]
    cases hrecorded : a.isRecorded with
    | false =>
      rw [hrecorded] at hrecorder
      refine ⟨r, hrecorder, ?_⟩
      rw [hlog, List.filter_singleton, hrecorded]
      exact congrArg (log ++ Attempt.records _ ·) (List.append_nil _).symm
    | true =>
      rw [hrecorded, if_pos rfl] at hrecorder
      refine ⟨_, hrecorder, ?_⟩
      have hsize : r.syscalls.size + 1 =
          log.length + 1 + (t.notes.filter Attempt.isRecorded).length := by
        have hlength := congrArg List.length hlog
        rw [Array.length_toList, List.length_append, Attempt.records, List.length_mapIdx] at hlength
        omega
      rw [Attempt.syscalls_recordSyscall, Array.toList_push, hlog, hsize, List.filter_singleton,
        hrecorded]
      show _ = log ++ Attempt.records _ (_ ++ [a])
      rw [Attempt.records_concat, List.append_assoc]

/-- Every call of a capability that ends in a run leaves exactly one record, which tells of its target,
its arguments, its result and of what became of it, and nothing else leaves one; but a call of
`compiler.run` that ends with a fault leaves none. -/
theorem syscalls_of_perform [Host σ] (run : Run) (fuel : Nat) (s : Session σ) {r : Recorder}
    (hr : s.recorder? = some r) :
    (run.audited fuel s []).1 = run.perform fuel s ∧
      ∃ r', (run.perform fuel s).2.2.recorder? = some r' ∧
        r'.syscalls.toList = r.syscalls.toList ++
          Attempt.records (r.syscalls.size + 1)
            ((run.audited fuel s []).2.filter Attempt.isRecorded) := by
  have haudited := run.audited_eq_perform fuel s []
  refine ⟨haudited, ?_⟩
  have hstart : Logs r.syscalls.toList ⟨s.annotated [], run.frames⟩ :=
    ⟨r, hr, (List.append_nil _).symm⟩
  obtain ⟨r', hr', hlog⟩ := (accounted_logs r.syscalls.toList).ran run fuel _ hstart
  refine ⟨r', ?_, ?_⟩
  · rw [← haudited]
    exact hr'
  · rw [hlog, Array.length_toList]
    rfl

/-- A program that binds a name, adds up two numbers and calls a capability without its permission. -/
def tallying : Node where
  kind := "Program"
  id := "p"
  children :=
    [{ kind := "Let", id := "l", attrs := attrs [("name", .identifier "x")], children := [number "v" 1] },
      { kind := "Call", id := "c", attrs := attrs [("target", .identifier "math.add")]
        children := [number "a" 1, number "b" 2] },
      { kind := "Call", id := "d", attrs := attrs [("target", .identifier "console.print")]
        children := [number "e" 3] }]
where
  number (id : String) (n : Int32) : Node :=
    { kind := "Lit", id := id, attrs := attrs [("value", .int n)] }

/-- A session that may run programs and records them, with names that a `Let` may not bind. -/
def recording (readOnly : List String) : Session LocalHost :=
  { Session.fresh "" with
    permissions := defaultPermissions ["compiler"], readOnly, recorder? := some (.new "r") }

theorem syscalls_of_perform_tallying :
    let run := Run.callCapability "compiler.run" [.node tallying]
    let calls := (run.audited 9 (recording []) []).2
    (recording []).recorder? = some (.new "r") ∧
      calls.map (fun a => (a.contract.target, a.phase.name)) =
        [("math.add", "ok"), ("console.print", "denied"), ("compiler.run", "ok")] ∧
      ∃ r, (run.perform 9 (recording [])).2.2.recorder? = some r ∧
        r.syscalls.toList = Attempt.records 1 calls := by
  intro run calls
  have hrecorder : (recording []).recorder? = some (.new "r") := rfl
  obtain ⟨-, r, hr, hlog⟩ := syscalls_of_perform run 9 (recording []) hrecorder
  refine ⟨hrecorder, by decide +kernel, r, hr, hlog.trans ?_⟩
  have hall : calls.filter Attempt.isRecorded = calls := by
    rw [List.filter_eq_self]
    decide +kernel
  show [] ++ Attempt.records 1 (calls.filter Attempt.isRecorded) = _
  rw [hall, List.nil_append]

/-- Has the call come to a value or a fault? Else the host has ended the run in it. -/
def Attempt.hasOutcome (a : Attempt) : Bool :=
  match a.ending with
  | .ok _ | .error (.fault _) => true
  | .error _ => false

/-- Not every call that has an outcome is recorded: `compiler.run` fails here, since a `Let` may not bind
the name, and there is no record. -/
theorem not_syscalls_of_all :
    ¬∀ (run : Run) (fuel : Nat) (s : Session LocalHost) (r : Recorder), s.recorder? = some r →
      ∃ r', (run.perform fuel s).2.2.recorder? = some r' ∧
        r'.syscalls.toList = r.syscalls.toList ++
          Attempt.records (r.syscalls.size + 1)
            ((run.audited fuel s []).2.filter Attempt.hasOutcome) := by
  intro hall
  let run := Run.callCapability "compiler.run" [.node tallying]
  obtain ⟨r, hr, hlog⟩ := hall run 9 (recording ["x"]) (.new "r") rfl
  have hnone : (run.perform 9 (recording ["x"])).2.2.recorder?.map (·.syscalls.toList.length) =
      some 0 := by
    decide +kernel
  have hone : ((run.audited 9 (recording ["x"]) []).2.filter Attempt.hasOutcome).length = 1 := by
    decide +kernel
  rw [hr, Option.map_some, hlog] at hnone
  simp [Attempt.records, hone] at hnone

end Arbor
