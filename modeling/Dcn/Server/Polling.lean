import Dcn.Net.Writing
import Dcn.Server.Effects
import Mathlib.Data.Fintype.Basic

/-! The interest of one connection while workers answer it: the EPOLLOUT branch
of run_server and dcn_async_worker, step by step.

A worker pushes its answer and then asks for output; the event loop pops the
last block and then asks for input. Each looks at nothing between its two
steps, so the later of the two calls decides what the connection is polled for.
change_climod succeeds.
-/

set_option autoImplicit false

namespace Dcn

inductive LoopPc where
  | waiting
  | testing
  | peeking
  | writing (block : Block)
  | popping
  | switching
  deriving DecidableEq, Repr

inductive AnsweringPc where
  | outside
  | push (answer : Block)
  | switch
  deriving DecidableEq, Repr

structure Polling (ω : Type) where
  client : Client
  loop : LoopPc
  worker : ω → AnsweringPc

/-- A worker begins to answer, it takes its next step, or the event loop does;
`aw` is what a write returns. -/
inductive PollingEvent (ω : Type) where
  | answer (t : ω) (block : Block)
  | work (t : ω)
  | loop (aw : WriteResult)
  deriving DecidableEq, Repr

namespace Polling

variable {ω : Type} [DecidableEq ω]

def init (ω : Type) (fd : Int) (ip : String) (port : UInt16) : Polling ω :=
  ⟨acceptClient fd ip port, .waiting, fun _ => .outside⟩

def work (s : Polling ω) (t : ω) : Polling ω :=
  match s.worker t with
  | .outside => s
  | .push answer => { s with
      client := { s.client with writeQ := pushBlock s.client.writeQ answer }
      worker := Function.update s.worker t .switch }
  | .switch => { s with
      client := { s.client with mode := .output }
      worker := Function.update s.worker t .outside }

def advance (s : Polling ω) (aw : WriteResult) : Polling ω :=
  match s.loop with
  -- EPOLLOUT is reported only while it is asked for.
  | .waiting => if s.client.mode = .output then { s with loop := .testing } else s
  | .testing => { s with loop := if queueEmpty s.client.writeQ then .waiting else .peeking }
  | .peeking =>
    match peekBlock s.client.writeQ with
    | some block => { s with loop := .writing block }
    | none => { s with loop := .waiting }
  | .writing _ =>
    let (ret, offset) := sfullWrite s.client.alrWritten aw
    if ret = 0 then { s with client := { s.client with alrWritten := 0 }, loop := .popping }
    else { s with client := { s.client with alrWritten := offset }, loop := .waiting }
  | .popping =>
    let (code, _, queue) := popBlock s.client.writeQ
    { s with
      client := { s.client with writeQ := queue }
      loop := if code = 2 then .switching else .waiting }
  | .switching => { s with client := { s.client with mode := .input }, loop := .waiting }

def step (s : Polling ω) : PollingEvent ω → Polling ω
  | .answer t block =>
    if s.worker t = .outside then { s with worker := Function.update s.worker t (.push block) } else s
  | .work t => s.work t
  | .loop aw => s.advance aw

/-- With no worker run and no branch in progress, the connection is polled for
input when it has nothing to write and for output when it has. -/
def Agrees (s : Polling ω) : Prop :=
  (∀ t, s.worker t = .outside) → s.loop = .waiting →
    (s.client.writeQ.blocks = [] → s.client.mode = .input) ∧
      (s.client.writeQ.blocks ≠ [] → s.client.mode = .output)

/-- The loop asks for input when nothing is left to write, or a worker will
ask for output after it; the last worker to ask for output finds something to
write, or the loop will ask for input after it. -/
def Timely (s : Polling ω) : PollingEvent ω → Prop
  | .answer _ _ => True
  | .work t => s.worker t = .switch → (∀ u, s.worker u = .switch → u = t) → s.loop ≠ .switching →
      s.client.writeQ.blocks ≠ []
  | .loop _ => s.loop = .switching → (∀ t, s.worker t ≠ .switch) → s.client.writeQ.blocks = []

instance [Fintype ω] (s : Polling ω) : DecidablePred s.Timely
  | .answer _ _ => .isTrue trivial
  | .work t => inferInstanceAs (Decidable (s.worker t = .switch → (∀ u, s.worker u = .switch → u = t) →
      s.loop ≠ .switching → s.client.writeQ.blocks ≠ []))
  | .loop _ => inferInstanceAs (Decidable (s.loop = .switching → (∀ t, s.worker t ≠ .switch) →
      s.client.writeQ.blocks = []))

def Settled (s : Polling ω) : Prop :=
  (∀ t, s.worker t ≠ .switch) → s.loop ≠ .switching → (s.client.mode = .output ↔ s.client.writeQ.blocks ≠ [])

/-- Within the branch the connection is polled for output, and past the test
there is a block: only the loop asks for input and only the loop pops. -/
def Engaged (s : Polling ω) : Prop :=
  match s.loop with
  | .waiting | .switching => True
  | .testing => s.client.mode = .output
  | .peeking | .writing _ | .popping => s.client.mode = .output ∧ s.client.writeQ.blocks ≠ []

section Steps

variable {s : Polling ω}

theorem engaged_work (engaged : s.Engaged) (t : ω) : (s.work t).Engaged := by
  unfold work
  cases s.worker t with
  | outside => exact engaged
  | push answer =>
    -- A push leaves the queue with a block whatever it was.
    unfold Engaged at engaged ⊢
    cases loop : s.loop <;> simp_all
  | switch =>
    unfold Engaged at engaged ⊢
    cases loop : s.loop <;> simp_all

omit [DecidableEq ω] in
theorem engaged_advance (engaged : s.Engaged) (aw : WriteResult) : (s.advance aw).Engaged := by
  unfold Engaged at engaged
  cases loop : s.loop with
  | waiting =>
    simp only [advance, loop]
    split
    · next output => exact output
    · simp only [Engaged, loop]
  | testing =>
    simp only [loop] at engaged
    simp only [advance, loop]
    cases empty : queueEmpty s.client.writeQ with
    | true => trivial
    | false =>
      refine ⟨engaged, fun drained => ?_⟩
      rw [queueEmpty_iff.mpr drained] at empty
      cases empty
  | peeking =>
    simp only [loop] at engaged
    simp only [advance, loop]
    split
    · exact engaged
    · trivial
  | writing block =>
    simp only [loop] at engaged
    simp only [advance, loop]
    split
    · exact engaged
    · trivial
  | popping =>
    simp only [advance, loop]
    by_cases last : (popBlock s.client.writeQ).1 = 2
    · simp only [last, ↓reduceIte]
      trivial
    · simp only [last, ↓reduceIte]
      trivial
  | switching =>
    simp only [advance, loop]
    trivial

theorem engaged_step (s : Polling ω) (e : PollingEvent ω) (engaged : s.Engaged) : (s.step e).Engaged := by
  cases e with
  | answer t block =>
    simp only [step]
    split <;> exact engaged
  | work t => exact engaged_work engaged t
  | loop aw => exact engaged_advance engaged aw

theorem settled_work (settled : s.Settled) (t : ω) : (s.work t).Settled ↔ s.Timely (.work t) := by
  cases pc : s.worker t with
  | outside =>
    refine iff_of_true ?_ fun switch => by simp [pc] at switch
    simpa only [work, pc] using settled
  | push answer =>
    refine iff_of_true (fun nobody => ?_) fun switch => by simp [pc] at switch
    -- The worker is now to ask for output itself.
    simp only [work, pc] at nobody
    exact absurd (Function.update_self t _ s.worker) (nobody t)
  | switch =>
    have others : (∀ u, (s.work t).worker u ≠ .switch) ↔ ∀ u, s.worker u = .switch → u = t := by
      simp only [work, pc]
      refine ⟨fun nobody u switch => ?_, fun only u switch => ?_⟩
      · by_contra other
        exact nobody u (by rwa [Function.update_of_ne other])
      · by_cases same : u = t
        · rw [same, Function.update_self] at switch
          cases switch
        · rw [Function.update_of_ne same] at switch
          exact same (only u switch)
    simp only [Settled, others]
    simp [work, pc, Timely]

omit [DecidableEq ω] in
theorem settled_advance (engaged : s.Engaged) (settled : s.Settled) (aw : WriteResult) :
    (s.advance aw).Settled ↔ s.Timely (.loop aw) := by
  unfold Engaged at engaged
  -- Short of its last step the loop leaves the interest alone.
  have early : s.loop ≠ .switching → s.Timely (.loop aw) := fun differ switching => absurd switching differ
  unfold Settled at settled
  cases loop : s.loop with
  | waiting =>
    refine iff_of_true ?_ (early (by simp [loop]))
    simp only [advance, loop]
    split
    · exact fun nobody _ => settled nobody (by simp [loop])
    · exact settled
  | testing =>
    refine iff_of_true ?_ (early (by simp [loop]))
    simp only [advance, loop]
    exact fun nobody _ => settled nobody (by simp [loop])
  | peeking =>
    refine iff_of_true ?_ (early (by simp [loop]))
    simp only [advance, loop]
    split <;> exact fun nobody _ => settled nobody (by simp [loop])
  | writing block =>
    refine iff_of_true ?_ (early (by simp [loop]))
    simp only [advance, loop]
    split <;> exact fun nobody _ => settled nobody (by simp [loop])
  | popping =>
    refine iff_of_true ?_ (early (by simp [loop]))
    simp only [loop] at engaged
    obtain ⟨output, waits⟩ := engaged
    obtain ⟨block, rest, shape⟩ := List.exists_cons_of_ne_nil waits
    simp only [advance, loop, popBlock_cons shape]
    intro _ still
    by_cases last : rest = []
    · simp [last] at still
    · exact iff_of_true output last
  | switching =>
    simp [advance, loop, Settled, Timely]

theorem settled_step (s : Polling ω) (e : PollingEvent ω) (engaged : s.Engaged) (settled : s.Settled) :
    (s.step e).Settled ↔ s.Timely e := by
  cases e with
  | answer t block =>
    refine iff_of_true ?_ trivial
    simp only [step]
    split
    · next outside =>
      refine fun nobody => settled fun u switch => nobody u ?_
      have other : u ≠ t := by
        rintro rfl
        simp [outside] at switch
      simpa only [Function.update_of_ne other] using switch
    · exact settled
  | work t => exact settled_work settled t
  | loop aw => exact settled_advance engaged settled aw

end Steps

section Uninterrupted

/-- The branch without a worker in between is the branch as one step. -/
theorem run_branch (s : Polling ω) (aw : WriteResult) (reported : s.loop = .testing) :
    ∃ n, Runs.run step s (List.replicate n (.loop aw)) =
      { s with client := (runServerEpollout s.client aw true).1, loop := .waiting } := by
  cases shape : s.client.writeQ.blocks with
  | nil =>
    refine ⟨1, ?_⟩
    have empty : queueEmpty s.client.writeQ = true := queueEmpty_iff.mpr shape
    have outbox : (⟨s.client.writeQ, s.client.alrWritten⟩ : Outbox).queue.blocks = [] := shape
    have branch := @Writing.drain_empty sfullWrite _ outbox aw
    simp [step, advance, reported, empty, runServerEpollout, branch]
  | cons block rest =>
    have full : queueEmpty s.client.writeQ = false := by
      simp [queueEmpty, shape]
    have outbox : (⟨s.client.writeQ, s.client.alrWritten⟩ : Outbox).queue.blocks = block :: rest := shape
    by_cases success : (sfullWrite s.client.alrWritten aw).1 = 0
    · have branch := Writing.drain_popped outbox success
      by_cases last : rest = []
      · refine ⟨5, ?_⟩
        simp [step, advance, reported, full, peekBlock_cons shape, success, popBlock_cons shape, last,
          runServerEpollout, branch]
      · refine ⟨4, ?_⟩
        simp [step, advance, reported, full, peekBlock_cons shape, success, popBlock_cons shape, last,
          runServerEpollout, branch]
    · refine ⟨3, ?_⟩
      have branch := Writing.drain_kept outbox success
      simp [step, advance, reported, full, peekBlock_cons shape, success, runServerEpollout, branch]

theorem run_answer (s : Polling ω) (t : ω) (cli : Conn) (pack : Packet) (free : s.worker t = .outside) :
    (Runs.run step s [.answer t (packetSerial pack), .work t, .work t]).client =
      [Effect.push cli pack, .changeClimod cli .output].foldl (Effect.apply (fun _ => true) cli) s.client := by
  simp [step, work, free, Effect.apply]

end Uninterrupted

section Runs

variable (fd : Int) (ip : String) (port : UInt16)

theorem settled_iff (events : List (PollingEvent ω)) :
    Runs.Throughout step Settled (init ω fd ip port) events ↔
      Runs.Along step Timely (init ω fd ip port) events := by
  have start : (init ω fd ip port).Settled := fun _ _ => by simp [init, acceptClient]
  exact Runs.throughout_iff_along_all Engaged engaged_step settled_step trivial start

omit [DecidableEq ω] in
theorem Settled.agrees {s : Polling ω} (settled : s.Settled) : s.Agrees := by
  intro quiet waiting
  have polled := settled (fun t => by simp [quiet t]) (by simp [waiting])
  refine ⟨fun empty => ?_, polled.mpr⟩
  cases mode : s.client.mode with
  | input => rfl
  | output => exact absurd empty (polled.mp mode)

/-- Where every call of change_climod is timely, the connection is polled for
what it needs whenever nothing is in progress. -/
theorem agrees_of_timely (events : List (PollingEvent ω))
    (timely : Runs.Along step Timely (init ω fd ip port) events) :
    Runs.Throughout step Agrees (init ω fd ip port) events :=
  ((settled_iff fd ip port events).mpr timely).mono fun _ settled => settled.agrees

end Runs

def answered : List (PollingEvent Unit) :=
  [.answer () [1], .work (), .work (), .loop .again, .loop .again, .loop .again, .loop (.count 1), .loop .again,
   .loop .again]

theorem agrees_answered : Runs.Throughout step Agrees (init Unit 5 "127.0.0.1" 40000) answered :=
  agrees_of_timely 5 "127.0.0.1" 40000 answered (by decide)

/-- The loop writes a second answer before its worker asks for output. -/
def overtaken : List (PollingEvent Unit) :=
  answered.take 3 ++ [.answer () [2], .work ()] ++ List.replicate 11 (.loop (.count 1)) ++ [.work ()]

/-- A connection with nothing to write stays polled for output, which is never
changed by an empty queue. -/
theorem overtaken_deaf : ¬Runs.Throughout step Agrees (init Unit 5 "127.0.0.1" 40000) overtaken := by
  intro always
  have left : (Runs.run step (init Unit 5 "127.0.0.1" 40000) overtaken).loop = .waiting ∧
      (Runs.run step (init Unit 5 "127.0.0.1" 40000) overtaken).worker () = .outside ∧
      (Runs.run step (init Unit 5 "127.0.0.1" 40000) overtaken).client.writeQ.blocks = [] ∧
      (Runs.run step (init Unit 5 "127.0.0.1" 40000) overtaken).client.mode = .output := by decide
  obtain ⟨waiting, outside, empty, output⟩ := left
  have input := (always.last (fun _ => outside) waiting).1 empty
  rw [output] at input
  cases input

end Polling

end Dcn
