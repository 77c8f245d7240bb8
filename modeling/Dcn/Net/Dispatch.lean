import Dcn.Foundation.Runs
import Dcn.Net.Framing

/-! From framed packets to handler runs: the extraction loops of run_server and
run_client, the pool's task queue and the first step of the handlers,
dcn_async_worker and __dcn_on_message.

A packet goes to the read queue of its connection and its task to the task
queue of the pool, in two steps. A handler takes whatever is first in the read
queue of its connection. The connections are those of a server, or the sessions
of clients that share a pool; each has a thread that frames its packets.
-/

set_option autoImplicit false

namespace Dcn

/-- Where a worker of the pool is: it waits for a task, it has entered the
handler of a connection and has not yet popped, or it runs a coroutine. -/
inductive Place (κ : Type) where
  | idle
  | entered (conn : κ)
  | running
  deriving DecidableEq, Repr

/-- A block taken from a read queue, with the handler run that took it: the
worker and how many coroutines it had been given by then. -/
structure Popped (κ : Type) where
  worker : Nat
  run : Nat
  conn : κ
  block : Block
  deriving DecidableEq, Repr

def Popped.handler {κ : Type} (p : Popped κ) : Nat × Nat := (p.worker, p.run)

/-- The read queues, whether a packet was pushed whose task is still to be
scheduled, the task queue (`none` is a coroutine that is no handler) and the
workers; then what was pushed, what was popped, and the coroutines each worker
was given. -/
structure Dispatch (κ : Type) where
  readQ : κ → Queue
  framing : κ → Bool
  tasks : List (Option κ)
  workers : List (Place κ)
  framed : κ → List Block
  popped : List (Popped κ)
  runs : Nat → Nat

/-- A packet is pushed, its task is scheduled, another coroutine is scheduled; a
worker takes the first task, the handler it runs pops, or its coroutine ends. -/
inductive DispatchEvent (κ : Type) where
  | push (conn : κ) (packet : Block)
  | schedule (conn : κ)
  | submit
  | take (worker : Nat)
  | pop (worker : Nat)
  | finish (worker : Nat)
  deriving DecidableEq, Repr

namespace Dispatch

variable {κ : Type} [DecidableEq κ]

def init (κ : Type) (workers : Nat) : Dispatch κ where
  readQ := fun _ => queueInit
  framing := fun _ => false
  tasks := []
  workers := List.replicate workers .idle
  framed := fun _ => []
  popped := []
  runs := fun _ => 0

def begin : Option κ → Place κ
  | some conn => .entered conn
  | none => .running

def step (s : Dispatch κ) : DispatchEvent κ → Dispatch κ
  | .push conn packet =>
    if s.framing conn then s
    else { s with
      readQ := Function.update s.readQ conn (pushBlock (s.readQ conn) packet)
      framing := Function.update s.framing conn true
      framed := Function.update s.framed conn (s.framed conn ++ [packet]) }
  | .schedule conn =>
    if s.framing conn then
      { s with framing := Function.update s.framing conn false, tasks := s.tasks ++ [some conn] }
    else s
  | .submit => { s with tasks := s.tasks ++ [none] }
  | .take worker =>
    match s.workers[worker]?, s.tasks with
    | some .idle, task :: rest => { s with
        tasks := rest
        workers := s.workers.set worker (begin task)
        runs := Function.update s.runs worker (s.runs worker + 1) }
    | _, _ => s
  | .pop worker =>
    match s.workers[worker]? with
    | some (.entered conn) =>
      match popBlock (s.readQ conn) with
      | (_, some block, readQ) => { s with
          readQ := Function.update s.readQ conn readQ
          workers := s.workers.set worker .running
          popped := s.popped ++ [⟨worker, s.runs worker, conn, block⟩] }
      -- pop_block returned 1: the handler returns.
      | (_, none, _) => { s with workers := s.workers.set worker .idle }
    | _ => s
  | .finish worker =>
    if s.workers[worker]? = some .running then { s with workers := s.workers.set worker .idle } else s

/-- The handler tasks of a connection that have not popped yet, in the task
queue or with a worker. -/
def pending (s : Dispatch κ) (conn : κ) : Nat :=
  s.tasks.count (some conn) + s.workers.count (Place.entered conn)

def poppedFrom (s : Dispatch κ) (conn : κ) : List Block :=
  (s.popped.filter (·.conn = conn)).map Popped.block

/-- One handler run for each packet: blocks and tasks balance, no handler finds
its queue empty, the packets are popped in their order, each by a run of its
own, and all of them once nothing is pending. -/
structure OncePerPacket (s : Dispatch κ) : Prop where
  counted : ∀ conn, (s.readQ conn).blocks.length = s.pending conn + (s.framing conn).toNat
  found : ∀ (worker : Nat) (conn : κ), s.workers[worker]? = some (Place.entered conn) → (popBlock (s.readQ conn)).1 ≠ 1
  ordered : ∀ conn, s.framed conn = s.poppedFrom conn ++ (s.readQ conn).blocks
  distinct : (s.popped.map Popped.handler).Nodup
  drained : ∀ conn, s.pending conn = 0 → s.framing conn = false → s.poppedFrom conn = s.framed conn

/-- What the steps keep of this. A run that has not popped yet is later than all
that its worker has done. -/
structure Balanced (s : Dispatch κ) : Prop where
  counted : ∀ conn, (s.readQ conn).blocks.length = s.pending conn + (s.framing conn).toNat
  ordered : ∀ conn, s.framed conn = s.poppedFrom conn ++ (s.readQ conn).blocks
  distinct : (s.popped.map Popped.handler).Nodup
  earlier : ∀ p ∈ s.popped, p.run ≤ s.runs p.worker ∧
    ∀ conn, s.workers[p.worker]? = some (.entered conn) → p.run < s.runs p.worker

theorem count_workers {workers : List (Place κ)} {worker : Nat} {old : Place κ}
    (here : workers[worker]? = some old) (new place : Place κ) :
    (workers.set worker new).count place + (if old = place then 1 else 0) =
      workers.count place + (if new = place then 1 else 0) := by
  obtain ⟨inside, same⟩ := List.getElem?_eq_some_iff.mp here
  rw [List.count_set inside, same]
  by_cases was : old = place
  · have positive : 0 < workers.count place := by
      rw [List.count_pos_iff, ← was]
      exact List.mem_of_getElem? here
    simp only [was, beq_self_eq_true, ↓reduceIte, beq_iff_eq]
    omega
  · simp [was]

section Steps

variable {s : Dispatch κ}

theorem Balanced.found (balanced : s.Balanced) {worker : Nat} {conn : κ}
    (here : s.workers[worker]? = some (.entered conn)) :
    ∃ block rest, (s.readQ conn).blocks = block :: rest := by
  have member : Place.entered conn ∈ s.workers := List.mem_of_getElem? here
  have present : 0 < s.workers.count (Place.entered conn) := List.count_pos_iff.mpr member
  have counted := balanced.counted conn
  unfold pending at counted
  exact List.exists_cons_of_length_pos (by omega)

theorem balanced_push (balanced : s.Balanced) (conn : κ) (packet : Block) :
    (s.step (.push conn packet)).Balanced := by
  simp only [step]
  split
  · exact balanced
  · next free =>
    refine ⟨fun other => ?_, fun other => ?_, balanced.distinct, balanced.earlier⟩
    · have counted := balanced.counted other
      by_cases same : other = conn
      · subst same
        simp only [pending, free, Bool.toNat_false] at counted
        simp only [pending, Function.update_self, blocks_pushBlock, List.length_append, List.length_singleton,
          Bool.toNat_true]
        omega
      · simpa only [pending, Function.update_of_ne same] using counted
    · have ordered := balanced.ordered other
      by_cases same : other = conn
      · subst same
        simp only [Function.update_self, blocks_pushBlock, ordered, List.append_assoc]
        rfl
      · simpa only [poppedFrom, Function.update_of_ne same] using ordered

theorem balanced_schedule (balanced : s.Balanced) (conn : κ) : (s.step (.schedule conn)).Balanced := by
  simp only [step]
  split
  · next pushed =>
    refine ⟨fun other => ?_, balanced.ordered, balanced.distinct, balanced.earlier⟩
    have counted := balanced.counted other
    by_cases same : other = conn
    · subst same
      simp only [pending, pushed, Bool.toNat_true] at counted
      simp only [pending, List.count_append, List.count_singleton_self, Function.update_self, Bool.toNat_false]
      omega
    · have differ : some conn ≠ some other := fun equal => same (Option.some.inj equal).symm
      simpa only [pending, Function.update_of_ne same, List.count_append, List.count_singleton, beq_iff_eq,
        differ, ↓reduceIte, Nat.add_zero] using counted
  · exact balanced

theorem balanced_submit (balanced : s.Balanced) : (s.step .submit).Balanced := by
  refine ⟨fun other => ?_, balanced.ordered, balanced.distinct, balanced.earlier⟩
  have counted := balanced.counted other
  simpa [step, pending, List.count_append] using counted

theorem balanced_take (balanced : s.Balanced) (worker : Nat) : (s.step (.take worker)).Balanced := by
  simp only [step]
  split
  · next task rest here tasks =>
    refine ⟨fun conn => ?_, balanced.ordered, balanced.distinct, fun p member => ?_⟩
    · -- The task goes from the task queue to the worker.
      have counted := balanced.counted conn
      have moved := count_workers here (begin task) (.entered conn)
      simp only [pending, tasks, List.count_cons, beq_iff_eq] at counted
      simp only [reduceCtorEq, ↓reduceIte, Nat.add_zero] at moved
      simp only [pending, moved]
      cases task with
      | none => simpa [begin] using counted
      | some target =>
        simp only [Option.some.injEq] at counted
        simp only [begin, Place.entered.injEq]
        omega
    · obtain ⟨upTo, before⟩ := balanced.earlier p member
      by_cases same : p.worker = worker
      · rw [same] at upTo ⊢
        simp only [Function.update_self]
        exact ⟨by omega, fun _ _ => by omega⟩
      · simp only [Function.update_of_ne same, List.getElem?_set_ne (Ne.symm same)]
        exact ⟨upTo, before⟩
  · exact balanced

theorem balanced_pop (balanced : s.Balanced) (worker : Nat) : (s.step (.pop worker)).Balanced := by
  simp only [step]
  split
  · next conn here =>
    obtain ⟨block, rest, shape⟩ := balanced.found here
    rw [popBlock_cons shape]
    dsimp only
    have fresh : (worker, s.runs worker) ∉ s.popped.map Popped.handler := by
      intro known
      obtain ⟨p, member, same⟩ := List.mem_map.mp known
      obtain ⟨atWorker, atRun⟩ := Prod.mk.inj same
      subst atWorker
      exact absurd atRun (Nat.ne_of_lt ((balanced.earlier p member).2 conn here))
    refine ⟨fun other => ?_, fun other => ?_, ?_, fun p member => ?_⟩
    · have counted := balanced.counted other
      have moved := count_workers here .running (.entered other)
      simp only [reduceCtorEq, ↓reduceIte, Nat.add_zero, Place.entered.injEq] at moved
      by_cases same : other = conn
      · subst same
        simp only [↓reduceIte] at moved
        simp only [pending, shape, List.length_cons] at counted
        simp only [pending, Function.update_self]
        omega
      · simp only [Ne.symm same, ↓reduceIte, Nat.add_zero] at moved
        simpa only [pending, Function.update_of_ne same, moved] using counted
    · have ordered := balanced.ordered other
      by_cases same : other = conn
      · subst same
        simp [poppedFrom, Function.update_self, ordered, shape]
      · have differ : conn ≠ other := Ne.symm same
        simpa [poppedFrom, Function.update_of_ne same, differ] using ordered
    · rw [List.map_append]
      exact balanced.distinct.append (List.nodup_singleton _) (by simpa [Popped.handler] using fresh)
    · rcases List.mem_append.mp member with old | new
      · obtain ⟨upTo, before⟩ := balanced.earlier p old
        refine ⟨upTo, fun other there => ?_⟩
        by_cases same : p.worker = worker
        · rw [same] at before ⊢
          exact before conn here
        · rw [List.getElem?_set_ne (Ne.symm same)] at there
          exact before other there
      · rw [List.mem_singleton.mp new]
        refine ⟨Nat.le_refl _, fun other there => ?_⟩
        have inside := (List.getElem?_eq_some_iff.mp here).1
        rw [List.getElem?_set_self inside] at there
        cases there
  · exact balanced

theorem balanced_finish (balanced : s.Balanced) (worker : Nat) : (s.step (.finish worker)).Balanced := by
  simp only [step]
  split
  · next here =>
    refine ⟨fun conn => ?_, balanced.ordered, balanced.distinct, fun p member => ?_⟩
    · have moved := count_workers here .idle (.entered conn)
      simp only [reduceCtorEq, ↓reduceIte, Nat.add_zero] at moved
      simpa only [pending, moved] using balanced.counted conn
    · obtain ⟨upTo, before⟩ := balanced.earlier p member
      refine ⟨upTo, fun conn there => ?_⟩
      by_cases same : worker = p.worker
      · subst same
        have inside := (List.getElem?_eq_some_iff.mp here).1
        rw [List.getElem?_set_self inside] at there
        cases there
      · rw [List.getElem?_set_ne same] at there
        exact before conn there
  · exact balanced

theorem balanced_step (s : Dispatch κ) (e : DispatchEvent κ) (balanced : s.Balanced) : (s.step e).Balanced := by
  cases e with
  | push conn packet => exact balanced_push balanced conn packet
  | schedule conn => exact balanced_schedule balanced conn
  | submit => exact balanced_submit balanced
  | take worker => exact balanced_take balanced worker
  | pop worker => exact balanced_pop balanced worker
  | finish worker => exact balanced_finish balanced worker

end Steps

/-- The two steps of a framing thread are one iteration of its extraction loop. -/
theorem extractStep_eq (s : Dispatch κ) {conn : κ} {acc packet rest : Block} (free : s.framing conn = false)
    (cut : splitPacket acc = some (packet, rest)) (scheduled : Nat) :
    extractStep ⟨acc, s.readQ conn, scheduled⟩ =
        some ⟨rest, ((s.step (.push conn packet)).step (.schedule conn)).readQ conn, scheduled + 1⟩ ∧
      ((s.step (.push conn packet)).step (.schedule conn)).tasks = s.tasks ++ [some conn] ∧
      ((s.step (.push conn packet)).step (.schedule conn)).framing conn = false := by
  simp [extractStep, cut, step, free]

theorem balanced_init (κ : Type) [DecidableEq κ] (workers : Nat) : (init κ workers).Balanced where
  counted := fun conn => by simp [init, pending, List.count_replicate]
  ordered := fun conn => rfl
  distinct := List.nodup_nil
  earlier := fun p member => by cases member

theorem Balanced.oncePerPacket {s : Dispatch κ} (balanced : s.Balanced) : s.OncePerPacket where
  counted := balanced.counted
  found := by
    intro worker conn here one
    obtain ⟨block, rest, shape⟩ := balanced.found here
    rw [popBlock_code_one.mp one] at shape
    cases shape
  ordered := balanced.ordered
  distinct := balanced.distinct
  drained := by
    intro conn nothing free
    have counted := balanced.counted conn
    rw [nothing, free] at counted
    rw [balanced.ordered conn, List.eq_nil_of_length_eq_zero counted, List.append_nil]

/-- For any number of connections and workers, in every interleaving of the
framing threads with the workers, each packet has one handler run. -/
theorem once_per_packet (workers : Nat) (events : List (DispatchEvent κ)) :
    Runs.Throughout step OncePerPacket (init κ workers) events :=
  (Runs.throughout_of_preserved_all balanced_step (balanced_init κ workers) events).mono
    fun _ balanced => balanced.oncePerPacket

end Dispatch

end Dcn
